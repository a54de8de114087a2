import CssStyling.Matching.Simple
import CssStyling.Proofs.Matching.Nth
import CssStyling.Proofs.Token.Occurrences

namespace CssStyling.Nth

open Lexer NumberText Rounding

variable {a b n : ℤ} {signed : Bool} {w letters : List Char} {o q : Occurrence}
  {os r : List Occurrence} {p : Nth} {ts : List Token}

theorem coefficient?_digits (negative : Bool) (ds : List Char) :
    coefficient? (Written.toFloat ⟨negative, ds, [], 0⟩) =
      limited? (Binary.applySign negative (digitsToNat ds)) := by
  unfold coefficient?
  rcases Nat.lt_or_ge (digitsToNat ds) (2 ^ 53) with small | large
  · rw [toInt?_exact negative small]
    rfl
  · have beyond {z : ℤ} (h : 2 ^ 52 ≤ |z|) : limited? z = none := by
      refine if_neg fun limited => ?_
      have := abs_le.mpr limited
      unfold coefficientLimit at this
      omega
    have far : limited? (Binary.applySign negative (digitsToNat ds)) = none := by
      refine beyond ?_
      unfold Binary.applySign
      split <;> simp only [abs_neg, Nat.abs_cast] <;> exact_mod_cast by omega
    rw [far]
    cases hz : (Binary.ofFloat (Written.toFloat ⟨negative, ds, [], 0⟩)).toInt? with
    | none => rfl
    | some z => exact beyond (toInt?_large negative large hz)

theorem coefficient?_whole (h : Whole w signed n) : coefficient? (number w).1 = limited? n := by
  cases h with
  | intro hs hne hd hr => rw [number_whole hs hne hd hr, coefficient?_digits]

structure Integer (o : Occurrence) (signed : Bool) (n : ℤ) : Prop where
  kind : ∃ v i s, o.token = .number v i s
  written : Whole o.text signed n

theorem integer_of_number {v : Float} {s : Bool} (h : o.Read) (ht : o.token = .number v true s)
    (hv : coefficient? v = some b) : Integer o s b ∧ |b| ≤ coefficientLimit := by
  obtain ⟨starts, value, flag, sign⟩ := h.number ht
  have whole := whole_of_isInteger starts flag
  rw [← value, coefficient?_whole whole] at hv
  obtain ⟨rfl, limited⟩ := limited?_eq_some.mp hv
  exact ⟨⟨⟨v, true, s, ht⟩, sign ▸ whole⟩, limited⟩

theorem Integer.token_eq (h : o.Read) (hi : Integer o signed b) (limited : |b| ≤ coefficientLimit) :
    ∃ v, o.token = .number v true signed ∧ coefficient? v = some b := by
  obtain ⟨⟨v, i, s, ht⟩, written⟩ := hi
  obtain ⟨-, value, flag, sign⟩ := h.number ht
  obtain ⟨whole, same, -⟩ := written.eq
  refine ⟨v, ?_, ?_⟩
  · rw [ht, ← flag, whole, ← sign, same]
  · rw [← value, coefficient?_whole written]
    exact limited?_eq_some.mpr ⟨rfl, limited⟩

theorem integer?_iff (h : o.Read) : integer? signed o.token = some b ↔
    Integer o signed b ∧ |b| ≤ coefficientLimit := by
  constructor
  · intro read
    unfold integer? at read
    split at read
    · rename_i v s ht
      split at read
      · rename_i same
        rw [← eq_of_beq same]
        exact integer_of_number h ht read
      · cases read
    · cases read
  · rintro ⟨hi, limited⟩
    obtain ⟨v, ht, hv⟩ := hi.token_eq h limited
    rw [ht, integer?, if_pos (beq_self_eq_true signed), hv]

inductive Step : List Occurrence → ℤ → List Char → Prop where
  | digits {o : Occurrence} {v : Float} {unit : String} {signed : Bool} {a : ℤ}
      (kind : o.token = .dimension v unit) (written : Whole o.text signed a) :
      Step [o] a (lowerChars unit)
  | letter {o : Occurrence} {name : String} (kind : o.token = .ident name) :
      Step [o] 1 (lowerChars name)
  | plus {q o : Occurrence} {name : String} (sign : q.token = .delim '+')
      (kind : o.token = .ident name) (touches : o.spaced = false) : Step [q, o] 1 (lowerChars name)
  | minus {o : Occurrence} {name : String} {letters : List Char} (kind : o.token = .ident name)
      (sign : lowerChars name = '-' :: letters) : Step [o] (-1) letters

inductive LooseStep : List Occurrence → ℤ → List Char → Prop where
  | apart {q o : Occurrence} {name : String} (sign : q.token = .delim '+')
      (kind : o.token = .ident name) (spaced : o.spaced = true) :
      LooseStep [q, o] 1 (lowerChars name)
  | fraction {o : Occurrence} {v : Float} {unit : String} {a : ℤ}
      (kind : o.token = .dimension v unit) (unwritten : ∀ signed n, ¬Whole o.text signed n)
      (value : (Binary.ofFloat v).toInt? = some a) : LooseStep [o] a (lowerChars unit)

inductive Offset : List Char → List Occurrence → ℤ → Prop where
  | none : Offset ['n'] [] 0
  | signed {o : Occurrence} {b : ℤ} (h : Integer o true b) : Offset ['n'] [o] b
  | plus {q o : Occurrence} {b : ℤ} (sign : q.token = .delim '+') (h : Integer o false b) :
      Offset ['n'] [q, o] b
  | minus {q o : Occurrence} {b : ℤ} (sign : q.token = .delim '-') (h : Integer o false b) :
      Offset ['n'] [q, o] (-b)
  | dash {o : Occurrence} {b : ℤ} (h : Integer o false b) : Offset ['n', '-'] [o] (-b)
  | digits {ds : List Char} (some : ds ≠ []) (h : ∀ d ∈ ds, d.isDigit = true) :
      Offset ('n' :: '-' :: ds) [] (-(digitsToNat ds : ℤ))

inductive Production : List Occurrence → Nth → Prop where
  | odd {o : Occurrence} {name : String} (kind : o.token = .ident name)
      (h : lowerChars name = ['o', 'd', 'd']) : Production [o] ⟨2, 1⟩
  | even {o : Occurrence} {name : String} (kind : o.token = .ident name)
      (h : lowerChars name = ['e', 'v', 'e', 'n']) : Production [o] ⟨2, 0⟩
  | integer {o : Occurrence} {signed : Bool} {b : ℤ} (h : Integer o signed b) :
      Production [o] ⟨0, b⟩
  | linear {l r : List Occurrence} {a b : ℤ} {letters : List Char} (step : Step l a letters)
      (offset : Offset letters r b) : Production (l ++ r) ⟨a, b⟩

inductive Lenient : List Occurrence → Nth → Prop where
  | linear {l r : List Occurrence} {a b : ℤ} {letters : List Char} (step : LooseStep l a letters)
      (offset : Offset letters r b) : Lenient (l ++ r) ⟨a, b⟩

theorem Offset.head_letters (h : Offset letters r b) : ∃ cs, letters = 'n' :: cs := by
  cases h <;> exact ⟨_, rfl⟩

theorem Offset.ofLead? (hr : ∀ o ∈ r, o.Read) (h : Offset letters r b)
    (limited : |b| ≤ coefficientLimit) :
    ofLead? (a, letters, r.map Occurrence.token) = some ⟨a, b⟩ := by
  have integer {o : Occurrence} {signed : Bool} {b : ℤ} (ho : o.Read) (hi : Integer o signed b)
      (hb : |b| ≤ coefficientLimit) : integer? signed o.token = some b :=
    (integer?_iff ho).mpr ⟨hi, hb⟩
  cases h with
  | none => rfl
  | signed h =>
      simp [Nth.ofLead?, offset?, integer (hr _ List.mem_cons_self) h limited]
  | plus sign h =>
      have read := integer (hr _ (.tail _ List.mem_cons_self)) h limited
      simp [Nth.ofLead?, offset?, sign, read]
  | minus sign h =>
      rw [abs_neg] at limited
      have read := integer (hr _ (.tail _ List.mem_cons_self)) h limited
      simp [Nth.ofLead?, offset?, sign, read]
  | dash h =>
      rw [abs_neg] at limited
      have read := integer (hr _ List.mem_cons_self) h limited
      simp [Nth.ofLead?, negativeOffset?, read]
  | digits some h =>
      rw [abs_neg] at limited
      have read : limited? _ = _ := limited?_eq_some.mpr ⟨rfl, limited⟩
      simp [Nth.ofLead?, negativeOffset?, read, some, List.all_eq_true.mpr h]

structure Leads (l : List Occurrence) (a : ℤ) (letters : List Char) : Prop where
  lead (ts : List Token) : lead? (l.map Occurrence.token ++ ts) = some (a, letters, ts)
  many (ts : List Token) : single? (l.map Occurrence.token ++ ts) = none

theorem leads_dimension {v : Float} {unit : String} (kind : o.token = .dimension v unit)
    (value : coefficient? v = some a) : Leads [o] a (lowerChars unit) where
  lead ts := by simp [kind, lead?, value]
  many ts := by simp [kind, single?]

theorem leads_plus {name : String} {cs : List Char} (sign : q.token = .delim '+')
    (kind : o.token = .ident name) (h : lowerChars name = 'n' :: cs) :
    Leads [q, o] 1 (lowerChars name) where
  lead ts := by simp [sign, kind, lead?, h]
  many ts := by simp [sign, single?]

theorem leads_letter {name : String} {cs : List Char} (kind : o.token = .ident name)
    (h : lowerChars name = 'n' :: cs) : Leads [o] 1 (lowerChars name) where
  lead ts := by simp [kind, lead?, h]
  many ts := by cases ts <;> simp [kind, single?, h]

theorem leads_minus {name : String} (kind : o.token = .ident name)
    (h : lowerChars name = '-' :: letters) : Leads [o] (-1) letters where
  lead ts := by simp [kind, lead?, h]
  many ts := by cases ts <;> simp [kind, single?, h]

theorem Step.leads {l : List Occurrence} {cs : List Char} (hl : ∀ o ∈ l, o.Read)
    (h : Step l a ('n' :: cs)) (limited : |a| ≤ coefficientLimit) : Leads l a ('n' :: cs) := by
  generalize hn : 'n' :: cs = letters at h ⊢
  cases h with
  | digits kind written =>
      refine leads_dimension kind ?_
      obtain ⟨-, value⟩ := (hl _ List.mem_cons_self).dimension kind
      rw [← value, coefficient?_whole written]
      exact limited?_eq_some.mpr ⟨rfl, limited⟩
  | letter kind => exact leads_letter kind hn.symm
  | plus sign kind touches => exact leads_plus sign kind hn.symm
  | minus kind sign => exact leads_minus kind sign

theorem LooseStep.leads {l : List Occurrence} {cs : List Char} (h : LooseStep l a ('n' :: cs))
    (limited : |a| ≤ coefficientLimit) : Leads l a ('n' :: cs) := by
  generalize hn : 'n' :: cs = letters at h ⊢
  cases h with
  | apart sign kind spaced => exact leads_plus sign kind hn.symm
  | fraction kind unwritten value =>
      refine leads_dimension kind ?_
      rw [coefficient?, value]
      exact limited?_eq_some.mpr ⟨rfl, limited⟩

theorem Leads.read {l : List Occurrence} (h : Leads l a letters) (hr : ∀ o ∈ r, o.Read)
    (offset : Offset letters r b) (limited : |b| ≤ coefficientLimit)
    (hp : ts.filter (fun t => !t.isWhitespace) = (l ++ r).map Occurrence.token) :
    ofTokens? ts = some ⟨a, b⟩ := by
  rw [List.map_append] at hp
  unfold ofTokens?
  simp only [hp, h.many, h.lead, Option.bind_some]
  exact offset.ofLead? hr limited

theorem Production.read (hos : ∀ o ∈ os, o.Read) (h : Production os p) (limited : p.Limited)
    (ht : ts.filter (fun t => !t.isWhitespace) = os.map Occurrence.token) :
    ofTokens? ts = some p := by
  cases h with
  | odd kind h => simp [ofTokens?, ht, kind, single?, h]
  | even kind h => simp [ofTokens?, ht, kind, single?, h]
  | integer h =>
      obtain ⟨v, kind, value⟩ := h.token_eq (hos _ List.mem_cons_self) limited.offset
      simp [ofTokens?, ht, kind, single?, value]
  | linear step offset =>
      obtain ⟨cs, rfl⟩ := offset.head_letters
      have leads := step.leads (fun o ho => hos o (List.mem_append_left _ ho)) limited.step
      exact leads.read (fun o ho => hos o (List.mem_append_right _ ho)) offset limited.offset ht

theorem Lenient.read (hos : ∀ o ∈ os, o.Read) (h : Lenient os p) (limited : p.Limited)
    (ht : ts.filter (fun t => !t.isWhitespace) = os.map Occurrence.token) :
    ofTokens? ts = some p := by
  cases h with
  | linear step offset =>
      obtain ⟨cs, rfl⟩ := offset.head_letters
      have leads := step.leads limited.step
      exact leads.read (fun o ho => hos o (List.mem_append_right _ ho)) offset limited.offset ht

theorem step_of_dimension {v : Float} {unit : String} (h : o.Read)
    (kind : o.token = .dimension v unit) (value : coefficient? v = some a) :
    Step [o] a (lowerChars unit) ∨ LooseStep [o] a (lowerChars unit) := by
  by_cases written : ∃ signed n, Whole o.text signed n
  · obtain ⟨signed, n, whole⟩ := written
    rw [← (h.dimension kind).2, coefficient?_whole whole] at value
    obtain ⟨rfl, -⟩ := limited?_eq_some.mp value
    exact .inl (.digits kind whole)
  · obtain ⟨z, hz, limited⟩ := Option.bind_eq_some_iff.mp value
    obtain ⟨rfl, -⟩ := limited?_eq_some.mp limited
    exact .inr (.fraction kind (fun signed n whole => written ⟨signed, n, whole⟩) hz)

theorem step_of_plus {name : String} (sign : q.token = .delim '+') (kind : o.token = .ident name) :
    Step [q, o] 1 (lowerChars name) ∨ LooseStep [q, o] 1 (lowerChars name) := by
  cases spaced : o.spaced with
  | false => exact .inl (.plus sign kind spaced)
  | true => exact .inr (.apart sign kind spaced)

theorem step_of_lead? (hos : ∀ o ∈ os, o.Read)
    (h : lead? (os.map Occurrence.token) = some (a, letters, ts)) :
    ∃ l r, os = l ++ r ∧ r.map Occurrence.token = ts ∧
      (Step l a letters ∨ LooseStep l a letters) := by
  unfold lead? at h
  split at h
  · rename_i v unit rest ht
    obtain ⟨o, r, rfl, kind, tail⟩ := List.map_eq_cons_iff.mp ht
    obtain ⟨b, value, same⟩ := Option.map_eq_some_iff.mp h
    obtain ⟨rfl, rfl, rfl⟩ := same
    exact ⟨[o], r, rfl, tail, step_of_dimension (hos o List.mem_cons_self) kind value⟩
  · rename_i name rest ht
    obtain ⟨q, r, rfl, sign, ht⟩ := List.map_eq_cons_iff.mp ht
    obtain ⟨o, r, rfl, kind, tail⟩ := List.map_eq_cons_iff.mp ht
    split at h <;> cases h
    exact ⟨[q, o], r, rfl, tail, step_of_plus sign kind⟩
  · rename_i name rest ht
    obtain ⟨o, r, rfl, kind, tail⟩ := List.map_eq_cons_iff.mp ht
    split at h
    · rename_i dash
      cases h
      exact ⟨[o], r, rfl, tail, .inl (.minus kind dash)⟩
    · cases h
      exact ⟨[o], r, rfl, tail, .inl (.letter kind)⟩
  · cases h

theorem exists_pair {α β : Type} {f : α → β} {l : List α} {x y : β} (h : l.map f = [x, y]) :
    ∃ a b, l = [a, b] ∧ f a = x ∧ f b = y := by
  obtain ⟨a, l, rfl, ha, h⟩ := List.map_eq_cons_iff.mp h
  obtain ⟨b, rfl, hb⟩ := List.map_eq_singleton_iff.mp h
  exact ⟨a, b, rfl, ha, hb⟩

theorem offset_of_offset? (hr : ∀ o ∈ r, o.Read)
    (h : offset? (r.map Occurrence.token) = some b) : Offset ['n'] r b := by
  unfold offset? at h
  split at h
  · rename_i ht
    cases h
    rw [List.map_eq_nil_iff.mp ht]
    exact .none
  · rename_i ht
    obtain ⟨o, rfl, kind⟩ := List.map_eq_singleton_iff.mp ht
    rw [← kind] at h
    exact .signed ((integer?_iff (hr o List.mem_cons_self)).mp h).1
  · rename_i ht
    obtain ⟨q, o, rfl, sign, kind⟩ := exists_pair ht
    rw [← kind] at h
    exact .plus sign ((integer?_iff (hr o (.tail _ List.mem_cons_self))).mp h).1
  · rename_i ht
    obtain ⟨q, o, rfl, sign, kind⟩ := exists_pair ht
    rw [← kind] at h
    obtain ⟨b, read, rfl⟩ := Option.map_eq_some_iff.mp h
    exact .minus sign ((integer?_iff (hr o (.tail _ List.mem_cons_self))).mp read).1
  · cases h

theorem offset_of_negativeOffset? {ds : List Char} (hr : ∀ o ∈ r, o.Read)
    (h : negativeOffset? ds (r.map Occurrence.token) = some b) :
    Offset ('n' :: '-' :: ds) r b := by
  unfold negativeOffset? at h
  split at h
  · rename_i ht
    rw [List.map_eq_nil_iff.mp ht]
    split at h
    · rename_i digits
      obtain ⟨n, read, rfl⟩ := Option.map_eq_some_iff.mp h
      obtain ⟨rfl, -⟩ := limited?_eq_some.mp read
      exact .digits digits.1 (List.all_eq_true.mp digits.2)
    · cases h
  · rename_i ht
    obtain ⟨o, rfl, kind⟩ := List.map_eq_singleton_iff.mp ht
    split at h
    · rename_i nothing
      subst ds
      rw [← kind] at h
      obtain ⟨b, read, rfl⟩ := Option.map_eq_some_iff.mp h
      exact .dash ((integer?_iff (hr o List.mem_cons_self)).mp read).1
    · cases h
  · cases h

theorem offset_of_ofLead? (hr : ∀ o ∈ r, o.Read)
    (h : ofLead? (a, letters, r.map Occurrence.token) = some p) :
    ∃ b, p = ⟨a, b⟩ ∧ Offset letters r b := by
  unfold ofLead? at h
  split at h
  · rename_i same
    obtain ⟨rfl, rfl, rfl⟩ := same
    obtain ⟨b, read, rfl⟩ := Option.map_eq_some_iff.mp h
    exact ⟨b, rfl, offset_of_offset? hr read⟩
  · rename_i same
    obtain ⟨rfl, rfl, rfl⟩ := same
    obtain ⟨b, read, rfl⟩ := Option.map_eq_some_iff.mp h
    exact ⟨b, rfl, offset_of_negativeOffset? hr read⟩
  · cases h

theorem production_of_single? (hos : ∀ o ∈ os, o.Read)
    (h : single? (os.map Occurrence.token) = some (some p)) : Production os p := by
  unfold single? at h
  split at h
  · rename_i ht
    obtain ⟨o, rfl, kind⟩ := List.map_eq_singleton_iff.mp ht
    split at h
    · rename_i word
      cases h
      exact .odd kind word
    · split at h
      · rename_i word
        cases h
        exact .even kind word
      · cases h
  · rename_i ht
    obtain ⟨o, rfl, kind⟩ := List.map_eq_singleton_iff.mp ht
    obtain ⟨b, value, rfl⟩ := Option.map_eq_some_iff.mp (Option.some.inj h)
    exact .integer (integer_of_number (hos o List.mem_cons_self) kind value).1
  · cases h

theorem read_iff (hos : ∀ o ∈ os, o.Read)
    (ht : ts.filter (fun t => !t.isWhitespace) = os.map Occurrence.token) :
    ofTokens? ts = some p ↔ (Production os p ∨ Lenient os p) ∧ p.Limited := by
  constructor
  · intro h
    refine ⟨?_, limited_of_ofTokens? h⟩
    simp only [ofTokens?, ht] at h
    split at h
    · rename_i single
      rw [h] at single
      exact .inl (production_of_single? hos single)
    · obtain ⟨⟨a, letters, rest⟩, lead, read⟩ := Option.bind_eq_some_iff.mp h
      obtain ⟨l, r, rfl, rfl, step⟩ := step_of_lead? hos lead
      obtain ⟨b, rfl, offset⟩ :=
        offset_of_ofLead? (fun o ho => hos o (List.mem_append_right _ ho)) read
      rcases step with step | step
      · exact .inl (.linear step offset)
      · exact .inr (.linear step offset)
  · rintro ⟨production | lenient, limited⟩
    · exact production.read hos limited ht
    · exact lenient.read hos limited ht

def arguments (text : String) : List Token :=
  Token.trim (words text.toList)

def Accepted (text : String) (p : Nth) : Prop :=
  (Production (occurrences false text.toList) p ∨ Lenient (occurrences false text.toList) p) ∧
    p.Limited

theorem nthPosition_iff {text : String} {position : ℕ}
    (h : ∀ p, ofTokens? ts = some p ↔ Accepted text p) :
    Matching.nthPosition ts position = true ↔
      ∃ p, Accepted text p ∧ p.selects position = true := by
  rw [Matching.nthPosition, Option.any_eq_true]
  exact exists_congr fun p => and_congr_left' (h p)

theorem accepted_iff (text : String) :
    (∀ p, ofTokens? (arguments text) = some p ↔ Accepted text p) ∧
    (∀ c d id e,
      Matching.simple c d id e (.pseudoClass "nth-child" (some (arguments text))) = true ↔
        ∃ p, Accepted text p ∧ p.selects ((d.precedingElements id).length + 1) = true) ∧
    ∀ c d id e,
      Matching.simple c d id e (.pseudoClass "nth-last-child" (some (arguments text))) = true ↔
        ∃ p, Accepted text p ∧ p.selects ((d.followingElements id).length + 1) = true := by
  have ink : (arguments text).filter (fun t => !t.isWhitespace) =
      (occurrences false text.toList).map Occurrence.token := by
    rw [arguments, Token.filter_trim, token_occurrences]
  have accepted (p : Nth) : ofTokens? (arguments text) = some p ↔ Accepted text p :=
    read_iff (fun o => read_of_mem_occurrences) ink
  exact ⟨accepted, fun _ _ _ _ => nthPosition_iff accepted, fun _ _ _ _ => nthPosition_iff accepted⟩

theorem spaced_plus_read : ofTokens? (arguments "+ n") = some ⟨1, 0⟩ ∧
    ∀ p, ¬Production (occurrences false "+ n".toList) p := by
  have read : occurrences false "+ n".toList =
      [⟨.delim '+', "+ n".toList, false⟩, ⟨.ident "n", ['n'], true⟩] := by cbv
  refine ⟨by cbv, fun p h => ?_⟩
  generalize hos : occurrences false "+ n".toList = os at h
  rw [read] at hos
  cases h with
  | linear step offset =>
      cases step with
      | plus sign kind touches =>
          obtain ⟨-, rest⟩ := List.cons.inj hos
          obtain ⟨rfl, -⟩ := List.cons.inj rest
          cases touches
      | digits kind written =>
          obtain ⟨rfl, -⟩ := List.cons.inj hos
          cases kind
      | letter kind =>
          obtain ⟨rfl, -⟩ := List.cons.inj hos
          cases kind
      | minus kind sign =>
          obtain ⟨rfl, -⟩ := List.cons.inj hos
          cases kind
  | _ => cases hos

end CssStyling.Nth

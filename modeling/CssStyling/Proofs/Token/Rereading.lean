import CssStyling.Proofs.Token.Numerals
import CssStyling.Proofs.Token.Stopping

namespace CssStyling

namespace Token

variable {x x' : Token}

def isNumeric : Token → Bool
  | number _ _ _ => true
  | percentage _ => true
  | dimension _ _ => true
  | _ => false

theorem same_of_beq (h : (x' == x) = true) (hx : x.isNumeric = false) : x' = x := by
  cases x' <;> cases x <;> first | rfl | cases h | cases hx
  case ident.ident => exact congrArg ident (eq_of_beq h)
  case function.function => exact congrArg function (eq_of_beq h)
  case string.string => exact congrArg string (eq_of_beq h)
  case delim.delim => exact congrArg delim (eq_of_beq h)
  case namespaceMark.namespaceMark => exact congrArg namespaceMark (eq_of_beq h)
  case combinator.combinator => exact congrArg combinator (eq_of_beq h)
  case hash.hash v i w j =>
    have fields : (hash v i == hash w j) = (v == w && i == j) := rfl
    rw [fields, Bool.and_eq_true] at h
    rw [eq_of_beq h.1, eq_of_beq h.2]
  case qualifiedName.qualifiedName p m q n =>
    have fields : (qualifiedName p m == qualifiedName q n) = (p == q && m == n) := rfl
    rw [fields, Bool.and_eq_true] at h
    rw [eq_of_beq h.1, eq_of_beq h.2]

theorem number_of_beq {v : Float} {i s : Bool} (h : (x' == number v i s) = true) :
    ∃ v', x' = number v' i s := by
  cases x' with
  | number v' i' s' =>
      have fields : (number v' i' s' == number v i s) = (v' == v && (i' == i && s' == s)) := rfl
      rw [fields, Bool.and_eq_true, Bool.and_eq_true] at h
      exact ⟨v', by rw [eq_of_beq h.2.1, eq_of_beq h.2.2]⟩
  | _ => cases h

theorem percentage_of_beq {v : Float} (h : (x' == percentage v) = true) :
    ∃ v', x' = percentage v' := by
  cases x' with
  | percentage v' => exact ⟨v', rfl⟩
  | _ => cases h

theorem dimension_of_beq {v : Float} {unit : String} (h : (x' == dimension v unit) = true) :
    ∃ v', x' = dimension v' unit := by
  cases x' with
  | dimension v' unit' =>
      have fields : (dimension v' unit' == dimension v unit) = (v' == v && unit' == unit) := rfl
      rw [fields, Bool.and_eq_true] at h
      exact ⟨v', by rw [eq_of_beq h.2]⟩
  | _ => cases h

theorem congr_of_beq {β : Type} {f : Token → β} (h : (x' == x) = true)
    (hn : ∀ v i s v', f (number v i s) = f (number v' i s))
    (hp : ∀ v v', f (percentage v) = f (percentage v'))
    (hd : ∀ v u v', f (dimension v u) = f (dimension v' u)) : f x' = f x := by
  cases x with
  | number v i s =>
      obtain ⟨v', rfl⟩ := number_of_beq h
      exact hn v' i s v
  | percentage v =>
      obtain ⟨v', rfl⟩ := percentage_of_beq h
      exact hp v' v
  | dimension v u =>
      obtain ⟨v', rfl⟩ := dimension_of_beq h
      exact hd v' u v
  | _ => rw [same_of_beq h rfl]

end Token

namespace Lexer

variable {c : Char} {cs s s' y z w rest : List Char} {x x' : Token} {n : Nat}

def inner (s z : List Char) : List Char :=
  s.flatMap quotedChar ++ '"' :: z

theorem inner_cons : inner (c :: s) z = quotedChar c ++ inner s z := by
  rw [inner, List.flatMap_cons, List.append_assoc, inner]

theorem inner_cons_cases (c : Char) (s z : List Char) :
    (∃ m, inner (c :: s) z = '\\' :: (m ++ inner s z) ∧
        (m = ['"'] ∨ m = ['\\'] ∨ m = ['a', ' '])) ∨
      inner (c :: s) z = c :: inner s z ∧ c ≠ '"' ∧ c ≠ '\\' := by
  rw [inner_cons]
  by_cases hq : c = '"'
  · subst c
    exact .inl ⟨['"'], rfl, .inl rfl⟩
  · by_cases hb : c = '\\'
    · subst c
      exact .inl ⟨['\\'], rfl, .inr (.inl rfl)⟩
    · by_cases hn : c = '\n'
      · subst c
        exact .inl ⟨['a', ' '], rfl, .inr (.inr rfl)⟩
      · rw [quotedChar_of_ne hq hb hn]
        exact .inr ⟨rfl, hq, hb⟩

theorem inner_eq_cons (h : inner s z = c :: rest) (hq : c ≠ '"') (hb : c ≠ '\\') :
    ∃ s', s = c :: s' ∧ inner s' z = rest := by
  cases s with
  | nil => exact absurd (List.cons.inj h).1 (Ne.symm hq)
  | cons d s =>
      rcases inner_cons_cases d s z with ⟨m, hm, -⟩ | ⟨hd, -⟩
      · rw [hm] at h
        exact absurd (List.cons.inj h).1 (Ne.symm hb)
      · rw [hd] at h
        obtain ⟨rfl, rfl⟩ := List.cons.inj h
        exact ⟨s, rfl, rfl⟩

theorem stringBody_inner (s z : List Char) :
    (stringBody '\'' (inner s z)).1.length ≤ s.length ∨
      (stringBody '\'' (inner s z)).2.length ≤ z.length := by
  induction s with
  | nil =>
      have raw : stringBody '\'' (inner [] z) = _ :=
        stringBody_raw (by decide) (by decide) (by decide)
      rw [raw]
      exact .inr (stringBody_length_le '\'' z)
  | cons c s ih =>
      rw [inner_cons]
      by_cases hc : c = '\''
      · subst c
        have close : stringBody '\'' (quotedChar '\'' ++ inner s z) = ([], inner s z) :=
          stringBody_close
        rw [close]
        exact .inl (Nat.zero_le _)
      · rw [stringBody_quotedChar (by decide) fun h => absurd h hc]
        rcases ih with ih | ih
        · exact .inl (Nat.succ_le_succ ih)
        · exact .inr ih

theorem afterComment_inner (s z : List Char) :
    (∃ s', s'.length ≤ s.length ∧ afterComment (inner s z) = inner s' z) ∨
      (afterComment (inner s z)).length ≤ z.length := by
  induction s with
  | nil =>
      have quote : afterComment (inner [] z) = afterComment z :=
        afterComment_cons fun _ h => absurd (List.cons.inj h).1 (by decide)
      rw [quote]
      exact .inr (afterComment_length_le z)
  | cons c s ih =>
      by_cases hend : ∃ s', c = '*' ∧ s = '/' :: s'
      · obtain ⟨s', rfl, rfl⟩ := hend
        exact .inl ⟨s', by simp only [List.length_cons]; omega, rfl⟩
      · -- no escape holds an asterisk, and a slash behind one is a character of the string
        have skip : afterComment (inner (c :: s) z) = afterComment (inner s z) := by
          have other {d : Char} {w : List Char} (hd : d ≠ '*') :
              afterComment (d :: w) = afterComment w :=
            afterComment_cons fun _ h => hd (List.cons.inj h).1
          rcases inner_cons_cases c s z with ⟨m, hm, hms⟩ | ⟨hc, -, -⟩
          · rw [hm]
            rcases hms with rfl | rfl | rfl
            · exact (other (by decide)).trans (other (by decide))
            · exact (other (by decide)).trans (other (by decide))
            · exact (other (by decide)).trans ((other (by decide)).trans (other (by decide)))
          · rw [hc]
            refine afterComment_cons fun r hr => hend ?_
            obtain ⟨hstar, hslash⟩ := List.cons.inj hr
            obtain ⟨s', hs', -⟩ := inner_eq_cons hslash (by decide) (by decide)
            exact ⟨s', hstar, hs'⟩
        rw [skip]
        rcases ih with ⟨s', hs, ih⟩ | ih
        · exact .inl ⟨s', Nat.le_succ_of_le hs, ih⟩
        · exact .inr ih

theorem skipComments_inner (s z : List Char) :
    (∃ s', s'.length ≤ s.length ∧ skipComments (inner s z) = inner s' z) ∨
      (skipComments (inner s z)).length ≤ z.length := by
  by_cases hs : ∃ s', s = '/' :: '*' :: s'
  · obtain ⟨s', rfl⟩ := hs
    have comment : skipComments (inner ('/' :: '*' :: s') z) =
        skipComments (afterComment (inner s' z)) := skipComments_comment
    rw [comment]
    rcases afterComment_inner s' z with ⟨s'', hle, h⟩ | h
    · rw [h]
      have hlt : s''.length < ('/' :: '*' :: s').length := by
        simp only [List.length_cons]
        omega
      rcases skipComments_inner s'' z with ⟨s₃, hle', h'⟩ | h'
      · exact .inl ⟨s₃, by simp only [List.length_cons]; omega, h'⟩
      · exact .inr h'
    · exact .inr (Nat.le_trans (skipComments_length_le _) h)
  · refine .inl ⟨s, Nat.le_refl _, skipComments_eq fun r hr => hs ?_⟩
    obtain ⟨s', hslash, hr'⟩ := inner_eq_cons hr (by decide) (by decide)
    obtain ⟨s'', hstar, -⟩ := inner_eq_cons hr' (by decide) (by decide)
    exact ⟨s'', by rw [hslash, hstar]⟩
termination_by s.length

theorem string_of_tokenAt {v : String} (h : (tokenAt c cs).1 = .string v) :
    (c = '"' ∨ c = '\'') ∧ stringBody c cs = (v.toList, (tokenAt c cs).2) :=
  string_of_kind (kind (Prod.ext h rfl))

theorem length_next_inner {v : String} (hs : s.length ≤ v.toList.length)
    (h : (next (inner s z)).1 = .string v) : (next (inner s z)).2.length ≤ z.length := by
  rw [next_eq_first] at h ⊢
  rcases skipComments_inner s z with ⟨s', hle, hs'⟩ | hle
  · rw [hs'] at h ⊢
    cases s' with
    | nil => exact tokenAt_length_le '"' z
    | cons c s' =>
        rcases inner_cons_cases c s' z with ⟨m, hm, -⟩ | ⟨hc, hq, -⟩
        · rw [hm] at h
          have quote := (string_of_tokenAt h).1
          exact absurd quote (by decide)
        · rw [hc] at h ⊢
          obtain ⟨quote, hb⟩ := string_of_tokenAt h
          obtain rfl := quote.resolve_left hq
          have within := stringBody_inner s' z
          rw [hb] at within
          rcases within with hv | hz
          · simp only [List.length_cons] at hle hv
            omega
          · exact hz
  · exact Nat.le_trans length_first_le hle

/-- Where a part of the text of a string can begin: between two characters, at the end, or within
an escape. -/
inductive Part (s : List Char) : List Char → Prop where
  | between (s' : List Char) (h : s'.length ≤ s.length) : Part s (inner s' [])
  | done : Part s []
  | escaped (m s' : List Char) (h : s'.length < s.length)
      (hm : m = ['"'] ∨ m = ['\\'] ∨ m = ['a', ' '] ∨ m = [' ']) : Part s (m ++ inner s' [])

theorem Part.cons (h : Part s y) (c : Char) : Part (c :: s) y := by
  cases h with
  | between s' h => exact .between s' (Nat.le_succ_of_le h)
  | done => exact .done
  | escaped m s' h hm => exact .escaped m s' (Nat.lt_succ_of_lt h) hm

theorem part_of_suffix (h : y <:+ inner s []) : Part s y := by
  induction s with
  | nil =>
      rcases List.suffix_cons_iff.mp h with rfl | h
      · exact .between [] (Nat.le_refl 0)
      · rw [List.suffix_nil.mp h]
        exact .done
  | cons c s ih =>
      have shorter (h : y <:+ inner s []) : Part (c :: s) y := (ih h).cons c
      have within {m : List Char} (hm : m = ['"'] ∨ m = ['\\'] ∨ m = ['a', ' '] ∨ m = [' ']) :
          Part (c :: s) (m ++ inner s []) := .escaped m s (Nat.lt_succ_self _) hm
      rcases inner_cons_cases c s [] with ⟨m, hc, hm⟩ | ⟨hc, -, -⟩
      · rw [hc] at h
        rcases List.suffix_cons_iff.mp h with rfl | h
        · exact hc ▸ .between (c :: s) (Nat.le_refl _)
        · rcases hm with rfl | rfl | rfl
          · rcases List.suffix_cons_iff.mp h with rfl | h
            · exact within (m := ['"']) (.inl rfl)
            · exact shorter h
          · rcases List.suffix_cons_iff.mp h with rfl | h
            · exact within (m := ['\\']) (.inr (.inl rfl))
            · exact shorter h
          · rcases List.suffix_cons_iff.mp h with rfl | h
            · exact within (m := ['a', ' ']) (.inr (.inr (.inl rfl)))
            · rcases List.suffix_cons_iff.mp h with rfl | h
              · exact within (m := [' ']) (.inr (.inr (.inr rfl)))
              · exact shorter h
      · rw [hc] at h
        rcases List.suffix_cons_iff.mp h with rfl | h
        · exact hc ▸ .between (c :: s) (Nat.le_refl _)
        · exact shorter h

theorem inner_append : inner s [] ++ z = inner s z := by
  simp [inner]

theorem next_length_le : (next cs).2.length ≤ cs.length := by
  rw [next_eq_first]
  exact length_first_le.trans (skipComments_length_le cs)

theorem quote_of_next {v : String} (hc : c ≠ '/') (h : (next (c :: cs)).1 = .string v) :
    c = '"' ∨ c = '\'' := by
  rw [next_cons hc] at h
  exact (string_of_tokenAt h).1

theorem length_next_string {v : String} (hy : y <:+ quotedChars v.toList)
    (h : (next (y ++ z)).1 = .string v) : (next (y ++ z)).2.length ≤ z.length := by
  have quoted (s : List Char) : next ('"' :: inner s z) = (.string (String.ofList s), z) := by
    have text : quotedChars s ++ z = '"' :: inner s z := by simp [quotedChars, inner]
    rw [← text]
    exact next_quoted
  rcases List.suffix_cons_iff.mp hy with rfl | hy
  · have whole := quoted v.toList
    rw [← inner_append] at whole
    exact Nat.le_of_eq (congrArg (fun found => found.2.length) whole)
  · cases part_of_suffix hy with
    | between s hs =>
        rw [inner_append] at h ⊢
        exact length_next_inner hs h
    | done => exact next_length_le
    | escaped m s hs hm =>
        rw [List.append_assoc, inner_append] at h ⊢
        rcases hm with rfl | rfl | rfl | rfl
        · exact Nat.le_of_eq (congrArg (fun found => found.2.length) (quoted s))
        · exact absurd (quote_of_next (by decide) h) (by decide)
        · exact absurd (quote_of_next (by decide) h) (by decide)
        · exact absurd (quote_of_next (by decide) h) (by decide)

theorem numeric_of_tokenAt (h : (tokenAt c cs).1.isNumeric = true) :
    startsNumber (c :: cs) = true ∧ tokenAt c cs = numeric (c :: cs) := by
  have hr := reads c cs
  generalize tokenAt c cs = found at h hr ⊢
  cases hr with
  | numeric starts => exact ⟨starts, rfl⟩
  | identLike =>
      exfalso
      unfold identLike at h
      split at h <;> cases h
  | hash =>
      exfalso
      unfold hash at h
      split at h <;> cases h
  | symbol hs =>
      exfalso
      unfold symbol? at hs
      split at hs <;> cases hs <;> cases h
  | _ => cases h

inductive Rated : Token × List Char → List Char → Prop where
  | number {v : Float} {i s : Bool} {r : List Char} : Rated (.number v i s, r) r
  | percentage {v : Float} {r : List Char} : Rated (.percentage v, r) ('%' :: r)
  | dimension {v : Float} {r : List Char} :
      Rated (.dimension v (String.ofList (name r).1), (name r).2) r

theorem rated_numeric : Rated (numeric cs) (number cs).2.2 := by
  simp only [numeric]
  split
  · exact .dimension
  · split
    · rename_i h
      rw [h]
      exact .percentage
    · exact .number

namespace Rated

variable {found : Token × List Char} {r : List Char} {v : Float}

theorem eq_number {i signed : Bool} (h : Rated found r) (hf : found.1 = .number v i signed) :
    r = found.2 := by
  cases h with
  | number => rfl
  | _ => cases hf

theorem eq_percentage (h : Rated found r) (hf : found.1 = .percentage v) :
    r = '%' :: found.2 := by
  cases h with
  | percentage => rfl
  | _ => cases hf

theorem length_dimension {unit : String} (h : Rated found r) (hf : found.1 = .dimension v unit) :
    unit.toList.length + found.2.length ≤ r.length := by
  cases h with
  | dimension =>
      rw [← (Token.dimension.inj hf).2, String.toList_ofList]
      exact length_name_le r
  | _ => cases hf

end Rated

theorem rated_of_next (hw : Taken w) (hy : y <:+ w) (hne : y ≠ [])
    (h : (next (y ++ z)).1.isNumeric = true) :
    ∃ r, Rated (next (y ++ z)) r ∧ r.length ≤ z.length := by
  obtain ⟨c, ds, rfl⟩ := List.exists_cons_of_ne_nil hne
  have slash : c ≠ '/' := by
    rintro rfl
    exact hw.noSlash (hy.subset List.mem_cons_self)
  rw [List.cons_append, next_cons slash] at h ⊢
  obtain ⟨starts, eq⟩ := numeric_of_tokenAt h
  rw [eq]
  exact ⟨_, rated_numeric, hw.number _ hy z starts⟩

theorem length_unit_le {v : Float} {unit : String} (h : (next cs).1 = .dimension v unit) :
    unit.toList.length + (next cs).2.length ≤ cs.length := by
  have hle := skipComments_length_le cs
  rw [next_eq_first] at h ⊢
  cases hs : skipComments cs with
  | nil =>
      rw [hs] at h
      cases h
  | cons c ds =>
      rw [hs] at h hle
      have found : (tokenAt c ds).1 = .dimension v unit := h
      have numeral : (tokenAt c ds).1.isNumeric = true := by
        rw [found]
        rfl
      obtain ⟨starts, eq⟩ := numeric_of_tokenAt numeral
      have rated : Rated (tokenAt c ds) (number (c :: ds)).2.2 := eq ▸ rated_numeric
      have hlt := number_length_lt starts
      exact (rated.length_dimension found).trans (hlt.le.trans hle)

theorem suffix_append_cases {a b : List Char} (h : y <:+ a ++ b) :
    (∃ y', y' ≠ [] ∧ y' <:+ a ∧ y = y' ++ b) ∨ y <:+ b := by
  obtain ⟨p, hp⟩ := h
  rcases List.append_eq_append_iff.mp hp with ⟨q, ha, hy⟩ | ⟨q, -, hb⟩
  · by_cases hq : q = []
    · subst q
      exact .inr (hy ▸ List.suffix_rfl)
    · exact .inl ⟨q, hq, ⟨p, ha.symm⟩, hy⟩
  · exact .inr ⟨q, hb.symm⟩

theorem length_next_of_beq (hy : y <:+ x.chars) (h : ((next (y ++ z)).1 == x) = true) :
    (next (y ++ z)).2.length ≤ z.length := by
  by_cases hne : y = []
  · subst y
    exact next_length_le
  · cases x with
    | string v => exact length_next_string hy (Token.same_of_beq h rfl)
    | number v i s =>
        obtain ⟨v', hv⟩ := Token.number_of_beq h
        obtain ⟨r, rated, hle⟩ := rated_of_next (taken_plusSign v s) hy hne (by rw [hv]; rfl)
        rwa [rated.eq_number hv] at hle
    | percentage v =>
        obtain ⟨v', hv⟩ := Token.percentage_of_beq h
        rcases suffix_append_cases hy with ⟨y', hne', hy', rfl⟩ | hy
        · rw [List.append_assoc] at hv ⊢
          obtain ⟨r, rated, hle⟩ :=
            rated_of_next (printed_numberChars v).taken hy' hne' (by rw [hv]; rfl)
          rw [rated.eq_percentage hv] at hle
          exact Nat.le_of_succ_le_succ hle
        · have percent : y = ['%'] := (List.suffix_cons_iff.mp hy).resolve_right fun hnil =>
            hne (List.suffix_nil.mp hnil)
          rw [percent, List.singleton_append, next_cons (by decide)]
          exact tokenAt_length_le '%' z
    | dimension v unit =>
        -- numbers may differ in their text, so the unit is what the lengths are compared by
        obtain ⟨v', hv⟩ := Token.dimension_of_beq h
        rcases suffix_append_cases hy with ⟨y', hne', hy', rfl⟩ | hy
        · rw [List.append_assoc] at hv ⊢
          obtain ⟨r, rated, hle⟩ :=
            rated_of_next (printed_numberChars v).taken hy' hne' (by rw [hv]; rfl)
          have hu := rated.length_dimension hv
          rw [List.length_append] at hle
          omega
        · have hu := length_unit_le hv
          have hle := hy.length_le
          rw [List.length_append] at hu
          omega
    | _ =>
        have same := Token.same_of_beq h rfl
        have tight : (next (y ++ z)).1.isLoose = false := by
          rw [same]
          rfl
        have hle := length_next_le tight
        have hyle := hy.length_le
        rw [same, List.length_append] at hle
        omega

theorem words_of_reread {ts : List Token} {u : List Char} (hu : u <:+ Token.listChars ts)
    (h : (words (u ++ [')']) == ts ++ [.closeParen]) = true) :
    ∃ ts', (ts' == ts) = true ∧ (∀ t ∈ ts', t.isComposite = false ∧ t.isEof = false) ∧
      ∀ z, words (u ++ ')' :: z) = ts' ++ .closeParen :: words z := by
  induction ts generalizing u with
  | nil =>
      have hnil : u = [] := List.suffix_nil.mp hu
      subst u
      exact ⟨[], rfl, nofun, fun z => words_closeParen⟩
  | cons x ts ih =>
      by_cases hend : (next (u ++ [')'])).1.isEof = true
      · rw [words_of_end hend] at h
        cases h
      · rw [words_cons (Bool.eq_false_iff.mpr hend), List.cons_append, List.cons_beq_cons,
          Bool.and_eq_true] at h
        obtain ⟨hx, hts⟩ := h
        have hu : u <:+ x.chars ++ Token.listChars ts := hu
        cases settles_next u with
        | keeps hk =>
            obtain ⟨x', v, hv, hk⟩ := hk
            -- read as the first token, all that is left of its own text is gone
            have short : v <:+ Token.listChars ts := by
              rcases suffix_append_cases hu with ⟨y, -, hy, rfl⟩ | hu
              · rw [List.append_assoc] at hx
                have hle := length_next_of_beq hy hx
                rw [← List.append_assoc, hk] at hle
                simp only [List.length_append] at hle
                exact List.suffix_of_suffix_length_le hv ⟨y, rfl⟩ (by omega)
              · exact hv.trans hu
            rw [hk] at hx hts hend
            obtain ⟨ts', hts', raw, read⟩ := ih short hts
            have composite : x'.isComposite = false := by
              have hc : (next (u ++ [')'])).1.isComposite = false := isComposite_next
              rwa [hk] at hc
            have noEnd : x'.isEof = false := Bool.eq_false_iff.mpr hend
            refine ⟨x' :: ts', ?_, ?_, fun z => ?_⟩
            · rw [List.cons_beq_cons, hx, hts']
              rfl
            · exact List.forall_mem_cons.mpr ⟨⟨composite, noEnd⟩, raw⟩
            · rw [words_of_next (hk z) noEnd, read]
              rfl
        | passes hp =>
            -- nothing would be left to read the parenthesis from
            have hnil : (next (u ++ [')'])).2 = [] :=
              List.length_eq_zero_iff.mp (Nat.le_zero.mp (hp []))
            rw [hnil, words_nil] at hts
            cases ts <;> cases hts

end Lexer

end CssStyling

import CssStyling.Proofs.Selector.Rendering

namespace CssStyling

namespace Lexeme

def tokens (items : List Lexeme) : List Token :=
  items.map (·.token)

@[simp] theorem tokens_cons {item : Lexeme} {items : List Lexeme} :
    tokens (item :: items) = item.token :: tokens items :=
  rfl

@[simp] theorem tokens_append {items others : List Lexeme} :
    tokens (items ++ others) = tokens items ++ tokens others :=
  List.map_append

theorem tokens_eq_nil {items : List Lexeme} (h : tokens items = []) : items = [] :=
  List.map_eq_nil_iff.mp h

theorem tokens_eq_cons {items : List Lexeme} {t : Token} {ts : List Token}
    (h : tokens items = t :: ts) :
    ∃ p rest, items = ⟨t, p⟩ :: rest ∧ tokens rest = ts := by
  obtain ⟨⟨_, p⟩, rest, rfl, rfl, rfl⟩ := List.map_eq_cons_iff.mp h
  exact ⟨p, rest, rfl, rfl⟩

end Lexeme

namespace Specificity

def counted (total : Specificity) (ss : List Simple) : Specificity :=
  (ss.map ofSimple).foldl (· + ·) total

@[simp] theorem counted_cons {total : Specificity} {s : Simple} {ss : List Simple} :
    counted total (s :: ss) = counted (total + ofSimple s) ss :=
  rfl

@[simp] theorem counted_append {total : Specificity} {ss others : List Simple} :
    counted total (ss ++ others) = counted (counted total ss) others := by
  simp [counted]

end Specificity

namespace Grammar

open Rendering Lexeme Spelling

variable {finish d : Nat} {items rest : List Lexeme} {ts r : List Token} {total : Specificity}

theorem map_some_eq_ok {x : Except SyntaxError (Simple × List Lexeme)}
    {found : Simple × List Lexeme} (h : x.map some = .ok (some found)) : x = .ok found := by
  cases x with
  | error e => cases h
  | ok y =>
      cases h
      rfl

theorem tokens_skipSpace : tokens (skipSpace items) = (tokens items).dropWhile Token.isWhitespace := by
  simp only [tokens, skipSpace, List.dropWhile_map]
  rfl

theorem skipSpace_sound : Blank (tokens items) (tokens (skipSpace items)) := by
  rw [tokens_skipSpace]
  exact blank_dropWhile _

theorem skipSpace_complete (h : Blank (tokens items) r) (hr : Inked r) :
    tokens (skipSpace items) = r := by
  rw [tokens_skipSpace]
  exact h.dropWhile_eq hr

theorem attributeName_sound {p : NamespacePattern} {n : String}
    (h : attributeName finish items = .ok ((p, n), rest)) :
    ∃ m, n = Ascii.lower m ∧ OneName p (some m) (tokens items) (tokens rest) := by
  unfold attributeName at h
  split at h
  · rename_i m _ _
    cases h
    exact ⟨m, rfl, .bare⟩
  · rename_i m _ _
    cases h
    exact ⟨m, rfl, .joined⟩
  all_goals cases h

theorem attributeName_complete (finish : Nat) {p : NamespacePattern} {n : String}
    (h : OneName p (some n) (tokens items) r) :
    ∃ rest, tokens rest = r ∧ attributeName finish items = .ok ((p, Ascii.lower n), rest) := by
  generalize ht : tokens items = ts at h
  cases h with
  | bare =>
      obtain ⟨_, rest, rfl, rfl⟩ := tokens_eq_cons ht
      exact ⟨rest, rfl, rfl⟩
  | joined =>
      obtain ⟨_, rest, rfl, rfl⟩ := tokens_eq_cons ht
      exact ⟨rest, rfl, rfl⟩

theorem attributeOperator?_iff {t : Token} {o : AttributeOperator} :
    attributeOperator? t = some o ↔ t = operatorToken o := by
  constructor
  · intro h
    unfold attributeOperator? at h
    split at h <;> cases h <;> rfl
  · rintro rfl
    cases o <;> rfl

theorem attributeValue_sound {v : String} (h : attributeValue finish items = .ok (v, rest)) :
    ∃ t, Value v t ∧ tokens items = t :: tokens rest := by
  unfold attributeValue at h
  split at h
  · cases h
    exact ⟨_, .ident, rfl⟩
  · cases h
    exact ⟨_, .string, rfl⟩
  all_goals cases h

theorem attributeValue_complete (finish : Nat) {v : String} {t : Token} (hv : Value v t)
    (h : tokens items = t :: r) :
    ∃ rest, tokens rest = r ∧ attributeValue finish items = .ok (v, rest) := by
  obtain ⟨_, rest, rfl, rfl⟩ := tokens_eq_cons h
  cases hv with
  | ident => exact ⟨rest, rfl, rfl⟩
  | string => exact ⟨rest, rfl, rfl⟩

theorem attributeComparison_sound {o : AttributeOperator} {v : String}
    (h : attributeComparison finish items = .ok (v, rest)) :
    Test (some (o, v)) (operatorToken o :: tokens items) (.closeBracket :: tokens rest) := by
  unfold attributeComparison at h
  split at h
  · cases h
  · rename_i v' left hv
    split at h
    · rename_i hs
      cases h
      obtain ⟨t, hvt, ht⟩ := attributeValue_sound hv
      have after : Blank (tokens left) (tokens (skipSpace left)) := skipSpace_sound
      rw [hs] at after
      exact .comparison (ht ▸ skipSpace_sound) hvt after
    · cases h

theorem attributeComparison_complete (finish : Nat) {v : String} {t : Token} {u : List Token}
    (h : Blank (tokens items) (t :: u)) (hv : Value v t) (h' : Blank u (.closeBracket :: r)) :
    ∃ rest, tokens rest = r ∧ attributeComparison finish items = .ok (v, rest) := by
  have inked : Inked (t :: u) := by cases hv <;> rfl
  obtain ⟨left, rfl, hl⟩ := attributeValue_complete finish hv (skipSpace_complete h inked)
  obtain ⟨_, rest, hs, rfl⟩ := tokens_eq_cons (skipSpace_complete h' rfl)
  refine ⟨rest, rfl, ?_⟩
  simp only [attributeComparison, hl, hs]

theorem attributeTest_sound {s : Simple} (h : attributeTest finish items = .ok (s, rest)) :
    Narrowing composed s (.openBracket :: tokens items) (tokens rest) := by
  unfold attributeTest at h
  split at h
  · cases h
  · rename_i p n left hn
    obtain ⟨m, rfl, name⟩ := attributeName_sound hn
    have before : Blank (tokens items) (tokens (skipSpace items)) := skipSpace_sound
    have after : Blank (tokens left) (tokens (skipSpace left)) := skipSpace_sound
    split at h
    · cases h
    · rename_i hs
      cases h
      rw [hs] at after
      exact .attributeTest before name after .presence
    · rename_i item others _ hs
      rw [hs] at after
      split at h
      · cases h
      · rename_i o ho
        split at h
        · cases h
        · rename_i hc
          cases h
          rw [tokens_cons, attributeOperator?_iff.mp ho] at after
          exact .attributeTest before name after (attributeComparison_sound hc)

theorem attributeTest_complete (finish : Nat) {p : NamespacePattern} {n : String}
    {test : Option (AttributeOperator × String)} {u v w : List Token}
    (h : Blank (tokens items) u) (hn : OneName p (some n) u v) (h' : Blank v w)
    (ht : Test test w (.closeBracket :: r)) :
    ∃ rest, tokens rest = r ∧
      attributeTest finish items = .ok (.attributeTest p (Ascii.lower n) test, rest) := by
  have inked : Inked u := by
    cases hn with
    | bare => rfl
    | joined => rfl
  rw [← skipSpace_complete h inked] at hn
  obtain ⟨left, rfl, hl⟩ := attributeName_complete finish hn
  cases ht with
  | presence =>
      obtain ⟨_, rest, hs, rfl⟩ := tokens_eq_cons (skipSpace_complete h' rfl)
      refine ⟨rest, rfl, ?_⟩
      simp only [attributeTest, hl, hs]
  | comparison hb hv hb' =>
      rename_i o v t ts u
      have marked : Inked (operatorToken o :: ts) := by cases o <;> rfl
      obtain ⟨_, others, hs, rfl⟩ := tokens_eq_cons (skipSpace_complete h' marked)
      obtain ⟨rest, rfl, hc⟩ := attributeComparison_complete finish hb hv hb'
      refine ⟨rest, rfl, ?_⟩
      cases o <;> simp only [attributeTest, hl, hs, hc, operatorToken, attributeOperator?]

theorem arguments_sound {args : List Token} (h : arguments finish d items = .ok (args, rest)) :
    Balanced d args ∧ tokens items = args ++ .closeParen :: tokens rest := by
  induction items generalizing d args with
  | nil => cases h
  | cons item items ih =>
      obtain ⟨t, p⟩ := item
      simp only [arguments] at h
      split at h
      · rename_i hc
        simp only [Bool.and_eq_true, beq_iff_eq] at hc
        obtain ⟨hc, rfl⟩ := hc
        cases h
        exact ⟨.nil, by simp [Token.eq_closeParen hc]⟩
      · rename_i hc
        split at h
        · cases h
        · rename_i ha
          cases h
          obtain ⟨hb, hi⟩ := ih ha
          refine ⟨?_, by simp [hi]⟩
          cases ho : t.opensGroup with
          | true =>
              simp only [Place.depthAfter, ho] at hb
              exact .opening ho hb
          | false =>
              cases hc' : t.closesGroup with
              | false =>
                  simp only [Place.depthAfter, ho, hc'] at hb
                  exact .plain ho hc' hb
              | true =>
                  obtain ⟨d, rfl⟩ : ∃ n, d = n + 1 := by
                    simp only [hc', Bool.true_and, beq_iff_eq] at hc
                    exact Nat.exists_eq_succ_of_ne_zero hc
                  simp only [Place.depthAfter, ho, hc'] at hb
                  obtain rfl := Token.eq_closeParen hc'
                  exact .closing hb

theorem arguments_complete (finish : Nat) {args : List Token} (h : Balanced d args)
    (hi : tokens items = args ++ .closeParen :: r) :
    ∃ rest, tokens rest = r ∧ arguments finish d items = .ok (args, rest) := by
  induction h generalizing items with
  | nil =>
      obtain ⟨_, rest, rfl, rfl⟩ := tokens_eq_cons hi
      exact ⟨rest, rfl, rfl⟩
  | opening ht _ ih =>
      obtain ⟨_, others, rfl, ho⟩ := tokens_eq_cons hi
      obtain ⟨rest, rfl, ha⟩ := ih ho
      refine ⟨rest, rfl, ?_⟩
      simp [arguments, Place.depthAfter, ht, ha, Token.closesGroup_of_opensGroup ht]
  | closing _ ih =>
      obtain ⟨_, others, rfl, ho⟩ := tokens_eq_cons hi
      obtain ⟨rest, rfl, ha⟩ := ih ho
      refine ⟨rest, rfl, ?_⟩
      simp [arguments, Place.depthAfter, Token.opensGroup, Token.closesGroup, ha]
  | plain ht ht' _ ih =>
      obtain ⟨_, others, rfl, ho⟩ := tokens_eq_cons hi
      obtain ⟨rest, rfl, ha⟩ := ih ho
      refine ⟨rest, rfl, ?_⟩
      simp [arguments, Place.depthAfter, ht, ht', ha]

theorem pseudoName_sound {n : String} {args : Option (List Token)}
    (h : pseudoName finish items = .ok ((n, args), rest)) :
    Called composed n args (tokens items) (tokens rest) := by
  unfold pseudoName at h
  split at h
  · cases h
    exact .ident
  · split at h
    · cases h
    · rename_i ha
      cases h
      obtain ⟨hb, hi⟩ := arguments_sound ha
      rw [tokens_cons, hi]
      exact .function hb fun _ _ => trivial
  · cases h

theorem pseudoName_complete (finish : Nat) {n : String} {args : Option (List Token)}
    (h : Called composed n args (tokens items) r) :
    ∃ rest, tokens rest = r ∧ pseudoName finish items = .ok ((n, args), rest) := by
  generalize hi : tokens items = ts at h
  cases h with
  | ident =>
      obtain ⟨_, rest, rfl, rfl⟩ := tokens_eq_cons hi
      exact ⟨rest, rfl, rfl⟩
  | function hb _ =>
      obtain ⟨_, others, rfl, ho⟩ := tokens_eq_cons hi
      obtain ⟨rest, rfl, ha⟩ := arguments_complete finish hb ho
      refine ⟨rest, rfl, ?_⟩
      simp only [pseudoName, ha]

theorem pseudo_sound {s : Simple} (h : pseudo finish items = .ok (s, rest)) :
    Narrowing composed s (.colon :: tokens items) (tokens rest) := by
  unfold pseudo at h
  split at h
  · split at h
    · cases h
    · rename_i hn
      cases h
      exact .pseudoElement (pseudoName_sound hn)
  · split at h
    · cases h
    · rename_i hn
      cases h
      exact .pseudoClass (pseudoName_sound hn)

theorem className_sound {s : Simple} (h : className finish items = .ok (s, rest)) :
    Narrowing composed s (.delim '.' :: tokens items) (tokens rest) := by
  unfold className at h
  split at h
  · cases h
    exact .className
  · cases h

theorem simple?_sound {s : Simple} (h : simple? finish items = .ok (some (s, rest))) :
    Narrowing composed s (tokens items) (tokens rest) := by
  unfold simple? at h
  split at h
  · cases h
    exact .identifier
  · exact className_sound (map_some_eq_ok h)
  · exact attributeTest_sound (map_some_eq_ok h)
  · exact pseudo_sound (map_some_eq_ok h)
  all_goals cases h

theorem simple?_complete (finish : Nat) {s : Simple}
    (h : Narrowing composed s (tokens items) r) :
    ∃ rest, tokens rest = r ∧ simple? finish items = .ok (some (s, rest)) := by
  generalize hi : tokens items = ts at h
  cases h with
  | identifier =>
      obtain ⟨_, rest, rfl, rfl⟩ := tokens_eq_cons hi
      exact ⟨rest, rfl, rfl⟩
  | className =>
      obtain ⟨_, others, rfl, ho⟩ := tokens_eq_cons hi
      obtain ⟨_, rest, rfl, rfl⟩ := tokens_eq_cons ho
      exact ⟨rest, rfl, rfl⟩
  | attributeTest hb hn hb' ht =>
      obtain ⟨_, others, rfl, rfl⟩ := tokens_eq_cons hi
      obtain ⟨rest, rfl, hs⟩ := attributeTest_complete finish hb hn hb' ht
      refine ⟨rest, rfl, ?_⟩
      simp only [simple?, hs, Except.map]
  | pseudoClass hc =>
      obtain ⟨_, others, rfl, rfl⟩ := tokens_eq_cons hi
      obtain ⟨rest, rfl, hs⟩ := pseudoName_complete finish hc
      refine ⟨rest, rfl, ?_⟩
      simp only [simple?, pseudo]
      split
      · cases hs
      · simp only [hs, Except.map]
  | pseudoElement hc =>
      obtain ⟨_, others, rfl, ho⟩ := tokens_eq_cons hi
      obtain ⟨_, others, rfl, rfl⟩ := tokens_eq_cons ho
      obtain ⟨rest, rfl, hs⟩ := pseudoName_complete finish hc
      refine ⟨rest, rfl, ?_⟩
      simp only [simple?, pseudo, hs, Except.map]

theorem simple?_apart (finish : Nat) (h : Apart (tokens items)) :
    simple? finish items = .ok none := by
  cases items with
  | nil => rfl
  | cons item items =>
      obtain ⟨t, p⟩ := item
      change separates t = true at h
      cases t <;> first | rfl | cases h

theorem simples_sound {ss : List Simple} {total' : Specificity}
    (h : simples finish total items = .ok ((ss, total'), rest)) :
    Narrowings composed ss (tokens items) (tokens rest) ∧ total' = total.counted ss := by
  fun_induction simples finish total items generalizing ss total' with
  | case1 => cases h
  | case2 =>
      cases h
      exact ⟨.nil, rfl⟩
  | case3 => cases h
  | case4 total items s left hs found total'' rest'' hr ih =>
      cases h
      obtain ⟨hn, rfl⟩ := ih hr
      exact ⟨.cons (simple?_sound hs) hn, rfl⟩

theorem simples_complete (finish : Nat) (total : Specificity) {ss : List Simple}
    (h : Narrowings composed ss (tokens items) r) (hr : Apart r) :
    ∃ rest, tokens rest = r ∧
      simples finish total items = .ok ((ss, total.counted ss), rest) := by
  generalize hi : tokens items = ts at h
  induction h generalizing items total with
  | nil =>
      subst hi
      refine ⟨items, rfl, ?_⟩
      rw [simples]
      split <;> rename_i hs <;> rw [simple?_apart finish hr] at hs <;> cases hs
      rfl
  | @cons s ss ts u r h _ ih =>
      subst hi
      obtain ⟨left, rfl, hs⟩ := simple?_complete finish h
      obtain ⟨rest, rfl, hl⟩ := ih (total + .ofSimple s) hr rfl
      refine ⟨rest, rfl, ?_⟩
      rw [simples]
      split <;> rename_i hs' <;> rw [hs] at hs' <;> cases hs'
      simp only [hl, Specificity.counted_cons]

theorem leading_sound {s : Simple} (h : leading finish items = .ok (some s, rest)) :
    Leading composed s (tokens items) (tokens rest) := by
  cases items with
  | nil => cases h
  | cons item items =>
      obtain ⟨t, p⟩ := item
      simp only [leading] at h
      split at h
      · cases h
      · rename_i hl
        split at h
        · cases h
        · cases h
          unfold leading? at hl
          split at hl <;> cases hl
          · exact .type .bare
          · exact .type .joined
          · exact .universal .joined
          · exact .universal .bare

theorem leading_none (h : leading finish items = .ok (none, rest)) : rest = items := by
  cases items with
  | nil =>
      cases h
      rfl
  | cons item items =>
      simp only [leading] at h
      split at h
      · cases h
        rfl
      · split at h <;> cases h

theorem startsName_of_nameless (h : Nameless (tokens items)) : startsName items = false := by
  unfold startsName
  split
  · cases h
  · cases h
  · rfl

theorem leading_nameless (finish : Nat) (h : Nameless (tokens items)) :
    leading finish items = .ok (none, items) := by
  cases items with
  | nil => rfl
  | cons item items => simp only [leading, show leading? item.token = none from h]

theorem leading_cons {t : Token} {p : Nat} {s : Simple} (h : leading? t = some s)
    (hr : Nameless (tokens rest)) :
    leading finish (⟨t, p⟩ :: rest) = .ok (some s, rest) := by
  simp [leading, h, startsName_of_nameless hr]

theorem leading_complete (finish : Nat) {s : Simple} (h : Leading composed s (tokens items) r)
    (hr : Nameless r) :
    ∃ rest, tokens rest = r ∧ leading finish items = .ok (some s, rest) := by
  generalize hi : tokens items = ts at h
  rcases h with (_ | _) | (_ | _)
  all_goals
    obtain ⟨p, rest, rfl, rfl⟩ := tokens_eq_cons hi
    exact ⟨rest, rfl, leading_cons rfl hr⟩

theorem compound_sound {c : Compound} {total' : Specificity}
    (h : compound finish total items = .ok ((c, total'), rest)) :
    Compounded composed c (tokens items) (tokens rest) ∧ total' = total.counted c.simples := by
  unfold compound at h
  split at h
  · cases h
  · rename_i first left hl
    split at h
    · cases h
    · rename_i others total'' rest' hs
      obtain ⟨hn, rfl⟩ := simples_sound hs
      cases first with
      | some s =>
          cases h
          exact ⟨.led (leading_sound hl) hn, rfl⟩
      | none =>
          obtain rfl := leading_none hl
          cases others with
          | nil => cases h
          | cons s ss =>
              cases h
              cases hn with
              | cons hn hs => exact ⟨.bare hn hs, rfl⟩

theorem compound_complete (finish : Nat) (total : Specificity) {c : Compound}
    (h : Compounded composed c (tokens items) r) (hr : Apart r) :
    ∃ rest, tokens rest = r ∧
      compound finish total items = .ok ((c, total.counted c.simples), rest) := by
  generalize hi : tokens items = ts at h
  cases h with
  | @led s ss _ u _ h hs =>
      subst hi
      obtain ⟨left, rfl, hl⟩ := leading_complete finish h (hs.ledBy Narrowing.nameless hr.nameless)
      obtain ⟨rest, rfl, hn⟩ := simples_complete finish (total + .ofSimple s) hs hr
      refine ⟨rest, rfl, ?_⟩
      simp [compound, hl, hn]
  | @bare s ss _ u _ h hs =>
      subst hi
      have hl := leading_nameless finish h.nameless
      obtain ⟨rest, rfl, hn⟩ := simples_complete finish total (.cons h hs) hr
      refine ⟨rest, rfl, ?_⟩
      simp [compound, hl, hn]

theorem steps_sound {s : Complex} (h : steps finish total items = .ok (s, rest)) :
    Joined composed s.ancestors s.subject (tokens items) (tokens rest) ∧
      s.specificity = total.counted s.simples := by
  fun_induction steps finish total items generalizing s with
  | case1 => cases h
  | case2 => cases h
  | case3 => cases h
  | case4 total items c total' k p left hc he s' rest' hr ih =>
      cases h
      obtain ⟨compounded, rfl⟩ := compound_sound hc
      obtain ⟨joined, hs⟩ := ih hr
      refine ⟨.step compounded rfl joined, ?_⟩
      simpa [Complex.simples, Complex.steps] using hs
  | case5 total items c total' rest' _ hc =>
      cases h
      obtain ⟨compounded, rfl⟩ := compound_sound hc
      refine ⟨.subject compounded, ?_⟩
      simp [Complex.simples, Complex.steps]

theorem endsMember_of_joined {ss : List Step} {s : Compound}
    (h : Joined composed ss s (tokens items) r) : endsMember items = false := by
  obtain ⟨t, u, hu, ht⟩ := h.eq_cons
  obtain ⟨p, rest, rfl, -⟩ := tokens_eq_cons hu
  cases t <;> first | rfl | cases ht

theorem steps_last {c : Compound} {total' : Specificity}
    (h : compound finish total items = .ok ((c, total'), rest)) (hr : Ended (tokens rest)) :
    steps finish total items = .ok (⟨[], c, total'⟩, rest) := by
  rw [steps]
  split
  · simp_all
  · rename_i h'
    rw [h] at h'
    cases h'
    cases hr
  · simp_all

theorem steps_next {c : Compound} {k : Combinator} {p : Nat} {total' : Specificity}
    (h : compound finish total items = .ok ((c, total'), ⟨.combinator k, p⟩ :: rest))
    (hr : endsMember rest = false) {s : Complex} {left : List Lexeme}
    (hs : steps finish total' rest = .ok (s, left)) :
    steps finish total items =
      .ok ({ s with ancestors := ⟨c, k⟩ :: s.ancestors }, left) := by
  rw [steps]
  split <;> simp_all

theorem steps_complete (finish : Nat) (total : Specificity) {ss : List Step} {s : Compound}
    (h : Joined composed ss s (tokens items) r) (hr : Ended r) :
    ∃ rest, tokens rest = r ∧
      steps finish total items =
        .ok (⟨ss, s, total.counted (Complex.simples ⟨ss, s, .zero⟩)⟩, rest) := by
  generalize hi : tokens items = ts at h
  induction h generalizing items total with
  | subject h =>
      subst hi
      obtain ⟨rest, rfl, hc⟩ := compound_complete finish total h hr.apart
      refine ⟨rest, rfl, ?_⟩
      rw [steps_last hc hr]
      simp [Complex.simples, Complex.steps]
  | @step c s k ss ts u v r h hk hs ih =>
      subst hi
      cases hk
      obtain ⟨left, hl, hc⟩ := compound_complete finish total h rfl
      obtain ⟨p, next, rfl, rfl⟩ := tokens_eq_cons hl
      obtain ⟨rest, rfl, hn⟩ := ih (total.counted c.simples) hr rfl
      refine ⟨rest, rfl, ?_⟩
      rw [steps_next hc (endsMember_of_joined hs) hn]
      simp [Complex.simples, Complex.steps]

theorem complex_sound {s : Complex} (h : complex finish items = .ok (s, rest)) :
    Member composed s (tokens items) (tokens rest) := by
  unfold complex at h
  split at h
  · cases h
  · obtain ⟨joined, counted⟩ := steps_sound h
    exact ⟨joined, counted⟩

theorem complex_complete (finish : Nat) {s : Complex}
    (h : Member composed s (tokens items) r) (hr : Ended r) :
    ∃ rest, tokens rest = r ∧ complex finish items = .ok (s, rest) := by
  obtain ⟨ss, c, total⟩ := s
  obtain ⟨joined, counted⟩ := h
  obtain ⟨rest, rfl, hs⟩ := steps_complete finish .zero joined hr
  obtain rfl : total = Specificity.counted .zero (Complex.simples ⟨ss, c, .zero⟩) := counted
  refine ⟨rest, rfl, ?_⟩
  simp [complex, endsMember_of_joined joined, hs]

theorem members_sound {ss : List Complex} (h : members finish items = .ok ss) :
    Members composed ss (tokens items) := by
  fun_induction members finish items generalizing ss with
  | case1 => cases h
  | case2 items s hs =>
      cases h
      exact .last rfl (complex_sound hs) rfl
  | case3 => cases h
  | case4 items s p left hs others hr ih =>
      cases h
      exact .cons rfl (complex_sound hs) rfl (ih hr)
  | case5 => cases h

theorem members_complete (finish : Nat) {ss : List Complex}
    (h : Members composed ss (tokens items)) : members finish items = .ok ss := by
  generalize hi : tokens items = ts at h
  induction h generalizing items with
  | last h hs h' =>
      subst hi
      cases h
      cases h'
      obtain ⟨rest, hr, hc⟩ := complex_complete finish hs trivial
      obtain rfl := tokens_eq_nil hr
      rw [members]
      split <;> simp_all
  | cons h hs h' hr ih =>
      subst hi
      cases h
      cases h'
      obtain ⟨rest, hl, hc⟩ := complex_complete finish hs rfl
      obtain ⟨p, next, rfl, rfl⟩ := tokens_eq_cons hl
      have hn := ih rfl
      rw [members]
      split <;> simp_all

theorem members_iff {ss : List Complex} :
    members finish items = .ok ss ↔ Members composed ss (tokens items) :=
  ⟨members_sound, members_complete finish⟩

end Grammar

namespace SelectorList

theorem ofTokens_eq_ok_iff {ts : List Token} {l : SelectorList} : ofTokens ts = .ok l ↔
    ∃ lexemes, Cursor.prepare ts = .ok lexemes ∧
      Rendering.Members .composed l.members (Lexeme.tokens lexemes.items) := by
  unfold ofTokens
  cases Cursor.prepare ts with
  | error e =>
      constructor
      · rintro ⟨⟩
      · rintro ⟨_, ⟨⟩, _⟩
  | ok lexemes =>
      constructor
      · intro h
        cases hm : Grammar.members lexemes.finish lexemes.items with
        | error e => simp [hm, Except.map] at h
        | ok found =>
            simp only [hm, Except.map, Except.ok.injEq] at h
            rw [← h]
            exact ⟨lexemes, rfl, Grammar.members_iff.mp hm⟩
      · rintro ⟨_, ⟨⟩, members⟩
        have read := Grammar.members_complete lexemes.finish members
        simp only [read, Except.map]

end SelectorList

end CssStyling

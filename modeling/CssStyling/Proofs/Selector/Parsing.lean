import CssStyling.Proofs.Selector.Composing
import Mathlib

namespace CssStyling

namespace Rendering

open Lexeme Lexeme.Place Spelling

variable {b : Bool} {p : NamespacePattern} {n : Option String} {t m : Token}
  {ts u r out : List Token}

structure Corresponds (b b' : Bool) (written composed : List Token → List Token → Prop) :
    Prop where
  compose {ts r out : List Token} (h : written ts r) (hr : Unbarred r)
    (hc : Composes (inside b') r out) : ∃ out', composed out' out ∧ Composes (inside b) ts out'
  source {ts out out' : List Token} (h : composed out' out) (hc : Composes (inside b) ts out') :
    ∃ r, written ts r ∧ Composes (inside b') r out

theorem token_inv (h : Composes (inside b) ts (m :: out)) (hm : separates m = false) :
    ∃ r, ts = source m ++ r ∧ Composes (after b m) r out := by
  have inked : b = true ∨ Inked ts := by
    cases b with
    | true => exact .inl rfl
    | false => exact .inr (h.inked hm)
  obtain ⟨r, hr, hc, -⟩ := Composes.cons_inv h inked
  exact ⟨r, hr, hc⟩

theorem source_localToken : source (localToken n) = [localToken n] := by
  cases n <;> rfl

theorem name_corresponds : Corresponds b b (Name p n) (OneName p n) where
  compose := by
    rintro ts r out ⟨⟩ hr hc
    by_cases hp : p = .omitted
    · subst hp
      exact ⟨_, .bare, Composes.local_cons hc hr⟩
    · exact ⟨_, .joined, Composes.name_cons hc hr hp⟩
  source := by
    intro ts out out' h hc
    cases h with
    | bare =>
        obtain ⟨r, rfl, hr⟩ := token_inv hc (by cases n <;> rfl)
        rw [source_localToken]
        exact ⟨r, .intro, after_localToken ▸ hr⟩
    | joined =>
        obtain ⟨r, rfl, hr⟩ := token_inv hc rfl
        refine ⟨r, ?_, hr⟩
        simpa [Lexeme.source] using Name.intro

theorem blank_compose (h : Blank ts r) (hc : Composes (inside true) r out) :
    ∃ out', Blank out' out ∧ Composes (inside true) ts out' := by
  induction h with
  | none => exact ⟨out, .none, hc⟩
  | more _ ih =>
      obtain ⟨out', hb, hu⟩ := ih hc
      exact ⟨_, .more hb, hu.cons rfl rfl ⟨rfl, rfl⟩ (.inl rfl)⟩

theorem blank_source {out' : List Token} (h : Blank out' out) (hc : Composes (inside true) ts out') :
    ∃ r, Blank ts r ∧ Composes (inside true) r out := by
  induction h generalizing ts with
  | none => exact ⟨ts, .none, hc⟩
  | more _ ih =>
      obtain ⟨u, rfl, hu⟩ := token_inv hc rfl
      obtain ⟨r, hb, hr⟩ := ih hu
      exact ⟨r, .more hb, hr⟩

theorem operatorToken_cons {o : AttributeOperator} (h : Composes (inside true) r out) :
    Composes (inside true) (operatorToken o :: r) (operatorToken o :: out) := by
  cases o
  all_goals exact h.cons rfl rfl ⟨rfl, rfl⟩ (.inl rfl)

theorem operatorToken_inv {o : AttributeOperator}
    (h : Composes (inside true) ts (operatorToken o :: out)) :
    ∃ r, ts = operatorToken o :: r ∧ Composes (inside true) r out := by
  cases o
  all_goals exact token_inv h rfl

theorem value_cons {v : String} (hv : Value v t) (hr : Unbarred r)
    (h : Composes (inside true) r out) : Composes (inside true) (t :: r) (t :: out) := by
  cases hv with
  | ident => exact Composes.local_cons (n := some v) h hr
  | string => exact h.cons rfl rfl ⟨rfl, rfl⟩ (.inl rfl)

theorem value_inv {v : String} (hv : Value v t) (h : Composes (inside true) ts (t :: out)) :
    ∃ r, ts = t :: r ∧ Composes (inside true) r out := by
  cases hv
  all_goals exact token_inv h rfl

theorem Test.unbarred {test : Option (AttributeOperator × String)} (h : Test test ts r)
    (hr : Unbarred r) : Unbarred ts := by
  cases h with
  | presence => exact hr
  | @comparison o _ _ _ _ _ _ _ _ => cases o <;> nofun

theorem test_corresponds {test : Option (AttributeOperator × String)} :
    Corresponds true true (Test test) (Test test) where
  compose := by
    intro ts r out h hr hc
    cases h with
    | presence => exact ⟨out, .presence, hc⟩
    | comparison hb hv hb' =>
        obtain ⟨_, after, hu⟩ := blank_compose hb' hc
        have value := value_cons hv (hb'.ledBy nofun hr) hu
        obtain ⟨_, before, hw⟩ := blank_compose hb value
        exact ⟨_, .comparison before hv after, operatorToken_cons hw⟩
  source := by
    intro ts out out' h hc
    cases h with
    | presence => exact ⟨ts, .presence, hc⟩
    | comparison hb hv hb' =>
        obtain ⟨u, rfl, hu⟩ := operatorToken_inv hc
        obtain ⟨w, before, hw⟩ := blank_source hb hu
        obtain ⟨v, rfl, hv'⟩ := value_inv hv hw
        obtain ⟨r, after, hr⟩ := blank_source hb' hv'
        exact ⟨r, .comparison before hv after, hr⟩

theorem called_corresponds {args : Option (List Token)} {n : String} :
    Corresponds false false (Called written n args) (Called composed n args) where
  compose := by
    intro ts r out h hr hc
    cases h with
    | ident => exact ⟨_, .ident, Composes.local_cons (n := some _) hc hr⟩
    | function hb ha =>
        have args := Composes.arguments hb ha hc
        exact ⟨_, .function hb fun _ _ => trivial, args.cons rfl rfl ⟨rfl, rfl⟩ (.inr rfl)⟩
  source := by
    intro ts out out' h hc
    cases h with
    | ident =>
        obtain ⟨r, rfl, hr⟩ := token_inv hc rfl
        exact ⟨r, .ident, hr⟩
    | function hb _ =>
        obtain ⟨u, rfl, hu⟩ := token_inv hc rfl
        obtain ⟨r, rfl, ha, hr⟩ := Composes.arguments_inv hb hu
        exact ⟨r, .function hb ha, hr⟩

theorem narrowing_corresponds {x : Simple} :
    Corresponds false false (Narrowing written x) (Narrowing composed x) where
  compose := by
    intro ts r out h hr hc
    cases h with
    | identifier => exact ⟨_, .identifier, hc.cons rfl rfl ⟨rfl, rfl⟩ (.inr rfl)⟩
    | @className n _ =>
        have name := Composes.local_cons (n := some n) hc hr
        exact ⟨_, .className, name.cons rfl rfl ⟨rfl, rfl⟩ (.inr rfl)⟩
    | attributeTest hb hn hb' ht =>
        have close : Composes (inside true) (.closeBracket :: r) (.closeBracket :: out) :=
          hc.cons rfl rfl ⟨rfl, rfl⟩ (.inl rfl)
        obtain ⟨_, test, hw⟩ := test_corresponds.compose ht nofun close
        obtain ⟨_, after, hv⟩ := blank_compose hb' hw
        have follows : Unbarred _ := hb'.ledBy nofun (ht.unbarred nofun)
        obtain ⟨_, name, hu⟩ := name_corresponds.compose hn follows hv
        obtain ⟨_, before, ht⟩ := blank_compose hb hu
        exact ⟨_, .attributeTest before name after test, ht.cons rfl rfl ⟨rfl, rfl⟩ (.inr rfl)⟩
    | pseudoClass h =>
        obtain ⟨_, called, hu⟩ := called_corresponds.compose h hr hc
        exact ⟨_, .pseudoClass called, hu.cons rfl rfl ⟨rfl, rfl⟩ (.inr rfl)⟩
    | pseudoElement h =>
        obtain ⟨_, called, hu⟩ := called_corresponds.compose h hr hc
        have colon : Composes (inside false) (.colon :: _) (.colon :: _) :=
          hu.cons rfl rfl ⟨rfl, rfl⟩ (.inr rfl)
        exact ⟨_, .pseudoElement called, colon.cons rfl rfl ⟨rfl, rfl⟩ (.inr rfl)⟩
  source := by
    intro ts out out' h hc
    cases h with
    | identifier =>
        obtain ⟨r, rfl, hr⟩ := token_inv hc rfl
        exact ⟨r, .identifier, hr⟩
    | className =>
        obtain ⟨u, rfl, hu⟩ := token_inv hc rfl
        obtain ⟨r, rfl, hr⟩ := token_inv (b := false) hu rfl
        exact ⟨r, .className, hr⟩
    | attributeTest hb hn hb' ht =>
        obtain ⟨u, rfl, hu⟩ := token_inv hc rfl
        obtain ⟨v, before, hv⟩ := blank_source hb hu
        obtain ⟨w, name, hw⟩ := name_corresponds.source hn hv
        obtain ⟨x, after, hx⟩ := blank_source hb' hw
        obtain ⟨y, test, hy⟩ := test_corresponds.source ht hx
        obtain ⟨r, rfl, hr⟩ := token_inv hy rfl
        exact ⟨r, .attributeTest before name after test, hr⟩
    | pseudoClass h =>
        obtain ⟨u, rfl, hu⟩ := token_inv hc rfl
        obtain ⟨r, called, hr⟩ := called_corresponds.source h hu
        exact ⟨r, .pseudoClass called, hr⟩
    | pseudoElement h =>
        obtain ⟨u, rfl, hu⟩ := token_inv hc rfl
        obtain ⟨v, rfl, hv⟩ := token_inv (b := false) hu rfl
        obtain ⟨r, called, hr⟩ := called_corresponds.source h hv
        exact ⟨r, .pseudoElement called, hr⟩

theorem leading_corresponds {x : Simple} :
    Corresponds false false (Leading written x) (Leading composed x) where
  compose := by
    intro ts r out h hr hc
    cases h with
    | type h =>
        obtain ⟨out', name, hu⟩ := name_corresponds.compose h hr hc
        exact ⟨out', .type name, hu⟩
    | «universal» h =>
        obtain ⟨out', name, hu⟩ := name_corresponds.compose h hr hc
        exact ⟨out', .universal name, hu⟩
  source := by
    intro ts out out' h hc
    cases h with
    | type h =>
        obtain ⟨r, name, hr⟩ := name_corresponds.source h hc
        exact ⟨r, .type name, hr⟩
    | «universal» h =>
        obtain ⟨r, name, hr⟩ := name_corresponds.source h hc
        exact ⟨r, .universal name, hr⟩

theorem Narrowing.unbarred {σ : Spelling} {x : Simple} (h : Narrowing σ x ts r) :
    Unbarred ts := by
  cases h <;> nofun

theorem narrowings_corresponds {ss : List Simple} :
    Corresponds false false (Narrowings written ss) (Narrowings composed ss) where
  compose := by
    intro ts r out h hr hc
    induction h with
    | nil => exact ⟨out, .nil, hc⟩
    | cons h hs ih =>
        obtain ⟨_, others, hu⟩ := ih hr hc
        obtain ⟨_, first, ht⟩ := narrowing_corresponds.compose h (hs.ledBy Narrowing.unbarred hr) hu
        exact ⟨_, .cons first others, ht⟩
  source := by
    intro ts out out' h hc
    induction h generalizing ts with
    | nil => exact ⟨ts, .nil, hc⟩
    | cons h _ ih =>
        obtain ⟨u, first, hu⟩ := narrowing_corresponds.source h hc
        obtain ⟨r, others, hr⟩ := ih hu
        exact ⟨r, .cons first others, hr⟩

theorem compounded_corresponds {c : Compound} :
    Corresponds false false (Compounded written c) (Compounded composed c) where
  compose := by
    intro ts r out h hr hc
    cases h with
    | led h hs =>
        obtain ⟨_, others, hu⟩ := narrowings_corresponds.compose hs hr hc
        obtain ⟨out', first, ht⟩ := leading_corresponds.compose h (hs.ledBy Narrowing.unbarred hr) hu
        exact ⟨out', .led first others, ht⟩
    | bare h hs =>
        obtain ⟨_, others, hu⟩ := narrowings_corresponds.compose hs hr hc
        obtain ⟨out', first, ht⟩ := narrowing_corresponds.compose h (hs.ledBy Narrowing.unbarred hr) hu
        exact ⟨out', .bare first others, ht⟩
  source := by
    intro ts out out' h hc
    cases h with
    | led h hs =>
        obtain ⟨u, first, hu⟩ := leading_corresponds.source h hc
        obtain ⟨r, others, hr⟩ := narrowings_corresponds.source hs hu
        exact ⟨r, .led first others, hr⟩
    | bare h hs =>
        obtain ⟨u, first, hu⟩ := narrowing_corresponds.source h hc
        obtain ⟨r, others, hr⟩ := narrowings_corresponds.source hs hu
        exact ⟨r, .bare first others, hr⟩

theorem Compounded.solid {c : Compound} (h : Compounded written c ts r) : Solid ts := by
  cases h with
  | led h _ =>
      rcases h with @⟨p, _, _, _, ⟨⟩⟩ | @⟨p, _, _, ⟨⟩⟩
      all_goals cases p <;> exact ⟨rfl, rfl⟩
  | bare h _ => cases h <;> exact ⟨rfl, rfl⟩

theorem Joined.solid {ss : List Step} {c : Compound} (h : Joined written ss c ts r) :
    Solid ts := by
  cases h with
  | subject h => exact h.solid
  | step h _ _ => exact h.solid

theorem Joint.unbarred {k : Combinator} (h : Joint k ts r) : Unbarred ts := by
  cases h with
  | gap _ => nofun
  | signed hk h _ =>
      refine h.ledBy nofun ?_
      cases k <;> simp_all [sign, LedBy]

theorem joined_corresponds {ss : List Step} {c : Compound} :
    Corresponds false false (Joined written ss c) (Joined composed ss c) where
  compose := by
    intro ts r out h hr hc
    induction h with
    | subject h =>
        obtain ⟨out', first, hu⟩ := compounded_corresponds.compose h hr hc
        exact ⟨out', .subject first, hu⟩
    | step h hk hs ih =>
        obtain ⟨_, others, hv⟩ := ih hr hc
        have joint := Composes.of_joint hk hs.solid hv
        obtain ⟨out', first, hu⟩ := compounded_corresponds.compose h (Joint.unbarred hk) joint
        exact ⟨out', .step first rfl others, hu⟩
  source := by
    intro ts out out' h hc
    induction h generalizing ts with
    | subject h =>
        obtain ⟨r, first, hr⟩ := compounded_corresponds.source h hc
        exact ⟨r, .subject first, hr⟩
    | step h hk _ ih =>
        cases hk
        obtain ⟨u, first, hu⟩ := compounded_corresponds.source h hc
        obtain ⟨v, joint, -, hv⟩ := Composes.joint_inv hu
        obtain ⟨r, others, hr⟩ := ih hv
        exact ⟨r, .step first joint others, hr⟩

theorem Member.compose {x : Complex} (h : Member written x ts r) (hr : Unbarred r)
    (hc : Composes (inside false) r out) :
    ∃ out', Member composed x out' out ∧ Composes start ts out' := by
  obtain ⟨out', joined, hu⟩ := joined_corresponds.compose h.joined hr hc
  exact ⟨out', ⟨joined, h.counted⟩, (Composes.start_iff h.joined.solid.inked).mpr hu⟩

theorem Member.source {x : Complex} {out' : List Token} (h : Member composed x out' out)
    (hc : Composes (inside false) ts out') :
    ∃ r, Member written x ts r ∧ Composes (inside false) r out := by
  obtain ⟨r, joined, hr⟩ := joined_corresponds.source h.joined hc
  exact ⟨r, ⟨joined, h.counted⟩, hr⟩

theorem Members.compose {xs : List Complex} (h : Members written xs ts) :
    ∃ out, Members composed xs out ∧ Composes start ts out := by
  induction h with
  | last h hs h' =>
      have unbarred : Unbarred _ := Blank.ledBy h' nofun trivial
      obtain ⟨out, member, hu⟩ := hs.compose unbarred (Composes.of_end h')
      exact ⟨out, .last rfl member rfl, Composes.of_blank h hu⟩
  | cons h hs h' _ ih =>
      obtain ⟨_, others, hr⟩ := ih
      have unbarred : Unbarred _ := Blank.ledBy h' nofun nofun
      obtain ⟨out, member, hu⟩ := hs.compose unbarred (Composes.of_comma h' hr)
      exact ⟨out, .cons rfl member rfl others, Composes.of_blank h hu⟩

theorem Members.source {xs : List Complex} (h : Members composed xs out)
    (hc : Composes start ts out) : Members written xs ts := by
  induction h generalizing ts with
  | last h hs h' =>
      cases h
      cases h'
      obtain ⟨u, before, -, hu⟩ := Composes.start_inv hc
      obtain ⟨v, member, hv⟩ := hs.source hu
      exact .last before member (Composes.end_inv hv)
  | cons h hs h' _ ih =>
      cases h
      cases h'
      obtain ⟨u, before, -, hu⟩ := Composes.start_inv hc
      obtain ⟨v, member, hv⟩ := hs.source hu
      obtain ⟨r, after, hr⟩ := Composes.comma_inv hv
      exact .cons before member after (ih hr)

theorem members_iff {xs : List Complex} :
    Members written xs ts ↔ ∃ out, Composes start ts out ∧ Members composed xs out := by
  constructor
  · intro h
    obtain ⟨out, members, hc⟩ := h.compose
    exact ⟨out, hc, members⟩
  · rintro ⟨out, hc, members⟩
    exact members.source hc

end Rendering

namespace SelectorList

open Rendering

theorem map_eq_ok {x : Except SyntaxError (List Complex)} {l : SelectorList}
    (h : x.map SelectorList.mk = .ok l) : x = .ok l.members := by
  cases x with
  | error e => cases h
  | ok members =>
      cases h
      rfl

theorem ofTokens_iff {tokens : List Token} {l : SelectorList}
    (h : ∀ t ∈ tokens, t.isComposite = false) :
    ofTokens tokens = .ok l ↔
      Members .written l.members (tokens.takeWhile fun t => !t.isEof) := by
  rw [Rendering.members_iff]
  constructor
  · intro ho
    unfold ofTokens at ho
    split at ho
    · cases ho
    · rename_i lexemes hl
      exact ⟨_, Cursor.prepare_sound h hl, Grammar.members_iff.mp (map_eq_ok ho)⟩
  · rintro ⟨out, hc, members⟩
    obtain ⟨lexemes, hl, rfl⟩ := Cursor.prepare_complete hc
    simp only [ofTokens, hl, Grammar.members_iff.mpr members]
    rfl

/-- `UL>>|*:not( (a) ) `, and a comma after the end token. -/
def listTokens : List Token :=
  [.ident "UL", .delim '>', .delim '>', .delim '|', .delim '*', .colon, .function "not",
    .whitespace, .openParen, .ident "a", .closeParen, .whitespace, .closeParen, .whitespace, .eof,
    .comma]

theorem ofTokens_listTokens :
    (∀ t ∈ listTokens, t.isComposite = false) ∧
      ofTokens listTokens = .ok ⟨[⟨[⟨⟨[.type .omitted "ul"]⟩, .descendant⟩],
        ⟨[.universal .none, .pseudoClass "not" (some [.openParen, .ident "a", .closeParen])]⟩,
        ⟨0, 1, 1⟩⟩]⟩ := by
  have raw : ∀ t ∈ listTokens, t.isComposite = false := by decide
  have ul : Ascii.lower "UL" = "ul" := by decide +kernel
  have not : Ascii.lower "not" = "not" := by decide +kernel
  have args : Balanced 0 [.whitespace, .openParen, .ident "a", .closeParen, .whitespace] :=
    .plain rfl rfl (.opening rfl (.plain rfl rfl (.closing (.plain rfl rfl .nil))))
  have type {r : List Token} :=
    Leading.type (σ := .written) (p := .omitted) (n := "UL") (r := r) .intro
  have called := Called.function (σ := .written) (n := "not") (r := [.whitespace]) args (by
    simp [Spelling.written, Raw, Token.isComposite, Token.isEof])
  rw [ul] at type
  rw [not] at called
  refine ⟨raw, (ofTokens_iff raw).mpr (.last .none ⟨.step (.led type .nil)
    (.signed (by simp) .none .none) (.subject ?_), rfl⟩ (.more .none))⟩
  exact .led (.universal .intro) (.cons (.pseudoClass called) .nil)

end SelectorList

end CssStyling

import CssStyling.Proofs.Selector.Balancing
import CssStyling.Proofs.Selector.Parsing
import CssStyling.Selector.Printer
import Mathlib

namespace CssStyling

namespace NamespacePattern

def names : NamespacePattern → List String
  | labelled label => [label]
  | _ => []

end NamespacePattern

namespace Simple

def names : Simple → List String
  | type pattern localName => localName :: pattern.names
  | universal pattern => pattern.names
  | identifier id => [id]
  | className name => [name]
  | attributeTest pattern name _ => name :: pattern.names
  | pseudoClass name _ => [name]
  | pseudoElement name _ => [name]

def arguments : Simple → Option (List Token)
  | pseudoClass _ args => args
  | pseudoElement _ args => args
  | _ => none

structure Legible (s : Simple) : Prop where
  plain : ∀ n ∈ s.names, Lexer.Plain n
  reread : ∀ args, s.arguments = some args →
    (Token.listOfText (String.ofList (Token.listChars args ++ [')'])) ==
      args ++ [.closeParen, .eof]) = true

theorem Legible.of_bare {s : Simple} (h : s.arguments = none)
    (hs : ∀ n ∈ s.names, Lexer.Plain n) : s.Legible := by
  refine ⟨hs, fun args hargs => ?_⟩
  rw [h] at hargs
  cases hargs

theorem beq_self_of_arguments {s : Simple} (h : s.arguments = none) : (s == s) = true := by
  cases s with
  | type p n =>
      have fields : (type p n == type p n) = (p == p && n == n) := rfl
      simp [fields]
  | «universal» p => exact beq_self_eq_true p
  | identifier id => exact beq_self_eq_true id
  | className n => exact beq_self_eq_true n
  | attributeTest p n test =>
      have fields : (attributeTest p n test == attributeTest p n test) =
          (p == p && (n == n && test == test)) := rfl
      simp [fields]
  | pseudoClass n args =>
      obtain rfl : args = none := h
      exact Bool.and_eq_true_iff.mpr ⟨beq_self_eq_true n, rfl⟩
  | pseudoElement n args =>
      obtain rfl : args = none := h
      exact Bool.and_eq_true_iff.mpr ⟨beq_self_eq_true n, rfl⟩

end Simple

namespace Rendering

open Lexer

variable {z : List Char} {ts r : List Token}

def Clear : List Char → Prop
  | [] => True
  | c :: _ => c ∈ ['#', '.', '[', ':', ' ', ',']

theorem Clear.stops (h : Clear z) : Stops z := by
  cases z with
  | nil => trivial
  | cons c z =>
      simp only [Clear, List.mem_cons, List.not_mem_nil, or_false] at h
      rcases h with rfl | rfl | rfl | rfl | rfl | rfl <;> exact ⟨rfl, by decide⟩

theorem Clear.head_ne {c : Char} (h : Clear z) (hc : c ∉ ['#', '.', '[', ':', ' ', ',']) :
    z.head? ≠ some c := by
  cases z with
  | nil => nofun
  | cons d z =>
      rintro ⟨⟩
      exact hc h

theorem words_label {p : NamespacePattern} (hp : ∀ n ∈ p.names, Plain n)
    (he : z.head? ≠ some '=') (hb : z.head? ≠ some '|') :
    words (p.chars ++ z) = label p ++ words z := by
  have bar := words_bar he hb
  cases p with
  | omitted => rfl
  | any =>
      have star : words ('*' :: '|' :: z) = _ := words_star (by simp)
      exact star.trans (congrArg _ bar)
  | none => exact bar
  | labelled l =>
      have spelled := (hp l List.mem_cons_self).spelled
      have chars : NamespacePattern.chars (.labelled l) ++ z = l.toList ++ '|' :: z := by
        simp [NamespacePattern.chars]
      have stops : Stops ('|' :: z) := ⟨rfl, by decide⟩
      have ident := spelled.next_ident stops (by simp)
      rw [chars, words_of_next ident rfl, bar, String.ofList_toList]
      rfl

theorem words_ident {n : String} (hn : Plain n) (hs : Stops z) (hp : z.head? ≠ some '(') :
    words (n.toList ++ z) = .ident n :: words z := by
  rw [words_of_next (hn.spelled.next_ident hs hp) rfl, String.ofList_toList]

theorem name_some {p : NamespacePattern} {n : String} (hp : ∀ m ∈ p.names, Plain m) (hn : Plain n)
    (hs : Stops z) (hz : z.head? ≠ some '(') :
    Name p (some n) (words (p.chars ++ (n.toList ++ z))) (words z) := by
  obtain ⟨c, ds, hc, letter, -⟩ := hn.spelled.cases_cons
  have head {d : Char} (hd : isNameChar d = false) : (n.toList ++ z).head? ≠ some d := by
    rw [hc]
    rintro ⟨⟩
    exact absurd letter (by simp [hd])
  rw [words_label hp (head rfl) (head rfl), words_ident hn hs hz]
  exact .intro

theorem name_none {p : NamespacePattern} (hp : ∀ m ∈ p.names, Plain m) (hz : z.head? ≠ some '=') :
    Name p none (words (p.chars ++ '*' :: z)) (words z) := by
  rw [words_label hp (by simp) (by simp), words_star hz]
  exact .intro

theorem beq_of_append_beq {x y : Token} (h : (ts ++ [x] == r ++ [y]) = true) :
    (ts == r) = true := by
  induction ts generalizing r with
  | nil =>
      cases r with
      | nil => rfl
      | cons t r =>
          rw [List.nil_append, List.cons_append, List.cons_beq_cons, Bool.and_eq_true] at h
          cases r <;> cases h.2
  | cons t ts ih =>
      cases r with
      | nil =>
          rw [List.nil_append, List.cons_append, List.cons_beq_cons, Bool.and_eq_true] at h
          cases ts <;> cases h.2
      | cons u r =>
          rw [List.cons_append, List.cons_append, List.cons_beq_cons, Bool.and_eq_true] at h
          rw [List.cons_beq_cons, h.1, ih h.2]
          rfl

theorem arguments_reread {args : List Token} (h : (Token.listOfText (String.ofList
      (Token.listChars args ++ [')'])) == args ++ [.closeParen, .eof]) = true) :
    ∃ args', (args' == args) = true ∧ (∀ t ∈ args', Raw t) ∧
      ∀ z, words (Token.listChars args ++ ')' :: z) = args' ++ .closeParen :: words z := by
  refine words_of_reread List.suffix_rfl ?_
  have split : args ++ [.closeParen, .eof] = args ++ [.closeParen] ++ [.eof] := by simp
  rw [Token.listOfText, String.toList_ofList, tokens_eq, split] at h
  exact beq_of_append_beq h

theorem Called.print {n : String} {args : Option (List Token)} (h : Called .written n args ts r)
    (hn : Plain n) (ha : ∀ A, args = some A → (Token.listOfText (String.ofList
      (Token.listChars A ++ [')'])) == A ++ [.closeParen, .eof]) = true) (hz : Clear z) :
    ∃ args', (args' == args) = true ∧
      Called .written n args' (words (n.toList ++ (Simple.argumentChars args ++ z))) (words z) := by
  cases h with
  | @ident m _ =>
      refine ⟨none, rfl, ?_⟩
      rw [Simple.argumentChars, List.nil_append, words_ident hn hz.stops (hz.head_ne (by decide))]
      have called := Called.ident (σ := .written) (n := Ascii.lower m) (r := words z)
      rwa [Ascii.lower_lower] at called
  | @function m raw _ hb _ =>
      obtain ⟨args', beq, hraw, read⟩ := arguments_reread (ha _ rfl)
      have trimmed : Token.trim args' = args' := Token.trim_of_beq beq (Token.trim_trim raw)
      refine ⟨some args', beq, ?_⟩
      have chars : Simple.argumentChars (some (Token.trim raw)) ++ z =
          '(' :: (Token.listChars (Token.trim raw) ++ ')' :: z) := by
        simp [Simple.argumentChars]
      rw [chars, words_of_next hn.spelled.next_function rfl, String.ofList_toList, read]
      have called := Called.function (σ := .written) (n := Ascii.lower m) (r := words z)
        (hb.trim.of_beq beq) hraw
      rwa [Ascii.lower_lower, trimmed] at called

theorem words_operator (o : AttributeOperator) :
    words (o.chars ++ z) = operatorToken o :: words z := by
  cases o
  all_goals exact words_of_next (next_cons (by decide)) rfl

theorem test_print (test : Option (AttributeOperator × String)) :
    Test test (words (Simple.testChars test ++ ']' :: z)) (.closeBracket :: words z) := by
  cases test with
  | none =>
      rw [Simple.testChars, List.nil_append, words_closeBracket]
      exact .presence
  | some test =>
      obtain ⟨o, v⟩ := test
      rw [Simple.testChars, List.append_assoc, words_operator, words_of_next next_quoted rfl,
        words_closeBracket, String.ofList_toList]
      exact .comparison .none .string .none

theorem stops_testChars (test : Option (AttributeOperator × String)) :
    Stops (Simple.testChars test ++ ']' :: z) ∧
      (Simple.testChars test ++ ']' :: z).head? ≠ some '(' := by
  cases test with
  | none => exact ⟨⟨rfl, by decide⟩, by simp [Simple.testChars]⟩
  | some test =>
      obtain ⟨o, v⟩ := test
      cases o
      all_goals exact ⟨⟨rfl, by decide⟩, by simp [Simple.testChars, AttributeOperator.chars]⟩

theorem Narrowing.print {s : Simple} (h : Narrowing .written s ts r) (hs : s.Legible)
    (hz : Clear z) :
    ∃ s', (s' == s) = true ∧ Narrowing .written s' (words (s.chars ++ z)) (words z) := by
  cases h with
  | @identifier v _ =>
      have hv := hs.plain v List.mem_cons_self
      refine ⟨_, Simple.beq_self_of_arguments rfl, ?_⟩
      rw [Simple.chars, List.cons_append, words_of_next (hv.spelled.next_hash hz.stops) rfl,
        String.ofList_toList]
      exact .identifier
  | @className n _ =>
      have hn := hs.plain n List.mem_cons_self
      refine ⟨_, Simple.beq_self_of_arguments rfl, ?_⟩
      rw [Simple.chars, List.cons_append, words_of_next hn.spelled.next_dot rfl,
        words_ident hn hz.stops (hz.head_ne (by decide))]
      exact .className
  | @attributeTest p n test _ _ _ _ _ _ _ _ _ =>
      obtain ⟨hn, hp⟩ := List.forall_mem_cons.mp hs.plain
      refine ⟨_, Simple.beq_self_of_arguments rfl, ?_⟩
      have chars : Simple.chars (.attributeTest p (Ascii.lower n) test) ++ z =
          '[' :: (p.chars ++ ((Ascii.lower n).toList ++ (Simple.testChars test ++ ']' :: z))) := by
        simp [Simple.chars]
      obtain ⟨stops, paren⟩ := stops_testChars (z := z) test
      have name := name_some hp hn stops paren
      have read := Narrowing.attributeTest (σ := .written) (n := Ascii.lower n) .none name .none
        (test_print test)
      rw [chars, words_openBracket]
      rwa [Ascii.lower_lower] at read
  | pseudoClass h =>
      obtain ⟨args', beq, called⟩ := h.print (hs.plain _ List.mem_cons_self) hs.reread hz
      refine ⟨.pseudoClass _ args', Bool.and_eq_true_iff.mpr ⟨beq_self_eq_true _, beq⟩, ?_⟩
      rw [Simple.chars, List.append_assoc, List.cons_append, words_colon]
      exact .pseudoClass called
  | pseudoElement h =>
      obtain ⟨args', beq, called⟩ := h.print (hs.plain _ List.mem_cons_self) hs.reread hz
      refine ⟨.pseudoElement _ args', Bool.and_eq_true_iff.mpr ⟨beq_self_eq_true _, beq⟩, ?_⟩
      rw [Simple.chars, List.append_assoc, List.cons_append, List.cons_append, words_colon,
        words_colon]
      exact .pseudoElement called

theorem Leading.print {s : Simple} (h : Leading .written s ts r) (hs : s.Legible) (hz : Clear z) :
    Leading .written s (words (s.chars ++ z)) (words z) := by
  cases h with
  | @type p n _ _ _ =>
      obtain ⟨hn, hp⟩ := List.forall_mem_cons.mp hs.plain
      have name := name_some hp hn hz.stops (hz.head_ne (by decide))
      have read := Leading.type (σ := .written) name
      rw [Simple.chars, List.append_assoc]
      rwa [Ascii.lower_lower] at read
  | «universal» _ =>
      rw [Simple.chars, List.append_assoc]
      exact .universal (name_none hs.plain (hz.head_ne (by decide)))

theorem Narrowing.clear {s : Simple} (h : Narrowing .written s ts r) : Clear (s.chars ++ z) := by
  cases h <;> simp [Simple.chars, Clear]

theorem Narrowings.clear {ss : List Simple} (h : Narrowings .written ss ts r) (hz : Clear z) :
    Clear (ss.flatMap Simple.chars ++ z) := by
  cases h with
  | nil => exact hz
  | cons h _ =>
      rw [List.flatMap_cons, List.append_assoc]
      exact h.clear

theorem Narrowings.print {ss : List Simple} (h : Narrowings .written ss ts r)
    (hs : ∀ s ∈ ss, s.Legible) (hz : Clear z) :
    ∃ ss', (ss' == ss) = true ∧
      Narrowings .written ss' (words (ss.flatMap Simple.chars ++ z)) (words z) := by
  induction h with
  | nil => exact ⟨[], rfl, .nil⟩
  | @cons s ss _ _ _ h hn ih =>
      obtain ⟨hs, hss⟩ := List.forall_mem_cons.mp hs
      obtain ⟨ss', beq, read⟩ := ih hss
      obtain ⟨s', beq', first⟩ := h.print hs (hn.clear hz)
      refine ⟨s' :: ss', Bool.and_eq_true_iff.mpr ⟨beq', beq⟩, ?_⟩
      rw [List.flatMap_cons, List.append_assoc]
      exact .cons first read

theorem Leading.arguments {s : Simple} (h : Leading .written s ts r) : s.arguments = none := by
  cases h <;> rfl

theorem Compounded.print {c : Compound} (h : Compounded .written c ts r)
    (hc : ∀ s ∈ c.simples, s.Legible) (hz : Clear z) :
    ∃ c', (c' == c) = true ∧ Compounded .written c' (words (c.chars ++ z)) (words z) := by
  cases h with
  | @led s ss _ _ _ h hn =>
      obtain ⟨hs, hss⟩ := List.forall_mem_cons.mp hc
      obtain ⟨ss', beq, read⟩ := hn.print hss hz
      have first := h.print hs (hn.clear hz)
      have beq' := Simple.beq_self_of_arguments h.arguments
      refine ⟨⟨s :: ss'⟩, Bool.and_eq_true_iff.mpr ⟨beq', beq⟩, ?_⟩
      rw [Compound.chars, List.flatMap_cons, List.append_assoc]
      exact .led first read
  | @bare s ss _ _ _ h hn =>
      obtain ⟨hs, hss⟩ := List.forall_mem_cons.mp hc
      obtain ⟨ss', beq, read⟩ := hn.print hss hz
      obtain ⟨s', beq', first⟩ := h.print hs (hn.clear hz)
      refine ⟨⟨s' :: ss'⟩, Bool.and_eq_true_iff.mpr ⟨beq', beq⟩, ?_⟩
      rw [Compound.chars, List.flatMap_cons, List.append_assoc]
      exact .bare first read

theorem unspaced_name {p : NamespacePattern} (hp : ∀ m ∈ p.names, Plain m) (hz : Unspaced z) :
    Unspaced (p.chars ++ z) := by
  cases p with
  | omitted => exact hz
  | any => exact rfl
  | none => exact rfl
  | labelled l =>
      rw [NamespacePattern.chars, List.append_assoc]
      exact (hp l List.mem_cons_self).spelled.unspaced

theorem Compounded.unspaced {c : Compound} (h : Compounded .written c ts r)
    (hc : ∀ s ∈ c.simples, s.Legible) : Unspaced (c.chars ++ z) := by
  cases h with
  | @led s ss _ _ _ h _ =>
      have hs := hc s List.mem_cons_self
      rw [Compound.chars, List.flatMap_cons, List.append_assoc]
      cases h with
      | type _ =>
          rw [Simple.chars, List.append_assoc]
          obtain ⟨hn, hp⟩ := List.forall_mem_cons.mp hs.plain
          exact unspaced_name hp hn.spelled.unspaced
      | «universal» _ =>
          rw [Simple.chars, List.append_assoc]
          exact unspaced_name hs.plain rfl
  | bare h _ =>
      rw [Compound.chars, List.flatMap_cons, List.append_assoc]
      cases h <;> rfl

theorem Joint.print {k : Combinator} (h : Joint k ts r) (hz : Unspaced z) :
    Joint k (words (k.chars ++ z)) (words z) := by
  have named : k ≠ .none := by
    cases h with
    | gap _ => nofun
    | signed hk _ _ => exact hk
  have signed (cs : List Char) (hk : k.chars ++ z = ' ' :: (cs ++ ' ' :: z))
      (hcs : Unspaced (cs ++ ' ' :: z)) (hw : words (cs ++ ' ' :: z) = sign k ++ words (' ' :: z)) :
      Joint k (words (k.chars ++ z)) (words z) := by
    rw [hk, words_space hcs, hw, words_space hz]
    exact .signed named (.more .none) (.more .none)
  cases k with
  | none => exact absurd rfl named
  | descendant =>
      have read : words (Combinator.descendant.chars ++ z) = _ := words_space hz
      rw [read]
      exact .gap .none
  | child => exact signed ['>'] rfl rfl (words_of_next (next_cons (by decide)) rfl)
  | nextSibling => exact signed ['+'] rfl rfl (words_of_next (next_cons (by decide)) rfl)
  | subsequentSibling => exact signed ['~'] rfl rfl (words_of_next (next_cons (by decide)) rfl)
  | column => exact signed ['|', '|'] rfl rfl (words_of_next (next_cons (by decide)) rfl)

theorem Joint.clear {k : Combinator} (h : Joint k ts r) : Clear (k.chars ++ z) := by
  cases h with
  | gap _ => simp [Combinator.chars, Clear]
  | signed hk _ _ =>
      cases k
      case none => exact absurd rfl hk
      all_goals simp [Combinator.chars, Clear]

def stepChars (step : Step) : List Char :=
  step.compound.chars ++ step.combinator.chars

theorem chars_eq (s : Complex) : s.chars = s.ancestors.flatMap stepChars ++ s.subject.chars := by
  rw [Complex.chars, Complex.steps, List.flatMap_append, List.flatMap_singleton]
  exact congrArg _ (List.append_nil _)

theorem Joined.unspaced {ss : List Step} {c : Compound} (h : Joined .written ss c ts r)
    (hs : ∀ step ∈ ss, ∀ s ∈ step.compound.simples, s.Legible)
    (hc : ∀ s ∈ c.simples, s.Legible) :
    Unspaced (ss.flatMap stepChars ++ (c.chars ++ z)) := by
  cases h with
  | subject h => exact h.unspaced hc
  | step h _ _ =>
      rw [List.flatMap_cons, stepChars, List.append_assoc, List.append_assoc]
      exact h.unspaced (hs _ List.mem_cons_self)

theorem Joined.print {ss : List Step} {c : Compound} (h : Joined .written ss c ts r)
    (hs : ∀ step ∈ ss, ∀ s ∈ step.compound.simples, s.Legible)
    (hc : ∀ s ∈ c.simples, s.Legible) (hz : Clear z) :
    ∃ ss' c', (ss' == ss) = true ∧ (c' == c) = true ∧
      Joined .written ss' c' (words (ss.flatMap stepChars ++ (c.chars ++ z))) (words z) := by
  induction h with
  | subject h =>
      obtain ⟨c', beq, read⟩ := h.print hc hz
      exact ⟨[], c', rfl, beq, .subject read⟩
  | @step c s k ss _ _ _ _ h hk hj ih =>
      obtain ⟨first, others⟩ := List.forall_mem_cons.mp hs
      obtain ⟨ss', s', beqs, beq, read⟩ := ih others hc
      obtain ⟨c', beq', compound⟩ := h.print first (Joint.clear hk)
      have joint := Joint.print hk (hj.unspaced others hc (z := z))
      have steps : (⟨c', k⟩ == (⟨c, k⟩ : Step)) = true :=
        Bool.and_eq_true_iff.mpr ⟨beq', beq_self_eq_true k⟩
      refine ⟨⟨c', k⟩ :: ss', s', Bool.and_eq_true_iff.mpr ⟨steps, beqs⟩, beq, ?_⟩
      rw [List.flatMap_cons, stepChars, List.append_assoc, List.append_assoc]
      exact .step compound joint read

theorem legible_steps {s : Complex} (hs : ∀ x ∈ s.simples, x.Legible) :
    (∀ step ∈ s.ancestors, ∀ x ∈ step.compound.simples, x.Legible) ∧
      ∀ x ∈ s.subject.simples, x.Legible := by
  have simples : s.simples = s.ancestors.flatMap (·.compound.simples) ++ s.subject.simples := by
    simp [Complex.simples, Complex.steps]
  rw [simples, List.forall_mem_append, List.forall_mem_flatMap] at hs
  exact hs

theorem Member.print {s : Complex} (h : Member .written s ts r)
    (hs : ∀ x ∈ s.simples, x.Legible) (hz : Clear z) :
    ∃ s', (s' == s) = true ∧ Member .written s' (words (s.chars ++ z)) (words z) := by
  obtain ⟨steps, subject⟩ := legible_steps hs
  obtain ⟨ss', c', beqs, beq, read⟩ := h.joined.print steps subject hz
  refine ⟨⟨ss', c', Complex.countedSpecificity ⟨ss', c', .zero⟩⟩,
    Bool.and_eq_true_iff.mpr ⟨beqs, beq⟩, ?_, rfl⟩
  rwa [chars_eq, List.append_assoc]

theorem Member.unspaced {s : Complex} (h : Member .written s ts r)
    (hs : ∀ x ∈ s.simples, x.Legible) : Unspaced (s.chars ++ z) := by
  obtain ⟨steps, subject⟩ := legible_steps hs
  rw [chars_eq, List.append_assoc]
  exact h.joined.unspaced steps subject

theorem Members.spaced {ss : List Complex} (h : Members .written ss ts) :
    Members .written ss (.whitespace :: ts) := by
  cases h with
  | last h hs h' => exact .last (.more h) hs h'
  | cons h hs h' hr => exact .cons (.more h) hs h' hr

theorem Members.unspaced {ss : List Complex} (h : Members .written ss ts)
    (hs : ∀ s ∈ ss, ∀ x ∈ s.simples, x.Legible) :
    Unspaced (SelectorList.separated (ss.map Complex.chars)) := by
  cases h with
  | last _ hm _ =>
      have first := hm.unspaced (z := []) (hs _ List.mem_cons_self)
      rwa [List.append_nil] at first
  | @cons s ss _ _ _ _ _ hm _ hr =>
      have first {z : List Char} : Unspaced (s.chars ++ z) := hm.unspaced (hs s List.mem_cons_self)
      cases ss with
      | nil => cases hr
      | cons => exact first

theorem Members.print {ss : List Complex} (h : Members .written ss ts)
    (hs : ∀ s ∈ ss, ∀ x ∈ s.simples, x.Legible) :
    ∃ ss', (ss' == ss) = true ∧
      Members .written ss' (words (SelectorList.separated (ss.map Complex.chars))) := by
  induction h with
  | @last s _ _ _ h hm h' =>
      obtain ⟨s', beq, read⟩ := hm.print (z := []) (hs s List.mem_cons_self) trivial
      rw [List.append_nil, words_nil] at read
      exact ⟨[s'], Bool.and_eq_true_iff.mpr ⟨beq, rfl⟩, .last .none read .none⟩
  | @cons s ss _ _ _ r h hm h' hr ih =>
      obtain ⟨first, others⟩ := List.forall_mem_cons.mp hs
      obtain ⟨ss', beq, read⟩ := ih others
      have next := words_space (hr.unspaced others)
      obtain ⟨s', beq', member⟩ := hm.print first
        (show Clear (',' :: ' ' :: SelectorList.separated (ss.map Complex.chars)) by simp [Clear])
      rw [words_comma, next] at member
      refine ⟨s' :: ss', Bool.and_eq_true_iff.mpr ⟨beq', beq⟩, ?_⟩
      cases ss with
      | nil => cases hr
      | cons => exact .cons .none member .none read.spaced

end Rendering

namespace SelectorList

open Rendering

def Legible (l : SelectorList) : Prop :=
  ∀ s ∈ l.members, ∀ x ∈ s.simples, x.Legible

theorem written_of_ofText {text : String} {l : SelectorList} (h : ofText text = .ok l) :
    Members .written l.members (Lexer.words text.toList) := by
  rw [Rendering.members_iff]
  unfold ofText ofTokens at h
  split at h
  · cases h
  · rename_i lexemes hl
    have raw : ∀ t ∈ Token.listOfText text, t.isComposite = false :=
      fun _ => Lexer.isComposite_of_mem_tokens
    exact ⟨_, Cursor.prepare_sound raw hl, Grammar.members_iff.mp (map_eq_ok h)⟩

theorem ofText_of_written {text : String} {l : SelectorList}
    (h : Members .written l.members (Lexer.words text.toList)) : ofText text = .ok l := by
  obtain ⟨out, hc, members⟩ := Rendering.members_iff.mp h
  obtain ⟨lexemes, hl, rfl⟩ := Cursor.prepare_complete hc
  simp only [ofText, ofTokens, Token.listOfText, hl, Grammar.members_iff.mpr members]
  rfl

theorem ofText_text {text : String} {l : SelectorList} (h : ofText text = .ok l)
    (hl : l.Legible) : ∃ l', ofText l.text = .ok l' ∧ (l' == l) = true := by
  obtain ⟨members, beq, read⟩ := (written_of_ofText h).print hl
  refine ⟨⟨members⟩, ofText_of_written ?_, beq⟩
  rwa [SelectorList.text, String.toList_ofList]

def quoting : SelectorList :=
  ⟨[⟨[⟨⟨[.type (.labelled "svg") "a", .pseudoClass "not" (some [.ident "c"]),
    .attributeTest .omitted "t" (some (.equals, "é\""))]⟩, .child⟩], ⟨[.universal .omitted]⟩,
    ⟨0, 2, 1⟩⟩]⟩

theorem ofText_quoting : ofText "svg|A:not( c )[t=\"é\\\"\"] > *" = .ok quoting := by
  have tokens : Lexer.words "svg|A:not( c )[t=\"é\\\"\"] > *".toList = [.ident "svg", .delim '|',
      .ident "A", .colon, .function "not", .whitespace, .ident "c", .whitespace, .closeParen,
      .openBracket, .ident "t", .delim '=', .string "é\"", .closeBracket, .whitespace, .delim '>',
      .whitespace, .delim '*'] := by cbv
  have a : Ascii.lower "A" = "a" := by decide +kernel
  have not : Ascii.lower "not" = "not" := by decide +kernel
  have t : Ascii.lower "t" = "t" := by decide +kernel
  have args : Balanced 0 [.whitespace, .ident "c", .whitespace] :=
    .plain rfl rfl (.plain rfl rfl (.plain rfl rfl .nil))
  have type {r : List Token} :=
    Leading.type (σ := .written) (p := .labelled "svg") (n := "A") (r := r) .intro
  have called {r : List Token} := Called.function (σ := .written) (n := "not") (r := r) args (by
    simp [Spelling.written, Raw, Token.isComposite, Token.isEof])
  have test {r : List Token} := Narrowing.attributeTest (σ := .written) (p := .omitted) (n := "t")
    (r := r) .none .intro .none (.comparison (o := .equals) (v := "é\"") .none .string .none)
  rw [a] at type
  rw [not] at called
  rw [t] at test
  refine ofText_of_written ?_
  rw [tokens]
  refine .last .none ⟨.step (.led type ?_) (.signed (by simp) (.more .none) (.more .none))
    (.subject (.led (.universal .intro) .nil)), rfl⟩ .none
  exact .cons (.pseudoClass called) (.cons test .nil)

theorem legible_quoting : quoting.Legible := by
  have type : (Simple.type (.labelled "svg") "a").Legible :=
    .of_bare rfl (List.forall_mem_cons.mpr ⟨by cbv, List.forall_mem_singleton.mpr (by cbv)⟩)
  have called : (Simple.pseudoClass "not" (some [.ident "c"])).Legible := by
    refine ⟨List.forall_mem_singleton.mpr (by cbv), ?_⟩
    rintro _ ⟨⟩
    cbv
  have test : (Simple.attributeTest .omitted "t" (some (.equals, "é\""))).Legible :=
    .of_bare rfl (List.forall_mem_singleton.mpr (by cbv))
  have all : (Simple.universal .omitted).Legible := .of_bare rfl (List.forall_mem_nil _)
  refine List.forall_mem_singleton.mpr ?_
  have each : ∀ x ∈ [Simple.type (.labelled "svg") "a", .pseudoClass "not" (some [.ident "c"]),
      .attributeTest .omitted "t" (some (.equals, "é\"")), .universal .omitted], x.Legible := by
    simp only [List.forall_mem_cons, List.not_mem_nil, false_implies, implies_true, and_true]
    exact ⟨type, called, test, all⟩
  exact each

theorem ofText_text_quoting : ofText "svg|A:not( c )[t=\"é\\\"\"] > *" = .ok quoting ∧
    quoting.Legible ∧ ∃ l', ofText quoting.text = .ok l' ∧ (l' == quoting) = true :=
  ⟨ofText_quoting, legible_quoting, ofText_text ofText_quoting legible_quoting⟩

end SelectorList

end CssStyling

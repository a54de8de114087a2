import CssStyling.Proofs.Selector.Blaming

namespace CssStyling

def Token.isComma : Token → Bool
  | .comma => true
  | _ => false

def enter (depth : Nat) (t : Token) : Option Nat :=
  if t.isComma && depth == 0 then none else some (Lexeme.Place.depthAfter depth t)

def Sealed (ts : List Token) : Prop :=
  ts.foldlM enter 0 = some 0

variable {d : Nat} {t : Token} {ts us vs r : List Token}

theorem enter_succ : enter (d + 1) t = some (Lexeme.Place.depthAfter (d + 1) t) :=
  if_neg (by simp)

theorem enter_zero :
    enter 0 t = if t.isComma then none else some (if t.opensGroup then 1 else 0) := by
  cases t <;> rfl

theorem Sealed.append (h : Sealed us) (h' : Sealed vs) : Sealed (us ++ vs) := by
  rw [Sealed, List.foldlM_append, h]
  exact h'

def Inert (t : Token) : Prop :=
  ∀ d, enter d t = some d

theorem Inert.foldlM (h : Inert t) : (t :: ts).foldlM enter d = ts.foldlM enter d := by
  rw [List.foldlM_cons, h d]
  rfl

theorem sealed_nil : Sealed [] := rfl

theorem Sealed.cons (h : Inert t) (hs : Sealed ts) : Sealed (t :: ts) :=
  h.foldlM.trans hs

theorem sealed_singleton (h : Inert t) : Sealed [t] :=
  sealed_nil.cons h

namespace Rendering

open Lexeme

theorem inert_localToken {n : Option String} : Inert (localToken n) := by
  cases n <;> exact fun _ => rfl

theorem inert_value {v : String} (h : Value v t) : Inert t := by
  cases h <;> exact fun _ => rfl

theorem inert_operatorToken {o : AttributeOperator} : Inert (operatorToken o) := by
  cases o <;> exact fun _ => rfl

theorem Balanced.foldlM {args : List Token} (h : Balanced d args) :
    args.foldlM enter (d + 1) = some 1 := by
  induction h with
  | nil => rfl
  | opening ht _ ih =>
      rw [List.foldlM_cons, enter_succ, Place.depthAfter, if_pos ht]
      exact ih
  | closing _ ih =>
      rw [List.foldlM_cons, enter_succ]
      exact ih
  | plain ht ht' _ ih =>
      rw [List.foldlM_cons, enter_succ]
      simp only [Place.depthAfter, ht, ht']
      exact ih

theorem Balanced.sealed {n : String} {args : List Token} (h : Balanced 0 args) :
    Sealed (.function n :: (args ++ [.closeParen])) := by
  change (args ++ [Token.closeParen]).foldlM enter 1 = some 0
  rw [List.foldlM_append, h.foldlM]
  rfl

structure Takes (R : List Token → List Token → Prop) (ts r u : List Token) : Prop where
  split : ts = u ++ r
  closed : Sealed u
  apart : ∀ r', R (u ++ r') r'

theorem Takes.append {R S T : List Token → List Token → Prop} {m u v : List Token}
    (h : Takes R ts m u) (h' : Takes S m r v) (join : ∀ {x y z}, R x y → S y z → T x z) :
    Takes T ts r (u ++ v) where
  split := by rw [h.split, h'.split, List.append_assoc]
  closed := h.closed.append h'.closed
  apart r' := by
    rw [List.append_assoc]
    exact join (h.apart _) (h'.apart r')

theorem Blank.takes (h : Blank ts r) : ∃ u, Takes Blank ts r u := by
  induction h with
  | none => exact ⟨[], rfl, rfl, fun _ => .none⟩
  | more _ ih =>
      obtain ⟨u, rfl, closed, apart⟩ := ih
      exact ⟨.whitespace :: u, rfl, closed, fun r' => .more (apart r')⟩

theorem OneName.takes {p : NamespacePattern} {n : Option String} (h : OneName p n ts r) :
    ∃ u, Takes (OneName p n) ts r u := by
  cases h with
  | bare => exact ⟨[localToken n], rfl, sealed_singleton inert_localToken, fun _ => .bare⟩
  | joined => exact ⟨[.qualifiedName p n], rfl, rfl, fun _ => .joined⟩

theorem Test.takes {test : Option (AttributeOperator × String)} (h : Test test ts r) :
    ∃ u, Takes (Test test) ts r u := by
  cases h with
  | presence => exact ⟨[], rfl, rfl, fun _ => .presence⟩
  | @comparison o v t _ _ _ h hv h' =>
      obtain ⟨before, rfl, closed, apart⟩ := h.takes
      obtain ⟨after, rfl, closed', apart'⟩ := h'.takes
      refine ⟨operatorToken o :: (before ++ t :: after), by simp, ?_, fun r' => ?_⟩
      · exact (closed.append (closed'.cons (inert_value hv))).cons inert_operatorToken
      · have comparison := Test.comparison (o := o) (apart (t :: (after ++ r'))) hv (apart' r')
        simpa using comparison

theorem Called.takes {n : String} {args : Option (List Token)}
    (h : Called .composed n args ts r) : ∃ u, Takes (Called .composed n args) ts r u := by
  cases h with
  | @ident n => exact ⟨[.ident n], rfl, rfl, fun _ => .ident⟩
  | @function n args _ hb ha =>
      refine ⟨.function n :: (args ++ [.closeParen]), by simp, hb.sealed, fun r' => ?_⟩
      have function : Called .composed _ _ (.function n :: (args ++ .closeParen :: r')) r' :=
        .function hb ha
      simpa using function

theorem Leading.takes {s : Simple} (h : Leading .composed s ts r) :
    ∃ u, Takes (Leading .composed s) ts r u := by
  cases h with
  | type h =>
      obtain ⟨u, rfl, closed, apart⟩ := OneName.takes h
      exact ⟨u, rfl, closed, fun r' => .type (apart r')⟩
  | universal h =>
      obtain ⟨u, rfl, closed, apart⟩ := OneName.takes h
      exact ⟨u, rfl, closed, fun r' => .universal (apart r')⟩

theorem Narrowing.takes {s : Simple} (h : Narrowing .composed s ts r) :
    ∃ u, Takes (Narrowing .composed s) ts r u := by
  cases h with
  | @identifier v => exact ⟨[.hash v true], rfl, rfl, fun _ => .identifier⟩
  | @className n => exact ⟨[.delim '.', .ident n], rfl, rfl, fun _ => .className⟩
  | attributeTest h hn h' ht =>
      obtain ⟨before, rfl, closed₁, apart₁⟩ := h.takes
      obtain ⟨name, rfl, closed₂, apart₂⟩ := OneName.takes hn
      obtain ⟨between, rfl, closed₃, apart₃⟩ := h'.takes
      obtain ⟨test, rfl, closed₄, apart₄⟩ := ht.takes
      refine ⟨.openBracket :: (before ++ (name ++ (between ++ (test ++ [.closeBracket])))),
        by simp, ?_, fun r' => ?_⟩
      · exact closed₁.append (closed₂.append (closed₃.append (closed₄.append rfl)))
      · have narrowing : Narrowing .composed _ _ r' := .attributeTest (apart₁ _) (apart₂ _)
          (apart₃ _) (apart₄ (.closeBracket :: r'))
        simpa using narrowing
  | pseudoClass h =>
      obtain ⟨u, rfl, closed, apart⟩ := h.takes
      exact ⟨.colon :: u, rfl, closed, fun r' => .pseudoClass (apart r')⟩
  | pseudoElement h =>
      obtain ⟨u, rfl, closed, apart⟩ := h.takes
      exact ⟨.colon :: .colon :: u, rfl, closed, fun r' => .pseudoElement (apart r')⟩

theorem Narrowings.takes {ss : List Simple} (h : Narrowings .composed ss ts r) :
    ∃ u, Takes (Narrowings .composed ss) ts r u := by
  induction h with
  | nil => exact ⟨[], rfl, rfl, fun _ => .nil⟩
  | cons h _ ih =>
      obtain ⟨first, h⟩ := h.takes
      obtain ⟨others, hs⟩ := ih
      exact ⟨first ++ others, h.append hs .cons⟩

theorem Compounded.takes {c : Compound} (h : Compounded .composed c ts r) :
    ∃ u, Takes (Compounded .composed c) ts r u := by
  cases h with
  | led h hs =>
      obtain ⟨first, h⟩ := h.takes
      obtain ⟨others, hs⟩ := hs.takes
      exact ⟨first ++ others, h.append hs .led⟩
  | bare h hs =>
      obtain ⟨first, h⟩ := h.takes
      obtain ⟨others, hs⟩ := hs.takes
      exact ⟨first ++ others, h.append hs .bare⟩

theorem Joined.takes {ss : List Step} {s : Compound} (h : Joined .composed ss s ts r) :
    ∃ u, Takes (Joined .composed ss s) ts r u := by
  induction h with
  | subject h =>
      obtain ⟨u, rfl, closed, apart⟩ := h.takes
      exact ⟨u, rfl, closed, fun r' => .subject (apart r')⟩
  | @step _ _ k _ _ _ _ _ h hk _ ih =>
      obtain ⟨first, rfl, closed, apart⟩ := h.takes
      obtain ⟨others, rfl, closed', apart'⟩ := ih
      cases hk
      refine ⟨first ++ .combinator k :: others, by simp, ?_, fun r' => ?_⟩
      · exact closed.append (closed'.cons fun _ => rfl)
      · rw [List.append_assoc]
        exact .step (apart _) rfl (apart' r')

theorem Member.takes {s : Complex} (h : Member .composed s ts r) :
    ∃ u, Takes (Member .composed s) ts r u := by
  obtain ⟨u, split, closed, apart⟩ := h.joined.takes
  exact ⟨u, split, closed, fun r' => ⟨apart r', h.counted⟩⟩

end Rendering

namespace Grammar

open Lexeme

variable {finish : Nat} {items rest : List Lexeme}

theorem complex_front {s : Complex} (h : complex finish items = .ok (s, rest)) :
    ∃ front, items = front ++ rest ∧ Sealed (tokens front) ∧
      ∀ finish', complex finish' front = .ok (s, []) := by
  have stays := complex_stays finish items
  rw [h] at stays
  obtain ⟨front, rfl⟩ := stays.suffix
  obtain ⟨u, split, closed, apart⟩ := (complex_sound h).takes
  rw [tokens_append] at split
  obtain rfl := List.append_cancel_right split
  refine ⟨front, rfl, closed, fun finish' => ?_⟩
  have alone := apart []
  rw [List.append_nil] at alone
  obtain ⟨left, none, read⟩ := complex_complete finish' alone trivial
  rwa [tokens_eq_nil none] at read

end Grammar

end CssStyling

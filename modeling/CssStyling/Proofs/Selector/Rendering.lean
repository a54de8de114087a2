import CssStyling.Selector.Reader

namespace CssStyling

structure Spelling where
  name : NamespacePattern → Option String → List Token → List Token → Prop
  joint : Combinator → List Token → List Token → Prop
  margin : List Token → List Token → Prop
  argument : Token → Prop

namespace Rendering

def Raw (t : Token) : Prop :=
  t.isComposite = false ∧ t.isEof = false

inductive Blank : List Token → List Token → Prop
  | none {ts : List Token} : Blank ts ts
  | more {ts r : List Token} (h : Blank ts r) : Blank (.whitespace :: ts) r

def label : NamespacePattern → List Token
  | .omitted => []
  | .any => [.delim '*', .delim '|']
  | .none => [.delim '|']
  | .labelled l => [.ident l, .delim '|']

def localToken : Option String → Token
  | some n => .ident n
  | none => .delim '*'

def sign : Combinator → List Token
  | .none => []
  | .descendant => [.delim '>', .delim '>']
  | .child => [.delim '>']
  | .nextSibling => [.delim '+']
  | .subsequentSibling => [.delim '~']
  | .column => [.column]

inductive Name : NamespacePattern → Option String → List Token → List Token → Prop
  | intro {p : NamespacePattern} {n : Option String} {r : List Token} :
      Name p n (label p ++ localToken n :: r) r

inductive OneName : NamespacePattern → Option String → List Token → List Token → Prop
  | bare {n : Option String} {r : List Token} : OneName .omitted n (localToken n :: r) r
  | joined {p : NamespacePattern} {n : Option String} {r : List Token} :
      OneName p n (.qualifiedName p n :: r) r

inductive Joint : Combinator → List Token → List Token → Prop
  | gap {ts r : List Token} (h : Blank ts r) : Joint .descendant (.whitespace :: ts) r
  | signed {k : Combinator} {ts u r : List Token} (hk : k ≠ .none) (h : Blank ts (sign k ++ u))
      (h' : Blank u r) : Joint k ts r

def operatorToken : AttributeOperator → Token
  | .equals => .delim '='
  | .includes => .includeMatch
  | .dashMatch => .dashMatch
  | .startsWith => .startMatch
  | .endsWith => .endMatch
  | .contains => .substringMatch

inductive Value : String → Token → Prop
  | ident {v : String} : Value v (.ident v)
  | string {v : String} : Value v (.string v)

inductive Test : Option (AttributeOperator × String) → List Token → List Token → Prop
  | presence {r : List Token} : Test none r r
  | comparison {o : AttributeOperator} {v : String} {t : Token} {ts u r : List Token}
      (h : Blank ts (t :: u)) (hv : Value v t) (h' : Blank u r) :
      Test (some (o, v)) (operatorToken o :: ts) r

inductive Balanced : Nat → List Token → Prop
  | nil : Balanced 0 []
  | opening {d : Nat} {t : Token} {ts : List Token} (ht : t.opensGroup = true)
      (h : Balanced (d + 1) ts) : Balanced d (t :: ts)
  | closing {d : Nat} {ts : List Token} (h : Balanced d ts) : Balanced (d + 1) (.closeParen :: ts)
  | plain {d : Nat} {t : Token} {ts : List Token} (ht : t.opensGroup = false)
      (ht' : t.closesGroup = false) (h : Balanced d ts) : Balanced d (t :: ts)

variable (σ : Spelling)

inductive Called : String → Option (List Token) → List Token → List Token → Prop
  | ident {n : String} {r : List Token} : Called (Ascii.lower n) none (.ident n :: r) r
  | function {n : String} {args r : List Token} (hb : Balanced 0 args)
      (ha : ∀ t ∈ args, σ.argument t) :
      Called (Ascii.lower n) (some (Token.trim args))
        (.function n :: (args ++ .closeParen :: r)) r

inductive Leading : Simple → List Token → List Token → Prop
  | type {p : NamespacePattern} {n : String} {ts r : List Token}
      (h : σ.name p (some n) ts r) : Leading (.type p (Ascii.lower n)) ts r
  | universal {p : NamespacePattern} {ts r : List Token} (h : σ.name p none ts r) :
      Leading (.universal p) ts r

inductive Narrowing : Simple → List Token → List Token → Prop
  | identifier {v : String} {r : List Token} : Narrowing (.identifier v) (.hash v true :: r) r
  | className {n : String} {r : List Token} :
      Narrowing (.className n) (.delim '.' :: .ident n :: r) r
  | attributeTest {p : NamespacePattern} {n : String}
      {test : Option (AttributeOperator × String)} {ts u v w r : List Token}
      (h : Blank ts u) (hn : σ.name p (some n) u v) (h' : Blank v w)
      (ht : Test test w (.closeBracket :: r)) :
      Narrowing (.attributeTest p (Ascii.lower n) test) (.openBracket :: ts) r
  | pseudoClass {n : String} {args : Option (List Token)} {ts r : List Token}
      (h : Called σ n args ts r) : Narrowing (.pseudoClass n args) (.colon :: ts) r
  | pseudoElement {n : String} {args : Option (List Token)} {ts r : List Token}
      (h : Called σ n args ts r) : Narrowing (.pseudoElement n args) (.colon :: .colon :: ts) r

inductive Narrowings : List Simple → List Token → List Token → Prop
  | nil {r : List Token} : Narrowings [] r r
  | cons {s : Simple} {ss : List Simple} {ts u r : List Token} (h : Narrowing σ s ts u)
      (hs : Narrowings ss u r) : Narrowings (s :: ss) ts r

inductive Compounded : Compound → List Token → List Token → Prop
  | led {s : Simple} {ss : List Simple} {ts u r : List Token} (h : Leading σ s ts u)
      (hs : Narrowings σ ss u r) : Compounded ⟨s :: ss⟩ ts r
  | bare {s : Simple} {ss : List Simple} {ts u r : List Token} (h : Narrowing σ s ts u)
      (hs : Narrowings σ ss u r) : Compounded ⟨s :: ss⟩ ts r

inductive Joined : List Step → Compound → List Token → List Token → Prop
  | subject {c : Compound} {ts r : List Token} (h : Compounded σ c ts r) : Joined [] c ts r
  | step {c s : Compound} {k : Combinator} {ss : List Step} {ts u v r : List Token}
      (h : Compounded σ c ts u) (hk : σ.joint k u v) (hs : Joined ss s v r) :
      Joined (⟨c, k⟩ :: ss) s ts r

structure Member (s : Complex) (ts r : List Token) : Prop where
  joined : Joined σ s.ancestors s.subject ts r
  counted : s.specificity = s.countedSpecificity

inductive Members : List Complex → List Token → Prop
  | last {s : Complex} {ts u v : List Token} (h : σ.margin ts u) (hs : Member σ s u v)
      (h' : σ.margin v []) : Members [s] ts
  | cons {s : Complex} {ss : List Complex} {ts u v r : List Token} (h : σ.margin ts u)
      (hs : Member σ s u v) (h' : σ.margin v (.comma :: r)) (hr : Members ss r) :
      Members (s :: ss) ts

end Rendering

namespace Spelling

open Rendering

def written : Spelling where
  name := Name
  joint := Joint
  margin := Blank
  argument := Raw

def composed : Spelling where
  name := OneName
  joint k ts r := ts = .combinator k :: r
  margin ts r := ts = r
  argument _ := True

end Spelling

namespace Token

theorem eq_closeParen {t : Token} (h : t.closesGroup = true) : t = .closeParen := by
  cases t <;> first | rfl | cases h

theorem eq_whitespace {t : Token} (h : t.isWhitespace = true) : t = .whitespace := by
  cases t <;> first | rfl | cases h

theorem eq_eof {t : Token} (h : t.isEof = true) : t = .eof := by
  cases t <;> first | rfl | cases h

theorem closesGroup_of_opensGroup {t : Token} (h : t.opensGroup = true) :
    t.closesGroup = false := by
  cases t <;> first | rfl | cases h

end Token

namespace Rendering

variable {σ : Spelling} {ts r : List Token}

def LedBy (P : Token → Prop) : List Token → Prop
  | [] => True
  | t :: _ => P t

theorem LedBy.mono {P Q : Token → Prop} (h : LedBy P ts) (hpq : ∀ t, P t → Q t) :
    LedBy Q ts := by
  cases ts with
  | nil => trivial
  | cons t ts => exact hpq t h

abbrev Inked : List Token → Prop :=
  LedBy fun t => t.isWhitespace = false

abbrev Apart : List Token → Prop :=
  LedBy fun t => Lexeme.separates t = true

abbrev Nameless : List Token → Prop :=
  LedBy fun t => Grammar.leading? t = none

abbrev Ended : List Token → Prop :=
  LedBy fun t => t = .comma

theorem Apart.nameless (h : Apart ts) : Nameless ts :=
  h.mono fun t ht => by cases t <;> first | rfl | cases ht

theorem Ended.apart (h : Ended ts) : Apart ts :=
  h.mono fun t ht => by cases ht; rfl

theorem Blank.ledBy {P : Token → Prop} (h : Blank ts r) (hw : P .whitespace)
    (hr : LedBy P r) : LedBy P ts := by
  cases h with
  | none => exact hr
  | more _ => exact hw

theorem blank_dropWhile (ts : List Token) : Blank ts (ts.dropWhile Token.isWhitespace) := by
  induction ts with
  | nil => exact .none
  | cons t ts ih =>
      cases t with
      | whitespace => exact .more ih
      | _ => exact .none

theorem inked_dropWhile (ts : List Token) : Inked (ts.dropWhile Token.isWhitespace) := by
  induction ts with
  | nil => trivial
  | cons t ts ih =>
      cases t with
      | whitespace => exact ih
      | _ => rfl

theorem Blank.dropWhile_eq (h : Blank ts r) (hr : Inked r) :
    ts.dropWhile Token.isWhitespace = r := by
  induction h with
  | @none ts =>
      cases ts with
      | nil => rfl
      | cons t ts => exact List.dropWhile_cons_of_neg (by simp [show t.isWhitespace = false from hr])
  | more _ ih => exact ih hr

theorem Narrowing.nameless {x : Simple} (h : Narrowing σ x ts r) : Nameless ts := by
  cases h <;> rfl

theorem Narrowings.ledBy {P : Token → Prop} {xs : List Simple} (h : Narrowings σ xs ts r)
    (first : ∀ {x ts r}, Narrowing σ x ts r → LedBy P ts) (hr : LedBy P r) : LedBy P ts := by
  cases h with
  | nil => exact hr
  | cons h _ => exact first h

theorem Compounded.eq_cons {c : Compound} (h : Compounded .composed c ts r) :
    ∃ t u, ts = t :: u ∧ Lexeme.separates t = false := by
  cases h with
  | led h _ =>
      rcases h with (_ | _) | (_ | _)
      all_goals exact ⟨_, _, rfl, rfl⟩
  | bare h _ =>
      cases h
      all_goals exact ⟨_, _, rfl, rfl⟩

theorem Joined.eq_cons {ss : List Step} {s : Compound} (h : Joined .composed ss s ts r) :
    ∃ t u, ts = t :: u ∧ Lexeme.separates t = false := by
  cases h with
  | subject h => exact h.eq_cons
  | step h _ _ => exact h.eq_cons

end Rendering

end CssStyling

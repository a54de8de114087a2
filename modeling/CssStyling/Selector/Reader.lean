import CssStyling.Selector
import CssStyling.Selector.Lexeme
import CssStyling.Text.Ascii
import CssStyling.Token.Lexer

namespace CssStyling

namespace Grammar

open SyntaxError (Cause)
open Lexeme (skipSpace)

def fail {α : Type} (finish : Nat) (cause : Cause) (items : List Lexeme) :
    Except SyntaxError α :=
  .error (Cursor.error ⟨items, finish⟩ cause)

def unexpected {α : Type} (finish : Nat) (items : List Lexeme) : Except SyntaxError α :=
  fail finish (if items.isEmpty then .unexpectedEnd else .unexpectedToken) items

def leading? : Token → Option Simple
  | .ident name => some (.type .omitted (Ascii.lower name))
  | .qualifiedName pattern (some name) => some (.type pattern (Ascii.lower name))
  | .qualifiedName pattern none => some (.universal pattern)
  | .delim '*' => some (.universal .omitted)
  | _ => none

def startsName : List Lexeme → Bool
  | ⟨.ident _, _⟩ :: _ => true
  | ⟨.delim '*', _⟩ :: _ => true
  | _ => false

def leading (finish : Nat) : List Lexeme → Except SyntaxError (Option Simple × List Lexeme)
  | [] => .ok (none, [])
  | lexeme :: rest =>
      match leading? lexeme.token with
      | none => .ok (none, lexeme :: rest)
      | some simple =>
          if startsName rest then fail finish .expectedNamespaceSeparator rest
          else .ok (some simple, rest)

def attributeName (finish : Nat) :
    List Lexeme → Except SyntaxError ((NamespacePattern × String) × List Lexeme)
  | ⟨.ident name, _⟩ :: rest => .ok ((.omitted, Ascii.lower name), rest)
  | ⟨.qualifiedName pattern (some name), _⟩ :: rest => .ok ((pattern, Ascii.lower name), rest)
  | [] => fail finish .unterminatedAttribute []
  | items@(⟨.qualifiedName _ none, _⟩ :: _) => fail finish .missingLocalName items
  | items => fail finish .unexpectedToken items

def attributeOperator? : Token → Option AttributeOperator
  | .delim '=' => some .equals
  | .includeMatch => some .includes
  | .dashMatch => some .dashMatch
  | .startMatch => some .startsWith
  | .endMatch => some .endsWith
  | .substringMatch => some .contains
  | _ => none

def attributeValue (finish : Nat) : List Lexeme → Except SyntaxError (String × List Lexeme)
  | ⟨.ident value, _⟩ :: rest => .ok (value, rest)
  | ⟨.string value, _⟩ :: rest => .ok (value, rest)
  | [] => fail finish .unterminatedAttribute []
  | items => fail finish .invalidAttributeValue items

def attributeComparison (finish : Nat) (items : List Lexeme) :
    Except SyntaxError (String × List Lexeme) :=
  match attributeValue finish (skipSpace items) with
  | .error e => .error e
  | .ok (value, rest) =>
      match skipSpace rest with
      | ⟨.closeBracket, _⟩ :: rest' => .ok (value, rest')
      | rest' => fail finish .unterminatedAttribute rest'

def attributeTest (finish : Nat) (items : List Lexeme) :
    Except SyntaxError (Simple × List Lexeme) :=
  match attributeName finish (skipSpace items) with
  | .error e => .error e
  | .ok ((pattern, name), rest) =>
      match skipSpace rest with
      | [] => fail finish .unterminatedAttribute []
      | ⟨.closeBracket, _⟩ :: rest' => .ok (.attributeTest pattern name none, rest')
      | lexeme :: rest' =>
          match attributeOperator? lexeme.token with
          | none => fail finish .invalidAttributeOperator (lexeme :: rest')
          | some operator =>
              match attributeComparison finish rest' with
              | .error e => .error e
              | .ok (value, rest'') =>
                  .ok (.attributeTest pattern name (some (operator, value)), rest'')

def arguments (finish : Nat) (depth : Nat) :
    List Lexeme → Except SyntaxError (List Token × List Lexeme)
  | [] => fail finish .unterminatedFunction []
  | lexeme :: rest =>
      if lexeme.token.closesGroup && depth == 0 then .ok ([], rest)
      else
        match arguments finish (Lexeme.Place.depthAfter depth lexeme.token) rest with
        | .error e => .error e
        | .ok (tokens, rest') => .ok (lexeme.token :: tokens, rest')

def pseudoName (finish : Nat) :
    List Lexeme → Except SyntaxError ((String × Option (List Token)) × List Lexeme)
  | ⟨.ident name, _⟩ :: rest => .ok ((Ascii.lower name, none), rest)
  | ⟨.function name, _⟩ :: rest =>
      match arguments finish 0 rest with
      | .error e => .error e
      | .ok (tokens, rest') => .ok ((Ascii.lower name, some (Token.trim tokens)), rest')
  | items => unexpected finish items

def pseudo (finish : Nat) : List Lexeme → Except SyntaxError (Simple × List Lexeme)
  | ⟨.colon, _⟩ :: rest =>
      match pseudoName finish rest with
      | .error e => .error e
      | .ok ((name, tokens), rest') => .ok (.pseudoElement name tokens, rest')
  | items =>
      match pseudoName finish items with
      | .error e => .error e
      | .ok ((name, tokens), rest) => .ok (.pseudoClass name tokens, rest)

def className (finish : Nat) : List Lexeme → Except SyntaxError (Simple × List Lexeme)
  | ⟨.ident name, _⟩ :: rest => .ok (.className name, rest)
  | items => unexpected finish items

def simple? (finish : Nat) (items : List Lexeme) :
    Except SyntaxError (Option (Simple × List Lexeme)) :=
  match items with
  | ⟨.hash value true, _⟩ :: rest => .ok (some (.identifier value, rest))
  | ⟨.delim '.', _⟩ :: rest => (className finish rest).map some
  | ⟨.openBracket, _⟩ :: rest => (attributeTest finish rest).map some
  | ⟨.colon, _⟩ :: rest => (pseudo finish rest).map some
  | ⟨.function _, _⟩ :: _ => fail finish .unexpectedFunction items
  | ⟨.ident _, _⟩ :: _ => fail finish .unexpectedToken items
  | ⟨.qualifiedName _ _, _⟩ :: _ => fail finish .unexpectedToken items
  | ⟨.delim '*', _⟩ :: _ => fail finish .unexpectedToken items
  | _ => .ok none

theorem skipSpace_length_le (items : List Lexeme) : (skipSpace items).length ≤ items.length :=
  Lexer.dropWhile_length_le _ _

theorem attributeName_length_lt {finish : Nat} {items rest : List Lexeme}
    {found : NamespacePattern × String} (h : attributeName finish items = .ok (found, rest)) :
    rest.length < items.length := by
  unfold attributeName at h
  split at h
  case h_1 | h_2 =>
    simp only [Except.ok.injEq, Prod.mk.injEq] at h
    simp [h.2]
  all_goals simp [fail] at h

theorem attributeValue_length_lt {finish : Nat} {items rest : List Lexeme} {value : String}
    (h : attributeValue finish items = .ok (value, rest)) : rest.length < items.length := by
  unfold attributeValue at h
  split at h
  case h_1 | h_2 =>
    simp only [Except.ok.injEq, Prod.mk.injEq] at h
    simp [h.2]
  all_goals simp [fail] at h

theorem attributeComparison_length_lt {finish : Nat} {items rest : List Lexeme} {value : String}
    (h : attributeComparison finish items = .ok (value, rest)) : rest.length < items.length := by
  unfold attributeComparison at h
  split at h
  · simp at h
  · rename_i value' rest' hv
    split at h
    · rename_i hs
      have h1 := attributeValue_length_lt hv
      have h2 := skipSpace_length_le items
      have h3 := skipSpace_length_le rest'
      simp only [hs, List.length_cons] at h3
      simp only [Except.ok.injEq, Prod.mk.injEq] at h
      rw [← h.2]
      omega
    · simp [fail] at h

theorem attributeTest_length_lt {finish : Nat} {items rest : List Lexeme} {simple : Simple}
    (h : attributeTest finish items = .ok (simple, rest)) : rest.length < items.length := by
  unfold attributeTest at h
  split at h
  · simp at h
  · rename_i pattern name rest' hn
    have h1 := attributeName_length_lt hn
    have h2 := skipSpace_length_le items
    have h3 := skipSpace_length_le rest'
    split at h
    · simp [fail] at h
    · rename_i hs
      simp only [hs, List.length_cons] at h3
      simp only [Except.ok.injEq, Prod.mk.injEq] at h
      rw [← h.2]
      omega
    · rename_i hs
      simp only [hs, List.length_cons] at h3
      split at h
      · simp [fail] at h
      · split at h
        · simp at h
        · rename_i hc
          have h4 := attributeComparison_length_lt hc
          simp only [Except.ok.injEq, Prod.mk.injEq] at h
          rw [← h.2]
          omega

theorem arguments_length_lt {finish depth : Nat} {items rest : List Lexeme}
    {tokens : List Token} (h : arguments finish depth items = .ok (tokens, rest)) :
    rest.length < items.length := by
  induction items generalizing depth tokens with
  | nil => simp [arguments, fail] at h
  | cons lexeme items ih =>
      simp only [arguments] at h
      split at h
      · simp only [Except.ok.injEq, Prod.mk.injEq] at h
        simp [h.2]
      · split at h
        · simp at h
        · rename_i ha
          simp only [Except.ok.injEq, Prod.mk.injEq] at h
          have := ih (h.2 ▸ ha)
          exact Nat.lt_succ_of_lt this

theorem pseudoName_length_lt {finish : Nat} {items rest : List Lexeme}
    {found : String × Option (List Token)} (h : pseudoName finish items = .ok (found, rest)) :
    rest.length < items.length := by
  unfold pseudoName at h
  split at h
  · simp only [Except.ok.injEq, Prod.mk.injEq] at h
    simp [h.2]
  · split at h
    · simp at h
    · rename_i ha
      simp only [Except.ok.injEq, Prod.mk.injEq] at h
      exact Nat.lt_succ_of_lt (arguments_length_lt (h.2 ▸ ha))
  · simp [unexpected, fail] at h

theorem pseudo_length_lt {finish : Nat} {items rest : List Lexeme} {simple : Simple}
    (h : pseudo finish items = .ok (simple, rest)) : rest.length < items.length := by
  unfold pseudo at h
  split at h
  · split at h
    · simp at h
    · rename_i hn
      simp only [Except.ok.injEq, Prod.mk.injEq] at h
      exact Nat.lt_succ_of_lt (pseudoName_length_lt (h.2 ▸ hn))
  · split at h
    · simp at h
    · rename_i hn
      simp only [Except.ok.injEq, Prod.mk.injEq] at h
      exact pseudoName_length_lt (h.2 ▸ hn)

theorem className_length_lt {finish : Nat} {items rest : List Lexeme} {simple : Simple}
    (h : className finish items = .ok (simple, rest)) : rest.length < items.length := by
  unfold className at h
  split at h
  · simp only [Except.ok.injEq, Prod.mk.injEq] at h
    simp [h.2]
  · simp [unexpected, fail] at h

theorem simple_length_lt {finish : Nat} {items rest : List Lexeme} {simple : Simple}
    (h : simple? finish items = .ok (some (simple, rest))) : rest.length < items.length := by
  have map_some {x : Except SyntaxError (Simple × List Lexeme)}
      (hx : x.map some = .ok (some (simple, rest))) : x = .ok (simple, rest) := by
    cases x <;> simp_all [Except.map]
  unfold simple? at h
  split at h
  · simp only [Except.ok.injEq, Option.some.injEq, Prod.mk.injEq] at h
    simp [h.2]
  · exact Nat.lt_succ_of_lt (className_length_lt (map_some h))
  · exact Nat.lt_succ_of_lt (attributeTest_length_lt (map_some h))
  · exact Nat.lt_succ_of_lt (pseudo_length_lt (map_some h))
  all_goals simp [fail] at h

theorem leading_length_le {finish : Nat} {items rest : List Lexeme} {simple : Option Simple}
    (h : leading finish items = .ok (simple, rest)) : rest.length ≤ items.length := by
  unfold leading at h
  split at h
  · simp only [Except.ok.injEq, Prod.mk.injEq] at h
    simp [← h.2]
  · split at h
    · simp only [Except.ok.injEq, Prod.mk.injEq] at h
      simp [← h.2]
    · split at h
      · simp [fail] at h
      · simp only [Except.ok.injEq, Prod.mk.injEq] at h
        simp [h.2]

def simples (finish : Nat) (total : Specificity) (items : List Lexeme) :
    Except SyntaxError ((List Simple × Specificity) × List Lexeme) :=
  match _h : simple? finish items with
  | .error e => .error e
  | .ok none => .ok (([], total), items)
  | .ok (some (simple, rest)) =>
      match simples finish (total + .ofSimple simple) rest with
      | .error e => .error e
      | .ok ((found, total'), rest') => .ok ((simple :: found, total'), rest')
termination_by items.length
decreasing_by exact simple_length_lt _h

theorem simples_length_le {finish : Nat} {total : Specificity} {items rest : List Lexeme}
    {found : List Simple × Specificity} (h : simples finish total items = .ok (found, rest)) :
    rest.length ≤ items.length := by
  fun_induction simples finish total items generalizing found with
  | case1 => simp at h
  | case2 =>
      simp only [Except.ok.injEq, Prod.mk.injEq] at h
      simp [h.2]
  | case3 => simp at h
  | case4 total items simple rest' hs found' total' rest'' hr ih =>
      simp only [Except.ok.injEq, Prod.mk.injEq] at h
      have := simple_length_lt hs
      have := ih (h.2 ▸ hr)
      omega

def compound (finish : Nat) (total : Specificity) (items : List Lexeme) :
    Except SyntaxError ((Compound × Specificity) × List Lexeme) :=
  match leading finish items with
  | .error e => .error e
  | .ok (first, rest) =>
      match simples finish (first.elim total (total + .ofSimple ·)) rest with
      | .error e => .error e
      | .ok ((others, total'), rest') =>
          match first.toList ++ others with
          | [] => unexpected finish rest'
          | all => .ok ((⟨all⟩, total'), rest')

theorem compound_length_le {finish : Nat} {total : Specificity} {items rest : List Lexeme}
    {found : Compound × Specificity} (h : compound finish total items = .ok (found, rest)) :
    rest.length ≤ items.length := by
  unfold compound at h
  split at h
  · simp at h
  · rename_i hl
    split at h
    · simp at h
    · rename_i hs
      have h1 := leading_length_le hl
      have h2 := simples_length_le hs
      split at h
      · simp [unexpected, fail] at h
      · simp only [Except.ok.injEq, Prod.mk.injEq] at h
        rw [← h.2]
        omega

def endsMember : List Lexeme → Bool
  | [] => true
  | lexeme :: _ => match lexeme.token with
      | .comma => true
      | _ => false

def steps (finish : Nat) (total : Specificity) (items : List Lexeme) :
    Except SyntaxError (Complex × List Lexeme) :=
  match _h : compound finish total items with
  | .error e => .error e
  | .ok ((first, total'), ⟨.combinator combinator, position⟩ :: rest) =>
      if endsMember rest then
        fail finish .danglingCombinator (⟨.combinator combinator, position⟩ :: rest)
      else
        match steps finish total' rest with
        | .error e => .error e
        | .ok (complex, rest') =>
            .ok ({ complex with ancestors := ⟨first, combinator⟩ :: complex.ancestors }, rest')
  | .ok ((subject, total'), rest) => .ok (⟨[], subject, total'⟩, rest)
termination_by items.length
decreasing_by exact compound_length_le _h

theorem steps_length_le {finish : Nat} {total : Specificity} {items rest : List Lexeme}
    {found : Complex} (h : steps finish total items = .ok (found, rest)) :
    rest.length ≤ items.length := by
  fun_induction steps finish total items generalizing found with
  | case1 => simp at h
  | case2 => simp [fail] at h
  | case3 => simp at h
  | case4 total items first total' combinator position rest' hc _ complex rest'' hr ih =>
      simp only [Except.ok.injEq, Prod.mk.injEq] at h
      have h1 := compound_length_le hc
      have h2 := ih (h.2 ▸ hr)
      simp only [List.length_cons] at h1
      omega
  | case5 _ _ _ _ _ _ hc =>
      simp only [Except.ok.injEq, Prod.mk.injEq] at h
      exact compound_length_le (h.2 ▸ hc)

def complex (finish : Nat) (items : List Lexeme) : Except SyntaxError (Complex × List Lexeme) :=
  if endsMember items then fail finish .emptySelector items
  else steps finish .zero items

theorem complex_length_le {finish : Nat} {items rest : List Lexeme} {found : Complex}
    (h : complex finish items = .ok (found, rest)) : rest.length ≤ items.length := by
  unfold complex at h
  split at h
  · simp [fail] at h
  · exact steps_length_le h

def members (finish : Nat) (items : List Lexeme) : Except SyntaxError (List Complex) :=
  match _h : complex finish items with
  | .error e => .error e
  | .ok (first, []) => .ok [first]
  | .ok (first, ⟨.comma, _⟩ :: rest) =>
      match members finish rest with
      | .error e => .error e
      | .ok others => .ok (first :: others)
  | .ok (_, rest) => fail finish .unexpectedToken rest
termination_by items.length
decreasing_by exact complex_length_le _h

end Grammar

namespace SelectorList

def ofTokens (tokens : List Token) : Except SyntaxError SelectorList :=
  match Cursor.prepare tokens with
  | .error e => .error e
  | .ok lexemes => (Grammar.members lexemes.finish lexemes.items).map SelectorList.mk

def ofText (text : String) : Except SyntaxError SelectorList :=
  ofTokens (Token.listOfText text)

end SelectorList

namespace Complex

def ofTokens (tokens : List Token) : Except SyntaxError Complex :=
  match Cursor.prepare tokens with
  | .error e => .error e
  | .ok lexemes =>
      match Grammar.complex lexemes.finish lexemes.items with
      | .error e => .error e
      | .ok (complex, []) => .ok complex
      | .ok (_, rest) => Grammar.fail lexemes.finish .unexpectedToken rest

def ofText (text : String) : Except SyntaxError Complex :=
  ofTokens (Token.listOfText text)

end Complex

end CssStyling

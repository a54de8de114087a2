import CssStyling.Number.Reader
import CssStyling.Text.Ascii
import CssStyling.Token

namespace CssStyling

namespace Lexer

def isNameStart (c : Char) : Bool :=
  c.isAlpha || c == '_' || 128 ≤ c.toNat

def isNameChar (c : Char) : Bool :=
  isNameStart c || c.isDigit || c == '-'

def startsEscape : List Char → Bool
  | '\\' :: c :: _ => c != '\n'
  | _ => false

def startsIdent : List Char → Bool
  | '-' :: c :: cs => isNameStart c || c == '-' || startsEscape (c :: cs)
  | c :: cs => isNameStart c || startsEscape (c :: cs)
  | [] => false

def startsDigits : List Char → Bool
  | '.' :: c :: _ => c.isDigit
  | c :: _ => c.isDigit
  | [] => false

def startsNumber (cs : List Char) : Bool :=
  startsDigits (NumberText.sign cs).2.2

def hexValue? (c : Char) : Option Nat :=
  if c.isDigit then some (c.toNat - '0'.toNat)
  else if 'a' ≤ c ∧ c ≤ 'f' then some (c.toNat - 'a'.toNat + 10)
  else if 'A' ≤ c ∧ c ≤ 'F' then some (c.toNat - 'A'.toNat + 10)
  else none

def hexDigits : Nat → Nat → List Char → Nat × List Char
  | limit + 1, n, c :: cs =>
      match hexValue? c with
      | some d => hexDigits limit (16 * n + d) cs
      | none => (n, c :: cs)
  | _, n, cs => (n, cs)

def replacement : Char := '\uFFFD'

def charOfCode (n : Nat) : Char :=
  if n = 0 then replacement
  else if n.isValidChar then Char.ofNat n
  else replacement

def dropSpace : List Char → List Char
  | c :: cs => if Ascii.isSpace c then cs else c :: cs
  | [] => []

def escaped : List Char → Char × List Char
  | [] => (replacement, [])
  | c :: cs =>
      match hexValue? c with
      | some d =>
          let (code, rest) := hexDigits 5 d cs
          (charOfCode code, dropSpace rest)
      | none => (c, cs)

theorem hexDigits_length_le (limit n : Nat) (cs : List Char) :
    (hexDigits limit n cs).2.length ≤ cs.length := by
  fun_induction hexDigits limit n cs with
  | case1 => simp only [List.length_cons]; omega
  | case2 => simp
  | case3 => simp

theorem dropSpace_length_le (cs : List Char) : (dropSpace cs).length ≤ cs.length := by
  cases cs with
  | nil => simp [dropSpace]
  | cons c cs => simp only [dropSpace]; split <;> simp

theorem escaped_length_le (cs : List Char) : (escaped cs).2.length ≤ cs.length - 1 := by
  cases cs with
  | nil => simp [escaped]
  | cons c cs =>
      simp only [escaped]
      split
      · rename_i d _
        have h := hexDigits_length_le 5 d cs
        have h' := dropSpace_length_le (hexDigits 5 d cs).2
        simp only [List.length_cons, Nat.add_sub_cancel]
        exact Nat.le_trans h' h
      · simp

def name : List Char → List Char × List Char
  | [] => ([], [])
  | c :: cs =>
      if isNameChar c then
        let (letters, rest) := name cs
        (c :: letters, rest)
      else if startsEscape (c :: cs) then
        let (letters, rest) := name (escaped cs).2
        ((escaped cs).1 :: letters, rest)
      else ([], c :: cs)
termination_by cs => cs.length
decreasing_by
  · simp
  · have := escaped_length_le cs
    simp only [List.length_cons]
    omega

theorem name_length_le (cs : List Char) : (name cs).2.length ≤ cs.length := by
  fun_induction name cs with
  | case1 => simp
  | case2 c cs _ letters rest h ih =>
      rw [h] at ih
      simp only [List.length_cons] at ih ⊢
      omega
  | case3 c cs _ _ letters rest h ih =>
      rw [h] at ih
      have := escaped_length_le cs
      simp only [List.length_cons] at ih ⊢
      omega
  | case4 => simp

def stringBody (quote : Char) : List Char → List Char × List Char
  | [] => ([], [])
  | c :: cs =>
      if c = quote ∨ c = '\n' then ([], cs)
      else if c = '\\' then
        match cs with
        | [] => ([], [])
        | '\n' :: rest => stringBody quote rest
        | d :: rest =>
            let (letters, rest') := stringBody quote (escaped (d :: rest)).2
            ((escaped (d :: rest)).1 :: letters, rest')
      else
        let (letters, rest) := stringBody quote cs
        (c :: letters, rest)
termination_by cs => cs.length
decreasing_by
  · simp only [List.length_cons]; omega
  · have := escaped_length_le (d :: rest)
    simp only [List.length_cons] at this ⊢
    omega
  · simp

theorem stringBody_length_le (quote : Char) (cs : List Char) :
    (stringBody quote cs).2.length ≤ cs.length := by
  fun_induction stringBody quote cs with
  | case1 => simp
  | case2 => simp
  | case3 => simp
  | case4 _ _ ih => simp only [List.length_cons]; omega
  | case5 d rest _ letters rest' h _ ih =>
      rw [h] at ih
      have := escaped_length_le (d :: rest)
      simp only [List.length_cons] at this ih ⊢
      omega
  | case6 _ _ _ _ letters rest h ih =>
      rw [h] at ih
      simp only [List.length_cons] at ih ⊢
      omega

def afterComment : List Char → List Char
  | '*' :: '/' :: cs => cs
  | _ :: cs => afterComment cs
  | [] => []

theorem afterComment_length_le (cs : List Char) : (afterComment cs).length ≤ cs.length := by
  fun_induction afterComment cs with
  | case1 => simp only [List.length_cons]; omega
  | case2 => simp only [List.length_cons]; omega
  | case3 => simp

def skipComments : List Char → List Char
  | '/' :: '*' :: cs => skipComments (afterComment cs)
  | cs => cs
termination_by cs => cs.length
decreasing_by
  have := afterComment_length_le cs
  simp only [List.length_cons]
  omega

theorem skipComments_length_le (cs : List Char) : (skipComments cs).length ≤ cs.length := by
  fun_induction skipComments cs with
  | case1 cs ih =>
      have := afterComment_length_le cs
      simp only [List.length_cons]
      omega
  | case2 => simp

def fraction : List Char → List Char × List Char
  | '.' :: c :: cs => if c.isDigit then NumberText.digits (c :: cs) else ([], '.' :: c :: cs)
  | cs => ([], cs)

def number (cs : List Char) : Float × Bool × List Char :=
  let (negative, _, unsigned) := NumberText.sign cs
  let (whole, afterWhole) := NumberText.digits unsigned
  let (fraction, afterFraction) := fraction afterWhole
  match NumberText.exponent? afterFraction with
  | some (exponent, rest) =>
      (NumberText.Written.toFloat ⟨negative, whole, fraction, exponent⟩, false, rest)
  | none =>
      (NumberText.Written.toFloat ⟨negative, whole, fraction, 0⟩, fraction.isEmpty, afterFraction)

def numeric (cs : List Char) : Token × List Char :=
  let (value, isInteger, rest) := number cs
  if startsIdent rest then
    let (unit, rest') := name rest
    (.dimension value (String.ofList unit), rest')
  else match rest with
    | '%' :: rest' => (.percentage value, rest')
    | _ => (.number value isInteger (NumberText.sign cs).2.1, rest)

def identLike (cs : List Char) : Token × List Char :=
  match name cs with
  | (letters, '(' :: rest) => (.function (String.ofList letters), rest)
  | (letters, rest) => (.ident (String.ofList letters), rest)

def hash (cs : List Char) : Token × List Char :=
  if cs.head?.any isNameChar || startsEscape cs then
    let (letters, rest) := name cs
    (.hash (String.ofList letters) (startsIdent cs), rest)
  else (.delim '#', cs)

def symbol? : List Char → Option (Token × List Char)
  | ':' :: cs => some (.colon, cs)
  | ',' :: cs => some (.comma, cs)
  | '[' :: cs => some (.openBracket, cs)
  | ']' :: cs => some (.closeBracket, cs)
  | '(' :: cs => some (.openParen, cs)
  | ')' :: cs => some (.closeParen, cs)
  | '~' :: '=' :: cs => some (.includeMatch, cs)
  | '^' :: '=' :: cs => some (.startMatch, cs)
  | '$' :: '=' :: cs => some (.endMatch, cs)
  | '*' :: '=' :: cs => some (.substringMatch, cs)
  | '|' :: '=' :: cs => some (.dashMatch, cs)
  | '|' :: '|' :: cs => some (.column, cs)
  | _ => none

def tokenAt (c : Char) (cs : List Char) : Token × List Char :=
  if Ascii.isSpace c then (.whitespace, cs.dropWhile Ascii.isSpace)
  else if c = '"' ∨ c = '\'' then
    let (letters, rest) := stringBody c cs
    (.string (String.ofList letters), rest)
  else if c = '#' then hash cs
  else if startsNumber (c :: cs) then numeric (c :: cs)
  else if startsIdent (c :: cs) then identLike (c :: cs)
  else match symbol? (c :: cs) with
    | some found => found
    | none => (.delim c, cs)

def next (cs : List Char) : Token × List Char :=
  match skipComments cs with
  | [] => (.eof, [])
  | c :: rest => tokenAt c rest

theorem dropWhile_length_le {α : Type} (p : α → Bool) (xs : List α) :
    (xs.dropWhile p).length ≤ xs.length :=
  (List.dropWhile_suffix p).length_le

theorem sign_length_le (cs : List Char) : (NumberText.sign cs).2.2.length ≤ cs.length := by
  unfold NumberText.sign
  split <;> simp

theorem digits_length_lt {c : Char} (h : c.isDigit) (cs : List Char) :
    (NumberText.digits (c :: cs)).2.length < (c :: cs).length := by
  have := dropWhile_length_le Char.isDigit cs
  simp only [NumberText.digits, List.dropWhile_cons, h, if_true, List.length_cons]
  omega

theorem fraction_length_le (cs : List Char) : (fraction cs).2.length ≤ cs.length := by
  unfold fraction
  split
  · split
    · rename_i h
      have := digits_length_lt h
      simp only [List.length_cons] at this ⊢
      exact Nat.le_of_lt (Nat.lt_succ_of_lt (this _))
    · simp
  · simp

theorem fraction_length_lt {c : Char} (h : c.isDigit) (cs : List Char) :
    (fraction ('.' :: c :: cs)).2.length < ('.' :: c :: cs).length := by
  have := digits_length_lt h cs
  simp only [fraction, h, if_true, List.length_cons] at this ⊢
  omega

theorem exponent_length_lt {cs rest : List Char} {e : Int}
    (h : NumberText.exponent? cs = some (e, rest)) : rest.length < cs.length := by
  cases cs with
  | nil => simp [NumberText.exponent?] at h
  | cons c cs =>
      simp only [NumberText.exponent?] at h
      split at h
      · split at h
        · simp at h
        · rename_i ds rest' _ hd
          have hs := sign_length_le cs
          have hw := dropWhile_length_le Char.isDigit (NumberText.sign cs).2.2
          simp only [NumberText.digits, Prod.mk.injEq] at hd
          simp only [Option.some.injEq, Prod.mk.injEq] at h
          rw [← h.2, ← hd.2, List.length_cons]
          exact Nat.lt_succ_of_le (Nat.le_trans hw hs)
      · simp at h

theorem decimal_length_lt {cs : List Char} (h : startsDigits cs) :
    (fraction (NumberText.digits cs).2).2.length < cs.length := by
  unfold startsDigits at h
  split at h
  · rename_i c cs
    have : (NumberText.digits ('.' :: c :: cs)).2 = '.' :: c :: cs := by
      simp [NumberText.digits, show Char.isDigit '.' = false from rfl]
    rw [this]
    exact fraction_length_lt h cs
  · exact Nat.lt_of_le_of_lt (fraction_length_le _) (digits_length_lt h _)
  · simp at h

theorem number_length_lt {cs : List Char} (h : startsNumber cs) :
    (number cs).2.2.length < cs.length := by
  have hd := Nat.lt_of_lt_of_le (decimal_length_lt h) (sign_length_le cs)
  simp only [number]
  split
  · rename_i he
    exact Nat.lt_trans (exponent_length_lt he) hd
  · exact hd

theorem numeric_length_lt {cs : List Char} (h : startsNumber cs) :
    (numeric cs).2.length < cs.length := by
  have hn := number_length_lt h
  simp only [numeric]
  split
  · exact Nat.lt_of_le_of_lt (name_length_le _) hn
  · split
    · rename_i hr
      simp only [hr, List.length_cons] at hn
      exact Nat.lt_of_succ_lt hn
    · exact hn

theorem name_length_lt {cs : List Char} (h : startsIdent cs) :
    (name cs).2.length < cs.length := by
  cases cs with
  | nil => simp [startsIdent] at h
  | cons c cs =>
      rw [name]
      split
      · exact Nat.lt_succ_of_le (name_length_le cs)
      · rename_i hc
        split
        · have := escaped_length_le cs
          have := name_length_le (escaped cs).2
          simp only [List.length_cons]
          omega
        · rename_i he
          exfalso
          unfold startsIdent at h
          split at h
          · rename_i heq
            simp only [List.cons.injEq] at heq
            exact hc (by rw [heq.1]; rfl)
          · rename_i heq
            simp only [List.cons.injEq] at heq
            simp only [heq.1, heq.2] at hc he
            simp only [isNameChar, Bool.or_eq_true, not_or] at hc
            simp [hc.1.1, he] at h
          · simp at h

theorem identLike_length_lt {cs : List Char} (h : startsIdent cs) :
    (identLike cs).2.length < cs.length := by
  have hn := name_length_lt h
  unfold identLike
  split
  · rename_i hr
    simp only [hr, List.length_cons] at hn
    exact Nat.lt_of_succ_lt hn
  · rename_i hr
    simpa only [hr] using hn

theorem hash_length_le (cs : List Char) : (hash cs).2.length ≤ cs.length := by
  unfold hash
  split
  · exact name_length_le cs
  · exact Nat.le_refl _

theorem symbol_length_lt {cs rest : List Char} {t : Token}
    (h : symbol? cs = some (t, rest)) : rest.length < cs.length := by
  unfold symbol? at h
  split at h <;>
    first
    | (simp only [Option.some.injEq, Prod.mk.injEq] at h
       rw [← h.2]
       simp only [List.length_cons]
       omega)
    | simp at h

theorem tokenAt_length_le (c : Char) (cs : List Char) : (tokenAt c cs).2.length ≤ cs.length := by
  simp only [tokenAt]
  split
  · exact dropWhile_length_le _ _
  · split
    · exact stringBody_length_le _ _
    · split
      · exact hash_length_le _
      · split
        · rename_i h
          exact Nat.le_of_lt_succ (numeric_length_lt h)
        · split
          · rename_i h
            exact Nat.le_of_lt_succ (identLike_length_lt h)
          · split
            · rename_i h
              exact Nat.le_of_lt_succ (symbol_length_lt h)
            · exact Nat.le_refl _

theorem next_length_lt {cs : List Char} (h : (next cs).1.isEof = false) :
    (next cs).2.length < cs.length := by
  unfold next at h ⊢
  have hs := skipComments_length_le cs
  split
  · rename_i hc
    simp [hc, Token.isEof] at h
  · rename_i c rest hc
    have := tokenAt_length_le c rest
    rw [hc, List.length_cons] at hs
    omega

def tokens (cs : List Char) : List Token :=
  if (next cs).1.isEof then [.eof]
  else (next cs).1 :: tokens (next cs).2
termination_by cs.length
decreasing_by
  rename_i h
  exact next_length_lt (Bool.eq_false_iff.2 h)

def firstTokens : Nat → List Char → List Token
  | 0, _ => []
  | n + 1, cs => (next cs).1 :: firstTokens n (next cs).2

end Lexer

namespace Token

def listOfText (text : String) : List Token :=
  Lexer.tokens text.toList

end Token

end CssStyling

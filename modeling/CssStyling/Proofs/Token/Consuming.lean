import CssStyling.Token.Lexer
import CssStyling.Token.Printer

namespace CssStyling

def Token.isLoose : Token → Bool
  | .string _ => true
  | .number _ _ _ => true
  | .percentage _ => true
  | .dimension _ _ => true
  | _ => false

def Token.isSymbol : Token → Bool
  | .colon | .comma | .openBracket | .closeBracket | .openParen | .closeParen => true
  | .includeMatch | .dashMatch | .startMatch | .endMatch | .substringMatch | .column => true
  | _ => false

namespace Lexer

variable {c quote : Char} {cs rest : List Char} {t : Token}

inductive Reads (c : Char) (cs : List Char) : Token × List Char → Prop where
  | space (h : Ascii.isSpace c = true) : Reads c cs (.whitespace, cs.dropWhile Ascii.isSpace)
  | string (h : c = '"' ∨ c = '\'') :
      Reads c cs (.string (String.ofList (stringBody c cs).1), (stringBody c cs).2)
  | hash (h : c = '#') : Reads c cs (hash cs)
  | numeric (h : startsNumber (c :: cs) = true) : Reads c cs (numeric (c :: cs))
  | identLike (h : startsIdent (c :: cs) = true) : Reads c cs (identLike (c :: cs))
  | symbol {found : Token × List Char} (h : symbol? (c :: cs) = some found) : Reads c cs found
  | delim : Reads c cs (.delim c, cs)

theorem reads (c : Char) (cs : List Char) : Reads c cs (tokenAt c cs) := by
  unfold tokenAt
  split
  · rename_i h
    exact .space h
  · split
    · rename_i h
      exact .string h
    · split
      · rename_i h
        exact .hash h
      · split
        · rename_i h
          exact .numeric h
        · split
          · rename_i h
            exact .identLike h
          · split
            · rename_i h
              exact .symbol h
            · exact .delim

inductive Kind (c : Char) (cs : List Char) : Token → List Char → Prop where
  | whitespace (h : Ascii.isSpace c = true) :
      Kind c cs .whitespace (cs.dropWhile Ascii.isSpace)
  | string (h : c = '"' ∨ c = '\'') :
      Kind c cs (.string (String.ofList (stringBody c cs).1)) (stringBody c cs).2
  | hash (h : c = '#') (starts : (cs.head?.any isNameChar || startsEscape cs) = true) :
      Kind c cs (.hash (String.ofList (name cs).1) (startsIdent cs)) (name cs).2
  | number (starts : startsNumber (c :: cs) = true) :
      Kind c cs (.number (number (c :: cs)).1 (number (c :: cs)).2.1
        (NumberText.sign (c :: cs)).2.1) (number (c :: cs)).2.2
  | percentage {rest : List Char} (starts : startsNumber (c :: cs) = true)
      (percent : (number (c :: cs)).2.2 = '%' :: rest) :
      Kind c cs (.percentage (number (c :: cs)).1) rest
  | dimension (starts : startsNumber (c :: cs) = true)
      (unit : startsIdent (number (c :: cs)).2.2 = true) :
      Kind c cs (.dimension (number (c :: cs)).1 (String.ofList (name (number (c :: cs)).2.2).1))
        (name (number (c :: cs)).2.2).2
  | function {rest : List Char} (starts : startsIdent (c :: cs) = true)
      (paren : (name (c :: cs)).2 = '(' :: rest) :
      Kind c cs (.function (String.ofList (name (c :: cs)).1)) rest
  | ident (starts : startsIdent (c :: cs) = true) :
      Kind c cs (.ident (String.ofList (name (c :: cs)).1)) (name (c :: cs)).2
  | symbol {t : Token} {rest : List Char} (found : symbol? (c :: cs) = some (t, rest))
      (symbol : t.isSymbol = true) : Kind c cs t rest
  | delim : Kind c cs (.delim c) cs

theorem isSymbol_of_symbol? (h : symbol? cs = some (t, rest)) : t.isSymbol = true := by
  unfold symbol? at h
  split at h <;> cases h <;> rfl

theorem kind_numeric (starts : startsNumber (c :: cs) = true) :
    Kind c cs (numeric (c :: cs)).1 (numeric (c :: cs)).2 := by
  simp only [numeric]
  split
  · rename_i unit
    exact .dimension starts unit
  · split
    · rename_i percent
      exact .percentage starts percent
    · exact .number starts

theorem kind_identLike (starts : startsIdent (c :: cs) = true) :
    Kind c cs (identLike (c :: cs)).1 (identLike (c :: cs)).2 := by
  have function {letters rest : List Char} (hn : name (c :: cs) = (letters, '(' :: rest)) :
      Kind c cs (.function (String.ofList letters)) rest := by
    have kind : Kind c cs _ rest := .function starts (congrArg Prod.snd hn)
    rwa [hn] at kind
  have ident : Kind c cs _ _ := .ident starts
  unfold identLike
  split
  · rename_i hn
    exact function hn
  · rename_i hn
    rwa [hn] at ident

theorem kind_hash (h : c = '#') : Kind c cs (hash cs).1 (hash cs).2 := by
  unfold hash
  split
  · rename_i starts
    exact .hash h starts
  · subst c
    exact .delim

theorem Reads.kind {found : Token × List Char} (h : Reads c cs found) :
    Kind c cs found.1 found.2 := by
  cases h with
  | space h => exact .whitespace h
  | string h => exact .string h
  | hash h => exact kind_hash h
  | numeric h => exact kind_numeric h
  | identLike h => exact kind_identLike h
  | symbol h => exact .symbol h (isSymbol_of_symbol? h)
  | delim => exact .delim

theorem kind (h : tokenAt c cs = (t, rest)) : Kind c cs t rest := by
  have kind := (reads c cs).kind
  rwa [h] at kind

theorem ident_of_kind {n : String} (h : Kind c cs (.ident n) rest) :
    startsIdent (c :: cs) = true ∧ name (c :: cs) = (n.toList, rest) := by
  cases h with
  | ident starts => exact ⟨starts, Prod.ext String.toList_ofList.symm rfl⟩
  | symbol _ symbol => cases symbol

theorem string_of_kind {v : String} (h : Kind c cs (.string v) rest) :
    (c = '"' ∨ c = '\'') ∧ stringBody c cs = (v.toList, rest) := by
  cases h with
  | string quote => exact ⟨quote, Prod.ext String.toList_ofList.symm rfl⟩
  | symbol _ symbol => cases symbol

theorem function_of_kind {n : String} (h : Kind c cs (.function n) rest) :
    startsIdent (c :: cs) = true ∧ name (c :: cs) = (n.toList, '(' :: rest) := by
  cases h with
  | function starts paren => exact ⟨starts, Prod.ext String.toList_ofList.symm paren⟩
  | symbol _ symbol => cases symbol

theorem hash_of_kind {value : String} {isId : Bool} (h : Kind c cs (.hash value isId) rest) :
    c = '#' ∧ (cs.head?.any isNameChar || startsEscape cs) = true ∧
      name cs = (value.toList, rest) ∧ isId = startsIdent cs := by
  cases h with
  | hash hc starts => exact ⟨hc, starts, Prod.ext String.toList_ofList.symm rfl, rfl⟩
  | symbol _ symbol => cases symbol

theorem number_of_kind {v : Float} {i s : Bool}
    (h : Kind c cs (.number v i s) rest) :
    startsNumber (c :: cs) = true ∧ number (c :: cs) = (v, i, rest) ∧
      s = (NumberText.sign (c :: cs)).2.1 := by
  cases h with
  | number starts => exact ⟨starts, rfl, rfl⟩
  | symbol _ symbol => cases symbol

theorem dimension_of_kind {v : Float} {unit : String}
    (h : Kind c cs (.dimension v unit) rest) :
    startsNumber (c :: cs) = true ∧ (number (c :: cs)).1 = v ∧
      startsIdent (number (c :: cs)).2.2 = true ∧
      name (number (c :: cs)).2.2 = (unit.toList, rest) := by
  cases h with
  | dimension starts hu => exact ⟨starts, rfl, hu, Prod.ext String.toList_ofList.symm rfl⟩
  | symbol _ symbol => cases symbol

theorem Kind.isComposite (h : Kind c cs t rest) : t.isComposite = false := by
  cases h with
  | symbol _ symbol => cases t <;> first | rfl | cases symbol
  | _ => rfl

theorem isComposite_next : (next cs).1.isComposite = false := by
  unfold next
  split
  · rfl
  · exact (reads _ _).kind.isComposite

theorem isComposite_of_mem_tokens (h : t ∈ tokens cs) : t.isComposite = false := by
  fun_induction tokens cs with
  | case1 => rw [List.mem_singleton.mp h]; rfl
  | case2 cs _ ih =>
      rcases List.mem_cons.mp h with rfl | h
      · exact isComposite_next
      · exact ih h

theorem afterComment_suffix (cs : List Char) : afterComment cs <:+ cs := by
  fun_induction afterComment cs with
  | case1 cs => exact ⟨['*', '/'], rfl⟩
  | case2 c cs _ ih => exact ih.trans (List.suffix_cons c cs)
  | case3 => exact List.suffix_rfl

theorem skipComments_suffix (cs : List Char) : skipComments cs <:+ cs := by
  fun_induction skipComments cs with
  | case1 cs ih =>
      exact (ih.trans (afterComment_suffix cs)).trans ⟨['/', '*'], rfl⟩
  | case2 => exact List.suffix_rfl

theorem length_pos_of_startsEscape (h : startsEscape (c :: cs) = true) : 0 < cs.length := by
  cases cs with
  | nil => simp [startsEscape] at h
  | cons => simp

theorem length_name_le (cs : List Char) : (name cs).1.length + (name cs).2.length ≤ cs.length := by
  fun_induction name cs with
  | case1 => simp
  | case2 c cs _ letters rest h ih =>
      rw [h] at ih
      simp only [List.length_cons] at ih ⊢
      omega
  | case3 c cs _ he letters rest h ih =>
      rw [h] at ih
      have hle := escaped_length_le cs
      have hpos := length_pos_of_startsEscape he
      simp only [List.length_cons] at ih ⊢
      omega
  | case4 => simp

theorem isNameChar_of_length_name (h : (name cs).1.length + (name cs).2.length = cs.length)
    (hc : c ∈ (name cs).1) : isNameChar c = true := by
  fun_induction name cs with
  | case1 => simp at hc
  | case2 d cs hd letters rest hn ih =>
      rw [hn] at ih
      simp only [List.length_cons] at ih h
      rcases List.mem_cons.mp hc with rfl | hc
      · exact hd
      · exact ih (by omega) hc
  | case3 d cs _ he letters rest hn ih =>
      have hle := length_name_le (escaped cs).2
      have hle' := escaped_length_le cs
      have hpos := length_pos_of_startsEscape he
      rw [hn] at hle
      simp only [List.length_cons] at h hle
      omega
  | case4 => simp at hc

theorem name_append_of_length (h : (name cs).1.length + (name cs).2.length = cs.length) :
    (name cs).1 ++ (name cs).2 = cs := by
  fun_induction name cs with
  | case1 => rfl
  | case2 c cs _ letters rest hn ih =>
      rw [hn] at ih
      simp only [List.length_cons] at h
      rw [List.cons_append, ih (by simp only; omega)]
  | case3 c cs _ he letters rest hn ih =>
      have hle := length_name_le (escaped cs).2
      have hle' := escaped_length_le cs
      have hpos := length_pos_of_startsEscape he
      rw [hn] at hle
      simp only [List.length_cons] at h hle
      omega
  | case4 => rfl

theorem length_hash_le (cs : List Char) :
    (hash cs).1.chars.length + (hash cs).2.length ≤ cs.length + 1 := by
  have hle := length_name_le cs
  unfold hash
  split
  · simp only [Token.chars, String.toList_ofList, List.length_cons]
    omega
  · simp only [Token.chars, List.length_singleton]
    omega

theorem length_identLike_le (cs : List Char) :
    (identLike cs).1.chars.length + (identLike cs).2.length ≤ cs.length := by
  have hle := length_name_le cs
  unfold identLike
  split
  · rename_i letters rest h
    rw [h] at hle
    simp only [Token.chars, String.toList_ofList, List.length_append, List.length_cons,
      List.length_nil] at hle ⊢
    omega
  · rename_i letters rest h
    rw [h] at hle
    simp only [Token.chars, String.toList_ofList]
    exact hle

theorem length_symbol_le (h : symbol? cs = some (t, rest)) :
    t.chars.length + rest.length ≤ cs.length := by
  unfold symbol? at h
  split at h <;> cases h <;> simp only [Token.chars, List.length_cons, List.length_nil] <;> omega

theorem isLoose_numeric (cs : List Char) : (numeric cs).1.isLoose = true := by
  simp only [numeric]
  split
  · rfl
  · split <;> rfl

theorem length_tokenAt_le (h : (tokenAt c cs).1.isLoose = false) :
    (tokenAt c cs).1.chars.length + (tokenAt c cs).2.length ≤ cs.length + 1 := by
  have hr := reads c cs
  generalize tokenAt c cs = found at h hr ⊢
  cases hr with
  | space hs =>
      have hle := dropWhile_length_le Ascii.isSpace cs
      simp only [Token.chars, List.length_singleton]
      omega
  | string => cases h
  | hash => exact length_hash_le cs
  | numeric =>
      rw [isLoose_numeric] at h
      cases h
  | identLike => exact length_identLike_le (c :: cs)
  | symbol hs => exact length_symbol_le hs
  | delim =>
      simp only [Token.chars, List.length_singleton]
      omega

theorem length_next_le (h : (next cs).1.isLoose = false) :
    (next cs).1.chars.length + (next cs).2.length ≤ cs.length := by
  have hle := (skipComments_suffix cs).length_le
  unfold next at h ⊢
  split
  · simp [Token.chars]
  · rename_i c rest hs
    simp only [hs] at h
    rw [hs, List.length_cons] at hle
    exact Nat.le_trans (length_tokenAt_le h) hle

end Lexer

end CssStyling

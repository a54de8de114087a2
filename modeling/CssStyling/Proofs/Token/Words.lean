import CssStyling.Proofs.Token.Consuming
import Mathlib

namespace CssStyling.Lexer

variable {c quote : Char} {cs rest s z : List Char} {t : Token}

def words (cs : List Char) : List Token :=
  (tokens cs).takeWhile fun t => !t.isEof

theorem words_of_next (h : next cs = (t, rest)) (ht : t.isEof = false) :
    words cs = t :: words rest := by
  rw [words, tokens, h]
  simp [ht, words]

theorem words_cons (h : (next cs).1.isEof = false) : words cs = (next cs).1 :: words (next cs).2 :=
  words_of_next rfl h

theorem words_of_end (h : (next cs).1.isEof = true) : words cs = [] := by
  rw [words, tokens, if_pos h]
  rfl

theorem next_nil : next [] = (.eof, []) := by
  rw [next, skipComments]
  intro _ h
  cases h

theorem words_nil : words [] = [] :=
  words_of_end (congrArg (·.1.isEof) next_nil)

theorem tokens_eq (cs : List Char) : tokens cs = words cs ++ [.eof] := by
  fun_induction tokens cs with
  | case1 cs h => rw [words_of_end h, List.nil_append]
  | case2 cs h ih => rw [words_cons (Bool.eq_false_iff.mpr h), ih, List.cons_append]

theorem tokens_of_front (h : next cs = (t, rest)) (ht : t.isEof = false) :
    tokens cs = t :: tokens rest := by
  rw [tokens_eq, words_of_next h ht, List.cons_append, ← tokens_eq]

theorem tokens_none : tokens [] = [.eof] := by
  rw [tokens_eq, words_nil, List.nil_append]

theorem tokens_of_next (h : next cs = (t, [])) (ht : t.isEof = false) :
    tokens cs = [t, .eof] := by
  rw [tokens_of_front h ht, tokens_none]

theorem next_of_tokens {ts : List Token} (h : tokens cs = t :: ts) (ht : t.isEof = false) :
    (next cs).1 = t := by
  rw [tokens] at h
  split at h
  · rw [← (List.cons.inj h).1] at ht
    cases ht
  · exact (List.cons.inj h).1

theorem exists_front (h : (next cs).1.isEof = false) :
    ∃ c ds, skipComments cs = c :: ds ∧ next cs = tokenAt c ds := by
  cases hs : skipComments cs with
  | nil =>
      rw [next, hs] at h
      cases h
  | cons c ds => exact ⟨c, ds, rfl, by rw [next, hs]⟩

theorem whole_of_next (h : (next t.chars).1 = t) (loose : t.isLoose = false)
    (ht : t.isEof = false) : ∃ c ds, t.chars = c :: ds ∧ tokenAt c ds = (t, []) := by
  obtain ⟨c, ds, hs, read⟩ := exists_front (by rw [h]; exact ht)
  have suffix := skipComments_suffix t.chars
  rw [read] at h
  rw [hs] at suffix
  have hle := length_tokenAt_le (by rw [h]; exact loose)
  rw [h] at hle
  have whole : c :: ds = t.chars := suffix.eq_of_length_le (by
    rw [List.length_cons]
    omega)
  refine ⟨c, ds, whole.symm, Prod.ext h (List.length_eq_zero_iff.mp ?_)⟩
  rw [← whole, List.length_cons] at hle
  omega

theorem name_ne_nil (h : (cs.head?.any isNameChar || startsEscape cs) = true) :
    (name cs).1 ≠ [] := by
  cases cs with
  | nil => cases h
  | cons c cs =>
      rw [name]
      split
      · exact List.cons_ne_nil _ _
      · rename_i hc
        have escape : startsEscape (c :: cs) = true := by simpa [hc] using h
        rw [if_pos escape]
        exact List.cons_ne_nil _ _

structure Spelled (cs : List Char) : Prop where
  starts : startsIdent cs = true
  letters : ∀ c ∈ cs, isNameChar c = true

def Stops : List Char → Prop
  | [] => True
  | c :: _ => isNameChar c = false ∧ c ≠ '\\'

def Unspaced : List Char → Prop
  | [] => True
  | c :: _ => Ascii.isSpace c = false

theorem name_of_stops (h : Stops rest) : name rest = ([], rest) := by
  cases rest with
  | nil => rw [name]
  | cons c rest =>
      have escape : startsEscape (c :: rest) = false := by
        unfold startsEscape
        split
        · rename_i heq
          exact absurd (List.cons.inj heq).1 h.2
        · rfl
      rw [name]
      simp [h.1, escape]

theorem name_append (h : ∀ c ∈ cs, isNameChar c = true) (hr : Stops rest) :
    name (cs ++ rest) = (cs, rest) := by
  induction cs with
  | nil => exact name_of_stops hr
  | cons c cs ih =>
      have hc := h c List.mem_cons_self
      rw [List.cons_append, name, if_pos hc, ih fun d hd => h d (List.mem_cons_of_mem c hd)]

theorem skipComments_eq (h : ∀ r, cs ≠ '/' :: '*' :: r) : skipComments cs = cs := by
  unfold skipComments
  split
  · exact absurd rfl (h _)
  · rfl

theorem skipComments_cons (h : c ≠ '/') : skipComments (c :: cs) = c :: cs :=
  skipComments_eq fun _ hr => h (List.cons.inj hr).1

theorem next_cons (h : c ≠ '/') : next (c :: cs) = tokenAt c cs := by
  rw [next, skipComments_cons h]

theorem not_isDigit_of_isNameStart (h : isNameStart c = true) : c.isDigit = false := by
  simp only [isNameStart, Char.isAlpha, Char.isUpper, Char.isLower, Bool.or_eq_true,
    Bool.and_eq_true, decide_eq_true_eq, beq_iff_eq, ge_iff_le, UInt32.le_iff_toNat_le] at h
  rw [Bool.eq_false_iff]
  intro hd
  simp only [Char.isDigit, Bool.and_eq_true, decide_eq_true_eq, ge_iff_le,
    UInt32.le_iff_toNat_le] at hd
  rcases h with (h | rfl) | h
  · simp at h hd
    omega
  · exact absurd hd.2 (by decide)
  · simp at hd
    omega

theorem isNameStart_ne {d : Char} (h : isNameStart c = true) (hd : isNameStart d = false) :
    c ≠ d := by
  rintro rfl
  rw [h] at hd
  cases hd

theorem isNameChar_ne {d : Char} (h : isNameChar c = true) (hd : isNameChar d = false) :
    c ≠ d := by
  rintro rfl
  rw [h] at hd
  cases hd

theorem not_isSpace_of_isNameChar (h : isNameChar c = true) : Ascii.isSpace c = false := by
  rw [Bool.eq_false_iff]
  intro hs
  simp only [Ascii.isSpace, Bool.or_eq_true, beq_iff_eq] at hs
  rcases hs with (((rfl | rfl) | rfl) | rfl) | rfl <;> exact absurd h (by decide)

theorem startsEscape_cons (h : c ≠ '\\') : startsEscape (c :: cs) = false := by
  unfold startsEscape
  split
  · rename_i heq
    exact absurd (List.cons.inj heq).1 h
  · rfl

theorem startsIdent_cons (h : c ≠ '-') :
    startsIdent (c :: cs) = (isNameStart c || startsEscape (c :: cs)) := by
  unfold startsIdent
  split
  · rename_i heq
    exact absurd (List.cons.inj heq).1 h
  · rename_i heq
    rw [heq, (List.cons.inj heq).1]
  · rename_i heq
    cases heq

theorem startsDigits_of_isNameStart (h : isNameStart c = true) :
    startsDigits (c :: cs) = false := by
  unfold startsDigits
  split
  · rename_i heq
    exact absurd (List.cons.inj heq).1 (isNameStart_ne h rfl)
  · rename_i heq
    rw [← (List.cons.inj heq).1]
    exact not_isDigit_of_isNameStart h
  · rfl

theorem startsNumber_of_isNameStart (h : isNameStart c = true) :
    startsNumber (c :: cs) = false := by
  have sign : NumberText.sign (c :: cs) = (false, false, c :: cs) := by
    unfold NumberText.sign
    split
    · rename_i heq
      exact absurd (List.cons.inj heq).1 (isNameStart_ne h rfl)
    · rename_i heq
      exact absurd (List.cons.inj heq).1 (isNameStart_ne h rfl)
    · rfl
  rw [startsNumber, sign]
  exact startsDigits_of_isNameStart h

namespace Spelled

theorem cases_cons (h : Spelled cs) : ∃ c ds, cs = c :: ds ∧ isNameChar c = true ∧
    (isNameStart c = true ∨ c = '-' ∧ ∃ d es, ds = d :: es ∧ (isNameStart d = true ∨ d = '-')) := by
  obtain ⟨starts, letters⟩ := h
  have noEscape {ds : List Char} (hd : ∀ d ∈ ds, isNameChar d = true) :
      startsEscape ds = false := by
    cases ds with
    | nil => rfl
    | cons d ds => exact startsEscape_cons (isNameChar_ne (hd d List.mem_cons_self) rfl)
  unfold startsIdent at starts
  split at starts
  · rename_i d ds
    have hd : ∀ e ∈ d :: ds, isNameChar e = true := (List.forall_mem_cons.mp letters).2
    rw [noEscape hd] at starts
    simp only [Bool.or_false, Bool.or_eq_true, beq_iff_eq] at starts
    exact ⟨_, _, rfl, rfl, .inr ⟨rfl, d, ds, rfl, starts⟩⟩
  · rename_i c ds _
    rw [noEscape letters, Bool.or_false] at starts
    exact ⟨c, ds, rfl, letters c List.mem_cons_self, .inl starts⟩
  · cases starts

theorem startsIdent_append (h : Spelled cs) (rest : List Char) :
    startsIdent (cs ++ rest) = true := by
  obtain ⟨c, ds, rfl, -, hc | ⟨rfl, d, es, rfl, hd⟩⟩ := h.cases_cons
  · rw [List.cons_append, startsIdent_cons (isNameStart_ne hc rfl), hc, Bool.true_or]
  · simpa [startsIdent] using .inl hd

theorem startsNumber_append (h : Spelled cs) (rest : List Char) :
    startsNumber (cs ++ rest) = false := by
  obtain ⟨c, ds, rfl, -, hc | ⟨rfl, d, es, rfl, hd | rfl⟩⟩ := h.cases_cons
  · exact startsNumber_of_isNameStart hc
  · exact startsDigits_of_isNameStart hd
  · rfl

theorem name_eq (h : Spelled cs) (hr : Stops rest) : name (cs ++ rest) = (cs, rest) :=
  name_append h.letters hr

theorem next_eq (h : Spelled cs) (rest : List Char) :
    next (cs ++ rest) = identLike (cs ++ rest) := by
  have ident := h.startsIdent_append rest
  have number := h.startsNumber_append rest
  obtain ⟨c, ds, rfl, hc, -⟩ := h.cases_cons
  rw [List.cons_append] at ident number ⊢
  have space := not_isSpace_of_isNameChar hc
  have quote : ¬(c = '"' ∨ c = '\'') := by
    rintro (rfl | rfl) <;> exact absurd hc (by decide)
  rw [next_cons (isNameChar_ne hc rfl), tokenAt, if_neg (by simp [space]), if_neg quote,
    if_neg (isNameChar_ne hc rfl), if_neg (by simp [number]), if_pos ident]

theorem next_ident (h : Spelled cs) (hr : Stops rest) (hp : rest.head? ≠ some '(') :
    next (cs ++ rest) = (.ident (String.ofList cs), rest) := by
  rw [h.next_eq, identLike, h.name_eq hr]
  split
  · rename_i heq
    rw [(Prod.mk.inj heq).2] at hp
    exact absurd rfl hp
  · rename_i heq
    obtain ⟨rfl, rfl⟩ := Prod.mk.inj heq
    rfl

theorem next_function (h : Spelled cs) :
    next (cs ++ '(' :: rest) = (.function (String.ofList cs), rest) := by
  have hr : Stops ('(' :: rest) := ⟨rfl, by decide⟩
  rw [h.next_eq, identLike, h.name_eq hr]
  rfl

theorem next_hash (h : Spelled cs) (hr : Stops rest) :
    next ('#' :: (cs ++ rest)) = (.hash (String.ofList cs) true, rest) := by
  have ident := h.startsIdent_append rest
  have head : (cs ++ rest).head?.any isNameChar = true := by
    obtain ⟨c, ds, rfl, hc, -⟩ := h.cases_cons
    exact hc
  have hash : next ('#' :: (cs ++ rest)) = hash (cs ++ rest) := next_cons (by decide)
  rw [hash, Lexer.hash, head, Bool.true_or, if_pos rfl, h.name_eq hr, ident]

theorem next_dot (h : Spelled cs) : next ('.' :: (cs ++ rest)) = (.delim '.', cs ++ rest) := by
  have number : startsNumber ('.' :: (cs ++ rest)) = false := by
    obtain ⟨c, ds, rfl, -, hc | ⟨rfl, d, es, rfl, -⟩⟩ := h.cases_cons
    · exact not_isDigit_of_isNameStart hc
    · rfl
  rw [next_cons (by decide), tokenAt, if_neg (by decide), if_neg (by decide), if_neg (by decide),
    if_neg (by simp [number])]
  rfl

end Spelled

theorem Spelled.unspaced (h : Spelled cs) : Unspaced (cs ++ rest) := by
  obtain ⟨c, ds, rfl, hc, -⟩ := h.cases_cons
  exact not_isSpace_of_isNameChar hc

def Plain (n : String) : Prop :=
  Token.listOfText n = [.ident n, .eof]

theorem spelled_of_name {letters : List Char} (read : name cs = (letters, rest))
    (short : cs.length ≤ letters.length) (starts : startsIdent cs = true) :
    cs = letters ∧ Spelled letters := by
  have hle := length_name_le cs
  rw [read] at hle
  have all : (name cs).1.length + (name cs).2.length = cs.length := by
    rw [read]
    exact Nat.le_antisymm hle (Nat.le_add_right_of_le short)
  have nothing : rest = [] := by
    refine List.length_eq_zero_iff.mp ?_
    dsimp only at hle
    omega
  have whole := name_append_of_length all
  rw [read, nothing, List.append_nil] at whole
  have same : letters = cs := whole
  refine ⟨same.symm, same ▸ starts, fun c hc => isNameChar_of_length_name all ?_⟩
  rwa [read]

theorem spelled_of_ident {n : String} (h : (next (Token.ident n).chars).1 = .ident n) :
    Spelled n.toList := by
  obtain ⟨c, ds, chars, found⟩ := whole_of_next h rfl rfl
  have text : n.toList = c :: ds := chars
  obtain ⟨starts, read⟩ := ident_of_kind (kind found)
  exact (spelled_of_name read (by rw [text]) starts).2

theorem Plain.spelled {n : String} (h : Plain n) : Spelled n.toList :=
  spelled_of_ident (next_of_tokens h rfl)

theorem quotedChar_of_ne (hq : c ≠ '"') (hb : c ≠ '\\') (hn : c ≠ '\n') : quotedChar c = [c] := by
  unfold quotedChar
  split
  · exact absurd rfl hq
  · exact absurd rfl hb
  · exact absurd rfl hn
  · rfl

theorem stringBody_close : stringBody c (c :: cs) = ([], cs) := by
  unfold stringBody
  simp

theorem stringBody_raw (hq : c ≠ quote) (hb : c ≠ '\\') (hn : c ≠ '\n') :
    stringBody quote (c :: cs) = (c :: (stringBody quote cs).1, (stringBody quote cs).2) := by
  rw [stringBody.eq_def]
  simp [hq, hb, hn]

theorem stringBody_escape (hq : quote ≠ '\\') (hc : c ≠ '\n') :
    stringBody quote ('\\' :: c :: cs) = ((escaped (c :: cs)).1 ::
      (stringBody quote (escaped (c :: cs)).2).1, (stringBody quote (escaped (c :: cs)).2).2) := by
  rw [stringBody.eq_def]
  simp [Ne.symm hq]

theorem stringBody_continued (hq : quote ≠ '\\') :
    stringBody quote ('\\' :: '\n' :: cs) = stringBody quote cs := by
  rw [stringBody.eq_def]
  simp [Ne.symm hq]

theorem stringBody_quotedChar (hq : quote ≠ '\\') (hc : c = quote → c = '"') :
    stringBody quote (quotedChar c ++ cs) =
      (c :: (stringBody quote cs).1, (stringBody quote cs).2) := by
  by_cases hd : c = '"'
  · subst c
    exact stringBody_escape hq (by decide)
  · by_cases hb : c = '\\'
    · subst c
      exact stringBody_escape hq (by decide)
    · by_cases hn : c = '\n'
      · subst c
        exact stringBody_escape hq (by decide)
      · rw [quotedChar_of_ne hd hb hn]
        exact stringBody_raw (fun h => hd (hc h)) hb hn

theorem stringBody_quoted : stringBody '"' (s.flatMap quotedChar ++ '"' :: z) = (s, z) := by
  induction s with
  | nil => exact stringBody_close
  | cons c s ih =>
      rw [List.flatMap_cons, List.append_assoc, stringBody_quotedChar (by decide) id, ih]

theorem next_quoted : next (quotedChars s ++ z) = (.string (String.ofList s), z) := by
  have body : quotedChars s ++ z = '"' :: (s.flatMap quotedChar ++ '"' :: z) := by
    simp [quotedChars]
  rw [body, next_cons (by decide), tokenAt, if_neg (by decide), if_pos (.inl rfl),
    stringBody_quoted]

theorem words_colon : words (':' :: cs) = .colon :: words cs :=
  words_of_next (next_cons (by decide)) rfl

theorem words_comma : words (',' :: cs) = .comma :: words cs :=
  words_of_next (next_cons (by decide)) rfl

theorem words_openBracket : words ('[' :: cs) = .openBracket :: words cs :=
  words_of_next (next_cons (by decide)) rfl

theorem words_closeBracket : words (']' :: cs) = .closeBracket :: words cs :=
  words_of_next (next_cons (by decide)) rfl

theorem words_closeParen : words (')' :: cs) = .closeParen :: words cs :=
  words_of_next (next_cons (by decide)) rfl

theorem words_delim (hc : c ≠ '/') (h : tokenAt c cs = (.delim c, cs)) :
    words (c :: cs) = .delim c :: words cs :=
  words_of_next ((next_cons hc).trans h) rfl

theorem words_star (h : cs.head? ≠ some '=') : words ('*' :: cs) = .delim '*' :: words cs := by
  have single : symbol? ('*' :: cs) = none := by
    unfold symbol?
    split <;> simp_all
  refine words_delim (by decide) ?_
  rw [tokenAt, single]
  rfl

theorem words_bar (he : cs.head? ≠ some '=') (hb : cs.head? ≠ some '|') :
    words ('|' :: cs) = .delim '|' :: words cs := by
  have single : symbol? ('|' :: cs) = none := by
    unfold symbol?
    split <;> simp_all
  refine words_delim (by decide) ?_
  rw [tokenAt, single]
  rfl

theorem words_space (h : Unspaced cs) : words (' ' :: cs) = .whitespace :: words cs := by
  have drop : cs.dropWhile Ascii.isSpace = cs := by
    cases cs with
    | nil => rfl
    | cons c cs =>
        have ink : Ascii.isSpace c = false := h
        exact List.dropWhile_cons_of_neg (by simp [ink])
  have next : next (' ' :: cs) = (.whitespace, cs) := by
    rw [next_cons (by decide), tokenAt, if_pos (by decide), drop]
  exact words_of_next next rfl

end CssStyling.Lexer

import CssStyling.Proofs.Number.Integers
import CssStyling.Proofs.Token.Floats
import CssStyling.Proofs.Token.Rereading

namespace CssStyling

namespace Binary

def isFinite : Binary → Bool
  | finite _ _ _ => true
  | _ => false

def isNegativeZero : Binary → Bool
  | finite negative m _ => negative && m == 0
  | _ => false

end Binary

namespace Token

def Faithful : Token → Prop
  | ident name => Lexer.Spelled name.toList
  | function name => Lexer.Spelled name.toList
  | hash value isId => (∀ c ∈ value.toList, Lexer.isNameChar c = true) ∧
      isId = Lexer.startsIdent value.toList
  | number value isInteger signed => (Binary.ofFloat value).isFinite = true ∧
      (isInteger = false → (Binary.ofFloat value).toInt? = none) ∧
      (signed = true → (Binary.ofFloat value).isNegativeZero = false)
  | percentage value => (Binary.ofFloat value).isFinite = true
  | dimension value unit => (Binary.ofFloat value).isFinite = true ∧
      Lexer.Spelled unit.toList ∧ NumberText.exponent? unit.toList = none
  | _ => True

end Token

namespace Lexer

open NumberText Rounding

variable {c : Char} {cs ds rest : List Char} {t : Token} {v x : Float} {i s : Bool}

theorem isFinite_iff : (Binary.ofFloat x).isFinite = true ↔
    ∃ negative m q, Binary.ofFloat x = .finite negative m q := by
  cases Binary.ofFloat x with
  | finite negative m q => exact ⟨fun _ => ⟨negative, m, q, rfl⟩, fun _ => rfl⟩
  | _ => exact ⟨nofun, nofun⟩

theorem found_of_mem_tokens (h : t ∈ tokens cs) (ht : t.isEof = false) :
    ∃ c ds rest, tokenAt c ds = (t, rest) := by
  fun_induction tokens cs with
  | case1 =>
      rw [List.mem_singleton.mp h] at ht
      cases ht
  | case2 cs more ih =>
      rcases List.mem_cons.mp h with rfl | h
      · obtain ⟨c, ds, -, read⟩ := exists_front (Bool.eq_false_iff.mpr more)
        exact ⟨c, ds, _, read.symm⟩
      · exact ih h

theorem startsIdent_of_function (h : startsIdent (cs ++ ['(']) = true)
    (hc : ∀ c ∈ cs, isNameChar c = true) : startsIdent cs = true := by
  cases cs with
  | nil => cases h
  | cons c cs =>
      by_cases dash : c = '-'
      · subst c
        cases cs with
        | nil => cases h
        | cons d cs =>
            have hd := isNameChar_ne (hc d (List.mem_cons_of_mem _ List.mem_cons_self))
              (d := '\\') rfl
            simpa [startsIdent, startsEscape_cons hd] using h
      · have he := isNameChar_ne (hc c List.mem_cons_self) (d := '\\') rfl
        rw [List.cons_append, startsIdent_cons dash, startsEscape_cons he] at h
        rw [startsIdent_cons dash, startsEscape_cons he]
        exact h

theorem spelled_of_function {n : String}
    (h : (next (Token.function n).chars).1 = .function n) : Spelled n.toList := by
  obtain ⟨c, ds, chars, found⟩ := whole_of_next h rfl rfl
  have text : n.toList ++ ['('] = c :: ds := chars
  obtain ⟨starts, read⟩ := function_of_kind (kind found)
  rw [← text] at starts read
  have whole : (name (n.toList ++ ['('])).1.length + (name (n.toList ++ ['('])).2.length =
      (n.toList ++ ['(']).length := by
    simp [read]
  have letters : ∀ c ∈ n.toList, isNameChar c = true := fun c hc =>
    isNameChar_of_length_name whole (by rwa [read])
  exact ⟨startsIdent_of_function starts letters, letters⟩

theorem hash_of_next {value : String} {isId : Bool}
    (h : (next (Token.hash value isId).chars).1 = .hash value isId) :
    (∀ c ∈ value.toList, isNameChar c = true) ∧ isId = startsIdent value.toList := by
  obtain ⟨c, ds, chars, found⟩ := whole_of_next h rfl rfl
  obtain ⟨rfl, rfl⟩ : '#' = c ∧ value.toList = ds := List.cons.inj chars
  obtain ⟨-, -, read, ident⟩ := hash_of_kind (kind found)
  have whole : (name value.toList).1.length + (name value.toList).2.length =
      value.toList.length := by
    rw [read, List.length_nil, Nat.add_zero]
  exact ⟨fun c hc => isNameChar_of_length_name whole (by rwa [read]), ident⟩

theorem next_hash_of_letters {value : String} (hne : value.toList ≠ [])
    (h : ∀ c ∈ value.toList, isNameChar c = true) :
    next (Token.hash value (startsIdent value.toList)).chars =
      (.hash value (startsIdent value.toList), []) := by
  have whole : name (value.toList ++ []) = _ := name_append h trivial
  have head : value.toList.head?.any isNameChar = true := by
    obtain ⟨c, ds, hc⟩ := List.exists_cons_of_ne_nil hne
    rw [hc]
    exact h c (hc ▸ List.mem_cons_self)
  have read : next (Token.hash value (startsIdent value.toList)).chars = hash value.toList :=
    next_cons (by decide)
  rw [List.append_nil] at whole
  rw [read, hash, head, Bool.true_or, if_pos rfl, whole]
  dsimp only
  rw [String.ofList_toList]

theorem plusSign_cases (v : Float) (s : Bool) :
    Token.plusSign v s = [] ∨ Token.plusSign v s = ['+'] := by
  unfold Token.plusSign
  split
  · exact .inr rfl
  · exact .inl rfl

theorem startsNumber_of_next (hc : c ≠ '/') (h : (next (c :: cs)).1.isNumeric = true) :
    startsNumber (c :: cs) = true := by
  rw [next_cons hc] at h
  exact (numeric_of_tokenAt h).1

theorem isFinite_of_next (s : Bool) (rest : List Char)
    (h : (next (Token.plusSign v s ++ (Token.numberChars v ++ rest))).1.isNumeric = true) :
    (Binary.ofFloat v).isFinite = true := by
  have chars : Token.numberChars v = NumberLayout.plain.text (Binary.ofFloat v) := rfl
  have refuse {c : Char} {cs : List Char} (hc : c ≠ '/') (hn : startsNumber (c :: cs) = false)
      (h : (next (c :: cs)).1.isNumeric = true) : False := by
    rw [startsNumber_of_next hc h] at hn
    cases hn
  cases hx : Binary.ofFloat v with
  | finite negative m q => rfl
  | infinite negative =>
      exfalso
      rw [chars, hx] at h
      rcases plusSign_cases v s with hp | hp <;> rw [hp] at h <;> cases negative <;>
        exact refuse (by decide) rfl h
  | nan =>
      exfalso
      rw [chars, hx] at h
      rcases plusSign_cases v s with hp | hp <;> rw [hp] at h <;>
        exact refuse (by decide) rfl h

theorem plusSign_finite {negative : Bool} {m : ℕ} {q : ℤ}
    (hx : Binary.ofFloat x = .finite negative m q) :
    Token.plusSign x s = if s = true ∧ (negative = false ∨ m = 0) then ['+'] else [] := by
  obtain ⟨canonical, fits, eq⟩ := eq_float_of_ofFloat hx
  have sign : (s && decide (0.0 ≤ x)) = true ↔ s = true ∧ (negative = false ∨ m = 0) := by
    rw [Bool.and_eq_true, decide_eq_true_eq, eq, zero_le_float negative canonical fits]
  rw [Token.plusSign]
  exact if_congr sign rfl rfl

theorem unsigned_number (cs : List Char) (h : (NumberText.sign cs).2.1 = false) :
    (Binary.ofFloat (number cs).1).negative = false := by
  have plus : (NumberText.sign cs).1 = false := by
    unfold NumberText.sign at h ⊢
    split at h
    · cases h
    · cases h
    · rfl
  simp only [number, plus]
  split <;> exact negative_magnitude _ _

theorem whole_number (cs : List Char) (h : (number cs).2.1 = true)
    (hf : (Binary.ofFloat (number cs).1).isFinite = true) :
    (Binary.ofFloat (number cs).1).toInt?.isSome = true := by
  rw [(number_of_isInteger h).1] at hf ⊢
  obtain ⟨negative, m, q, hx⟩ := isFinite_iff.mp hf
  exact isSome_toInt?_digits hx

theorem next_number (hx : (Binary.ofFloat x).isFinite = true)
    (whole : i = (Binary.ofFloat x).toInt?.isSome)
    (unsigned : s = false → (Binary.ofFloat x).negative = false)
    (hz : s = true → (Binary.ofFloat x).isNegativeZero = false) :
    next (Token.number x i s).chars = (.number x i s, []) := by
  obtain ⟨negative, m, q, hx⟩ := isFinite_iff.mp hx
  have clear : Clear [] := ⟨nofun, rfl⟩
  have flag : decide (0 ≤ (Decimal.shortest m q).exponent) = i := by
    rw [whole, Bool.eq_iff_iff, decide_eq_true_eq]
    exact exponent_nonneg_iff hx
  have signless := next_numberChars hx clear
  have plus := fun h : negative = false => next_plus (h ▸ hx) clear
  rw [List.append_nil, flag, measured_nil] at signless
  rw [hx] at unsigned hz
  have chars : (Token.number x i s).chars = Token.plusSign x s ++ Token.numberChars x := rfl
  rw [chars, plusSign_finite hx]
  cases s with
  | false =>
      rw [if_neg (by simp), List.nil_append, signless, show negative = false from unsigned rfl]
  | true =>
      cases negative with
      | false =>
          rw [if_pos (by simp), List.singleton_append, ← List.append_nil (Token.numberChars x),
            plus rfl, flag, measured_nil]
      | true =>
          have hm : m ≠ 0 := by simpa [Binary.isNegativeZero] using hz rfl
          rw [if_neg (by simp [hm]), List.nil_append, signless]

theorem number_of_next (h : (next (Token.number x i s).chars).1 = .number x i s) :
    (Token.number x i s).Faithful := by
  have chars : (Token.number x i s).chars = Token.plusSign x s ++ Token.numberChars x := rfl
  have finite : (Binary.ofFloat x).isFinite = true := by
    refine isFinite_of_next s [] ?_
    rw [List.append_nil, ← chars, h]
    rfl
  obtain ⟨negative, m, q, hx⟩ := isFinite_iff.mp finite
  have clear : Clear [] := ⟨nofun, rfl⟩
  -- the flag that is read tells whether the value is whole
  have flag (hi : decide (0 ≤ (Decimal.shortest m q).exponent) = i) (h : i = false) :
      (Binary.ofFloat x).toInt? = none := by
    cases hz : (Binary.ofFloat x).toInt? with
    | none => rfl
    | some z =>
        have whole := (exponent_nonneg_iff hx).mpr (by rw [hz]; rfl)
        rw [h, decide_eq_true whole] at hi
        cases hi
  rw [chars, plusSign_finite hx] at h
  by_cases plus : s = true ∧ (negative = false ∨ m = 0)
  · rw [if_pos plus, List.singleton_append] at h
    cases negative with
    | false =>
        rw [← List.append_nil (Token.numberChars x), next_plus hx clear, measured_nil] at h
        refine ⟨finite, flag (Token.number.inj h).2.1, fun _ => ?_⟩
        rw [hx]
        rfl
    | true =>
        rw [numberChars_finite hx] at h
        have starts := startsNumber_of_next (c := '+') (by decide) (by rw [h]; rfl)
        cases starts
  · rw [if_neg plus, List.nil_append, ← List.append_nil (Token.numberChars x),
      next_numberChars hx clear, measured_nil] at h
    refine ⟨finite, flag (Token.number.inj h).2.1, fun hs => ?_⟩
    rw [hx]
    rw [not_and_or, not_or] at plus
    simp [Binary.isNegativeZero, (plus.resolve_left (not_not.mpr hs)).2]

theorem next_percentage (hx : (Binary.ofFloat x).isFinite = true) :
    next (Token.percentage x).chars = (.percentage x, []) := by
  obtain ⟨negative, m, q, hx⟩ := isFinite_iff.mp hx
  have clear : Clear ['%'] := ⟨fun c hc => by cases hc; decide, rfl⟩
  exact (next_numberChars hx clear).trans (measured_percent _ _ _)

theorem Spelled.digitless (h : Spelled cs) : Digitless cs := by
  obtain ⟨d, ds, rfl, -, hd | ⟨rfl, -⟩⟩ := h.cases_cons
  · intro c hc
    cases hc
    exact ⟨not_isDigit_of_isNameStart hd, isNameStart_ne hd rfl⟩
  · intro c hc
    cases hc
    decide

theorem next_dimension {unit : String} (hx : (Binary.ofFloat x).isFinite = true)
    (hu : Spelled unit.toList) (he : exponent? unit.toList = none) :
    next (Token.dimension x unit).chars = (.dimension x unit, []) := by
  obtain ⟨negative, m, q, hx⟩ := isFinite_iff.mp hx
  refine (next_numberChars hx ⟨hu.digitless, he⟩).trans ?_
  rw [measured_unit hu, String.ofList_toList]

theorem exponent_of_number {unit : List Char} {negative : Bool} {m : ℕ} {q : ℤ}
    (hx : Binary.ofFloat x = .finite negative m q) (hu : Digitless unit)
    (h : (number (Token.numberChars x ++ unit)).2.2 = unit) : exponent? unit = none := by
  cases he : exponent? unit with
  | none => rfl
  | some found =>
      obtain ⟨ds, fs, shown, text⟩ := exists_shown (Decimal.shortest m q)
      have shorter := length_number_exponent shown.whole shown.fraction
        ((signed_minus negative).sign_append shown.nonempty shown.whole) hu he
      rw [← List.append_assoc ds, ← text, ← List.append_assoc, ← numberChars_finite hx, h]
        at shorter
      exact absurd shorter (Nat.lt_irrefl _)

theorem dimension_of_next {unit : String}
    (h : (next (Token.dimension x unit).chars).1 = .dimension x unit) :
    (Token.dimension x unit).Faithful := by
  have chars : (Token.dimension x unit).chars = Token.numberChars x ++ unit.toList := rfl
  have unsigned : Token.plusSign x false = [] := rfl
  have numeral : (next (Token.dimension x unit).chars).1.isNumeric = true := by
    rw [h]
    rfl
  have finite : (Binary.ofFloat x).isFinite = true := by
    refine isFinite_of_next false unit.toList ?_
    rwa [unsigned, List.nil_append, ← chars]
  obtain ⟨negative, m, q, hx⟩ := isFinite_iff.mp finite
  have some : Token.numberChars x ≠ [] := by
    obtain ⟨ds, fs, shown, text⟩ := exists_shown (Decimal.shortest m q)
    rw [numberChars_finite hx, text]
    exact List.append_ne_nil_of_right_ne_nil _
      (List.append_ne_nil_of_left_ne_nil shown.nonempty _)
  have taken := (printed_numberChars x).taken
  obtain ⟨c, ds, hc⟩ := List.exists_cons_of_ne_nil some
  have slash : c ≠ '/' := by
    rintro rfl
    exact taken.noSlash (hc ▸ List.mem_cons_self)
  rw [chars, hc, List.cons_append] at h numeral
  have starts := startsNumber_of_next slash numeral
  have short := taken.number _ List.suffix_rfl unit.toList (by rw [hc]; exact starts)
  rw [next_cons slash] at h
  -- no more is left after the number than the unit has characters, so it is the unit itself
  obtain ⟨rest, found⟩ : ∃ rest, tokenAt c (ds ++ unit.toList) = (.dimension x unit, rest) :=
    ⟨_, Prod.ext h rfl⟩
  obtain ⟨-, -, ident, read⟩ := dimension_of_kind (kind found)
  rw [← List.cons_append, ← hc] at ident read
  obtain ⟨whole, spelled⟩ := spelled_of_name read short ident
  exact ⟨finite, spelled, exponent_of_number hx spelled.digitless whole⟩

theorem startsNumber_alone (h : startsNumber (c :: cs) = false) : startsNumber [c] = false := by
  rw [Bool.eq_false_iff] at h ⊢
  intro alone
  have digit : c.isDigit = true := by
    rcases front_of_startsNumber alone with digit | rfl | rfl | rfl
    · exact digit
    all_goals cases alone
  have point : c ≠ '.' := by
    rintro rfl
    cases digit
  apply h
  rw [startsNumber, sign_of_isDigit digit]
  simp [startsDigits, point, digit]

theorem startsIdent_alone (h : startsIdent (c :: cs) = false) : startsIdent [c] = false := by
  by_cases dash : c = '-'
  · subst c
    rfl
  · rw [startsIdent_cons dash, Bool.or_eq_false_iff] at h
    rw [startsIdent_cons dash, h.1, Bool.false_or]
    unfold startsEscape
    split
    · rename_i hc
      cases hc
    · rfl

theorem symbol?_alone (h : symbol? (c :: cs) = none) : symbol? [c] = none := by
  cases found : symbol? [c] with
  | none => rfl
  | some found' =>
      unfold symbol? at found
      split at found <;> cases found <;> rename_i hc <;>
        obtain ⟨rfl, tail⟩ := List.cons.inj hc <;> first | cases h | cases tail

theorem skipComments_one (c : Char) : skipComments [c] = [c] :=
  skipComments_eq fun _ h => by cases h

theorem next_one (c : Char) : next [c] = tokenAt c [] := by
  rw [next, skipComments_one]

theorem next_delim {d : Char} (h : (tokenAt c cs).1 = .delim d) : next [d] = (.delim d, []) := by
  rw [next_one]
  unfold tokenAt at h
  split at h
  · cases h
  · rename_i space
    split at h
    · cases h
    · rename_i quote
      split at h
      · rename_i sharp
        unfold hash at h
        split at h <;> cases h
        rfl
      · rename_i sharp
        split at h
        · have loose := isLoose_numeric (c :: cs)
          rw [h] at loose
          cases loose
        · rename_i number
          split at h
          · unfold identLike at h
            split at h <;> cases h
          · rename_i ident
            split at h
            · rename_i found hs
              have symbol : found.1.isSymbol = true := isSymbol_of_symbol? hs
              rw [h] at symbol
              cases symbol
            · rename_i symbol
              cases h
              rw [tokenAt, if_neg space, if_neg quote, if_neg sharp,
                if_neg (Bool.eq_false_iff.mp (startsNumber_alone (Bool.eq_false_iff.mpr number))),
                if_neg (Bool.eq_false_iff.mp (startsIdent_alone (Bool.eq_false_iff.mpr ident))),
                symbol?_alone symbol]

theorem next_symbol (h : t.isSymbol = true) : next t.chars = (t, []) := by
  cases t <;> first | (cases h; done) | exact next_cons (by decide)

end Lexer

namespace Token

open Lexer NumberText

variable {t : Token} {c : Char} {cs rest : List Char}

theorem Faithful.next_chars (found : tokenAt c cs = (t, rest)) (h : t.Faithful) :
    next t.chars = (t, []) := by
  have kind := kind found
  cases t with
  | ident name =>
      have read : next (name.toList ++ []) = _ := Spelled.next_ident h trivial nofun
      rwa [List.append_nil, String.ofList_toList] at read
  | function name =>
      have read : next (name.toList ++ '(' :: []) = _ := Spelled.next_function h
      rwa [String.ofList_toList] at read
  | hash value isId =>
      obtain ⟨letters, rfl⟩ := h
      obtain ⟨-, starts, read, -⟩ := hash_of_kind kind
      exact next_hash_of_letters (by simpa [read] using name_ne_nil starts) letters
  | string value =>
      have read := next_quoted (s := value.toList) (z := [])
      rwa [List.append_nil, String.ofList_toList] at read
  | number value isInteger signed =>
      obtain ⟨finite, fraction, zero⟩ := h
      obtain ⟨-, read, rfl⟩ := number_of_kind kind
      have unsigned := unsigned_number (c :: cs)
      have whole := whole_number (c :: cs)
      rw [read] at unsigned whole
      refine next_number finite ?_ unsigned zero
      cases isInteger with
      | false => rw [fraction rfl]; rfl
      | true => exact (whole rfl finite).symm
  | percentage value => exact next_percentage h
  | dimension value unit => exact next_dimension h.1 h.2.1 h.2.2
  | whitespace => exact next_cons (by decide)
  | delim d => exact next_delim (congrArg Prod.fst found)
  | eof => cases kind with | symbol _ symbol => cases symbol
  | namespaceMark p => cases kind with | symbol _ symbol => cases symbol
  | qualifiedName p n => cases kind with | symbol _ symbol => cases symbol
  | combinator k => cases kind with | symbol _ symbol => cases symbol
  | _ => exact next_symbol rfl

theorem Faithful.of_next (h : (next t.chars).1 = t) (ht : t.isEof = false) : t.Faithful := by
  cases t with
  | ident name => exact spelled_of_ident h
  | function name => exact spelled_of_function h
  | hash value isId => exact hash_of_next h
  | number value isInteger signed => exact number_of_next h
  | percentage value =>
      refine isFinite_of_next false ['%'] ?_
      have chars : (Token.percentage value).chars =
        Token.plusSign value false ++ (Token.numberChars value ++ ['%']) := rfl
      rw [← chars, h]
      rfl
  | dimension value unit => exact dimension_of_next h
  | _ => exact trivial

theorem reread_iff {text : String} (h : t ∈ listOfText text) :
    listOfText t.text = (if t.isEof then [.eof] else [t, .eof]) ↔ t.Faithful := by
  have read : listOfText t.text = tokens t.chars := by
    rw [listOfText, Token.text, String.toList_ofList]
  rw [read]
  cases ht : t.isEof with
  | true =>
      obtain rfl : t = .eof := by
        cases t <;> first | (cases ht; done) | rfl
      refine iff_of_true ?_ trivial
      rw [Token.chars, tokens_eq, words_nil]
      rfl
  | false =>
      rw [if_neg Bool.false_ne_true]
      obtain ⟨c, ds, rest, found⟩ := found_of_mem_tokens h ht
      exact ⟨fun back => .of_next (next_of_tokens back ht) ht,
        fun faithful => tokens_of_next (faithful.next_chars found) ht⟩

theorem reread_function : listOfText (Token.function "not").text = [.function "not", .eof] := by
  have letters : "not".toList = ['n', 'o', 't'] := by cbv
  have opened : "not(".toList = ['n', 'o', 't'] ++ ['('] := by cbv
  have spelled : Spelled ['n', 'o', 't'] := by
    refine ⟨rfl, ?_⟩
    simp only [List.forall_mem_cons]
    exact ⟨rfl, rfl, rfl, nofun⟩
  have read : next (['n', 'o', 't'] ++ ['(']) = (.function "not", []) := by
    rw [spelled.next_function, ← letters, String.ofList_toList]
  have mem : Token.function "not" ∈ listOfText "not(" := by
    rw [listOfText, opened, tokens_of_next read rfl]
    exact .head _
  refine (reread_iff mem).mpr ?_
  rwa [Faithful, letters]

theorem negative_zero_not_reread :
    ∃ t, listOfText "-0" = [t, .eof] ∧ listOfText t.text ≠ [t, .eof] := by
  have letters : "-0".toList = ['-', '0'] := by cbv
  have clear : Clear [] := ⟨nofun, rfl⟩
  have digits : ∀ c ∈ ['0'], c.isDigit = true := by simp
  have nothing : ∀ c ∈ ([] : List Char), c.isDigit = true := nofun
  have read : next ['-', '0'] = (.number (Written.toFloat ⟨true, ['0'], [], 0⟩) true true, []) :=
    Signed.minus.next_shown (List.cons_ne_nil '0' []) digits nothing clear
  have zero : Binary.ofFloat (Written.toFloat ⟨true, ['0'], [], 0⟩) = .finite true 0 (-1074) := by
    decide +kernel
  refine ⟨.number (Written.toFloat ⟨true, ['0'], [], 0⟩) true true, ?_, fun back => ?_⟩
  · rw [listOfText, letters, tokens_of_next read rfl]
  · rw [listOfText, Token.text, String.toList_ofList] at back
    have signed := (Faithful.of_next (next_of_tokens back rfl) rfl).2.2 rfl
    rw [zero] at signed
    cases signed

end Token

end CssStyling

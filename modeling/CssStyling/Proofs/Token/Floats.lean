import CssStyling.Proofs.Number.Shortest
import CssStyling.Proofs.Token.Numerals

namespace CssStyling.Lexer

open NumberText Rounding

variable {n m : ℕ} {q e : ℤ} {x : Float} {w ds fs rest : List Char} {negative : Bool}
  {d : Decimal}

theorem toFloat_shown (hx : Binary.ofFloat x = .finite negative m q)
    (h : Shown (Decimal.shortest m q) ds fs) : Written.toFloat ⟨negative, ds, fs, 0⟩ = x := by
  obtain ⟨canonical, fits, eq⟩ := eq_float_of_ofFloat hx
  have read : magnitude (digitsToNat (ds ++ fs)) (0 - fs.length) = float false m q := by
    have value := h.value
    rw [zero_sub]
    rcases Nat.eq_zero_or_pos m with rfl | hm
    · have zero : digitsToNat (ds ++ fs) = 0 := by
        have nothing : (Decimal.shortest 0 q).digits = 0 := rfl
        rw [nothing, Nat.cast_zero, zero_mul] at value
        exact_mod_cast (mul_eq_zero.mp value).resolve_right (ten_zpow_pos _).ne'
      rw [zero, magnitude_zero]
      rfl
    · obtain ⟨pos, near⟩ := shortest_nearest hm canonical fits
      rw [← value] at near
      refine magnitude_nearest (Nat.pos_of_ne_zero fun zero => ?_) hm canonical fits near
      rw [zero, Nat.cast_zero, zero_mul] at near
      exact absurd (near.le hm) (not_le_of_gt (two_zpow_pos _))
  rw [Written.toFloat, read, withSign_float negative canonical fits, eq]

def Digitless (rest : List Char) : Prop :=
  ∀ c, rest.head? = some c → c.isDigit = false ∧ c ≠ '.'

structure Clear (rest : List Char) : Prop where
  digit : Digitless rest
  exponent : exponent? rest = none

theorem Digitless.digits (h : Digitless rest) : digits rest = ([], rest) := by
  cases rest with
  | nil => rfl
  | cons c rest => simp [NumberText.digits, (h c rfl).1]

theorem Digitless.fraction (h : Digitless rest) : fraction rest = ([], rest) := by
  cases rest with
  | nil => rfl
  | cons c rest => simp [Lexer.fraction, (h c rfl).2]

theorem digits_clear (hd : ∀ c ∈ ds, c.isDigit = true) (h : digits rest = ([], rest)) :
    digits (ds ++ rest) = (ds, rest) := by
  rw [digits_append hd, h, List.append_nil]

theorem fraction_shown (hd : ∀ c ∈ ds, c.isDigit = true) (hf : ∀ c ∈ fs, c.isDigit = true)
    (h : Digitless rest) :
    ∃ z, digits (ds ++ ((if fs = [] then [] else '.' :: fs) ++ rest)) = (ds, z) ∧
      fraction z = (fs, rest) := by
  by_cases empty : fs = []
  · subst fs
    rw [if_pos rfl, List.nil_append]
    exact ⟨rest, digits_clear hd h.digits, h.fraction⟩
  · obtain ⟨f, fs, rfl⟩ := List.exists_cons_of_ne_nil empty
    rw [if_neg empty]
    refine ⟨'.' :: (f :: fs) ++ rest, digits_clear hd rfl, ?_⟩
    rw [List.cons_append, List.cons_append, fraction, if_pos (hf f List.mem_cons_self),
      ← List.cons_append, digits_clear hf h.digits]

section Sign

variable {sign : List Char} {signed : Bool}

theorem number_shown (hd : ∀ c ∈ ds, c.isDigit = true) (hf : ∀ c ∈ fs, c.isDigit = true)
    (hs : ∀ z : List Char, NumberText.sign (sign ++ (ds ++ z)) = (negative, signed, ds ++ z))
    (h : Clear rest) :
    number (sign ++ (ds ++ ((if fs = [] then [] else '.' :: fs) ++ rest))) =
      (Written.toFloat ⟨negative, ds, fs, 0⟩, fs.isEmpty, rest) := by
  obtain ⟨z, whole, fraction⟩ := fraction_shown hd hf h.digit
  rw [number, hs]
  dsimp only
  rw [whole]
  dsimp only
  rw [fraction]
  dsimp only
  rw [h.exponent]

theorem length_number_exponent {found : ℤ × List Char} (hd : ∀ c ∈ ds, c.isDigit = true)
    (hf : ∀ c ∈ fs, c.isDigit = true)
    (hs : ∀ z : List Char, NumberText.sign (sign ++ (ds ++ z)) = (negative, signed, ds ++ z))
    (h : Digitless rest) (he : exponent? rest = some found) :
    (number (sign ++ (ds ++ ((if fs = [] then [] else '.' :: fs) ++ rest)))).2.2.length <
      rest.length := by
  obtain ⟨z, whole, fraction⟩ := fraction_shown hd hf h
  rw [number, hs]
  dsimp only
  rw [whole]
  dsimp only
  rw [fraction]
  dsimp only
  rw [he]
  exact exponent_length_lt he

end Sign

theorem fraction_of_isEmpty (h : (fraction rest).1.isEmpty = true) :
    fraction rest = ([], rest) := by
  unfold fraction at h ⊢
  split at h
  · rename_i c cs
    split at h
    · rename_i digit
      simp [digits, digit] at h
    · rename_i digit
      rw [if_neg digit]
  · rfl

structure Ends (rest : List Char) : Prop where
  digits : (digits rest).1 = []
  fraction : (fraction rest).1 = []
  exponent : exponent? rest = none

theorem digits_rest (w : List Char) : (digits (digits w).2).1 = [] := by
  have stop := List.head?_dropWhile_not Char.isDigit w
  simp only [digits]
  cases hw : w.dropWhile Char.isDigit with
  | nil => rfl
  | cons c cs =>
      rw [hw] at stop
      exact List.takeWhile_cons_of_neg (Bool.eq_false_iff.mp stop)

theorem number_of_isInteger {w : List Char} (h : (number w).2.1 = true) :
    number w = (Written.toFloat ⟨(sign w).1, (digits (sign w).2.2).1, [], 0⟩, true,
      (digits (sign w).2.2).2) ∧ Ends (digits (sign w).2.2).2 := by
  simp only [number] at h ⊢
  split at h
  · cases h
  · rename_i none
    have point := fraction_of_isEmpty h
    rw [point] at none ⊢
    exact ⟨rfl, digits_rest _, congrArg Prod.fst point, none⟩

theorem front_of_startsNumber {c : Char} {w : List Char} (h : startsNumber (c :: w) = true) :
    c.isDigit = true ∨ c = '.' ∨ c = '+' ∨ c = '-' := by
  by_cases hp : c = '+'
  · exact .inr (.inr (.inl hp))
  · by_cases hm : c = '-'
    · exact .inr (.inr (.inr hm))
    · have unsigned : NumberText.sign (c :: w) = (false, false, c :: w) := by
        simp [NumberText.sign, hp, hm]
      rw [startsNumber, unsigned] at h
      by_cases point : c = '.'
      · exact .inr (.inl point)
      · left
        simpa [startsDigits, point] using h

theorem next_of_startsNumber {w : List Char} (h : startsNumber w = true) : next w = numeric w := by
  cases w with
  | nil => cases h
  | cons c w =>
      have front := front_of_startsNumber h
      have ne {d : Char} (hd : d.isDigit = false) (hs : d ∉ ['.', '+', '-']) : c ≠ d := by
        rintro rfl
        rcases front with front | front | front | front
        · rw [hd] at front
          cases front
        all_goals exact hs (by simp [front])
      have space : Ascii.isSpace c = false := by
        simp only [Ascii.isSpace, Bool.or_eq_false_iff, beq_eq_false_iff_ne]
        refine ⟨⟨⟨⟨?_, ?_⟩, ?_⟩, ?_⟩, ?_⟩ <;> exact ne (by decide) (by decide)
      have quote : ¬(c = '"' ∨ c = '\'') := by
        rw [not_or]
        exact ⟨ne (by decide) (by decide), ne (by decide) (by decide)⟩
      rw [next_cons (ne (by decide) (by decide)), tokenAt, if_neg (by simp [space]),
        if_neg quote, if_neg (ne (by decide) (by decide)), if_pos h]

def measured (value : Float) (isInteger signed : Bool) (rest : List Char) : Token × List Char :=
  if startsIdent rest then (.dimension value (String.ofList (name rest).1), (name rest).2)
  else match rest with
    | '%' :: rest' => (.percentage value, rest')
    | _ => (.number value isInteger signed, rest)

theorem numeric_eq (w : List Char) : numeric w =
    measured (number w).1 (number w).2.1 (NumberText.sign w).2.1 (number w).2.2 := rfl

theorem measured_nil (value : Float) (isInteger signed : Bool) :
    measured value isInteger signed [] = (.number value isInteger signed, []) := rfl

theorem measured_percent (value : Float) (isInteger signed : Bool) :
    measured value isInteger signed ['%'] = (.percentage value, []) := rfl

theorem measured_unit {unit : List Char} (h : Spelled unit) (value : Float)
    (isInteger signed : Bool) : measured value isInteger signed unit =
      (.dimension value (String.ofList unit), []) := by
  have starts := h.startsIdent_append []
  have letters : name (unit ++ []) = _ := h.name_eq trivial
  rw [List.append_nil] at starts letters
  unfold measured
  rw [if_pos starts, letters]

inductive Signed : List Char → Bool → Bool → Prop where
  | none : Signed [] false false
  | plus : Signed ['+'] false true
  | minus : Signed ['-'] true true

namespace Signed

variable {sign z : List Char} {signed : Bool}

theorem sign_append (h : Signed sign negative signed) (hne : ds ≠ [])
    (hd : ∀ c ∈ ds, c.isDigit = true) (z : List Char) :
    NumberText.sign (sign ++ (ds ++ z)) = (negative, signed, ds ++ z) := by
  cases h with
  | none =>
      obtain ⟨c, ds, rfl⟩ := List.exists_cons_of_ne_nil hne
      exact sign_of_isDigit (hd c List.mem_cons_self)
  | plus => rfl
  | minus => rfl

theorem startsNumber_append (h : Signed sign negative signed) (hne : ds ≠ [])
    (hd : ∀ c ∈ ds, c.isDigit = true) (z : List Char) :
    startsNumber (sign ++ (ds ++ z)) = true := by
  rw [startsNumber, h.sign_append hne hd]
  obtain ⟨c, ds, rfl⟩ := List.exists_cons_of_ne_nil hne
  have digit := hd c List.mem_cons_self
  have point : c ≠ '.' := by
    rintro rfl
    cases digit
  simp [startsDigits, point, digit]

theorem next_shown (h : Signed sign negative signed) (hne : ds ≠ [])
    (hd : ∀ c ∈ ds, c.isDigit = true) (hf : ∀ c ∈ fs, c.isDigit = true) (hr : Clear rest) :
    next (sign ++ (ds ++ ((if fs = [] then [] else '.' :: fs) ++ rest))) =
      measured (Written.toFloat ⟨negative, ds, fs, 0⟩) fs.isEmpty signed rest := by
  rw [next_of_startsNumber (h.startsNumber_append hne hd _), numeric_eq,
    number_shown hd hf (h.sign_append hne hd) hr, h.sign_append hne hd]

end Signed

theorem next_magnitudeText {sign : List Char} {signed : Bool} (hs : Signed sign negative signed)
    (hx : Binary.ofFloat x = .finite negative m q) (hr : Clear rest) :
    next (sign ++ (NumberLayout.plain.magnitudeText (Decimal.shortest m q) ++ rest)) =
      measured x (decide (0 ≤ (Decimal.shortest m q).exponent)) signed rest := by
  obtain ⟨ds, fs, shown, text⟩ := exists_shown (Decimal.shortest m q)
  have empty : fs.isEmpty = decide (0 ≤ (Decimal.shortest m q).exponent) := by
    rw [Bool.eq_iff_iff, List.isEmpty_iff, decide_eq_true_eq]
    exact shown.empty
  rw [text, List.append_assoc, hs.next_shown shown.nonempty shown.whole shown.fraction hr,
    toFloat_shown hx shown, empty]

theorem numberChars_finite (hx : Binary.ofFloat x = .finite negative m q) :
    Token.numberChars x = (if negative then ['-'] else []) ++
      NumberLayout.plain.magnitudeText (Decimal.shortest m q) := by
  rw [Token.numberChars, hx]
  rfl

theorem signed_minus (negative : Bool) :
    Signed (if negative then ['-'] else []) negative negative := by
  cases negative with
  | false => exact .none
  | true => exact .minus

theorem next_numberChars (hx : Binary.ofFloat x = .finite negative m q) (hr : Clear rest) :
    next (Token.numberChars x ++ rest) =
      measured x (decide (0 ≤ (Decimal.shortest m q).exponent)) negative rest := by
  rw [numberChars_finite hx, List.append_assoc, next_magnitudeText (signed_minus negative) hx hr]

theorem next_plus (hx : Binary.ofFloat x = .finite false m q) (hr : Clear rest) :
    next ('+' :: (Token.numberChars x ++ rest)) =
      measured x (decide (0 ≤ (Decimal.shortest m q).exponent)) true rest := by
  rw [numberChars_finite hx]
  exact next_magnitudeText .plus hx hr

end CssStyling.Lexer

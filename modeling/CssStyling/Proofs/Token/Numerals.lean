import CssStyling.Proofs.Token.Words

namespace CssStyling.Lexer

open NumberText

variable {c : Char} {w y z ds fs : List Char} {v : Float} {n : Nat}

/-- A number that starts within these characters is not read without the rest of them. -/
structure Taken (w : List Char) : Prop where
  number (y : List Char) : y <:+ w → ∀ z, startsNumber (y ++ z) = true →
    (number (y ++ z)).2.2.length ≤ z.length
  noSlash : '/' ∉ w

theorem length_digits_le : (digits z).2.length ≤ z.length :=
  (List.dropWhile_suffix Char.isDigit).length_le

theorem length_number_le (h : (fraction (digits (sign y).2.2).2).2.length ≤ n) :
    (number y).2.2.length ≤ n := by
  simp only [number]
  split
  · rename_i he
    exact Nat.le_of_lt (Nat.lt_of_lt_of_le (exponent_length_lt he) h)
  · exact h

theorem taken_nil : Taken [] := by
  refine ⟨fun y hy z _ => ?_, List.not_mem_nil⟩
  rw [List.suffix_nil.mp hy, List.nil_append]
  exact length_number_le
    (((fraction_length_le _).trans length_digits_le).trans (sign_length_le z))

theorem Taken.cons (h : Taken w) (hc : c ≠ '/')
    (hn : ∀ z, startsNumber (c :: (w ++ z)) = true →
      (Lexer.number (c :: (w ++ z))).2.2.length ≤ z.length) : Taken (c :: w) := by
  refine ⟨fun y hy z hs => ?_, ?_⟩
  · rcases List.suffix_cons_iff.mp hy with rfl | hy
    · exact hn z hs
    · exact h.number y hy z hs
  · rw [List.mem_cons, not_or]
    exact ⟨Ne.symm hc, h.noSlash⟩

theorem Taken.cons_of_not_startsNumber (h : Taken w) (hc : c ≠ '/')
    (hn : ∀ z, startsNumber (c :: (w ++ z)) = false) : Taken (c :: w) :=
  h.cons hc fun z hs => by rw [hn] at hs; cases hs

theorem digits_append (h : ∀ d ∈ ds, d.isDigit = true) :
    digits (ds ++ z) = (ds ++ (digits z).1, (digits z).2) := by
  rw [digits, List.takeWhile_append_of_pos h, List.dropWhile_append_of_pos h]
  rfl

inductive Numeral : List Char → Prop where
  | whole {ds : List Char} (h : ∀ d ∈ ds, d.isDigit = true) : Numeral ds
  | point {ds fs : List Char} (h : ∀ d ∈ ds, d.isDigit = true) (hf : ∀ d ∈ fs, d.isDigit = true)
      (hne : fs ≠ []) : Numeral (ds ++ '.' :: fs)

theorem Numeral.length_le (h : Numeral w) :
    (fraction (digits (w ++ z)).2).2.length ≤ z.length := by
  cases h with
  | whole h =>
      rw [digits_append h]
      exact Nat.le_trans (fraction_length_le _) length_digits_le
  | @point ds fs h hf hne =>
      obtain ⟨d, fs, rfl⟩ := List.exists_cons_of_ne_nil hne
      have hd := hf d List.mem_cons_self
      have point : digits ('.' :: ((d :: fs) ++ z)) = ([], '.' :: ((d :: fs) ++ z)) := rfl
      rw [List.append_assoc, digits_append h, List.cons_append, point]
      have fraction : fraction ('.' :: ((d :: fs) ++ z)) = digits ((d :: fs) ++ z) := by
        simp [Lexer.fraction, hd]
      rw [fraction, digits_append hf]
      exact length_digits_le

theorem sign_of_isDigit (h : c.isDigit = true) : sign (c :: y) = (false, false, c :: y) := by
  unfold sign
  split
  · rename_i heq
    rw [(List.cons.inj heq).1] at h
    cases h
  · rename_i heq
    rw [(List.cons.inj heq).1] at h
    cases h
  · rfl

theorem Numeral.of_cons (h : Numeral (c :: w)) : Numeral w ∧ (c.isDigit = true ∨ c = '.') := by
  generalize hcw : c :: w = cw at h
  cases h with
  | whole h =>
      subst cw
      exact ⟨.whole fun d hd => h d (List.mem_cons_of_mem c hd), .inl (h c List.mem_cons_self)⟩
  | @point ds fs h hf hne =>
      cases ds with
      | nil =>
          obtain ⟨rfl, rfl⟩ := List.cons.inj hcw
          exact ⟨.whole hf, .inr rfl⟩
      | cons d ds =>
          obtain ⟨rfl, rfl⟩ := List.cons.inj hcw
          exact ⟨.point (fun e he => h e (List.mem_cons_of_mem c he)) hf hne,
            .inl (h c List.mem_cons_self)⟩

theorem Numeral.taken (h : Numeral w) : Taken w := by
  induction w with
  | nil => exact taken_nil
  | cons c w ih =>
      obtain ⟨hw, hc⟩ := h.of_cons
      have unsigned : ∀ z, (sign (c :: (w ++ z))).2.2 = c :: w ++ z := by
        intro z
        rcases hc with hc | rfl
        · rw [sign_of_isDigit hc]
          rfl
        · rfl
      have slash : c ≠ '/' := by
        rcases hc with hc | rfl
        · rintro rfl
          exact absurd hc (by decide)
        · decide
      refine (ih hw).cons slash fun z _ => length_number_le ?_
      rw [unsigned]
      exact h.length_le

theorem Numeral.taken_signed (h : Numeral w) (hc : c = '+' ∨ c = '-') : Taken (c :: w) := by
  have slash : c ≠ '/' := by
    rcases hc with rfl | rfl <;> decide
  refine h.taken.cons slash fun z _ => length_number_le ?_
  rcases hc with rfl | rfl <;> exact h.length_le

theorem Taken.cons_letter (h : Taken w) (hc : isNameStart c = true) : Taken (c :: w) :=
  h.cons_of_not_startsNumber (isNameStart_ne hc rfl) fun _ => startsNumber_of_isNameStart hc

theorem digitsToNat_append (ds fs : List Char) :
    digitsToNat (ds ++ fs) = digitsToNat ds * 10 ^ fs.length + digitsToNat fs := by
  have cut : digitsToNat (ds ++ fs) = Nat.ofDigitChars 10 fs (digitsToNat ds) :=
    Nat.ofDigitChars_append 0
  rw [cut, Nat.ofDigitChars_eq_ofDigitChars_zero, Nat.mul_comm]
  rfl

theorem digitsToNat_toDigits (n : ℕ) : digitsToNat (Nat.toDigits 10 n) = n :=
  Nat.ofDigitChars_ten_toDigits

theorem digitsToNat_zeros (n : ℕ) : digitsToNat (NumberLayout.zeros n) = 0 :=
  Nat.ofDigitChars_replicate_zero

theorem isDigit_digitChars (n : ℕ) : ∀ c ∈ NumberLayout.digitChars n, c.isDigit = true :=
  fun _ hc => Nat.isDigit_of_mem_toDigits (by decide) (by decide) hc

theorem isDigit_zeros (n : ℕ) : ∀ c ∈ NumberLayout.zeros n, c.isDigit = true := by
  intro c hc
  rw [List.eq_of_mem_replicate hc]
  rfl

structure Shown (d : Decimal) (ds fs : List Char) : Prop where
  nonempty : ds ≠ []
  whole : ∀ c ∈ ds, c.isDigit = true
  fraction : ∀ c ∈ fs, c.isDigit = true
  empty : fs = [] ↔ 0 ≤ d.exponent
  value : (digitsToNat (ds ++ fs) : ℚ) * 10 ^ (-(fs.length : ℤ)) = d.digits * 10 ^ d.exponent

theorem magnitudeText_plain (d : Decimal) : NumberLayout.plain.magnitudeText d =
    NumberLayout.plain.positional (NumberLayout.digitChars d.digits) d.exponent := by
  simp [NumberLayout.magnitudeText, NumberLayout.usesExponent, NumberLayout.plain]

theorem shown_zeros (n e : ℕ) :
    Shown ⟨n, .ofNat e⟩ (NumberLayout.digitChars n ++ NumberLayout.zeros e) [] where
  nonempty := List.append_ne_nil_of_left_ne_nil Nat.toDigits_ne_nil _
  whole c hc := (List.mem_append.mp hc).elim (isDigit_digitChars n c) (isDigit_zeros e c)
  fraction := nofun
  empty := by simp
  value := by
    have value : digitsToNat (NumberLayout.digitChars n ++ NumberLayout.zeros e) = n * 10 ^ e := by
      rw [digitsToNat_append, digitsToNat_zeros, NumberLayout.digitChars, digitsToNat_toDigits,
        NumberLayout.zeros, List.length_replicate, Nat.add_zero]
    rw [List.append_nil, value]
    simp

theorem shown_cut {e : ℕ} (digits : ∀ c ∈ w, c.isDigit = true) (long : e + 1 < w.length) :
    Shown ⟨digitsToNat w, .negSucc e⟩ (w.take (w.length - (e + 1)))
      (w.drop (w.length - (e + 1))) := by
  have places : (w.drop (w.length - (e + 1))).length = e + 1 := by
    rw [List.length_drop]
    omega
  refine ⟨?_, fun c hc => digits c (List.mem_of_mem_take hc),
    fun c hc => digits c (List.mem_of_mem_drop hc), ?_, ?_⟩
  · rw [Ne, ← List.length_eq_zero_iff, List.length_take]
    omega
  · rw [← List.length_eq_zero_iff, places]
    simp
  · rw [List.take_append_drop, places]
    rfl

theorem exists_shown (d : Decimal) : ∃ ds fs, Shown d ds fs ∧
    NumberLayout.plain.magnitudeText d = ds ++ if fs = [] then [] else '.' :: fs := by
  rw [magnitudeText_plain]
  obtain ⟨n, e⟩ := d
  cases e with
  | ofNat e =>
      refine ⟨_, [], shown_zeros n e, ?_⟩
      simp [NumberLayout.positional, NumberLayout.plain]
  | negSucc e =>
      obtain ⟨padded, hp⟩ : ∃ padded, padded = NumberLayout.zeros
        (e + 1 + 1 - (NumberLayout.digitChars n).length) ++ NumberLayout.digitChars n := ⟨_, rfl⟩
      have digits : ∀ c ∈ padded, c.isDigit = true := by
        intro c hc
        rw [hp] at hc
        exact (List.mem_append.mp hc).elim (isDigit_zeros _ c) (isDigit_digitChars n c)
      have long : e + 1 < padded.length := by
        rw [hp, List.length_append, NumberLayout.zeros, List.length_replicate]
        omega
      have value : digitsToNat padded = n := by
        rw [hp, digitsToNat_append, digitsToNat_zeros, NumberLayout.digitChars,
          digitsToNat_toDigits, Nat.zero_mul, Nat.zero_add]
      have shown := shown_cut digits long
      rw [value] at shown
      have some : padded.drop (padded.length - (e + 1)) ≠ [] := by
        rw [Ne, shown.empty]
        simp
      refine ⟨_, _, shown, ?_⟩
      rw [if_neg some, hp]
      rfl

theorem Shown.numeral {d : Decimal} (h : Shown d ds fs) :
    Numeral (ds ++ if fs = [] then [] else '.' :: fs) := by
  by_cases empty : fs = []
  · rw [if_pos empty, List.append_nil]
    exact .whole h.whole
  · rw [if_neg empty]
    exact .point h.whole h.fraction empty

theorem numeral_magnitudeText (d : Decimal) :
    Numeral (NumberLayout.plain.magnitudeText d) := by
  obtain ⟨ds, fs, shown, text⟩ := exists_shown d
  rw [text]
  exact shown.numeral

inductive Printed : List Char → Prop where
  | numeral {w : List Char} (h : Numeral w) : Printed w
  | minus {w : List Char} (h : Numeral w) : Printed ('-' :: w)
  | infinity : Printed ['i', 'n', 'f']
  | minusInfinity : Printed ['-', 'i', 'n', 'f']
  | nan : Printed ['N', 'a', 'N']

theorem printed_numberChars (v : Float) : Printed (Token.numberChars v) := by
  unfold Token.numberChars
  cases Binary.ofFloat v with
  | nan => exact .nan
  | infinite negative =>
      cases negative with
      | false => exact .infinity
      | true => exact .minusInfinity
  | finite negative significand exponent =>
      have numeral := numeral_magnitudeText (Decimal.shortest significand exponent)
      cases negative with
      | false => exact .numeral numeral
      | true => exact .minus numeral

namespace Printed

theorem taken (h : Printed w) : Taken w := by
  have infinity : Taken ['i', 'n', 'f'] :=
    ((taken_nil.cons_letter rfl).cons_letter rfl).cons_letter rfl
  cases h with
  | numeral h => exact h.taken
  | minus h => exact h.taken_signed (.inr rfl)
  | infinity => exact infinity
  | minusInfinity => exact infinity.cons_of_not_startsNumber (by decide) fun _ => rfl
  | nan => exact ((taken_nil.cons_letter rfl).cons_letter rfl).cons_letter rfl

theorem taken_plus (h : Printed w) : Taken ('+' :: w) := by
  cases h with
  | numeral h => exact h.taken_signed (.inl rfl)
  | minus h =>
      exact (h.taken_signed (.inr rfl)).cons_of_not_startsNumber (by decide) fun _ => rfl
  | infinity => exact infinity.taken.cons_of_not_startsNumber (by decide) fun _ => rfl
  | minusInfinity => exact minusInfinity.taken.cons_of_not_startsNumber (by decide) fun _ => rfl
  | nan => exact nan.taken.cons_of_not_startsNumber (by decide) fun _ => rfl

end Printed

theorem taken_plusSign (v : Float) (signed : Bool) :
    Taken (Token.plusSign v signed ++ Token.numberChars v) := by
  unfold Token.plusSign
  split
  · exact (printed_numberChars v).taken_plus
  · exact (printed_numberChars v).taken

end CssStyling.Lexer

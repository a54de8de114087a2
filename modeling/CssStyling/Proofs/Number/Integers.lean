import CssStyling.Proofs.Number.Shortest

namespace CssStyling.Rounding

open Float.Model Float.Model.UnpackedFloat NumberText

variable {n m : ℕ} {q : ℤ} {negative sign : Bool} {x : Float}

theorem toInt?_of_value (h : (m : ℚ) * 2 ^ q = n) :
    (Binary.finite negative m q).toInt? = some (Binary.applySign negative n) := by
  unfold Binary.toInt? Binary.wholePart?
  cases q with
  | ofNat k =>
      have whole : m <<< k = n := by
        rw [Int.ofNat_eq_natCast, zpow_natCast] at h
        rw [Nat.shiftLeft_eq]
        exact_mod_cast h
      simp only [whole]
  | negSucc k =>
      have whole : m = n * (1 <<< (k + 1)) := by
        rw [zpow_negSucc, ← div_eq_mul_inv, div_eq_iff (by positivity)] at h
        rw [Nat.one_shiftLeft]
        exact_mod_cast h
      have pos : 0 < 1 <<< (k + 1) := by
        rw [Nat.one_shiftLeft]
        positivity
      simp only [whole, Nat.mul_mod_left, Nat.mul_div_cancel n pos, beq_self_eq_true]

theorem value_of_toInt? (h : (Binary.finite negative m q).toInt?.isSome = true) :
    ∃ n : ℕ, (m : ℚ) * 2 ^ q = n := by
  unfold Binary.toInt? Binary.wholePart? at h
  cases q with
  | ofNat k =>
      refine ⟨m * 2 ^ k, ?_⟩
      push_cast
      rw [Int.ofNat_eq_natCast, zpow_natCast]
  | negSucc k =>
      dsimp only at h
      cases hz : m % 1 <<< (k + 1) == 0 with
      | false =>
          rw [hz] at h
          cases h
      | true =>
          refine ⟨m / 1 <<< (k + 1), ?_⟩
          have whole := Nat.div_mul_cancel (Nat.dvd_of_mod_eq_zero (beq_iff_eq.mp hz))
          rw [Nat.one_shiftLeft] at whole ⊢
          rw [zpow_negSucc, ← div_eq_mul_inv, div_eq_iff (by positivity)]
          exact_mod_cast whole.symm

theorem isSome_toInt?_iff :
    (Binary.finite negative m q).toInt?.isSome = true ↔ ∃ n : ℕ, (m : ℚ) * 2 ^ q = n := by
  refine ⟨value_of_toInt?, fun ⟨n, h⟩ => ?_⟩
  rw [toInt?_of_value h]
  rfl

theorem exponent_nonneg_iff (hx : Binary.ofFloat x = .finite negative m q) :
    0 ≤ (Decimal.shortest m q).exponent ↔ (Binary.ofFloat x).toInt?.isSome = true := by
  obtain ⟨canonical, fits, -⟩ := eq_float_of_ofFloat hx
  rw [hx, isSome_toInt?_iff]
  rcases Nat.eq_zero_or_pos m with rfl | hm
  · exact ⟨fun _ => ⟨0, by simp⟩, fun _ => le_rfl⟩
  · exact shortest_whole_iff hm canonical fits

theorem magnitude_exact (h : n < 2 ^ 53) :
    ∃ m q, Binary.ofFloat (magnitude n 0) = .finite false m q ∧ (m : ℚ) * 2 ^ q = n := by
  rcases Nat.eq_zero_or_pos n with rfl | hn
  · exact ⟨0, -1074, by decide +kernel, by simp⟩
  · have canonical := canonical_ofNat hn h
    have fits : Fits (-((52 - n.log2 : ℕ) : ℤ)) := by
      unfold Fits
      omega
    have pos : 0 < n * 2 ^ (52 - n.log2) := by positivity
    refine ⟨_, _, ?_, value_ofNat n⟩
    have near := nearest_self (n * 2 ^ (52 - n.log2)) (-((52 - n.log2 : ℕ) : ℤ))
    rw [magnitude_nearest hn pos canonical fits (by rwa [zpow_zero, mul_one, ← value_ofNat n]),
      ofFloat_float false canonical fits]

theorem pack_overflow (hm : 0 < m) (hq : ¬Fits q) :
    Float.Model.pack (.finite .positive m q hm) = Float.Model.pack (.infinity .positive) := by
  unfold Fits at hq
  have biased : q + Format.binary64.exponentBias + Format.binary64.mantissaBitsWithoutImplicit =
      q + 1075 := by
    simp only [Format.exponentBias]
    omega
  have large : 2 ^ 11 ≤ (q + 1075).toNat + 1 := by omega
  have bits : UnpackedFloat.pack Format.binary64 (.finite .positive m q hm) =
      UnpackedFloat.pack Format.binary64 (.infinity .positive) := by
    simp only [UnpackedFloat.pack, biased, if_pos large]
  simp only [Float.Model.pack, bits]

theorem magnitude_large (h : 2 ^ 53 ≤ n) : magnitude n 0 = NumberText.infinity ∨
    ∃ m q, Canonical m q ∧ Fits q ∧ magnitude n 0 = float false m q ∧ 2 ^ 52 ≤ m ∧ 0 ≤ q := by
  have hn : 0 < n := Nat.lt_of_lt_of_le (by decide) h
  by_cases high : 400 < 0 + ((Nat.toDigits 10 n).length : ℤ)
  · left
    rw [zero_add] at high
    simp [magnitude, hn.ne', high]
  · obtain ⟨u, rounds, read⟩ := magnitude_rounds hn (by omega) (Int.not_lt.mp high)
    obtain ⟨m, q, hm, rfl, full, lt, hq⟩ := rounds.large (by
      rw [zpow_zero, mul_one]
      exact_mod_cast h)
    rw [read]
    by_cases fits : Fits q
    · exact .inr ⟨m, q, ⟨lt, by omega, .inl full⟩, fits, (float_pos false hm).symm, full, hq⟩
    · left
      rw [pack_overflow hm fits]
      exact eq_of_toBits (by decide +kernel)

theorem ofFloat_infinity (negative : Bool) :
    Binary.ofFloat (withSign negative NumberText.infinity) = .infinite negative := by
  cases negative <;> decide +kernel

theorem toInt?_exact (negative : Bool) {ds : List Char} (h : digitsToNat ds < 2 ^ 53) :
    (Binary.ofFloat (Written.toFloat ⟨negative, ds, [], 0⟩)).toInt? =
      some (Binary.applySign negative (digitsToNat ds)) := by
  obtain ⟨m, q, read, value⟩ := magnitude_exact h
  obtain ⟨canonical, fits, eq⟩ := eq_float_of_ofFloat read
  rw [Written.toFloat, List.append_nil]
  dsimp only
  rw [List.length_nil, Nat.cast_zero, sub_zero, eq, withSign_float negative canonical fits,
    ofFloat_float negative canonical fits, toInt?_of_value value]

theorem toInt?_large (negative : Bool) {ds : List Char} (h : 2 ^ 53 ≤ digitsToNat ds) {z : ℤ}
    (hz : (Binary.ofFloat (Written.toFloat ⟨negative, ds, [], 0⟩)).toInt? = some z) :
    2 ^ 52 ≤ |z| := by
  rw [Written.toFloat, List.append_nil] at hz
  dsimp only at hz
  rw [List.length_nil, Nat.cast_zero, sub_zero] at hz
  -- what is not infinite has a full significand and no places after the point
  rcases magnitude_large h with infinite | ⟨m, q, canonical, fits, eq, full, hq⟩
  · rw [infinite, ofFloat_infinity] at hz
    cases hz
  · obtain ⟨k, rfl⟩ := Int.eq_ofNat_of_zero_le hq
    have value : (m : ℚ) * 2 ^ (k : ℤ) = ((m * 2 ^ k : ℕ) : ℚ) := by
      push_cast
      rw [zpow_natCast]
    rw [eq, withSign_float negative canonical fits, ofFloat_float negative canonical fits,
      toInt?_of_value value] at hz
    have big : 2 ^ 52 ≤ m * 2 ^ k := full.trans (Nat.le_mul_of_pos_right m (Nat.two_pow_pos k))
    have abs : |Binary.applySign negative (m * 2 ^ k)| = (m * 2 ^ k : ℕ) := by
      unfold Binary.applySign
      split
      · rw [abs_neg, Nat.abs_cast]
      · rw [Nat.abs_cast]
    rw [← Option.some.inj hz, abs]
    exact_mod_cast big

theorem isSome_toInt?_digits {ds : List Char}
    (h : Binary.ofFloat (Written.toFloat ⟨negative, ds, [], 0⟩) = .finite sign m q) :
    (Binary.ofFloat (Written.toFloat ⟨negative, ds, [], 0⟩)).toInt?.isSome = true := by
  rcases Nat.lt_or_ge (digitsToNat ds) (2 ^ 53) with small | large
  · rw [toInt?_exact negative small]
    rfl
  · rw [Written.toFloat, List.append_nil] at h ⊢
    dsimp only at h ⊢
    rw [List.length_nil, Nat.cast_zero, sub_zero] at h ⊢
    rcases magnitude_large large with infinite | ⟨m, q, canonical, fits, eq, full, hq⟩
    · rw [infinite, ofFloat_infinity] at h
      cases h
    · obtain ⟨k, rfl⟩ := Int.eq_ofNat_of_zero_le hq
      rw [eq, withSign_float negative canonical fits, ofFloat_float negative canonical fits,
        isSome_toInt?_iff]
      exact ⟨m * 2 ^ k, by push_cast; rw [zpow_natCast]⟩

end CssStyling.Rounding

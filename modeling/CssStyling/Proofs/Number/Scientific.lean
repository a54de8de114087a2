import CssStyling.Proofs.Number.Packing
import CssStyling.Number.Reader

namespace CssStyling.Rounding

open Float.Model Float.Model.UnpackedFloat

variable {n m m₁ m₂ k : ℕ} {e q e₁ e₂ : ℤ} {v : ℚ} {u : UnpackedFloat} {x y : Float}

inductive Rounds (v : ℚ) : UnpackedFloat → Prop where
  | mk {n d : ℕ} {e : ℤ} (hd : 0 < d) (ample : Ample n d e) (value : (n : ℚ) / d * 2 ^ e = v) :
      Rounds v (roundWithAccuracy Format.binary64 .positive (n / d) e
        (accuracyOfFraction (n % d) d))

theorem Rounds.eq_finite (h : Rounds v u) (hm : 0 < m) (hc : Canonical m q)
    (near : Nearest m q v) : u = .finite .positive m q hm := by
  cases h with
  | mk hd ample value =>
      rw [← value] at near
      exact round_nearest hd ample hm hc near

theorem Rounds.whole {n : ℕ} (ample : Ample n 1 e) (value : (n : ℚ) * 2 ^ e = v) :
    Rounds v (roundWithAccuracy Format.binary64 .positive n e .exact) := by
  have h : Rounds v (roundWithAccuracy Format.binary64 .positive (n / 1) e
      (accuracyOfFraction (n % 1) 1)) :=
    .mk Nat.one_pos ample (by rw [Nat.cast_one, div_one, value])
  rwa [Nat.div_one, Nat.mod_one] at h

theorem floor_lt (m : ℕ) (q : ℤ) : floor m q < m * 2 ^ q := by
  refine mul_lt_mul_of_pos_right ?_ (two_zpow_pos q)
  split <;> linarith

theorem lt_ceiling (m : ℕ) (q : ℤ) : (m : ℚ) * 2 ^ q < ceiling m q :=
  mul_lt_mul_of_pos_right (by linarith) (two_zpow_pos q)

theorem nearest_of_between (low : floor m q < v) (high : v < ceiling m q) : Nearest m q v :=
  ⟨low.le, high.le, fun h => h.elim (fun h => absurd h low.ne') fun h => absurd h high.ne⟩

theorem nearest_self (m : ℕ) (q : ℤ) : Nearest m q (m * 2 ^ q) :=
  nearest_of_between (floor_lt m q) (lt_ceiling m q)

theorem exists_binade (hv : 0 < v) : ∃ q : ℤ, 2 ^ 52 * 2 ^ q ≤ v ∧ v < 2 ^ 53 * 2 ^ q := by
  refine ⟨Int.log 2 v - 52, ?_, ?_⟩
  · have low := Int.zpow_log_le_self (by decide : 1 < 2) hv
    rw [← zpow_ofNat, ← zpow_add₀ (by norm_num)]
    simpa using low
  · have high := Int.lt_zpow_succ_log_self (by decide : 1 < 2) v
    rw [← zpow_ofNat, ← zpow_add₀ (by norm_num)]
    refine high.trans_eq ?_
    push_cast
    congr 1
    ring

theorem Rounds.large (h : Rounds v u) (hv : 2 ^ 53 ≤ v) :
    ∃ m q hm, u = .finite .positive m q hm ∧ 2 ^ 52 ≤ m ∧ m < 2 ^ 53 ∧ 0 ≤ q := by
  obtain ⟨q, low, high⟩ := exists_binade (lt_of_lt_of_le (by norm_num) hv)
  have hq : 0 ≤ q := by
    have : (2 : ℚ) ^ (0 : ℤ) < 2 ^ q := by
      rw [zpow_zero]
      linarith
    exact ((zpow_lt_zpow_iff_right₀ (by norm_num : (1 : ℚ) < 2)).mp this).le
  cases h with
  | @mk n d e hd ample value =>
      rw [← value] at low high
      obtain ⟨le, target⟩ := target_of_bounds hd ample (by omega) (.inl low) high
      rw [scaled_eq le] at low high
      rw [roundWithAccuracy_quotient hd le target]
      have hD : 0 < 2 ^ (q - e).toNat * d := by positivity
      generalize 2 ^ (q - e).toNat * d = D at hD low high ⊢
      rw [two_pow_le_div_iff hD] at low
      rw [div_lt_two_pow_iff hD] at high
      obtain ⟨down, up⟩ := roundedMantissa_bounds n hD
      generalize (quotient n D).roundedMantissa = r at down up ⊢
      have full := low.trans down
      dsimp only
      by_cases carry : r < 2 ^ 53
      · rw [shift_canonical carry (by omega)]
        have pos : 0 < r := Nat.lt_of_lt_of_le (by decide) full
        exact ⟨r, q, pos, dif_neg pos.ne', full, carry, hq⟩
      · obtain rfl : r = 2 ^ 53 := by omega
        rw [shift_carry (by omega)]
        exact ⟨2 ^ 52, q + 1, by decide, dif_neg (show ¬2 ^ 52 = 0 by decide), le_rfl, by decide, by omega⟩

theorem Rounds.positive (h : Rounds v u) : u = .zero .positive ∨ ∃ m q hm, u = .finite .positive m q hm := by
  cases h with
  | mk hd ample value =>
      rw [roundWithAccuracy]
      dsimp only
      split
      · exact .inl rfl
      · rename_i some
        exact .inr ⟨_, _, Nat.pos_of_ne_zero some, rfl⟩

theorem toNat_pack_positive (h : u = .zero .positive ∨ ∃ m q hm, u = .finite .positive m q hm) :
    (UnpackedFloat.pack Format.binary64 u).toNat < 2 ^ 63 := by
  have components (e : BitVec 11) (f : BitVec 52) :
      (packComponents Format.binary64 .positive e f).toNat < 2 ^ 63 := by
    have he := e.isLt
    have hf := f.isLt
    rw [toNat_packComponents]
    simp only [Sign.toBitVec, BitVec.toNat_ofNat]
    omega
  rcases h with rfl | ⟨m, q, hm, rfl⟩
  · exact components 0#11 0#52
  · unfold UnpackedFloat.pack
    dsimp only
    split
    · exact components _ _
    · split
      · exact components _ _
      · exact components _ _

theorem negative_ofBits {b : ℕ} (h : b < 2 ^ 63) : (Binary.ofBits b).negative = false := by
  have sign : b.testBit 63 = false := Nat.testBit_lt_two_pow h
  unfold Binary.ofBits
  dsimp only
  rw [sign]
  split
  · split <;> rfl
  · split <;> rfl

theorem rounds_mul (e₁ e₂ : ℤ) (h₁ : 0 < m₁) (h₂ : 0 < m₂) (full : 2 ^ 52 ≤ m₁) :
    Rounds (m₁ * 2 ^ e₁ * (m₂ * 2 ^ e₂)) (UnpackedFloat.mul Format.binary64
      (.finite .positive m₁ e₁ h₁) (.finite .positive m₂ e₂ h₂)) := by
  have ample : Ample (m₁ * m₂) 1 (e₁ + e₂) := by
    rw [Ample, Nat.div_one]
    exact .inl (full.trans (Nat.le_mul_of_pos_right m₁ h₂))
  refine .whole ample ?_
  rw [zpow_add₀ (by norm_num)]
  push_cast
  ring

theorem ample_div (h₁ : 0 < m₁) (h₂ : 0 < m₂) {t : ℤ} (ht : t ≤ e₁ - e₂)
    (le : t ≤ max (m₁.log2 + e₁ - (m₂.log2 + e₂) - 53) (-1074)) :
    Ample (m₁ <<< (e₁ - e₂ - t).toNat) m₂ t := by
  by_cases least : t ≤ -1074
  · exact .inr least
  · left
    rw [Nat.le_div_iff_mul_le h₂, Nat.shiftLeft_eq]
    calc 2 ^ 52 * m₂ ≤ 2 ^ 52 * 2 ^ (m₂.log2 + 1) :=
          Nat.mul_le_mul_left _ (Nat.le_of_lt Nat.lt_log2_self)
      _ = 2 ^ (53 + m₂.log2) := by rw [← pow_add]; congr 1; omega
      _ ≤ 2 ^ (m₁.log2 + (e₁ - e₂ - t).toNat) := Nat.pow_le_pow_right (by norm_num) (by omega)
      _ = 2 ^ m₁.log2 * 2 ^ (e₁ - e₂ - t).toNat := pow_add _ _ _
      _ ≤ m₁ * 2 ^ (e₁ - e₂ - t).toNat := Nat.mul_le_mul_right _ (Nat.log2_self_le h₁.ne')

theorem rounds_div (e₁ e₂ : ℤ) (h₁ : 0 < m₁) (h₂ : 0 < m₂) :
    Rounds (m₁ * 2 ^ e₁ / (m₂ * 2 ^ e₂)) (UnpackedFloat.div Format.binary64
      (.finite .positive m₁ e₁ h₁) (.finite .positive m₂ e₂ h₂)) := by
  obtain ⟨t, ht⟩ : ∃ t, t = min (e₁ - e₂)
    (Format.binary64.targetExponent (totalExponent m₁ e₁ - totalExponent m₂ e₂)) := ⟨_, rfl⟩
  have bound : Format.binary64.targetExponent (totalExponent m₁ e₁ - totalExponent m₂ e₂) =
      max (m₁.log2 + e₁ - (m₂.log2 + e₂) - 53) (-1074) := by
    simp only [Format.targetExponent, totalExponent, Format.mantissaBits, Format.minExponent]
    norm_num
    omega
  have hle : t ≤ e₁ - e₂ := by omega
  have ample := ample_div h₁ h₂ (t := t) hle (by omega)
  have value : ((m₁ <<< (e₁ - e₂ - t).toNat : ℕ) : ℚ) / m₂ * 2 ^ t =
      m₁ * 2 ^ e₁ / (m₂ * 2 ^ e₂) := by
    obtain ⟨k, hk⟩ := Int.le.dest hle
    have he : e₁ = t + k + e₂ := by omega
    rw [show (e₁ - e₂ - t).toNat = k by omega, he, zpow_add₀ (by norm_num),
      zpow_add₀ (by norm_num), zpow_natCast, Nat.shiftLeft_eq]
    push_cast
    field_simp
  have unfolded : UnpackedFloat.div Format.binary64 (.finite .positive m₁ e₁ h₁)
      (.finite .positive m₂ e₂ h₂) = roundWithAccuracy Format.binary64 .positive
        (m₁ <<< (e₁ - e₂ - t).toNat / m₂) t
        (accuracyOfFraction (m₁ <<< (e₁ - e₂ - t).toNat % m₂) m₂) := by
    rw [ht]
    rfl
  rw [unfolded]
  exact .mk h₂ ample value

theorem rounds_ofNat (hn : 0 < n) : Rounds n (UnpackedFloat.ofNat Format.binary64 n) := by
  have compared : compare (n : ℤ) 0 = .gt := Int.compare_eq_gt.mpr (by omega)
  obtain ⟨t, ht⟩ : ∃ t, t = Format.binary64.targetExponent (totalExponent n 0) := ⟨_, rfl⟩
  have unfolded : UnpackedFloat.ofNat Format.binary64 n = roundWithAccuracy Format.binary64
      .positive (n <<< (0 - t).toNat) (0 - ((0 - t).toNat : ℤ)) .exact := by
    simp only [UnpackedFloat.ofNat, UnpackedFloat.ofInt, UnpackedFloat.normalize, compared,
      UnpackedFloat.round, decreaseExponent, Int.toNat_natCast, ← ht]
  rw [targetExponent_eq] at ht
  have value : ((n <<< (0 - t).toNat : ℕ) : ℚ) * 2 ^ (0 - ((0 - t).toNat : ℤ)) = n := by
    generalize (0 - t).toNat = k
    rw [Nat.shiftLeft_eq, zero_sub, zpow_neg, zpow_natCast]
    push_cast
    field_simp
  have ample : Ample (n <<< (0 - t).toNat) 1 (0 - ((0 - t).toNat : ℤ)) := by
    rw [Ample, Nat.div_one, Nat.shiftLeft_eq]
    by_cases least : t = -1074
    · right
      omega
    · left
      calc 2 ^ 52 ≤ 2 ^ (n.log2 + (0 - t).toNat) := Nat.pow_le_pow_right (by norm_num) (by omega)
        _ = 2 ^ n.log2 * 2 ^ (0 - t).toNat := pow_add _ _ _
        _ ≤ n * 2 ^ (0 - t).toNat := Nat.mul_le_mul_right _ (Nat.log2_self_le hn.ne')
  rw [unfolded]
  exact .whole ample value

theorem canonical_ofNat (hn : 0 < n) (h : n < 2 ^ 53) :
    Canonical (n * 2 ^ (52 - n.log2)) (-((52 - n.log2 : ℕ) : ℤ)) := by
  have log : n.log2 < 53 := (Nat.log2_lt hn.ne').mpr h
  have low := Nat.mul_le_mul_right (2 ^ (52 - n.log2)) (Nat.log2_self_le hn.ne')
  have high := Nat.mul_lt_mul_of_pos_right (Nat.lt_log2_self (n := n))
    (Nat.two_pow_pos (52 - n.log2))
  rw [← pow_add] at low high
  rw [show n.log2 + (52 - n.log2) = 52 by omega] at low
  rw [show n.log2 + 1 + (52 - n.log2) = 53 by omega] at high
  exact ⟨high, by omega, .inl low⟩

theorem value_ofNat (n : ℕ) :
    ((n * 2 ^ (52 - n.log2) : ℕ) : ℚ) * 2 ^ (-((52 - n.log2 : ℕ) : ℤ)) = n := by
  rw [zpow_neg, zpow_natCast]
  push_cast
  field_simp

structure Exactly (n : ℕ) (x : Float) (m : ℕ) (q : ℤ) : Prop where
  full : 2 ^ 52 ≤ m
  lt : m < 2 ^ 53
  le : -1074 ≤ q
  fits : Fits q
  value : (m : ℚ) * 2 ^ q = n
  eq : x = float false m q

theorem Exactly.pos (h : Exactly n x m q) : 0 < m :=
  Nat.lt_of_lt_of_le (Nat.two_pow_pos 52) h.full

theorem Exactly.unpack (h : Exactly n x m q) (hm : 0 < m) :
    x.toModel.unpack = .finite .positive m q hm := by
  rw [h.eq, float_pos false hm]
  exact unpack_pack hm ⟨h.lt, h.le, .inl h.full⟩ h.fits

theorem exactly_toFloat (hn : 0 < n) (h : n < 2 ^ 53) :
    Exactly n n.toUInt64.toFloat (n * 2 ^ (52 - n.log2)) (-((52 - n.log2 : ℕ) : ℤ)) := by
  have canonical := canonical_ofNat hn h
  have full : 2 ^ 52 ≤ n * 2 ^ (52 - n.log2) := by
    rcases canonical.full with full | least
    · exact full
    · omega
  have pos : 0 < n * 2 ^ (52 - n.log2) := Nat.lt_of_lt_of_le (Nat.two_pow_pos 52) full
  have near : Nearest (n * 2 ^ (52 - n.log2)) (-((52 - n.log2 : ℕ) : ℤ)) n := by
    have self := nearest_self (n * 2 ^ (52 - n.log2)) (-((52 - n.log2 : ℕ) : ℤ))
    rwa [value_ofNat] at self
  have word : n.toUInt64.toNat = n := UInt64.toNat_ofNat_of_lt' (by
    have : UInt64.size = 2 ^ 64 := rfl
    omega)
  have unfolded : n.toUInt64.toFloat =
      .ofModel (.pack (UnpackedFloat.ofNat Format.binary64 n.toUInt64.toNat)) := rfl
  refine ⟨full, canonical.lt, canonical.le, by unfold Fits; omega, value_ofNat n, ?_⟩
  rw [unfolded, word, (rounds_ofNat hn).eq_finite pos canonical near, float_pos false pos]
  rfl

def isExactly (n : ℕ) : Binary → Bool
  | .finite false m q => 2 ^ 52 ≤ m && m * 2 ^ q.toNat == n * 2 ^ (-q).toNat
  | _ => false

theorem exactly_of_isExactly (h : isExactly n (Binary.ofFloat x) = true) :
    ∃ m q, Exactly n x m q := by
  unfold isExactly at h
  split at h
  · rename_i m q hx
    obtain ⟨canonical, fits, eq⟩ := eq_float_of_ofFloat hx
    simp only [Bool.and_eq_true, decide_eq_true_eq, beq_iff_eq] at h
    refine ⟨m, q, h.1, canonical.lt, canonical.le, fits, ?_, eq⟩
    have value : (m : ℚ) * 2 ^ q.toNat = n * 2 ^ (-q).toNat := by exact_mod_cast h.2
    rcases Int.le_total 0 q with hq | hq
    · obtain ⟨k, rfl⟩ := Int.eq_ofNat_of_zero_le hq
      simpa using value
    · obtain ⟨k, hk⟩ := Int.eq_ofNat_of_zero_le (Int.neg_nonneg_of_nonpos hq)
      obtain rfl : q = -k := by omega
      rw [zpow_neg, zpow_natCast]
      simp at value
      field_simp
      linarith
  · cases h

theorem isExactly_powersOfTen : ∀ k : Fin Float.exactlyRepresentablePowersOfTen.size,
    isExactly (10 ^ k.val) (Binary.ofFloat Float.exactlyRepresentablePowersOfTen[k]) = true := by
  decide +kernel

theorem exactly_powerOfTen (hk : k < Float.exactlyRepresentablePowersOfTen.size) :
    ∃ m q, Exactly (10 ^ k) Float.exactlyRepresentablePowersOfTen[k] m q :=
  exactly_of_isExactly (isExactly_powersOfTen ⟨k, hk⟩)

theorem rounds_ofScientific (hn : 0 < n) (low : -(2048 + n.log2) ≤ e) (high : e ≤ 2048) :
    Rounds (n * 10 ^ e) (UnpackedFloat.ofScientific Format.binary64 n e) := by
  have notHuge : ¬e > 2 ^ Format.binary64.exponentBits := by
    simpa using high
  have notTiny : ¬e < -((2 ^ Format.binary64.exponentBits : ℤ) + n.log2) := by
    simpa using low
  rw [UnpackedFloat.ofScientific, dif_neg hn.ne', if_neg notHuge, if_neg notTiny]
  split
  · rename_i hpos
    have power : (10 : ℚ) ^ e = ((10 ^ e.toNat : ℕ) : ℚ) := by
      rw [Nat.cast_pow, Nat.cast_ofNat, ← zpow_natCast, Int.toNat_of_nonneg hpos]
    have value : ((n <<< Format.binary64.mantissaBits : ℕ) : ℚ) *
        2 ^ (-(Format.binary64.mantissaBits : ℤ)) * ((10 ^ e.toNat : ℕ) * 2 ^ (0 : ℤ)) =
        n * 10 ^ e := by
      rw [power, Nat.shiftLeft_eq, zpow_neg, zpow_natCast]
      push_cast
      field_simp
    rw [← value]
    refine rounds_mul _ _ _ _ ?_
    rw [Nat.shiftLeft_eq]
    exact Nat.le_mul_of_pos_left _ hn |>.trans' (by simp [Format.mantissaBits])
  · rename_i hneg
    have power : (10 : ℚ) ^ e = ((10 ^ (-e).toNat : ℕ) : ℚ)⁻¹ := by
      rw [Nat.cast_pow, Nat.cast_ofNat, ← zpow_natCast, ← zpow_neg]
      congr 1
      omega
    have value : (n : ℚ) * 2 ^ (0 : ℤ) / ((10 ^ (-e).toNat : ℕ) * 2 ^ (0 : ℤ)) = n * 10 ^ e := by
      rw [power, zpow_zero, mul_one, mul_one, div_eq_mul_inv]
    rw [← value]
    exact rounds_div _ _ hn _

theorem ofScientific_rounds (hn : 0 < n) (negative : Bool)
    (he : e = if negative then -(k : ℤ) else k) (low : -(2048 + n.log2) ≤ e) (high : e ≤ 2048) :
    ∃ u, Rounds (n * 10 ^ e) u ∧ Float.ofScientific n negative k = .ofModel (.pack u) := by
  unfold Float.ofScientific
  split
  · rename_i small
    obtain ⟨m, q, hm⟩ := exactly_powerOfTen (k := k) (Nat.lt_succ_of_le small.2)
    have hx := exactly_toFloat hn small.1
    have product := rounds_mul (-((52 - n.log2 : ℕ) : ℤ)) q hx.pos hm.pos hx.full
    have ratio := rounds_div (-((52 - n.log2 : ℕ) : ℤ)) q hx.pos hm.pos
    rw [hx.value, hm.value] at product ratio
    rw [← hx.unpack hx.pos, ← hm.unpack hm.pos] at product ratio
    cases negative with
    | true =>
        subst he
        refine ⟨_, ?_, rfl⟩
        rw [if_pos rfl, zpow_neg, zpow_natCast, ← div_eq_mul_inv]
        exact_mod_cast ratio
    | false =>
        subst he
        refine ⟨_, ?_, rfl⟩
        rw [if_neg (by decide), zpow_natCast]
        exact_mod_cast product
  · have sign : (if negative = true then Int.negOfNat k else Int.ofNat k) = e := by
      rw [he, Int.negOfNat_eq]
      rfl
    exact ⟨_, rounds_ofScientific hn low high, congrArg
      (fun e => Float.ofModel (Float.Model.ofScientific n e)) sign⟩

open NumberText

theorem magnitude_zero (e : ℤ) : magnitude 0 e = float false 0 e := by
  have zero : (0.0 : Float) = float false 0 e := by
    rw [float_zero]
    exact eq_of_toBits (by decide +kernel)
  simp [magnitude, zero]

theorem withSign_float (negative : Bool) (hc : Canonical m q) (hq : Fits q) :
    withSign negative (float false m q) = float negative m q := by
  cases negative with
  | false => rfl
  | true => exact neg_float hc hq

theorem lt_pow_length_toDigits (n : ℕ) : n < 10 ^ (Nat.toDigits 10 n).length :=
  (Nat.length_toDigits_le_iff (by decide) Nat.length_toDigits_pos).mp le_rfl

theorem pow_length_toDigits_le (hn : 0 < n) : 10 ^ ((Nat.toDigits 10 n).length - 1) ≤ n := by
  by_contra h
  have short : (Nat.toDigits 10 n).length - 1 ≠ 0 := by
    intro hz
    rw [hz] at h
    omega
  have := (Nat.length_toDigits_le_iff (by decide : 1 < 10) (Nat.pos_of_ne_zero short)).mpr
    (Nat.lt_of_not_le h)
  omega

theorem length_toDigits_le_log2 (n : ℕ) : (Nat.toDigits 10 n).length ≤ n.log2 + 1 := by
  refine (Nat.length_toDigits_le_iff (by decide) (Nat.succ_pos _)).mpr ?_
  exact Nat.lt_log2_self.trans_le (Nat.pow_le_pow_left (by decide) _)

theorem magnitude_rounds (hn : 0 < n) (low : -400 ≤ e + (Nat.toDigits 10 n).length)
    (high : e + (Nat.toDigits 10 n).length ≤ 400) :
    ∃ u, Rounds (n * 10 ^ e) u ∧ magnitude n e = .ofModel (.pack u) := by
  have log := length_toDigits_le_log2 n
  unfold magnitude
  dsimp only
  rw [if_neg hn.ne', if_neg (by omega), if_neg (by omega)]
  cases e with
  | ofNat k => exact ofScientific_rounds hn false rfl (by omega) (by omega)
  | negSucc k => exact ofScientific_rounds hn true rfl (by omega) (by omega)

theorem negative_magnitude (n : ℕ) (e : ℤ) : (Binary.ofFloat (magnitude n e)).negative = false := by
  have zero : (Binary.ofFloat 0.0).negative = false := by decide +kernel
  have infinite : (Binary.ofFloat infinity).negative = false := by decide +kernel
  by_cases hn : n = 0
  · subst n
    simpa [magnitude] using zero
  · by_cases high : 400 < e + (Nat.toDigits 10 n).length
    · simpa [magnitude, hn, high] using infinite
    · by_cases low : e + (Nat.toDigits 10 n).length < -400
      · simpa [magnitude, hn, high, low] using zero
      · obtain ⟨u, rounds, read⟩ := magnitude_rounds (Nat.pos_of_ne_zero hn)
          (Int.not_lt.mp low) (Int.not_lt.mp high)
        rw [read]
        exact negative_ofBits (toNat_pack_positive rounds.positive)

theorem Nearest.le (hm : 0 < m) (near : Nearest m q v) : 2 ^ (q - 1) ≤ v := by
  have one : (1 : ℚ) ≤ m := by exact_mod_cast hm
  refine le_trans ?_ near.low
  rw [zpow_sub_one₀ (by norm_num), floor, mul_comm]
  refine mul_le_mul_of_nonneg_right ?_ (two_zpow_pos q).le
  split <;> linarith

theorem two_pow_lt_ten_pow : (2 : ℚ) ^ (1075 : ℤ) < 10 ^ (400 : ℤ) :=
  calc (2 : ℚ) ^ (1075 : ℤ) = (2 ^ 43) ^ 25 := by rw [← pow_mul]; rfl
    _ < (10 ^ 16) ^ 25 := pow_lt_pow_left₀ (by norm_num) (by norm_num) (by norm_num)
    _ = 10 ^ (400 : ℤ) := by rw [← pow_mul]; rfl

theorem magnitude_nearest (hn : 0 < n) (hm : 0 < m) (hc : Canonical m q) (hq : Fits q)
    (near : Nearest m q (n * 10 ^ e)) : magnitude n e = float false m q := by
  have ten : (1 : ℚ) < 10 := by norm_num
  have two : (1 : ℚ) < 2 := by norm_num
  have lower := near.le hm
  have pos : (0 : ℚ) < 10 ^ e := zpow_pos (by norm_num) e
  unfold Fits at hq
  have hle := hc.le
  have digits := Nat.length_toDigits_pos (b := 10) (n := n)
  have high : e + (Nat.toDigits 10 n).length ≤ 400 := by
    by_contra h
    have most : ((10 : ℚ) ^ ((Nat.toDigits 10 n).length - 1)) ≤ n := by
      exact_mod_cast pow_length_toDigits_le hn
    have : (10 : ℚ) ^ (400 : ℤ) < 2 ^ (1075 : ℤ) :=
      calc (10 : ℚ) ^ (400 : ℤ) ≤ 10 ^ (((Nat.toDigits 10 n).length - 1 : ℕ) + e) :=
            zpow_le_zpow_right₀ ten.le (by omega)
        _ = 10 ^ ((Nat.toDigits 10 n).length - 1) * 10 ^ e := by
            rw [zpow_add₀ (by norm_num), zpow_natCast]
        _ ≤ n * 10 ^ e := mul_le_mul_of_nonneg_right most pos.le
        _ < 2 ^ 53 * 2 ^ q := near.lt hc
        _ = 2 ^ (q + 53) := by rw [zpow_add₀ (by norm_num), zpow_ofNat, mul_comm]
        _ ≤ 2 ^ (1075 : ℤ) := zpow_le_zpow_right₀ two.le (by omega)
    exact absurd this (not_lt_of_gt two_pow_lt_ten_pow)
  have low : -400 ≤ e + (Nat.toDigits 10 n).length := by
    by_contra h
    have least : (n : ℚ) < 10 ^ (Nat.toDigits 10 n).length := by
      exact_mod_cast lt_pow_length_toDigits n
    have : (2 : ℚ) ^ (-1075 : ℤ) < 10 ^ (-400 : ℤ) :=
      calc (2 : ℚ) ^ (-1075 : ℤ) ≤ 2 ^ (q - 1) := zpow_le_zpow_right₀ two.le (by omega)
        _ ≤ n * 10 ^ e := lower
        _ < 10 ^ (Nat.toDigits 10 n).length * 10 ^ e := mul_lt_mul_of_pos_right least pos
        _ = 10 ^ (((Nat.toDigits 10 n).length : ℕ) + e) := by
            rw [zpow_add₀ (by norm_num), zpow_natCast]
        _ ≤ 10 ^ (-400 : ℤ) := zpow_le_zpow_right₀ ten.le (by omega)
    rw [zpow_neg, zpow_neg, inv_lt_inv₀ (two_zpow_pos _) (zpow_pos (by norm_num) _)] at this
    exact absurd this (not_lt_of_gt two_pow_lt_ten_pow)
  obtain ⟨u, rounds, read⟩ := magnitude_rounds hn low high
  rw [read, rounds.eq_finite hm hc near, float_pos false hm]
  rfl

end CssStyling.Rounding

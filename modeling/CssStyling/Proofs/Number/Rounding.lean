import Mathlib

namespace CssStyling.Rounding

open Float.Model Float.Model.UnpackedFloat

variable {n d m k : ℕ} {e q : ℤ} {v : ℚ} {s : Sign}

def quotient (n d : ℕ) : ExtendedMantissa :=
  .ofMantissaAndAccuracy (n / d) (accuracyOfFraction (n % d) d)

theorem quotient_eq (n : ℕ) (hd : 0 < d) : quotient n d =
    ⟨n / d, decide (d ≤ 2 * (n % d)), decide (n % d ≠ 0 ∧ 2 * (n % d) ≠ d)⟩ := by
  unfold quotient accuracyOfFraction
  split
  · rename_i hz
    simp [ExtendedMantissa.ofMantissaAndAccuracy, hz, Nat.ne_of_gt hd]
  · rename_i hz
    cases hc : compare (2 * (n % d)) d with
    | lt =>
        have h := Nat.compare_eq_lt.mp hc
        simp [ExtendedMantissa.ofMantissaAndAccuracy, hz, h, Nat.ne_of_lt h]
    | eq =>
        have h := Nat.compare_eq_eq.mp hc
        simp [ExtendedMantissa.ofMantissaAndAccuracy, h]
    | gt =>
        have h := Nat.compare_eq_gt.mp hc
        simp [ExtendedMantissa.ofMantissaAndAccuracy, hz, Nat.le_of_lt h, Nat.ne_of_gt h]

theorem shiftRightOne_quotient (n : ℕ) (hd : 0 < d) :
    (quotient n d).shiftRightOne = quotient n (2 * d) := by
  have digit : n % (2 * d) = n % d + d * (n / d % 2) := by rw [Nat.mul_comm, Nat.mod_mul]
  have half : n / d / 2 = n / (2 * d) := by rw [Nat.div_div_eq_div_mul, Nat.mul_comm]
  have left := Nat.mod_lt n hd
  rw [quotient_eq n hd, quotient_eq n (by omega), digit, ExtendedMantissa.shiftRightOne, half]
  rcases Nat.mod_two_eq_zero_or_one (n / d) with h | h
  · simp only [h, Nat.mul_zero, Nat.add_zero, ExtendedMantissa.mk.injEq, true_and]
    constructor
    · simp [left]
    · rw [← Bool.decide_or, decide_eq_decide]
      omega
  · simp only [h, Nat.mul_one, ExtendedMantissa.mk.injEq, true_and]
    constructor
    · simp
    · rw [← Bool.decide_or, decide_eq_decide]
      omega

theorem shiftRight_quotient (n : ℕ) (hd : 0 < d) (k : ℕ) :
    quotient n d >>> k = quotient n (2 ^ k * d) := by
  induction k with
  | zero => rw [Nat.pow_zero, Nat.one_mul]; rfl
  | succ k ih =>
      have step : quotient n d >>> (k + 1) = (quotient n d >>> k).shiftRightOne := rfl
      rw [step, ih, shiftRightOne_quotient n (Nat.mul_pos (Nat.two_pow_pos k) hd), Nat.pow_succ',
        Nat.mul_assoc]

theorem roundedMantissa_eq (n : ℕ) (hd : 0 < d) : (quotient n d).roundedMantissa =
    if 2 * (n % d) < d then n / d
    else if 2 * (n % d) = d then n / d + n / d % 2 else n / d + 1 := by
  unfold quotient accuracyOfFraction
  split
  · rename_i hz
    have down : 2 * (n % d) < d := by omega
    rw [if_pos down]
    rfl
  · cases hc : compare (2 * (n % d)) d with
    | lt =>
        rw [if_pos (Nat.compare_eq_lt.mp hc)]
        rfl
    | eq =>
        have tie := Nat.compare_eq_eq.mp hc
        rw [if_neg (by omega), if_pos tie]
        rfl
    | gt =>
        have up := Nat.compare_eq_gt.mp hc
        rw [if_neg (by omega), if_neg (by omega)]
        rfl

theorem roundedMantissa_quotient (hd : 0 < d) (low : 2 * m * d ≤ 2 * n + d)
    (high : 2 * n ≤ 2 * m * d + d)
    (even : 2 * m * d = 2 * n + d ∨ 2 * n = 2 * m * d + d → m % 2 = 0) :
    (quotient n d).roundedMantissa = m := by
  have whole := Nat.div_add_mod n d
  have left := Nat.mod_lt n hd
  rw [roundedMantissa_eq n hd]
  generalize n / d = a at whole ⊢
  generalize n % d = r at whole left ⊢
  rw [show 2 * m * d = 2 * (d * m) by ring] at low high even
  have below : a ≤ m := by
    by_contra h
    have := Nat.mul_le_mul_left d (show m + 1 ≤ a by omega)
    rw [Nat.mul_add] at this
    omega
  have above : m ≤ a + 1 := by
    by_contra h
    have := Nat.mul_le_mul_left d (show a + 2 ≤ m by omega)
    rw [Nat.mul_add] at this
    omega
  rcases Nat.lt_or_ge a m with hm | hm
  · obtain rfl : m = a + 1 := by omega
    rw [Nat.mul_add, Nat.mul_one] at low high even
    split
    · omega
    · split
      · have := even (by omega)
        omega
      · rfl
  · obtain rfl : m = a := by omega
    split
    · rfl
    · split
      · have := even (by omega)
        omega
      · omega

theorem roundedMantissa_bounds (n : ℕ) (hd : 0 < d) :
    n / d ≤ (quotient n d).roundedMantissa ∧ (quotient n d).roundedMantissa ≤ n / d + 1 := by
  rw [roundedMantissa_eq n hd]
  split
  · omega
  · split <;> omega

structure Canonical (m : ℕ) (q : ℤ) : Prop where
  lt : m < 2 ^ 53
  le : -1074 ≤ q
  full : 2 ^ 52 ≤ m ∨ q = -1074

def floor (m : ℕ) (q : ℤ) : ℚ :=
  (m - if m = 2 ^ 52 ∧ q ≠ -1074 then 1 / 4 else 1 / 2) * 2 ^ q

def ceiling (m : ℕ) (q : ℤ) : ℚ :=
  (m + 1 / 2) * 2 ^ q

structure Nearest (m : ℕ) (q : ℤ) (v : ℚ) : Prop where
  low : floor m q ≤ v
  high : v ≤ ceiling m q
  even : v = floor m q ∨ v = ceiling m q → m % 2 = 0

theorem targetExponent_eq (m : ℕ) (e : ℤ) :
    Format.binary64.targetExponent (totalExponent m e) = max (m.log2 + e - 52) (-1074) := by
  simp only [Format.targetExponent, totalExponent, Format.mantissaBits, Format.minExponent]
  norm_num
  omega

def Ample (n d : ℕ) (e : ℤ) : Prop :=
  2 ^ 52 ≤ n / d ∨ e ≤ -1074

theorem two_zpow_pos (q : ℤ) : (0 : ℚ) < 2 ^ q :=
  zpow_pos (by norm_num) q

theorem scaled_eq {t : ℤ} (h : e ≤ t) :
    (n : ℚ) / d * 2 ^ e = n / ((2 ^ (t - e).toNat * d : ℕ) : ℚ) * 2 ^ t := by
  obtain ⟨k, rfl⟩ := Int.le.dest h
  rw [show (e + k - e).toNat = k by omega, zpow_add₀ (by norm_num), zpow_natCast, Nat.cast_mul,
    Nat.cast_pow, Nat.cast_ofNat]
  field_simp

theorem shift_quotient {t : ℤ} (hd : 0 < d) (h : e ≤ t)
    (ht : Format.binary64.targetExponent (totalExponent (n / d) e) = t) :
    shiftToTargetExponent Format.binary64 (n / d) e (accuracyOfFraction (n % d) d) =
      (quotient n (2 ^ (t - e).toNat * d), t) := by
  have exponent : e + (t - e).toNat = t := by omega
  simp only [shiftToTargetExponent, shiftToExponent, ht, exponent]
  exact congrArg (·, t) (shiftRight_quotient n hd _)

theorem two_pow_le_div_iff (hd : 0 < d) :
    2 ^ k * 2 ^ q ≤ (n : ℚ) / d * 2 ^ q ↔ 2 ^ k ≤ n / d := by
  have hdq : (0 : ℚ) < d := by exact_mod_cast hd
  rw [mul_le_mul_iff_left₀ (two_zpow_pos q), le_div_iff₀ hdq, Nat.le_div_iff_mul_le hd]
  exact_mod_cast Iff.rfl

theorem div_lt_two_pow_iff (hd : 0 < d) :
    (n : ℚ) / d * 2 ^ q < 2 ^ k * 2 ^ q ↔ n / d < 2 ^ k := by
  have hdq : (0 : ℚ) < d := by exact_mod_cast hd
  rw [mul_lt_mul_iff_left₀ (two_zpow_pos q), div_lt_iff₀ hdq, Nat.div_lt_iff_lt_mul hd]
  exact_mod_cast Iff.rfl

theorem target_of_bounds (hd : 0 < d) (ample : Ample n d e) (hq : -1074 ≤ q)
    (low : 2 ^ 52 * 2 ^ q ≤ (n : ℚ) / d * 2 ^ e ∨ q = -1074)
    (high : (n : ℚ) / d * 2 ^ e < 2 ^ 53 * 2 ^ q) :
    e ≤ q ∧ Format.binary64.targetExponent (totalExponent (n / d) e) = q := by
  have le : e ≤ q := by
    rcases ample with bits | le
    · have := (two_pow_le_div_iff (q := e) hd).mpr bits
      have lt : (2 : ℚ) ^ e < 2 ^ (q + 1) := by
        rw [zpow_add₀ (by norm_num), zpow_one]
        linarith
      have := (zpow_lt_zpow_iff_right₀ (by norm_num : (1 : ℚ) < 2)).mp lt
      omega
    · omega
  refine ⟨le, ?_⟩
  rw [scaled_eq le] at low high
  generalize hk : (q - e).toNat = k at low high
  have hD : 0 < 2 ^ k * d := by positivity
  have cut : n / (2 ^ k * d) = n / d / 2 ^ k := by rw [Nat.div_div_eq_div_mul, Nat.mul_comm]
  rw [two_pow_le_div_iff hD, cut, Nat.le_div_iff_mul_le (Nat.two_pow_pos k), ← pow_add] at low
  rw [div_lt_two_pow_iff hD, cut, Nat.div_lt_iff_lt_mul (Nat.two_pow_pos k), ← pow_add] at high
  rw [targetExponent_eq]
  rcases low with low | rfl
  · have pos : n / d ≠ 0 := by
      have := Nat.two_pow_pos (52 + k)
      omega
    have log : (n / d).log2 = 52 + k := (Nat.log2_eq_iff pos).mpr ⟨low, by
      rwa [show 52 + k + 1 = 53 + k by omega]⟩
    rw [log]
    omega
  · have log : (n / d).log2 < 53 + k := by
      by_cases pos : n / d = 0
      · rw [pos, Nat.log2_zero]
        omega
      · exact (Nat.log2_lt pos).mpr high
    omega

theorem shift_canonical (hm : m < 2 ^ 53) (hq : -1074 ≤ q) :
    shiftToTargetExponent Format.binary64 m q .exact = (⟨m, false, false⟩, q) := by
  have log : m.log2 < 53 := by
    by_cases pos : m = 0
    · rw [pos, Nat.log2_zero]
      omega
    · exact (Nat.log2_lt pos).mpr hm
  have none : (Format.binary64.targetExponent (totalExponent m q) - q).toNat = 0 := by
    rw [targetExponent_eq]
    omega
  simp only [shiftToTargetExponent, shiftToExponent, none, Nat.cast_zero, add_zero]
  rfl

theorem shift_carry (hq : -1074 ≤ q) :
    shiftToTargetExponent Format.binary64 (2 ^ 53) q .exact = (⟨2 ^ 52, false, false⟩, q + 1) := by
  have one : Format.binary64.targetExponent (totalExponent (2 ^ 53) q) = q + 1 := by
    rw [targetExponent_eq, Nat.log2_two_pow]
    omega
  simp only [shiftToTargetExponent, shiftToExponent, one, show (q + 1 - q).toNat = 1 by omega]
  rfl

theorem rounded_of_nearest (hd : 0 < d) (low : (m : ℚ) - 1 / 2 ≤ n / d)
    (high : (n : ℚ) / d ≤ m + 1 / 2)
    (even : (n : ℚ) / d = m - 1 / 2 ∨ (n : ℚ) / d = m + 1 / 2 → m % 2 = 0) :
    (quotient n d).roundedMantissa = m := by
  have hdq : (0 : ℚ) < d := by exact_mod_cast hd
  rw [le_div_iff₀ hdq] at low
  rw [div_le_iff₀ hdq] at high
  rw [div_eq_iff hdq.ne', div_eq_iff hdq.ne'] at even
  have low' : (2 * m * d : ℚ) ≤ 2 * n + d := by linarith
  have high' : (2 * n : ℚ) ≤ 2 * m * d + d := by linarith
  refine roundedMantissa_quotient hd (by exact_mod_cast low') (by exact_mod_cast high') ?_
  intro h
  refine even (h.imp (fun h => ?_) fun h => ?_)
  · have : (2 * m * d : ℚ) = 2 * n + d := by exact_mod_cast h
    linarith
  · have : (2 * n : ℚ) = 2 * m * d + d := by exact_mod_cast h
    linarith

theorem roundWithAccuracy_quotient {t : ℤ} (hd : 0 < d) (h : e ≤ t)
    (ht : Format.binary64.targetExponent (totalExponent (n / d) e) = t) :
    roundWithAccuracy Format.binary64 s (n / d) e (accuracyOfFraction (n % d) d) =
      let rounded := (quotient n (2 ^ (t - e).toNat * d)).roundedMantissa
      let final := shiftToTargetExponent Format.binary64 rounded t .exact
      if h : final.1.mantissa = 0 then .zero s
      else .finite s final.1.mantissa final.2 (Nat.pos_of_ne_zero h) := by
  rw [roundWithAccuracy, shift_quotient hd h ht]

theorem Nearest.lt (hc : Canonical m q) (near : Nearest m q v) : v < 2 ^ 53 * 2 ^ q := by
  have lt : (m : ℚ) + 1 ≤ 2 ^ 53 := by exact_mod_cast hc.lt
  have := mul_le_mul_of_nonneg_right lt (two_zpow_pos q).le
  have high := near.high
  have pos := two_zpow_pos q
  unfold ceiling at high
  linarith

theorem rounded_within (hd : 0 < d) (le : e ≤ q) (near : Nearest m q ((n : ℚ) / d * 2 ^ e)) :
    (quotient n (2 ^ (q - e).toNat * d)).roundedMantissa = m := by
  obtain ⟨low, high, even⟩ := near
  have pos := two_zpow_pos q
  have hD : 0 < 2 ^ (q - e).toNat * d := by positivity
  unfold floor at low even
  unfold ceiling at high even
  rw [scaled_eq le] at low high even
  have half : (m : ℚ) - 1 / 2 ≤ m - if m = 2 ^ 52 ∧ q ≠ -1074 then 1 / 4 else 1 / 2 := by
    split <;> linarith
  refine rounded_of_nearest hD (half.trans (le_of_mul_le_mul_right low pos))
    (le_of_mul_le_mul_right high pos) ?_
  rintro (h | h)
  · by_cases narrow : m = 2 ^ 52 ∧ q ≠ -1074
    · norm_num [narrow.1]
    · rw [if_neg narrow, h] at even
      exact even (.inl rfl)
  · rw [h] at even
    exact even (.inr rfl)

theorem Nearest.under (hc : Canonical m q) (near : Nearest m q v) (under : v < 2 ^ 52 * 2 ^ q)
    (normal : q ≠ -1074) : m = 2 ^ 52 ∧ (2 ^ 53 - 1 / 2) * 2 ^ (q - 1) ≤ v ∧
      v < 2 ^ 53 * 2 ^ (q - 1) := by
  have low := near.low
  have full := hc.full.resolve_right normal
  have least : m = 2 ^ 52 := by
    by_contra more
    have : (2 ^ 52 : ℚ) + 1 ≤ m := by exact_mod_cast (by omega : 2 ^ 52 + 1 ≤ m)
    have := mul_le_mul_of_nonneg_right this (two_zpow_pos q).le
    have pos := two_zpow_pos q
    rw [floor, if_neg fun h => more h.1] at low
    linarith
  have two : (2 : ℚ) ^ q = 2 * 2 ^ (q - 1) := by
    rw [zpow_sub_one₀ (by norm_num)]
    ring
  rw [floor, if_pos ⟨least, normal⟩, least, two] at low
  rw [two] at under
  push_cast at low
  exact ⟨least, by linarith, by linarith⟩

theorem rounded_under (hd : 0 < d) (le : e ≤ q)
    (low : (2 ^ 53 - 1 / 2) * 2 ^ q ≤ (n : ℚ) / d * 2 ^ e)
    (under : (n : ℚ) / d * 2 ^ e < 2 ^ 53 * 2 ^ q) :
    (quotient n (2 ^ (q - e).toNat * d)).roundedMantissa = 2 ^ 53 := by
  have pos := two_zpow_pos q
  have hD : 0 < 2 ^ (q - e).toNat * d := by positivity
  rw [scaled_eq le] at low under
  refine rounded_of_nearest hD (le_of_mul_le_mul_right ?_ pos) (le_of_mul_le_mul_right ?_ pos)
    fun _ => rfl
  · push_cast at low ⊢
    linarith
  · push_cast at under ⊢
    linarith

theorem round_nearest (hd : 0 < d) (ample : Ample n d e) (hm : 0 < m) (hc : Canonical m q)
    (near : Nearest m q ((n : ℚ) / d * 2 ^ e)) :
    roundWithAccuracy Format.binary64 s (n / d) e (accuracyOfFraction (n % d) d) =
      .finite s m q hm := by
  by_cases binade : 2 ^ 52 * 2 ^ q ≤ (n : ℚ) / d * 2 ^ e ∨ q = -1074
  · -- no power of two separates the quotient from the float
    obtain ⟨le, target⟩ := target_of_bounds hd ample hc.le binade (near.lt hc)
    rw [roundWithAccuracy_quotient hd le target]
    simp only [rounded_within hd le near, shift_canonical hc.lt hc.le, hm.ne', dite_false]
  · rw [not_or, not_le] at binade
    obtain ⟨under, normal⟩ := binade
    obtain ⟨rfl, low, high⟩ := near.under hc under normal
    have finer : -1074 ≤ q - 1 := by
      have := hc.le
      omega
    have pos := two_zpow_pos (q - 1)
    obtain ⟨le, target⟩ := target_of_bounds hd ample finer (.inl (by linarith)) high
    rw [roundWithAccuracy_quotient hd le target]
    simp only [rounded_under hd le low high, shift_carry finer]
    simp

end CssStyling.Rounding

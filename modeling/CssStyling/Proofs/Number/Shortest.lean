import CssStyling.Proofs.Number.Scientific

namespace CssStyling.Rounding

variable {m n : ℕ} {q t e : ℤ} {r : RoundingInterval}

structure Measures (r : RoundingInterval) (m : ℕ) (q t : ℤ) : Prop where
  pos : 0 < r.denominator
  low : (r.low : ℚ) * 10 ^ t = floor m q * r.denominator
  value : (r.value : ℚ) * 10 ^ t = m * 2 ^ q * r.denominator
  high : (r.high : ℚ) * 10 ^ t = ceiling m q * r.denominator
  closed : r.closed = true ↔ m % 2 = 0

theorem ten_zpow_pos (t : ℤ) : (0 : ℚ) < 10 ^ t :=
  zpow_pos (by norm_num) t

theorem quarters_below (hm : 0 < m) (q : ℤ) :
    (((if m = Binary.hiddenBit ∧ q ≠ -1074 then 4 * m - 1 else 4 * m - 2 : ℕ) : ℚ)) =
      4 * (m - if m = 2 ^ 52 ∧ q ≠ -1074 then 1 / 4 else 1 / 2) := by
  have hidden : Binary.hiddenBit = 2 ^ 52 := rfl
  rw [hidden]
  split <;>
  · rw [Nat.cast_sub (by omega)]
    push_cast
    ring

theorem measures_ofFinite (hm : 0 < m) (q : ℤ) :
    Measures (RoundingInterval.ofFinite m q) m q 0 := by
  have low := quarters_below hm q
  have quarter : (2 : ℚ) ^ q = 4 * 2 ^ (q - 2) := by
    rw [zpow_sub₀ (by norm_num)]
    norm_num
    ring
  unfold RoundingInterval.ofFinite
  dsimp only
  cases hq : q - 2 with
  | ofNat k =>
      rw [hq, Int.ofNat_eq_natCast, zpow_natCast] at quarter
      have shift (n : ℕ) : ((n <<< k : ℕ) : ℚ) = n * 2 ^ k := by
        rw [Nat.shiftLeft_eq]
        push_cast
        ring
      refine ⟨Nat.one_pos, ?_, ?_, ?_, by simp⟩
      · rw [zpow_zero, mul_one, shift, low, floor, quarter]
        push_cast
        ring
      · rw [zpow_zero, mul_one, shift, quarter]
        push_cast
        ring
      · rw [zpow_zero, mul_one, shift, ceiling, quarter]
        push_cast
        ring
  | negSucc k =>
      rw [hq, zpow_negSucc] at quarter
      have shift : ((1 <<< (k + 1) : ℕ) : ℚ) = 2 ^ (k + 1) := by
        rw [Nat.shiftLeft_eq]
        push_cast
        ring
      refine ⟨by simp, ?_, ?_, ?_, by simp⟩
      · rw [zpow_zero, mul_one, shift, low, floor, quarter]
        field_simp
      · rw [zpow_zero, mul_one, shift, quarter]
        push_cast
        field_simp
      · rw [zpow_zero, mul_one, shift, ceiling, quarter]
        push_cast
        field_simp
        ring

theorem Measures.inUnits (h : Measures r m q 0) (t : ℤ) : Measures (r.inUnits t) m q t := by
  obtain ⟨pos, low, value, high, closed⟩ := h
  rw [zpow_zero, mul_one] at low value high
  unfold RoundingInterval.inUnits
  cases t with
  | ofNat k =>
      have scale : ((r.denominator * Nat.pow 10 k : ℕ) : ℚ) =
          r.denominator * 10 ^ Int.ofNat k := by
        simp
      refine ⟨Nat.mul_pos pos (Nat.pow_pos (by decide)), ?_, ?_, ?_, closed⟩
      · rw [scale, low, mul_assoc]
      · rw [scale, value, mul_assoc]
      · rw [scale, high, mul_assoc]
  | negSucc k =>
      have scale (n : ℕ) : ((n * Nat.pow 10 (k + 1) : ℕ) : ℚ) * 10 ^ Int.negSucc k = n := by
        rw [zpow_negSucc]
        simp
      refine ⟨pos, ?_, ?_, ?_, closed⟩
      · rw [scale, low]
      · rw [scale, value]
      · rw [scale, high]

theorem Measures.nearest (h : Measures r m q t) (hn : r.holds n = true) :
    Nearest m q (n * 10 ^ t) := by
  have pos : (0 : ℚ) < r.denominator := by exact_mod_cast h.pos
  have ten := ten_zpow_pos t
  have scaled : ((n * r.denominator : ℕ) : ℚ) * 10 ^ t = n * 10 ^ t * r.denominator := by
    push_cast
    ring
  unfold RoundingInterval.holds at hn
  dsimp only at hn
  split at hn
  · rename_i hc
    rw [Bool.and_eq_true, decide_eq_true_eq, decide_eq_true_eq] at hn
    refine ⟨le_of_mul_le_mul_right ?_ pos, le_of_mul_le_mul_right ?_ pos,
      fun _ => h.closed.mp hc⟩
    · rw [← h.low, ← scaled]
      exact mul_le_mul_of_nonneg_right (by exact_mod_cast hn.1) ten.le
    · rw [← h.high, ← scaled]
      exact mul_le_mul_of_nonneg_right (by exact_mod_cast hn.2) ten.le
  · rw [Bool.and_eq_true, decide_eq_true_eq, decide_eq_true_eq] at hn
    have low : floor m q < n * 10 ^ t := by
      refine lt_of_mul_lt_mul_right ?_ pos.le
      rw [← h.low, ← scaled]
      exact mul_lt_mul_of_pos_right (by exact_mod_cast hn.1) ten
    have high : n * 10 ^ t < ceiling m q := by
      refine lt_of_mul_lt_mul_right ?_ pos.le
      rw [← h.high, ← scaled]
      exact mul_lt_mul_of_pos_right (by exact_mod_cast hn.2) ten
    exact nearest_of_between low high

theorem Measures.holds (h : Measures r m q t) (low : floor m q < n * 10 ^ t)
    (high : n * 10 ^ t < ceiling m q) : r.holds n = true := by
  have pos : (0 : ℚ) < r.denominator := by exact_mod_cast h.pos
  have ten := ten_zpow_pos t
  have scaled : ((n * r.denominator : ℕ) : ℚ) * 10 ^ t = n * 10 ^ t * r.denominator := by
    push_cast
    ring
  have low' : r.low < n * r.denominator := by
    have := mul_lt_mul_of_pos_right low pos
    rw [← h.low, ← scaled] at this
    exact_mod_cast lt_of_mul_lt_mul_right this ten.le
  have high' : n * r.denominator < r.high := by
    have := mul_lt_mul_of_pos_right high pos
    rw [← h.high, ← scaled] at this
    exact_mod_cast lt_of_mul_lt_mul_right this ten.le
  unfold RoundingInterval.holds
  dsimp only
  split
  · simp [low'.le, high'.le]
  · simp [low', high']

theorem holds_of_nearest? (h : r.nearest? = some n) : r.holds n = true := by
  unfold RoundingInterval.nearest? at h
  dsimp only at h
  split at h
  · split at h <;> cases h <;> assumption
  · cases h
    assumption
  · cases h
    assumption
  · cases h

theorem isSome_nearest? (h : r.holds (r.value / r.denominator) = true ∨
    r.holds (r.value / r.denominator + 1) = true) : r.nearest?.isSome = true := by
  unfold RoundingInterval.nearest?
  dsimp only
  split
  · split <;> rfl
  · rfl
  · rfl
  · rename_i h₁ h₂
    rw [h₁, h₂] at h
    simp at h

theorem search_found (steps : ℕ) (he : e ≤ t) (hs : t < e + steps)
    (h : (r.inUnits e).nearest?.isSome = true) :
    e ≤ (r.search steps t).exponent ∧
      (r.inUnits (r.search steps t).exponent).holds (r.search steps t).digits = true := by
  induction steps generalizing t with
  | zero => omega
  | succ steps ih =>
      rw [RoundingInterval.search]
      cases hn : (r.inUnits t).nearest? with
      | some n => exact ⟨he, holds_of_nearest? hn⟩
      | none =>
          have ne : e ≠ t := by
            rintro rfl
            rw [hn] at h
            cases h
          exact ih (by omega) (by push_cast at hs; omega)

theorem Measures.isSome_of_fine (h : Measures r m q t) (fine : (10 : ℚ) ^ t < 2 ^ (q - 1)) :
    r.nearest?.isSome = true := by
  refine isSome_nearest? (.inr ?_)
  have pos : (0 : ℚ) < r.denominator := by exact_mod_cast h.pos
  have two := two_zpow_pos q
  have ten := ten_zpow_pos t
  rw [zpow_sub_one₀ (by norm_num)] at fine
  have below : ((r.value / r.denominator : ℕ) : ℚ) * r.denominator ≤ r.value := by
    exact_mod_cast Nat.div_mul_le_self r.value r.denominator
  have above : (r.value : ℚ) <
      ((r.value / r.denominator + 1 : ℕ) : ℚ) * r.denominator := by
    exact_mod_cast Nat.lt_mul_of_div_lt (Nat.lt_succ_self _) h.pos
  have cut := (mul_le_mul_of_nonneg_right below ten.le).trans_eq h.value
  have next := h.value.symm.trans_lt (mul_lt_mul_of_pos_right above ten)
  refine h.holds ?_ ?_
  · refine lt_of_mul_lt_mul_right (lt_of_le_of_lt ?_ (next.trans_eq (by ring))) pos.le
    exact mul_le_mul_of_nonneg_right (nearest_self m q).low pos.le
  · refine lt_of_mul_lt_mul_right ?_ pos.le
    have width : ceiling m q = m * 2 ^ q + 2 ^ q * 2⁻¹ := by
      rw [ceiling]
      ring
    have fine' := mul_lt_mul_of_pos_right fine pos
    rw [width]
    push_cast
    linarith

theorem ten_zpow_lt_two_zpow {k : ℤ} (h : 100000 * t ≤ 30103 * k - 2200000) (low : -1100 ≤ k)
    (high : k ≤ 1100) : (10 : ℚ) ^ t < 2 ^ (k - 54) := by
  rcases Int.le_total 0 t with ht | ht
  · refine lt_of_pow_lt_pow_left₀ 3 (two_zpow_pos _).le ?_
    calc ((10 : ℚ) ^ t) ^ 3 = (10 ^ 3) ^ t := by rw [← zpow_natCast, zpow_comm]; norm_num
      _ ≤ (2 ^ 10) ^ t := zpow_le_zpow_left₀ ht (by norm_num) (by norm_num)
      _ = 2 ^ (10 * t) := by rw [zpow_mul]; norm_num
      _ < 2 ^ ((k - 54) * 3) := zpow_lt_zpow_right₀ (by norm_num) (by omega)
      _ = (2 ^ (k - 54)) ^ 3 := by rw [zpow_mul]; norm_cast
  · refine lt_of_pow_lt_pow_left₀ 28 (two_zpow_pos _).le ?_
    calc ((10 : ℚ) ^ t) ^ 28 = ((10 ^ 28) ^ (-t))⁻¹ := by
          rw [← zpow_natCast, zpow_comm, zpow_neg, inv_inv]
          norm_num
      _ ≤ ((2 ^ 93) ^ (-t))⁻¹ := by
          refine inv_anti₀ (zpow_pos (by norm_num) _) ?_
          exact zpow_le_zpow_left₀ (by omega) (by norm_num) (by norm_num)
      _ = 2 ^ (93 * t) := by rw [zpow_neg, inv_inv, zpow_mul]; norm_num
      _ < 2 ^ ((k - 54) * 28) := zpow_lt_zpow_right₀ (by norm_num) (by omega)
      _ = (2 ^ (k - 54)) ^ 28 := by rw [zpow_mul]; norm_cast

theorem fine_below_top (hm : 0 < m) (hc : Canonical m q) (hq : Fits q)
    (h : t + 23 ≤ Decimal.topExponent m q) : (10 : ℚ) ^ t < 2 ^ (q - 1) := by
  have log : m.log2 < 53 := (Nat.log2_lt hm.ne').mpr hc.lt
  have le := hc.le
  unfold Fits at hq
  unfold Decimal.topExponent at h
  refine (ten_zpow_lt_two_zpow (k := m.log2 + 1 + q) (by omega) (by omega) (by omega)).trans_le ?_
  exact zpow_le_zpow_right₀ (by norm_num) (by omega)

theorem search_top (hm : 0 < m) (hc : Canonical m q) (hq : Fits q) :
    let d := (RoundingInterval.ofFinite m q).search 24 (Decimal.topExponent m q)
    Decimal.topExponent m q - 23 ≤ d.exponent ∧
      ((RoundingInterval.ofFinite m q).inUnits d.exponent).holds d.digits = true := by
  have fine := fine_below_top hm hc hq (t := Decimal.topExponent m q - 23) (by omega)
  exact search_found 24 (by omega) (by omega)
    (((measures_ofFinite hm q).inUnits _).isSome_of_fine fine)

theorem value_trimZero (d : Decimal) :
    (d.trimZero.digits : ℚ) * 10 ^ d.trimZero.exponent = d.digits * 10 ^ d.exponent := by
  unfold Decimal.trimZero
  split
  · rename_i h
    have whole : (d.digits : ℚ) = 10 * (d.digits / 10 : ℕ) := by
      exact_mod_cast (Nat.mul_div_cancel' (Nat.dvd_of_mod_eq_zero h)).symm
    rw [zpow_add₀ (by norm_num), zpow_one, whole]
    ring
  · rfl

theorem shortest_nearest (hm : 0 < m) (hc : Canonical m q) (hq : Fits q) :
    let d := Decimal.shortest m q
    0 < d.digits ∧ Nearest m q (d.digits * 10 ^ d.exponent) := by
  have near := ((measures_ofFinite hm q).inUnits _).nearest (search_top hm hc hq).2
  dsimp only
  rw [← value_trimZero] at near
  rw [Decimal.shortest, if_neg hm.ne']
  refine ⟨Nat.pos_of_ne_zero fun h => ?_, near⟩
  rw [h, Nat.cast_zero, zero_mul] at near
  exact absurd (near.le hm) (not_le_of_gt (two_zpow_pos _))

theorem eq_of_nearest_natCast (near : Nearest m q n) (hq : q ≤ 0) : (m : ℚ) * 2 ^ q = n := by
  obtain ⟨k, hk⟩ := Int.eq_ofNat_of_zero_le (Int.neg_nonneg_of_nonpos hq)
  obtain rfl : q = -k := by omega
  have pos := two_zpow_pos (-(k : ℤ))
  have scale : (n : ℚ) = ((n * 2 ^ k : ℕ) : ℚ) * 2 ^ (-(k : ℤ)) := by
    rw [zpow_neg, zpow_natCast]
    push_cast
    field_simp
  obtain ⟨low, high, -⟩ := near
  unfold floor at low
  unfold ceiling at high
  rw [scale] at low high ⊢
  have low' := le_of_mul_le_mul_right low pos
  have high' := le_of_mul_le_mul_right high pos
  have below : (m : ℚ) < (n * 2 ^ k : ℕ) + 1 := by
    split at low' <;> linarith
  have above : ((n * 2 ^ k : ℕ) : ℚ) < m + 1 := by linarith
  have below' : m < n * 2 ^ k + 1 := by exact_mod_cast below
  have above' : n * 2 ^ k < m + 1 := by exact_mod_cast above
  obtain rfl : m = n * 2 ^ k := by omega
  rfl

theorem Measures.isSome_of_value (h : Measures r m q 0) (value : (m : ℚ) * 2 ^ q = n) :
    r.nearest?.isSome = true := by
  have whole : r.value = n * r.denominator := by
    have := h.value
    rw [zpow_zero, mul_one, value] at this
    exact_mod_cast this
  refine isSome_nearest? (.inl ?_)
  rw [whole, Nat.mul_div_cancel n h.pos]
  refine h.holds ?_ ?_
  · rw [zpow_zero, mul_one, ← value]
    exact floor_lt m q
  · rw [zpow_zero, mul_one, ← value]
    exact lt_ceiling m q

theorem topExponent_pos (hn : 0 < n) (value : (m : ℚ) * 2 ^ q = n) :
    0 < Decimal.topExponent m q := by
  have one : (2 : ℚ) ^ (0 : ℤ) ≤ n := by
    rw [zpow_zero]
    exact_mod_cast hn
  have lt : (m : ℚ) < 2 ^ ((m.log2 : ℤ) + 1) := by
    exact_mod_cast Nat.lt_log2_self (n := m)
  have : (2 : ℚ) ^ (0 : ℤ) < 2 ^ ((m.log2 : ℤ) + 1 + q) :=
    calc (2 : ℚ) ^ (0 : ℤ) ≤ m * 2 ^ q := one.trans_eq value.symm
      _ < 2 ^ ((m.log2 : ℤ) + 1) * 2 ^ q := mul_lt_mul_of_pos_right lt (two_zpow_pos q)
      _ = 2 ^ ((m.log2 : ℤ) + 1 + q) := by rw [← zpow_add₀ (by norm_num)]
  have pos := (zpow_lt_zpow_iff_right₀ (by norm_num : (1 : ℚ) < 2)).mp this
  unfold Decimal.topExponent
  omega

theorem exponent_le_trimZero (d : Decimal) : d.exponent ≤ d.trimZero.exponent := by
  unfold Decimal.trimZero
  split
  · exact Int.le_add_one le_rfl
  · exact le_rfl

theorem shortest_whole_iff (hm : 0 < m) (hc : Canonical m q) (hq : Fits q) :
    0 ≤ (Decimal.shortest m q).exponent ↔ ∃ n : ℕ, (m : ℚ) * 2 ^ q = n := by
  constructor
  · intro he
    obtain ⟨-, near⟩ := shortest_nearest hm hc hq
    obtain ⟨k, hk⟩ := Int.eq_ofNat_of_zero_le he
    rcases Int.le_total q 0 with hle | hle
    · refine ⟨(Decimal.shortest m q).digits * 10 ^ k, eq_of_nearest_natCast ?_ hle⟩
      rw [hk, zpow_natCast] at near
      exact_mod_cast near
    · obtain ⟨j, rfl⟩ := Int.eq_ofNat_of_zero_le hle
      exact ⟨m * 2 ^ j, by push_cast; rw [zpow_natCast]⟩
  · rintro ⟨n, value⟩
    have hn : 0 < n := by
      rw [← Nat.cast_pos (α := ℚ), ← value]
      exact mul_pos (by exact_mod_cast hm) (two_zpow_pos q)
    have top := topExponent_pos hn value
    rw [Decimal.shortest, if_neg hm.ne']
    refine le_trans ?_ (exponent_le_trimZero _)
    rcases Int.le_total 23 (Decimal.topExponent m q) with far | close
    · have := (search_top hm hc hq).1
      omega
    · exact (search_found 24 (e := 0) (by omega) (by omega)
        (((measures_ofFinite hm q).inUnits 0).isSome_of_value value)).1

end CssStyling.Rounding

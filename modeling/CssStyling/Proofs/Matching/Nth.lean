import CssStyling.Matching.Nth
import Mathlib

namespace CssStyling.Nth

variable {p : Nth} {n a b : Int} {ts : List Token} {x : Float}

theorem exists_multiple_iff (ha : a ≠ 0) :
    (n.tmod a = 0 ∧ 0 ≤ n.tdiv a) ↔ ∃ k : ℕ, a * k = n := by
  constructor
  · rintro ⟨hmod, hdiv⟩
    obtain ⟨k, hk⟩ := Int.eq_ofNat_of_zero_le hdiv
    refine ⟨k, ?_⟩
    have whole := Int.mul_tdiv_add_tmod n a
    rwa [hmod, add_zero, hk] at whole
  · rintro ⟨k, rfl⟩
    rw [Int.mul_tmod_right, Int.mul_tdiv_cancel_left _ ha]
    exact ⟨rfl, Int.natCast_nonneg k⟩

theorem selects_iff (h : fitsWord (n - p.offset) = true) :
    p.selects n = true ↔ ∃ k : ℕ, p.step * k + p.offset = n := by
  unfold selects
  split
  · rename_i hstep
    simp only [hstep, zero_mul, zero_add, exists_const, beq_iff_eq]
    exact eq_comm
  · rename_i hstep
    have shifted (k : ℕ) : p.step * k + p.offset = n ↔ p.step * k = n - p.offset :=
      ⟨fun hk => by omega, fun hk => by omega⟩
    simp only [h, Bool.true_and, Bool.and_eq_true, beq_iff_eq, decide_eq_true_eq]
    rw [exists_multiple_iff hstep]
    exact exists_congr fun k => (shifted k).symm

structure Limited (p : Nth) : Prop where
  step : |p.step| ≤ coefficientLimit
  offset : |p.offset| ≤ coefficientLimit

theorem limited?_eq_some : limited? a = some b ↔ a = b ∧ |a| ≤ coefficientLimit := by
  simp [limited?, abs_le, and_comm]

theorem abs_le_of_coefficient? (h : coefficient? x = some a) : |a| ≤ coefficientLimit := by
  obtain ⟨b, -, hb⟩ := Option.bind_eq_some_iff.mp h
  obtain ⟨rfl, hle⟩ := limited?_eq_some.mp hb
  exact hle

theorem abs_le_of_integer? {signed : Bool} {t : Token} (h : integer? signed t = some a) :
    |a| ≤ coefficientLimit := by
  unfold integer? at h
  split at h
  · split at h
    · exact abs_le_of_coefficient? h
    · cases h
  · cases h

theorem abs_le_of_map_neg {o : Option Int} (ho : ∀ b, o = some b → |b| ≤ coefficientLimit)
    (h : o.map (-·) = some a) : |a| ≤ coefficientLimit := by
  obtain ⟨b, hb, rfl⟩ := Option.map_eq_some_iff.mp h
  rw [abs_neg]
  exact ho b hb

theorem abs_le_of_lead? {cs : List Char} {rest : List Token} (h : lead? ts = some (a, cs, rest)) :
    |a| ≤ coefficientLimit := by
  have unit : |(1 : Int)| ≤ coefficientLimit ∧ |(-1 : Int)| ≤ coefficientLimit := by decide
  unfold lead? at h
  split at h
  · obtain ⟨b, hb, heq⟩ := Option.map_eq_some_iff.mp h
    obtain ⟨rfl, -⟩ := Prod.mk.inj heq
    exact abs_le_of_coefficient? hb
  · split at h <;> cases h
    exact unit.1
  · split at h <;> cases h
    · exact unit.2
    · exact unit.1
  · cases h

theorem abs_le_of_offset? (h : offset? ts = some a) : |a| ≤ coefficientLimit := by
  unfold offset? at h
  split at h
  · cases h
    decide
  · exact abs_le_of_integer? h
  · exact abs_le_of_integer? h
  · exact abs_le_of_map_neg (fun _ => abs_le_of_integer?) h
  · cases h

theorem abs_le_of_negativeOffset? {digits : List Char} (h : negativeOffset? digits ts = some a) :
    |a| ≤ coefficientLimit := by
  unfold negativeOffset? at h
  split at h
  · split at h
    · refine abs_le_of_map_neg (fun b hb => ?_) h
      obtain ⟨rfl, hle⟩ := limited?_eq_some.mp hb
      exact hle
    · cases h
  · split at h
    · exact abs_le_of_map_neg (fun _ => abs_le_of_integer?) h
    · cases h
  · cases h

theorem limited_of_ofLead? {lead : Int × List Char × List Token}
    (hstep : |lead.1| ≤ coefficientLimit) (h : ofLead? lead = some p) : p.Limited := by
  unfold ofLead? at h
  split at h
  · obtain ⟨b, hb, rfl⟩ := Option.map_eq_some_iff.mp h
    exact ⟨hstep, abs_le_of_offset? hb⟩
  · obtain ⟨b, hb, rfl⟩ := Option.map_eq_some_iff.mp h
    exact ⟨hstep, abs_le_of_negativeOffset? hb⟩
  · cases h

theorem limited_of_single? (h : single? ts = some (some p)) : p.Limited := by
  unfold single? at h
  split at h
  · split at h
    · cases h
      exact ⟨by decide, by decide⟩
    · split at h
      · cases h
        exact ⟨by decide, by decide⟩
      · cases h
  · obtain ⟨b, hb, rfl⟩ := Option.map_eq_some_iff.mp (Option.some.inj h)
    exact ⟨abs_zero.trans_le (by decide), abs_le_of_coefficient? hb⟩
  · cases h

theorem limited_of_ofTokens? (h : ofTokens? ts = some p) : p.Limited := by
  simp only [ofTokens?] at h
  split at h
  · rename_i hs
    rw [h] at hs
    exact limited_of_single? hs
  · obtain ⟨lead, hlead, hp⟩ := Option.bind_eq_some_iff.mp h
    exact limited_of_ofLead? (abs_le_of_lead? hlead) hp

theorem Limited.fitsWord {i : ℕ} (h : p.Limited) (hi : i ≤ 2 ^ 32) :
    fitsWord (i - p.offset) = true := by
  have hle := abs_le.mp h.offset
  simp only [coefficientLimit] at hle
  simp only [Nth.fitsWord, Bool.and_eq_true, decide_eq_true_eq]
  omega

end CssStyling.Nth

import CssStyling.Matching.Word
import CssStyling.Proofs.Matching.Nth

namespace CssStyling

namespace Word

variable {part : Int64 → Int64 → Int64} {m n : Int64}

theorem toInt_sub (h : Nth.fitsWord (m.toInt - n.toInt) = true) :
    (m - n).toInt = m.toInt - n.toInt := by
  simp only [Nth.fitsWord, Bool.and_eq_true, decide_eq_true_eq] at h
  rw [Int64.toInt_sub]
  exact Int.bmod_eq_of_le (by omega) (by omega)

theorem checkedSub_eq : checkedSub m n =
    .ok (if Nth.fitsWord (m.toInt - n.toInt) then some (m - n) else none) := by
  unfold checkedSub sub
  split <;> rfl

theorem checkedDivide_eq : checkedDivide part m n =
    .ok (if n = 0 ∨ (m = Int64.minValue ∧ n = -1) then none else some (part m n)) := by
  unfold checkedDivide divide
  split
  · rfl
  · rename_i h
    obtain ⟨zero, least⟩ := not_or.mp h
    rw [if_neg zero, if_neg least]
    rfl

end Word

namespace Nth

variable {a b n : Int64}

theorem selectsWord_zero : selectsWord 0 b n = .ok (n == b) :=
  rfl

theorem selectsWord_far (ha : a ≠ 0) (h : fitsWord (n.toInt - b.toInt) = false) :
    selectsWord a b n = .ok false := by
  unfold selectsWord
  rw [if_neg ha, Word.checkedSub_eq, if_neg (by simp [h])]
  rfl

theorem selectsWord_near (ha : a ≠ 0) (h : fitsWord (n.toInt - b.toInt) = true)
    (least : n - b ≠ Int64.minValue) :
    selectsWord a b n = .ok ((n - b) % a == 0 && decide (0 ≤ (n - b) / a)) := by
  have divide (part : Int64 → Int64 → Int64) :
      Word.checkedDivide part (n - b) a = .ok (some (part (n - b) a)) := by
    rw [Word.checkedDivide_eq, if_neg (by simp [ha, least])]
  have whole : (some ((n - b) % a) == some 0) = ((n - b) % a == 0) := rfl
  have distance : selectsWord a b n =
      if some ((n - b) % a) == some 0 then .ok (decide (0 ≤ (n - b) / a)) else .ok false := by
    unfold selectsWord
    rw [if_neg ha, Word.checkedSub_eq, if_pos h]
    dsimp only [bind, Except.bind]
    rw [divide Word.remainder, divide Word.quotient]
    rfl
  rw [distance, whole]
  cases (n - b) % a == 0 <;> rfl

theorem sub_ne_minValue (hn : 1 ≤ n) (h : fitsWord (n.toInt - b.toInt) = true) :
    n - b ≠ Int64.minValue := by
  intro least
  have distance := Word.toInt_sub h
  have position : (1 : Int64).toInt ≤ n.toInt := Int64.le_iff_toInt_le.mp hn
  have offset := b.toInt_lt
  rw [least, Int64.toInt_minValue] at distance
  rw [Int64.toInt_one] at position
  omega

theorem selectsWord_eq (hn : 1 ≤ n) :
    selectsWord a b n = .ok (selects ⟨a.toInt, b.toInt⟩ n.toInt) := by
  by_cases ha : a = 0
  · subst a
    rw [selectsWord_zero, selects, if_pos Int64.toInt_zero]
    refine congrArg Except.ok (Bool.eq_iff_iff.mpr ?_)
    simp only [beq_iff_eq, Int64.toInt_inj]
  · have step : a.toInt ≠ 0 := fun zero => ha (Int64.toInt_inj.mp zero)
    rw [selects, if_neg step]
    dsimp only
    cases h : fitsWord (n.toInt - b.toInt) with
    | false => rw [selectsWord_far ha h, Bool.false_and, Bool.false_and]
    | true =>
        have least := sub_ne_minValue hn h
        rw [selectsWord_near ha h least, ← Word.toInt_sub h, ← Int64.toInt_mod,
          ← Int64.toInt_div_of_ne_left _ _ least, Bool.true_and]
        refine congrArg Except.ok (Bool.eq_iff_iff.mpr ?_)
        simp only [Bool.and_eq_true, beq_iff_eq, decide_eq_true_eq, Int64.le_iff_toInt_le,
          ← Int64.toInt_inj, Int64.toInt_zero]

theorem fitsWord_of_selects {p : Nth} {position : Int} (h : p.selects position = true) :
    fitsWord (position - p.offset) = true := by
  unfold selects at h
  split at h
  · rw [beq_iff_eq.mp h, sub_self]
    rfl
  · simp only [Bool.and_eq_true] at h
    exact h.1.1

theorem selectsWord_exact (a b n : Int64) (hn : 1 ≤ n) :
    ∃ r, selectsWord a b n = .ok r ∧ r = selects ⟨a.toInt, b.toInt⟩ n.toInt ∧
      (r = true ↔ fitsWord (n.toInt - b.toInt) = true ∧
        ∃ k : ℕ, a.toInt * k + b.toInt = n.toInt) ∧
      (|b.toInt| ≤ 2 ^ 31 - 1 → n.toInt < 2 ^ 62 →
        (r = true ↔ ∃ k : ℕ, a.toInt * k + b.toInt = n.toInt)) := by
  let p : Nth := ⟨a.toInt, b.toInt⟩
  have reached : p.selects n.toInt = true ↔ fitsWord (n.toInt - b.toInt) = true ∧
      ∃ k : ℕ, a.toInt * k + b.toInt = n.toInt := by
    constructor
    · intro h
      have fits : fitsWord (n.toInt - p.offset) = true := fitsWord_of_selects h
      exact ⟨fits, (selects_iff (p := p) fits).mp h⟩
    · rintro ⟨fits, steps⟩
      exact (selects_iff (p := p) fits).mpr steps
  refine ⟨p.selects n.toInt, selectsWord_eq hn, rfl, reached, fun small position => ?_⟩
  have positive := Int64.le_iff_toInt_le.mp hn
  have range := abs_le.mp small
  have fits : fitsWord (n.toInt - b.toInt) = true := by
    simp only [fitsWord, Bool.and_eq_true, decide_eq_true_eq]
    rw [Int64.toInt_one] at positive
    omega
  rw [reached, and_iff_right fits]

theorem selectsWord_exact_descending : (1 : Int64) ≤ 2 ∧ selectsWord (-1) 3 2 = .ok true := by
  have positive : (1 : Int64) ≤ 2 := by decide
  obtain ⟨r, run, -, -, near⟩ := selectsWord_exact (-1) 3 2 positive
  have selected : r = true := (near (by decide) (by decide)).mpr ⟨1, by decide⟩
  exact ⟨positive, by rw [run, selected]⟩

end Nth

end CssStyling

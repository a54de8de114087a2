import CssStyling.Proofs.Number.Integers
import CssStyling.Proofs.Token.Floats
import CssStyling.Proofs.Token.Rereading

namespace CssStyling.Lexer

open NumberText Rounding

variable {cs ds rest w : List Char} {negative signed : Bool}

structure Occurrence where
  token : Token
  text : List Char
  spaced : Bool

def occurrences (spaced : Bool) (cs : List Char) : List Occurrence :=
  if (next cs).1.isEof then []
  else if (next cs).1.isWhitespace then occurrences true (next cs).2
  else ⟨(next cs).1, skipComments cs, spaced⟩ :: occurrences false (next cs).2
termination_by cs.length
decreasing_by
  all_goals
    rename_i h _
    exact next_length_lt (Bool.eq_false_iff.mpr h)

theorem token_occurrences (spaced : Bool) (cs : List Char) :
    (occurrences spaced cs).map Occurrence.token =
      (words cs).filter fun t => !t.isWhitespace := by
  fun_induction occurrences spaced cs with
  | case1 spaced cs finish => rw [words_of_end finish]; rfl
  | case2 spaced cs more space ih =>
      rw [words_cons (Bool.eq_false_iff.mpr more), List.filter_cons_of_neg (by simp [space]), ih]
  | case3 spaced cs more ink ih =>
      rw [words_cons (Bool.eq_false_iff.mpr more), List.filter_cons_of_pos (by simp [ink]),
        List.map_cons, ih]

def Occurrence.Read (o : Occurrence) : Prop :=
  ∃ c ds rest, o.text = c :: ds ∧ tokenAt c ds = (o.token, rest)

theorem read_of_mem_occurrences {o : Occurrence} {spaced : Bool}
    (h : o ∈ occurrences spaced cs) : o.Read := by
  fun_induction occurrences spaced cs with
  | case1 => cases h
  | case2 _ _ _ _ ih => exact ih h
  | case3 spaced cs more ink ih =>
      rcases List.mem_cons.mp h with rfl | h
      · obtain ⟨c, ds, text, read⟩ := exists_front (Bool.eq_false_iff.mpr more)
        exact ⟨c, ds, _, text, read.symm⟩
      · exact ih h

inductive Whole : List Char → Bool → ℤ → Prop where
  | intro {sign ds rest : List Char} {negative signed : Bool} (hs : Signed sign negative signed)
      (hne : ds ≠ []) (hd : ∀ d ∈ ds, d.isDigit = true) (hr : Ends rest) :
      Whole (sign ++ (ds ++ rest)) signed (Binary.applySign negative (digitsToNat ds))

theorem digits_eq_of_nil (h : (digits rest).1 = []) : digits rest = ([], rest) := by
  refine Prod.ext h ?_
  have whole := List.takeWhile_append_dropWhile (p := Char.isDigit) (l := rest)
  rwa [show rest.takeWhile Char.isDigit = [] from h, List.nil_append] at whole

theorem number_whole (hs : Signed w negative signed) (hne : ds ≠ [])
    (hd : ∀ d ∈ ds, d.isDigit = true) (hr : Ends rest) :
    number (w ++ (ds ++ rest)) = (Written.toFloat ⟨negative, ds, [], 0⟩, true, rest) := by
  have point := fraction_of_isEmpty (List.isEmpty_iff.mpr hr.fraction)
  rw [number, hs.sign_append hne hd]
  dsimp only
  rw [digits_clear hd (digits_eq_of_nil hr.digits)]
  dsimp only
  rw [point]
  dsimp only
  rw [hr.exponent]
  rfl

theorem startsDigits_cons (h : startsDigits w = true) :
    (∃ d ds, w = d :: ds ∧ d.isDigit = true) ∨ ∃ d ds, w = '.' :: d :: ds ∧ d.isDigit = true := by
  unfold startsDigits at h
  split at h
  · rename_i d ds
    exact .inr ⟨d, ds, rfl, h⟩
  · rename_i d ds _
    exact .inl ⟨d, ds, rfl, h⟩
  · cases h

theorem exists_signed (w : List Char) :
    ∃ sign, Signed sign (NumberText.sign w).1 (NumberText.sign w).2.1 ∧
      sign ++ (NumberText.sign w).2.2 = w := by
  unfold NumberText.sign
  split
  · exact ⟨['+'], .plus, rfl⟩
  · exact ⟨['-'], .minus, rfl⟩
  · exact ⟨[], .none, rfl⟩

theorem whole_of_isInteger (starts : startsNumber w = true) (h : (number w).2.1 = true) :
    Whole w (sign w).2.1 (Binary.applySign (sign w).1 (digitsToNat (digits (sign w).2.2).1)) := by
  obtain ⟨-, ends⟩ := number_of_isInteger h
  obtain ⟨plus, signed, text⟩ := exists_signed w
  have split : (digits (sign w).2.2).1 ++ (digits (sign w).2.2).2 = (sign w).2.2 :=
    List.takeWhile_append_dropWhile
  have all : ∀ d ∈ (digits (sign w).2.2).1, d.isDigit = true := fun d hd =>
    List.mem_takeWhile_imp hd
  have some : (digits (sign w).2.2).1 ≠ [] := by
    rcases startsDigits_cons starts with ⟨d, ds, hw, digit⟩ | ⟨d, ds, hw, digit⟩
    · rw [hw, digits, List.takeWhile_cons_of_pos digit]
      exact List.cons_ne_nil _ _
    · -- a point that digits follow is a fraction
      have still : (digits ('.' :: d :: ds)).2 = '.' :: d :: ds := rfl
      have read : fraction ('.' :: d :: ds) = digits (d :: ds) := if_pos digit
      have point := ends.fraction
      rw [hw, still, read, digits, List.takeWhile_cons_of_pos digit] at point
      cases point
  have whole := Whole.intro signed some all ends
  rwa [split, text] at whole

theorem Whole.eq {signed : Bool} {n : ℤ} (h : Whole w signed n) : (number w).2.1 = true ∧
    signed = (sign w).2.1 ∧
      n = Binary.applySign (sign w).1 (digitsToNat (digits (sign w).2.2).1) := by
  cases h with
  | intro hs hne hd hr =>
      rw [number_whole hs hne hd hr, hs.sign_append hne hd]
      dsimp only
      rw [digits_clear hd (digits_eq_of_nil hr.digits)]
      exact ⟨rfl, rfl, rfl⟩

namespace Occurrence

variable {o : Occurrence}

theorem Read.number {v : Float} {i s : Bool} (h : o.Read) (ht : o.token = .number v i s) :
    startsNumber o.text = true ∧ (Lexer.number o.text).1 = v ∧ (Lexer.number o.text).2.1 = i ∧
      (sign o.text).2.1 = s := by
  obtain ⟨c, ds, rest, text, found⟩ := h
  rw [ht] at found
  obtain ⟨starts, read, sign⟩ := number_of_kind (kind found)
  rw [text, read]
  exact ⟨starts, rfl, rfl, sign.symm⟩

theorem Read.dimension {v : Float} {unit : String} (h : o.Read)
    (ht : o.token = .dimension v unit) :
    startsNumber o.text = true ∧ (Lexer.number o.text).1 = v := by
  obtain ⟨c, ds, rest, text, found⟩ := h
  rw [ht] at found
  obtain ⟨starts, read, -⟩ := dimension_of_kind (kind found)
  rw [text]
  exact ⟨starts, read⟩

end Occurrence

end CssStyling.Lexer

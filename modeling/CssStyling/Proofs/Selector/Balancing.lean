import CssStyling.Proofs.Selector.Rendering
import CssStyling.Proofs.Token.Rereading
import Mathlib.Data.List.DropRight

namespace CssStyling

theorem Ascii.lower_lower (s : String) : lower (lower s) = lower s := by
  have toLower (c : Char) : c.toLower.toLower = c.toLower := by
    by_cases h : c.val ≥ 'A'.val ∧ c.val ≤ 'Z'.val
    · have hl : c.toLower.val = c.val + ('a'.val - 'A'.val) := by rw [Char.toLower, dif_pos h]
      have hn : ¬(c.toLower.val ≥ 'A'.val ∧ c.toLower.val ≤ 'Z'.val) := by
        rw [hl]
        simp only [UInt32.le_iff_toNat_le, ge_iff_le] at h ⊢
        simp at h ⊢
        omega
      exact dif_neg hn
    · have hl : c.toLower = c := dif_neg h
      rw [hl, hl]
  rw [lower, lower, String.toList_ofList, List.map_map]
  exact congrArg String.ofList (List.map_congr_left fun c _ => toLower c)

namespace Token

variable {x x' : Token} {ts ts' : List Token}

theorem isWhitespace_of_beq (h : (x' == x) = true) : x'.isWhitespace = x.isWhitespace :=
  congr_of_beq h (fun _ _ _ _ => rfl) (fun _ _ => rfl) fun _ _ _ => rfl

theorem opensGroup_of_beq (h : (x' == x) = true) : x'.opensGroup = x.opensGroup :=
  congr_of_beq h (fun _ _ _ _ => rfl) (fun _ _ => rfl) fun _ _ _ => rfl

theorem closesGroup_of_beq (h : (x' == x) = true) : x'.closesGroup = x.closesGroup :=
  congr_of_beq h (fun _ _ _ _ => rfl) (fun _ _ => rfl) fun _ _ _ => rfl

theorem map_isWhitespace_of_beq (h : (ts' == ts) = true) :
    ts'.map isWhitespace = ts.map isWhitespace := by
  induction ts generalizing ts' with
  | nil =>
      cases ts' with
      | nil => rfl
      | cons => cases h
  | cons t ts ih =>
      cases ts' with
      | nil => cases h
      | cons t' ts' =>
          rw [List.cons_beq_cons, Bool.and_eq_true] at h
          rw [List.map_cons, List.map_cons, isWhitespace_of_beq h.1, ih h.2]

theorem trim_sublist (ts : List Token) : (trim ts).Sublist ts := by
  have shorter (l : List Token) : (l.dropWhile isWhitespace).Sublist l :=
    (List.dropWhile_suffix isWhitespace).sublist
  have behind := shorter ts
  have before := shorter (ts.dropWhile isWhitespace).reverse
  rw [← List.reverse_sublist, List.reverse_reverse] at before
  exact before.trans behind

theorem map_trim (ts : List Token) : (trim ts).map isWhitespace =
    (((ts.map isWhitespace).dropWhile id).reverse.dropWhile id).reverse := by
  rw [List.dropWhile_map, ← List.map_reverse, List.dropWhile_map, ← List.map_reverse]
  rfl

theorem trim_of_beq (h : (ts' == ts) = true) (ht : trim ts = ts) : trim ts' = ts' := by
  refine (trim_sublist ts').eq_of_length ?_
  have lengths := congrArg List.length (map_trim ts)
  have lengths' := congrArg List.length (map_trim ts')
  rw [map_isWhitespace_of_beq h] at lengths'
  rw [List.length_map] at lengths lengths'
  have same := congrArg List.length (map_isWhitespace_of_beq h)
  rw [List.length_map, List.length_map] at same
  rw [lengths', ← lengths, ht, same]

theorem dropWhile_of_prefix (hp : ts' <+: ts) (h : ts.dropWhile isWhitespace = ts) :
    ts'.dropWhile isWhitespace = ts' := by
  rw [List.dropWhile_eq_self_iff] at h ⊢
  intro hl
  obtain ⟨r, rfl⟩ := hp
  have head := h (by rw [List.length_append]; omega)
  rwa [List.getElem_append_left hl] at head

theorem trim_trim (ts : List Token) : trim (trim ts) = trim ts := by
  have lead : (trim ts).dropWhile isWhitespace = trim ts := by
    refine dropWhile_of_prefix ?_ (List.dropWhile_idempotent isWhitespace ts)
    rw [trim, ← List.reverse_suffix, List.reverse_reverse]
    exact List.dropWhile_suffix isWhitespace
  rw [trim, lead, trim, List.reverse_reverse, List.dropWhile_idempotent]

end Token

namespace Rendering

variable {d : Nat} {ts ts' : List Token}

theorem Balanced.filter (h : Balanced d ts) : Balanced d (ts.filter fun t => !t.isWhitespace) := by
  induction h with
  | nil => exact .nil
  | @opening d t ts ht _ ih =>
      have ink : t.isWhitespace = false := by cases t <;> first | rfl | cases ht
      rw [List.filter_cons_of_pos (by simp [ink])]
      exact .opening ht ih
  | closing _ ih => exact .closing ih
  | @plain d t ts ht ht' _ ih =>
      rw [List.filter_cons]
      split
      · exact .plain ht ht' ih
      · exact ih

theorem Balanced.of_filter (h : Balanced d (ts.filter fun t => !t.isWhitespace)) :
    Balanced d ts := by
  induction ts generalizing d with
  | nil => exact h
  | cons t ts ih =>
      rw [List.filter_cons] at h
      split at h
      · cases h with
        | opening ht h => exact .opening ht (ih h)
        | closing h => exact .closing (ih h)
        | plain ht ht' h => exact .plain ht ht' (ih h)
      · rename_i hw
        obtain rfl : t = .whitespace := Token.eq_whitespace (by simpa using hw)
        exact .plain rfl rfl (ih h)

theorem Balanced.trim (h : Balanced d ts) : Balanced d (Token.trim ts) := by
  refine Balanced.of_filter ?_
  rw [Token.filter_trim]
  exact h.filter

theorem Balanced.of_beq (h : Balanced d ts) (hts : (ts' == ts) = true) : Balanced d ts' := by
  induction h generalizing ts' with
  | nil =>
      cases ts' with
      | nil => exact .nil
      | cons => cases hts
  | opening ht _ ih =>
      cases ts' with
      | nil => cases hts
      | cons t' ts' =>
          rw [List.cons_beq_cons, Bool.and_eq_true] at hts
          exact .opening ((Token.opensGroup_of_beq hts.1).trans ht) (ih hts.2)
  | closing _ ih =>
      cases ts' with
      | nil => cases hts
      | cons t' ts' =>
          rw [List.cons_beq_cons, Bool.and_eq_true] at hts
          rw [Token.same_of_beq hts.1 rfl]
          exact .closing (ih hts.2)
  | plain ht ht' _ ih =>
      cases ts' with
      | nil => cases hts
      | cons t' ts' =>
          rw [List.cons_beq_cons, Bool.and_eq_true] at hts
          exact .plain ((Token.opensGroup_of_beq hts.1).trans ht)
            ((Token.closesGroup_of_beq hts.1).trans ht') (ih hts.2)

end Rendering

end CssStyling

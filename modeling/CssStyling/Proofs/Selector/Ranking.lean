import CssStyling.Proofs.Cascade.Winning
import CssStyling.Proofs.Selector.Reading
import Mathlib

namespace CssStyling

namespace Simple

def isIdentifier : Simple → Bool
  | .identifier _ => true
  | _ => false

def isClassLike : Simple → Bool
  | .className _ => true
  | .attributeTest _ _ _ => true
  | .pseudoClass _ _ => true
  | _ => false

def isTypeLike : Simple → Bool
  | .type _ _ => true
  | .pseudoElement _ _ => true
  | _ => false

def isUniversal : Simple → Bool
  | .universal _ => true
  | _ => false

end Simple

namespace Specificity

variable {m s : Specificity} {x : Simple} {xs ys : List Simple} {ss : List Specificity}

def ofCounts (ids classes types : Nat) : Specificity :=
  ⟨min ids limit, min classes limit, min types limit⟩

def ofSimples (xs : List Simple) : Specificity :=
  ofCounts (xs.countP Simple.isIdentifier) (xs.countP Simple.isClassLike)
    (xs.countP Simple.isTypeLike)

theorem ofCounts_add {ids classes types : Nat} : ofCounts ids classes types + ofSimple x =
    ofCounts (ids + [x].countP Simple.isIdentifier) (classes + [x].countP Simple.isClassLike)
      (types + [x].countP Simple.isTypeLike) := by
  have more (n k : Nat) : min (min n limit + k) limit = min (n + k) limit := by omega
  change Specificity.mk (min (min ids limit + (ofSimple x).ids) limit)
    (min (min classes limit + (ofSimple x).classes) limit)
    (min (min types limit + (ofSimple x).types) limit) = _
  rw [more, more, more]
  cases x <;> rfl

theorem counted_ofCounts {ids classes types : Nat} : counted (ofCounts ids classes types) xs =
    ofCounts (ids + xs.countP Simple.isIdentifier) (classes + xs.countP Simple.isClassLike)
      (types + xs.countP Simple.isTypeLike) := by
  induction xs generalizing ids classes types with
  | nil => rfl
  | cons x xs ih =>
      have front (p : Simple → Bool) : ([x] ++ xs).countP p = [x].countP p + xs.countP p :=
        List.countP_append
      change counted (ofCounts ids classes types) (x :: xs) =
        ofCounts (ids + ([x] ++ xs).countP _) (classes + ([x] ++ xs).countP _)
          (types + ([x] ++ xs).countP _)
      rw [counted_cons, ofCounts_add, ih, front, front, front, Nat.add_assoc, Nat.add_assoc,
        Nat.add_assoc]

theorem counted_zero : counted zero xs = ofSimples xs := by
  have counts := @counted_ofCounts xs 0 0 0
  rwa [Nat.zero_add, Nat.zero_add, Nat.zero_add] at counts

theorem ofSimples_of_perm
    (h : (xs.filter (!·.isUniversal)).Perm (ys.filter (!·.isUniversal))) :
    ofSimples xs = ofSimples ys := by
  have same (p : Simple → Bool) (hp : ∀ x, p x = true → x.isUniversal = false) :
      xs.countP p = ys.countP p := by
    have counted (zs : List Simple) : (zs.filter (!·.isUniversal)).countP p = zs.countP p := by
      rw [List.countP_filter]
      refine List.countP_congr fun x _ => ?_
      cases hx : p x with
      | false => simp
      | true => simp [hp x hx]
    rw [← counted xs, ← counted ys, h.countP_eq]
  rw [ofSimples, ofSimples, same _ fun x hx => ?_, same _ fun x hx => ?_, same _ fun x hx => ?_]
  all_goals cases x <;> first | rfl | cases hx

theorem key_lt_of_identifier (hx : ∃ x ∈ xs, x.isIdentifier = true)
    (hy : ∀ y ∈ ys, y.isIdentifier = false) : (ofSimples ys).key < (ofSimples xs).key := by
  have none : ys.countP Simple.isIdentifier = 0 :=
    List.countP_eq_zero.mpr fun y h => by simp [hy y h]
  have some : 0 < xs.countP Simple.isIdentifier := List.countP_pos_iff.mpr hx
  refine Prod.Lex.toLex_lt_toLex.mpr (.inl ?_)
  change min (ys.countP Simple.isIdentifier) limit < min (xs.countP Simple.isIdentifier) limit
  rw [none, limit]
  omega

def higher (m s : Specificity) : Specificity :=
  if compare m s = .gt then m else s

theorem key_higher : (higher m s).key = max m.key s.key := by
  rw [higher]
  split
  · rename_i h
    exact (max_eq_left (le_of_lt (compare_eq_gt.mp h))).symm
  · rename_i h
    exact (max_eq_right (le_of_not_gt fun hgt => h (compare_eq_gt.mpr hgt))).symm

theorem higher_eq (m s : Specificity) : higher m s = m ∨ higher m s = s := by
  rw [higher]
  split
  · exact .inl rfl
  · exact .inr rfl

theorem foldl_higher (m : Specificity) (ss : List Specificity) :
    ss.foldl higher m ∈ m :: ss ∧ ∀ s ∈ m :: ss, s.key ≤ (ss.foldl higher m).key := by
  induction ss generalizing m with
  | nil => exact ⟨List.mem_singleton_self m, fun s hs => by rw [List.mem_singleton.mp hs]; rfl⟩
  | cons s ss ih =>
      obtain ⟨member, above⟩ := ih (higher m s)
      obtain ⟨front, rest⟩ := List.forall_mem_cons.mp above
      rw [key_higher] at front
      have left := (le_max_left m.key s.key).trans front
      have right := (le_max_right m.key s.key).trans front
      rw [List.foldl_cons]
      refine ⟨?_, List.forall_mem_cons.mpr ⟨left, List.forall_mem_cons.mpr ⟨right, rest⟩⟩⟩
      rcases List.mem_cons.mp member with h | h
      · rw [h]
        rcases higher_eq m s with h | h <;> simp [h]
      · exact List.mem_cons_of_mem _ (List.mem_cons_of_mem _ h)

theorem maximum_cons (s : Specificity) (ss : List Specificity) :
    maximum (s :: ss) = ss.foldl higher s := by
  have least : compare zero s ≠ .gt := by
    intro h
    have below := compare_eq_gt.mp h
    simp only [key, zero, Prod.Lex.toLex_lt_toLex] at below
    omega
  change ss.foldl higher (higher zero s) = _
  rw [higher, if_neg least]

theorem maximum_spec (h : ss ≠ []) :
    maximum ss ∈ ss ∧ ∀ s ∈ ss, compare s (maximum ss) ≠ .gt := by
  cases ss with
  | nil => exact absurd rfl h
  | cons s ss =>
      rw [maximum_cons]
      obtain ⟨member, above⟩ := foldl_higher s ss
      exact ⟨member, fun t ht hgt => not_lt_of_ge (above t ht) (compare_eq_gt.mp hgt)⟩

end Specificity

namespace SelectorList

open Specificity

variable {ts : List Token} {l : SelectorList} {s : Complex}

theorem counted_of_members {lexemes : List Token} {ss : List Complex}
    (h : Rendering.Members .composed ss lexemes) :
    ss ≠ [] ∧ ∀ s ∈ ss, s.specificity = s.countedSpecificity := by
  induction h with
  | last _ member _ =>
      exact ⟨List.cons_ne_nil _ _, fun s hs => List.mem_singleton.mp hs ▸ member.counted⟩
  | cons _ member _ _ ih =>
      exact ⟨List.cons_ne_nil _ _, List.forall_mem_cons.mpr ⟨member.counted, ih.2⟩⟩

structure Ranked (l : SelectorList) : Prop where
  counted : ∀ s ∈ l.members, s.specificity = s.countedSpecificity
  saturated : ∀ s ∈ l.members, s.specificity =
    ⟨min (s.simples.countP Simple.isIdentifier) (2 ^ 32 - 1),
      min (s.simples.countP Simple.isClassLike) (2 ^ 32 - 1),
      min (s.simples.countP Simple.isTypeLike) (2 ^ 32 - 1)⟩
  maximum : ∃ s ∈ l.members, l.maxSpecificity = s.specificity ∧
    ∀ t ∈ l.members, compare t.specificity s.specificity ≠ .gt

theorem specificity_of_ofTokens (h : ofTokens ts = .ok l) (hs : s ∈ l.members) :
    s.specificity = ofSimples s.simples := by
  obtain ⟨_, -, members⟩ := ofTokens_eq_ok_iff.mp h
  exact ((counted_of_members members).2 s hs).trans counted_zero

theorem ranked_of_ofTokens (h : ofTokens ts = .ok l) : Ranked l := by
  obtain ⟨_, -, members⟩ := ofTokens_eq_ok_iff.mp h
  obtain ⟨nonempty, counted⟩ := counted_of_members members
  refine ⟨counted, fun s hs => specificity_of_ofTokens h hs, ?_⟩
  have ranks : l.members.map (·.specificity) ≠ [] := by simpa using nonempty
  obtain ⟨member, above⟩ := maximum_spec ranks
  obtain ⟨s, hs, same⟩ := List.mem_map.mp member
  refine ⟨s, hs, same.symm, fun t ht => ?_⟩
  rw [same]
  exact above _ (List.mem_map_of_mem ht)

theorem ofTokens_ranks (h : ofTokens ts = .ok l) :
    Ranked l ∧ ∀ us m, ofTokens us = .ok m → ∀ s ∈ l.members, ∀ t ∈ m.members,
      ((s.simples.filter (!·.isUniversal)).Perm (t.simples.filter (!·.isUniversal)) →
        s.specificity = t.specificity) ∧
      ((∃ x ∈ s.simples, x.isIdentifier = true) → (∀ x ∈ t.simples, x.isIdentifier = false) →
        compare s.specificity t.specificity = .gt) := by
  refine ⟨ranked_of_ofTokens h, fun us m hm s hs t ht => ?_⟩
  rw [specificity_of_ofTokens h hs, specificity_of_ofTokens hm ht]
  exact ⟨ofSimples_of_perm, fun some none => compare_eq_gt.mpr (key_lt_of_identifier some none)⟩

theorem ofTokens_ranks_identifier :
    let identifier : Complex := ⟨[], ⟨[.identifier "a"]⟩, ⟨1, 0, 0⟩⟩
    let classes : Complex := ⟨[], ⟨[.className "b", .className "c"]⟩, ⟨0, 2, 0⟩⟩
    ofTokens [.hash "a" true] = .ok ⟨[identifier]⟩ ∧
      ofTokens [.delim '.', .ident "b", .delim '.', .ident "c"] = .ok ⟨[classes]⟩ ∧
      compare identifier.specificity classes.specificity = .gt := by
  intro identifier classes
  have first : ofTokens [.hash "a" true] = .ok ⟨[identifier]⟩ :=
    ofTokens_eq_ok_iff.mpr ⟨_, rfl, .last rfl ⟨.subject (.bare .identifier .nil), rfl⟩ rfl⟩
  have second : ofTokens [.delim '.', .ident "b", .delim '.', .ident "c"] = .ok ⟨[classes]⟩ :=
    ofTokens_eq_ok_iff.mpr ⟨_, rfl, .last rfl
      ⟨.subject (.bare .className (.cons .className .nil)), rfl⟩ rfl⟩
  have ranks := (ofTokens_ranks first).2 _ _ second identifier (List.mem_singleton_self _) classes
    (List.mem_singleton_self _)
  exact ⟨first, second, ranks.2 ⟨_, List.mem_singleton_self _, rfl⟩
    (by simp [classes, Complex.simples, Complex.steps, Simple.isIdentifier])⟩

end SelectorList

end CssStyling

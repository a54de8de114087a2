import CssStyling.Proofs.Selector.Separating
import CssStyling.Proofs.Token.Consuming

namespace CssStyling

namespace Token

def isVoid : Token → Bool
  | combinator .none => true
  | _ => false

theorem isVoid_iff {t : Token} : t.isVoid = true ↔ t = .combinator .none := by
  unfold isVoid
  split
  · simp
  · rename_i h
    simpa using h

def outer (depth : Nat) : List Token → List Token
  | [] => []
  | t :: ts =>
      let others := outer (Lexeme.Place.depthAfter depth t) ts
      if depth == 0 then t :: others else others

def voids (depth : Nat) (ts : List Token) : Nat :=
  (outer depth ts).countP isVoid

end Token

namespace Simple

def leads : Simple → Bool
  | .type _ _ => true
  | .universal _ => true
  | _ => false

end Simple

structure Compound.WellFormed (c : Compound) : Prop where
  nonempty : c.simples ≠ []
  tail : ∀ s ∈ c.simples.tail, s.leads = false

def Step.isVoid (s : Step) : Bool :=
  s.combinator == .none

namespace Rendering

variable {σ : Spelling} {ts r : List Token}

theorem Narrowing.leads {s : Simple} (h : Narrowing σ s ts r) : s.leads = false := by
  cases h <;> rfl

theorem Narrowings.leads {ss : List Simple} (h : Narrowings σ ss ts r) :
    ∀ s ∈ ss, s.leads = false := by
  induction h with
  | nil => exact List.forall_mem_nil _
  | cons h _ ih => exact List.forall_mem_cons.mpr ⟨h.leads, ih⟩

theorem Compounded.wellFormed {c : Compound} (h : Compounded σ c ts r) : c.WellFormed := by
  cases h with
  | led _ hs => exact ⟨List.cons_ne_nil _ _, hs.leads⟩
  | bare _ hs => exact ⟨List.cons_ne_nil _ _, hs.leads⟩

theorem Joined.wellFormed {ss : List Step} {s : Compound} (h : Joined σ ss s ts r) :
    (∀ step ∈ ss, step.compound.WellFormed) ∧ s.WellFormed := by
  induction h with
  | subject h => exact ⟨List.forall_mem_nil _, h.wellFormed⟩
  | step h _ _ ih => exact ⟨List.forall_mem_cons.mpr ⟨h.wellFormed, ih.1⟩, ih.2⟩

theorem Member.wellFormed {s : Complex} (h : Member σ s ts r) :
    ∀ step ∈ s.steps, step.compound.WellFormed := by
  obtain ⟨ancestors, subject⟩ := h.joined.wellFormed
  exact List.forall_mem_append.mpr ⟨ancestors, List.forall_mem_singleton.mpr subject⟩

theorem Members.wellFormed {ss : List Complex} (h : Members σ ss ts) :
    ss ≠ [] ∧ ∀ s ∈ ss, ∀ step ∈ s.steps, step.compound.WellFormed := by
  induction h with
  | last _ hs _ => exact ⟨List.cons_ne_nil _ _, List.forall_mem_singleton.mpr hs.wellFormed⟩
  | cons _ hs _ _ ih =>
      exact ⟨List.cons_ne_nil _ _, List.forall_mem_cons.mpr ⟨hs.wellFormed, ih.2⟩⟩

end Rendering

namespace Token

open Lexeme.Place

variable {d : Nat} {t : Token} {ts : List Token}

theorem voids_cons : voids d (t :: ts) =
    (if d == 0 && t.isVoid then 1 else 0) + voids (depthAfter d t) ts := by
  cases d with
  | zero =>
      change (t :: outer _ ts).countP isVoid = _
      rw [List.countP_cons, Nat.add_comm]
      rfl
  | succ d => exact (Nat.zero_add _).symm

structure Quiet (t : Token) : Prop where
  inert : Inert t
  real : t.isVoid = false

theorem depthAfter_inert (h : Inert t) : depthAfter d t = d := by
  have entered := h d
  rw [enter] at entered
  split at entered
  · cases entered
  · exact Option.some.inj entered

theorem voids_quiet (h : Quiet t) : voids d (t :: ts) = voids d ts := by
  rw [voids_cons, h.real, depthAfter_inert h.inert, Bool.and_false]
  exact Nat.zero_add _

theorem depthAfter_zero : depthAfter 0 t = if t.opensGroup then 1 else 0 := by
  cases t <;> rfl

theorem voids_group : voids (d + 1) (t :: ts) = voids (depthAfter (d + 1) t) ts :=
  rfl

end Token

namespace Rendering

open Token Lexeme.Place

variable {d : Nat} {ts r : List Token}

theorem Balanced.voids {args : List Token} (h : Balanced d args) :
    voids (d + 1) (args ++ .closeParen :: r) = voids 0 r := by
  induction h with
  | nil => rfl
  | opening ht _ ih =>
      rw [List.cons_append, voids_group, depthAfter, if_pos ht]
      exact ih
  | closing _ ih => exact voids_group.trans ih
  | plain ht ht' _ ih =>
      rw [List.cons_append, voids_group]
      simp only [depthAfter, ht, ht']
      exact ih

theorem Blank.voids (h : Blank ts r) : voids d ts = voids d r := by
  induction h with
  | none => rfl
  | more _ ih => exact (voids_quiet ⟨fun _ => rfl, rfl⟩).trans ih

theorem voids_localToken {n : Option String} : voids d (localToken n :: r) = voids d r :=
  voids_quiet ⟨inert_localToken, by cases n <;> rfl⟩

theorem OneName.voids {p : NamespacePattern} {n : Option String} (h : OneName p n ts r) :
    voids d ts = voids d r := by
  cases h with
  | bare => exact voids_localToken
  | joined => exact voids_quiet ⟨fun _ => rfl, rfl⟩

theorem Test.voids {test : Option (AttributeOperator × String)} (h : Test test ts r) :
    voids d ts = voids d r := by
  cases h with
  | presence => rfl
  | @comparison o v t _ _ _ h hv h' =>
      have operator : Quiet (operatorToken o) := ⟨inert_operatorToken, by cases o <;> rfl⟩
      have value : Quiet t := ⟨inert_value hv, by cases hv <;> rfl⟩
      rw [voids_quiet operator, h.voids, voids_quiet value, h'.voids]

theorem Called.voids {n : String} {args : Option (List Token)}
    (h : Called .composed n args ts r) : voids 0 ts = voids 0 r := by
  cases h with
  | ident => exact voids_quiet ⟨fun _ => rfl, rfl⟩
  | function hb _ => exact voids_cons.trans ((Nat.zero_add _).trans hb.voids)

theorem Leading.voids {s : Simple} (h : Leading .composed s ts r) : voids 0 ts = voids 0 r := by
  cases h with
  | type h => exact OneName.voids h
  | universal h => exact OneName.voids h

theorem Narrowing.voids {s : Simple} (h : Narrowing .composed s ts r) :
    Token.voids 0 ts = Token.voids 0 r := by
  have colon {ts : List Token} : Token.voids 0 (.colon :: ts) = Token.voids 0 ts :=
    voids_quiet ⟨fun _ => rfl, rfl⟩
  cases h with
  | identifier => exact voids_quiet ⟨fun _ => rfl, rfl⟩
  | className => rfl
  | attributeTest h hn h' ht =>
      have name := OneName.voids (d := 0) hn
      have test := ht.voids (d := 0)
      exact h.voids.trans (name.trans (h'.voids.trans test))
  | pseudoClass h => exact colon.trans h.voids
  | pseudoElement h => exact colon.trans (colon.trans h.voids)

theorem Narrowings.voids {ss : List Simple} (h : Narrowings .composed ss ts r) :
    voids 0 ts = voids 0 r := by
  induction h with
  | nil => rfl
  | cons h _ ih => exact h.voids.trans ih

theorem Compounded.voids {c : Compound} (h : Compounded .composed c ts r) :
    voids 0 ts = voids 0 r := by
  cases h with
  | led h hs => exact h.voids.trans hs.voids
  | bare h hs => exact h.voids.trans hs.voids

theorem Joined.voids {ss : List Step} {s : Compound} (h : Joined .composed ss s ts r) :
    Token.voids 0 ts = ss.countP Step.isVoid + Token.voids 0 r := by
  induction h with
  | subject h => exact h.voids.trans (Nat.zero_add _).symm
  | @step c _ k ss _ _ _ _ h hk _ ih =>
      have combinator : (Token.combinator k).isVoid = Step.isVoid ⟨c, k⟩ := by cases k <;> rfl
      cases hk
      rw [h.voids, voids_cons, List.countP_cons, ← combinator]
      change _ + Token.voids 0 _ = _
      rw [ih]
      exact Nat.add_left_comm _ _ _ |>.trans (Nat.add_assoc _ _ _).symm

theorem Member.voids {s : Complex} (h : Member .composed s ts r) :
    Token.voids 0 ts = s.ancestors.countP Step.isVoid + Token.voids 0 r :=
  h.joined.voids

theorem Members.voids {ss : List Complex} (h : Members .composed ss ts) :
    Token.voids 0 ts = (ss.flatMap (·.ancestors)).countP Step.isVoid := by
  induction h with
  | last h hs h' =>
      cases h
      cases h'
      rw [List.flatMap_singleton]
      exact hs.voids
  | @cons _ ss _ _ _ r h hs h' _ ih =>
      have comma : Token.voids 0 (.comma :: r) = Token.voids 0 r :=
        voids_cons.trans (Nat.zero_add _)
      cases h
      cases h'
      rw [hs.voids, comma, ih, List.flatMap_cons, List.countP_append]

end Rendering

namespace Lexeme

open Place Rendering Token

variable {d q width : Nat} {b : Bool} {place : Place} {t m : Token} {us ts ms out : List Token}

theorem composed_quiet (h : composed b t ts = (m, width)) :
    (m = t ∨ Quiet m ∧ Quiet t) ∧ ∀ u ∈ ts.take (width - 1), Quiet u := by
  have delim {c : Char} : Quiet (.delim c) := ⟨fun _ => rfl, rfl⟩
  have none_covered : ∀ u ∈ ts.take 0, Quiet u := nofun
  have one_covered {c : Char} {rest : List Token} (hr : ts = .delim c :: rest) :
      ∀ u ∈ ts.take 1, Quiet u := by
    subst hr
    exact List.forall_mem_singleton.mpr delim
  unfold composed at h
  split at h
  · rename_i hs
    cases h
    split at hs
    · cases hs
    · unfold combinator? at hs
      split at hs <;> cases hs <;> obtain ⟨rfl, hr⟩ := List.cons.inj ‹_ = _›
      · exact ⟨.inr ⟨⟨fun _ => rfl, rfl⟩, delim⟩, one_covered hr⟩
      all_goals exact ⟨.inr ⟨⟨fun _ => rfl, rfl⟩, ⟨fun _ => rfl, rfl⟩⟩, none_covered⟩
  · split at h
    · rename_i hl
      cases h
      unfold namespaceMark? at hl
      have mark {p : NamespacePattern} : Quiet (.namespaceMark p) := ⟨fun _ => rfl, rfl⟩
      split at hl <;> cases hl <;> obtain ⟨rfl, hr⟩ := List.cons.inj ‹_ = _›
      · exact ⟨.inr ⟨mark, ⟨fun _ => rfl, rfl⟩⟩, one_covered hr⟩
      · exact ⟨.inr ⟨mark, delim⟩, one_covered hr⟩
      · exact ⟨.inr ⟨mark, delim⟩, none_covered⟩
    · cases h
      exact ⟨.inl rfl, none_covered⟩

theorem voids_gap : voids d (tokens (gap place t) ++ ms) = voids d ms := by
  unfold gap
  split
  · rfl
  · split
    · rfl
    · exact voids_quiet ⟨fun _ => rfl, rfl⟩

theorem Fuses.voids (h : Fuses ms out) : voids d ms = voids d out := by
  induction h generalizing d with
  | nil => rfl
  | @name p n ms out _ ih =>
      have label : Quiet (.namespaceMark p) := ⟨fun _ => rfl, rfl⟩
      have name : Quiet (.qualifiedName p n) := ⟨fun _ => rfl, rfl⟩
      rw [voids_quiet label, voids_localToken, voids_quiet name, ih]
  | kept _ _ ih => rw [voids_cons, voids_cons, ih]

theorem mark_voids (more : ∀ t ∈ us, t.isEof = false)
    (covered : ∀ t ∈ us.take place.covered, Quiet t) :
    voids place.depth (tokens (mark place q us).items) = voids place.depth us := by
  have none_covered {place : Place} {us : List Token} (h : ¬ 0 < place.covered) :
      ∀ u ∈ us.take place.covered, Quiet u := by
    rw [Nat.eq_zero_of_not_pos h]
    exact nofun
  fun_induction mark place q us with
  | case1 => rfl
  | case2 place q t us ht => exact absurd (more t List.mem_cons_self) (by simp [ht])
  | case3 place q t us ht hc ih =>
      obtain ⟨n, hn⟩ := Nat.exists_eq_add_of_lt hc
      rw [hn] at covered
      obtain ⟨quiet, covered⟩ := List.forall_mem_cons.mp covered
      rw [voids_quiet quiet]
      exact ih (List.forall_mem_cons.mp more).2 (by rw [hn]; exact covered)
  | case4 place q t us ht hc hd after =>
      rename_i ih
      rw [tokens_cons, voids_cons, voids_cons]
      congr 1
      exact ih (List.forall_mem_cons.mp more).2 (none_covered hc)
  | case5 place q t us ht hc hd hw ih =>
      obtain rfl := Token.eq_whitespace (Bool.and_eq_true_iff.mp hw).1
      have space : Quiet .whitespace := ⟨fun _ => rfl, rfl⟩
      rw [voids_quiet space]
      exact ih (List.forall_mem_cons.mp more).2 (none_covered hc)
  | case6 place q t us ht hc hd hw m width hm after =>
      rename_i ih
      obtain ⟨same, covered⟩ := composed_quiet hm
      have ih : voids (depthAfter 0 m) (tokens after.items) = voids (depthAfter 0 m) us := by
        rw [depthAfter_zero]
        exact ih (List.forall_mem_cons.mp more).2 covered
      rw [Nat.eq_zero_of_not_pos hd, tokens_append, voids_gap, tokens_cons]
      -- A token that stays may open a group. One that is composed leaves the depth as it is.
      rcases same with rfl | ⟨composed, raw⟩
      · rw [voids_cons, voids_cons, ih]
      · rw [depthAfter_inert composed.inert] at ih
        rw [voids_quiet composed, voids_quiet raw, ih]

theorem gap_length (place : Place) (t : Token) :
    (gap place t).length ≤ place.space.toList.length := by
  unfold gap
  split
  · exact Nat.zero_le _
  · rename_i hs
    split
    · exact Nat.zero_le _
    · rw [hs]
      exact Nat.le_refl _

theorem mark_length (place : Place) (q : Nat) (ts : List Token) :
    (mark place q ts).items.length ≤ place.space.toList.length + ts.length := by
  fun_induction mark place q ts with
  | case1 => exact Nat.zero_le _
  | case2 => exact Nat.zero_le _
  | case3 place q t ts ht hc ih => exact Nat.le_succ_of_le ih
  | case4 place q t ts ht hc hd after ih => exact Nat.succ_le_succ ih
  | case5 place q t ts ht hc hd hw ih =>
      refine Nat.le_trans ih ?_
      cases place.space <;> simp [Nat.add_comm]
  | case6 place q t ts ht hc hd hw m width hm after ih =>
      rw [Option.toList_none, List.length_nil, Nat.zero_add] at ih
      rw [List.length_append]
      exact Nat.add_le_add (gap_length place t) (Nat.succ_le_succ ih)

theorem Fuses.length_le (h : Fuses ms out) : out.length ≤ ms.length := by
  induction h with
  | nil => exact Nat.le_refl _
  | name _ ih => exact Nat.succ_le_succ (Nat.le_succ_of_le ih)
  | kept _ _ ih => exact Nat.succ_le_succ ih

end Lexeme

namespace Cursor

open Lexeme Token

variable {ts : List Token} {lexemes : Cursor}

theorem fuses_of_prepare (h : prepare ts = .ok lexemes) :
    Fuses (tokens (mark .start 0 ts).items) (tokens lexemes.items) := by
  simp only [prepare] at h
  split at h
  · cases h
  · rename_i hf
    cases h
    exact fuse_sound hf

theorem prepare_length (h : prepare ts = .ok lexemes) : lexemes.items.length ≤ ts.length := by
  have fused := (fuses_of_prepare h).length_le
  have marked := mark_length .start 0 ts
  simp only [tokens, List.length_map] at fused
  exact Nat.le_trans fused (Nat.le_trans marked (Nat.le_of_eq (Nat.zero_add _)))

theorem prepare_voids (h : prepare ts = .ok lexemes) :
    voids 0 (tokens lexemes.items) = voids 0 (ts.takeWhile fun t => !t.isEof) := by
  have more : ∀ t ∈ ts.takeWhile (fun t => !t.isEof), t.isEof = false := by
    intro t ht
    simpa using List.all_eq_true.mp List.all_takeWhile t ht
  have marked : voids Place.start.depth (tokens (mark .start 0 _).items) = _ :=
    mark_voids more (List.forall_mem_nil _)
  rw [mark_takeWhile] at marked
  exact (fuses_of_prepare h).voids.symm.trans marked

end Cursor

namespace SelectorList

open Token

variable {ts : List Token} {l : SelectorList}

theorem ofTokens_voids (h : ofTokens ts = .ok l) :
    (l.members.flatMap (·.ancestors)).countP Step.isVoid =
      voids 0 (ts.takeWhile fun t => !t.isEof) := by
  obtain ⟨lexemes, composed, members⟩ := ofTokens_eq_ok_iff.mp h
  rw [← Cursor.prepare_voids composed]
  exact members.voids.symm

theorem ofTokens_joined_iff (h : ofTokens ts = .ok l) :
    (∀ s ∈ l.members, ∀ step ∈ s.ancestors, step.combinator ≠ .none) ↔
      .combinator .none ∉ outer 0 (ts.takeWhile fun t => !t.isEof) := by
  have counted : (∀ step ∈ l.members.flatMap (·.ancestors), ¬ step.isVoid = true) ↔
      ∀ t ∈ outer 0 (ts.takeWhile fun t => !t.isEof), ¬ t.isVoid = true := by
    rw [← List.countP_eq_zero, ofTokens_voids h, voids, List.countP_eq_zero]
  have absent {us : List Token} : (∀ t ∈ us, ¬ t.isVoid = true) ↔ .combinator .none ∉ us := by
    constructor
    · exact fun h hm => h _ hm rfl
    · exact fun h t ht void => h (isVoid_iff.mp void ▸ ht)
  rw [absent] at counted
  rw [← counted]
  simp only [List.forall_mem_flatMap, Step.isVoid, beq_iff_eq]

end SelectorList

end CssStyling

import CssStyling.Proofs.SlotMap
import CssStyling.Selector.Pool.Reader
import Mathlib

namespace CssStyling

namespace SlotMap

variable {α : Type} {m : SlotMap α} {k : Key} {a b : α}

theorem get?_insert_self (h : m.Valid) : (m.insert a).2.get? (m.insert a).1 = some a := by
  rw [get?_insert h, if_pos rfl]

theorem get?_insert_of_get? (h : m.Valid) (hk : m.get? k = some b) :
    (m.insert a).2.get? k = some b := by
  have other : k ≠ (m.insert a).1 := by
    rintro rfl
    rw [get?_insert_key h a] at hk
    cases hk
  rw [get?_insert h, if_neg other, hk]

theorem FreeList.insert (h : m.FreeList []) (a : α) :
    (m.insert a).2.FreeList [] ∧ (m.insert a).2.slots.size = m.slots.size + 1 := by
  rw [h.insert_nil a]
  exact ⟨freeList_push h a, Array.size_push ..⟩

end SlotMap

abbrev Extent : Type :=
  Nat × Nat × Nat

def Compound.extent (c : Compound) : Extent :=
  (c.simples.length, 1, 0)

def Complex.extent (s : Complex) : Extent :=
  (s.steps.map (·.compound.extent)).sum

theorem Complex.extent_cons {step : Step} {ancestors : List Step} {subject : Compound}
    {specificity : Specificity} : extent ⟨step :: ancestors, subject, specificity⟩ =
      step.compound.extent + extent ⟨ancestors, subject, specificity⟩ := by
  simp [extent, steps]

theorem Complex.extent_nil {subject : Compound} {specificity : Specificity} :
    extent ⟨[], subject, specificity⟩ = subject.extent := by
  simp [extent, steps]

namespace SelectorPool

variable {p q r : SelectorPool} {k : Key} {n n' : Extent}

def extent (p : SelectorPool) : Extent :=
  (p.simples.slots.size, p.compounds.slots.size, p.complexes.slots.size)

structure Full (p : SelectorPool) : Prop where
  simples : p.simples.FreeList []
  compounds : p.compounds.FreeList []
  complexes : p.complexes.FreeList []

theorem full_empty : empty.Full :=
  ⟨SlotMap.freeList_empty, SlotMap.freeList_empty, SlotMap.freeList_empty⟩

structure Grows (p q : SelectorPool) (n : Extent) : Prop where
  full : q.Full
  simple {k : Key} {s : Simple} : p.simples.get? k = some s → q.simples.get? k = some s
  compound {k : Key} {node : CompoundNode} :
    p.compounds.get? k = some node → q.compounds.get? k = some node
  complex {k : Key} {node : ComplexNode} :
    p.complexes.get? k = some node → q.complexes.get? k = some node
  extent : q.extent = p.extent + n

theorem Grows.refl (h : p.Full) : p.Grows p 0 :=
  ⟨h, id, id, id, (add_zero _).symm⟩

theorem Grows.trans (h : p.Grows q n) (h' : q.Grows r n') : p.Grows r (n + n') where
  full := h'.full
  simple hs := h'.simple (h.simple hs)
  compound hc := h'.compound (h.compound hc)
  complex hc := h'.complex (h.complex hc)
  extent := by rw [h'.extent, h.extent, add_assoc]

theorem Grows.congr (h : p.Grows q n) (hn : n = n') : p.Grows q n' :=
  hn ▸ h

theorem grows_addSimple (h : p.Full) (s : Simple) : p.Grows (p.addSimple s).2 (1, 0, 0) where
  full := { h with simples := (h.simples.insert s).1 }
  simple := SlotMap.get?_insert_of_get? ⟨_, h.simples⟩
  compound := id
  complex := id
  extent := congrArg (·, _) (h.simples.insert s).2

theorem grows_addCompound (h : p.Full) (node : CompoundNode) :
    p.Grows (p.addCompound node).2 (0, 1, 0) where
  full := { h with compounds := (h.compounds.insert node).1 }
  simple := id
  compound := SlotMap.get?_insert_of_get? ⟨_, h.compounds⟩
  complex := id
  extent := congrArg (_, ·, _) (h.compounds.insert node).2

theorem grows_addComplex (h : p.Full) (node : ComplexNode) :
    p.Grows (p.addComplex node).2 (0, 0, 1) where
  full := { h with complexes := (h.complexes.insert node).1 }
  simple := id
  compound := id
  complex := SlotMap.get?_insert_of_get? ⟨_, h.complexes⟩
  extent := congrArg (_, _, ·) (h.complexes.insert node).2

def HoldsSimple (p : SelectorPool) (k : Key) (s : Simple) : Prop :=
  p.simples.get? k = some s

def HoldsCompound (p : SelectorPool) (k : Key) (c : Compound) : Prop :=
  ∃ node, p.compounds.get? k = some node ∧ List.Forall₂ p.HoldsSimple node.simples c.simples

structure HoldsStep (p : SelectorPool) (node : StepNode) (s : Step) : Prop where
  compound : p.HoldsCompound node.compound s.compound
  combinator : node.combinator = s.combinator

structure HoldsNode (p : SelectorPool) (node : ComplexNode) (s : Complex) : Prop where
  ancestors : List.Forall₂ p.HoldsStep node.ancestors s.ancestors
  subject : p.HoldsCompound node.subject s.subject
  specificity : node.specificity = s.specificity

def HoldsComplex (p : SelectorPool) (k : Key) (s : Complex) : Prop :=
  ∃ node, p.complexes.get? k = some node ∧ p.HoldsNode node s

theorem Grows.simples {ks : List Key} {ss : List Simple} (h : p.Grows q n)
    (hs : List.Forall₂ p.HoldsSimple ks ss) : List.Forall₂ q.HoldsSimple ks ss :=
  hs.imp fun _ _ => h.simple

theorem HoldsCompound.mono {c : Compound} (hc : p.HoldsCompound k c) (h : p.Grows q n) :
    q.HoldsCompound k c := by
  obtain ⟨node, found, held⟩ := hc
  exact ⟨node, h.compound found, h.simples held⟩

theorem HoldsNode.mono {node : ComplexNode} {s : Complex} (hs : p.HoldsNode node s)
    (h : p.Grows q n) : q.HoldsNode node s where
  ancestors := hs.ancestors.imp fun _ _ held => ⟨held.compound.mono h, held.combinator⟩
  subject := hs.subject.mono h
  specificity := hs.specificity

theorem HoldsComplex.mono {s : Complex} (hs : p.HoldsComplex k s) (h : p.Grows q n) :
    q.HoldsComplex k s := by
  obtain ⟨node, found, held⟩ := hs
  exact ⟨node, h.complex found, held.mono h⟩

def HoldsSimples (p : SelectorPool) (found : List Key × Specificity)
    (read : List Simple × Specificity) : Prop :=
  List.Forall₂ p.HoldsSimple found.1 read.1 ∧ found.2 = read.2

def HoldsCounted (p : SelectorPool) (found : Key × Specificity) (read : Compound × Specificity) :
    Prop :=
  p.HoldsCompound found.1 read.1 ∧ found.2 = read.2

end SelectorPool

inductive Alike {α β ε : Type} (R : α → β → Prop) : Except ε α → Except ε β → Prop
  | failed {e : ε} : Alike R (.error e) (.error e)
  | read {a : α} {b : β} (h : R a b) : Alike R (.ok a) (.ok b)

namespace Alike

variable {α β ε : Type} {R : α → β → Prop} {x : Except ε α} {y : Except ε β} {a : α} {b : β}

theorem of_left (h : Alike R x y) (hx : x = .ok a) : ∃ b, y = .ok b ∧ R a b := by
  cases h with
  | failed => cases hx
  | read h =>
      cases hx
      exact ⟨_, rfl, h⟩

theorem of_error {e : ε} (h : Alike R x y) (hx : x = .error e) : y = .error e := by
  cases h with
  | failed => exact Except.error.inj hx ▸ rfl
  | read => cases hx

theorem of_right (h : Alike R x y) (hy : y = .ok b) : ∃ a, x = .ok a ∧ R a b := by
  cases h with
  | failed => cases hy
  | read h =>
      cases hy
      exact ⟨_, rfl, h⟩

end Alike

namespace Grammar

open SelectorPool

variable {α β : Type} {p : SelectorPool} {finish : Nat} {total : Specificity}
  {items rest : List Lexeme} {e : SyntaxError}

inductive KeptAs (p : SelectorPool) (holds : SelectorPool → α → β → Prop) (extent : β → Extent)
    (kept : Pooled α items) : β × List Lexeme → Prop
  | intro {b : β} (grows : p.Grows kept.pool (extent b))
      (room : (extent b).1 + kept.rest.length ≤ items.length)
      (held : holds kept.pool kept.found b) : KeptAs p holds extent kept (b, kept.rest)

abbrev Keeps (p : SelectorPool) (holds : SelectorPool → α → β → Prop) (extent : β → Extent)
    (x : Except SyntaxError (Pooled α items)) (y : Except SyntaxError (β × List Lexeme)) : Prop :=
  Alike (KeptAs p holds extent) x y

theorem Keeps.of_ok {holds : SelectorPool → α → β → Prop} {extent : β → Extent}
    {kept : Pooled α items} {x : Except SyntaxError (Pooled α items)}
    {y : Except SyntaxError (β × List Lexeme)} (h : Keeps p holds extent x y) (hx : x = .ok kept) :
    ∃ b, y = .ok (b, kept.rest) ∧ p.Grows kept.pool (extent b) ∧
      (extent b).1 + kept.rest.length ≤ items.length ∧ holds kept.pool kept.found b := by
  obtain ⟨_, hy, ⟨grows, room, held⟩⟩ := h.of_left hx
  exact ⟨_, hy, grows, room, held⟩

theorem simples_error (h : simple? finish items = .error e) :
    simples finish total items = .error e := by
  rw [simples]
  split <;> rename_i h' <;> rw [h] at h' <;> cases h'
  rfl

theorem simples_none (h : simple? finish items = .ok none) :
    simples finish total items = .ok (([], total), items) := by
  rw [simples]
  split <;> rename_i h' <;> rw [h] at h' <;> cases h'

theorem simples_some {s : Simple} (h : simple? finish items = .ok (some (s, rest))) :
    simples finish total items = (simples finish (total + .ofSimple s) rest).map
      fun others => ((s :: others.1.1, others.1.2), others.2) := by
  rw [simples]
  split <;> rename_i h' <;> rw [h] at h' <;> cases h'
  cases simples finish (total + .ofSimple s) rest <;> rfl

theorem simples_keeps (finish : Nat) (p : SelectorPool) (total : Specificity)
    (items : List Lexeme) (hp : p.Full) :
    Keeps p HoldsSimples (fun read => (read.1.length, 0, 0)) (keepSimples finish p total items)
      (simples finish total items) := by
  fun_induction keepSimples finish p total items with
  | case1 p total items e h =>
      rw [simples_error h]
      exact .failed
  | case2 p total items h =>
      rw [simples_none h]
      exact .read ⟨.refl hp, (Nat.zero_add _).le, .nil, rfl⟩
  | case3 p total items s rest h key q added e failed ih =>
      obtain ⟨rfl, rfl⟩ := Prod.ext_iff.mp added
      rw [simples_some h, (ih (grows_addSimple hp s).full).of_error failed]
      exact .failed
  | case4 p total items s rest h key q added others kept ih =>
      obtain ⟨rfl, rfl⟩ := Prod.ext_iff.mp added
      have grows := grows_addSimple hp s
      obtain ⟨read, hr, grows', room, held⟩ := (ih grows.full).of_ok kept
      -- The first key stays what it is while the others are added.
      have first := grows'.simple (SlotMap.get?_insert_self ⟨_, hp.simples⟩)
      have lt := simple_length_lt h
      rw [simples_some h, hr]
      refine .read ⟨(grows.trans grows').congr ?_, ?_, .cons first held.1, held.2⟩
      · simp [add_comm]
      · simp only [List.length_cons] at room ⊢
        omega

theorem addLeading_holds (hp : p.Full) (first : Option Simple) :
    p.Grows (p.addLeading first).2 (first.toList.length, 0, 0) ∧
      List.Forall₂ (p.addLeading first).2.HoldsSimple (p.addLeading first).1 first.toList := by
  cases first with
  | none => exact ⟨.refl hp, .nil⟩
  | some s =>
      exact ⟨grows_addSimple hp s, .cons (SlotMap.get?_insert_self ⟨_, hp.simples⟩) .nil⟩

theorem leading_room {first : Option Simple} (h : leading finish items = .ok (first, rest)) :
    first.toList.length + rest.length ≤ items.length := by
  cases items with
  | nil =>
      cases h
      rfl
  | cons item items =>
      simp only [leading] at h
      split at h
      · cases h
        exact (Nat.zero_add _).le
      · split at h <;> cases h
        exact (Nat.add_comm _ _).le

theorem compound_keeps (finish : Nat) (p : SelectorPool) (total : Specificity)
    (items : List Lexeme) (hp : p.Full) :
    Keeps p HoldsCounted (·.1.extent) (keepCompound finish p total items)
      (compound finish total items) := by
  unfold keepCompound compound
  split
  · rename_i h
    simp only [h]
    exact .failed
  · rename_i first rest h
    simp only [h]
    obtain ⟨grows, front⟩ := addLeading_holds hp first
    have others := simples_keeps finish (p.addLeading first).2
      (first.elim total (total + .ofSimple ·)) rest grows.full
    generalize keepSimples finish _ _ rest = kept, simples finish _ rest = read at others ⊢
    cases others with
    | failed => exact .failed
    | @read kept _ h =>
        obtain @⟨others, grows', room, held⟩ := h
        have all : List.Forall₂ kept.pool.HoldsSimple ((p.addLeading first).1 ++ kept.found.1)
            (first.toList ++ others.1) := List.rel_append (grows'.simples front) held.1
        have room' := leading_room h
        have length : (first.toList ++ others.1).length = first.toList.length + others.1.length :=
          List.length_append
        dsimp only at room ⊢
        -- A compound is refused if it has no keys, which is if it has no simple selectors.
        generalize (p.addLeading first).1 ++ kept.found.1 = keys,
          first.toList ++ others.1 = ss at all length ⊢
        cases all with
        | nil => exact .failed
        | @cons key s keys ss h hs =>
            have grows'' := grows_addCompound grows'.full ⟨key :: keys⟩
            refine .read ⟨((grows.trans grows').trans grows'').congr ?_, ?_, ?_, held.2⟩
            · simp [Compound.extent, length]
            · simp only [Compound.extent, length]
              omega
            · exact ⟨_, SlotMap.get?_insert_self ⟨_, grows'.full.compounds⟩,
                grows''.simples (.cons h hs)⟩

theorem steps_error (h : compound finish total items = .error e) :
    steps finish total items = .error e := by
  rw [steps]
  split <;> rename_i h' <;> rw [h] at h' <;> cases h'
  rfl

theorem steps_combinator {c : Compound} {k : Combinator} {position : Nat} {total' : Specificity}
    (h : compound finish total items = .ok ((c, total'), ⟨.combinator k, position⟩ :: rest)) :
    steps finish total items =
      if endsMember rest then fail finish .danglingCombinator (⟨.combinator k, position⟩ :: rest)
      else (steps finish total' rest).map
        fun others => ({ others.1 with ancestors := ⟨c, k⟩ :: others.1.ancestors }, others.2) := by
  rw [steps]
  split
  · rename_i h'
    rw [h] at h'
    cases h'
  · rename_i h'
    rw [h] at h'
    cases h'
    split
    · rfl
    · cases steps finish total' rest <;> rfl
  · rename_i last h'
    rw [h] at h'
    cases h'
    exact absurd rfl (last _ _ _)

theorem steps_subject {c : Compound} {total' : Specificity}
    (h : compound finish total items = .ok ((c, total'), rest))
    (last : ∀ k position others, rest ≠ ⟨.combinator k, position⟩ :: others) :
    steps finish total items = .ok (⟨[], c, total'⟩, rest) := by
  rw [steps]
  split <;> rename_i h' <;> rw [h] at h' <;> cases h'
  · exact absurd rfl (last _ _ _)
  · rfl

theorem steps_keeps (finish : Nat) (p : SelectorPool) (total : Specificity) (items : List Lexeme)
    (hp : p.Full) :
    Keeps p HoldsNode (·.extent) (keepSteps finish p total items) (steps finish total items) := by
  have first {p : SelectorPool} {total : Specificity} {items : List Lexeme} (hp : p.Full) :=
    compound_keeps finish p total items hp
  fun_induction keepSteps finish p total items with
  | case1 p total items e failed =>
      rw [steps_error ((first hp).of_error failed)]
      exact .failed
  | case2 p total items kept hk k position rest hr dangling =>
      obtain ⟨⟨c, total'⟩, hc, -⟩ := (first hp).of_ok hk
      rw [hr] at hc
      rw [steps_combinator hc, if_pos dangling]
      exact .failed
  | case3 p total items kept hk k position rest hr more e failed ih =>
      obtain ⟨⟨c, total'⟩, hc, grows, room, held, rfl⟩ := (first hp).of_ok hk
      rw [hr] at hc
      rw [steps_combinator hc, if_neg more, (ih grows.full).of_error failed]
      exact .failed
  | case4 p total items kept hk k position rest hr more others ho ih =>
      obtain ⟨⟨c, total'⟩, hc, grows, room, held, rfl⟩ := (first hp).of_ok hk
      rw [hr] at hc
      obtain ⟨s, hs, grows', room', held'⟩ := (ih grows.full).of_ok ho
      rw [steps_combinator hc, if_neg more, hs]
      have step : others.pool.HoldsStep ⟨kept.found.1, k⟩ ⟨c, k⟩ := ⟨held.mono grows', rfl⟩
      have joined : Complex.extent ⟨⟨c, k⟩ :: s.ancestors, s.subject, s.specificity⟩ =
          c.extent + s.extent := Complex.extent_cons
      have simples := congrArg Prod.fst joined
      rw [Prod.fst_add] at simples
      rw [hr, List.length_cons] at room
      refine .read ⟨(grows.trans grows').congr joined.symm, ?_, .cons step held'.ancestors,
        held'.subject, held'.specificity⟩
      refine (Nat.add_le_add_right simples.le _).trans ?_
      dsimp only at room room' ⊢
      omega
  | case5 p total items kept hk last =>
      obtain ⟨⟨c, total'⟩, hc, grows, room, held, rfl⟩ := (first hp).of_ok hk
      rw [steps_subject hc last]
      exact .read ⟨grows.congr Complex.extent_nil.symm,
        (congrArg (·.1 + kept.rest.length) Complex.extent_nil).le.trans room, .nil, held, rfl⟩

theorem complex_keeps (finish : Nat) (p : SelectorPool) (items : List Lexeme) (hp : p.Full) :
    Keeps p HoldsComplex (·.extent + (0, 0, 1)) (keepComplex finish p items)
      (complex finish items) := by
  unfold keepComplex complex
  split
  · exact .failed
  · have steps := steps_keeps finish p .zero items hp
    generalize keepSteps finish p .zero items = kept, Grammar.steps finish .zero items = read
      at steps ⊢
    cases steps with
    | failed => exact .failed
    | @read kept _ h =>
        obtain ⟨grows, room, held⟩ := h
        have grows' := grows_addComplex grows.full kept.found
        exact .read ⟨grows.trans grows', room, _,
          SlotMap.get?_insert_self ⟨_, grows.full.complexes⟩, held.mono grows'⟩

theorem members_error (h : complex finish items = .error e) : members finish items = .error e := by
  rw [members]
  split <;> rename_i h' <;> rw [h] at h' <;> cases h'
  rfl

theorem members_last {s : Complex} (h : complex finish items = .ok (s, [])) :
    members finish items = .ok [s] := by
  rw [members]
  split <;> simp_all

theorem members_comma {s : Complex} {position : Nat}
    (h : complex finish items = .ok (s, ⟨.comma, position⟩ :: rest)) :
    members finish items = (members finish rest).map (s :: ·) := by
  rw [members]
  split
  · simp_all
  · simp_all
  · rename_i h'
    rw [h] at h'
    cases h'
    cases members finish rest <;> rfl
  · simp_all

theorem members_unexpected {s : Complex} (h : complex finish items = .ok (s, rest))
    (more : rest ≠ []) (other : ∀ position others, rest ≠ ⟨.comma, position⟩ :: others) :
    members finish items = fail finish .unexpectedToken rest := by
  rw [members]
  split <;> rename_i h' <;> rw [h] at h' <;> cases h'
  · exact absurd rfl more
  · exact absurd rfl (other _ _)
  · rfl

def membersExtent (ss : List Complex) : Extent :=
  (ss.map (·.extent + (0, 0, 1))).sum

theorem membersExtent_cons {s : Complex} {ss : List Complex} :
    membersExtent (s :: ss) = s.extent + (0, 0, 1) + membersExtent ss := by
  rw [membersExtent, List.map_cons, List.sum_cons]
  rfl

structure KeptMembers (p : SelectorPool) (items : List Lexeme) (found : List Key × SelectorPool)
    (ss : List Complex) : Prop where
  grows : p.Grows found.2 (membersExtent ss)
  room : (membersExtent ss).1 ≤ items.length
  held : List.Forall₂ found.2.HoldsComplex found.1 ss

theorem members_keeps (finish : Nat) (p : SelectorPool) (items : List Lexeme) (hp : p.Full) :
    Alike (KeptMembers p items) (keepMembers finish p items) (members finish items) := by
  have first {p : SelectorPool} {items : List Lexeme} (hp : p.Full) :=
    complex_keeps finish p items hp
  fun_induction keepMembers finish p items with
  | case1 p items e failed =>
      rw [members_error ((first hp).of_error failed)]
      exact .failed
  | case2 p items kept hk hr =>
      obtain ⟨s, hs, grows, room, held⟩ := (first hp).of_ok hk
      rw [hr] at hs
      have one : membersExtent [s] = s.extent + (0, 0, 1) := membersExtent_cons.trans (add_zero _)
      rw [members_last hs]
      refine .read ⟨grows.congr one.symm, ?_, .cons held .nil⟩
      rw [one]
      exact (Nat.le_add_right _ _).trans room
  | case3 p items kept hk position rest hr e failed ih =>
      obtain ⟨s, hs, grows, room, held⟩ := (first hp).of_ok hk
      have others := ih grows.full
      rw [hr] at hs
      rw [failed] at others
      rw [members_comma hs]
      generalize members finish rest = read at others ⊢
      cases others
      exact .failed
  | case4 p items kept hk position rest hr ks q ho ih =>
      obtain ⟨s, hs, grows, room, held⟩ := (first hp).of_ok hk
      have others := ih grows.full
      rw [hr] at hs
      rw [ho] at others
      rw [members_comma hs]
      generalize members finish rest = read at others ⊢
      cases others with
      | read others =>
          have room' := others.room
          refine .read ⟨(grows.trans others.grows).congr membersExtent_cons.symm, ?_,
            .cons (held.mono others.grows) others.held⟩
          rw [hr, List.length_cons] at room
          rw [membersExtent_cons, Prod.fst_add]
          omega
  | case5 p items kept hk more other =>
      obtain ⟨s, hs, -⟩ := (first hp).of_ok hk
      rw [members_unexpected hs more other]
      exact .failed

end Grammar

end CssStyling

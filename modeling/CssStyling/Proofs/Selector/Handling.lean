import CssStyling.Proofs.Selector.Pooling
import CssStyling.Proofs.Selector.Shaping

namespace CssStyling

theorem SlotMap.find_ok {α : Type} {m : SlotMap α} {k : Key} {a : α} (h : m.get? k = some a) :
    m.find k = .ok a := by
  rw [find, h]

section Lists

variable {α β ε : Type}

theorem mapM_ok {f : α → Except ε β} {xs : List α} {ys : List β}
    (h : List.Forall₂ (fun x y => f x = .ok y) xs ys) : xs.mapM f = .ok ys := by
  induction h with
  | nil => rfl
  | cons first _ ih =>
      rw [List.mapM_cons, first, ih]
      rfl

theorem forall_mem_iff_of_forall₂ {R : α → β → Prop} {P : α → Prop} {Q : β → Prop} {xs : List α}
    {ys : List β} (h : List.Forall₂ R xs ys) (same : ∀ x y, R x y → (P x ↔ Q y)) :
    (∀ x ∈ xs, P x) ↔ ∀ y ∈ ys, Q y := by
  induction h with
  | nil => exact ⟨fun _ => List.forall_mem_nil _, fun _ => List.forall_mem_nil _⟩
  | cons first _ ih => rw [List.forall_mem_cons, List.forall_mem_cons, same _ _ first, ih]

variable [BEq α] {xs ys : List α} {a b : α}

theorem append_beq_append : (xs ++ [a] == ys ++ [b]) = (xs == ys && a == b) := by
  induction xs generalizing ys with
  | nil =>
      cases ys with
      | nil => exact List.cons_beq_cons.trans (Bool.and_true _)
      | cons y ys =>
          have longer : ([] == ys ++ [b]) = false := by cases ys <;> rfl
          exact List.cons_beq_cons.trans ((congrArg _ longer).trans (Bool.and_false _))
  | cons x xs ih =>
      cases ys with
      | nil =>
          have longer : (xs ++ [a] == []) = false := by cases xs <;> rfl
          exact List.cons_beq_cons.trans ((congrArg _ longer).trans (Bool.and_false _))
      | cons y ys =>
          rw [List.cons_append, List.cons_append, List.cons_beq_cons, List.cons_beq_cons, ih,
            Bool.and_assoc]

theorem beq_of_length_ne (h : xs.length ≠ ys.length) : (xs == ys) = false :=
  Bool.eq_false_iff.mpr fun same => h (List.length_eq_of_beq same)

theorem zipWith_beq_all (h : xs.length = ys.length) :
    (List.zipWith (· == ·) xs ys).all id = (xs == ys) := by
  induction xs generalizing ys with
  | nil =>
      obtain rfl := List.eq_nil_of_length_eq_zero h.symm
      rfl
  | cons x xs ih =>
      cases ys with
      | nil => cases h
      | cons y ys =>
          rw [List.zipWith_cons_cons, List.all_cons, List.cons_beq_cons, ih (Nat.succ.inj h)]
          rfl

end Lists

open SelectorPool

namespace CompoundHandle

variable {c : CompoundHandle} {compound : Compound}

structure Answers (c : CompoundHandle) (compound : Compound) : Prop where
  simples : c.simples = .ok compound.simples
  size : c.size = .ok compound.size
  isEmpty : c.isEmpty = .ok compound.isEmpty
  value : c.value = .ok compound
  equals : ∀ d other, d.value = .ok other → c.equals d = .ok (compound == other)
  text : c.text = .ok compound.text
  diagnostic : c.diagnostic = .ok compound.diagnostic

theorem size_beq_zero : (compound.size == 0) = compound.isEmpty := by
  obtain ⟨simples⟩ := compound
  cases simples <;> rfl

theorem answers (h : c.pool.HoldsCompound c.key compound) : c.Answers compound := by
  obtain ⟨node, found, held⟩ := h
  have node : c.node = .ok node := SlotMap.find_ok found
  have simples : c.simples = .ok compound.simples := by
    rw [CompoundHandle.simples, node]
    exact mapM_ok (held.imp fun _ _ => SlotMap.find_ok)
  have size : c.size = .ok compound.size := by
    rw [CompoundHandle.size, node]
    exact congrArg Except.ok held.length_eq
  have value : c.value = .ok compound := by
    rw [CompoundHandle.value, simples]
    rfl
  refine ⟨simples, size, ?_, value, fun d other found => ?_, ?_, ?_⟩
  · rw [isEmpty, size]
    exact congrArg Except.ok size_beq_zero
  · rw [equals, value, found]
    rfl
  · rw [text, value]
    rfl
  · rw [diagnostic, value]
    rfl

end CompoundHandle

structure StepHandle.Answers (s : StepHandle) (step : Step) : Prop where
  compound : s.compound.Answers step.compound
  combinator : s.combinator = step.combinator

theorem StepHandle.Answers.value {s : StepHandle} {step : Step} (h : s.Answers step) :
    s.value = .ok step := by
  rw [StepHandle.value, h.compound.value, h.combinator]
  rfl

theorem StepHandle.combinators_eq {steps : List StepHandle} {values : List Step}
    (h : List.Forall₂ StepHandle.Answers steps values) :
    steps.map (·.combinator) = values.map (·.combinator) := by
  rw [← List.forall₂_eq_eq_eq, List.forall₂_map_left_iff, List.forall₂_map_right_iff]
  exact h.imp fun _ _ step => step.combinator

namespace ComplexHandle

variable {s t : ComplexHandle} {selector other : Complex}

structure Answers (s : ComplexHandle) (selector : Complex) : Prop where
  steps : ∃ steps, s.steps = .ok steps ∧ List.Forall₂ StepHandle.Answers steps selector.steps ∧
    ∀ i, s.step? i = .ok steps[i]?
  size : s.size = .ok selector.size
  subject : ∃ c, s.subject = .ok c ∧ c.Answers selector.subject
  specificity : s.specificity = .ok selector.specificity
  stepValues : s.stepValues = .ok selector.steps
  equals : ∀ t other, t.size = .ok other.size → t.stepValues = .ok other.steps →
    s.equals t = .ok (selector == other)
  countedSpecificity : s.countedSpecificity = .ok selector.countedSpecificity
  chars : s.chars = .ok selector.chars
  text : s.text = .ok selector.text
  diagnostic : s.diagnostic = .ok selector.diagnostic

theorem step?_of_node {node : ComplexNode} (h : s.node = .ok node) (i : Nat) :
    s.step? i = .ok (node.ancestors.map s.ancestorStep ++ [s.subjectStep node])[i]? := by
  have length : (node.ancestors.map s.ancestorStep).length = node.ancestors.length :=
    List.length_map _
  rw [step?, h]
  simp only [bind, Except.bind]
  split <;> rename_i hi
  · have before : i < node.ancestors.length := Nat.compare_eq_lt.mp hi
    rw [List.getElem?_append_left (length ▸ before), List.getElem?_map]
    rfl
  · obtain rfl : i = node.ancestors.length := Nat.compare_eq_eq.mp hi
    rw [← length, List.getElem?_concat_length]
    rfl
  · have beyond : node.ancestors.length < i := Nat.compare_eq_gt.mp hi
    rw [List.getElem?_eq_none]
    · rfl
    · rw [List.length_append, length]
      exact beyond

theorem equals_ok (size : s.size = .ok selector.size) (size' : t.size = .ok other.size)
    (values : s.stepValues = .ok selector.steps) (values' : t.stepValues = .ok other.steps) :
    s.equals t = .ok (selector == other) := by
  have same : (selector.steps == other.steps) = (selector == other) := by
    have subject : ((⟨selector.subject, .none⟩ : Step) == ⟨other.subject, .none⟩) =
        (selector.subject == other.subject) := Bool.and_true _
    rw [Complex.steps, Complex.steps, append_beq_append, subject]
    rfl
  rw [ComplexHandle.equals, size, size', ← same]
  simp only [bind, Except.bind]
  split
  · rw [values, values']
    rfl
  · rename_i longer
    have length : selector.steps.length ≠ other.steps.length := by
      simpa [Complex.size, Complex.steps] using longer
    rw [beq_of_length_ne length]
    rfl

theorem answers (h : s.pool.HoldsComplex s.key selector) : s.Answers selector := by
  obtain ⟨node, found, held⟩ := h
  have node_ok : s.node = .ok node := SlotMap.find_ok found
  have subject : CompoundHandle.Answers ⟨s.pool, node.subject⟩ selector.subject :=
    CompoundHandle.answers held.subject
  have steps_ok : s.steps = .ok (node.ancestors.map s.ancestorStep ++ [s.subjectStep node]) := by
    rw [ComplexHandle.steps, node_ok]
    rfl
  have steps : List.Forall₂ StepHandle.Answers
      (node.ancestors.map s.ancestorStep ++ [s.subjectStep node]) selector.steps := by
    refine List.rel_append ?_ (.cons ⟨subject, rfl⟩ .nil)
    rw [List.forall₂_map_left_iff]
    exact held.ancestors.imp fun _ _ step => ⟨CompoundHandle.answers step.compound, step.combinator⟩
  have stepValues : s.stepValues = .ok selector.steps := by
    rw [ComplexHandle.stepValues, steps_ok]
    exact mapM_ok (steps.imp fun _ _ step => step.value)
  have chars : s.chars = .ok selector.chars := by
    rw [ComplexHandle.chars, stepValues]
    rfl
  have text : s.text = .ok selector.text := by
    rw [ComplexHandle.text, chars]
    rfl
  have size : s.size = .ok selector.size := by
    rw [ComplexHandle.size, node_ok]
    exact congrArg (Except.ok <| · + 1) held.ancestors.length_eq
  refine ⟨⟨_, steps_ok, steps, step?_of_node node_ok⟩, size, ⟨_, ?_, subject⟩, ?_, stepValues,
    fun t other size' values => equals_ok size size' stepValues values, ?_, chars, text, ?_⟩
  · rw [ComplexHandle.subject, node_ok]
    rfl
  · rw [specificity, node_ok]
    exact congrArg Except.ok held.specificity
  · rw [countedSpecificity, stepValues]
    rfl
  · rw [diagnostic, text]
    rfl

end ComplexHandle

namespace SelectorListHandle

variable {l m : SelectorListHandle} {list other : SelectorList}

structure Answers (l : SelectorListHandle) (list : SelectorList) : Prop where
  members : List.Forall₂ ComplexHandle.Answers l.toList list.members
  get? : ∀ i, l.get? i = l.toList[i]?
  size : l.size = list.size
  isEmpty : l.isEmpty = list.isEmpty
  maxSpecificity : l.maxSpecificity = .ok list.maxSpecificity
  equals : ∀ m other, List.Forall₂ ComplexHandle.Answers m.toList other.members →
    l.equals m = .ok (list == other)
  text : l.text = .ok list.text
  diagnostic : l.diagnostic = .ok list.diagnostic

theorem zip_equals {ss ts : List ComplexHandle} {vs ws : List Complex}
    (h : List.Forall₂ ComplexHandle.Answers ss vs) (h' : List.Forall₂ ComplexHandle.Answers ts ws) :
    List.Forall₂ (fun x b => x.1.equals x.2 = .ok b) (ss.zip ts) (List.zipWith (· == ·) vs ws) := by
  induction h generalizing ts ws with
  | nil => exact .nil
  | cons first _ ih =>
      cases h' with
      | nil => exact .nil
      | cons first' others =>
          exact .cons (first.equals _ _ first'.size first'.stepValues) (ih others)

theorem size_eq_of_members (h : List.Forall₂ ComplexHandle.Answers l.toList list.members) :
    l.size = list.size := by
  rw [SelectorList.size, ← h.length_eq, toList, List.length_map]
  rfl

theorem equals_ok (h : List.Forall₂ ComplexHandle.Answers l.toList list.members)
    (h' : List.Forall₂ ComplexHandle.Answers m.toList other.members) :
    l.equals m = .ok (list == other) := by
  have same : (list == other) = (list.members == other.members) := rfl
  rw [SelectorListHandle.equals, size_eq_of_members h, size_eq_of_members h', same]
  split
  · rename_i length
    have length : list.members.length = other.members.length := by
      simpa [SelectorList.size] using length
    have members : (l.toList.zip m.toList).mapM (fun x => x.1.equals x.2) = .ok _ :=
      mapM_ok (zip_equals h h')
    rw [← zipWith_beq_all length]
    exact congrArg (Except.map (·.all id)) members
  · rename_i longer
    have length : list.members.length ≠ other.members.length := by
      simpa [SelectorList.size] using longer
    rw [beq_of_length_ne length]
    rfl

structure Holds (l : SelectorListHandle) (list : SelectorList) : Prop where
  members : List.Forall₂ l.pool.HoldsComplex l.members list.members
  extent : l.pool.extent = Grammar.membersExtent list.members

theorem Holds.answers (h : l.Holds list) : l.Answers list := by
  have members : List.Forall₂ ComplexHandle.Answers l.toList list.members := by
    rw [toList, List.forall₂_map_left_iff]
    exact h.members.imp fun _ _ held => ComplexHandle.answers held
  have text : l.text = .ok list.text := by
    have chars : l.toList.mapM ComplexHandle.chars = .ok (list.members.map Complex.chars) := by
      refine mapM_ok ?_
      rw [List.forall₂_map_right_iff]
      exact members.imp fun _ _ member => member.chars
    rw [SelectorListHandle.text, chars]
    rfl
  refine ⟨members, fun i => (List.getElem?_map ..).symm, size_eq_of_members members, ?_, ?_,
    fun m other => equals_ok members, text, ?_⟩
  · rw [isEmpty, SelectorList.isEmpty, Bool.eq_iff_iff, List.isEmpty_iff_length_eq_zero,
      List.isEmpty_iff_length_eq_zero, h.members.length_eq]
  · have specificities : l.toList.mapM ComplexHandle.specificity =
        .ok (list.members.map (·.specificity)) := by
      refine mapM_ok ?_
      rw [List.forall₂_map_right_iff]
      exact members.imp fun _ _ member => member.specificity
    rw [maxSpecificity, specificities]
    rfl
  · rw [diagnostic, text]
    rfl

end SelectorListHandle

namespace Complex

theorem extent_le {s : Complex} (h : ∀ step ∈ s.steps, step.compound.simples ≠ []) :
    s.extent.2.2 = 0 ∧ 0 < s.extent.2.1 ∧ s.extent.2.1 ≤ s.extent.1 := by
  obtain ⟨ancestors, subject, specificity⟩ := s
  induction ancestors with
  | nil =>
      have subject := List.forall_mem_singleton.mp h
      rw [extent_nil]
      exact ⟨rfl, Nat.zero_lt_one, List.length_pos_iff.mpr subject⟩
  | cons step ancestors ih =>
      obtain ⟨first, others⟩ := List.forall_mem_cons.mp h
      have first := List.length_pos_iff.mpr first
      obtain ⟨complexes, compounds, simples⟩ := ih others
      rw [extent_cons]
      exact ⟨(Nat.zero_add _).trans complexes, Nat.add_pos_left Nat.zero_lt_one _,
        Nat.add_le_add first simples⟩

end Complex

theorem Grammar.membersExtent_le {ss : List Complex}
    (h : ∀ s ∈ ss, ∀ step ∈ s.steps, step.compound.simples ≠ []) :
    (membersExtent ss).2.2 ≤ (membersExtent ss).2.1 ∧
      (membersExtent ss).2.1 ≤ (membersExtent ss).1 := by
  induction ss with
  | nil => exact ⟨Nat.le_refl _, Nat.le_refl _⟩
  | cons s ss ih =>
      obtain ⟨first, others⟩ := List.forall_mem_cons.mp h
      obtain ⟨complexes, compounds, simples⟩ := Complex.extent_le first
      have others := ih others
      rw [membersExtent_cons]
      simp only [Prod.fst_add, Prod.snd_add, complexes]
      omega

namespace ComplexHandle

variable {s : ComplexHandle} {selector : Complex}

structure Shaped (s : ComplexHandle) (steps : List StepHandle) : Prop where
  found : s.steps = .ok steps
  nonempty : steps ≠ []
  size : s.size = .ok steps.length
  step? : ∀ i, s.step? i = .ok steps[i]?
  compound : ∀ step ∈ steps, ∃ compound, step.compound.value = .ok compound ∧ compound.WellFormed
  subject : steps.getLast?.map (·.combinator) = some .none

theorem Answers.shaped_iff (h : s.Answers selector) :
    (∃ steps, s.Shaped steps) ↔ ∀ step ∈ selector.steps, step.compound.WellFormed := by
  obtain ⟨steps, found, related, numbered⟩ := h.steps
  have length : steps.length = selector.size := by
    rw [related.length_eq, Complex.steps, List.length_append]
    rfl
  have compounds : (∀ step ∈ steps, ∃ compound, step.compound.value = .ok compound ∧
      compound.WellFormed) ↔ ∀ step ∈ selector.steps, step.compound.WellFormed := by
    refine forall_mem_iff_of_forall₂ related fun step value answers => ?_
    rw [answers.compound.value]
    constructor
    · rintro ⟨_, ⟨⟩, wellFormed⟩
      exact wellFormed
    · exact fun wellFormed => ⟨_, rfl, wellFormed⟩
  constructor
  · rintro ⟨others, shaped⟩
    obtain rfl : steps = others := Except.ok.inj (found.symm.trans shaped.found)
    exact compounds.mp shaped.compound
  · intro wellFormed
    refine ⟨steps, found, ?_, ?_, numbered, compounds.mpr wellFormed, ?_⟩
    · rintro rfl
      cases length
    · rw [h.size, length]
    · rw [← List.getLast?_map, StepHandle.combinators_eq related, Complex.steps, List.map_append]
      exact List.getLast?_concat

theorem Answers.joined_iff (h : s.Answers selector) :
    (∀ steps, s.steps = .ok steps → ∀ step ∈ steps.dropLast, step.combinator ≠ .none) ↔
      ∀ step ∈ selector.ancestors, step.combinator ≠ .none := by
  obtain ⟨steps, found, related, -⟩ := h.steps
  -- Without the subject, which has no combinator in any case.
  have before := List.forall₂_take (steps.length - 1) related
  rw [← List.dropLast_eq_take, related.length_eq, ← List.dropLast_eq_take, Complex.steps,
    List.dropLast_concat] at before
  have joined : (∀ step ∈ steps.dropLast, step.combinator ≠ .none) ↔
      ∀ step ∈ selector.ancestors, step.combinator ≠ .none :=
    forall_mem_iff_of_forall₂ before fun _ _ step => by rw [step.combinator]
  constructor
  · exact fun h => joined.mp (h steps found)
  · intro h others found'
    obtain rfl : steps = others := Except.ok.inj (found.symm.trans found')
    exact joined.mpr h

end ComplexHandle

namespace SelectorListHandle

variable {ts : List Token} {l : SelectorListHandle}

theorem ofTokens_alike (ts : List Token) :
    Alike (fun l list => l.Holds list ∧ (Grammar.membersExtent list.members).1 ≤ ts.length)
      (ofTokens ts) (SelectorList.ofTokens ts) := by
  rw [ofTokens, SelectorList.ofTokens]
  cases composed : Cursor.prepare ts with
  | error e => exact .failed
  | ok lexemes =>
      have kept := Grammar.members_keeps lexemes.finish .empty lexemes.items full_empty
      dsimp only
      generalize Grammar.keepMembers lexemes.finish .empty lexemes.items = found,
        Grammar.members lexemes.finish lexemes.items = read at kept ⊢
      cases kept with
      | failed => exact .failed
      | read kept =>
          exact .read ⟨⟨kept.held, kept.grows.extent.trans (zero_add _)⟩,
            kept.room.trans (Cursor.prepare_length composed)⟩

theorem ofTokens_wellFormed (h : ofTokens ts = .ok l) :
    l.toList ≠ [] ∧ (∀ s ∈ l.toList, ∃ steps, s.Shaped steps) ∧
      ((∀ s ∈ l.toList, ∀ steps, s.steps = .ok steps →
          ∀ step ∈ steps.dropLast, step.combinator ≠ .none) ↔
        .combinator .none ∉ Token.outer 0 (ts.takeWhile fun t => !t.isEof)) ∧
      (∃ list, SelectorList.ofTokens ts = .ok list ∧ l.Holds list ∧ l.Answers list) ∧
      l.pool.extent ≤ (ts.length, ts.length, ts.length) := by
  obtain ⟨list, read, held, room⟩ := (ofTokens_alike ts).of_left h
  have answers := held.answers
  obtain ⟨lexemes, -, members⟩ := SelectorList.ofTokens_eq_ok_iff.mp read
  obtain ⟨nonempty, wellFormed⟩ := members.wellFormed
  refine ⟨?_, ?_, ?_, ⟨list, read, held, answers⟩, ?_⟩
  · intro empty
    have members := answers.members
    rw [empty] at members
    exact nonempty (List.forall₂_nil_left_iff.mp members)
  · exact (forall_mem_iff_of_forall₂ answers.members fun _ _ member => member.shaped_iff).mpr
      wellFormed
  · rw [← SelectorList.ofTokens_joined_iff read]
    exact forall_mem_iff_of_forall₂ answers.members fun _ _ member => member.joined_iff
  · obtain ⟨complexes, compounds⟩ := Grammar.membersExtent_le
      fun s hs step h => (wellFormed s hs step h).nonempty
    rw [held.extent]
    exact ⟨room, compounds.trans room, complexes.trans (compounds.trans room)⟩

theorem ofTokens_wellFormed_child :
    let ts : List Token := [.hash "a" true, .combinator .child, .delim '.', .ident "b"]
    ∃ l, ofTokens ts = .ok l ∧ l.text = .ok "#a > .b" ∧
      (∀ s ∈ l.toList, ∃ steps, s.Shaped steps) ∧
      ∀ s ∈ l.toList, ∀ steps, s.steps = .ok steps →
        ∀ step ∈ steps.dropLast, step.combinator ≠ .none := by
  intro ts
  have read : SelectorList.ofTokens ts = .ok
      ⟨[⟨[⟨⟨[.identifier "a"]⟩, .child⟩], ⟨[.className "b"]⟩, ⟨1, 1, 0⟩⟩]⟩ :=
    SelectorList.ofTokens_eq_ok_iff.mpr ⟨_, rfl, .last rfl
      ⟨.step (.bare .identifier .nil) rfl (.subject (.bare .className .nil)), rfl⟩ rfl⟩
  have joined : .combinator .none ∉ Token.outer 0 (ts.takeWhile fun t => !t.isEof) := by
    have outside : Token.outer 0 (ts.takeWhile fun t => !t.isEof) = ts := rfl
    rw [outside]
    simp [ts]
  obtain ⟨l, kept, held, -⟩ := (ofTokens_alike ts).of_right read
  obtain ⟨-, shaped, joined_iff, -⟩ := ofTokens_wellFormed kept
  exact ⟨l, kept, held.answers.text, shaped, joined_iff.mpr joined⟩

theorem ofTokens_void :
    ∃ l s steps, ofTokens [.ident "a", .combinator .none, .ident "b"] = .ok l ∧ l.toList = [s] ∧
      s.steps = .ok steps ∧ steps.map (·.combinator) = [.none, .none] ∧ s.text = .ok "ab" := by
  have lower : Ascii.lower "a" = "a" ∧ Ascii.lower "b" = "b" := by decide +kernel
  have first {r : List Token} :
      Rendering.Leading .composed (.type .omitted "a") (.ident "a" :: r) r :=
    lower.1 ▸ .type (.bare (n := some "a"))
  have second : Rendering.Leading .composed (.type .omitted "b") [.ident "b"] [] :=
    lower.2 ▸ .type (.bare (n := some "b"))
  have read : SelectorList.ofTokens [.ident "a", .combinator .none, .ident "b"] = .ok
      ⟨[⟨[⟨⟨[.type .omitted "a"]⟩, .none⟩], ⟨[.type .omitted "b"]⟩, ⟨0, 0, 2⟩⟩]⟩ :=
    SelectorList.ofTokens_eq_ok_iff.mpr ⟨_, rfl, .last rfl
      ⟨.step (.led first .nil) rfl (.subject (.led second .nil)), rfl⟩ rfl⟩
  obtain ⟨l, kept, held, -⟩ := (ofTokens_alike _).of_right read
  have members := held.answers.members
  generalize hs : l.toList = ss at members
  obtain _ | ⟨member, _ | _⟩ := members
  obtain ⟨steps, found, related, -⟩ := member.steps
  exact ⟨l, _, steps, kept, hs, found, StepHandle.combinators_eq related, member.text⟩

end SelectorListHandle

end CssStyling

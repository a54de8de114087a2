import CssStyling.Proofs.Document.Order
import CssStyling.Proofs.Store.Contents
import CssStyling.Proofs.Store.Programs

namespace CssStyling

namespace Store

variable {s s' s'' : Store} {e p x : NodeId} {parent : Option NodeId} {d : Document}
  {top : NodeId} {known l : List NodeId}

structure Added (s s' : Store) (e : NodeId) (parent : Option NodeId) : Prop where
  registry : s'.registry = s.registry
  linked : s'.Linked
  contains (x : NodeId) : s'.contains x = (decide (e = x) || s.contains x)
  parent (x : NodeId) : s'.parent? x = if e = x then parent else s.parent? x
  content (x : NodeId) (j : PropertyId) : s'.content x j = s.content x j

theorem parent?_relink (hs : s.Linked) (he : s.contains e = true) :
    (s.relink e parent).parent? x = if e = x then parent else s.parent? x := by
  have moved := Moved.of_writeParent hs.toListed he parent
  have drained := invalidateElement_drained (moved.listed hs.toListed) e
  rw [relink, drained.parent, parent?_writeParent (contains_detach.trans he), parent?_detach]

theorem relink_added (hs : s.Linked) (he : s.contains e = true)
    (hp : ∀ p, parent = some p → s.contains p = true ∧ ∀ l, Lineage s.parent? p l → e ∉ l) :
    Added s (s.relink e parent) e parent := by
  have same : SameContents s (s.relink e parent) :=
    (detach_sameContents.trans writeParent_sameContents).trans invalidateElement_sameContents
  refine ⟨same.registry, (relink_preserves he fun _ => hp).linked hs, fun x => ?_,
    fun x => parent?_relink hs he, same.content⟩
  rw [same.contains]
  by_cases hx : e = x
  · simp [← hx, he]
  · simp [hx]

theorem add_added (hs : s.Linked) (he : s.contains e = false)
    (hp : ∀ p, parent = some p → s.contains p = true) : Added s (s.add e parent) e parent where
  registry := rfl
  linked := (add_preserves he hp).linked hs
  contains _ := contains_add
  parent _ := parent?_add
  content x j := by rw [content, slotAt_add he]; rfl

theorem Added.of_unchanged (hs : s.Linked) (he : s.contains e = true)
    (hp : s.parent? e = parent) : Added s s e parent where
  registry := rfl
  linked := hs
  contains x := by
    by_cases hx : e = x
    · simp [← hx, he]
    · simp [hx]
  parent x := by
    split
    · rename_i hx
      exact hx ▸ hp
    · rfl
  content _ _ := rfl

theorem insert_eq_add (he : s.contains e = false)
    (hp : ∀ p, parent = some p → s.contains p = true) :
    s.insert e parent = .ok (s.add e parent) := by
  have known : parent.filter (!s.contains ·) = none := by
    cases parent with
    | none => rfl
    | some p => simp [hp p rfl]
  simp [insert, he, known]

theorem insert_added (hs : s.Linked) (h : s.insert e parent = .ok s') : Added s s' e parent := by
  unfold insert at h
  split at h
  · obtain ⟨known, hp, ⟨hsame, rfl⟩ | rfl⟩ := setParent_cases h
    · exact .of_unchanged hs known hsame
    · refine relink_added hs known fun p hpar => ?_
      obtain ⟨hc, hanc⟩ := hp p hpar
      exact ⟨hc, fun l hl hmem => hanc ((isInclusiveAncestor_iff hs hl).mpr hmem)⟩
  · rename_i he
    split at h
    · cases h
    · rename_i hp
      obtain rfl := Except.ok.inj h
      refine add_added hs (by simpa using he) ?_
      rintro p rfl
      simpa [Option.filter] using hp

theorem exists_insert (hs : s.Linked)
    (hp : ∀ p, parent = some p → s.contains p = true ∧ ∀ l, Lineage s.parent? p l → e ∉ l) :
    ∃ s', s.insert e parent = .ok s' ∧ Added s s' e parent := by
  suffices done : ∃ s', s.insert e parent = .ok s' by
    obtain ⟨s', hs'⟩ := done
    exact ⟨s', hs', insert_added hs hs'⟩
  cases he : s.contains e with
  | false => exact ⟨_, insert_eq_add he fun p h => (hp p h).1⟩
  | true =>
      obtain ⟨element, helement⟩ := Option.isSome_iff_exists.mp he
      refine ⟨if element.parent = parent then s else s.relink e parent, ?_⟩
      cases parent with
      | none => simp [insert, he, setParent, helement]
      | some p =>
          obtain ⟨hc, hanc⟩ := hp p rfl
          obtain ⟨l, hl⟩ := hs.rooted p
          have hnot : s.isInclusiveAncestor e p = false := by
            rw [← Bool.not_eq_true, isInclusiveAncestor_iff hs hl]
            exact hanc l hl
          simp [insert, he, setParent, helement, hc, hnot]

structure Kept (s s' : Store) : Prop where
  registry : s'.registry = s.registry
  contains {x : NodeId} : s.contains x = true → s'.contains x = true
  content (x : NodeId) (j : PropertyId) : s'.content x j = s.content x j

theorem Kept.refl (s : Store) : Kept s s :=
  ⟨rfl, id, fun _ _ => rfl⟩

theorem Kept.trans (h : Kept s s') (h' : Kept s' s'') : Kept s s'' where
  registry := h'.registry.trans h.registry
  contains hx := h'.contains (h.contains hx)
  content x j := (h'.content x j).trans (h.content x j)

theorem Added.kept (h : Added s s' e parent) : Kept s s' where
  registry := h.registry
  contains hx := by simp [h.contains, hx]
  content := h.content

structure Mirrors (d : Document) (top : NodeId) (known : List NodeId) (s : Store) : Prop where
  linked : s.Linked
  closed {x p : NodeId} : x ∈ known → x ≠ top → d.parent? x = some p → p ∈ known
  contains {x : NodeId} : x ∈ known → d.isElement x = true → s.contains x = true
  parent {x : NodeId} : x ∈ known → d.isElement x = true →
    s.parent? x = if x = top then none else d.parentElement? x

theorem Mirrors.known_lineage (h : Mirrors d top known s) (hx : x ∈ known)
    (he : d.isElement x = true) (hl : Lineage s.parent? x l) : ∀ y ∈ l, y ∈ known := by
  induction hl with
  | root => simpa using hx
  | @step x p l hp _ ih =>
      intro y hy
      rcases List.mem_cons.mp hy with rfl | hy
      · exact hx
      · rw [h.parent hx he] at hp
        split at hp
        · cases hp
        · rename_i htop
          obtain ⟨hp, hpe⟩ := Option.filter_eq_some_iff.mp hp
          exact ih (h.closed hx htop hp) hpe y hy

theorem Mirrors.skip (h : Mirrors d top known s) (he : d.isElement e = false)
    (hp : d.parent? e = some p) (hmem : p ∈ known) : Mirrors d top (e :: known) s where
  linked := h.linked
  closed {x q} hx htop hq := by
    rcases List.mem_cons.mp hx with rfl | hx
    · exact List.mem_cons_of_mem _ (Option.some.inj (hp.symm.trans hq) ▸ hmem)
    · exact List.mem_cons_of_mem _ (h.closed hx htop hq)
  contains hx hxe := by
    rcases List.mem_cons.mp hx with rfl | hx
    · simp [he] at hxe
    · exact h.contains hx hxe
  parent hx hxe := by
    rcases List.mem_cons.mp hx with rfl | hx
    · simp [he] at hxe
    · exact h.parent hx hxe

theorem Mirrors.add (h : Mirrors d top known s) (hne : e ≠ top) (hp : d.parent? e = some p)
    (hmem : p ∈ known) (hnew : e ∉ known) (hadded : Added s s' e (d.parentElement? e)) :
    Mirrors d top (e :: known) s' where
  linked := hadded.linked
  closed {x q} hx htop hq := by
    rcases List.mem_cons.mp hx with rfl | hx
    · exact List.mem_cons_of_mem _ (Option.some.inj (hp.symm.trans hq) ▸ hmem)
    · exact List.mem_cons_of_mem _ (h.closed hx htop hq)
  contains {x} hx hxe := by
    rw [hadded.contains]
    rcases List.mem_cons.mp hx with rfl | hx
    · simp
    · simp [h.contains hx hxe]
  parent {x} hx hxe := by
    rw [hadded.parent]
    rcases List.mem_cons.mp hx with rfl | hx
    · simp [hne]
    · rw [if_neg (by rintro rfl; exact hnew hx), h.parent hx hxe]

theorem exists_insertAll (h : Mirrors d top known s) (htop : top ∈ known)
    (order : d.TopDown known l) (hn : l.Nodup) (hnew : ∀ x ∈ l, x ∉ known) :
    ∃ s', insertAll d l s = (.ok (), s') ∧ Kept s s' ∧ Mirrors d top (l.reverse ++ known) s' := by
  induction order generalizing s with
  | nil => exact ⟨s, rfl, .refl s, h⟩
  | @cons known l e p hp hmem _ ih =>
      obtain ⟨hel, hn⟩ := List.nodup_cons.mp hn
      have hek := hnew e List.mem_cons_self
      have htop' := List.mem_cons_of_mem e htop
      have hnew' : ∀ x ∈ l, x ∉ e :: known := by
        intro x hx hxk
        rcases List.mem_cons.mp hxk with rfl | hxk
        · exact hel hx
        · exact hnew x (List.mem_cons_of_mem _ hx) hxk
      rw [insertAll, List.reverse_cons, List.append_assoc, List.singleton_append]
      cases he : d.isElement e with
      | false => exact ih (h.skip he hp hmem) htop' hn hnew'
      | true =>
          have above {q : NodeId} (hq : d.parentElement? e = some q) :
              q ∈ known ∧ d.isElement q = true := by
            obtain ⟨hq, hqe⟩ := Option.filter_eq_some_iff.mp hq
            exact ⟨Option.some.inj (hp.symm.trans hq) ▸ hmem, hqe⟩
          have hparent : s.knownParent? d e = d.parentElement? e := by
            unfold knownParent?
            cases hq : d.parentElement? e with
            | none => rfl
            | some q => simp [h.contains (above hq).1 (above hq).2]
          obtain ⟨s', hs', hadded⟩ :
              ∃ s', s.insert e (d.parentElement? e) = .ok s' ∧ Added s s' e (d.parentElement? e) :=
            exists_insert h.linked fun q hq =>
              ⟨h.contains (above hq).1 (above hq).2, fun m hm hmem =>
                hek (h.known_lineage (above hq).1 (above hq).2 hm e hmem)⟩
          have hne : e ≠ top := fun heq => hek (heq ▸ htop)
          obtain ⟨s'', hs'', hkept, hmirrors⟩ :=
            ih (h.add hne hp hmem hek hadded) htop' hn hnew'
          refine ⟨s'', ?_, hadded.kept.trans hkept, hmirrors⟩
          simp only [if_true, hparent, hs', hs'']

theorem exists_insertTree (hs : s.Linked) (hd : d.Linked) (top : NodeId) :
    ∃ s', s.insertTree d top = (.ok (), s') ∧ Kept s s' ∧
      Mirrors d top ((d.descendants top).reverse ++ [top]) s' := by
  have order := hd.topDown_descendants top
  obtain ⟨hnew, hn⟩ := List.nodup_cons.mp (hd.nodup_subtree top)
  have hnew' : ∀ x ∈ d.descendants top, x ∉ [top] := by
    intro x hx hxt
    obtain rfl := List.mem_singleton.mp hxt
    exact hnew hx
  have start {t : Store} (ht : t.Linked) (hc : d.isElement top = true → t.contains top = true)
      (hp : d.isElement top = true → t.parent? top = none) : Mirrors d top [top] t := by
    refine ⟨ht, fun hx hne => ?_, fun hx => ?_, fun hx he => ?_⟩
    · exact absurd (List.mem_singleton.mp hx) hne
    · obtain rfl := List.mem_singleton.mp hx
      exact hc
    · obtain rfl := List.mem_singleton.mp hx
      rw [if_pos rfl]
      exact hp he
  unfold insertTree
  cases he : d.isElement top with
  | false =>
      exact exists_insertAll (start hs (by simp [he]) (by simp [he])) List.mem_cons_self order hn
        hnew'
  | true =>
      obtain ⟨s', hs', hadded⟩ : ∃ s', s.insert top none = .ok s' ∧ Added s s' top none :=
        exists_insert hs (by simp)
      have mirrors : Mirrors d top [top] s' :=
        start hadded.linked (fun _ => by simp [hadded.contains])
          fun _ => by simp [hadded.parent]
      obtain ⟨s'', hs'', hkept, hmirrors⟩ :=
        exists_insertAll mirrors List.mem_cons_self order hn hnew'
      exact ⟨s'', by simp only [if_true, hs', hs''], hadded.kept.trans hkept, hmirrors⟩

end Store

end CssStyling

import CssStyling.Proofs.Selector.Marking

namespace CssStyling

namespace Rendering

open Lexeme

abbrev Unbarred : List Token → Prop :=
  LedBy (· ≠ .delim '|')

def Solid : List Token → Prop
  | [] => False
  | t :: _ => t.isWhitespace = false ∧ endsCompound t = false

theorem Solid.ledBy {P : Token → Prop} {ts : List Token} (h : Solid ts)
    (hp : ∀ t, t.isWhitespace = false → endsCompound t = false → P t) : LedBy P ts := by
  cases ts with
  | nil => trivial
  | cons t ts => exact hp t h.1 h.2

theorem Solid.inked {ts : List Token} (h : Solid ts) : Inked ts :=
  h.ledBy fun _ ht _ => ht

theorem Raw.not_eof {ts : List Token} (h : ∀ t ∈ ts, Raw t) :
    ∀ t ∈ ts, t.isEof = false :=
  fun t ht => (h t ht).2

theorem Raw.label {p : NamespacePattern} : ∀ t ∈ label p, Raw t := by
  cases p <;> simp [Rendering.label, Raw, Token.isComposite, Token.isEof]

theorem Raw.sign {k : Combinator} : ∀ t ∈ sign k, Raw t := by
  cases k <;> simp [Rendering.sign, Raw, Token.isComposite, Token.isEof]

theorem Raw.localToken {n : Option String} : Raw (localToken n) := by
  cases n <;> exact ⟨rfl, rfl⟩

theorem raw_blank {ts r : List Token} (h : Blank ts r) : (∀ t ∈ ts, Raw t) ↔ ∀ t ∈ r, Raw t := by
  induction h with
  | none => rfl
  | more _ ih => simpa [Raw, Token.isComposite, Token.isEof] using ih

end Rendering

namespace Lexeme

open Place Rendering

variable {b s : Bool} {d : Nat} {t m : Token} {ts u r out : List Token}

theorem composed_localToken {n : Option String} (hr : Unbarred r) :
    composed b (localToken n) r = (localToken n, 1) := by
  have label : namespaceMark? (localToken n :: r) = none := by
    cases r with
    | nil => cases n <;> rfl
    | cons t r =>
        have ht : t ≠ .delim '|' := hr
        cases n <;> simp [namespaceMark?, localToken, ht]
  have sign : combinator? (localToken n :: r) = none := by cases n <;> rfl
  simp only [composed, label, sign, ite_self]

theorem after_localToken {n : Option String} : after b (localToken n) = inside b := by
  cases n <;> rfl

def source : Token → List Token
  | .qualifiedName p n => label p ++ [localToken n]
  | .combinator k => Rendering.sign k
  | t => [t]

theorem source_raw (h : Raw t) : source t = [t] := by
  cases t <;> first | rfl | cases h.1

theorem marked_local {n : Option String} {ms : List Token} (ht : ∀ t ∈ ts, Raw t)
    (h : marked (inside b) ts = localToken n :: ms) :
    ∃ r, ts = localToken n :: r ∧ ms = marked (inside b) r := by
  have hw : b = true ∨ Inked ts := by
    cases b with
    | true => exact .inl rfl
    | false => exact .inr (inked_of_marked (Raw.not_eof ht) h (by cases n <;> rfl))
  cases ts with
  | nil => cases h
  | cons t ts =>
      obtain ⟨m, u, hm⟩ := exists_piece b t ts
      rw [inside, marked_piece hm (Raw.not_eof ht) hw] at h
      obtain ⟨rfl, rfl⟩ := List.cons.inj h
      rw [after_localToken]
      generalize hx : t :: ts = xs at hm
      generalize hn : localToken n = x at hm
      cases hm with
      | sign => cases n <;> cases hn
      | label => cases n <;> cases hn
      | plain => exact ⟨_, rfl, rfl⟩

theorem marked_inked (ht : ∀ t ∈ ts, t.isEof = false) (hi : Inked ts) :
    marked start ts = marked (inside false) ts := by
  cases ts with
  | nil => rfl
  | cons t ts =>
      have eof := ht t List.mem_cons_self
      rw [start, inside, marked_cons eof (.inr hi), marked_cons eof (.inr hi)]
      rfl

theorem marked_blank (h : Blank ts r) : marked (inside false) (.whitespace :: ts) = marked spaced r :=
  marked_space.trans (marked_spaced_blank h)

structure Composes (place : Place) (ts out : List Token) : Prop where
  raw : ∀ t ∈ ts, Raw t
  fuses : Fuses (marked place ts) out

namespace Composes

theorem nil (h : Composes place [] out) : out = [] := by
  cases h.fuses
  rfl

theorem of_piece (h : Composes (after b m) r out) (hm : Piece b m ts r)
    (hp : ∀ p, m ≠ .namespaceMark p) (ht : ∀ t ∈ ts, Raw t) (hw : b = true ∨ Inked ts) :
    Composes ⟨0, 0, b, s, none⟩ ts (m :: out) := by
  refine ⟨ht, ?_⟩
  rw [marked_piece hm (Raw.not_eof ht) hw]
  exact .kept hp h.fuses

theorem cons {place : Place} (h : Composes place r out) (hp : after b t = place)
    (hc : composed b t r = (t, 1)) (ht : Raw t) (hw : b = true ∨ t.isWhitespace = false) :
    Composes ⟨0, 0, b, s, none⟩ (t :: r) (t :: out) := by
  subst hp
  refine h.of_piece (.plain hc) ?_ (List.forall_mem_cons.mpr ⟨ht, h.raw⟩) hw
  rintro p rfl
  cases ht.1

theorem sign {k : Combinator} (h : Composes start r out) (hk : k ≠ .none)
    (hr : LedBy (· ≠ .delim '>') r) :
    Composes (inside false) (sign k ++ r) (.combinator k :: out) := by
  refine of_piece h (.sign rfl hk fun _ => hr) nofun ?_ (.inr ?_)
  · exact List.forall_mem_append.mpr ⟨Raw.sign, h.raw⟩
  · cases k <;> first | rfl | exact absurd rfl hk

theorem local_cons {n : Option String} (h : Composes (inside b) r out) (hr : Unbarred r) :
    Composes (inside b) (localToken n :: r) (localToken n :: out) := by
  refine h.cons after_localToken (composed_localToken hr) Raw.localToken (.inr ?_)
  cases n <;> rfl

theorem name_cons {p : NamespacePattern} {n : Option String} (h : Composes (inside b) r out)
    (hr : Unbarred r) (hp : p ≠ .omitted) :
    Composes (inside b) (label p ++ localToken n :: r) (.qualifiedName p n :: out) := by
  have raw : ∀ t ∈ label p ++ localToken n :: r, Raw t :=
    List.forall_mem_append.mpr ⟨Raw.label, List.forall_mem_cons.mpr ⟨Raw.localToken, h.raw⟩⟩
  have touching : marked (inside b) (localToken n :: r) = localToken n :: marked (inside b) r := by
    rw [inside, marked_one (composed_localToken hr) Raw.localToken.2 (.inr ?_), after_localToken]
    · rfl
    · cases n <;> rfl
  refine ⟨raw, ?_⟩
  rw [inside, marked_piece (.label hp) (Raw.not_eof raw) (.inr (by cases p <;> cases n <;> rfl))]
  change Fuses (.namespaceMark p :: marked (inside b) (localToken n :: r)) _
  rw [touching]
  exact .name h.fuses

theorem cons_inv (h : Composes ⟨0, 0, b, s, none⟩ ts (m :: out)) (hw : b = true ∨ Inked ts) :
    ∃ r, ts = source m ++ r ∧ Composes (after b m) r out ∧ m ≠ .combinator .none := by
  cases ts with
  | nil => cases h.nil
  | cons t ts =>
      obtain ⟨m', r, hm⟩ := exists_piece b t ts
      have fuses := h.fuses
      rw [marked_piece hm (Raw.not_eof h.raw) hw] at fuses
      have raw := h.raw
      generalize hx : t :: ts = xs at hm raw
      generalize hms : marked (after b m') r = ms at fuses
      cases hm with
      | sign hb hk hr =>
          cases fuses with
          | kept _ hf =>
              refine ⟨r, rfl, ⟨(List.forall_mem_append.mp raw).2, hms ▸ hf⟩, ?_⟩
              rintro ⟨⟩
              exact hk rfl
      | label hp =>
          cases fuses with
          | kept hm _ => exact absurd rfl (hm _)
          | @name p n ms _ hf =>
              have rest := (List.forall_mem_append.mp raw).2
              obtain ⟨u, rfl, rfl⟩ := marked_local rest hms
              exact ⟨u, by simp [source], ⟨(List.forall_mem_cons.mp rest).2, hf⟩, nofun⟩
      | plain hc =>
          obtain ⟨rfl, rfl⟩ := List.cons.inj hx
          obtain ⟨ht, hr⟩ := List.forall_mem_cons.mp raw
          cases fuses with
          | name _ => cases ht.1
          | kept _ hf =>
              refine ⟨ts, by rw [source_raw ht]; rfl, ⟨hr, hms ▸ hf⟩, ?_⟩
              rintro rfl
              cases ht.1

theorem inked (h : Composes (inside false) ts (m :: out)) (hm : separates m = false) :
    Inked ts := by
  have fuses := h.fuses
  generalize hms : marked (inside false) ts = ms at fuses
  cases fuses with
  | name _ => exact inked_of_marked (Raw.not_eof h.raw) hms rfl
  | kept _ _ => exact inked_of_marked (Raw.not_eof h.raw) hms hm

theorem start_iff (hi : Inked ts) : Composes start ts out ↔ Composes (inside false) ts out := by
  constructor
  · rintro ⟨raw, fuses⟩
    exact ⟨raw, marked_inked (Raw.not_eof raw) hi ▸ fuses⟩
  · rintro ⟨raw, fuses⟩
    exact ⟨raw, (marked_inked (Raw.not_eof raw) hi).symm ▸ fuses⟩

theorem of_blank (h : Blank ts r) (hr : Composes start r out) : Composes start ts out := by
  induction h with
  | none => exact hr
  | more hb ih =>
      obtain ⟨raw, fuses⟩ := ih hr
      exact ⟨(raw_blank (.more .none)).mpr raw, marked_start_space.symm ▸ fuses⟩

theorem start_inv (h : Composes start ts out) :
    ∃ r, Blank ts r ∧ Inked r ∧ Composes (inside false) r out := by
  induction ts with
  | nil =>
      have inked : Inked [] := trivial
      exact ⟨[], .none, inked, (start_iff inked).mp h⟩
  | cons t ts ih =>
      cases hw : t.isWhitespace with
      | false =>
          have inked : Inked (t :: ts) := hw
          exact ⟨t :: ts, .none, inked, (start_iff inked).mp h⟩
      | true =>
          obtain rfl := Token.eq_whitespace hw
          obtain ⟨raw, fuses⟩ := h
          obtain ⟨r, hb, hr⟩ := ih ⟨(List.forall_mem_cons.mp raw).2, marked_start_space ▸ fuses⟩
          exact ⟨r, .more hb, hr⟩

theorem of_pad (h : Blank ts r) (hr : LedBy (fun t => endsCompound t = true) r)
    (hc : Composes (inside false) r out) : Composes (inside false) ts out := by
  cases h with
  | none => exact hc
  | more h =>
      refine ⟨(raw_blank (.more h)).mpr hc.raw, ?_⟩
      rw [marked_blank h]
      cases r with
      | nil => exact hc.fuses
      | cons t r =>
          have ends : endsCompound t = true := hr
          have inked : t.isWhitespace = false := by cases t <;> first | rfl | cases ends
          rw [marked_spaced (hc.raw t List.mem_cons_self).2 inked, if_pos ends]
          exact hc.fuses

theorem of_gap (h : Blank ts r) (hr : Solid r) (hc : Composes (inside false) r out) :
    Composes (inside false) (.whitespace :: ts) (.combinator .descendant :: out) := by
  refine ⟨(raw_blank (.more h)).mpr hc.raw, ?_⟩
  rw [marked_blank h]
  cases r with
  | nil => cases hr
  | cons t r =>
      obtain ⟨inked, apart⟩ := hr
      rw [marked_spaced (hc.raw t List.mem_cons_self).2 inked, if_neg (by simp [apart])]
      exact .kept nofun hc.fuses

theorem gap_cases (h : Composes (inside false) ts out) :
    ∃ r, Inked r ∧
      ((Blank ts r ∧ Composes (inside false) r out) ∨
        ∃ u out', ts = .whitespace :: u ∧ Blank u r ∧ out = .combinator .descendant :: out' ∧
          Composes (inside false) r out') := by
  cases ts with
  | nil => exact ⟨[], trivial, .inl ⟨.none, h⟩⟩
  | cons t ts =>
      cases hw : t.isWhitespace with
      | false => exact ⟨t :: ts, hw, .inl ⟨.none, h⟩⟩
      | true =>
          obtain rfl := Token.eq_whitespace hw
          have blank := blank_dropWhile ts
          have inked := inked_dropWhile ts
          generalize ts.dropWhile Token.isWhitespace = r at blank inked
          have raw := (raw_blank (.more blank)).mp h.raw
          have fuses := h.fuses
          rw [marked_blank blank] at fuses
          refine ⟨r, inked, ?_⟩
          cases r with
          | nil => exact .inl ⟨.more blank, raw, fuses⟩
          | cons t r =>
              rw [marked_spaced (raw t List.mem_cons_self).2 inked] at fuses
              split at fuses
              · exact .inl ⟨.more blank, raw, fuses⟩
              · cases fuses with
                | kept _ hf => exact .inr ⟨ts, _, rfl, blank, rfl, raw, hf⟩

theorem eq_nil (h : Composes ⟨0, 0, b, s, none⟩ ts []) (hw : b = true ∨ Inked ts) : ts = [] := by
  cases ts with
  | nil => rfl
  | cons t ts =>
      obtain ⟨m, r, hm⟩ := exists_piece b t ts
      have fuses := h.fuses
      rw [marked_piece hm (Raw.not_eof h.raw) hw] at fuses
      generalize marked (after b m) r = ms at fuses
      cases fuses

theorem of_joint {k : Combinator} (h : Joint k ts r) (hr : Solid r)
    (hc : Composes (inside false) r out) :
    Composes (inside false) ts (.combinator k :: out) := by
  cases h with
  | gap h => exact of_gap h hr hc
  | @signed _ _ u _ hk h h' =>
      have next : Composes start u out := of_blank h' ((start_iff hr.inked).mpr hc)
      have led : LedBy (· ≠ .delim '>') u := h'.ledBy nofun (hr.ledBy fun t _ ht => by
        rintro rfl
        cases ht)
      refine of_pad h ?_ (sign next hk led)
      cases k <;> first | rfl | exact absurd rfl hk

theorem joint_inv {k : Combinator} (h : Composes (inside false) ts (.combinator k :: out)) :
    ∃ r, Joint k ts r ∧ Inked r ∧ Composes (inside false) r out := by
  obtain ⟨u, hu, ⟨blank, hc⟩ | ⟨v, out', rfl, blank, ho, hc⟩⟩ := gap_cases h
  · obtain ⟨v, rfl, hv, hk⟩ := cons_inv hc (.inr hu)
    obtain ⟨r, blank', hr, hc'⟩ := start_inv hv
    refine ⟨r, .signed ?_ blank blank', hr, hc'⟩
    rintro rfl
    exact hk rfl
  · cases ho
    exact ⟨u, .gap blank, hu, hc⟩

theorem of_comma (h : Blank ts (.comma :: r)) (hc : Composes start r out) :
    Composes (inside false) ts (.comma :: out) :=
  of_pad h rfl (hc.cons rfl rfl ⟨rfl, rfl⟩ (.inr rfl))

theorem comma_inv (h : Composes (inside false) ts (.comma :: out)) :
    ∃ r, Blank ts (.comma :: r) ∧ Composes start r out := by
  obtain ⟨u, hu, ⟨blank, hc⟩ | ⟨v, out', rfl, blank, ho, hc⟩⟩ := gap_cases h
  · obtain ⟨r, rfl, hr, -⟩ := cons_inv hc (.inr hu)
    exact ⟨r, blank, hr⟩
  · cases ho

theorem of_end (h : Blank ts []) : Composes (inside false) ts [] :=
  of_pad h trivial ⟨nofun, .nil⟩

theorem end_inv (h : Composes (inside false) ts []) : Blank ts [] := by
  obtain ⟨u, hu, ⟨blank, hc⟩ | ⟨v, out', rfl, blank, ho, hc⟩⟩ := gap_cases h
  · obtain rfl := eq_nil hc (.inr hu)
    exact blank
  · cases ho

theorem group_cons (ht : Raw t) (h : Composes (group (depthAfter (d + 1) t)) r out) :
    Composes (group (d + 1)) (t :: r) (t :: out) := by
  refine ⟨List.forall_mem_cons.mpr ⟨ht, h.raw⟩, ?_⟩
  rw [marked_group ht.2]
  refine .kept ?_ h.fuses
  rintro p rfl
  cases ht.1

theorem group_inv (h : Composes (group (d + 1)) ts (m :: out)) :
    ∃ r, ts = m :: r ∧ Raw m ∧ Composes (group (depthAfter (d + 1) m)) r out := by
  cases ts with
  | nil => cases h.nil
  | cons t r =>
      obtain ⟨ht, hr⟩ := List.forall_mem_cons.mp h.raw
      have fuses := h.fuses
      rw [marked_group ht.2] at fuses
      generalize hms : marked (group (depthAfter (d + 1) t)) r = ms at fuses
      cases fuses with
      | name _ => cases ht.1
      | kept _ hf => exact ⟨r, rfl, ht, hr, hms ▸ hf⟩

theorem arguments {args : List Token} (h : Balanced d args) (ha : ∀ t ∈ args, Raw t)
    (hc : Composes (inside false) r out) :
    Composes (group (d + 1)) (args ++ .closeParen :: r) (args ++ .closeParen :: out) := by
  induction h with
  | nil => exact group_cons ⟨rfl, rfl⟩ hc
  | opening ht _ ih =>
      obtain ⟨raw, hrest⟩ := List.forall_mem_cons.mp ha
      refine group_cons raw ?_
      rw [depthAfter, if_pos ht]
      exact ih hrest
  | closing _ ih => exact group_cons ⟨rfl, rfl⟩ (ih (List.forall_mem_cons.mp ha).2)
  | plain ht ht' _ ih =>
      obtain ⟨raw, hrest⟩ := List.forall_mem_cons.mp ha
      refine group_cons raw ?_
      simp only [depthAfter, ht, ht']
      exact ih hrest

theorem arguments_inv {args : List Token} (h : Balanced d args)
    (hc : Composes (group (d + 1)) ts (args ++ .closeParen :: out)) :
    ∃ r, ts = args ++ .closeParen :: r ∧ (∀ t ∈ args, Raw t) ∧ Composes (inside false) r out := by
  induction h generalizing ts with
  | nil =>
      obtain ⟨r, rfl, -, hr⟩ := group_inv hc
      exact ⟨r, rfl, nofun, hr⟩
  | opening ht _ ih =>
      obtain ⟨u, rfl, raw, hu⟩ := group_inv hc
      rw [depthAfter, if_pos ht] at hu
      obtain ⟨r, rfl, ha, hr⟩ := ih hu
      exact ⟨r, rfl, List.forall_mem_cons.mpr ⟨raw, ha⟩, hr⟩
  | closing _ ih =>
      obtain ⟨u, rfl, raw, hu⟩ := group_inv hc
      obtain ⟨r, rfl, ha, hr⟩ := ih hu
      exact ⟨r, rfl, List.forall_mem_cons.mpr ⟨raw, ha⟩, hr⟩
  | plain ht ht' _ ih =>
      obtain ⟨u, rfl, raw, hu⟩ := group_inv hc
      simp only [depthAfter, ht, ht'] at hu
      obtain ⟨r, rfl, ha, hr⟩ := ih hu
      exact ⟨r, rfl, List.forall_mem_cons.mpr ⟨raw, ha⟩, hr⟩

end Composes

end Lexeme

namespace Cursor

open Lexeme Rendering

variable {ts out : List Token} {lexemes : Cursor}

def written (ts : List Token) : List Token :=
  ts.takeWhile fun t => !t.isEof

theorem raw_written (h : ∀ t ∈ ts, t.isComposite = false) : ∀ t ∈ written ts, Raw t := by
  intro t ht
  have before : (written ts).all (fun t => !t.isEof) = true := List.all_takeWhile
  exact ⟨h t (List.takeWhile_subset _ ht), by simpa using List.all_eq_true.mp before t ht⟩

theorem prepare_sound (ht : ∀ t ∈ ts, t.isComposite = false) (h : prepare ts = .ok lexemes) :
    Composes .start (written ts) (tokens lexemes.items) := by
  refine ⟨raw_written ht, ?_⟩
  rw [written, marked_takeWhile]
  simp only [prepare] at h
  split at h
  · cases h
  · rename_i fused hf
    cases h
    exact fuse_sound hf

theorem prepare_complete (h : Composes .start (written ts) out) :
    ∃ lexemes, prepare ts = .ok lexemes ∧ tokens lexemes.items = out := by
  have fuses := h.fuses
  rw [written, marked_takeWhile] at fuses
  obtain ⟨fused, hf, rfl⟩ := fuse_complete (mark .start 0 ts).finish fuses
  refine ⟨⟨fused, (mark .start 0 ts).finish⟩, ?_, rfl⟩
  simp only [prepare, hf]

end Cursor

end CssStyling

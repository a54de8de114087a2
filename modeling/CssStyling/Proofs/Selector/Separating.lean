import CssStyling.Proofs.Selector.Sealing

namespace CssStyling

def firstComma? (depth : Nat) : List Token → Option Nat
  | [] => none
  | t :: ts =>
      if t.isEof then none
      else if t.isComma && depth == 0 then some 0
      else (firstComma? (Lexeme.Place.depthAfter depth t) ts).map (· + 1)

theorem firstComma?_append {d : Nat} {us vs : List Token} (h : us.foldlM enter d = some 0)
    (more : ∀ t ∈ us, t.isEof = false) :
    firstComma? d (us ++ .comma :: vs) = some us.length := by
  induction us generalizing d with
  | nil =>
      cases h
      rfl
  | cons t us ih =>
      obtain ⟨here, rest⟩ := List.forall_mem_cons.mp more
      rw [List.foldlM_cons, Option.bind_eq_bind, Option.bind_eq_some_iff] at h
      obtain ⟨d', entered, h⟩ := h
      rw [enter] at entered
      split at entered
      · cases entered
      · rename_i inner
        cases entered
        rw [List.cons_append, firstComma?, here, if_neg Bool.false_ne_true, if_neg inner,
          ih h rest]
        rfl

namespace Lexeme

open Place Rendering

variable {d p q width finish : Nat} {b : Bool} {place : Place} {t m : Token}
  {us vs ts : List Token} {c : Lexeme} {items front rest : List Lexeme}

theorem composed_comma : composed b t (us ++ .comma :: vs) = composed b t us := by
  cases us with
  | nil => exact composed_head.trans (composed_singleton nofun nofun)
  | cons u us => exact composed_head.trans composed_head.symm

theorem eq_comma_of_composed (h : composed b t us = (.comma, width)) : t = .comma := by
  rcases composed_cases h with ⟨_, _, hm, _⟩ | ⟨_, _, hm, _⟩ | rfl
  · cases hm
  · cases hm
  · rfl

theorem gap_comma : gap place .comma = [] := by
  unfold gap
  split
  · rfl
  · exact if_pos (Bool.or_true _)

theorem token_of_mem_gap (hc : c ∈ gap place t) : c.token = .combinator .descendant := by
  unfold gap at hc
  split at hc
  · cases hc
  · split at hc
    · cases hc
    · obtain rfl := List.mem_singleton.mp hc
      rfl

theorem gap_split (h : gap place t ++ c :: items = front ++ ⟨.comma, p⟩ :: rest) :
    (c = ⟨.comma, p⟩ ∧ front = gap place t) ∨
      ∃ after, front = gap place t ++ c :: after ∧ items = after ++ ⟨.comma, p⟩ :: rest := by
  rcases List.append_eq_append_iff.mp h with ⟨u, rfl, hu⟩ | ⟨u, hg, hu⟩
  · rcases List.cons_eq_append_iff.mp hu with ⟨rfl, hc⟩ | ⟨after, rfl, rfl⟩
    · obtain ⟨rfl, -⟩ := List.cons.inj hc
      exact .inl ⟨rfl, List.append_nil _⟩
    · exact .inr ⟨after, rfl, rfl⟩
  · cases u with
    | nil =>
        obtain ⟨hc, -⟩ := List.cons.inj hu
        exact .inl ⟨hc.symm, (hg.trans (List.append_nil _)).symm⟩
    | cons c' u =>
        obtain ⟨rfl, -⟩ := List.cons.inj hu
        have mem : ⟨.comma, p⟩ ∈ gap place t := hg ▸ List.mem_append_right _ List.mem_cons_self
        cases token_of_mem_gap mem

structure Divided (place : Place) (q : Nat) (ts : List Token) (front : List Lexeme) (p : Nat)
    (us vs : List Token) : Prop where
  tokens : ts = us ++ .comma :: vs
  position : p = q + us.length
  more : ∀ t ∈ us, t.isEof = false
  items : (mark place q us).items = front

theorem Divided.cons {place' : Place} {after : List Lexeme}
    (h : Divided place' (q + 1) ts after p us vs) (ht : ¬ t.isEof = true)
    (hi : (mark place q (t :: us)).items = front) :
    Divided place q (t :: ts) front p (t :: us) vs where
  tokens := congrArg (t :: ·) h.tokens
  position := by rw [h.position, List.length_cons, Nat.add_right_comm, Nat.add_assoc]
  more := List.forall_mem_cons.mpr ⟨Bool.eq_false_iff.mpr ht, h.more⟩
  items := hi

theorem mark_split (h : (mark place q ts).items = front ++ ⟨.comma, p⟩ :: rest) :
    ∃ us vs, Divided place q ts front p us vs := by
  fun_induction mark place q ts generalizing front with
  | case1 => cases (List.append_eq_nil_iff.mp h.symm).2
  | case2 => cases (List.append_eq_nil_iff.mp h.symm).2
  | case3 place q t ts ht hc ih =>
      obtain ⟨us, vs, divided⟩ := ih h
      refine ⟨t :: us, vs, divided.cons ht ?_⟩
      rw [mark, if_neg ht, if_pos hc, divided.items]
  | case4 place q t ts ht hc hd after =>
      rename_i ih
      rcases List.cons_eq_append_iff.mp h with ⟨rfl, hs⟩ | ⟨front, rfl, hs⟩
      · obtain ⟨⟨rfl, rfl⟩, -⟩ := List.cons.inj hs
        exact ⟨[], ts, rfl, rfl, List.forall_mem_nil _, rfl⟩
      · obtain ⟨us, vs, divided⟩ := ih hs
        refine ⟨t :: us, vs, divided.cons ht ?_⟩
        simp only [mark, if_neg ht, if_neg hc, if_pos hd, divided.items]
  | case5 place q t ts ht hc hd hw ih =>
      obtain ⟨us, vs, divided⟩ := ih h
      refine ⟨t :: us, vs, divided.cons ht ?_⟩
      rw [mark, if_neg ht, if_neg hc, if_neg hd, if_pos hw, divided.items]
  | case6 place q t ts ht hc hd hw m width hm after =>
      rename_i ih
      -- There is no comma in the gap: it is what the token is composed to, or stands further on.
      rcases gap_split h with ⟨hs, rfl⟩ | ⟨front, rfl, hs⟩
      · obtain ⟨rfl, rfl⟩ := Lexeme.mk.inj hs
        obtain rfl := eq_comma_of_composed hm
        exact ⟨[], ts, rfl, rfl, List.forall_mem_nil _, gap_comma.symm⟩
      · obtain ⟨us, vs, divided⟩ := ih hs
        rw [divided.tokens, composed_comma] at hm
        refine ⟨t :: us, vs, divided.cons ht ?_⟩
        simp only [mark, if_neg ht, if_neg hc, if_neg hd, if_neg hw, hm, divided.items]

theorem fuse_split (h : fuse finish items = .ok (front ++ ⟨.comma, p⟩ :: rest)) :
    ∃ before after, items = before ++ ⟨.comma, p⟩ :: after ∧
      ∀ finish', fuse finish' before = .ok front := by
  fun_induction fuse finish items generalizing front with
  | case1 => cases (List.append_eq_nil_iff.mp (Except.ok.inj h).symm).2
  | case3 pattern q name q' items fused hf ih =>
      rcases List.cons_eq_append_iff.mp (Except.ok.inj h) with ⟨rfl, hs⟩ | ⟨front, rfl, rfl⟩
      · cases hs
      · obtain ⟨before, after, rfl, read⟩ := ih hf
        exact ⟨_ :: _ :: before, after, rfl, fun finish' => by rw [fuse, read]⟩
  | case5 pattern q q' items fused hf ih =>
      rcases List.cons_eq_append_iff.mp (Except.ok.inj h) with ⟨rfl, hs⟩ | ⟨front, rfl, rfl⟩
      · cases hs
      · obtain ⟨before, after, rfl, read⟩ := ih hf
        exact ⟨_ :: _ :: before, after, rfl, fun finish' => by rw [fuse, read]⟩
  | case8 c items _ _ hm fused hf ih =>
      rcases List.cons_eq_append_iff.mp (Except.ok.inj h) with ⟨rfl, hs⟩ | ⟨front, rfl, rfl⟩
      · obtain ⟨rfl, rfl⟩ := List.cons.inj hs
        exact ⟨[], items, rfl, fun _ => rfl⟩
      · obtain ⟨before, after, rfl, read⟩ := ih hf
        refine ⟨c :: before, after, rfl, fun finish' => ?_⟩
        rw [fuse, read]
        all_goals simp_all
  | _ => cases h

theorem composed_enter (h : composed b t ts = (m, width)) :
    enter 0 m = enter 0 t ∧ ∀ u ∈ ts.take (width - 1), Inert u := by
  have none_covered : ∀ u ∈ ts.take 0, Inert u := nofun
  have one_covered {c : Char} {rest : List Token} (hr : ts = .delim c :: rest) :
      ∀ u ∈ ts.take 1, Inert u := by
    subst hr
    exact List.forall_mem_singleton.mpr fun _ => rfl
  unfold composed at h
  split at h
  · rename_i hs
    cases h
    split at hs
    · cases hs
    · unfold combinator? at hs
      split at hs <;> cases hs <;> obtain ⟨rfl, hr⟩ := List.cons.inj ‹_ = _›
      · exact ⟨rfl, one_covered hr⟩
      all_goals exact ⟨rfl, none_covered⟩
  · split at h
    · rename_i hl
      cases h
      unfold namespaceMark? at hl
      split at hl <;> cases hl <;> obtain ⟨rfl, hr⟩ := List.cons.inj ‹_ = _›
      · exact ⟨rfl, one_covered hr⟩
      · exact ⟨rfl, one_covered hr⟩
      · exact ⟨rfl, none_covered⟩
    · cases h
      exact ⟨rfl, none_covered⟩

theorem gap_foldlM {ms : List Token} :
    (tokens (gap place t) ++ ms).foldlM enter d = ms.foldlM enter d := by
  have inert : Inert (.combinator .descendant) := fun _ => rfl
  unfold gap
  split
  · rfl
  · split
    · rfl
    · exact inert.foldlM

theorem Fuses.foldlM {ms out : List Token} (h : Fuses ms out) :
    ms.foldlM enter d = out.foldlM enter d := by
  induction h generalizing d with
  | nil => rfl
  | @name p n ms out _ ih =>
      have label : Inert (.namespaceMark p) := fun _ => rfl
      have name : Inert (.qualifiedName p n) := fun _ => rfl
      rw [label.foldlM, inert_localToken.foldlM, name.foldlM, ih]
  | kept _ _ ih => simp only [List.foldlM_cons, ih]

theorem mark_foldlM (more : ∀ t ∈ us, t.isEof = false)
    (covered : ∀ t ∈ us.take place.covered, Inert t) :
    (tokens (mark place q us).items).foldlM enter place.depth = us.foldlM enter place.depth := by
  have none_covered {place : Place} {us : List Token} (h : ¬ 0 < place.covered) :
      ∀ u ∈ us.take place.covered, Inert u := by
    rw [Nat.eq_zero_of_not_pos h]
    exact nofun
  fun_induction mark place q us with
  | case1 => rfl
  | case2 place q t us ht => exact absurd (more t List.mem_cons_self) (by simp [ht])
  | case3 place q t us ht hc ih =>
      obtain ⟨n, hn⟩ := Nat.exists_eq_add_of_lt hc
      rw [hn] at covered
      obtain ⟨inert, covered⟩ := List.forall_mem_cons.mp covered
      rw [inert.foldlM]
      exact ih (List.forall_mem_cons.mp more).2 (by rw [hn]; exact covered)
  | case4 place q t us ht hc hd after =>
      rename_i ih
      have inside : enter place.depth t = some (depthAfter place.depth t) := by
        rw [← Nat.succ_pred_eq_of_pos hd]
        exact enter_succ
      rw [tokens_cons, List.foldlM_cons, List.foldlM_cons, inside]
      exact ih (List.forall_mem_cons.mp more).2 (none_covered hc)
  | case5 place q t us ht hc hd hw ih =>
      obtain rfl := Token.eq_whitespace (Bool.and_eq_true_iff.mp hw).1
      have inert : Inert .whitespace := fun _ => rfl
      rw [inert.foldlM]
      exact ih (List.forall_mem_cons.mp more).2 (none_covered hc)
  | case6 place q t us ht hc hd hw m width hm after =>
      rename_i ih
      obtain ⟨same, covered⟩ := composed_enter hm
      have ih := ih (List.forall_mem_cons.mp more).2 covered
      rw [Nat.eq_zero_of_not_pos hd, tokens_append, gap_foldlM, tokens_cons, List.foldlM_cons,
        List.foldlM_cons, ← same, enter_zero]
      split
      · rfl
      · exact ih

end Lexeme

namespace Complex

open Lexeme

variable {ts : List Token} {lexemes : Cursor} {rest : List Lexeme} {p : Nat} {s : Complex}

theorem separated (ht : Cursor.prepare ts = .ok lexemes)
    (hs : Grammar.complex lexemes.finish lexemes.items = .ok (s, ⟨.comma, p⟩ :: rest)) :
    firstComma? 0 ts = some p ∧ ofTokens (ts.take p) = .ok s := by
  obtain ⟨front, items, closed, apart⟩ := Grammar.complex_front hs
  simp only [Cursor.prepare] at ht
  split at ht
  · cases ht
  · rename_i fused hf
    cases ht
    obtain rfl : fused = _ := items
    obtain ⟨before, after, marked, fuses⟩ := fuse_split hf
    obtain ⟨us, vs, rfl, rfl, more, rfl⟩ := mark_split marked
    -- Neither marking nor joining changes which parentheses are open.
    have sealed : Sealed us := by
      have same : (tokens (mark .start 0 us).items).foldlM enter Place.start.depth =
          us.foldlM enter Place.start.depth := mark_foldlM more (List.forall_mem_nil _)
      rw [(fuse_sound (fuses 0)).foldlM] at same
      exact same.symm.trans closed
    rw [Nat.zero_add, List.take_left]
    refine ⟨firstComma?_append sealed more, ?_⟩
    simp only [ofTokens, Cursor.prepare, fuses, apart]

inductive Agreement (ts : List Token) :
    Except SyntaxError Complex → Except SyntaxError SelectorList → Prop
  | failed {e : SyntaxError} : Agreement ts (.error e) (.error e)
  | single {s : Complex} : Agreement ts (.ok s) (.ok ⟨[s]⟩)
  | several {p : Nat} {s : Complex} {read : Except SyntaxError SelectorList}
      (hp : firstComma? 0 ts = some p) (hs : ofTokens (ts.take p) = .ok s)
      (hl : ∀ l, read = .ok l → ∃ others, others ≠ [] ∧ l = ⟨s :: others⟩) :
      Agreement ts (.error ⟨.unexpectedToken, .comma, p⟩) read

theorem agreement (ts : List Token) : Agreement ts (ofTokens ts) (SelectorList.ofTokens ts) := by
  have first := @separated ts
  rw [ofTokens, SelectorList.ofTokens]
  cases ht : Cursor.prepare ts with
  | error e => exact .failed
  | ok lexemes =>
      specialize @first lexemes
      dsimp only
      rw [Grammar.members]
      generalize Grammar.complex lexemes.finish lexemes.items = found at first ⊢
      split
      · exact .failed
      · exact .single
      · -- Something is left, and only behind a comma does a list go on.
        split <;> rename_i hs
        · cases hs
        · cases hs
          contradiction
        · cases hs
          obtain ⟨hp, hc⟩ := first ht rfl
          refine .several hp hc fun l hl => ?_
          split at hl
          · cases hl
          · rename_i others hm
            cases hl
            refine ⟨others, ?_, rfl⟩
            rintro rfl
            cases Grammar.members_sound hm
        · cases hs
          exact .failed

theorem ofTokens_agrees (ts : List Token) :
    (∀ s, ofTokens ts = .ok s ↔ SelectorList.ofTokens ts = .ok ⟨[s]⟩) ∧
      (∀ l, SelectorList.ofTokens ts = .ok l → 2 ≤ l.size →
        ∃ p s, firstComma? 0 ts = some p ∧ ofTokens (ts.take p) = .ok s ∧ l.get? 0 = some s ∧
          ofTokens ts = .error ⟨.unexpectedToken, .comma, p⟩) ∧
      ∀ e, ofTokens ts = .error e → SelectorList.ofTokens ts = .error e ∨
        ∃ p s, firstComma? 0 ts = some p ∧ ofTokens (ts.take p) = .ok s ∧
          e = ⟨.unexpectedToken, .comma, p⟩ := by
  have agreement := agreement ts
  generalize ofTokens ts = one, SelectorList.ofTokens ts = list at agreement ⊢
  cases agreement with
  | @failed e =>
      refine ⟨fun s => ⟨nofun, nofun⟩, nofun, fun e' he => .inl ?_⟩
      cases he
      rfl
  | @single s =>
      refine ⟨fun s' => ?_, fun l hl several => ?_, nofun⟩
      · constructor
        · rintro ⟨⟩
          rfl
        · rintro ⟨⟩
          rfl
      · cases hl
        cases Nat.not_succ_le_self _ several
  | @several p s list hp hs hl =>
      refine ⟨fun s' => ⟨nofun, fun one => ?_⟩, fun l read _ => ?_, fun e he => .inr ?_⟩
      · obtain ⟨others, more, same⟩ := hl _ one
        cases same
        cases more rfl
      · obtain ⟨others, -, rfl⟩ := hl l read
        exact ⟨p, s, hp, hs, rfl, rfl⟩
      · cases he
        exact ⟨p, s, hp, hs, rfl⟩

theorem ofTokens_agrees_pair :
    let ts : List Token := [.hash "a" true, .comma, .hash "b" true]
    let a : Complex := ⟨[], ⟨[.identifier "a"]⟩, ⟨1, 0, 0⟩⟩
    let b : Complex := ⟨[], ⟨[.identifier "b"]⟩, ⟨1, 0, 0⟩⟩
    SelectorList.ofTokens ts = .ok ⟨[a, b]⟩ ∧ firstComma? 0 ts = some 1 ∧
      ofTokens ts = .error ⟨.unexpectedToken, .comma, 1⟩ := by
  intro ts a b
  have read : SelectorList.ofTokens ts = .ok ⟨[a, b]⟩ :=
    SelectorList.ofTokens_eq_ok_iff.mpr ⟨_, rfl, .cons rfl
      ⟨.subject (.bare .identifier .nil), rfl⟩ rfl
      (.last rfl ⟨.subject (.bare .identifier .nil), rfl⟩ rfl)⟩
  obtain ⟨p, s, hp, -, -, failed⟩ := (ofTokens_agrees ts).2.1 _ read (by decide)
  obtain rfl : 1 = p := Option.some.inj hp
  exact ⟨read, rfl, failed⟩

end Complex

end CssStyling

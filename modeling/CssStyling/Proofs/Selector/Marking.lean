import CssStyling.Proofs.Selector.Reading

namespace CssStyling

namespace Lexeme

namespace Place

def inside (inBrackets : Bool) : Place :=
  ⟨0, 0, inBrackets, false, none⟩

def spaced : Place :=
  ⟨0, 0, false, false, some 0⟩

def group (depth : Nat) : Place :=
  ⟨0, depth, false, false, none⟩

def after (inBrackets : Bool) (token : Token) : Place :=
  ⟨0, if token.opensGroup then 1 else 0, bracketsAfter inBrackets token, separates token, none⟩

end Place

open Place Rendering

variable {place : Place} {b : Bool} {d : Nat} {t m : Token} {ts r out : List Token}
  {items : List Lexeme}

theorem gap_separated {c d : Nat} {b : Bool} {x : Option Nat} :
    gap ⟨c, d, b, true, x⟩ t = [] := by
  cases x with
  | none => rfl
  | some _ => rfl

theorem gap_tokens {c d : Nat} {b s : Bool} {x y : Option Nat}
    (h : s = true ∨ x.isSome = y.isSome) :
    tokens (gap ⟨c, d, b, s, x⟩ t) = tokens (gap ⟨c, d, b, s, y⟩ t) := by
  rcases h with rfl | h
  · rw [gap_separated, gap_separated]
  · cases x with
    | none =>
        cases y with
        | none => rfl
        | some _ => cases h
    | some _ =>
        cases y with
        | none => cases h
        | some _ =>
            simp only [gap]
            split <;> rfl

theorem mark_tokens {c d : Nat} {b s : Bool} {x y : Option Nat} (p q : Nat)
    (h : s = true ∨ x.isSome = y.isSome) :
    tokens (mark ⟨c, d, b, s, x⟩ p ts).items = tokens (mark ⟨c, d, b, s, y⟩ q ts).items := by
  induction ts generalizing c d b s x y p q with
  | nil => rfl
  | cons t ts ih =>
      simp only [mark]
      split
      · rfl
      · split
        · exact ih (p + 1) (q + 1) h
        · split
          · exact congrArg (t :: ·) (ih (p + 1) (q + 1) h)
          · split
            · exact ih (p + 1) (q + 1) (.inr (by simp))
            · simp only [tokens_append, tokens_cons, gap_tokens h]
              exact congrArg _ (congrArg _ (ih (p + 1) (q + 1) (.inr rfl)))

def marked (place : Place) (ts : List Token) : List Token :=
  tokens (mark place 0 ts).items

theorem tokens_mark (p : Nat) : tokens (mark place p ts).items = marked place ts :=
  mark_tokens p 0 (.inr rfl)

theorem marked_group (ht : t.isEof = false) :
    marked (group (d + 1)) (t :: r) = t :: marked (group (depthAfter (d + 1) t)) r := by
  simp only [marked, group, mark, ht]
  exact congrArg (t :: ·) (tokens_mark 1)

theorem marked_space : marked (inside false) (.whitespace :: r) = marked spaced r :=
  mark_tokens 1 0 (.inr rfl)

theorem marked_spaced_space : marked spaced (.whitespace :: r) = marked spaced r :=
  mark_tokens 1 0 (.inr rfl)

theorem marked_covered {s : Bool} {x : Option Nat} (ht : t.isEof = false) :
    marked ⟨1, d, b, s, x⟩ (t :: r) = marked ⟨0, d, b, s, x⟩ r := by
  simp only [marked, mark, ht]
  exact tokens_mark 1

theorem marked_cons {x : Option Nat} {s : Bool} (ht : t.isEof = false)
    (hw : b = true ∨ t.isWhitespace = false) :
    marked ⟨0, 0, b, s, x⟩ (t :: r) = tokens (gap ⟨0, 0, b, s, x⟩ t) ++ (composed b t r).1 ::
      marked { after b (composed b t r).1 with covered := (composed b t r).2 - 1 } r := by
  have hw' : (t.isWhitespace && !b) = false := by
    rcases hw with rfl | hw
    · exact Bool.and_false _
    · rw [hw]; rfl
  simp only [marked, mark, ht, hw', after, Bool.false_eq_true, Nat.lt_irrefl, if_false,
    tokens_append, tokens_cons]
  exact congrArg _ (congrArg _ (tokens_mark 1))

theorem marked_one {s : Bool} (hc : composed b t r = (m, 1)) (ht : t.isEof = false)
    (hw : b = true ∨ t.isWhitespace = false) :
    marked ⟨0, 0, b, s, none⟩ (t :: r) = m :: marked (after b m) r := by
  rw [marked_cons ht hw, hc]
  rfl

theorem marked_two {s : Bool} {u : Token} (hc : composed b t (u :: r) = (m, 2))
    (ht : t.isEof = false) (hu : u.isEof = false) (hw : b = true ∨ t.isWhitespace = false) :
    marked ⟨0, 0, b, s, none⟩ (t :: u :: r) = m :: marked (after b m) r := by
  rw [marked_cons ht hw, hc]
  exact congrArg (m :: ·) (marked_covered hu)

inductive Piece (b : Bool) : Token → List Token → List Token → Prop
  | sign {k : Combinator} {r : List Token} (hb : b = false) (hk : k ≠ .none)
      (hr : k = .child → LedBy (· ≠ .delim '>') r) : Piece b (.combinator k) (sign k ++ r) r
  | label {p : NamespacePattern} {r : List Token} (hp : p ≠ .omitted) :
      Piece b (.namespaceMark p) (label p ++ r) r
  | plain {t : Token} {r : List Token} (h : composed b t r = (t, 1)) : Piece b t (t :: r) r

theorem marked_piece {s : Bool} {u : List Token} (h : Piece b m ts u)
    (ht : ∀ t ∈ ts, t.isEof = false) (hw : b = true ∨ Inked ts) :
    marked ⟨0, 0, b, s, none⟩ ts = m :: marked (after b m) u := by
  cases h with
  | @sign k _ hb hk hr =>
      subst hb
      cases k with
      | none => exact absurd rfl hk
      | descendant => exact marked_two rfl rfl rfl (.inr rfl)
      | child =>
          refine marked_one ?_ rfl (.inr rfl)
          cases u with
          | nil => rfl
          | cons t u =>
              have ht : t ≠ .delim '>' := hr rfl
              simp [composed, combinator?, ht]
      | nextSibling => exact marked_one rfl rfl (.inr rfl)
      | subsequentSibling => exact marked_one rfl rfl (.inr rfl)
      | column => exact marked_one rfl rfl (.inr rfl)
  | @label p _ hp =>
      cases p with
      | omitted => exact absurd rfl hp
      | any => exact marked_two (by cases b <;> rfl) rfl rfl (.inr rfl)
      | none => exact marked_one (by cases b <;> rfl) rfl (.inr rfl)
      | labelled l => exact marked_two (by cases b <;> rfl) rfl rfl (.inr rfl)
  | plain hc => exact marked_one hc (ht _ List.mem_cons_self) hw

theorem combinator?_eq_some {k : Combinator} {w : Nat} (h : combinator? ts = some (k, w)) :
    Piece false (.combinator k) ts (ts.drop w) := by
  unfold combinator? at h
  split at h <;> cases h
  · exact .sign rfl nofun nofun
  · rename_i r hr
    refine .sign rfl nofun fun _ => ?_
    cases r with
    | nil => trivial
    | cons t r =>
        rintro rfl
        exact hr _ rfl
  · exact .sign rfl nofun nofun
  · exact .sign rfl nofun nofun
  · exact .sign rfl nofun nofun

theorem namespaceMark?_eq_some {p : NamespacePattern} {w : Nat}
    (h : namespaceMark? ts = some (p, w)) : Piece b (.namespaceMark p) ts (ts.drop w) := by
  unfold namespaceMark? at h
  split at h <;> cases h
  all_goals exact .label nofun

theorem exists_piece (b : Bool) (t : Token) (r : List Token) : ∃ m u, Piece b m (t :: r) u := by
  cases hc : if b then none else combinator? (t :: r) with
  | some found =>
      cases b with
      | true => cases hc
      | false => exact ⟨_, _, combinator?_eq_some hc⟩
  | none =>
      cases hm : namespaceMark? (t :: r) with
      | some found => exact ⟨_, _, namespaceMark?_eq_some hm⟩
      | none => exact ⟨t, r, .plain (by simp only [composed, hc, hm])⟩

inductive Fuses : List Token → List Token → Prop
  | nil : Fuses [] []
  | name {p : NamespacePattern} {n : Option String} {ms out : List Token} (h : Fuses ms out) :
      Fuses (.namespaceMark p :: localToken n :: ms) (.qualifiedName p n :: out)
  | kept {m : Token} {ms out : List Token} (hm : ∀ p, m ≠ .namespaceMark p) (h : Fuses ms out) :
      Fuses (m :: ms) (m :: out)

theorem fuse_sound {finish : Nat} {fused : List Lexeme} (h : fuse finish items = .ok fused) :
    Fuses (tokens items) (tokens fused) := by
  fun_induction fuse finish items generalizing fused with
  | case1 =>
      cases h
      exact .nil
  | case3 p q n _ rest others hr ih =>
      cases h
      exact Fuses.name (n := some n) (ih hr)
  | case5 p q _ rest others hr ih =>
      cases h
      exact Fuses.name (n := none) (ih hr)
  | case8 item rest _ _ hm others hr ih =>
      cases h
      exact .kept (fun p hp => hm p item.position (by cases item; cases hp; rfl)) (ih hr)
  | _ => cases h

theorem fuse_kept {finish p : Nat} (hm : ∀ p, m ≠ .namespaceMark p) :
    fuse finish (⟨m, p⟩ :: items) = (fuse finish items).map (⟨m, p⟩ :: ·) := by
  cases hf : fuse finish items with
  | error e => cases m <;> first | exact absurd rfl (hm _) | simp only [fuse, hf, Except.map]
  | ok fused => cases m <;> first | exact absurd rfl (hm _) | simp only [fuse, hf, Except.map]

theorem fuse_complete (finish : Nat) (h : Fuses (tokens items) out) :
    ∃ fused, fuse finish items = .ok fused ∧ tokens fused = out := by
  generalize hi : tokens items = ms at h
  induction h generalizing items with
  | nil =>
      obtain rfl := tokens_eq_nil hi
      exact ⟨[], rfl, rfl⟩
  | @name p n ms out _ ih =>
      obtain ⟨q, others, rfl, ho⟩ := tokens_eq_cons hi
      obtain ⟨_, rest, rfl, hr⟩ := tokens_eq_cons ho
      obtain ⟨fused, hf, rfl⟩ := ih hr
      refine ⟨⟨.qualifiedName p n, q⟩ :: fused, ?_, rfl⟩
      cases n <;> simp only [localToken, fuse, hf]
  | @kept m ms out hm _ ih =>
      obtain ⟨q, rest, rfl, hr⟩ := tokens_eq_cons hi
      obtain ⟨fused, hf, rfl⟩ := ih hr
      refine ⟨⟨m, q⟩ :: fused, ?_, rfl⟩
      rw [fuse_kept hm, hf]
      rfl

theorem marked_spaced (ht : t.isEof = false) (hw : t.isWhitespace = false) :
    marked spaced (t :: r) =
      if endsCompound t then marked (inside false) (t :: r)
      else .combinator .descendant :: marked (inside false) (t :: r) := by
  rw [spaced, inside, marked_cons ht (.inr hw), marked_cons ht (.inr hw)]
  simp only [gap, Bool.false_or]
  cases endsCompound t <;> rfl

theorem marked_spaced_blank (h : Blank ts r) : marked spaced ts = marked spaced r := by
  induction h with
  | none => rfl
  | more _ ih => exact marked_spaced_space.trans ih

theorem marked_start_space : marked start (.whitespace :: r) = marked start r :=
  mark_tokens 1 0 (.inl rfl)

theorem separates_composed (h : endsCompound t = true) :
    separates (composed false t r).1 = true := by
  unfold endsCompound at h
  split at h
  · rfl
  · rfl
  · simp only [Bool.or_eq_true, beq_iff_eq] at h
    rcases h with (rfl | rfl) | rfl
    · obtain ⟨k, w, hk⟩ : ∃ k w, combinator? (.delim '>' :: r) = some (k, w) := by
        unfold combinator?
        split <;> simp_all
      simp only [composed, Bool.false_eq_true, if_false, hk, separates]
    · rfl
    · rfl
  · cases h

theorem separates_of_marked_spaced {ms : List Token} (ht : ∀ t ∈ ts, t.isEof = false)
    (h : marked spaced ts = m :: ms) : separates m = true := by
  induction ts with
  | nil => cases h
  | cons t ts ih =>
      cases hw : t.isWhitespace with
      | true =>
          obtain rfl := Token.eq_whitespace hw
          exact ih (fun u hu => ht u (List.mem_cons_of_mem _ hu)) (marked_spaced_space.symm.trans h)
      | false =>
          rw [marked_spaced (ht _ List.mem_cons_self) hw] at h
          split at h
          · rename_i hc
            rw [inside, marked_cons (ht _ List.mem_cons_self) (.inr hw)] at h
            obtain ⟨rfl, -⟩ := List.cons.inj h
            exact separates_composed hc
          · cases h
            rfl

theorem inked_of_marked {ms : List Token} (ht : ∀ t ∈ ts, t.isEof = false)
    (h : marked (inside false) ts = m :: ms) (hm : separates m = false) : Inked ts := by
  cases ts with
  | nil => trivial
  | cons t ts =>
      cases hw : t.isWhitespace with
      | false => exact hw
      | true =>
          obtain rfl := Token.eq_whitespace hw
          have hs := separates_of_marked_spaced (fun u hu => ht u (List.mem_cons_of_mem _ hu))
            (marked_space.symm.trans h)
          rw [hm] at hs
          cases hs

theorem composed_head {u : Token} : composed b t (u :: ts) = composed b t [u] := by
  have sign : combinator? (t :: u :: ts) = combinator? [t, u] := by
    by_cases hu : u = .delim '>'
    · subst hu
      by_cases ht : t = .delim '>'
      · subst ht
        rfl
      · unfold combinator?
        split <;> simp_all
    · unfold combinator?
      split <;> simp_all
  have label : namespaceMark? (t :: u :: ts) = namespaceMark? [t, u] := by
    unfold namespaceMark?
    split <;> simp_all
  simp only [composed, sign, label]

theorem composed_singleton {u : Token} (hs : u ≠ .delim '>') (hl : u ≠ .delim '|') :
    composed b t [u] = composed b t [] := by
  have sign : combinator? [t, u] = combinator? [t] := by
    unfold combinator?
    split <;> simp_all
  have label : namespaceMark? [t, u] = namespaceMark? [t] := by
    unfold namespaceMark?
    split <;> simp_all
  simp only [composed, sign, label]

theorem composed_takeWhile :
    composed b t (ts.takeWhile fun t => !t.isEof) = composed b t ts := by
  cases ts with
  | nil => rfl
  | cons u ts =>
      cases hu : u.isEof with
      | true =>
          obtain rfl := Token.eq_eof hu
          exact (composed_head.trans (composed_singleton (u := .eof) nofun nofun)).symm
      | false =>
          rw [List.takeWhile_cons_of_pos (by simp [hu])]
          exact composed_head.trans composed_head.symm

theorem mark_takeWhile {p : Nat} :
    mark place p (ts.takeWhile fun t => !t.isEof) = mark place p ts := by
  induction ts generalizing place p with
  | nil => rfl
  | cons t ts ih =>
      cases ht : t.isEof with
      | true => simp [mark, ht]
      | false =>
          rw [List.takeWhile_cons_of_pos (by simp [ht])]
          simp only [mark, composed_takeWhile, ih]

theorem marked_takeWhile : marked place (ts.takeWhile fun t => !t.isEof) = marked place ts :=
  congrArg (fun lexemes : Cursor => tokens lexemes.items) mark_takeWhile

end Lexeme

end CssStyling

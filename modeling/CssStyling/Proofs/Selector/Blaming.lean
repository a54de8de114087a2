import CssStyling.Proofs.Selector.Composing

namespace CssStyling

namespace Grammar

open SyntaxError (Cause)
open Lexeme (skipSpace)

variable {α β : Type} {finish depth : Nat} {items rest : List Lexeme} {left : α → List Lexeme}
  {total : Specificity}

inductive Stays (finish : Nat) (items : List Lexeme) (left : α → List Lexeme) :
    Except SyntaxError α → Prop
  | ok {a : α} (h : left a <:+ items) : Stays finish items left (.ok a)
  | fail {cause : Cause} {rest : List Lexeme} (h : rest <:+ items) :
      Stays finish items left (.error (Cursor.error ⟨rest, finish⟩ cause))

namespace Stays

theorem mono {x : Except SyntaxError α} (h : Stays finish rest left x) (hs : rest <:+ items) :
    Stays finish items left x := by
  cases h with
  | ok h => exact .ok (h.trans hs)
  | fail h => exact .fail (h.trans hs)

theorem suffix {a : α} (h : Stays finish items left (.ok a)) : left a <:+ items := by
  cases h with
  | ok h => exact h

theorem error {left' : β → List Lexeme} {e : SyntaxError} (h : Stays finish items left (.error e)) :
    Stays finish items left' (.error e) := by
  cases h with
  | fail h => exact .fail h

end Stays

def leftOver (found : Option (Simple × List Lexeme)) : List Lexeme :=
  found.elim [] Prod.snd

theorem Stays.map_some {x : Except SyntaxError (Simple × List Lexeme)}
    (h : Stays finish items Prod.snd x) : Stays finish items leftOver (x.map some) := by
  cases h with
  | ok h => exact .ok h
  | fail h => exact .fail h

theorem suffix_of_eq_cons {lexeme : Lexeme} {others : List Lexeme} (h : rest <:+ items)
    (hr : rest = lexeme :: others) : others <:+ items := by
  subst hr
  exact (List.suffix_cons lexeme others).trans h

theorem skipSpace_suffix (items : List Lexeme) : skipSpace items <:+ items :=
  List.dropWhile_suffix _

theorem unexpected_stays (h : rest <:+ items) :
    Stays finish items left (unexpected finish rest) :=
  .fail h

theorem attributeName_stays (finish : Nat) (items : List Lexeme) :
    Stays finish items Prod.snd (attributeName finish items) := by
  unfold attributeName
  split
  · exact .ok (List.suffix_cons _ _)
  · exact .ok (List.suffix_cons _ _)
  · exact .fail List.suffix_rfl
  · exact .fail List.suffix_rfl
  · exact .fail List.suffix_rfl

theorem attributeValue_stays (finish : Nat) (items : List Lexeme) :
    Stays finish items Prod.snd (attributeValue finish items) := by
  unfold attributeValue
  split
  · exact .ok (List.suffix_cons _ _)
  · exact .ok (List.suffix_cons _ _)
  · exact .fail List.suffix_rfl
  · exact .fail List.suffix_rfl

theorem attributeComparison_stays (finish : Nat) (items : List Lexeme) :
    Stays finish items Prod.snd (attributeComparison finish items) := by
  have value := (attributeValue_stays finish (skipSpace items)).mono (skipSpace_suffix items)
  unfold attributeComparison
  generalize attributeValue finish (skipSpace items) = found at value ⊢
  cases value with
  | fail h => exact .fail h
  | @ok found h =>
      have after : skipSpace found.2 <:+ items := (skipSpace_suffix found.2).trans h
      dsimp only
      split
      · rename_i hr
        exact .ok (suffix_of_eq_cons after hr)
      · exact .fail after

theorem attributeTest_stays (finish : Nat) (items : List Lexeme) :
    Stays finish items Prod.snd (attributeTest finish items) := by
  have name := (attributeName_stays finish (skipSpace items)).mono (skipSpace_suffix items)
  unfold attributeTest
  generalize attributeName finish (skipSpace items) = found at name ⊢
  cases name with
  | fail h => exact .fail h
  | @ok found h =>
      have after : skipSpace found.2 <:+ items := (skipSpace_suffix found.2).trans h
      dsimp only
      split
      · exact .fail List.nil_suffix
      · rename_i hr
        exact .ok (suffix_of_eq_cons after hr)
      · rename_i lexeme others _ hr
        rw [hr] at after
        split
        · exact .fail after
        · have comparison := (attributeComparison_stays finish others).mono
            ((List.suffix_cons lexeme others).trans after)
          generalize attributeComparison finish others = compared at comparison ⊢
          cases comparison with
          | fail h => exact .fail h
          | ok h => exact .ok h

theorem arguments_stays (finish depth : Nat) (items : List Lexeme) :
    Stays finish items Prod.snd (arguments finish depth items) := by
  induction items generalizing depth with
  | nil => exact .fail List.suffix_rfl
  | cons lexeme items ih =>
      rw [arguments]
      split
      · exact .ok (List.suffix_cons _ _)
      · have inner := (ih (Lexeme.Place.depthAfter depth lexeme.token)).mono
          (List.suffix_cons lexeme items)
        generalize arguments finish _ items = found at inner ⊢
        cases inner with
        | fail h => exact .fail h
        | ok h => exact .ok h

theorem pseudoName_stays (finish : Nat) (items : List Lexeme) :
    Stays finish items Prod.snd (pseudoName finish items) := by
  unfold pseudoName
  split
  · exact .ok (List.suffix_cons _ _)
  · rename_i name position rest
    have inner := (arguments_stays finish 0 rest).mono
      (List.suffix_cons ⟨.function name, position⟩ rest)
    generalize arguments finish 0 rest = found at inner ⊢
    cases inner with
    | fail h => exact .fail h
    | ok h => exact .ok h
  · exact unexpected_stays List.suffix_rfl

theorem pseudo_stays (finish : Nat) (items : List Lexeme) :
    Stays finish items Prod.snd (pseudo finish items) := by
  unfold pseudo
  split
  · rename_i position rest
    have name := (pseudoName_stays finish rest).mono (List.suffix_cons ⟨.colon, position⟩ rest)
    generalize pseudoName finish rest = found at name ⊢
    cases name with
    | fail h => exact .fail h
    | ok h => exact .ok h
  · have name := pseudoName_stays finish items
    generalize pseudoName finish items = found at name ⊢
    cases name with
    | fail h => exact .fail h
    | ok h => exact .ok h

theorem className_stays (finish : Nat) (items : List Lexeme) :
    Stays finish items Prod.snd (className finish items) := by
  unfold className
  split
  · exact .ok (List.suffix_cons _ _)
  · exact unexpected_stays List.suffix_rfl

theorem simple?_stays (finish : Nat) (items : List Lexeme) :
    Stays finish items leftOver (simple? finish items) := by
  unfold simple?
  split
  · exact .ok (List.suffix_cons _ _)
  · exact ((className_stays finish _).mono (List.suffix_cons _ _)).map_some
  · exact ((attributeTest_stays finish _).mono (List.suffix_cons _ _)).map_some
  · exact ((pseudo_stays finish _).mono (List.suffix_cons _ _)).map_some
  · exact .fail List.suffix_rfl
  · exact .fail List.suffix_rfl
  · exact .fail List.suffix_rfl
  · exact .fail List.suffix_rfl
  · exact .ok List.nil_suffix

theorem leading_stays (finish : Nat) (items : List Lexeme) :
    Stays finish items Prod.snd (leading finish items) := by
  unfold leading
  split
  · exact .ok List.suffix_rfl
  · split
    · exact .ok List.suffix_rfl
    · split
      · exact .fail (List.suffix_cons _ _)
      · exact .ok (List.suffix_cons _ _)

theorem simples_stays (finish : Nat) (total : Specificity) (items : List Lexeme) :
    Stays finish items Prod.snd (simples finish total items) := by
  have first (items : List Lexeme) := simple?_stays finish items
  fun_induction simples finish total items with
  | case1 _ items _ he =>
      have h := first items
      rw [he] at h
      exact h.error
  | case2 => exact .ok List.suffix_rfl
  | case3 _ items _ rest hs _ he ih =>
      have h := first items
      rw [hs] at h
      rw [he] at ih
      exact (ih.mono h.suffix).error
  | case4 _ items _ rest hs _ _ _ hr ih =>
      have h := first items
      rw [hs] at h
      rw [hr] at ih
      exact .ok (ih.suffix.trans h.suffix)

theorem compound_stays (finish : Nat) (total : Specificity) (items : List Lexeme) :
    Stays finish items Prod.snd (compound finish total items) := by
  have first := leading_stays finish items
  unfold compound
  generalize leading finish items = lead at first ⊢
  cases first with
  | fail h => exact .fail h
  | @ok lead h =>
      have others := (simples_stays finish (lead.1.elim total (total + .ofSimple ·)) lead.2).mono h
      dsimp only
      generalize simples finish _ lead.2 = found at others ⊢
      cases others with
      | fail h => exact .fail h
      | ok h =>
          dsimp only
          split
          · exact unexpected_stays h
          · exact .ok h

theorem steps_stays (finish : Nat) (total : Specificity) (items : List Lexeme) :
    Stays finish items Prod.snd (steps finish total items) := by
  have first (total : Specificity) (items : List Lexeme) := compound_stays finish total items
  fun_induction steps finish total items with
  | case1 total items _ he =>
      have h := first total items
      rw [he] at h
      exact h.error
  | case2 total items _ _ _ _ _ hc =>
      have h := first total items
      rw [hc] at h
      exact .fail h.suffix
  | case3 total items _ _ _ _ _ hc _ _ he ih =>
      have h := first total items
      rw [hc] at h
      rw [he] at ih
      exact (ih.mono ((List.suffix_cons _ _).trans h.suffix)).error
  | case4 total items _ _ _ _ _ hc _ _ _ hr ih =>
      have h := first total items
      rw [hc] at h
      rw [hr] at ih
      exact .ok (ih.suffix.trans ((List.suffix_cons _ _).trans h.suffix))
  | case5 total items _ _ _ _ hc =>
      have h := first total items
      rw [hc] at h
      exact .ok h.suffix

theorem complex_stays (finish : Nat) (items : List Lexeme) :
    Stays finish items Prod.snd (complex finish items) := by
  unfold complex
  split
  · exact .fail List.suffix_rfl
  · exact steps_stays finish .zero items

theorem members_stays (finish : Nat) (items : List Lexeme) :
    Stays finish items (fun _ => []) (members finish items) := by
  have first (items : List Lexeme) := complex_stays finish items
  fun_induction members finish items with
  | case1 items _ he =>
      have h := first items
      rw [he] at h
      exact h.error
  | case2 => exact .ok List.nil_suffix
  | case3 items _ _ rest hc _ he ih =>
      have h := first items
      rw [hc] at h
      rw [he] at ih
      exact (ih.mono ((List.suffix_cons _ _).trans h.suffix)).error
  | case4 => exact .ok List.nil_suffix
  | case5 items _ _ _ _ hc =>
      have h := first items
      rw [hc] at h
      exact .fail h.suffix

end Grammar

namespace Lexeme

open Place Rendering

variable {ts rest : List Token} {t m : Token} {b : Bool} {place : Place} {position width finish : Nat}
  {items fused : List Lexeme} {lexeme : Lexeme} {cause : SyntaxError.Cause} {e : SyntaxError}

inductive Stands (ts : List Token) (position : Nat) : Token → Prop
  | kept {t : Token} (h : ts[position]? = some t) : Stands ts position t
  | space (h : ts[position]? = some .whitespace) : Stands ts position (.combinator .descendant)
  | sign {k : Combinator} (hk : k ≠ .none) (h : sign k <+: ts.drop position) :
      Stands ts position (.combinator k)
  | label {p : NamespacePattern} (hp : p ≠ .omitted) (h : label p <+: ts.drop position) :
      Stands ts position (.namespaceMark p)
  | name {p : NamespacePattern} {n : Option String} (hp : p ≠ .omitted)
      (h : label p ++ [localToken n] <+: ts.drop position) :
      Stands ts position (.qualifiedName p n)

theorem lt_length_of_prefix {us : List Token} (hne : us ≠ []) (h : us <+: ts.drop position) :
    position < ts.length := by
  have pos := List.length_pos_iff.mpr hne
  have le := h.length_le
  rw [List.length_drop] at le
  omega

theorem Stands.lt (h : Stands ts position t) : position < ts.length := by
  cases h with
  | kept h => exact (List.getElem?_eq_some_iff.mp h).1
  | space h => exact (List.getElem?_eq_some_iff.mp h).1
  | sign hk h =>
      refine lt_length_of_prefix ?_ h
      rintro hs
      cases ‹Combinator› <;> first | exact hk rfl | cases hs
  | label hp h =>
      refine lt_length_of_prefix ?_ h
      rintro hs
      cases ‹NamespacePattern› <;> first | exact hp rfl | cases hs
  | name _ h => exact lt_length_of_prefix (by simp) h

theorem Stands.mono {us : List Token} (h : Stands us position t) (hu : us <+: ts) :
    Stands ts position t := by
  have item {x : Token} (hx : us[position]? = some x) : ts[position]? = some x := by
    obtain ⟨hlt, -⟩ := List.getElem?_eq_some_iff.mp hx
    obtain ⟨ws, rfl⟩ := hu
    rwa [List.getElem?_append_left hlt]
  have front {vs : List Token} (hv : vs <+: us.drop position) : vs <+: ts.drop position := by
    obtain ⟨ws, rfl⟩ := hu
    rw [List.drop_append]
    exact hv.trans (List.prefix_append _ _)
  cases h with
  | kept h => exact .kept (item h)
  | space h => exact .space (item h)
  | sign hk h => exact .sign hk (front h)
  | label hp h => exact .label hp (front h)
  | name hp h => exact .name hp (front h)

theorem composed_cases (h : composed b t rest = (m, width)) :
    (∃ k ≠ .none, m = .combinator k ∧ sign k <+: t :: rest) ∨
      (∃ p ≠ .omitted, m = .namespaceMark p ∧ label p <+: t :: rest ∧ width = (label p).length) ∨
        m = t := by
  have marks {p : NamespacePattern} {w : Nat} (hm : namespaceMark? (t :: rest) = some (p, w)) :
      p ≠ .omitted ∧ label p <+: t :: rest ∧ w = (label p).length := by
    unfold namespaceMark? at hm
    split at hm <;> cases hm <;> simp_all [Rendering.label]
  have signs {k : Combinator} {w : Nat} (hs : combinator? (t :: rest) = some (k, w)) :
      k ≠ .none ∧ sign k <+: t :: rest := by
    unfold combinator? at hs
    split at hs <;> cases hs <;> simp_all [Rendering.sign]
  unfold composed at h
  split at h
  · rename_i hk
    split at hk
    · cases hk
    · cases h
      obtain ⟨hne, hpre⟩ := signs hk
      exact .inl ⟨_, hne, rfl, hpre⟩
  · split at h
    · rename_i hm
      cases h
      obtain ⟨hne, hpre, hw⟩ := marks hm
      exact .inr (.inl ⟨_, hne, rfl, hpre, hw⟩)
    · cases h
      exact .inr (.inr rfl)

inductive Traced (ts : List Token) : List Lexeme → Prop
  | nil : Traced ts []
  | cons {lexeme : Lexeme} {items : List Lexeme} (h : Stands ts lexeme.position lexeme.token)
      (hn : ∀ p n ms, lexeme.token = .namespaceMark p → tokens items = localToken n :: ms →
        label p ++ [localToken n] <+: ts.drop lexeme.position)
      (hi : Traced ts items) : Traced ts (lexeme :: items)

theorem Traced.stands (h : Traced ts items) (hx : lexeme ∈ items) :
    Stands ts lexeme.position lexeme.token := by
  induction h with
  | nil => cases hx
  | cons h _ _ ih =>
      rcases List.mem_cons.mp hx with rfl | hx
      · exact h
      · exact ih hx

theorem drop_eq_cons (h : ts.drop position = t :: rest) :
    ts[position]? = some t ∧ ts.drop (position + 1) = rest := by
  constructor
  · rw [← Nat.add_zero position, ← List.getElem?_drop, h]
    rfl
  · rw [← List.drop_drop, h]
    rfl

theorem name_of_marked {p : NamespacePattern} {n : Option String} {ms : List Token}
    (hp : p ≠ .omitted) (raw : ∀ u ∈ t :: rest, Raw u) (hl : label p <+: t :: rest)
    (h : marked ⟨(label p).length - 1, 0, b, false, none⟩ rest = localToken n :: ms) :
    label p ++ [localToken n] <+: t :: rest := by
  obtain ⟨u, hu⟩ := hl
  have touching {r : List Token} (hr : ∀ t ∈ r, Raw t)
      (hm : marked (inside b) r = localToken n :: ms) : [localToken n] <+: r := by
    obtain ⟨v, rfl, -⟩ := marked_local hr hm
    exact ⟨v, rfl⟩
  have covered (hrest : rest = .delim '|' :: u)
      (hm : marked ⟨1, 0, b, false, none⟩ rest = localToken n :: ms) : [localToken n] <+: u := by
    subst hrest
    rw [marked_covered rfl] at hm
    exact touching (fun t ht => raw t (by simp [ht])) hm
  rw [← hu, List.prefix_append_right_inj]
  cases p with
  | omitted => exact absurd rfl hp
  | any => exact covered (List.cons.inj hu).2.symm h
  | none =>
      obtain rfl : u = rest := (List.cons.inj hu).2
      exact touching (fun t ht => raw t (List.mem_cons_of_mem _ ht)) h
  | labelled l => exact covered (List.cons.inj hu).2.symm h

theorem traced_gap (hs : ∀ q, place.space = some q → ts[q]? = some .whitespace)
    (h : Traced ts items) : Traced ts (gap place t ++ items) := by
  unfold gap
  split
  · exact h
  · rename_i q hq
    split
    · exact h
    · refine .cons (.space (hs q hq)) ?_ h
      rintro p n ms ⟨⟩

theorem traced_composed (raw : ∀ u ∈ t :: rest, Raw u) (hr : ts.drop position = t :: rest)
    (hc : composed b t rest = (m, width))
    (h : Traced ts (mark { after b m with covered := width - 1 } (position + 1) rest).items) :
    Traced ts (⟨m, position⟩ ::
      (mark { after b m with covered := width - 1 } (position + 1) rest).items) := by
  rcases composed_cases hc with ⟨k, hk, rfl, hpre⟩ | ⟨p, hp, rfl, hpre, rfl⟩ | rfl
  · refine .cons (.sign hk (hr ▸ hpre)) ?_ h
    rintro p n ms ⟨⟩
  · refine .cons (.label hp (hr ▸ hpre)) ?_ h
    rintro p n ms ⟨⟩ hn
    rw [tokens_mark] at hn
    rw [hr]
    exact name_of_marked hp raw hpre hn
  · refine .cons (.kept (drop_eq_cons hr).1) ?_ h
    intro p n ms (hm : m = .namespaceMark p)
    subst hm
    cases (raw _ List.mem_cons_self).1

theorem traced_mark (raw : ∀ t ∈ rest, Raw t) (hr : ts.drop position = rest)
    (hs : ∀ q, place.space = some q → ts[q]? = some .whitespace) :
    Traced ts (mark place position rest).items := by
  induction rest generalizing place position with
  | nil => exact .nil
  | cons t rest ih =>
      obtain ⟨here, next⟩ := drop_eq_cons hr
      obtain ⟨rawHere, rawNext⟩ := List.forall_mem_cons.mp raw
      simp only [mark, rawHere.2, Bool.false_eq_true, if_false]
      split
      · exact ih rawNext next hs
      · split
        · refine .cons (.kept here) ?_ (ih rawNext next hs)
          rintro p n ms rfl
          cases rawHere.1
        · split
          · rename_i hw
            refine ih rawNext next fun q hq => ?_
            rcases Option.or_eq_some_iff.mp hq with hq | ⟨-, hq⟩
            · exact hs q hq
            · obtain rfl := Option.some.inj hq
              rw [Bool.and_eq_true] at hw
              rw [here, Token.eq_whitespace hw.1]
          · exact traced_gap hs (traced_composed raw hr rfl (ih rawNext next fun _ hq => by cases hq))

theorem finish_mark (raw : ∀ t ∈ rest, Raw t) : (mark place position rest).finish =
    position + rest.length := by
  induction rest generalizing place position with
  | nil => rfl
  | cons t rest ih =>
      obtain ⟨rawHere, rawNext⟩ := List.forall_mem_cons.mp raw
      have next (place : Place) : (mark place (position + 1) rest).finish =
          position + (t :: rest).length := by
        rw [ih rawNext, List.length_cons]
        omega
      simp only [mark, rawHere.2, Bool.false_eq_true, if_false]
      split
      · exact next _
      · split
        · exact next _
        · split
          · exact next _
          · exact next _

theorem Stands.ne_omitted {p : NamespacePattern} (raw : ∀ t ∈ ts, Raw t)
    (h : Stands ts position (.namespaceMark p)) : p ≠ .omitted := by
  cases h with
  | kept h => cases (raw _ (List.mem_of_getElem? h)).1
  | label hp _ => exact hp

theorem Traced.tail (h : Traced ts (lexeme :: items)) : Traced ts items := by
  cases h with
  | cons _ _ h => exact h

theorem stands_of_fuse (raw : ∀ t ∈ ts, Raw t) (h : Traced ts items)
    (hf : fuse finish items = .ok fused) : ∀ x ∈ fused, Stands ts x.position x.token := by
  have named {p : NamespacePattern} {n : Option String} {position q : Nat} {rest : List Lexeme}
      (h : Traced ts (⟨.namespaceMark p, position⟩ :: ⟨localToken n, q⟩ :: rest)) :
      Stands ts position (.qualifiedName p n) := by
    cases h with
    | cons h hn _ => exact .name (h.ne_omitted raw) (hn p n _ rfl rfl)
  fun_induction fuse finish items generalizing fused with
  | case1 =>
      cases hf
      exact fun _ hx => by cases hx
  | case3 p position n q rest others hr ih =>
      cases hf
      exact List.forall_mem_cons.mpr ⟨named (n := some n) h, ih h.tail.tail hr⟩
  | case5 p position q rest others hr ih =>
      cases hf
      exact List.forall_mem_cons.mpr ⟨named (n := none) h, ih h.tail.tail hr⟩
  | case8 lexeme rest _ _ _ others hr ih =>
      cases hf
      exact List.forall_mem_cons.mpr ⟨h.stands List.mem_cons_self, ih h.tail hr⟩
  | _ => cases hf

theorem fuse_stays (finish : Nat) (items : List Lexeme) :
    Grammar.Stays finish items (fun _ => []) (fuse finish items) := by
  have second {x y : Lexeme} {rest : List Lexeme} : rest <:+ x :: y :: rest := ⟨[x, y], rfl⟩
  fun_induction fuse finish items with
  | case2 _ _ _ _ rest e he ih =>
      rw [he] at ih
      exact ih.mono second
  | case4 _ _ _ rest e he ih =>
      rw [he] at ih
      exact ih.mono second
  | case6 => exact .fail (List.suffix_cons _ _)
  | case7 lexeme rest _ _ _ e he ih =>
      rw [he] at ih
      exact ih.mono (List.suffix_cons lexeme rest)
  | _ => exact .ok List.nil_suffix

end Lexeme

namespace SyntaxError

open Rendering

variable {ts : List Token} {e : SyntaxError} {items : List Lexeme} {finish : Nat}

inductive Points (ts : List Token) (e : SyntaxError) : Prop
  | finish (hp : e.position = ts.length) (ht : e.token = .eof)
  | token (h : Lexeme.Stands ts e.position e.token)

theorem points_of_suffix {cause : Cause} {rest : List Lexeme} (h : rest <:+ items)
    (hi : ∀ x ∈ items, Lexeme.Stands ts x.position x.token) :
    Points ts (Cursor.error ⟨rest, ts.length⟩ cause) := by
  cases rest with
  | nil => exact .finish rfl rfl
  | cons x rest => exact .token (hi x (h.subset List.mem_cons_self))

theorem points_of_stays {α : Type} {left : α → List Lexeme}
    (h : Grammar.Stays ts.length items left (.error e))
    (hi : ∀ x ∈ items, Lexeme.Stands ts x.position x.token) : Points ts e := by
  cases h with
  | fail hs => exact points_of_suffix hs hi

theorem points_of_compose (raw : ∀ t ∈ ts, Raw t) :
    (∀ e, Cursor.prepare ts = .error e → Points ts e) ∧
      ∀ l, Cursor.prepare ts = .ok l → l.finish = ts.length ∧
        ∀ x ∈ l.items, Lexeme.Stands ts x.position x.token := by
  have traced : Lexeme.Traced ts (Lexeme.mark .start 0 ts).items :=
    Lexeme.traced_mark raw rfl fun _ h => by cases h
  have finish : (Lexeme.mark .start 0 ts).finish = ts.length :=
    (Lexeme.finish_mark raw).trans (Nat.zero_add _)
  have stays := Lexeme.fuse_stays (Lexeme.mark .start 0 ts).finish (Lexeme.mark .start 0 ts).items
  cases hf : Lexeme.fuse (Lexeme.mark .start 0 ts).finish (Lexeme.mark .start 0 ts).items with
  | error cause =>
      have composed : Cursor.prepare ts = .error cause := by simp only [Cursor.prepare, hf]
      rw [hf, finish] at stays
      rw [composed]
      constructor
      · intro e he
        cases he
        exact points_of_stays stays fun x => traced.stands
      · intro l hl
        cases hl
  | ok fused =>
      have composed : Cursor.prepare ts = .ok ⟨fused, (Lexeme.mark .start 0 ts).finish⟩ := by
        simp only [Cursor.prepare, hf]
      rw [composed]
      constructor
      · intro e he
        cases he
      · intro l hl
        cases hl
        exact ⟨finish, Lexeme.stands_of_fuse raw traced hf⟩

theorem prepare_takeWhile :
    Cursor.prepare (ts.takeWhile fun t => !t.isEof) = Cursor.prepare ts := by
  unfold Cursor.prepare
  rw [Lexeme.mark_takeWhile]

theorem points_of_read (raw : ∀ t ∈ ts, Raw t)
    (he : SelectorList.ofTokens ts = .error e ∨ Complex.ofTokens ts = .error e) : Points ts e := by
  obtain ⟨failed, composed⟩ := points_of_compose raw
  unfold SelectorList.ofTokens Complex.ofTokens at he
  cases hl : Cursor.prepare ts with
  | error e' =>
      rw [hl] at he
      rcases he with he | he <;> cases he <;> exact failed e hl
  | ok l =>
      obtain ⟨finish, stands⟩ := composed l hl
      have members := Grammar.members_stays l.finish l.items
      have complex := Grammar.complex_stays l.finish l.items
      rw [finish] at members complex
      rw [hl] at he
      dsimp only at he
      rw [finish] at he
      rcases he with he | he
      · cases hm : Grammar.members ts.length l.items with
        | error e' =>
            rw [hm] at he members
            cases he
            exact points_of_stays members stands
        | ok found =>
            rw [hm] at he
            cases he
      · generalize Grammar.complex ts.length l.items = found at he complex
        cases complex with
        | @fail cause rest h =>
            cases he
            exact points_of_suffix h stands
        | @ok found h =>
            obtain ⟨complex, rest⟩ := found
            cases rest with
            | nil => cases he
            | cons x rest =>
                cases he
                exact .token (stands x (h.subset List.mem_cons_self))

theorem length_takeWhile :
    (ts.takeWhile fun t => !t.isEof).length = ts.findIdx Token.isEof := by
  induction ts with
  | nil => rfl
  | cons t ts ih =>
      rw [List.takeWhile_cons, List.findIdx_cons]
      cases t.isEof with
      | false => simpa using ih
      | true => rfl

theorem located (raw : ∀ t ∈ ts, t.isComposite = false)
    (he : SelectorList.ofTokens ts = .error e ∨ Complex.ofTokens ts = .error e) :
    let finish := ts.findIdx Token.isEof
    e.position ≤ finish ∧ (e.position = finish → e.token = .eof) ∧
      (e.position < finish → Lexeme.Stands ts e.position e.token) := by
  intro finish
  have front : ts.takeWhile (fun t => !t.isEof) <+: ts := List.takeWhile_prefix _
  have length : (ts.takeWhile fun t => !t.isEof).length = finish := length_takeWhile
  have rawFront : ∀ t ∈ ts.takeWhile (fun t => !t.isEof), Raw t := by
    intro t ht
    refine ⟨raw t (front.subset ht), ?_⟩
    simpa using List.all_eq_true.mp List.all_takeWhile t ht
  have points : Points (ts.takeWhile fun t => !t.isEof) e := by
    refine points_of_read rawFront ?_
    unfold SelectorList.ofTokens Complex.ofTokens at he ⊢
    rwa [prepare_takeWhile]
  cases points with
  | finish hp ht =>
      rw [length] at hp
      exact ⟨Nat.le_of_eq hp, fun _ => ht, fun h => absurd hp (Nat.ne_of_lt h)⟩
  | token h =>
      have lt := h.lt
      rw [length] at lt
      exact ⟨Nat.le_of_lt lt, fun h' => absurd h' (Nat.ne_of_lt lt), fun _ => h.mono front⟩

theorem located_prefix :
    let ts : List Token := [.ident "svg", .delim '|', .whitespace, .ident "rect"]
    let e : SyntaxError := ⟨.missingLocalName, .combinator .descendant, 2⟩
    SelectorList.ofTokens ts = .error e ∧ Lexeme.Stands ts e.position e.token := by
  intro ts e
  have failed : SelectorList.ofTokens ts = .error e := by cbv
  have raw : ∀ t ∈ ts, t.isComposite = false := by
    simp only [ts, List.forall_mem_cons, Token.isComposite]
    simp
  exact ⟨failed, (located raw (.inl failed)).2.2 (by decide)⟩

end SyntaxError

end CssStyling

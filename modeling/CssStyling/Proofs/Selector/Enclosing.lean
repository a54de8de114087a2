import CssStyling.Proofs.Selector.Balancing
import CssStyling.Proofs.Selector.Composing

namespace CssStyling

namespace Lexeme

open Place Rendering

variable {d p finish : Nat} {t : Token} {ts us r args out : List Token} {items rest : List Lexeme}
  {e : SyntaxError}

def placed (p : Nat) : List Token → List Lexeme
  | [] => []
  | t :: ts => ⟨t, p⟩ :: placed (p + 1) ts

theorem tokens_placed (p : Nat) (ts : List Token) : tokens (placed p ts) = ts := by
  induction ts generalizing p with
  | nil => rfl
  | cons t ts ih => exact congrArg (t :: ·) (ih (p + 1))

theorem placed_eq_append {before : List Lexeme} {item : Lexeme}
    (h : placed p ts = before ++ item :: rest) :
    ts = tokens before ++ item.token :: tokens rest ∧
      rest = placed (p + before.length + 1) (tokens rest) := by
  induction before generalizing p ts with
  | nil =>
      cases ts with
      | nil => cases h
      | cons t ts =>
          obtain ⟨rfl, rfl⟩ := List.cons.inj h
          rw [tokens_placed]
          exact ⟨rfl, rfl⟩
  | cons first before ih =>
      cases ts with
      | nil => cases h
      | cons t ts =>
          obtain ⟨rfl, hs⟩ := List.cons.inj h
          obtain ⟨rfl, hr⟩ := ih hs
          refine ⟨rfl, ?_⟩
          rw [List.length_cons, Nat.add_comm before.length, ← Nat.add_assoc]
          exact hr

theorem mark_group_cons (ht : t.isEof = false)
    (h : (mark (group (depthAfter (d + 1) t)) (p + 1) ts).items = placed (p + 1) ts) :
    (mark (group (d + 1)) p (t :: ts)).items = placed p (t :: ts) := by
  have step : (mark (group (d + 1)) p (t :: ts)).items =
      ⟨t, p⟩ :: (mark (group (depthAfter (d + 1) t)) (p + 1) ts).items := by
    simp [mark, group, ht]
  rw [step, h, placed]

theorem mark_group (h : Balanced d args) (he : ∀ t ∈ args, t.isEof = false) :
    (mark (group (d + 1)) p (args ++ [.closeParen])).items = placed p (args ++ [.closeParen]) := by
  induction h generalizing p with
  | nil => rfl
  | opening ht _ ih =>
      obtain ⟨first, others⟩ := List.forall_mem_cons.mp he
      refine mark_group_cons first ?_
      rw [depthAfter, if_pos ht]
      exact ih others
  | closing _ ih =>
      obtain ⟨first, others⟩ := List.forall_mem_cons.mp he
      exact mark_group_cons first (ih others)
  | plain ht ht' _ ih =>
      obtain ⟨first, others⟩ := List.forall_mem_cons.mp he
      refine mark_group_cons first ?_
      simp only [depthAfter, ht, ht']
      exact ih others

theorem Fuses.append {us out' : List Token} (h : Fuses ts out) (h' : Fuses us out') :
    Fuses (ts ++ us) (out ++ out') := by
  induction h with
  | nil => exact h'
  | name _ ih => exact .name ih
  | kept hm _ ih => exact .kept hm ih

theorem Fuses.of_closed (h : Fuses (ts ++ [.closeParen]) out) : ∃ out', Fuses ts out' := by
  generalize hu : ts ++ [.closeParen] = us at h
  induction h generalizing ts with
  | nil => exact absurd hu (List.append_ne_nil_of_right_ne_nil _ nofun)
  | @name p n ms out _ ih =>
      rcases ts with _ | ⟨t, _ | ⟨u, ts⟩⟩
      · cases hu
      · -- The parenthesis that closes the group is no name for the prefix before it.
        cases n <;> cases hu
      · obtain ⟨rfl, hl⟩ := List.cons.inj hu
        obtain ⟨rfl, hr⟩ := List.cons.inj hl
        obtain ⟨out', h⟩ := ih hr
        exact ⟨_, .name h⟩
  | kept hm _ ih =>
      rcases ts with _ | ⟨t, ts⟩
      · exact ⟨[], .nil⟩
      · obtain ⟨rfl, hr⟩ := List.cons.inj hu
        obtain ⟨out', h⟩ := ih hr
        exact ⟨_, .kept hm h⟩

theorem Fuses.self (h : ∀ p, .namespaceMark p ∉ ts) : Fuses ts ts := by
  induction ts with
  | nil => exact .nil
  | cons t ts ih =>
      refine .kept (fun p hp => h p (hp ▸ List.mem_cons_self)) (ih fun p hp => h p ?_)
      exact List.mem_cons_of_mem _ hp

theorem Fuses.unmarked (h : Fuses ts out) : .namespaceMark q ∉ out := by
  induction h with
  | nil => exact List.not_mem_nil
  | name _ ih => exact List.not_mem_cons_of_ne_of_not_mem nofun ih
  | kept hm _ ih => exact List.not_mem_cons_of_ne_of_not_mem (hm q).symm ih

theorem Fuses.balanced (h : Fuses ts out) (hb : Balanced d ts) : Balanced d out := by
  induction h generalizing d with
  | nil => exact hb
  | @name p n ms out _ ih =>
      cases hb with
      | opening ht => cases ht
      | plain _ _ hb =>
          refine .plain rfl rfl (ih ?_)
          generalize hn : localToken n = u at hb
          cases hb with
          | opening ht => cases n <;> cases hn <;> cases ht
          | closing => cases n <;> cases hn
          | plain _ _ hb => exact hb
  | kept _ _ ih =>
      cases hb with
      | opening ht hb => exact .opening ht (ih hb)
      | closing hb => exact .closing (ih hb)
      | plain ht ht' hb => exact .plain ht ht' (ih hb)

theorem fuse_placed (ht : ∀ q, .namespaceMark q ∉ ts) :
    fuse finish (placed p ts ++ items) = (fuse finish items).map (placed p ts ++ ·) := by
  induction ts generalizing p with
  | nil => exact (id_map (fuse finish items)).symm
  | cons t ts ih =>
      have kept : ∀ q, t ≠ .namespaceMark q := fun q hq => ht q (hq ▸ List.mem_cons_self)
      rw [placed, List.cons_append, fuse_kept kept, ih fun q hq => ht q (List.mem_cons_of_mem _ hq)]
      cases fuse finish items <;> rfl

def Unnamed (items rest : List Lexeme) : Prop :=
  ∃ before p q out, items = before ++ ⟨.namespaceMark p, q⟩ :: rest ∧
    Fuses (tokens before) out ∧ ∀ n, (tokens rest).head? ≠ some (localToken n)

theorem Unnamed.append (h : Unnamed items rest) (front : List Lexeme)
    (hf : Fuses (tokens front) out) : Unnamed (front ++ items) rest := by
  obtain ⟨before, p, q, out', rfl, hb, hn⟩ := h
  refine ⟨front ++ before, p, q, out ++ out', (List.append_assoc ..).symm, ?_, hn⟩
  rw [tokens_append]
  exact hf.append hb

theorem fuse_error (h : fuse finish items = .error e) :
    ∃ rest, Unnamed items rest ∧ e = Cursor.error ⟨rest, finish⟩ .missingLocalName := by
  fun_induction fuse finish items with
  | case2 p q n q' rest _ hr ih =>
      cases h
      obtain ⟨rest, hu, he⟩ := ih hr
      exact ⟨rest, hu.append [_, _] (.name (n := some n) .nil), he⟩
  | case4 p q q' rest _ hr ih =>
      cases h
      obtain ⟨rest, hu, he⟩ := ih hr
      exact ⟨rest, hu.append [_, _] (.name (n := none) .nil), he⟩
  | case6 p q rest noIdent noStar =>
      cases h
      refine ⟨rest, ⟨[], p, q, [], rfl, .nil, fun n hn => ?_⟩, rfl⟩
      obtain ⟨others, hr⟩ := List.head?_eq_some_iff.mp hn
      obtain ⟨q', others, rfl, -⟩ := tokens_eq_cons hr
      cases n with
      | none => exact noStar _ _ rfl
      | some n => exact noIdent _ _ _ rfl
  | case7 item rest _ _ hm _ hr ih =>
      cases h
      obtain ⟨rest, hu, he⟩ := ih hr
      refine ⟨rest, hu.append [_] (.kept (fun p hp => ?_) .nil), he⟩
      exact hm p item.position (by cases item; cases hp; rfl)
  | _ => cases h

theorem Unnamed.placed (finish : Nat) (h : Unnamed (placed p (args ++ [.closeParen])) rest) :
    ∃ before q t after out, args ++ [.closeParen] = before ++ .namespaceMark q :: t :: after ∧
      Fuses before out ∧ (∀ n, t ≠ localToken n) ∧
      Cursor.error ⟨rest, finish⟩ .missingLocalName = ⟨.missingLocalName, t, p + before.length + 1⟩ := by
  obtain ⟨before, q, q', out, hp, hf, hn⟩ := h
  obtain ⟨ha, hr⟩ := placed_eq_append hp
  cases hs : tokens rest with
  | nil =>
      rw [hs] at ha
      have last := congrArg List.getLast? ha
      simp at last
  | cons t after =>
      rw [hs] at ha hn hr
      have length : (tokens before).length = before.length := List.length_map _
      refine ⟨tokens before, q, t, after, out, ha, hf, fun n ht => hn n ?_, ?_⟩
      · rw [ht]
        rfl
      · rw [hr, length]
        rfl

end Lexeme

inductive Pseudo where
  | ofClass
  | ofElement

namespace Pseudo

open Lexeme Rendering

variable (k : Pseudo) (name : String) (args : List Token)

def front : List Token :=
  match k with
  | ofClass => [.colon, .function name]
  | ofElement => [.colon, .colon, .function name]

def call : List Token :=
  k.front name ++ (args ++ [.closeParen])

def simple : Simple :=
  match k with
  | ofClass => .pseudoClass (Ascii.lower name) (some (Token.trim args))
  | ofElement => .pseudoElement (Ascii.lower name) (some (Token.trim args))

def sole : SelectorList :=
  ⟨[⟨[], ⟨[k.simple name args]⟩, .ofSimple (k.simple name args)⟩]⟩

variable {k name args} {out : List Token}

theorem trim_of_sole (h : k.sole name args = k.sole name out) :
    Token.trim args = Token.trim out := by
  have simples := congrArg (fun l => l.members.flatMap Complex.simples) h
  cases k <;> simpa [sole, simple, Complex.simples, Complex.steps] using simples

theorem front_unmarked (p : NamespacePattern) : .namespaceMark p ∉ k.front name := by
  cases k <;> simp [front]

theorem mark_front (ts : List Token) : (mark .start 0 (k.front name ++ ts)).items =
    placed 0 (k.front name) ++ (mark (Place.group 1) (k.front name).length ts).items := by
  cases k <;> rfl

theorem mark_call (hb : Balanced 0 args) (he : ∀ t ∈ args, t.isEof = false) :
    (mark .start 0 (k.call name args)).items = placed 0 (k.front name) ++
      placed (k.front name).length (args ++ [.closeParen]) := by
  rw [call, mark_front, mark_group hb he]

theorem ofTokens_call (k : Pseudo) (name : String) (hb : Balanced 0 args)
    (he : ∀ t ∈ args, t.isEof = false) :
    ∃ finish, Cursor.prepare (k.call name args) =
      (fuse finish (placed (k.front name).length (args ++ [.closeParen]))).map
        fun fused => ⟨placed 0 (k.front name) ++ fused, finish⟩ := by
  refine ⟨(mark .start 0 (k.call name args)).finish, ?_⟩
  simp only [Cursor.prepare]
  rw [mark_call hb he, fuse_placed front_unmarked]
  cases fuse _ (placed (k.front name).length (args ++ [.closeParen])) <;> rfl

theorem members_call (hb : Balanced 0 args) :
    Members .composed (k.sole name args).members (k.call name args) := by
  have called := Called.function (σ := .composed) (n := name) (r := []) hb fun _ _ => trivial
  refine .last rfl ⟨.subject (.bare ?_ .nil), ?_⟩ rfl
  · cases k with
    | ofClass => exact .pseudoClass called
    | ofElement => exact .pseudoElement called
  · cases k <;> rfl

end Pseudo

theorem Token.mem_trim {t : Token} {ts : List Token} (ht : t.isWhitespace = false) :
    t ∈ trim ts ↔ t ∈ ts := by
  have same := Token.filter_trim ts
  constructor
  · exact fun h => (trim_sublist ts).subset h
  · intro h
    have kept : t ∈ ts.filter fun t => !t.isWhitespace := List.mem_filter.mpr ⟨h, by simp [ht]⟩
    rw [← same] at kept
    exact (List.mem_filter.mp kept).1

namespace SelectorList

open Lexeme Rendering

variable {args out : List Token} (k : Pseudo) (name : String)

theorem ofTokens_joined (hb : Balanced 0 args) (he : ∀ t ∈ args, t.isEof = false)
    (h : Fuses args out) : ofTokens (k.call name args) = .ok (k.sole name out) := by
  obtain ⟨finish, call⟩ := Pseudo.ofTokens_call k name hb he
  have closed : Fuses (tokens (placed (k.front name).length (args ++ [.closeParen])))
      (out ++ [.closeParen]) := by
    rw [tokens_placed]
    exact h.append (.kept nofun .nil)
  obtain ⟨fused, hf, ho⟩ := fuse_complete finish closed
  rw [hf] at call
  refine ofTokens_eq_ok_iff.mpr ⟨_, call, ?_⟩
  rw [tokens_append, tokens_placed, ho]
  exact Pseudo.members_call (h.balanced hb)

theorem ofTokens_unnamed (hb : Balanced 0 args) (he : ∀ t ∈ args, t.isEof = false)
    (h : ∀ out, ¬Fuses args out) :
    ∃ before p t after out, args ++ [.closeParen] = before ++ .namespaceMark p :: t :: after ∧
      Fuses before out ∧ (∀ n, t ≠ localToken n) ∧ ofTokens (k.call name args) =
        .error ⟨.missingLocalName, t, (k.front name).length + before.length + 1⟩ := by
  obtain ⟨finish, call⟩ := Pseudo.ofTokens_call k name hb he
  cases hf : fuse finish (placed (k.front name).length (args ++ [.closeParen])) with
  | ok fused =>
      have closed := fuse_sound hf
      rw [tokens_placed] at closed
      obtain ⟨out, joined⟩ := closed.of_closed
      exact absurd joined (h out)
  | error e =>
      obtain ⟨rest, hu, rfl⟩ := fuse_error hf
      obtain ⟨before, p, t, after, out, ha, ho, hn, herr⟩ := hu.placed finish
      refine ⟨before, p, t, after, out, ha, ho, hn, ?_⟩
      rw [hf, herr] at call
      simp only [ofTokens, call, Except.map]

structure Reads (args : List Token) (result : Except SyntaxError SelectorList) : Prop where
  verbatim : result = .ok (k.sole name args) ↔ ∀ p, .namespaceMark p ∉ args
  joined : ∀ out, Fuses args out → result = .ok (k.sole name out)
  unnamed : (∀ out, ¬Fuses args out) →
    ∃ before p t after out, args ++ [.closeParen] = before ++ .namespaceMark p :: t :: after ∧
      Fuses before out ∧ (∀ n, t ≠ localToken n) ∧
      result = .error ⟨.missingLocalName, t, (k.front name).length + before.length + 1⟩

theorem call_reads (hb : Balanced 0 args) (he : ∀ t ∈ args, t.isEof = false) :
    Reads k name args (ofTokens (k.call name args)) where
  joined _ h := ofTokens_joined k name hb he h
  unnamed h := ofTokens_unnamed k name hb he h
  verbatim := by
    constructor
    · intro ho p hp
      by_cases joined : ∃ out, Fuses args out
      · -- What the arguments are joined to has no prefix in it, so it is not what was written.
        obtain ⟨out, h⟩ := joined
        rw [ofTokens_joined k name hb he h, Except.ok.injEq] at ho
        have same := (Token.mem_trim rfl).mpr hp
        rw [← Pseudo.trim_of_sole ho] at same
        exact h.unmarked ((Token.mem_trim rfl).mp same)
      · obtain ⟨_, _, _, _, _, -, -, -, he⟩ :=
          ofTokens_unnamed k name hb he (not_exists.mp joined)
        rw [ho] at he
        cases he
    · exact fun h => ofTokens_joined k name hb he (.self h)

/-- ` (>*|*)b `, with the combinator and the name put together beforehand. -/
def nestedTokens : List Token :=
  [.whitespace, .openParen, .combinator .child, .qualifiedName .any none, .closeParen, .ident "b",
    .whitespace]

theorem call_reads_nested :
    Balanced 0 nestedTokens ∧ (∀ t ∈ nestedTokens, t.isEof = false) ∧
      ofTokens (Pseudo.call .ofElement "F" nestedTokens) =
        .ok ⟨[⟨[], ⟨[.pseudoElement "f" (some [.openParen, .combinator .child,
          .qualifiedName .any none, .closeParen, .ident "b"])]⟩, ⟨0, 0, 1⟩⟩]⟩ := by
  have balanced : Balanced 0 nestedTokens := .plain rfl rfl (.opening rfl (.plain rfl rfl
    (.plain rfl rfl (.closing (.plain rfl rfl (.plain rfl rfl .nil))))))
  have before : ∀ t ∈ nestedTokens, t.isEof = false := by decide
  have lower : Ascii.lower "F" = "f" := by decide +kernel
  have read := (call_reads .ofElement "F" balanced before).verbatim.mpr
    (by simp [nestedTokens])
  rw [Pseudo.sole, Pseudo.simple, lower] at read
  exact ⟨balanced, before, read⟩

theorem call_prefix_alone :
    Balanced 0 [.namespaceMark .any] ∧ (∀ t ∈ [Token.namespaceMark .any], t.isEof = false) ∧
      ofTokens (Pseudo.call .ofClass "f" [.namespaceMark .any]) =
        .error ⟨.missingLocalName, .closeParen, 3⟩ ∧
      ofTokens (Pseudo.call .ofClass "f" [.namespaceMark .any]) ≠
        .ok (Pseudo.sole .ofClass "f" [.namespaceMark .any]) := by
  have composed : Cursor.prepare (Pseudo.call .ofClass "f" [.namespaceMark .any]) =
      .error ⟨.missingLocalName, .closeParen, 3⟩ := rfl
  have read : ofTokens (Pseudo.call .ofClass "f" [.namespaceMark .any]) =
      .error ⟨.missingLocalName, .closeParen, 3⟩ := by
    simp only [ofTokens, composed]
  refine ⟨.plain rfl rfl .nil, by decide, read, ?_⟩
  rw [read]
  nofun

end SelectorList

end CssStyling

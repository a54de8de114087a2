import CssStyling.Proofs.Token.Words

namespace CssStyling.Lexer

open NumberText

variable {α β : Type} {f : List Char → α × List Char} {c quote : Char} {u v cs : List Char}
  {t : Token}

def Keeps (f : List Char → α × List Char) (u : List Char) : Prop :=
  ∃ a v, v <:+ u ∧ ∀ t, f (u ++ ')' :: t) = (a, v ++ ')' :: t)

/-- The reader stops within these characters, or it always takes the parenthesis as well. -/
inductive Settles (f : List Char → α × List Char) (u : List Char) : Prop where
  | keeps (h : Keeps f u) : Settles f u
  | passes (h : ∀ t, (f (u ++ ')' :: t)).2.length ≤ t.length) : Settles f u

theorem Settles.step {g : List Char → β × List Char} (F : β → α) (hv : v <:+ u) (h : Settles g v)
    (hf : ∀ t, f (u ++ ')' :: t) = (F (g (v ++ ')' :: t)).1, (g (v ++ ')' :: t)).2)) :
    Settles f u := by
  cases h with
  | keeps h =>
      obtain ⟨b, w, hw, hg⟩ := h
      exact .keeps ⟨F b, w, hw.trans hv, fun t => by rw [hf, hg]⟩
  | passes h => exact .passes fun t => by rw [hf]; exact h t

theorem startsEscape_stop (t : List Char) :
    startsEscape (u ++ ')' :: t) = startsEscape (u ++ [')']) := by
  match u with
  | [] => rfl
  | [c] =>
      by_cases hc : c = '\\'
      · subst c
        rfl
      · simp [startsEscape, hc]
  | c :: d :: u =>
      by_cases hc : c = '\\'
      · subst c
        rfl
      · simp [startsEscape, hc]

theorem startsIdent_stop (t : List Char) :
    startsIdent (u ++ ')' :: t) = startsIdent (u ++ [')']) := by
  match u with
  | [] => rfl
  | [c] =>
      have he := startsEscape_stop (u := [c]) t
      by_cases hc : c = '-'
      · subst c
        rfl
      · simp_all [startsIdent]
  | c :: d :: u =>
      have he := startsEscape_stop (u := c :: d :: u) t
      have hd := startsEscape_stop (u := d :: u) t
      by_cases hc : c = '-'
      · subst c
        simp_all [startsIdent]
      · simp_all [startsIdent]

theorem startsDigits_stop (t : List Char) :
    startsDigits (u ++ ')' :: t) = startsDigits (u ++ [')']) := by
  match u with
  | [] => rfl
  | [c] =>
      by_cases hc : c = '.'
      · subst c
        rfl
      · simp [startsDigits, hc]
  | c :: d :: u =>
      by_cases hc : c = '.'
      · subst c
        rfl
      · simp [startsDigits, hc]

theorem keeps_sign (u : List Char) :
    ∃ n s v, v <:+ u ∧ ∀ t, sign (u ++ ')' :: t) = (n, s, v ++ ')' :: t) := by
  match u with
  | [] => exact ⟨false, false, [], List.suffix_rfl, fun t => rfl⟩
  | c :: u =>
      by_cases hp : c = '+'
      · subst c
        exact ⟨false, true, u, List.suffix_cons _ u, fun t => rfl⟩
      · by_cases hm : c = '-'
        · subst c
          exact ⟨true, true, u, List.suffix_cons _ u, fun t => rfl⟩
        · exact ⟨false, false, c :: u, List.suffix_rfl, fun t => by simp [sign, hp, hm]⟩

theorem startsNumber_stop (t : List Char) :
    startsNumber (u ++ ')' :: t) = startsNumber (u ++ [')']) := by
  obtain ⟨n, s, v, -, hv⟩ := keeps_sign u
  rw [startsNumber, startsNumber, hv, hv]
  exact startsDigits_stop t

theorem keeps_digits (u : List Char) : Keeps digits u := by
  refine ⟨u.takeWhile Char.isDigit, u.dropWhile Char.isDigit, List.dropWhile_suffix _, fun t => ?_⟩
  induction u with
  | nil => rfl
  | cons c u ih =>
      rw [digits, Prod.mk.injEq] at ih ⊢
      by_cases hc : c.isDigit = true
      · simp [hc, ih]
      · simp [hc]

theorem keeps_fraction (u : List Char) : Keeps fraction u := by
  match u with
  | [] => exact ⟨[], [], List.suffix_rfl, fun t => rfl⟩
  | [c] =>
      by_cases hc : c = '.'
      · subst c
        exact ⟨[], ['.'], List.suffix_rfl, fun t => rfl⟩
      · exact ⟨[], [c], List.suffix_rfl, fun t => by simp [fraction, hc]⟩
  | c :: d :: u =>
      by_cases hc : c = '.'
      · subst c
        by_cases hd : d.isDigit = true
        · obtain ⟨ds, v, hv, h⟩ := keeps_digits (d :: u)
          refine ⟨ds, v, hv.trans (List.suffix_cons _ _), fun t => ?_⟩
          simpa [fraction, hd] using h t
        · exact ⟨[], '.' :: d :: u, List.suffix_rfl, fun t => by simp [fraction, hd]⟩
      · exact ⟨[], c :: d :: u, List.suffix_rfl, fun t => by simp [fraction, hc]⟩

theorem keeps_exponent (u : List Char) : (∀ t, exponent? (u ++ ')' :: t) = none) ∨
    ∃ e v, v <:+ u ∧ ∀ t, exponent? (u ++ ')' :: t) = some (e, v ++ ')' :: t) := by
  match u with
  | [] => exact .inl fun t => rfl
  | c :: u =>
      by_cases hc : exponentMark c = true
      · obtain ⟨negative, s, v, hv, hs⟩ := keeps_sign u
        obtain ⟨ds, w, hw, hd⟩ := keeps_digits v
        cases ds with
        | nil => exact .inl fun t => by simp [exponent?, hc, hs, hd]
        | cons d ds =>
            let n : Int := digitsToNat (d :: ds)
            refine .inr ⟨if negative then -n else n, w,
              (hw.trans hv).trans (List.suffix_cons _ _), fun t => ?_⟩
            simp only [List.cons_append, exponent?, hc, if_true, hs, hd]
            rfl
      · exact .inl fun t => by simp [exponent?, hc]

theorem keeps_number (u : List Char) :
    ∃ x i v, v <:+ u ∧ ∀ t, number (u ++ ')' :: t) = (x, i, v ++ ')' :: t) := by
  obtain ⟨n, s, v, hv, hs⟩ := keeps_sign u
  obtain ⟨ds, w, hw, hd⟩ := keeps_digits v
  obtain ⟨fs, x, hx, hf⟩ := keeps_fraction w
  have hxu := (hx.trans hw).trans hv
  rcases keeps_exponent x with he | ⟨e, y, hy, he⟩
  · exact ⟨_, _, x, hxu, fun t => by simp only [number, hs, hd, hf, he]; rfl⟩
  · exact ⟨_, _, y, hy.trans hxu, fun t => by simp only [number, hs, hd, hf, he]; rfl⟩

theorem hexValue?_close : hexValue? ')' = none := rfl

theorem keeps_hexDigits (limit n : Nat) (u : List Char) : Keeps (hexDigits limit n) u := by
  induction limit generalizing n u with
  | zero => exact ⟨n, u, List.suffix_rfl, fun t => by simp [hexDigits]⟩
  | succ limit ih =>
      cases u with
      | nil => exact ⟨n, [], List.suffix_rfl, fun t => by simp [hexDigits, hexValue?_close]⟩
      | cons c u =>
          cases hc : hexValue? c with
          | none => exact ⟨n, c :: u, List.suffix_rfl, fun t => by simp [hexDigits, hc]⟩
          | some d =>
              obtain ⟨m, v, hv, h⟩ := ih (16 * n + d) u
              refine ⟨m, v, hv.trans (List.suffix_cons c u), fun t => ?_⟩
              rw [List.cons_append, hexDigits, hc]
              exact h t

theorem keeps_dropSpace (u : List Char) :
    ∃ v, v <:+ u ∧ ∀ t, dropSpace (u ++ ')' :: t) = v ++ ')' :: t := by
  cases u with
  | nil => exact ⟨[], List.suffix_rfl, fun t => rfl⟩
  | cons c u =>
      by_cases hc : Ascii.isSpace c = true
      · exact ⟨u, List.suffix_cons c u, fun t => by simp [dropSpace, hc]⟩
      · exact ⟨c :: u, List.suffix_rfl, fun t => by simp [dropSpace, hc]⟩

theorem keeps_escaped (c : Char) (u : List Char) :
    ∃ a v, v <:+ u ∧ ∀ t, escaped (c :: (u ++ ')' :: t)) = (a, v ++ ')' :: t) := by
  cases hc : hexValue? c with
  | none => exact ⟨c, u, List.suffix_rfl, fun t => by simp [escaped, hc]⟩
  | some d =>
      obtain ⟨m, v, hv, h⟩ := keeps_hexDigits 5 d u
      obtain ⟨w, hw, h'⟩ := keeps_dropSpace v
      exact ⟨charOfCode m, w, hw.trans hv, fun t => by simp only [escaped, hc, h, h']⟩

theorem startsEscape_close (t : List Char) : startsEscape (')' :: t) = false := rfl

theorem settles_name (u : List Char) : Settles name u := by
  match u with
  | [] =>
      refine .keeps ⟨[], [], List.suffix_rfl, fun t => ?_⟩
      rw [List.nil_append, name, if_neg (by decide), if_neg (by simp [startsEscape_close])]
  | c :: u =>
      by_cases hc : isNameChar c = true
      · refine (settles_name u).step (c :: ·) (List.suffix_cons c u) fun t => ?_
        rw [List.cons_append, name, if_pos hc]
      · by_cases he : startsEscape (c :: u ++ [')']) = true
        · have step (t : List Char) : name (c :: (u ++ ')' :: t)) =
              ((escaped (u ++ ')' :: t)).1 :: (name (escaped (u ++ ')' :: t)).2).1,
                (name (escaped (u ++ ')' :: t)).2).2) := by
            rw [← startsEscape_stop t, List.cons_append] at he
            rw [name, if_neg hc, if_pos he]
          cases u with
          | nil =>
              refine .passes fun t => ?_
              rw [List.cons_append, step]
              exact name_length_le t
          | cons d u =>
              obtain ⟨a, v, hv, ha⟩ := keeps_escaped d u
              have hle : v.length ≤ u.length := hv.length_le
              have suffix : v <:+ c :: d :: u := hv.trans ⟨[c, d], rfl⟩
              refine (settles_name v).step (a :: ·) suffix fun t => ?_
              rw [List.cons_append, step, List.cons_append, ha]
        · refine .keeps ⟨[], c :: u, List.suffix_rfl, fun t => ?_⟩
          rw [← startsEscape_stop t, List.cons_append] at he
          rw [List.cons_append, name, if_neg hc, if_neg he]
termination_by u.length

theorem settles_stringBody (hq : quote ≠ ')') (hb : quote ≠ '\\') (u : List Char) :
    Settles (stringBody quote) u := by
  match u with
  | [] =>
      refine .passes fun t => ?_
      rw [List.nil_append, stringBody_raw (Ne.symm hq) (by decide) (by decide)]
      exact stringBody_length_le quote t
  | c :: u =>
      by_cases hc : c = quote ∨ c = '\n'
      · refine .keeps ⟨[], u, List.suffix_cons c u, fun t => ?_⟩
        rw [List.cons_append, stringBody.eq_def]
        simp only [hc, if_true]
      · by_cases hd : c = '\\'
        · subst c
          match u with
          | [] =>
              refine .passes fun t => ?_
              rw [List.cons_append, List.nil_append, stringBody_escape hb (by decide)]
              exact stringBody_length_le quote t
          | d :: u =>
              by_cases hn : d = '\n'
              · subst d
                refine (settles_stringBody hq hb u).step id ⟨['\\', '\n'], rfl⟩ fun t => ?_
                exact stringBody_continued hb
              · obtain ⟨a, v, hv, ha⟩ := keeps_escaped d u
                have hle : v.length ≤ u.length := hv.length_le
                have suffix : v <:+ '\\' :: d :: u := hv.trans ⟨['\\', d], rfl⟩
                refine (settles_stringBody hq hb v).step (a :: ·) suffix fun t => ?_
                rw [List.cons_append, List.cons_append, stringBody_escape hb hn, ha]
        · rw [not_or] at hc
          refine (settles_stringBody hq hb u).step (c :: ·) (List.suffix_cons c u) fun t => ?_
          exact stringBody_raw hc.1 hd hc.2
termination_by u.length

theorem afterComment_cons (h : ∀ r, c :: cs ≠ '*' :: '/' :: r) :
    afterComment (c :: cs) = afterComment cs := by
  rw [afterComment.eq_def]
  split
  · rename_i heq
    exact absurd heq (h _)
  · rename_i heq
    rw [(List.cons.inj heq).2]
  · rename_i heq
    cases heq

theorem settles_afterComment (u : List Char) : Settles (fun cs => ((), afterComment cs)) u := by
  match u with
  | [] => exact .passes fun t => afterComment_length_le t
  | [c] =>
      refine .passes fun t => ?_
      simp only [List.cons_append, List.nil_append]
      rw [afterComment_cons (by simp)]
      exact afterComment_length_le t
  | c :: d :: u =>
      by_cases hc : c = '*' ∧ d = '/'
      · obtain ⟨rfl, rfl⟩ := hc
        exact .keeps ⟨(), u, ⟨['*', '/'], rfl⟩, fun t => rfl⟩
      · refine (settles_afterComment (d :: u)).step id (List.suffix_cons c _) fun t => ?_
        simp only [List.cons_append]
        rw [afterComment_cons fun r hr => hc (by simp_all)]

theorem skipComments_comment :
    skipComments ('/' :: '*' :: cs) = skipComments (afterComment cs) := by
  rw [skipComments]

theorem settles_skipComments (u : List Char) : Settles (fun cs => ((), skipComments cs)) u := by
  by_cases hc : ∃ w, u = '/' :: '*' :: w
  · obtain ⟨w, rfl⟩ := hc
    cases settles_afterComment w with
    | keeps h =>
        obtain ⟨_, v, hv, h⟩ := h
        have hlt : v.length < ('/' :: '*' :: w).length := by
          have hle := hv.length_le
          simp only [List.length_cons]
          omega
        have suffix : v <:+ '/' :: '*' :: w := hv.trans ⟨['/', '*'], rfl⟩
        refine (settles_skipComments v).step id suffix fun t => ?_
        simp only [List.cons_append, skipComments_comment]
        rw [(Prod.mk.inj (h t)).2]
    | passes h =>
        refine .passes fun t => ?_
        simp only [List.cons_append, skipComments_comment]
        exact Nat.le_trans (skipComments_length_le _) (h t)
  · refine .keeps ⟨(), u, List.suffix_rfl, fun t => ?_⟩
    have plain : ∀ r, u ++ ')' :: t ≠ '/' :: '*' :: r := by
      intro r hr
      match u with
      | [] => simp at hr
      | [c] => simp at hr
      | c :: d :: w => simp_all
    simp only [skipComments_eq plain]
termination_by u.length

theorem settles_numeric (u : List Char) : Settles numeric u := by
  obtain ⟨x, i, v, hv, h⟩ := keeps_number u
  have ident := startsIdent_stop (u := v)
  by_cases hi : startsIdent (v ++ [')']) = true
  · refine (settles_name v).step (fun unit => .dimension x (String.ofList unit)) hv fun t => ?_
    rw [← ident t] at hi
    simp only [numeric, h, hi, if_true]
  · obtain ⟨_, s, _, -, hs⟩ := keeps_sign u
    by_cases hp : ∃ w, v = '%' :: w
    · obtain ⟨w, rfl⟩ := hp
      refine .keeps ⟨.percentage x, w, (List.suffix_cons _ w).trans hv, fun t => ?_⟩
      rw [← ident t] at hi
      simp only [numeric, h, hi]
      rfl
    · refine .keeps ⟨.number x i s, v, hv, fun t => ?_⟩
      rw [← ident t] at hi
      simp only [numeric, h, hi, hs]
      cases v with
      | nil => rfl
      | cons d w =>
          have hd : d ≠ '%' := by
            rintro rfl
            exact hp ⟨w, rfl⟩
          simp [hd]

theorem settles_identLike (u : List Char) : Settles identLike u := by
  cases settles_name u with
  | keeps h =>
      obtain ⟨letters, v, hv, h⟩ := h
      by_cases hp : ∃ w, v = '(' :: w
      · obtain ⟨w, rfl⟩ := hp
        refine .keeps ⟨.function (String.ofList letters), w, (List.suffix_cons _ w).trans hv, ?_⟩
        intro t
        rw [identLike, h]
        rfl
      · refine .keeps ⟨.ident (String.ofList letters), v, hv, fun t => ?_⟩
        rw [identLike, h]
        cases v with
        | nil => rfl
        | cons d w =>
            have hd : d ≠ '(' := by
              rintro rfl
              exact hp ⟨w, rfl⟩
            simp [hd]
  | passes h =>
      refine .passes fun t => ?_
      have hle := h t
      unfold identLike
      split
      · rename_i letters rest hn
        rw [hn, List.length_cons] at hle
        exact Nat.le_of_succ_le hle
      · rename_i letters rest hn
        rwa [hn] at hle

theorem settles_hash (u : List Char) : Settles hash u := by
  have head (t : List Char) :
      (u ++ ')' :: t).head?.any isNameChar = (u ++ [')']).head?.any isNameChar := by
    cases u <;> rfl
  by_cases hh : ((u ++ [')']).head?.any isNameChar || startsEscape (u ++ [')'])) = true
  · refine (settles_name u).step (fun letters => .hash (String.ofList letters)
      (startsIdent (u ++ [')']))) List.suffix_rfl fun t => ?_
    rw [← head t, ← startsEscape_stop t] at hh
    simp only [hash, hh, if_true, startsIdent_stop t]
  · refine .keeps ⟨.delim '#', u, List.suffix_rfl, fun t => ?_⟩
    rw [← head t, ← startsEscape_stop t] at hh
    simp only [hash, hh]
    rfl

def symbol (c : Char) (cs : List Char) : Token × List Char :=
  (symbol? (c :: cs)).getD (.delim c, cs)

theorem settles_single (h : ∀ cs, symbol? (c :: cs) = some (t, cs)) : Settles (symbol c) u :=
  .keeps ⟨t, u, List.suffix_rfl, fun _ => by rw [symbol, h]; rfl⟩

theorem settles_double (h : ∀ cs, symbol? (c :: '=' :: cs) = some (t, cs))
    (h' : ∀ cs, (∀ r, cs ≠ '=' :: r) → symbol? (c :: cs) = none) : Settles (symbol c) u := by
  by_cases hu : ∃ w, u = '=' :: w
  · obtain ⟨w, rfl⟩ := hu
    refine .keeps ⟨t, w, List.suffix_cons _ w, fun _ => ?_⟩
    rw [symbol, List.cons_append, h]
    rfl
  · refine .keeps ⟨.delim c, u, List.suffix_rfl, fun _ => ?_⟩
    rw [symbol, h']
    · rfl
    · intro r hr
      cases u with
      | nil => simp at hr
      | cons d w => exact hu ⟨w, by simp_all⟩

theorem symbol_none (h : c ∉ [':', ',', '[', ']', '(', ')', '~', '^', '$', '*', '|']) :
    symbol? (c :: cs) = none := by
  unfold symbol?
  split
  case h_13 => rfl
  all_goals
    rename_i heq
    rw [(List.cons.inj heq).1] at h
    exact absurd (by decide) h

theorem settles_bar : Settles (symbol '|') u := by
  match u with
  | [] => exact .keeps ⟨.delim '|', [], List.suffix_rfl, fun _ => rfl⟩
  | d :: w =>
      by_cases he : d = '='
      · subst d
        exact .keeps ⟨.dashMatch, w, List.suffix_cons _ w, fun _ => rfl⟩
      · by_cases hb : d = '|'
        · subst d
          exact .keeps ⟨.column, w, List.suffix_cons _ w, fun _ => rfl⟩
        · refine .keeps ⟨.delim '|', d :: w, List.suffix_rfl, fun _ => ?_⟩
          simp [symbol, symbol?, he, hb]

theorem settles_symbol (c : Char) (u : List Char) : Settles (symbol c) u := by
  by_cases hc : c ∈ [':', ',', '[', ']', '(', ')', '~', '^', '$', '*', '|']
  · simp only [List.mem_cons, List.not_mem_nil, or_false] at hc
    rcases hc with rfl | rfl | rfl | rfl | rfl | rfl | rfl | rfl | rfl | rfl | rfl
    case inr.inr.inr.inr.inr.inr.inr.inr.inr.inr => exact settles_bar
    all_goals
      first
      | exact settles_single fun _ => rfl
      | exact settles_double (fun _ => rfl) fun cs h => by
          unfold symbol?
          split <;> first | rfl | simp_all
  · refine .keeps ⟨.delim c, u, List.suffix_rfl, fun t => ?_⟩
    rw [symbol, symbol_none hc]
    rfl

def first : List Char → Token × List Char
  | [] => (.eof, [])
  | c :: cs => tokenAt c cs

theorem next_eq_first : next cs = first (skipComments cs) := by
  unfold next first
  rfl

theorem length_first_le : (first cs).2.length ≤ cs.length := by
  cases cs with
  | nil => exact Nat.le_refl 0
  | cons c cs => exact Nat.le_succ_of_le (tokenAt_length_le c cs)

theorem dropWhile_space (u t : List Char) : (u ++ ')' :: t).dropWhile Ascii.isSpace =
    u.dropWhile Ascii.isSpace ++ ')' :: t := by
  induction u with
  | nil => rfl
  | cons c u ih =>
      rw [List.cons_append, List.dropWhile_cons, List.dropWhile_cons, ih]
      split <;> rfl

theorem settles_first (u : List Char) : Settles first u := by
  match u with
  | [] => exact .passes fun t => Nat.le_refl _
  | c :: u =>
      have unfolded (t : List Char) : first (c :: u ++ ')' :: t) = tokenAt c (u ++ ')' :: t) := rfl
      have number := startsNumber_stop (u := c :: u)
      have ident := startsIdent_stop (u := c :: u)
      simp only [List.cons_append] at number ident
      by_cases hs : Ascii.isSpace c = true
      · refine .keeps ⟨.whitespace, u.dropWhile Ascii.isSpace,
          (List.dropWhile_suffix _).trans (List.suffix_cons c u), fun t => ?_⟩
        rw [unfolded, tokenAt, if_pos hs, dropWhile_space]
      · by_cases hq : c = '"' ∨ c = '\''
        · have body : Settles (stringBody c) u := by
            rcases hq with rfl | rfl <;> exact settles_stringBody (by decide) (by decide) u
          refine body.step (fun letters => .string (String.ofList letters))
            (List.suffix_cons c u) fun t => ?_
          rw [unfolded, tokenAt, if_neg hs, if_pos hq]
        · by_cases hh : c = '#'
          · refine (settles_hash u).step id (List.suffix_cons c u) fun t => ?_
            rw [unfolded, tokenAt, if_neg hs, if_neg hq, if_pos hh]
            rfl
          · by_cases hn : startsNumber (c :: (u ++ [')'])) = true
            · refine (settles_numeric (c :: u)).step id List.suffix_rfl fun t => ?_
              rw [← number t] at hn
              rw [unfolded, tokenAt, if_neg hs, if_neg hq, if_neg hh, if_pos hn]
              rfl
            · by_cases hi : startsIdent (c :: (u ++ [')'])) = true
              · refine (settles_identLike (c :: u)).step id List.suffix_rfl fun t => ?_
                rw [← number t] at hn
                rw [← ident t] at hi
                rw [unfolded, tokenAt, if_neg hs, if_neg hq, if_neg hh, if_neg hn, if_pos hi]
                rfl
              · refine (settles_symbol c u).step id (List.suffix_cons c u) fun t => ?_
                rw [← number t] at hn
                rw [← ident t] at hi
                rw [unfolded, tokenAt, if_neg hs, if_neg hq, if_neg hh, if_neg hn, if_neg hi,
                  symbol]
                cases symbol? (c :: (u ++ ')' :: t)) <;> rfl

theorem settles_next (u : List Char) : Settles next u := by
  cases settles_skipComments u with
  | keeps h =>
      obtain ⟨_, v, hv, h⟩ := h
      refine (settles_first v).step id hv fun t => ?_
      rw [next_eq_first, (Prod.mk.inj (h t)).2]
      rfl
  | passes h =>
      refine .passes fun t => ?_
      rw [next_eq_first]
      exact Nat.le_trans length_first_le (h t)

end CssStyling.Lexer

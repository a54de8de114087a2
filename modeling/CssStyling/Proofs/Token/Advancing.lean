import CssStyling.Proofs.Token.Words

namespace CssStyling

def Token.name? : Token → Option String
  | .ident name => some name
  | .function name => some name
  | .hash value _ => some value
  | .dimension _ unit => some unit
  | _ => none

theorem Token.name?_of_isSymbol {t : Token} (h : t.isSymbol = true) : t.name? = none := by
  cases t <;> first | rfl | cases h

namespace Lexer

open NumberText

variable {c : Char} {cs rest : List Char} {t : Token} {i j : Nat}

theorem hexDigits_suffix (limit n : Nat) (cs : List Char) : (hexDigits limit n cs).2 <:+ cs := by
  fun_induction hexDigits limit n cs with
  | case1 _ _ c cs _ _ ih => exact ih.trans (List.suffix_cons c cs)
  | case2 => exact List.suffix_rfl
  | case3 => exact List.suffix_rfl

theorem dropSpace_suffix (cs : List Char) : dropSpace cs <:+ cs := by
  cases cs with
  | nil => exact List.suffix_rfl
  | cons c cs =>
      rw [dropSpace]
      split
      · exact List.suffix_cons c cs
      · exact List.suffix_rfl

theorem escaped_suffix (cs : List Char) : (escaped cs).2 <:+ cs := by
  cases cs with
  | nil => exact List.suffix_rfl
  | cons c cs =>
      rw [escaped]
      split
      · rename_i d _
        have digits := (dropSpace_suffix _).trans (hexDigits_suffix 5 d cs)
        exact digits.trans (List.suffix_cons c cs)
      · exact List.suffix_cons c cs

theorem name_suffix (cs : List Char) : (name cs).2 <:+ cs := by
  fun_induction name cs with
  | case1 => exact List.suffix_rfl
  | case2 c cs _ _ _ read ih =>
      rw [read] at ih
      exact ih.trans (List.suffix_cons c cs)
  | case3 c cs _ _ _ _ read ih =>
      rw [read] at ih
      exact (ih.trans (escaped_suffix cs)).trans (List.suffix_cons c cs)
  | case4 => exact List.suffix_rfl

theorem stringBody_suffix (quote : Char) (cs : List Char) : (stringBody quote cs).2 <:+ cs := by
  fun_induction stringBody quote cs with
  | case1 => exact List.suffix_rfl
  | case2 c cs _ => exact List.suffix_cons c cs
  | case3 => exact List.nil_suffix
  | case4 rest _ ih => exact ih.trans ⟨['\\', '\n'], rfl⟩
  | case5 d rest _ _ _ read _ ih =>
      rw [read] at ih
      exact (ih.trans (escaped_suffix _)).trans (List.suffix_cons '\\' _)
  | case6 c cs _ _ _ _ read ih =>
      rw [read] at ih
      exact ih.trans (List.suffix_cons c cs)

theorem sign_suffix (cs : List Char) : (sign cs).2.2 <:+ cs := by
  unfold sign
  split
  · exact List.suffix_cons _ _
  · exact List.suffix_cons _ _
  · exact List.suffix_rfl

theorem digits_suffix (cs : List Char) : (digits cs).2 <:+ cs :=
  List.dropWhile_suffix _

theorem fraction_suffix (cs : List Char) : (fraction cs).2 <:+ cs := by
  unfold fraction
  split
  · split
    · exact (digits_suffix _).trans (List.suffix_cons _ _)
    · exact List.suffix_rfl
  · exact List.suffix_rfl

theorem exponent_suffix {e : Int} (h : exponent? cs = some (e, rest)) : rest <:+ cs := by
  cases cs with
  | nil => cases h
  | cons c cs =>
      have behind := (digits_suffix (sign cs).2.2).trans (sign_suffix cs)
      simp only [exponent?] at h
      split at h
      · split at h
        · cases h
        · rename_i read
          cases h
          rw [read] at behind
          exact behind.trans (List.suffix_cons c cs)
      · cases h

theorem number_suffix (cs : List Char) : (number cs).2.2 <:+ cs := by
  have behind := (fraction_suffix _).trans ((digits_suffix _).trans (sign_suffix cs))
  simp only [number]
  split
  · rename_i read
    exact (exponent_suffix read).trans behind
  · exact behind

theorem numeric_suffix (cs : List Char) : (numeric cs).2 <:+ cs := by
  have behind := number_suffix cs
  rw [numeric]
  dsimp only
  split
  · exact (name_suffix _).trans behind
  · split
    · rename_i percent
      rw [percent] at behind
      exact (List.suffix_cons _ _).trans behind
    · exact behind

theorem identLike_suffix (cs : List Char) : (identLike cs).2 <:+ cs := by
  have behind := name_suffix cs
  unfold identLike
  split
  · rename_i read
    rw [read] at behind
    exact (List.suffix_cons _ _).trans behind
  · rename_i read
    rwa [read] at behind

theorem hash_suffix (cs : List Char) : (hash cs).2 <:+ cs := by
  unfold hash
  split
  · exact name_suffix cs
  · exact List.suffix_rfl

theorem symbol_suffix (h : symbol? cs = some (t, rest)) : rest <:+ cs := by
  unfold symbol? at h
  split at h <;> cases h
  case h_7 | h_8 | h_9 | h_10 | h_11 | h_12 =>
    exact (List.suffix_cons _ _).trans (List.suffix_cons _ _)
  all_goals exact List.suffix_cons _ _

theorem Reads.suffix {found : Token × List Char} (h : Reads c cs found) : found.2 <:+ c :: cs := by
  have behind : cs <:+ c :: cs := List.suffix_cons c cs
  cases h with
  | space => exact (List.dropWhile_suffix _).trans behind
  | string => exact (stringBody_suffix c cs).trans behind
  | hash => exact (hash_suffix cs).trans behind
  | numeric => exact numeric_suffix (c :: cs)
  | identLike => exact identLike_suffix (c :: cs)
  | symbol found => exact symbol_suffix found
  | delim => exact behind

theorem next_suffix (cs : List Char) : (next cs).2 <:+ cs := by
  have behind := skipComments_suffix cs
  rw [next]
  split
  · exact List.nil_suffix
  · rename_i front
    rw [front] at behind
    exact (reads _ _).suffix.trans behind

theorem Kind.isEof (h : Kind c cs t rest) : t.isEof = false := by
  cases h with
  | symbol _ symbol => cases t <;> first | rfl | cases symbol
  | _ => rfl

theorem next_of_end (h : (next cs).1.isEof = true) : next cs = (.eof, []) := by
  rw [next] at h ⊢
  split
  · rfl
  · rename_i front
    rw [front] at h
    dsimp only at h
    rw [(reads _ _).kind.isEof] at h
    cases h

theorem starts_of_startsIdent (h : startsIdent cs = true) :
    (cs.head?.any isNameChar || startsEscape cs) = true := by
  unfold startsIdent at h
  split at h
  · rfl
  · rename_i c cs _
    rcases Bool.or_eq_true_iff.mp h with starts | starts
    · simp [isNameChar, starts]
    · rw [starts, Bool.or_true]
  · cases h

theorem ofList_ne_empty (h : cs ≠ []) : String.ofList cs ≠ "" := by
  intro empty
  exact h (String.ofList_inj.mp (empty.trans String.ofList_nil.symm))

theorem Kind.name_ne_empty {n : String} (h : Kind c cs t rest) (hn : t.name? = some n) :
    n ≠ "" := by
  cases h with
  | symbol _ symbol =>
      rw [Token.name?_of_isSymbol symbol] at hn
      cases hn
  | hash _ starts =>
      cases hn
      exact ofList_ne_empty (name_ne_nil starts)
  | dimension _ unit =>
      cases hn
      exact ofList_ne_empty (name_ne_nil (starts_of_startsIdent unit))
  | function starts =>
      cases hn
      exact ofList_ne_empty (name_ne_nil (starts_of_startsIdent starts))
  | ident starts =>
      cases hn
      exact ofList_ne_empty (name_ne_nil (starts_of_startsIdent starts))
  | _ => cases hn

theorem next_name_ne_empty {n : String} (h : (next cs).1.name? = some n) : n ≠ "" := by
  rw [next] at h
  split at h
  · cases h
  · exact (reads _ _).kind.name_ne_empty h

def remaining : Nat → List Char → List Char
  | 0, cs => cs
  | calls + 1, cs => remaining calls (next cs).2

def call (cs : List Char) (i : Nat) : Token :=
  (next (remaining i cs)).1

def cursor (cs : List Char) (i : Nat) : Nat :=
  cs.length - (remaining i cs).length

theorem remaining_succ (cs : List Char) (i : Nat) :
    remaining (i + 1) cs = (next (remaining i cs)).2 := by
  induction i generalizing cs with
  | zero => rfl
  | succ i ih => exact ih (next cs).2

theorem remaining_suffix (cs : List Char) (i : Nat) : remaining i cs <:+ cs := by
  induction i with
  | zero => exact List.suffix_rfl
  | succ i ih =>
      rw [remaining_succ]
      exact (next_suffix _).trans ih

theorem cursor_le (cs : List Char) (i : Nat) : cursor cs i ≤ cs.length :=
  Nat.sub_le _ _

theorem remaining_eq_drop (cs : List Char) (i : Nat) : remaining i cs = cs.drop (cursor cs i) :=
  List.suffix_iff_eq_drop.mp (remaining_suffix cs i)

theorem cursor_lt_succ (h : (call cs i).isEof = false) : cursor cs i < cursor cs (i + 1) := by
  have less : (remaining (i + 1) cs).length < (remaining i cs).length := by
    rw [remaining_succ]
    exact next_length_lt h
  have most := (remaining_suffix cs i).length_le
  rw [cursor, cursor]
  omega

theorem call_succ_of_end (h : call cs i = .eof) : call cs (i + 1) = .eof := by
  rw [call, remaining_succ, next_of_end (congrArg Token.isEof h), next_nil]

theorem call_of_end (h : call cs i = .eof) (hij : i ≤ j) : call cs j = .eof := by
  induction hij with
  | refl => exact h
  | step _ ih => exact call_succ_of_end ih

theorem length_tokens_le (cs : List Char) : (tokens cs).length ≤ cs.length + 1 := by
  fun_induction tokens cs with
  | case1 => exact Nat.succ_le_succ (Nat.zero_le _)
  | case2 cs more ih =>
      have less := next_length_lt (Bool.eq_false_iff.mpr more)
      rw [List.length_cons]
      omega

theorem call_of_tokens (h : (tokens cs)[i]? = some t) : call cs i = t := by
  fun_induction tokens cs generalizing i with
  | case1 cs finish =>
      cases i with
      | zero =>
          cases h
          exact congrArg Prod.fst (next_of_end finish)
      | succ i => cases h
  | case2 cs _ ih =>
      cases i with
      | zero => exact Option.some.inj h
      | succ i => exact ih h

theorem name_ne_empty_of_mem_tokens {n : String} (h : t ∈ tokens cs) (hn : t.name? = some n) :
    n ≠ "" := by
  obtain ⟨i, found⟩ := List.mem_iff_getElem?.mp h
  rw [← call_of_tokens found] at hn
  exact next_name_ne_empty hn

structure Scan (cs : List Char) (ts : List Token) : Prop where
  inside : ∀ i, cursor cs i ≤ cs.length ∧ remaining i cs = cs.drop (cursor cs i)
  forward : ∀ i, call cs i ≠ .eof → cursor cs i < cursor cs (i + 1)
  ended : ∀ i j, i ≤ j → call cs i = .eof → call cs j = .eof
  calls : ∀ i t, ts[i]? = some t → call cs i = t
  length : ts.length ≤ cs.length + 1
  last : ∃ ws, ts = ws ++ [.eof] ∧ .eof ∉ ws
  plain : ∀ t ∈ ts, t.isComposite = false
  named : ∀ t ∈ ts, ∀ n, t.name? = some n → n ≠ ""

theorem eof_not_mem_words (cs : List Char) : .eof ∉ words cs := by
  intro h
  have before := List.mem_takeWhile_imp h
  cases before

end Lexer

namespace Token

open Lexer

theorem listOfText_scan (text : String) : Scan text.toList (listOfText text) where
  inside i := ⟨cursor_le _ i, remaining_eq_drop _ i⟩
  forward i more := by
    refine cursor_lt_succ (Bool.eq_false_iff.mpr fun finish => more ?_)
    exact congrArg Prod.fst (next_of_end finish)
  ended i j order finish := call_of_end finish order
  calls i t found := call_of_tokens found
  length := length_tokens_le _
  last := ⟨words text.toList, tokens_eq _, eof_not_mem_words _⟩
  plain t := isComposite_of_mem_tokens
  named t h n := name_ne_empty_of_mem_tokens h

end Token

end CssStyling

import CssStyling.Proofs.Token.Words

namespace CssStyling.Lexer

variable {c d quote space : Char} {n limit : Nat} {cs ds rest w : List Char} {vs : List Nat}

structure Hexadecimal (n : Nat) (ds : List Char) : Prop where
  digits : ∃ zeros, ds.map Char.toLower = List.replicate zeros '0' ++ Nat.toDigits 16 n
  length : ds.length ≤ 6

def hexNumber (n : Nat) (vs : List Nat) : Nat :=
  vs.foldl (fun n v => 16 * n + v) n

theorem hexNumber_append {us : List Nat} :
    hexNumber n (us ++ vs) = hexNumber (hexNumber n us) vs :=
  List.foldl_append

theorem hexNumber_zeros {zeros : Nat} : hexNumber 0 (List.replicate zeros 0) = 0 := by
  induction zeros with
  | zero => rfl
  | succ zeros ih => exact ih

theorem hexValue?_digitChar (h : n < 16) : hexValue? (Nat.digitChar n) = some n := by
  interval_cases n <;> rfl

theorem hexValue?_toLower (c : Char) : hexValue? c.toLower = hexValue? c := by
  by_cases h : c.val ≥ 'A'.val ∧ c.val ≤ 'Z'.val
  · have upper : 65 ≤ c.toNat ∧ c.toNat ≤ 90 := by
      simpa [UInt32.le_iff_toNat_le] using h
    obtain ⟨above, below⟩ := upper
    rw [← Char.ofNat_toNat c]
    generalize c.toNat = n at above below
    interval_cases n <;> rfl
  · rw [Char.toLower, dif_neg h]

theorem hexValue?_of_isSpace (h : Ascii.isSpace c = true) : hexValue? c = none := by
  simp only [Ascii.isSpace, Bool.or_eq_true, beq_iff_eq] at h
  rcases h with (((rfl | rfl) | rfl) | rfl) | rfl <;> rfl

theorem exists_values_toDigits (n : Nat) :
    ∃ vs, (Nat.toDigits 16 n).map hexValue? = vs.map some ∧ hexNumber 0 vs = n := by
  induction n using Nat.strong_induction_on with
  | _ n ih =>
      by_cases h : n < 16
      · refine ⟨[n], ?_, ?_⟩
        · rw [Nat.toDigits_of_lt_base h, List.map_singleton, hexValue?_digitChar h]
          rfl
        · exact Nat.zero_add n
      · obtain ⟨vs, values, number⟩ := ih (n / 16) (by omega)
        refine ⟨vs ++ [n % 16], ?_, ?_⟩
        · rw [Nat.toDigits_of_base_le (by decide) (by omega), List.map_append, values,
            List.map_singleton, hexValue?_digitChar (by omega), List.map_append]
          rfl
        · rw [hexNumber_append, number]
          exact Nat.div_add_mod n 16

theorem Hexadecimal.exists_values (h : Hexadecimal n ds) :
    ∃ vs, ds.map hexValue? = vs.map some ∧ hexNumber 0 vs = n := by
  obtain ⟨zeros, digits⟩ := h.digits
  obtain ⟨vs, values, number⟩ := exists_values_toDigits n
  refine ⟨List.replicate zeros 0 ++ vs, ?_, ?_⟩
  · have lowered : ds.map hexValue? = (ds.map Char.toLower).map hexValue? := by
      rw [List.map_map]
      exact List.map_congr_left fun c _ => (hexValue?_toLower c).symm
    rw [lowered, digits, List.map_append, values, List.map_replicate, List.map_append,
      List.map_replicate]
    rfl
  · rw [hexNumber_append, hexNumber_zeros, number]

theorem Hexadecimal.ne_nil (h : Hexadecimal n ds) : ds ≠ [] := by
  rintro rfl
  obtain ⟨zeros, digits⟩ := h.digits
  exact Nat.toDigits_ne_nil (List.append_eq_nil_iff.mp digits.symm).2

theorem hexDigits_append (values : ds.map hexValue? = vs.map some) (few : ds.length ≤ limit)
    (blank : hexValue? space = none) :
    hexDigits limit n (ds ++ space :: rest) = (hexNumber n vs, space :: rest) := by
  induction ds generalizing limit n vs with
  | nil =>
      obtain rfl : vs = [] := List.map_eq_nil_iff.mp values.symm
      cases limit with
      | zero => rfl
      | succ limit => rw [List.nil_append, hexDigits, blank]; rfl
  | cons d ds ih =>
      cases vs with
      | nil => cases values
      | cons v vs =>
          obtain ⟨head, tail⟩ := List.cons.inj values
          cases limit with
          | zero => cases few
          | succ limit =>
              rw [List.cons_append, hexDigits, head]
              exact ih tail (Nat.le_of_succ_le_succ few)

inductive Denotes : Nat → Char → Prop
  | scalar {c : Char} (h : c ≠ '\x00') : Denotes c.toNat c
  | replaced {n : Nat} (h : n = 0 ∨ (0xD800 ≤ n ∧ n ≤ 0xDFFF) ∨ 0x10FFFF < n) :
      Denotes n '\uFFFD'

theorem Denotes.charOfCode (h : Denotes n c) : charOfCode n = c := by
  cases h with
  | scalar h =>
      have code : c.toNat ≠ 0 := fun zero => h (Char.toNat_inj.mp zero)
      have valid : c.toNat.isValidChar := c.valid
      rw [Lexer.charOfCode, if_neg code, if_pos valid, Char.ofNat_toNat]
  | replaced h =>
      rcases h with rfl | h
      · rfl
      · have invalid : ¬n.isValidChar := by
          rintro (low | high)
          · omega
          · omega
        rw [Lexer.charOfCode, if_neg (by omega), if_neg invalid]
        rfl

inductive Escapes : List Char → List Char → Prop
  | nil : Escapes [] []
  | cons {n : Nat} {c space : Char} {ds cs w : List Char} (code : Denotes n c)
      (hex : Hexadecimal n ds) (blank : Ascii.isSpace space = true) (h : Escapes cs w) :
      Escapes (c :: cs) ('\\' :: (ds ++ space :: w))

theorem escaped_append (code : Denotes n c) (hex : Hexadecimal n ds)
    (blank : Ascii.isSpace space = true) : escaped (ds ++ space :: rest) = (c, rest) := by
  obtain ⟨vs, values, number⟩ := hex.exists_values
  cases ds with
  | nil => exact absurd rfl hex.ne_nil
  | cons d ds =>
      cases vs with
      | nil => cases values
      | cons v vs =>
          obtain ⟨head, tail⟩ := List.cons.inj values
          have start : hexNumber v vs = n := by
            rw [← number]
            exact congrArg (hexNumber · vs) (Nat.zero_add v).symm
          have read : hexDigits 5 v (ds ++ space :: rest) = (hexNumber v vs, space :: rest) :=
            hexDigits_append tail (Nat.le_of_succ_le_succ hex.length) (hexValue?_of_isSpace blank)
          rw [List.cons_append, escaped, head]
          dsimp only
          rw [read, start, code.charOfCode, dropSpace, if_pos blank]

theorem Hexadecimal.startsEscape (h : Hexadecimal n ds) :
    startsEscape ('\\' :: (ds ++ rest)) = true := by
  obtain ⟨vs, values, -⟩ := h.exists_values
  cases ds with
  | nil => exact absurd rfl h.ne_nil
  | cons d ds =>
      have digit : d ≠ '\n' := by
        rintro rfl
        cases vs with
        | nil => cases values
        | cons v vs => cases (List.cons.inj values).1
      simpa [Lexer.startsEscape] using digit

namespace Escapes

theorem name_append (h : Escapes cs w) (hr : Stops rest) : name (w ++ rest) = (cs, rest) := by
  induction h with
  | nil => exact name_of_stops hr
  | cons code hex blank _ ih =>
      rw [List.cons_append, List.append_assoc, List.cons_append, name, if_neg (by decide),
        if_pos hex.startsEscape, escaped_append code hex blank, ih]

theorem stringBody_append (h : Escapes cs w) (hq : quote ≠ '\\') :
    stringBody quote (w ++ quote :: rest) = (cs, rest) := by
  induction h with
  | nil => exact stringBody_close
  | @cons n c space ds cs w code hex blank _ ih =>
      have starts : startsEscape ('\\' :: (ds ++ space :: (w ++ quote :: rest))) = true :=
        hex.startsEscape
      have read : escaped (ds ++ space :: (w ++ quote :: rest)) = (c, w ++ quote :: rest) :=
        escaped_append code hex blank
      rw [List.cons_append, List.append_assoc, List.cons_append]
      cases ds with
      | nil => exact absurd rfl hex.ne_nil
      | cons d ds =>
          rw [List.cons_append] at starts read ⊢
          rw [stringBody_escape hq (by simpa [startsEscape] using starts), read, ih]

theorem name_eq (h : Escapes cs w) : name w = (cs, []) := by
  have whole : name (w ++ []) = (cs, []) := h.name_append trivial
  rwa [List.append_nil] at whole

theorem exists_front (h : Escapes cs w) (hne : cs ≠ []) :
    ∃ v, w = '\\' :: v ∧ startsEscape w = true ∧ startsIdent w = true := by
  cases h with
  | nil => exact absurd rfl hne
  | cons _ hex _ _ =>
      refine ⟨_, rfl, hex.startsEscape, ?_⟩
      rw [startsIdent_cons (by decide), hex.startsEscape, Bool.or_true]

theorem next_ident (h : Escapes cs w) (hne : cs ≠ []) :
    next w = (.ident (String.ofList cs), []) := by
  have read := h.name_eq
  obtain ⟨v, rfl, -, ident⟩ := h.exists_front hne
  rw [next_cons (by decide), tokenAt, if_neg (by decide), if_neg (by decide), if_neg (by decide),
    if_neg (by simp [startsNumber, NumberText.sign, startsDigits]), if_pos ident, identLike, read]

theorem next_hash (h : Escapes cs w) (hne : cs ≠ []) :
    next ('#' :: w) = (.hash (String.ofList cs) true, []) := by
  have read := h.name_eq
  obtain ⟨v, rfl, escape, ident⟩ := h.exists_front hne
  have hash : next ('#' :: '\\' :: v) = hash ('\\' :: v) := next_cons (by decide)
  rw [hash, Lexer.hash, escape, Bool.or_true, if_pos rfl, read, ident]

theorem next_string (h : Escapes cs w) (hq : quote = '"' ∨ quote = '\'') :
    next (quote :: (w ++ [quote])) = (.string (String.ofList cs), []) := by
  have body : stringBody quote (w ++ [quote]) = (cs, []) :=
    h.stringBody_append (by rcases hq with rfl | rfl <;> decide)
  have apart : quote ≠ '/' ∧ Ascii.isSpace quote = false := by
    rcases hq with rfl | rfl <;> exact ⟨by decide, rfl⟩
  rw [next_cons apart.1, tokenAt, if_neg (by simp [apart.2]), if_pos hq, body]

end Escapes

end CssStyling.Lexer

namespace CssStyling.Token

open Lexer

theorem listOfText_escapes {cs w : List Char} (h : Escapes cs w) (hne : cs ≠ []) :
    listOfText (String.ofList w) = [.ident (String.ofList cs), .eof] ∧
      listOfText (String.ofList ('#' :: w)) = [.hash (String.ofList cs) true, .eof] ∧
      ∀ quote, quote = '"' ∨ quote = '\'' →
        listOfText (String.ofList (quote :: (w ++ [quote]))) =
          [.string (String.ofList cs), .eof] := by
  simp only [listOfText, String.toList_ofList]
  refine ⟨?_, ?_, fun quote hq => ?_⟩
  · exact tokens_of_next (h.next_ident hne) rfl
  · exact tokens_of_next (h.next_hash hne) rfl
  · exact tokens_of_next (h.next_string hq) rfl

theorem listOfText_escapes_mixed :
    let w := ['\\', '0', '4', 'b', '\n', '\\', 'D', '8', '0', '0', '\t']
    Escapes ['K', '\uFFFD'] w ∧
      listOfText (String.ofList ('"' :: (w ++ ['"']))) =
        [.string (String.ofList ['K', '\uFFFD']), .eof] := by
  intro w
  have letter : Hexadecimal 'K'.toNat ['0', '4', 'b'] := ⟨⟨1, by decide⟩, by decide⟩
  have surrogate : Hexadecimal 0xD800 ['D', '8', '0', '0'] := ⟨⟨0, by decide⟩, by decide⟩
  have last : Escapes ['\uFFFD'] ['\\', 'D', '8', '0', '0', '\t'] :=
    .cons (.replaced (.inr (.inl (by decide)))) surrogate rfl .nil
  have escapes : Escapes ['K', '\uFFFD'] w := .cons (.scalar (by decide)) letter rfl last
  exact ⟨escapes, (listOfText_escapes escapes (by decide)).2.2 '"' (.inl rfl)⟩

theorem listOfText_string (s rest : String) :
    listOfText (Token.string s).text = [.string s, .eof] ∧
      listOfText ((Token.string s).text ++ rest) = .string s :: listOfText rest := by
  have read (z : List Char) : tokens (quotedChars s.toList ++ z) = .string s :: tokens z := by
    rw [tokens_of_front next_quoted rfl, String.ofList_toList]
  have written : (Token.string s).text.toList = quotedChars s.toList := String.toList_ofList
  constructor
  · rw [listOfText, written, ← List.append_nil (quotedChars _), read, tokens_none]
  · rw [listOfText, String.toList_append, written, read, listOfText]

end CssStyling.Token

/-
# Escaped text

A reader of an escaped text goes from left to right and takes an escape as one character and
every other character as itself. Runs of backslashes and quotes are no difficulty for it, since
what is written for a character is always read as a whole, whatever is written behind it. So the
reader finds the characters of the string again, one after the other, and a quote that it meets is
the second character of an escape.

## Main definitions

* `Text.Token` — a part of a text that is read as one character
* `Text.tokens` — the parts of a text
* `Text.decode` — what is read from a text

## Main results

* `Text.written_tokens` — the parts of a text are the whole text
* `Text.tokens_escapeChar` — what is written for a character is read as a whole
* `Text.escapeChar_append_inj` — so it can be told from what follows it
* `Text.decode_escape` — an escaped text is read as the string
* `Text.written_of_quote` — a quote belongs to an escape
-/

import Dhall.Text.Escape
import Mathlib.Tactic.SplitIfs

namespace Dhall

namespace Text

/-! ### The reader -/

/-- The value of a hexadecimal digit, written in either case. -/
def hexDigit? (c : Char) : Option Nat :=
  if '0' ≤ c ∧ c ≤ '9' then some (c.toNat - '0'.toNat)
  else if 'a' ≤ c ∧ c ≤ 'f' then some (c.toNat - 'a'.toNat + 10)
  else if 'A' ≤ c ∧ c ≤ 'F' then some (c.toNat - 'A'.toNat + 10)
  else none

/-- The character with a code that is written in hexadecimal digits. -/
def ofHexDigits? (digits : List Char) : Option Char := do
  let values ← digits.mapM hexDigit?
  let code := values.foldl (fun n d => 16 * n + d) 0
  if code.isValidChar then some (Char.ofNat code) else none

/-- The character that a letter stands for behind a backslash. -/
def ofLetter? : Char → Option Char
  | '\\' => some '\\'
  | '"' => some '"'
  | 'b' => some '\x08'
  | 'f' => some '\x0c'
  | 'n' => some '\n'
  | 'r' => some '\r'
  | 't' => some '\t'
  | _ => none

/-- A part of a text that is read as one character. -/
structure Token where
  /-- The part as it is written. -/
  written : List Char
  /-- The character that is read. -/
  means : Char
  deriving DecidableEq, Repr

/-- A character that is read as itself. -/
def Token.plain (c : Char) : Token := ⟨[c], c⟩

/-- The parts of a text. A backslash is read with what follows it if that makes an escape, and as
itself otherwise. -/
def tokens : List Char → List Token
  | [] => []
  | '\\' :: 'u' :: a :: b :: c :: d :: rest =>
    match ofHexDigits? [a, b, c, d] with
    | some means => ⟨['\\', 'u', a, b, c, d], means⟩ :: tokens rest
    | none => .plain '\\' :: tokens ('u' :: a :: b :: c :: d :: rest)
  | '\\' :: c :: rest =>
    match ofLetter? c with
    | some means => ⟨['\\', c], means⟩ :: tokens rest
    | none => .plain '\\' :: tokens (c :: rest)
  | c :: rest => .plain c :: tokens rest

/-- What is read from a text. -/
def decode (s : String) : String :=
  String.ofList ((tokens s.toList).map Token.means)

/-- The parts of a text, written one after the other, are the text. -/
theorem written_tokens (l : List Char) : (tokens l).flatMap Token.written = l := by
  fun_induction tokens l with
  | case1 => rfl
  | case2 a b c d rest means code ih => rw [List.flatMap_cons, ih]; rfl
  | case3 a b c d rest code ih => rw [List.flatMap_cons, ih]; rfl
  | case4 c rest notCode means letter ih => rw [List.flatMap_cons, ih]; rfl
  | case5 c rest notCode letter ih => rw [List.flatMap_cons, ih]; rfl
  | case6 c rest notEscape notCode ih => rw [List.flatMap_cons, ih]; rfl

/-! ### What is read of what is written -/

theorem tokens_plain {c : Char} (plain : c ≠ '\\') (rest : List Char) :
    tokens (c :: rest) = .plain c :: tokens rest := by
  rw [tokens.eq_4] <;> simp [plain]

theorem tokens_letter {c means : Char} (letter : ofLetter? c = some means) (rest : List Char) :
    tokens ('\\' :: c :: rest) = ⟨['\\', c], means⟩ :: tokens rest := by
  -- No letter that is an escape alone is the one that announces a code.
  have notCode : c ≠ 'u' := by
    rintro rfl
    cases letter
  rw [tokens.eq_3]
  · simp only [letter]
  · rintro a b d e rest' rfl
    exact absurd rfl notCode

theorem tokens_code {a b c d means : Char} (code : ofHexDigits? [a, b, c, d] = some means)
    (rest : List Char) : tokens ('\\' :: 'u' :: a :: b :: c :: d :: rest) =
      ⟨['\\', 'u', a, b, c, d], means⟩ :: tokens rest := by
  rw [tokens.eq_2]
  simp only [code]

/-- The digits below sixteen are read as they are written. -/
theorem hexDigit?_digitChar : ∀ n < 16, hexDigit? n.digitChar = some n := by
  decide

/-- The code of a character is read as it is written. -/
theorem ofHexDigits?_fourHexDigits {c : Char} (small : c.toNat < 0x10000) :
    ofHexDigits? (fourHexDigits c.toNat) = some c := by
  have digit (n : Nat) : hexDigit? (n % 16).digitChar = some (n % 16) :=
    hexDigit?_digitChar _ (Nat.mod_lt _ (by decide))
  have code : 16 * (16 * (16 * (16 * 0 + c.toNat / 4096 % 16) + c.toNat / 256 % 16) +
      c.toNat / 16 % 16) + c.toNat % 16 = c.toNat := by
    omega
  have values : (fourHexDigits c.toNat).mapM hexDigit? =
      some [c.toNat / 4096 % 16, c.toNat / 256 % 16, c.toNat / 16 % 16, c.toNat % 16] := by
    simp [fourHexDigits, digit]
  have valid : c.toNat.isValidChar := c.valid
  rw [ofHexDigits?, values]
  simp only [Option.bind_eq_bind, Option.bind_some, List.foldl_cons, List.foldl_nil, code]
  rw [if_pos valid, Char.ofNat_toNat]

/-- A character is written as a letter behind a backslash, as its code, or as itself. -/
theorem escapeChar_cases (c : Char) :
    (∃ letter, ofLetter? letter = some c ∧ escapeChar c = ['\\', letter]) ∨
    (c.toNat < 0x10000 ∧ escapeChar c = '\\' :: 'u' :: fourHexDigits c.toNat) ∨
    (c ≠ '\\' ∧ c ≠ '"' ∧ c ≠ '$' ∧ 0x1f ≤ c.toNat ∧ escapeChar c = [c]) := by
  unfold escapeChar
  split_ifs with backslash quote backspace feed newline carriage tab code
  · exact Or.inl ⟨'\\', congrArg some backslash.symm, rfl⟩
  · exact Or.inl ⟨'"', congrArg some quote.symm, rfl⟩
  · exact Or.inl ⟨'b', congrArg some backspace.symm, rfl⟩
  · exact Or.inl ⟨'f', congrArg some feed.symm, rfl⟩
  · exact Or.inl ⟨'n', congrArg some newline.symm, rfl⟩
  · exact Or.inl ⟨'r', congrArg some carriage.symm, rfl⟩
  · exact Or.inl ⟨'t', congrArg some tab.symm, rfl⟩
  · refine Or.inr (Or.inl ⟨?_, rfl⟩)
    rcases code with rfl | control
    · decide
    · omega
  · rw [not_or, Nat.not_lt] at code
    exact Or.inr (Or.inr ⟨backslash, quote, code.1, code.2, rfl⟩)

/-- What is written for a character is read as a whole, whatever is written behind it. -/
theorem tokens_escapeChar (c : Char) (rest : List Char) :
    tokens (escapeChar c ++ rest) = ⟨escapeChar c, c⟩ :: tokens rest := by
  rcases escapeChar_cases c with ⟨l, letter, written⟩ | ⟨small, written⟩ |
    ⟨plain, -, -, -, written⟩
  · rw [written]
    exact tokens_letter letter rest
  · rw [written]
    exact tokens_code (ofHexDigits?_fourHexDigits small) rest
  · rw [written]
    exact tokens_plain plain rest

/-- Texts that begin with what is written for a character are equal only if the characters are the
same and are followed by the same text. -/
theorem escapeChar_append_inj {c d : Char} {rest rest' : List Char}
    (equal : escapeChar c ++ rest = escapeChar d ++ rest') : c = d ∧ rest = rest' := by
  have read := congrArg tokens equal
  rw [tokens_escapeChar, tokens_escapeChar] at read
  obtain rfl : c = d := congrArg Token.means (List.cons.inj read).1
  exact ⟨rfl, List.append_cancel_left equal⟩

/-- The parts of an escaped text are what is written for its characters. -/
theorem tokens_escape (s : String) :
    tokens (escape s).toList = s.toList.map fun c => ⟨escapeChar c, c⟩ := by
  have chars (l : List Char) :
      tokens (l.flatMap escapeChar) = l.map fun c => ⟨escapeChar c, c⟩ := by
    induction l with
    | nil => rfl
    | cons c l ih => rw [List.flatMap_cons, tokens_escapeChar, ih, List.map_cons]
  rw [escape, String.toList_ofList, chars]

/-- An escaped text is read as the string that has been escaped. -/
theorem decode_escape (s : String) : decode (escape s) = s := by
  rw [decode, tokens_escape, List.map_map]
  exact (congrArg String.ofList (List.map_id s.toList)).trans String.ofList_toList

/-! ### What is written -/

/-- The letters of escapes are neither dollar signs nor control characters, and a quote is the
letter of no other escape than its own. -/
theorem of_ofLetter?_eq_some {letter c : Char} (h : ofLetter? letter = some c) :
    letter ≠ '$' ∧ 0x1f ≤ letter.toNat ∧ (letter = '"' → c = '"') := by
  unfold ofLetter? at h
  split at h <;> cases h <;> decide

/-- No hexadecimal digit is among the characters that are escaped. -/
theorem of_mem_fourHexDigits {n : Nat} {c : Char} (member : c ∈ fourHexDigits n) :
    c ≠ '$' ∧ 0x1f ≤ c.toNat ∧ c ≠ '"' := by
  have digits : ∀ n < 16, n.digitChar ≠ '$' ∧ 0x1f ≤ n.digitChar.toNat ∧ n.digitChar ≠ '"' := by
    decide
  obtain ⟨m, inside, rfl⟩ := List.mem_map.mp member
  refine digits m ?_
  simp only [List.mem_cons, List.not_mem_nil, or_false] at inside
  omega

/-- No dollar sign and no control character is written, and a quote is written for itself only. -/
theorem of_mem_escapeChar {c d : Char} (member : d ∈ escapeChar c) :
    d ≠ '$' ∧ 0x1f ≤ d.toNat ∧ (d = '"' → c = '"') := by
  rcases escapeChar_cases c with ⟨l, letter, written⟩ | ⟨-, written⟩ |
    ⟨-, -, dollar, large, written⟩
  · rw [written, List.mem_cons, List.mem_singleton] at member
    rcases member with rfl | rfl
    · exact ⟨by decide, by decide, nofun⟩
    · exact of_ofLetter?_eq_some letter
  · rw [written, List.mem_cons, List.mem_cons] at member
    rcases member with rfl | rfl | digit
    · exact ⟨by decide, by decide, nofun⟩
    · exact ⟨by decide, by decide, nofun⟩
    · obtain ⟨dollar, large, quote⟩ := of_mem_fourHexDigits digit
      exact ⟨dollar, large, fun same => absurd same quote⟩
  · rw [written, List.mem_singleton] at member
    subst member
    exact ⟨dollar, large, id⟩

/-- What is written for a character begins neither with a quote nor with a dollar sign. -/
theorem head?_escapeChar (c : Char) (rest : List Char) :
    (escapeChar c ++ rest).head? ≠ some '"' ∧ (escapeChar c ++ rest).head? ≠ some '$' := by
  rcases escapeChar_cases c with ⟨_, -, written⟩ | ⟨-, written⟩ | ⟨-, quote, dollar, -, written⟩
  · simp [written]
  · simp [written]
  · simp [written, quote, dollar]

theorem of_mem_escape {s : String} {c : Char} (member : c ∈ (escape s).toList) :
    c ≠ '$' ∧ 0x1f ≤ c.toNat := by
  rw [escape, String.toList_ofList, List.mem_flatMap] at member
  obtain ⟨_, -, written⟩ := member
  obtain ⟨dollar, large, -⟩ := of_mem_escapeChar written
  exact ⟨dollar, large⟩

/-- A quote in an escaped text belongs to the escape of a quote. -/
theorem written_of_quote {s : String} {token : Token} (member : token ∈ tokens (escape s).toList)
    (quote : '"' ∈ token.written) : token.written = ['\\', '"'] := by
  rw [tokens_escape, List.mem_map] at member
  obtain ⟨c, -, rfl⟩ := member
  obtain rfl : c = '"' := (of_mem_escapeChar quote).2.2 rfl
  rfl

end Text

end Dhall

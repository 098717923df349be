/-
# Where written expressions begin and end

The first characters of a written expression tell which kind of construct it is, or at least
with which kind of construct it begins. What follows an expression tells where the expression
ends: a dot, an argument, an operand, or a type belongs to the expression before it unless the
place of that expression demands parentheses around what they would make of it.

## Main definitions

* `Head`, `Head.ofLetters` — what a text begins with
* `endRank` — the rank of the loosest place at whose end a text can stand
* `Closes` — a text can stand at the end of a place

## Main results

* `Closes.endsName` — names end where places end
-/

import Dhall.Operator
import Dhall.Proofs.Printing.Name

namespace Dhall

/-- What a written expression begins with. -/
inductive Head
  | lam
  | pi
  | letIn
  | assertion
  | ifThenElse
  | emptyList
  | present
  | merge
  | toMap
  | name
  | natural
  | integer
  | text
  | list
  | emptyRecordType
  | emptyRecord
  | fields
  | union
  | parenthesis
  /-- No expression begins like this. -/
  | other
  deriving DecidableEq, Repr

namespace Head

/-- Whether what begins here can stand in every place without parentheses. -/
def isAtom : Head → Bool
  | lam | pi | letIn | assertion | ifThenElse | emptyList | present | merge | toMap | other => false
  | name | natural | integer | text | list | emptyRecordType | emptyRecord | fields | union
  | parenthesis => true

/-- What begins with an unquoted word. -/
def ofWord (word : String) : Head :=
  if word = "let" then letIn
  else if word = "assert" then assertion
  else if word = "if" then ifThenElse
  else if word = "Some" then present
  else if word = "merge" then merge
  else if word = "toMap" then toMap
  else if word ∈ ["in", "then", "else"] then other
  else name

/-- What begins with a character that is neither a letter nor a digit. -/
def ofMark : Char → List Char → Head
  | 'λ', _ => lam
  | '∀', _ => pi
  | '\x60', _ => name
  | '"', _ => text
  | '(', _ => parenthesis
  | '<', _ => union
  | '\x7b', r => match r with
    | '\x7d' :: _ => emptyRecordType
    | '=' :: _ => emptyRecord
    | _ => fields
  | '[', r => if r.head? = some ']' then emptyList else list
  | '+', r | '-', r => if r.head?.any Char.isDigit then integer else other
  | _, _ => other

/-- What a text begins with. -/
def ofLetters : List Char → Head
  | [] => other
  | c :: r =>
    if c.isAlpha || c = '_' then ofWord (String.ofList ((c :: r).takeWhile isNameChar))
    else if c.isDigit then natural
    else ofMark c r

end Head

/-- The operator with which a text begins. -/
def Operator.ofLetters? : List Char → Option Operator
  | '≡' :: _ => some equivalent
  | '?' :: _ => some alternative
  | '|' :: '|' :: _ => some or
  | '+' :: '+' :: _ => some textAppend
  | '+' :: _ => some plus
  | '#' :: _ => some listAppend
  | '&' :: _ => some and
  | '∧' :: _ => some combine
  | '⫽' :: _ => some prefer
  | '⩓' :: _ => some combineTypes
  | '*' :: _ => some times
  | '=' :: '=' :: _ => some equal
  | '!' :: _ => some notEqual
  | _ => none

/-- The rank of the loosest place at whose end a blank and then the text can stand. -/
def blankRank (r : List Char) : Nat :=
  if (Head.ofLetters r).isAtom then 16
  else match Operator.ofLetters? r with
    | some o => 3 + o.rank
    | none => match r with
      | ':' :: _ | '→' :: _ => 1
      | _ => 0

/-- The rank of the loosest place at whose end the text can stand. A name goes on with the text
in every place if the text begins like the rest of a name. -/
def endRank : List Char → Nat
  | [] => 0
  | '.' :: _ => 18
  | ' ' :: r => blankRank r
  | c :: _ => if isNameChar c || c = '@' then 19 else 0

/-- An expression in a place of the rank ends where the text begins. -/
def Closes (rank : Nat) (r : List Char) : Prop :=
  endRank r ≤ rank

variable {k l : Nat} {r : List Char}

theorem Closes.mono (h : Closes k r) (le : k ≤ l) : Closes l r :=
  Nat.le_trans h le

/-- What ends the loosest place ends all places. -/
theorem Closes.of_endRank (h : endRank r = 0) : Closes k r :=
  Nat.le_trans (Nat.le_of_eq h) (Nat.zero_le k)

/-- Where a place ends, a name ends. -/
theorem Closes.endsName (h : Closes k r) (place : k ≤ 18) : EndsName r := by
  intro c first
  cases r with
  | nil => cases first
  | cons d r =>
    cases first
    unfold Closes endRank at h
    split at h
    · contradiction
    · next same => cases same; exact ⟨rfl, by decide⟩
    · next same => cases same; exact ⟨rfl, by decide⟩
    · next same =>
      cases same
      split at h
      · omega
      · next name =>
        simpa using name

end Dhall

/-
# Escapes in text literals

Between its quotes a literal writes a backslash, a quote and a dollar sign as
escapes, and so it writes the control characters up to U+001E. Everything else,
U+001F included, stands for itself.
-/

import Dhall.Text

namespace Dhall.Text

/-- A number below `16 ^ 4` as four hexadecimal digits. -/
def fourHexDigits (n : Nat) : List Char :=
  [n / 4096 % 16, n / 256 % 16, n / 16 % 16, n % 16].map Nat.digitChar

/-- The written form of one character of a literal. -/
def escapeChar (c : Char) : List Char :=
  if c = '\\' then ['\\', '\\']
  else if c = '"' then ['\\', '"']
  else if c = '\x08' then ['\\', 'b']
  else if c = '\x0c' then ['\\', 'f']
  else if c = '\n' then ['\\', 'n']
  else if c = '\r' then ['\\', 'r']
  else if c = '\t' then ['\\', 't']
  else if c = '$' ∨ c.toNat < 0x1f then '\\' :: 'u' :: fourHexDigits c.toNat
  else [c]

/-- The contents of a literal as they stand between its quotes. -/
def escape (s : String) : String :=
  String.ofList (s.toList.flatMap escapeChar)

/-- The written form of a literal whose interpolated values are written already. -/
def render (t : Text String) : String :=
  "\"" ++ String.join (t.pieces.map fun
    | .literal s => escape s
    | .interpolation e => "$\x7b" ++ e ++ "\x7d") ++ "\""

end Dhall.Text

/-
# Written imports

A component of a local path is quoted unless it is made of ASCII letters, digits,
dots, hyphens and underscores. A component of a remote path is written in bytes,
those that cannot stand in a path as a percent sign and two hexadecimal digits.
The name of an environment variable is quoted, with escapes, unless it is made of
ASCII letters, digits and underscores.
-/

import Dhall.Import

namespace Dhall.Import

/-- The anchor as it stands before the first slash of a path. -/
def Anchor.render : Anchor → String
  | .absolute => ""
  | .here => "."
  | .parent => ".."
  | .home => "~"

/-- The written form. -/
def Scheme.render : Scheme → String
  | .http => "http"
  | .https => "https"

/-- A component of a local path; a quoted one has no escapes. -/
def renderFileComponent (component : String) : String :=
  if component.toList.all fun c => c.isAlphanum || c = '.' || c = '-' || c = '_' then component
  else "\"" ++ component ++ "\""

/-- A byte as two hexadecimal digits in lower case. -/
def hexByte (b : UInt8) : List Char :=
  [Nat.digitChar (b.toNat / 16), Nat.digitChar (b.toNat % 16)]

/-- Whether a character stands for itself in a component of a remote path. -/
def isPathChar (c : Char) : Bool :=
  ' ' < c && c < '\x7f' && !"\"#<>?`\x7b\x7d/%".toList.contains c

/-- A character of a component of a remote path. -/
def encodeChar (c : Char) : List Char :=
  if isPathChar c then [c]
  else (String.utf8EncodeChar c).flatMap fun b => '%' :: (hexByte b).map Char.toUpper

/-- A component of a remote path. -/
def renderUrlComponent (component : String) : String :=
  String.ofList (component.toList.flatMap encodeChar)

/-- The written form of a URL; the query is written as it is. -/
def Url.render (u : Url) : String :=
  u.scheme.render ++ "://" ++ u.authority ++ "/" ++
    String.intercalate "/" (u.path.map renderUrlComponent) ++
    (u.query.map ("?" ++ ·)).getD ""

/-- A character of a quoted name of an environment variable. -/
def escapeNameChar (c : Char) : List Char :=
  if c = '"' then ['\\', '"']
  else if c = '\\' then ['\\', '\\']
  else if c = '\x07' then ['\\', 'a']
  else if c = '\x08' then ['\\', 'b']
  else if c = '\x0c' then ['\\', 'f']
  else if c = '\n' then ['\\', 'n']
  else if c = '\r' then ['\\', 'r']
  else if c = '\t' then ['\\', 't']
  else if c = '\x0b' then ['\\', 'v']
  else [c]

/-- The name of an environment variable. -/
def renderName (name : String) : String :=
  if name.toList.all fun c => c.isAlphanum || c = '_' then name
  else "\"" ++ String.ofList (name.toList.flatMap escapeNameChar) ++ "\""

/-- The written form. -/
def Location.render : Location → String
  | .file anchor path =>
    anchor.render ++ "/" ++ String.intercalate "/" (path.map renderFileComponent)
  | .remote url => url.render
  | .environment name => "env:" ++ renderName name
  | .missing => "missing"

/-- What follows the location and the digest. -/
def Mode.render : Mode → String
  | .code => ""
  | .rawText => " as Text"
  | .location => " as Location"

/-- The digest, with a blank before it. -/
def renderDigest (digest : List UInt8) : String :=
  " sha256:" ++ String.ofList (digest.flatMap hexByte)

/-- The written form of an import. -/
def render (i : Import) : String :=
  i.location.render ++ (i.digest.map renderDigest).getD "" ++ i.mode.render

end Dhall.Import

/-
# Imports

An import refers to an expression kept elsewhere: in a local file, at a URL or in
an environment variable. Expressions keep imports as leaves until something
resolves them, and nothing here does: evaluating an import is a violation.
-/

namespace Dhall

/-- Where a local path starts. -/
inductive Import.Anchor
  /-- At the root, `/`. -/
  | absolute
  /-- At the directory of the importing file, `./`. -/
  | here
  /-- At its parent, `../`. -/
  | parent
  /-- At the home directory, `~/`. -/
  | home
  deriving DecidableEq, Inhabited, Repr

/-- The protocol of a URL. -/
inductive Import.Scheme
  | http
  | https
  deriving DecidableEq, Inhabited, Repr

/-- The address of a remote file. -/
structure Import.Url where
  scheme : Import.Scheme
  /-- The host, and whatever else stands before the path. -/
  authority : String
  /-- The components of the path, without slashes between them. -/
  path : List String
  /-- What follows the question mark, if there is one. -/
  query : Option String
  deriving DecidableEq, Inhabited, Repr

/-- Where the imported expression is kept. -/
inductive Import.Location
  /-- A file on this machine, by the components of its path. -/
  | file (anchor : Import.Anchor) (path : List String)
  /-- A file on another machine. -/
  | remote (url : Import.Url)
  /-- An environment variable. -/
  | environment (name : String)
  /-- Nowhere: an import that never resolves. -/
  | missing
  deriving DecidableEq, Inhabited, Repr

/-- What an import stands for. -/
inductive Import.Mode
  /-- The expression that the imported text is. -/
  | code
  /-- The imported text itself. -/
  | rawText
  /-- A description of the location. -/
  | location
  deriving DecidableEq, Inhabited, Repr

/-- A reference to an expression kept elsewhere. -/
structure Import where
  location : Import.Location
  mode : Import.Mode
  /-- The bytes of the digest that the imported expression must have, if one is asked for. -/
  digest : Option (List UInt8)
  deriving DecidableEq, Inhabited, Repr

end Dhall

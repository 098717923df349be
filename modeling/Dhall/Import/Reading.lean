/-
# Imports from paths and URLs

A path is cut at its slashes, and empty components are dropped. What it starts
with decides the anchor: `./`, `../` or `~/`, and anything else is absolute. A
URL is a scheme, an authority, a path and, after the first question mark, a query.
-/

import Dhall.Import

namespace Dhall.Import

/-- The parts of a list of characters between slashes. -/
def splitSlashes : List Char → List (List Char)
  | [] => [[]]
  | '/' :: rest => [] :: splitSlashes rest
  | c :: rest =>
    match splitSlashes rest with
    | part :: parts => (c :: part) :: parts
    | [] => [[c]]

/-- The parts that are not empty, as the components of a path. -/
def components (parts : List (List Char)) : List String :=
  (parts.filter fun part => !part.isEmpty).map String.ofList

/-- An import from an environment variable. -/
def ofEnvironment (name : String) (mode : Mode) : Import :=
  ⟨.environment name, mode, none⟩

/-- The anchor that a path names by its beginning, and the rest of the path. -/
def splitAnchor : List Char → Anchor × List Char
  | '.' :: '/' :: rest => (.here, rest)
  | '.' :: '.' :: '/' :: rest => (.parent, rest)
  | '~' :: '/' :: rest => (.home, rest)
  | path => (.absolute, path)

/-- An import from a local path. -/
def ofPath (path : String) (mode : Mode) : Import :=
  let (anchor, rest) := splitAnchor path.toList
  ⟨.file anchor (components (splitSlashes rest)), mode, none⟩

/-- The scheme that a URL names, and what follows the two slashes after it. -/
def splitScheme? : List Char → Option (Scheme × List Char)
  | 'h' :: 't' :: 't' :: 'p' :: ':' :: '/' :: '/' :: rest => some (.http, rest)
  | 'h' :: 't' :: 't' :: 'p' :: 's' :: ':' :: '/' :: '/' :: rest => some (.https, rest)
  | _ => none

/-- What stands before the first question mark, and the query after it. -/
def splitQuery : List Char → List Char × Option (List Char)
  | [] => ([], none)
  | '?' :: query => ([], some query)
  | c :: rest =>
    let (before, query) := splitQuery rest
    (c :: before, query)

/-- An import from a URL, unless the scheme is unknown or the authority is empty. -/
def ofUrl? (url : String) (mode : Mode) : Option Import := do
  let (scheme, rest) ← splitScheme? url.toList
  let (address, query) := splitQuery rest
  match splitSlashes address with
  | [] | [] :: _ => none
  | authority :: path =>
    some ⟨.remote ⟨scheme, String.ofList authority, components path, query.map String.ofList⟩,
      mode, none⟩

end Dhall.Import

/-
# Written labels and variables

A label is written as it is when it reads as a name: an ASCII letter or an
underscore, followed by ASCII letters, digits, underscores, hyphens and slashes.
Keywords, constants and built-in names mean something else, so labels spelled
like them are quoted, and so are all other labels.
-/

import Dhall.Builtin
import Dhall.Const
import Dhall.Variable

namespace Dhall

namespace Label

/-- The words of the language that are not built-in names. -/
def keywords : List String :=
  ["let", "in", "if", "then", "else", "Type", "Kind", "Sort", "True", "False", "Some", "merge",
    "toMap", "assert", "forall", "using", "as", "missing"]

/-- Whether an unquoted name would be read as something else. -/
def isReserved (l : Label) : Bool :=
  keywords.contains l.name || (Builtin.ofName? l.name).isSome

/-- Whether the name is made of the characters of an unquoted name. -/
def isSimple (l : Label) : Bool :=
  match l.name.toList with
  | [] => false
  | c :: rest =>
    (c.isAlpha || c = '_') && rest.all fun c => c.isAlphanum || c = '_' || c = '-' || c = '/'

/-- The written form, quoted with backticks where needed. -/
def render (l : Label) : String :=
  if l.isSimple && !l.isReserved then l.name else "`" ++ l.name ++ "`"

end Label

/-- The written form of a variable; the index zero is left out. -/
def Variable.render (v : Variable) : String :=
  if v.index = 0 then v.label.render else v.label.render ++ "@" ++ toString v.index

end Dhall

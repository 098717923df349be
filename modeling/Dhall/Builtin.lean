/-
# Built-in names

The types and functions that every expression can use without binding them.
-/

namespace Dhall

/-- A built-in type or function. -/
inductive Builtin
  | bool
  | natural
  | integer
  | double
  | text
  | list
  | optional
  | optionalNone
  | naturalBuild
  | naturalFold
  | naturalIsZero
  | naturalEven
  | naturalOdd
  | naturalToInteger
  | naturalShow
  | naturalSubtract
  | integerToDouble
  | integerShow
  | integerNegate
  | integerClamp
  | doubleShow
  | listBuild
  | listFold
  | listLength
  | listHead
  | listLast
  | listIndexed
  | listReverse
  | optionalFold
  | optionalBuild
  | textShow
  deriving DecidableEq, Inhabited, Repr

namespace Builtin

/-- The written form. -/
def render : Builtin → String
  | bool => "Bool"
  | natural => "Natural"
  | integer => "Integer"
  | double => "Double"
  | text => "Text"
  | list => "List"
  | optional => "Optional"
  | optionalNone => "None"
  | naturalBuild => "Natural/build"
  | naturalFold => "Natural/fold"
  | naturalIsZero => "Natural/isZero"
  | naturalEven => "Natural/even"
  | naturalOdd => "Natural/odd"
  | naturalToInteger => "Natural/toInteger"
  | naturalShow => "Natural/show"
  | naturalSubtract => "Natural/subtract"
  | integerToDouble => "Integer/toDouble"
  | integerShow => "Integer/show"
  | integerNegate => "Integer/negate"
  | integerClamp => "Integer/clamp"
  | doubleShow => "Double/show"
  | listBuild => "List/build"
  | listFold => "List/fold"
  | listLength => "List/length"
  | listHead => "List/head"
  | listLast => "List/last"
  | listIndexed => "List/indexed"
  | listReverse => "List/reverse"
  | optionalFold => "Optional/fold"
  | optionalBuild => "Optional/build"
  | textShow => "Text/show"

/-- Every built-in name. -/
def all : List Builtin :=
  [bool, natural, integer, double, text, list, optional, optionalNone, naturalBuild, naturalFold,
    naturalIsZero, naturalEven, naturalOdd, naturalToInteger, naturalShow, naturalSubtract,
    integerToDouble, integerShow, integerNegate, integerClamp, doubleShow, listBuild, listFold,
    listLength, listHead, listLast, listIndexed, listReverse, optionalFold, optionalBuild,
    textShow]

/-- The built-in with a given written form. -/
def ofName? (name : String) : Option Builtin :=
  all.find? fun b => b.render = name

/-- Reading a written form gives the built-in back. -/
theorem ofName?_render (b : Builtin) : ofName? b.render = some b := by
  cases b <;> decide

end Builtin

end Dhall

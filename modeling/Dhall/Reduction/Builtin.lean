/-
# Built-in functions on normal arguments

A built-in function reduces when it has exactly the arguments it needs and those that
it inspects are literals. The folds run their function on each element in turn. The
builds pass constructors to their argument, except that building from the matching
fold returns what was folded.

## Main definitions

* `Builtin.reduceLiteral` — the functions that only inspect literals
* `Builtin.reduceSubtract`, `Builtin.reduceBuild`, `Builtin.reduceFold` — the others
* `Builtin.reduce` — all of them; `none` when the application is stuck
-/

import Dhall.AlphaNormal
import Dhall.Eval
import Dhall.Expr.View

namespace Dhall

namespace Expr

/-- `λ(x : Natural) → x + 1`, which builds natural numbers together with `0`. -/
def successor : Expr :=
  lam "x" (builtin .natural) (op .plus (var (.nearest "x")) (natural 1))

/-- `λ(a : type) → λ(as : List type) → [a] # as`, which builds lists together with the
empty list. -/
def prepend (type : Expr) : Except Violation Expr := do
  let tailType := listOf (← type.under "a")
  pure (lam "a" type (lam "as" tailType
    (op .listAppend (list [var (.nearest "a")]) (var (.nearest "as")))))

/-- `λ(a : type) → Some a`, which builds optional values together with `None type`. -/
def wrap (type : Expr) : Expr :=
  lam "a" type (present (var (.nearest "a")))

/-- `{ index = i, value = e }` -/
def indexedItem (i : Nat) (e : Expr) : Expr :=
  record (.ofList [("index", natural (UInt64.ofNat i)), ("value", e)])

/-- `{ index : Natural, value : type }` -/
def indexedType (type : Expr) : Expr :=
  recordType (.ofList [("index", builtin .natural), ("value", type)])

end Expr

namespace Builtin

open Dhall.Expr

/-- Functions on natural numbers. -/
def reduceNatural (b : Builtin) (n : UInt64) : Option Expr :=
  match b with
  | .naturalIsZero => some (.bool (n = 0))
  | .naturalEven => some (.bool (n % 2 = 0))
  | .naturalOdd => some (.bool (n % 2 ≠ 0))
  | .naturalToInteger =>
    if n ≤ Int64.maxValue.toUInt64 then some (.integer (Int64.ofNat n.toNat)) else none
  | .naturalShow => some (plainText (toString n))
  | _ => none

/-- Functions on integers. The least integer has no negation, and clamping turns negative
integers into zero. -/
def reduceInteger (b : Builtin) (i : Int64) : Option Expr :=
  match b with
  | .integerShow => some (plainText (renderInteger i))
  | .integerToDouble => some (.double (Double.ofInt i.toInt))
  | .integerNegate => if i = Int64.minValue then none else some (.integer (-i))
  | .integerClamp => some (.natural (UInt64.ofNat i.toInt.toNat))
  | _ => none

/-- Functions on lists; `type` is the type of the items. -/
def reduceList (b : Builtin) (type : Expr) : Expr → Option Expr
  | emptyList listType =>
    match b with
    | .listLength => some (.natural 0)
    | .listHead | .listLast => some (noneOf type)
    | .listReverse => some (emptyList listType)
    | .listIndexed => some (emptyList (listOf (indexedType type)))
    | _ => none
  | .list items =>
    match b with
    | .listLength => some (.natural (UInt64.ofNat items.length))
    | .listHead => some ((items.head?.map present).getD (noneOf type))
    | .listLast => some ((items.getLast?.map present).getD (noneOf type))
    | .listReverse => some (.list items.reverse)
    | .listIndexed => some (.list (items.mapIdx indexedItem))
    | _ => none
  | _ => none

/-- Functions that inspect one literal. Text is shown only without interpolations. -/
def reduceLiteral (b : Builtin) : List Expr → Option Expr
  | [.natural n] => b.reduceNatural n
  | [.integer i] => b.reduceInteger i
  | [.double d] => if b = .doubleShow then some (plainText d.render) else none
  | [.text t] =>
    if b = .textShow then t.plain?.map fun s => plainText ("\"" ++ Text.escape s ++ "\"") else none
  | [type, e] => b.reduceList type e
  | _ => none

/-- `Natural/subtract x y`, the difference `y - x`, or zero if that is negative. -/
def reduceSubtract (x y : Expr) : Except Violation (Option Expr) :=
  match x.natural?, y.natural? with
  | some m, some n => .ok (some (.natural (UInt64.ofNat (n.toNat - m.toNat))))
  | _, _ =>
    if x.natural? = some 0 then .ok (some y)
    else if y.natural? = some 0 then .ok (some (.natural 0))
    else do pure (if ← x.alphaEquivalent y then some (.natural 0) else none)

/-- The builds. `eval` evaluates the application of their argument to constructors. -/
def reduceBuild (eval : Expr → Eval Expr) (b : Builtin) (args : List Expr) :
    Eval (Option Expr) :=
  match b, args with
  -- A build of the matching fold is the value that the fold would take apart.
  | .naturalBuild, [g] =>
    match g.argumentsOf? .naturalFold with
    | some [n] => pure (some n)
    | _ => some <$> eval (g.apply [builtin .natural, successor, Expr.natural 0])
  | .listBuild, [type, g] =>
    match g.argumentsOf? .listFold with
    | some [_, l] => pure (some l)
    | _ => do
      let cons ← prepend type
      some <$> eval (g.apply [listOf type, cons, emptyList (listOf type)])
  | .optionalBuild, [type, g] =>
    match g.argumentsOf? .optionalFold with
    | some [_, o] => pure (some o)
    | _ => some <$> eval (g.apply [optionalOf type, wrap type, noneOf type])
  | _, _ => pure none

/-- The folds. `eval` evaluates each application of their function. -/
def reduceFold (eval : Expr → Eval Expr) (b : Builtin) (args : List Expr) :
    Eval (Option Expr) :=
  match b, args with
  | .naturalFold, [.natural n, _, succ, zero] =>
    some <$> Eval.iterate (fun e => eval (app succ e)) n.toNat zero
  | .listFold, [_, emptyList _, _, _, nil] => pure (some nil)
  | .listFold, [_, .list items, _, cons, nil] =>
    -- The last item is folded first.
    some <$> items.foldrM (fun item e => eval (cons.apply [item, e])) nil
  | .optionalFold, [_, present e, _, some', _] => some <$> eval (app some' e)
  | .optionalFold, [_, o, _, _, none'] =>
    pure (if (o.argumentsOf? .optionalNone).isSome then some none' else none)
  | _, _ => pure none

/-- A built-in function applied to normal arguments; `none` if the application is stuck. -/
def reduce (eval : Expr → Eval Expr) (b : Builtin) (args : List Expr) : Eval (Option Expr) :=
  match b, args with
  | .naturalSubtract, [x, y] => liftM (reduceSubtract x y)
  | .naturalBuild, _ | .listBuild, _ | .optionalBuild, _ => b.reduceBuild eval args
  | .naturalFold, _ | .listFold, _ | .optionalFold, _ => b.reduceFold eval args
  | _, _ => pure (b.reduceLiteral args)

end Builtin

end Dhall

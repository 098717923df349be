/-
# Labels

A label names a variable, a record field or a union alternative. Labels are
ordered by the code points of their names, and records and unions list their
entries in that order.
-/

namespace Dhall

/-- A name. Any text is a label; the written form quotes those that need it. -/
structure Label where
  /-- The text of the name, without quotes. -/
  name : String
  deriving DecidableEq, Inhabited, Repr

namespace Label

instance : Coe String Label := ⟨Label.mk⟩

instance : LT Label := ⟨fun x y => x.name < y.name⟩

instance (x y : Label) : Decidable (x < y) := inferInstanceAs (Decidable (x.name < y.name))

/-- The label of a binder that binds nothing anyone refers to by name. -/
def placeholder : Label := ⟨"_"⟩

theorem lt_trans {x y z : Label} (hxy : x < y) (hyz : y < z) : x < z :=
  String.lt_trans hxy hyz

theorem lt_irrefl (x : Label) : ¬x < x :=
  String.lt_irrefl x.name

/-- Of two different labels one comes first. -/
theorem eq_of_not_lt {x y : Label} (hxy : ¬x < y) (hyx : ¬y < x) : x = y := by
  cases x
  cases y
  exact congrArg mk (String.le_antisymm (String.not_lt.mp hyx) (String.not_lt.mp hxy))

/-- A label that comes after an exclusive lower bound, if there is a bound. -/
abbrev Above : Option Label → Label → Prop
  | none, _ => True
  | some bound, l => bound < l

instance : (bound : Option Label) → (l : Label) → Decidable (Above bound l)
  | none, _ => .isTrue trivial
  | some bound, l => inferInstanceAs (Decidable (bound < l))

/-- Whatever comes after a label that is above a bound is above the bound. -/
theorem Above.trans {bound : Option Label} {x y : Label} (hx : Above bound x) (hxy : x < y) :
    Above bound y := by
  cases bound with
  | none => trivial
  | some b => exact lt_trans hx hxy

end Label

end Dhall

/-
# Maps from labels

A label map is a list of entries whose labels strictly ascend, and the type
says so: each entry carries the proof that its label is above the one before.
Two maps with the same entries are therefore the same value, whatever the order
in which they were built.

`align` walks two maps side by side and keeps, for each label, what either of
them has there. Unions, biased or recursive, are read off an alignment.
-/

import Dhall.Label

namespace Dhall

/-- Entries with strictly ascending labels, all of them above `bound`. -/
inductive Entries (α : Type) : Option Label → Type
  /-- No entries. -/
  | nil {bound : Option Label} : Entries α bound
  /-- One entry, followed by entries with greater labels. -/
  | cons {bound : Option Label} (l : Label) (above : Label.Above bound l) (a : α)
      (rest : Entries α (some l)) : Entries α bound

/-- A finite map from labels. -/
abbrev LabelMap (α : Type) := Entries α none

/-- A finite set of labels. -/
abbrev LabelSet := LabelMap Unit

/-- What two maps have at one label that at least one of them has. -/
inductive Alignment (α β : Type)
  /-- Only the first map has the label. -/
  | left (a : α)
  /-- Only the second map has the label. -/
  | right (b : β)
  /-- Both maps have the label. -/
  | both (a : α) (b : β)

namespace Entries

variable {α β γ : Type} {bound : Option Label}

/-- The entries in ascending order. -/
def toList {bound : Option Label} : Entries α bound → List (Label × α)
  | nil => []
  | cons l _ a rest => (l, a) :: rest.toList

/-- The values by ascending label. -/
def values (m : Entries α bound) : List α :=
  m.toList.map Prod.snd

/-- The labels in ascending order. -/
def labels (m : Entries α bound) : List Label :=
  m.toList.map Prod.fst

/-- How many entries there are. -/
def size {bound : Option Label} : Entries α bound → Nat
  | nil => 0
  | cons _ _ _ rest => rest.size + 1

/-- Whether there are no entries. -/
def isEmpty : Entries α bound → Bool
  | nil => true
  | cons .. => false

/-- The value at a label. -/
def get? {bound : Option Label} (m : Entries α bound) (l : Label) : Option α :=
  match m with
  | nil => none
  | cons k _ a rest => if l = k then some a else rest.get? l

/-- Whether there is a value at a label. -/
def contains (m : Entries α bound) (l : Label) : Bool :=
  (m.get? l).isSome

/-- The same entries with a function applied to each value. -/
def map (f : α → β) {bound : Option Label} : Entries α bound → Entries β bound
  | nil => nil
  | cons l h a rest => cons l h (f a) (rest.map f)

/-- Run an effect at each entry, by ascending label, and keep the results. -/
def traverse {m : Type → Type} [Monad m] (f : Label → α → m β) {bound : Option Label} :
    Entries α bound → m (Entries β bound)
  | nil => pure nil
  | cons l h a rest => do
    let b ← f l a
    let rest ← rest.traverse f
    pure (cons l h b rest)

/-- The same entries under a bound that excludes no more labels. -/
def lower {lowerBound : Option Label} (m : Entries α bound)
    (weaker : ∀ l, Label.Above bound l → Label.Above lowerBound l) : Entries α lowerBound :=
  match m with
  | nil => nil
  | cons l h a rest => cons l (weaker l h) a rest

/-- Keep the entries for which there is a new value. -/
def filterMap (f : Label → α → Option β) {bound : Option Label} :
    Entries α bound → Entries β bound
  | nil => nil
  | cons l h a rest =>
    match f l a with
    | some b => cons l h b (rest.filterMap f)
    | none => (rest.filterMap f).lower fun _ above => h.trans above

/-- Keep the entries with certain labels. -/
def restrict (keep : Label → Bool) (m : Entries α bound) : Entries α bound :=
  m.filterMap fun l a => if keep l then some a else none

/-- Put a value at a label, in the place of any earlier one. -/
def insert (l : Label) (a : α) {bound : Option Label} (above : Label.Above bound l) :
    Entries α bound → Entries α bound
  | nil => cons l above a nil
  | cons k h b rest =>
    if lt : l < k then cons l above a (cons k lt b rest)
    else if gt : k < l then cons k h b (rest.insert l a gt)
    -- The labels are equal, and the new value takes the place of the old one.
    else cons l above a (rest.lower fun _ above' =>
      Label.eq_of_not_lt lt gt ▸ above')

/-- Both maps side by side. -/
def align {bound : Option Label} :
    Entries α bound → Entries β bound → Entries (Alignment α β) bound
  | nil, ys => ys.map .right
  | xs, nil => xs.map .left
  | cons l hl a xs, cons k hk b ys =>
    if lt : l < k then cons l hl (.left a) (xs.align (cons k lt b ys))
    else if gt : k < l then cons k hk (.right b) (align (cons l gt a xs) ys)
    else cons l hl (.both a b) (xs.align (ys.lower fun _ above =>
      Label.eq_of_not_lt lt gt ▸ above))
termination_by xs ys => xs.size + ys.size
decreasing_by all_goals cases ys <;> simp only [size, lower] <;> omega

/-- Equal lists of entries come from equal maps. -/
theorem toList_inj {m n : Entries α bound} : m.toList = n.toList ↔ m = n := by
  refine ⟨fun h => ?_, fun h => h ▸ rfl⟩
  induction m with
  | nil => cases n <;> simp_all [toList]
  | cons l above a rest ih =>
    cases n with
    | nil => simp [toList] at h
    | cons k above' b rest' =>
      simp only [toList, List.cons.injEq, Prod.mk.injEq] at h
      obtain ⟨⟨rfl, rfl⟩, h⟩ := h
      rw [ih h]

instance [DecidableEq α] : DecidableEq (Entries α bound) :=
  fun _ _ => decidable_of_iff _ toList_inj

end Entries

namespace LabelMap

variable {α : Type}

/-- The map without entries. -/
def empty : LabelMap α := .nil

/-- The map with one entry. -/
def singleton (l : Label) (a : α) : LabelMap α := .cons l trivial a .nil

/-- The map with the given entries; of several for one label the last counts. -/
def ofList (entries : List (Label × α)) : LabelMap α :=
  entries.foldl (fun m entry => m.insert entry.1 entry.2 trivial) empty

/-- All entries of both maps; where both have a label, the second map's. -/
def union (xs ys : LabelMap α) : LabelMap α :=
  (xs.align ys).map fun
    | .left a => a
    | .right b => b
    | .both _ b => b

end LabelMap

namespace LabelSet

/-- The set of the given labels. -/
def ofList (ls : List Label) : LabelSet :=
  LabelMap.ofList (ls.map fun l => (l, ()))

/-- The labels that a map has. -/
def ofKeys {α : Type} (m : LabelMap α) : LabelSet :=
  m.map fun _ => ()

end LabelSet

end Dhall

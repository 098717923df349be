/-
# Laws of label maps

A map is determined by its list of entries, and also by what it has at each label.
What each operation does to such a view is one equation.

## Main results

* `Entries.eq_of_labels_values` — labels and values determine a map
* `Entries.ext_get?` — maps with the same value at each label are equal
* `Entries.get?_map`, `Entries.get?_filterMap`, `Entries.get?_insert`,
  `Entries.get?_align`, `LabelMap.get?_union` — the view of each operation
-/

import Dhall.LabelMap

namespace Dhall

/-- What two maps have at a label, side by side. -/
def Alignment.ofOptions {α β : Type} : Option α → Option β → Option (Alignment α β)
  | none, none => none
  | some a, none => some (.left a)
  | none, some b => some (.right b)
  | some a, some b => some (.both a b)

namespace Entries

variable {α β γ : Type} {bound lowerBound : Option Label}

/-! ### The list of entries -/

@[simp] theorem toList_map (f : α → β) (m : Entries α bound) :
    (m.map f).toList = m.toList.map fun (l, a) => (l, f a) := by
  induction m with
  | nil => rfl
  | cons l above a rest ih => simp [map, toList, ih]

@[simp] theorem values_map (f : α → β) (m : Entries α bound) :
    (m.map f).values = m.values.map f := by
  simp [values, Function.comp_def]

@[simp] theorem labels_map (f : α → β) (m : Entries α bound) : (m.map f).labels = m.labels := by
  simp [labels, Function.comp_def]

@[simp] theorem map_map (f : α → β) (g : β → γ) (m : Entries α bound) :
    (m.map f).map g = m.map fun a => g (f a) := by
  induction m with
  | nil => rfl
  | cons l above a rest ih => simp [map, ih]

/-- The labels and the values determine a map. -/
theorem eq_of_labels_values {m n : Entries α bound} (hl : m.labels = n.labels)
    (hv : m.values = n.values) : m = n := by
  refine toList_inj.mp ?_
  have zipped (k : Entries α bound) : k.labels.zip k.values = k.toList := by
    simp [labels, values, List.zip_map']
  rw [← zipped m, ← zipped n, hl, hv]

theorem eq_of_shape {m n : Entries α bound} (hs : m.map (fun _ => ()) = n.map fun _ => ())
    (hv : m.values = n.values) : m = n :=
  eq_of_labels_values (by rw [← labels_map (fun _ => ()) m, hs, labels_map]) hv

/-- Values that may be missing are determined by where they are present. -/
theorem eq_of_optional_shape {m n : Entries (Option α) bound}
    (hs : m.map (Option.map fun _ => ()) = n.map (Option.map fun _ => ()))
    (hv : m.values.flatMap Option.toList = n.values.flatMap Option.toList) : m = n := by
  have compared (os ps : List (Option α))
      (hs : os.map (Option.map fun _ => ()) = ps.map (Option.map fun _ => ()))
      (hv : os.flatMap Option.toList = ps.flatMap Option.toList) : os = ps := by
    induction os generalizing ps with
    | nil => simpa using hs
    | cons o os ih =>
      cases ps with
      | nil => simp at hs
      | cons p ps =>
        simp only [List.map_cons, List.cons.injEq] at hs
        cases o <;> cases p <;> simp at hs hv
        · rw [ih ps hs hv]
        · rw [hv.1, ih ps hs hv.2]
  refine eq_of_labels_values (by rw [← labels_map (Option.map fun _ => ()) m, hs, labels_map]) ?_
  exact compared _ _ (by simpa using congrArg values hs) hv

/-! ### The value at a label -/

@[simp] theorem get?_nil (l : Label) : (nil : Entries α bound).get? l = none := rfl

theorem get?_cons (k : Label) (above : Label.Above bound k) (a : α) (rest : Entries α (some k))
    (l : Label) : (cons k above a rest).get? l = if l = k then some a else rest.get? l := rfl

/-- Labels that are not above the bound have no value. -/
theorem get?_of_not_above {m : Entries α bound} {l : Label} (h : ¬Label.Above bound l) :
    m.get? l = none := by
  induction m with
  | nil => rfl
  | cons k above a rest ih =>
    have ne : l ≠ k := fun eq => h (eq ▸ above)
    rw [get?_cons, if_neg ne, ih fun lt => h (above.trans lt)]

/-- The label of the first entry is not in the rest. -/
theorem get?_self_rest {l : Label} (rest : Entries α (some l)) : rest.get? l = none :=
  get?_of_not_above (Label.lt_irrefl l)

/-- What the rest has, the whole map has. -/
theorem get?_cons_of_rest {k l : Label} {above : Label.Above bound k} {a b : α}
    {rest : Entries α (some k)} (has : rest.get? l = some b) :
    (cons k above a rest).get? l = some b := by
  rw [get?_cons, if_neg, has]
  rintro rfl
  rw [get?_self_rest] at has
  cases has

@[simp] theorem get?_lower (m : Entries α bound)
    (weaker : ∀ l, Label.Above bound l → Label.Above lowerBound l) (l : Label) :
    (m.lower weaker).get? l = m.get? l := by
  cases m <;> rfl

@[simp] theorem get?_map (f : α → β) (m : Entries α bound) (l : Label) :
    (m.map f).get? l = (m.get? l).map f := by
  induction m with
  | nil => rfl
  | cons k above a rest ih => by_cases h : l = k <;> simp [map, get?_cons, h, ih]

@[simp] theorem get?_filterMap (f : Label → α → Option β) (m : Entries α bound) (l : Label) :
    (m.filterMap f).get? l = (m.get? l).bind (f l) := by
  induction m with
  | nil => rfl
  | cons k above a rest ih =>
    by_cases h : l = k
    · subst h
      cases new : f l a <;> simp [filterMap, get?_cons, new, ih, get?_self_rest]
    · cases new : f k a <;> simp [filterMap, get?_cons, new, ih, h]

@[simp] theorem get?_restrict (keep : Label → Bool) (m : Entries α bound) (l : Label) :
    (m.restrict keep).get? l = if keep l then m.get? l else none := by
  cases h : m.get? l <;> simp [restrict, h]

/-- The values are those at some label. -/
theorem mem_values_iff {m : Entries α bound} {a : α} : a ∈ m.values ↔ ∃ l, m.get? l = some a := by
  induction m with
  | nil => simp [values, toList]
  | cons k above b rest ih =>
    have here : a ∈ (cons k above b rest).values ↔ a = b ∨ a ∈ rest.values := List.mem_cons
    rw [here, ih]
    constructor
    · rintro (rfl | ⟨l, value⟩)
      · exact ⟨k, if_pos rfl⟩
      · exact ⟨l, get?_cons_of_rest value⟩
    · rintro ⟨l, value⟩
      rw [get?_cons] at value
      split at value
      · exact Or.inl (Option.some.inj value).symm
      · exact Or.inr ⟨l, value⟩

/-- What holds of all values holds of those that a restriction keeps. -/
theorem forall_values_restrict {P : α → Prop} {m : Entries α bound} {keep : Label → Bool}
    (h : ∀ a ∈ m.values, P a) : ∀ a ∈ (m.restrict keep).values, P a := by
  intro a member
  obtain ⟨l, has⟩ := mem_values_iff.mp member
  rw [get?_restrict] at has
  split at has
  · exact h a (mem_values_iff.mpr ⟨l, has⟩)
  · cases has

theorem get?_insert (l : Label) (a : α) (above : Label.Above bound l) (m : Entries α bound)
    (k : Label) : (m.insert l a above).get? k = if k = l then some a else m.get? k := by
  induction m with
  | nil => rfl
  | cons j above' b rest ih =>
    rw [insert]
    split
    · rfl
    · next notLt =>
      split
      · next gt =>
        have ne : j ≠ l := fun eq => Label.lt_irrefl j (eq ▸ gt)
        rw [get?_cons, get?_cons, ih]
        by_cases h : k = j <;> simp [h, ne]
      · next notGt =>
        have eq := Label.eq_of_not_lt notLt notGt
        subst eq
        by_cases h : k = l <;> simp [get?_cons, h]

/-- Maps that agree at every label are equal. -/
theorem ext_get? {m n : Entries α bound} (h : ∀ l, m.get? l = n.get? l) : m = n := by
  induction m with
  | nil =>
    cases n with
    | nil => rfl
    | cons k above b rest => simpa [get?_cons] using h k
  | cons k above a rest ih =>
    cases n with
    | nil => simpa [get?_cons] using h k
    | cons j above' b rest' =>
      -- The smaller of two first labels would be missing in the other map.
      have same : k = j := by
        refine Label.eq_of_not_lt (fun lt => ?_) fun lt => ?_
        · have none : rest'.get? k = none :=
            get?_of_not_above fun gt => Label.lt_irrefl k (Label.lt_trans lt gt)
          have ne : k ≠ j := fun eq => Label.lt_irrefl j (eq ▸ lt)
          simpa [get?_cons, ne, none] using h k
        · have none : rest.get? j = none :=
            get?_of_not_above fun gt => Label.lt_irrefl j (Label.lt_trans lt gt)
          have ne : j ≠ k := fun eq => Label.lt_irrefl k (eq ▸ lt)
          simpa [get?_cons, ne, none] using h j
      subst same
      have value : a = b := by simpa [get?_cons] using h k
      have rests : rest = rest' := ih fun l => by
        by_cases eq : l = k
        · rw [eq, get?_self_rest, get?_self_rest]
        · simpa [get?_cons, eq] using h l
      rw [value, rests]

/-- Keeping the labels of an empty set leaves no entry. -/
theorem restrict_contains_nil (m : Entries α bound) :
    m.restrict (contains (nil : LabelSet)) = nil := by
  refine ext_get? fun l => ?_
  rw [get?_restrict, if_neg (by simp [contains]), get?_nil]

/-- An alignment has at each label what the two maps have there. -/
theorem get?_align (xs : Entries α bound) (ys : Entries β bound) (l : Label) :
    (xs.align ys).get? l = Alignment.ofOptions (xs.get? l) (ys.get? l) := by
  fun_induction align xs ys with
  | case1 _ ys => cases h : ys.get? l <;> simp [Alignment.ofOptions, h]
  | case2 _ xs _ => cases h : xs.get? l <;> simp [Alignment.ofOptions, h]
  | case3 _ j above a xs k above' b ys lt ih =>
    by_cases eq : l = j
    · subst eq
      -- The first label of one map is below all labels of the other.
      have absent : (cons k lt b ys).get? l = none := get?_self_rest _
      have absent' : (cons k above' b ys).get? l = none := absent
      rw [get?_cons, get?_cons, if_pos rfl, if_pos rfl, absent']
      rfl
    · rw [get?_cons, get?_cons j, if_neg eq, if_neg eq, ih]
      rfl
  | case4 _ j above a xs k above' b ys _ gt ih =>
    by_cases eq : l = k
    · subst eq
      have absent : (cons j gt a xs).get? l = none := get?_self_rest _
      have absent' : (cons j above a xs).get? l = none := absent
      rw [get?_cons, get?_cons l, if_pos rfl, if_pos rfl, absent']
      rfl
    · rw [get?_cons, get?_cons k, if_neg eq, if_neg eq, ih]
      rfl
  | case5 _ j above a xs k above' b ys notLt notGt ih =>
    obtain rfl := Label.eq_of_not_lt notLt notGt
    by_cases eq : l = j
    · rw [get?_cons, get?_cons, get?_cons, if_pos eq, if_pos eq, if_pos eq]
      rfl
    · rw [get?_cons, get?_cons, get?_cons, if_neg eq, if_neg eq, if_neg eq, ih, get?_lower]

end Entries

namespace LabelMap

variable {α : Type}

/-- The values of a map that is built from entries are values of these entries. -/
theorem mem_of_mem_values_ofList {entries : List (Label × α)} {a : α}
    (member : a ∈ (ofList entries).values) : a ∈ entries.map Prod.snd := by
  have inserted (entries : List (Label × α)) (m : LabelMap α)
      (member : a ∈ (entries.foldl (fun m entry => m.insert entry.1 entry.2 trivial) m).values) :
      a ∈ m.values ∨ a ∈ entries.map Prod.snd := by
    induction entries generalizing m with
    | nil => exact Or.inl member
    | cons entry entries ih =>
      rcases ih _ member with there | later
      · obtain ⟨l, has⟩ := Entries.mem_values_iff.mp there
        rw [Entries.get?_insert] at has
        split at has
        · exact Or.inr (Option.some.inj has ▸ .head _)
        · exact Or.inl (Entries.mem_values_iff.mpr ⟨l, has⟩)
      · exact Or.inr (.tail _ later)
  exact (inserted entries empty member).resolve_left nofun

/-- What holds of the values of all entries holds of the values of the map of the entries. -/
theorem forall_values_ofList {P : α → Prop} {entries : List (Label × α)}
    (h : ∀ entry ∈ entries, P entry.2) : ∀ a ∈ (ofList entries).values, P a := by
  intro a member
  obtain ⟨entry, inside, rfl⟩ := List.mem_map.mp (mem_of_mem_values_ofList member)
  exact h entry inside

/-- Where both maps have a value, a union takes the second map's. -/
theorem get?_union (xs ys : LabelMap α) (l : Label) :
    (xs.union ys).get? l = (ys.get? l).or (xs.get? l) := by
  rw [union, Entries.get?_map, Entries.get?_align]
  cases xs.get? l <;> cases ys.get? l <;> rfl

/-- What holds of all values of two maps holds of all values of their union. -/
theorem forall_values_union {P : α → Prop} {xs ys : LabelMap α} (hx : ∀ a ∈ xs.values, P a)
    (hy : ∀ a ∈ ys.values, P a) : ∀ a ∈ (xs.union ys).values, P a := by
  intro a member
  obtain ⟨l, has⟩ := Entries.mem_values_iff.mp member
  rw [get?_union, Option.or_eq_some_iff] at has
  rcases has with there | ⟨_, there⟩
  · exact hy a (Entries.mem_values_iff.mpr ⟨l, there⟩)
  · exact hx a (Entries.mem_values_iff.mpr ⟨l, there⟩)

/-- A map with one entry takes the place of one with the same label. -/
theorem union_singleton (l : Label) (a b : α) :
    (singleton l a).union (singleton l b) = singleton l b := by
  refine Entries.ext_get? fun k => ?_
  rw [get?_union, singleton, singleton, Entries.get?_cons, Entries.get?_cons]
  split <;> rfl

end LabelMap

end Dhall

/-
# Related label maps

Two maps are related when they have the same labels and related values there. Like
equality of maps, this can be seen entry by entry, at each label, or from the labels
and the lists of values, and every operation on maps keeps it.

## Main definitions

* `Entries.Related` — the same labels, with related values

## Main results

* `Entries.related_iff_get?` — related maps have related values at each label
* `Entries.related_iff_values` — related maps have one shape and related lists of values
* `Entries.Related.through`, `Entries.Related.beside`, `Entries.Related.comp` — relations
  between three maps
* `Entries.Related.insert`, `Entries.Related.restrict`, `LabelMap.related_union`,
  `LabelMap.related_ofList` — operations keep relations
-/

import Dhall.LabelMap.Lemmas
import Mathlib.Data.List.Forall2
import Mathlib.Data.Option.Basic

namespace Dhall

variable {α β : Type} {R : α → β → Prop}

/-- What is related to no value is no value. -/
theorem eq_none_of_rel {o : Option β} (h : Option.Rel R none o) : o = none := by
  cases h
  rfl

/-- What is related to a value is a related value. -/
theorem exists_of_rel_some {a : α} {o : Option β} (h : Option.Rel R (some a) o) :
    ∃ b, o = some b ∧ R a b := by
  cases h with
  | some here => exact ⟨_, rfl, here⟩

/-- Of two related options, both have a value or none has. -/
theorem none_iff_of_rel {o : Option α} {o' : Option β} (h : Option.Rel R o o') :
    o = none ↔ o' = none := by
  cases h <;> simp

namespace Entries

/-- Maps with the same labels and with related values at each of them. -/
inductive Related (R : α → β → Prop) :
    {bound : Option Label} → Entries α bound → Entries β bound → Prop
  /-- Maps without entries are related. -/
  | nil {bound : Option Label} : Related R (.nil : Entries α bound) .nil
  /-- A pair of entries joins maps that are related. -/
  | cons {bound : Option Label} {l : Label} {above : Label.Above bound l} {a : α} {b : β}
      {rest : Entries α (some l)} {rest' : Entries β (some l)} (here : R a b)
      (below : Related R rest rest') : Related R (.cons l above a rest) (.cons l above b rest')

variable {bound : Option Label} {m : Entries α bound} {n : Entries β bound}

theorem Related.get? (h : m.Related R n) (l : Label) : Option.Rel R (m.get? l) (n.get? l) := by
  induction h with
  | nil => exact .none
  | @cons _ k _ _ _ _ _ here _ ih =>
    rw [get?_cons, get?_cons]
    by_cases same : l = k
    · rw [if_pos same, if_pos same]
      exact .some here
    · rw [if_neg same, if_neg same]
      exact ih

/-- Maps are related if they have related values at each label. -/
theorem related_iff_get? : m.Related R n ↔ ∀ l, Option.Rel R (m.get? l) (n.get? l) := by
  refine ⟨Related.get?, fun h => ?_⟩
  induction m with
  | nil =>
    cases n with
    | nil => exact .nil
    | cons k above b rest =>
      have absent := (none_iff_of_rel (h k)).mp rfl
      rw [get?_cons, if_pos rfl] at absent
      cases absent
  | cons k above a rest ih =>
    cases n with
    | nil =>
      have absent := (none_iff_of_rel (h k)).mpr rfl
      rw [get?_cons, if_pos rfl] at absent
      cases absent
    | cons j above' b rest' =>
      -- A least label that only one of the maps had would have no counterpart in the other one.
      have same : k = j := by
        refine Label.eq_of_not_lt (fun lt => ?_) fun lt => ?_
        · have absent : (cons j above' b rest').get? k = none := by
            rw [get?_cons, if_neg (by rintro rfl; exact Label.lt_irrefl k lt)]
            exact get?_of_not_above fun gt => Label.lt_irrefl k (Label.lt_trans lt gt)
          have absent' := (none_iff_of_rel (h k)).mpr absent
          rw [get?_cons, if_pos rfl] at absent'
          cases absent'
        · have absent : (cons k above a rest).get? j = none := by
            rw [get?_cons, if_neg (by rintro rfl; exact Label.lt_irrefl j lt)]
            exact get?_of_not_above fun gt => Label.lt_irrefl j (Label.lt_trans lt gt)
          have absent' := (none_iff_of_rel (h j)).mp absent
          rw [get?_cons, if_pos rfl] at absent'
          cases absent'
      subst same
      have here : R a b := by
        have value := h k
        rw [get?_cons, get?_cons, if_pos rfl, if_pos rfl] at value
        exact Option.rel_some_some.mp value
      refine .cons here (ih fun l => ?_)
      by_cases eq : l = k
      · rw [eq, get?_self_rest, get?_self_rest]
        exact .none
      · have value := h l
        rwa [get?_cons, get?_cons, if_neg eq, if_neg eq] at value

/-- Maps are related if they have the same labels and related lists of values. -/
theorem related_iff_values : m.Related R n ↔
    (n.map fun _ => ()) = (m.map fun _ => ()) ∧ List.Forall₂ R m.values n.values := by
  constructor
  · intro h
    induction h with
    | nil => exact ⟨rfl, .nil⟩
    | cons here _ ih =>
      exact ⟨congrArg (cons _ _ ()) ih.1, .cons here ih.2⟩
  · rintro ⟨shapes, values⟩
    induction m with
    | nil =>
      cases n with
      | nil => exact .nil
      | cons k above b rest => cases shapes
    | cons k above a rest ih =>
      cases n with
      | nil => cases shapes
      | cons j above' b rest' =>
        obtain ⟨rfl, rest⟩ := cons.inj shapes
        obtain ⟨here, below⟩ := List.forall₂_cons.mp values
        exact .cons here (ih (eq_of_heq rest.2) below)

section Chains

variable {γ : Type} {S : α → γ → Prop}

/-- Maps that are related through a third value at each label are related through a third
map. -/
theorem Related.through {T : γ → β → Prop} (h : m.Related R n)
    (each : ∀ a ∈ m.values, ∀ b, R a b → ∃ c, S a c ∧ T c b) :
    ∃ k : Entries γ bound, m.Related S k ∧ k.Related T n := by
  induction h with
  | nil => exact ⟨.nil, .nil, .nil⟩
  | cons here _ ih =>
    obtain ⟨first, rest⟩ := List.forall_mem_cons.mp each
    obtain ⟨c, left, right⟩ := first _ here
    obtain ⟨k, lefts, rights⟩ := ih rest
    exact ⟨.cons _ _ c k, .cons left lefts, .cons right rights⟩

/-- Maps that a third one is related to are related if their values are. -/
theorem Related.beside {T : γ → β → Prop} {k : Entries γ bound} (h : m.Related R n)
    (h' : m.Related S k) (each : ∀ a ∈ m.values, ∀ b c, R a b → S a c → T c b) :
    k.Related T n := by
  induction h with
  | nil =>
    cases h'
    exact .nil
  | cons here _ ih =>
    cases h' with
    | cons here' below =>
      obtain ⟨first, rest⟩ := List.forall_mem_cons.mp each
      exact .cons (first _ _ here here') (ih below rest)

/-- Maps that are related one after the other are related if their values are. -/
theorem Related.comp {T : β → γ → Prop} {U : α → γ → Prop} {k : Entries γ bound}
    (h : m.Related R n) (h' : n.Related T k)
    (each : ∀ a ∈ m.values, ∀ b ∈ n.values, ∀ c, R a b → T b c → U a c) : m.Related U k := by
  induction h with
  | nil =>
    cases h'
    exact .nil
  | cons here _ ih =>
    cases h' with
    | cons here' below =>
      refine .cons (each _ (.head _) _ (.head _) _ here here') (ih below ?_)
      exact fun a member b member' => each a (.tail _ member) b (.tail _ member')

end Chains

theorem Related.toList (h : m.Related R n) :
    List.Forall₂ (fun p q => q.1 = p.1 ∧ R p.2 q.2) m.toList n.toList := by
  induction h with
  | nil => exact .nil
  | cons here _ ih => exact .cons ⟨rfl, here⟩ ih

/-- Of two options that hold related maps, both hold the map without entries or none does. -/
theorem nil_iff_of_rel {o : Option (Entries α bound)} {o' : Option (Entries β bound)}
    (h : Option.Rel (Related R) o o') : o = some .nil ↔ o' = some .nil := by
  cases h with
  | none => simp
  | some related => cases related <;> simp

theorem Related.contains_eq (h : m.Related R n) (l : Label) : n.contains l = m.contains l := by
  have here := h.get? l
  unfold contains
  generalize m.get? l = a at here ⊢
  generalize n.get? l = b at here ⊢
  cases here <;> rfl

/-- Keeping the entries with certain labels keeps a relation. -/
theorem Related.restrict (h : m.Related R n) (keep : Label → Bool) :
    (m.restrict keep).Related R (n.restrict keep) := by
  refine related_iff_get?.mpr fun l => ?_
  rw [get?_restrict, get?_restrict]
  split
  · exact h.get? l
  · exact .none

/-- Putting related values at a label keeps a relation. -/
theorem Related.insert (h : m.Related R n) {a : α} {b : β} (here : R a b) (l : Label)
    (above : Label.Above bound l) : (m.insert l a above).Related R (n.insert l b above) := by
  refine related_iff_get?.mpr fun k => ?_
  rw [get?_insert, get?_insert]
  split
  · exact .some here
  · exact h.get? k

end Entries

namespace LabelMap

theorem related_singleton {a : α} {b : β} (here : R a b) (l : Label) :
    (singleton l a).Related R (singleton l b) :=
  .cons here .nil

/-- Unions of related maps are related. -/
theorem related_union {xs ys : LabelMap α} {xs' ys' : LabelMap β} (hx : xs.Related R xs')
    (hy : ys.Related R ys') : (xs.union ys).Related R (xs'.union ys') := by
  refine Entries.related_iff_get?.mpr fun l => ?_
  have left := hx.get? l
  have right := hy.get? l
  rw [get?_union, get?_union]
  generalize xs.get? l = a at left ⊢
  generalize xs'.get? l = a' at left ⊢
  generalize ys.get? l = b at right ⊢
  generalize ys'.get? l = b' at right ⊢
  cases right with
  | none => exact left
  | some here => exact .some here

/-- Lists of entries with the same labels and related values make related maps. -/
theorem related_ofList {entries : List (Label × α)} {entries' : List (Label × β)}
    (h : List.Forall₂ (fun p q => q.1 = p.1 ∧ R p.2 q.2) entries entries') :
    (ofList entries).Related R (ofList entries') := by
  -- The entries are put in from the left, so the statement is about any related maps to begin with.
  have inserted {m : LabelMap α} {n : LabelMap β} (start : m.Related R n) :
      (entries.foldl (fun m entry => m.insert entry.1 entry.2 trivial) m).Related R
        (entries'.foldl (fun n entry => n.insert entry.1 entry.2 trivial) n) := by
    induction h generalizing m n with
    | nil => exact start
    | @cons p q _ _ here _ ih =>
      obtain ⟨k, a⟩ := p
      obtain ⟨k', b⟩ := q
      obtain ⟨rfl, related⟩ := here
      exact ih (start.insert related k' trivial)
  exact inserted .nil

/-- Related maps have the same set of labels. -/
theorem ofKeys_eq_of_related {m : LabelMap α} {n : LabelMap β} (h : m.Related R n) :
    LabelSet.ofKeys n = LabelSet.ofKeys m :=
  (Entries.related_iff_values.mp h).1

end LabelMap

end Dhall

/-
# Traversals of label maps

A traversal of a label map visits the entries by ascending label. When it returns, it has
returned at every entry, and the map that it returns has the results at the same labels. When
it stops, it stops at the least label at which its effect does.

## Main results

* `Entries.traverse_eq_pure_iff` — what a traversal returns, label by label
* `Entries.traverse_eq_error_iff` — where a traversal stops
-/

import Dhall.LabelMap.Related
import Dhall.Proofs.Traversal

namespace Dhall

theorem rel_imp {α β : Type} {R S : α → β → Prop} {o : Option α} {o' : Option β}
    (h : Option.Rel R o o') (weaker : ∀ a b, R a b → S a b) : Option.Rel S o o' := by
  cases h with
  | none => exact .none
  | some here => exact .some (weaker _ _ here)

namespace Entries

variable {α β : Type} {bound : Option Label}

section Returns

variable {m : Type → Type} [Monad m] [LawfulMonad m]

/-- A traversal returns if its effect returns at every entry. -/
theorem exists_traverse_eq_pure {f : Label → α → m β} {xs : Entries α bound}
    (h : ∀ l a, xs.get? l = some a → ∃ b, f l a = pure b) : ∃ ys, xs.traverse f = pure ys := by
  induction xs with
  | nil => exact ⟨.nil, rfl⟩
  | cons k above a rest ih =>
    obtain ⟨b, first⟩ := h k a (if_pos rfl)
    obtain ⟨ys, others⟩ := ih fun l a' has => h l a' (get?_cons_of_rest has)
    refine ⟨.cons k above b ys, ?_⟩
    rw [traverse, first, others, pure_bind, pure_bind]

variable [LawfulReturn m]

/-- A traversal returns the map that has at each label what its effect returns there. -/
theorem traverse_eq_pure_iff {f : Label → α → m β} {xs : Entries α bound} {ys : Entries β bound} :
    xs.traverse f = pure ys ↔
      ∀ l, Option.Rel (fun a b => f l a = pure b) (xs.get? l) (ys.get? l) := by
  induction xs with
  | nil =>
    rw [traverse, LawfulReturn.pure_injective.eq_iff]
    constructor
    · rintro rfl l
      exact .none
    · intro h
      exact ext_get? fun l => (eq_none_of_rel (h l)).symm
  | cons k above a rest ih =>
    rw [traverse, bind_eq_pure_iff]
    constructor
    · rintro ⟨b, here, returned⟩ l
      obtain ⟨rest', below, same⟩ := bind_eq_pure_iff.mp returned
      obtain rfl := LawfulReturn.pure_injective same
      rw [get?_cons, get?_cons]
      by_cases eq : l = k
      · rw [if_pos eq, if_pos eq, eq]
        exact .some here
      · rw [if_neg eq, if_neg eq]
        exact ih.mp below l
    · intro h
      -- The labels agree, so the second map has an entry with the same label in front.
      have labels : (cons k above a rest).Related (fun _ _ => True) ys :=
        related_iff_get?.mpr fun l => rel_imp (h l) fun _ _ _ => .intro
      cases labels with | @cons _ _ _ _ b _ rest' _ _ =>
      have here : f k a = pure b := by
        have value := h k
        rw [get?_cons, get?_cons, if_pos rfl, if_pos rfl] at value
        cases value with
        | some here => exact here
      have below : rest.traverse f = pure rest' := ih.mpr fun l => by
        by_cases eq : l = k
        · rw [eq, get?_self_rest, get?_self_rest]
          exact .none
        · have value := h l
          rwa [get?_cons, get?_cons, if_neg eq, if_neg eq] at value
      exact ⟨b, here, bind_eq_pure_iff.mpr ⟨rest', below, rfl⟩⟩

/-- Every value of the map that a traversal returns was returned at a label. -/
theorem exists_of_mem_values_traverse {f : Label → α → m β} {xs : Entries α bound}
    {ys : Entries β bound} (h : xs.traverse f = pure ys) {b : β} (member : b ∈ ys.values) :
    ∃ l a, xs.get? l = some a ∧ f l a = pure b := by
  obtain ⟨l, image⟩ := mem_values_iff.mp member
  have here := traverse_eq_pure_iff.mp h l
  cases has : xs.get? l with
  | none =>
    rw [has, image] at here
    cases here
  | some a =>
    rw [has, image] at here
    cases here with
    | some returned => exact ⟨l, a, has, returned⟩

/-- A traversal that does not look at labels returns a related map. -/
theorem traverse_eq_pure_iff_related {f : α → m β} {xs : Entries α bound} {ys : Entries β bound} :
    xs.traverse (fun _ => f) = pure ys ↔ xs.Related (fun a b => f a = pure b) ys :=
  traverse_eq_pure_iff.trans related_iff_get?.symm

end Returns

section Stops

variable {ε : Type}

/-- A label that an entry has is above the bound. -/
theorem above_of_get? {m : Entries α bound} {l : Label} {a : α} (has : m.get? l = some a) :
    Label.Above bound l := by
  by_contra below
  rw [get?_of_not_above below] at has
  cases has

/-- A traversal stops where its effect stops first, by ascending label. -/
theorem traverse_eq_error_iff {f : Label → α → Except ε β} {xs : Entries α bound} {v : ε} :
    xs.traverse f = .error v ↔
      ∃ l a, xs.get? l = some a ∧ f l a = .error v ∧
        ∀ k b, xs.get? k = some b → k < l → ∃ c, f k b = .ok c := by
  induction xs with
  | nil =>
    constructor
    · rintro ⟨⟩
    · rintro ⟨l, a, ⟨⟩, -, -⟩
  | cons k above a rest ih =>
    -- The first entry decides if the effect stops there. Otherwise the rest does, and the first
    -- entry has to be counted as an earlier one that returned.
    cases here : f k a with
    | error w =>
      rw [traverse, here]
      constructor
      · intro same
        cases same
        refine ⟨k, a, if_pos rfl, here, fun j b has before => ?_⟩
        rw [get?_cons] at has
        split at has
        · next same =>
          rw [same] at before
          exact (Label.lt_irrefl k before).elim
        · exact (Label.lt_irrefl k (Label.lt_trans (above_of_get? has) before)).elim
      · rintro ⟨l, b, has, stops, earlier⟩
        rw [get?_cons] at has
        split at has
        · next same =>
          cases has
          rw [same, here] at stops
          cases stops
          rfl
        · obtain ⟨c, returns⟩ := earlier k a (if_pos rfl) (above_of_get? has)
          cases here.symm.trans returns
    | ok b =>
      rw [traverse, here]
      have stop : (do let rest ← rest.traverse f; pure (cons k above b rest)) = .error v ↔
          rest.traverse f = .error v := by
        cases rest.traverse f with
        | error w => exact ⟨fun same => by cases same; rfl, fun same => by cases same; rfl⟩
        | ok rest' => exact ⟨by rintro ⟨⟩, by rintro ⟨⟩⟩
      refine stop.trans (ih.trans ?_)
      constructor
      · rintro ⟨l, a', has, stops, earlier⟩
        refine ⟨l, a', get?_cons_of_rest has, stops, fun j b' has' before => ?_⟩
        rw [get?_cons] at has'
        split at has'
        · next same =>
          cases has'
          exact ⟨b, same ▸ here⟩
        · exact earlier j b' has' before
      · rintro ⟨l, a', has, stops, earlier⟩
        rw [get?_cons] at has
        split at has
        · next same =>
          cases has
          rw [same, here] at stops
          cases stops
        · exact ⟨l, a', has, stops, fun j b' has' => earlier j b' (get?_cons_of_rest has')⟩

end Stops

end Entries

/-- A map with one entry has nothing else. -/
theorem LabelMap.get?_singleton_eq_some {α : Type} {k l : Label} {a b : α} :
    (singleton l a).get? k = some b ↔ l = k ∧ a = b := by
  rw [singleton, Entries.get?_cons]
  split
  · next same => simp [same]
  · next other => simp [Ne.symm other]

end Dhall

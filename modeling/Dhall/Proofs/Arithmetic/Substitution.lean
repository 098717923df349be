/-
# Substitution in first-order arithmetic

Every change that evaluation makes to the variables of a term is a replacement: a function
says what takes the place of `x@i`, seen from under the binders passed so far. What a
replacement does to scopes, values and binders is proved once, for any such function. Moving a
term under binders and putting a term or a truth value in the place of a name are replacements.

## Main definitions

* `Arithmetic.replace` — replace the variables of a term
* `Arithmetic.moved`, `Arithmetic.inst`, `Arithmetic.fix` — a term seen from under binders, a
  term for the nearest name, a truth value for `b`

## Main results

* `Arithmetic.value_replace`, `Arithmetic.bounded_replace` — replacements that keep values
* `Arithmetic.scoped_replace`, `Arithmetic.binders_replace` — replacements that keep scopes and
  binders
* `Arithmetic.value_moved`, `Arithmetic.value_inst`, `Arithmetic.value_fix` — the value of a term
  under binders, and with a name or the truth value replaced
-/

import Dhall.Proofs.Arithmetic
import Dhall.Proofs.Variable
import Mathlib.Data.List.GetD

namespace Dhall

namespace Arithmetic

variable {s : Scalar} {b c : Bool} {x y : Label} {i : Nat} {Γ Γ' bound : List Label}

/-! ### Looking up numbers -/

namespace Scope

variable (inner outer : Scope)

@[simp] theorem labels_nil : labels [] = [] := rfl

@[simp] theorem labels_cons (x : Label) (v : Nat) : labels ((x, v) :: outer) = x :: outer.labels :=
  rfl

@[simp] theorem labels_append : labels (inner ++ outer) = inner.labels ++ outer.labels :=
  List.map_append

/-- The values of a name are as many as it has binders. -/
theorem length_values (x : Label) :
    ((inner.filter fun entry => entry.1 = x).map Prod.snd).length = inner.labels.count x := by
  rw [List.length_map, labels, List.count, List.countP_map, List.countP_eq_length_filter]
  rfl

/-- A lookup passes the binders of the name that it skips. -/
theorem lookup_append (x : Label) (i : Nat) :
    lookup (inner ++ outer) x i =
      if i < inner.labels.count x then inner.lookup x i
      else outer.lookup x (i - inner.labels.count x) := by
  unfold lookup
  rw [List.filter_append, List.map_append]
  split
  · next inside => exact List.getD_append _ _ _ _ (by rwa [length_values])
  · next outside =>
    rw [List.getD_append_right _ _ _ _ (by rw [length_values]; omega), length_values]

theorem lookup_cons (x y : Label) (v i : Nat) :
    lookup ((y, v) :: outer) x i =
      if y = x then if i = 0 then v else outer.lookup x (i - 1) else outer.lookup x i := by
  unfold lookup
  by_cases same : y = x
  · cases i <;> simp [same]
  · simp [same]

end Scope

/-! ### Replacing variables -/

/-- Replace the variables of a term. The first function is given the labels of the binders
passed so far, the innermost first, and a variable `x@i`; the truth value `b` is replaced by
the term. -/
def replace : {s : Scalar} → Arithmetic s → (List Label → Label → Nat → Arithmetic .natural) →
    Arithmetic .boolean → List Label → Arithmetic s
  | _, number n, _, _, _ => number n
  | _, var x i, f, _, bound => f bound x i
  | _, calculate o l r, f, g, bound => calculate o (l.replace f g bound) (r.replace f g bound)
  | _, choose condition yes no, f, g, bound =>
    choose (condition.replace f g bound) (yes.replace f g bound) (no.replace f g bound)
  | _, define x e body, f, g, bound =>
    define x (e.replace f g bound) (body.replace f g (x :: bound))
  | _, apply x body e, f, g, bound =>
    apply x (body.replace f g (x :: bound)) (e.replace f g bound)
  | _, iterate times x step e, f, g, bound => iterate times x step (e.replace f g bound)
  | _, select first l r, f, g, bound => select first (l.replace f g bound) (r.replace f g bound)
  | _, truth c, _, _, _ => truth c
  | _, flag, _, g, _ => g
  | _, connect o l r, f, g, bound => connect o (l.replace f g bound) (r.replace f g bound)
  | _, test t e, f, g, bound => test t (e.replace f g bound)

/-- A term seen from under binders. -/
def moved (e : Arithmetic s) (binders : List Label) : Arithmetic s :=
  e.replace (movedVar binders) flag []
where
  /-- What takes the place of a variable. -/
  movedVar (binders bound : List Label) (x : Label) (i : Nat) : Arithmetic .natural :=
    var x (if i < bound.count x then i else i + binders.count x)

/-- A term in the place of the variable that the nearest binder of `x` binds, and without that
binder. -/
def inst (e : Arithmetic s) (x : Label) (w : Arithmetic .natural) : Arithmetic s :=
  e.replace (instVar x w) flag []
where
  /-- What takes the place of a variable. -/
  instVar (x : Label) (w : Arithmetic .natural) (bound : List Label) (y : Label) (i : Nat) :
      Arithmetic .natural :=
    if y = x ∧ bound.count x ≤ i then
      if i = bound.count x then w.moved bound else var x (i - 1)
    else var y i

/-- A truth value in the place of `b`. -/
def fix (e : Arithmetic s) (c : Bool) : Arithmetic s :=
  e.replace (fun _ => var) (truth c) []

section Replace

variable {f : List Label → Label → Nat → Arithmetic .natural} {g : Arithmetic .boolean}
  {outer outer' : Scope}

theorem replace_self (e : Arithmetic s) : e.replace (fun _ => var) flag bound = e := by
  induction e generalizing bound <;> simp_all [replace]

/-- A replacement that keeps the value of each variable keeps the value of each term. -/
theorem value_replace
    (vars : ∀ (inner : Scope) x i, i < (inner.labels ++ outer.labels).count x →
      (f inner.labels x i).value b (inner ++ outer') = Scope.lookup (inner ++ outer) x i)
    (flags : ∀ scope, g.value b scope = c) (e : Arithmetic s) (inner : Scope)
    (inScope : e.Scoped (inner.labels ++ outer.labels)) :
    (e.replace f g inner.labels).value b (inner ++ outer') = e.value c (inner ++ outer) := by
  induction e generalizing inner with
  | number n => rfl
  | truth d => rfl
  | var x i => exact vars inner x i inScope
  | flag => exact flags _
  | calculate o l r hl hr | connect o l r hl hr =>
    simp only [replace, value, hl inner inScope.1, hr inner inScope.2]
  | choose condition yes no hc hy hn =>
    simp only [replace, value, hc inner inScope.1, hy inner inScope.2.1, hn inner inScope.2.2]
  | define x e body he hb =>
    rw [replace, value, value, he inner inScope.1]
    exact hb ((x, e.value c (inner ++ outer)) :: inner) inScope.2
  | apply x body e hb he =>
    rw [replace, value, value, he inner inScope.1]
    exact hb ((x, e.value c (inner ++ outer)) :: inner) inScope.2
  | iterate times x step e he => simp only [replace, value, he inner inScope]
  | select first l r hl hr => simp only [replace, value, hl inner inScope.1, hr inner inScope.2]
  | test t e he => simp only [replace, value, he inner inScope]

/-- If what takes the place of variables is bounded, a bounded term stays bounded. -/
theorem bounded_replace
    (vars : ∀ (inner : Scope) x i, i < (inner.labels ++ outer.labels).count x →
      (f inner.labels x i).value b (inner ++ outer') = Scope.lookup (inner ++ outer) x i)
    (flags : ∀ scope, g.value b scope = c)
    (boundedVars : ∀ (inner : Scope) x i, i < (inner.labels ++ outer.labels).count x →
      (f inner.labels x i).Bounded b (inner ++ outer'))
    (boundedFlags : ∀ scope, g.Bounded b scope) (e : Arithmetic s) (inner : Scope)
    (inScope : e.Scoped (inner.labels ++ outer.labels)) (h : e.Bounded c (inner ++ outer)) :
    (e.replace f g inner.labels).Bounded b (inner ++ outer') := by
  -- Which parts are evaluated depends on the values of others, and replacing keeps these.
  have same {s : Scalar} (e : Arithmetic s) (inner : Scope) :=
    value_replace vars flags e inner
  induction e generalizing inner with
  | number n => trivial
  | truth d => trivial
  | var x i => exact boundedVars inner x i inScope
  | flag => exact boundedFlags _
  | calculate o l r hl hr =>
    refine ⟨hl inner inScope.1 h.1, hr inner inScope.2 h.2.1, ?_⟩
    rw [same l inner inScope.1, same r inner inScope.2]
    exact h.2.2
  | connect o l r hl hr =>
    refine ⟨hl inner inScope.1 h.1, fun undecided => hr inner inScope.2 (h.2 ?_)⟩
    rwa [same l inner inScope.1] at undecided
  | choose condition yes no hc hy hn =>
    refine ⟨hc inner inScope.1 h.1, ?_⟩
    have taken := h.2
    rw [same condition inner inScope.1]
    split at taken
    · next holds => rw [if_pos holds]; exact hy inner inScope.2.1 taken
    · next fails => rw [if_neg fails]; exact hn inner inScope.2.2 taken
  | define x e body he hb =>
    refine ⟨he inner inScope.1 h.1, ?_⟩
    rw [same e inner inScope.1]
    exact hb ((x, e.value c (inner ++ outer)) :: inner) inScope.2 h.2
  | apply x body e hb he =>
    refine ⟨he inner inScope.1 h.1, ?_⟩
    rw [same e inner inScope.1]
    exact hb ((x, e.value c (inner ++ outer)) :: inner) inScope.2 h.2
  | iterate times x step e he =>
    refine ⟨he inner inScope h.1, ?_⟩
    rw [same e inner inScope]
    exact h.2
  | select first l r hl hr =>
    cases first with
    | true => exact hl inner inScope.1 h
    | false => exact hr inner inScope.2 h
  | test t e he => exact he inner inScope h

theorem scoped_replace
    (vars : ∀ bound x i, i < (bound ++ Γ).count x → (f bound x i).Scoped (bound ++ Γ'))
    (flags : ∀ labels, g.Scoped labels) (e : Arithmetic s) (bound : List Label)
    (inScope : e.Scoped (bound ++ Γ)) : (e.replace f g bound).Scoped (bound ++ Γ') := by
  induction e generalizing bound with
  | number n => trivial
  | truth d => trivial
  | var x i => exact vars bound x i inScope
  | flag => exact flags _
  | calculate o l r hl hr | connect o l r hl hr | select o l r hl hr =>
    exact ⟨hl bound inScope.1, hr bound inScope.2⟩
  | choose condition yes no hc hy hn =>
    exact ⟨hc bound inScope.1, hy bound inScope.2.1, hn bound inScope.2.2⟩
  | define x e body he hb => exact ⟨he bound inScope.1, hb (x :: bound) inScope.2⟩
  | apply x body e hb he => exact ⟨he bound inScope.1, hb (x :: bound) inScope.2⟩
  | iterate times x step e he => exact he bound inScope
  | test t e he => exact he bound inScope

/-- A replacement by terms without binders keeps the binders of a term. -/
theorem binders_replace (vars : ∀ bound x i, (f bound x i).binders = []) (flags : g.binders = [])
    (e : Arithmetic s) : (e.replace f g bound).binders = e.binders := by
  induction e generalizing bound <;> simp_all [replace, binders]

end Replace

/-! ### Moving a term under binders -/

section Moved

variable {e : Arithmetic s}

theorem moved_nil (e : Arithmetic s) : e.moved [] = e := by
  have still : moved.movedVar [] = fun _ => var := by
    funext bound x i
    simp [moved.movedVar]
  rw [moved, still, replace_self]

/-- A variable seen from under binders stands for the same number. -/
private theorem value_movedVar (inner middle outer : Scope) (x : Label) (i : Nat) :
    (moved.movedVar middle.labels inner.labels x i).value b (inner ++ (middle ++ outer)) =
      Scope.lookup (inner ++ outer) x i := by
  rw [moved.movedVar, value, Scope.lookup_append inner, Scope.lookup_append inner outer]
  by_cases inside : i < inner.labels.count x
  · simp only [if_pos inside]
  · have beyond : ¬i + middle.labels.count x < inner.labels.count x := by omega
    have further : ¬i + middle.labels.count x - inner.labels.count x < middle.labels.count x := by
      omega
    rw [if_neg inside, if_neg inside, if_neg beyond, Scope.lookup_append, if_neg further]
    congr 1
    omega

theorem value_moved (middle outer : Scope) (inScope : e.Scoped outer.labels) :
    (e.moved middle.labels).value b (middle ++ outer) = e.value b outer :=
  value_replace (f := moved.movedVar middle.labels)
    (fun inner x i _ => value_movedVar inner middle outer x i) (fun _ => rfl) e [] inScope

theorem bounded_moved (middle outer : Scope) (inScope : e.Scoped outer.labels)
    (h : e.Bounded b outer) : (e.moved middle.labels).Bounded b (middle ++ outer) :=
  bounded_replace (f := moved.movedVar middle.labels) (g := flag)
    (fun inner x i _ => value_movedVar inner middle outer x i) (fun _ => rfl)
    (fun _ _ _ _ => trivial) (fun _ => trivial) e [] inScope h

theorem scoped_moved (middle : List Label) (inScope : e.Scoped Γ) :
    (e.moved middle).Scoped (middle ++ Γ) := by
  have vars (bound : List Label) (x : Label) (i : Nat) (below : i < (bound ++ Γ).count x) :
      (moved.movedVar middle bound x i).Scoped (bound ++ (middle ++ Γ)) := by
    simp only [moved.movedVar, Scoped, List.count_append] at below ⊢
    split <;> omega
  exact scoped_replace (g := flag) vars (fun _ => trivial) e [] inScope

theorem binders_moved (middle : List Label) : (e.moved middle).binders = e.binders :=
  binders_replace (fun _ _ _ => rfl) rfl e

end Moved

/-! ### Instantiating a name -/

section Inst

variable {e : Arithmetic s} {w : Arithmetic .natural}

/-- What takes the place of a variable computes what the variable stands for, when the name
stands for what the term computes. -/
private theorem value_instVar {outer : Scope} (inScope : w.Scoped outer.labels) (inner : Scope)
    (y : Label) (i : Nat) :
    (inst.instVar x w inner.labels y i).value b (inner ++ outer) =
      Scope.lookup (inner ++ (x, w.value b outer) :: outer) y i := by
  unfold inst.instVar
  rw [Scope.lookup_append, Scope.lookup_cons]
  split
  · next here =>
    obtain ⟨rfl, outside⟩ := here
    rw [if_neg (Nat.not_lt.mpr outside), if_pos rfl]
    split
    · next same => rw [if_pos (by omega), value_moved inner outer inScope]
    · next other =>
      have beyond : ¬i - 1 < inner.labels.count y := by omega
      rw [if_neg (by omega), value, Scope.lookup_append, if_neg beyond]
      congr 1
      omega
  · next elsewhere =>
    rw [value, Scope.lookup_append]
    split
    · rfl
    · next outside => rw [if_neg fun same => elsewhere ⟨same.symm, by subst same; omega⟩]

theorem value_inst (outer : Scope) (inScope : e.Scoped (x :: outer.labels))
    (inScope' : w.Scoped outer.labels) :
    (e.inst x w).value b outer = e.value b ((x, w.value b outer) :: outer) := by
  have vars (inner : Scope) (y : Label) (i : Nat)
      (_ : i < (inner.labels ++ Scope.labels ((x, w.value b outer) :: outer)).count y) :=
    value_instVar (x := x) (b := b) inScope' inner y i
  exact value_replace vars (fun _ => rfl) e [] inScope

theorem bounded_inst (outer : Scope) (inScope : e.Scoped (x :: outer.labels))
    (inScope' : w.Scoped outer.labels) (h : e.Bounded b ((x, w.value b outer) :: outer))
    (h' : w.Bounded b outer) : (e.inst x w).Bounded b outer := by
  have vars (inner : Scope) (y : Label) (i : Nat)
      (_ : i < (inner.labels ++ Scope.labels ((x, w.value b outer) :: outer)).count y) :=
    value_instVar (x := x) (b := b) inScope' inner y i
  refine bounded_replace (g := flag) vars (fun _ => rfl) (fun inner y i _ => ?_)
    (fun _ => trivial) e [] inScope h
  unfold inst.instVar
  split
  · split
    · exact bounded_moved inner outer inScope' h'
    · trivial
  · trivial

theorem scoped_inst (inScope : e.Scoped (x :: Γ)) (inScope' : w.Scoped Γ) :
    (e.inst x w).Scoped Γ := by
  refine scoped_replace (g := flag) (Γ := x :: Γ) (fun bound y i below => ?_)
    (fun _ => trivial) e [] inScope
  rw [List.count_append, List.count_cons] at below
  unfold inst.instVar
  split
  · next here =>
    split
    · exact scoped_moved bound inScope'
    · have last : (x == y) = true := by simp [here.1]
      rw [if_pos last, here.1] at below
      simp only [Scoped, List.count_append]
      omega
  · next elsewhere =>
    simp only [Scoped, List.count_append]
    by_cases same : x = y
    · subst same
      simp only [true_and] at elsewhere
      omega
    · rw [if_neg (by simpa using same)] at below
      omega

theorem binders_inst (h : w.binders = []) : (e.inst x w).binders = e.binders := by
  refine binders_replace (fun bound y i => ?_) rfl e
  unfold inst.instVar
  split
  · split
    · rw [binders_moved, h]
    · rfl
  · rfl

end Inst

/-! ### Fixing the truth value -/

section Fix

variable {e : Arithmetic s}

theorem value_fix (outer : Scope) (inScope : e.Scoped outer.labels) :
    (e.fix c).value b outer = e.value c outer :=
  value_replace (f := fun _ => var) (g := truth c) (fun _ _ _ _ => rfl) (fun _ => rfl) e []
    inScope

theorem scoped_fix (inScope : e.Scoped Γ) : (e.fix c).Scoped Γ :=
  scoped_replace (f := fun _ => var) (g := truth c) (fun _ _ _ inside => inside)
    (fun _ => trivial) e [] inScope

end Fix

end Arithmetic

end Dhall

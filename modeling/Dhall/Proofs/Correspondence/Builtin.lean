/-
# Built-in functions on corresponding arguments

A built-in function inspects literals, compares arguments or looks for a certain fold among
them, and all of this comes out the same on both sides of a correspondence. The functions
that builds insert have labels of their own, and what they put under them has moved there.

## Main results

* `Correspondence.agree_prepend` — the functions that builds insert correspond
* `Correspondence.agree_reduceBuiltin` — built-in functions keep correspondences
-/

import Dhall.Proofs.Correspondence.Operator
import Dhall.Reduction.Builtin

namespace Dhall.Correspondence

open Dhall.Expr Builtin

variable {K : Correspondence} {e e' type type' : Expr} {args args' : List Expr} {b : Builtin}

/-! ### Constructors -/

theorem relates_builtin (b : Builtin) : K.Relates (builtin b) (builtin b) :=
  Alike.relates (.builtin b)

theorem relates_app {f f' : Expr} (hf : K.Relates f f') (h : K.Relates e e') :
    K.Relates (app f e) (app f' e') :=
  Alike.relates (.app hf h)

theorem relates_apply {f f' : Expr} (hf : K.Relates f f') (h : List.Forall₂ K.Relates args args') :
    K.Relates (f.apply args) (f'.apply args') := by
  induction h generalizing f f' with
  | nil => exact hf
  | cons here _ ih => exact ih (relates_app hf here)

theorem relates_plainText (s : String) : K.Relates (plainText s) (plainText s) :=
  Alike.relates (.text s .nil)

theorem relates_successor : K.Relates successor successor :=
  Alike.relates (.lam (fun _ => rfl) (relates_builtin _)
    (relates_op .plus (relates_nearest _ _) (relates_natural 1)))

/-- The function that builds lists corresponds: its second binder does not hide the first one. -/
theorem agree_prepend (h : K.Relates type type') :
    Agree K.Relates (prepend type) (prepend type') := by
  refine (agree_under h "a" "a").bind fun tail tail' moved => .pure ?_
  have tails := relates_app (relates_builtin .list) moved
  have head : ((K.under "a" "a").under "as" "as").Relates (var (.nearest "a"))
      (var (.nearest "a")) := (relates_nearest "a" "a").outer_var (by decide) (by decide)
  have item := Alike.relates (.list (.cons head .nil))
  exact Alike.relates (.lam (fun _ => rfl) h (Alike.relates (.lam (fun _ => rfl) tails
    (relates_op .listAppend item (relates_nearest "as" "as")))))

theorem relates_wrap (h : K.Relates type type') : K.Relates (wrap type) (wrap type') :=
  Alike.relates (.lam (fun _ => rfl) h (Alike.relates (.present (relates_nearest _ _))))

theorem relates_noneOf (h : K.Relates type type') : K.Relates (noneOf type) (noneOf type') :=
  relates_app (relates_builtin _) h

theorem relates_listOf (h : K.Relates type type') : K.Relates (listOf type) (listOf type') :=
  relates_app (relates_builtin _) h

theorem relates_indexedItem (h : K.Relates e e') (i : Nat) :
    K.Relates (indexedItem i e) (indexedItem i e') :=
  relates_record (LabelMap.related_ofList
    (.cons ⟨rfl, relates_natural _⟩ (.cons ⟨rfl, h⟩ .nil)))

theorem relates_indexedType (h : K.Relates type type') :
    K.Relates (indexedType type) (indexedType type') :=
  relates_recordType (LabelMap.related_ofList
    (.cons ⟨rfl, relates_builtin _⟩ (.cons ⟨rfl, h⟩ .nil)))

/-! ### Functions that inspect literals -/

theorem rel_reduceNatural (b : Builtin) (n : UInt64) :
    Option.Rel K.Relates (b.reduceNatural n) (b.reduceNatural n) := by
  unfold reduceNatural
  split
  · exact .some (relates_bool _)
  · exact .some (relates_bool _)
  · exact .some (relates_bool _)
  · split
    · exact .some (Alike.relates (.integer _))
    · exact .none
  · exact .some (relates_plainText _)
  · exact .none

theorem rel_reduceInteger (b : Builtin) (i : Int64) :
    Option.Rel K.Relates (b.reduceInteger i) (b.reduceInteger i) := by
  unfold reduceInteger
  split
  · exact .some (relates_plainText _)
  · exact .some (Alike.relates (.double _))
  · split
    · exact .none
    · exact .some (Alike.relates (.integer _))
  · exact .some (relates_natural _)
  · exact .none

theorem relates_item {item? item?' : Option Expr} (ht : K.Relates type type')
    (h : Option.Rel K.Relates item? item?') :
    K.Relates ((item?.map present).getD (noneOf type))
      ((item?'.map present).getD (noneOf type')) := by
  cases h with
  | none => exact relates_noneOf ht
  | some here => exact Alike.relates (.present here)

theorem rel_head? {items items' : List Expr} (h : List.Forall₂ K.Relates items items') :
    Option.Rel K.Relates items.head? items'.head? := by
  cases h with
  | nil => exact .none
  | cons here _ => exact .some here

theorem relates_indexedItems {items items' : List Expr}
    (h : List.Forall₂ K.Relates items items') :
    K.Relates (list (items.mapIdx indexedItem)) (list (items'.mapIdx indexedItem)) := by
  -- The items after the first one are numbered from a later number on.
  have numbered (start : Nat) : List.Forall₂ K.Relates
      (items.mapIdx fun i => indexedItem (i + start))
      (items'.mapIdx fun i => indexedItem (i + start)) := by
    induction h generalizing start with
    | nil => exact .nil
    | cons here _ ih =>
      rw [List.mapIdx_cons, List.mapIdx_cons]
      refine .cons (relates_indexedItem here _) ?_
      simpa only [Nat.add_right_comm _ 1 start, Nat.add_assoc] using ih (start + 1)
  exact Alike.relates (.list (numbered 0))

theorem rel_reduceList (b : Builtin) (ht : K.Relates type type') (h : K.Relates e e') :
    Option.Rel K.Relates (b.reduceList type e) (b.reduceList type' e') := by
  cases h.alike with
  | emptyList listTyped =>
    simp only [reduceList]
    split
    · exact .some (relates_natural 0)
    · exact .some (relates_noneOf ht)
    · exact .some (relates_noneOf ht)
    · exact .some h
    · exact .some (Alike.relates (.emptyList (relates_listOf (relates_indexedType ht))))
    · exact .none
  | list items =>
    simp only [reduceList]
    split
    · rw [items.length_eq]
      exact .some (relates_natural _)
    · exact .some (relates_item ht (rel_head? items))
    · rw [List.getLast?_eq_head?_reverse, List.getLast?_eq_head?_reverse]
      exact .some (relates_item ht (rel_head? (List.rel_reverse items)))
    · exact .some (Alike.relates (.list (List.rel_reverse items)))
    · exact .some (relates_indexedItems items)
    · exact .none
  | _ => exact .none

/-- The contents of a literal without interpolations are the same on both sides. -/
theorem plain?_eq (head : String) {tail tail' : List (Expr × String)}
    (h : List.Forall₂ (fun p q => q.2 = p.2 ∧ K.Relates p.1 q.1) tail tail') :
    (⟨head, tail'⟩ : Text Expr).plain? = (⟨head, tail⟩ : Text Expr).plain? := by
  cases h <;> rfl

theorem rel_reduceLiteral (b : Builtin) (h : List.Forall₂ K.Relates args args') :
    Option.Rel K.Relates (b.reduceLiteral args) (b.reduceLiteral args') := by
  rcases h with _ | ⟨first, _ | ⟨second, _ | ⟨third, rest⟩⟩⟩
  · exact .none
  · cases first.alike with
    | natural n => exact rel_reduceNatural b n
    | integer i => exact rel_reduceInteger b i
    | double d =>
      simp only [reduceLiteral]
      split
      · exact .some (relates_plainText _)
      · exact .none
    | text head tails =>
      simp only [reduceLiteral, plain?_eq head tails]
      split
      · cases Text.plain? _ with
        | none => exact .none
        | some s => exact .some (relates_plainText _)
      · exact .none
    | _ => exact .none
  · simp only [reduceLiteral]
    exact rel_reduceList b first second
  · simp only [reduceLiteral]
    exact .none

theorem agree_reduceSubtract {x x' y y' : Expr} (hx : K.Relates x x') (hy : K.Relates y y') :
    Agree (Option.Rel K.Relates) (reduceSubtract x y) (reduceSubtract x' y') := by
  have undecided : Agree (Option.Rel K.Relates)
      (do pure (if ← x.alphaEquivalent y then some (natural 0) else none))
      (do pure (if ← x'.alphaEquivalent y' then some (natural 0) else none)) := by
    refine (agree_alphaEquivalent hx hy).bind ?_
    rintro same _ rfl
    refine .pure ?_
    split
    · exact .some (relates_natural 0)
    · exact .none
  unfold reduceSubtract
  rw [hx.natural?_eq, hy.natural?_eq]
  split
  · exact .pure (.some (relates_natural _))
  · split
    · exact .pure (.some hy)
    · split
      · exact .pure (.some (relates_natural 0))
      · exact undecided

/-- What stands for no value is chosen on both sides or on none. -/
theorem rel_ifAbsent {o o' : Expr} (ho : K.Relates o o') (h : K.Relates e e') :
    Option.Rel K.Relates (if (o.argumentsOf? .optionalNone).isSome then some e else none)
      (if (o'.argumentsOf? .optionalNone).isSome then some e' else none) := by
  have absent := ho.argumentsOf? .optionalNone
  generalize o.argumentsOf? _ = found at absent ⊢
  generalize o'.argumentsOf? _ = found' at absent ⊢
  cases absent with
  | none => exact .none
  | some _ => exact .some h

/-! ### Functions that evaluate applications -/

section Evaluating

variable {eval eval' : Expr → Eval Expr}
  (evals : ∀ {e e' : Expr}, K.Relates e e' → Agree K.Relates (eval e) (eval' e'))

include evals

private theorem agree_some (h : K.Relates e e') :
    Agree (Option.Rel K.Relates) (some <$> eval e) (some <$> eval' e') :=
  (evals h).map fun _ _ related => .some related

/-- A build of the matching fold returns the same part on both sides, and any other build
evaluates corresponding applications. -/
theorem agree_reduceBuild (h : List.Forall₂ K.Relates args args') :
    Agree (Option.Rel K.Relates) (b.reduceBuild eval args) (b.reduceBuild eval' args') := by
  -- The number of arguments tells whether there is a rule, on both sides at once.
  rcases h with _ | ⟨first, _ | ⟨second, _ | ⟨third, rest⟩⟩⟩
  · cases b <;> exact .pure .none
  · cases b
    case naturalBuild =>
      have built := agree_some evals (relates_apply first
        (.cons (relates_builtin .natural)
          (.cons relates_successor (.cons (relates_natural 0) .nil))))
      have folded := first.argumentsOf? .naturalFold
      simp only [reduceBuild]
      generalize argumentsOf? _ _ = found at folded ⊢
      generalize argumentsOf? _ _ = found' at folded ⊢
      rcases folded with ⟨_ | ⟨here, _ | ⟨_, _⟩⟩⟩ | _
      case some.cons.nil => exact .pure (.some here)
      all_goals exact built
    all_goals exact .pure .none
  · cases b
    case listBuild =>
      have built : Agree (Option.Rel K.Relates) _ _ :=
        (Eval.agree_lift (agree_prepend first)).bind fun _ _ cons =>
          agree_some evals (relates_apply second (.cons (relates_listOf first)
            (.cons cons (.cons (Alike.relates (.emptyList (relates_listOf first))) .nil))))
      have folded := second.argumentsOf? .listFold
      simp only [reduceBuild]
      generalize argumentsOf? _ _ = found at folded ⊢
      generalize argumentsOf? _ _ = found' at folded ⊢
      rcases folded with ⟨_ | ⟨_, _ | ⟨here, _ | ⟨_, _⟩⟩⟩⟩ | _
      case some.cons.cons.nil => exact .pure (.some here)
      all_goals exact built
    case optionalBuild =>
      have built := agree_some evals (relates_apply second
        (.cons (relates_app (relates_builtin .optional) first)
          (.cons (relates_wrap first) (.cons (relates_noneOf first) .nil))))
      have folded := second.argumentsOf? .optionalFold
      simp only [reduceBuild]
      generalize argumentsOf? _ _ = found at folded ⊢
      generalize argumentsOf? _ _ = found' at folded ⊢
      rcases folded with ⟨_ | ⟨_, _ | ⟨here, _ | ⟨_, _⟩⟩⟩⟩ | _
      case some.cons.cons.nil => exact .pure (.some here)
      all_goals exact built
    all_goals exact .pure .none
  · cases b <;> exact .pure .none

theorem agree_naturalFold (h : List.Forall₂ K.Relates args args') :
    Agree (Option.Rel K.Relates) (reduceFold eval .naturalFold args)
      (reduceFold eval' .naturalFold args') := by
  rcases h with _ | ⟨number, _ | ⟨type, _ | ⟨succ, _ | ⟨zero, _ | ⟨_, _⟩⟩⟩⟩⟩
  case cons.cons.cons.cons.nil =>
    cases number.alike with
    | natural n =>
      exact (Eval.agree_iterate (fun _ _ h => evals (relates_app succ h)) n.toNat zero).map
        fun _ _ related => .some related
    | _ => exact .pure .none
  all_goals
    simp only [reduceFold]
    exact .pure .none

theorem agree_listFold (h : List.Forall₂ K.Relates args args') :
    Agree (Option.Rel K.Relates) (reduceFold eval .listFold args)
      (reduceFold eval' .listFold args') := by
  rcases h with _ | ⟨type, _ | ⟨items, _ | ⟨result, _ | ⟨cons, _ | ⟨nil, _ | ⟨_, _⟩⟩⟩⟩⟩⟩
  case cons.cons.cons.cons.cons.nil =>
    cases items.alike with
    | emptyList _ => exact .pure (.some nil)
    | list elements =>
      exact (agree_foldrM elements nil fun _ _ _ _ item rest =>
        evals (relates_apply cons (.cons item (.cons rest .nil)))).map
          fun _ _ related => .some related
    | _ =>
      simp only [reduceFold]
      exact .pure .none
  all_goals
    simp only [reduceFold]
    exact .pure .none

theorem agree_optionalFold (h : List.Forall₂ K.Relates args args') :
    Agree (Option.Rel K.Relates) (reduceFold eval .optionalFold args)
      (reduceFold eval' .optionalFold args') := by
  rcases h with _ | ⟨type, _ | ⟨value, _ | ⟨result, _ | ⟨full, _ | ⟨empty, _ | ⟨_, _⟩⟩⟩⟩⟩⟩
  case cons.cons.cons.cons.cons.nil =>
    cases value.alike with
    | present here => exact agree_some evals (relates_app full here)
    | _ => exact .pure (rel_ifAbsent value empty)
  all_goals
    simp only [reduceFold]
    exact .pure .none

/-- Built-in functions on corresponding arguments reduce to corresponding expressions, or are
stuck on both sides. -/
theorem agree_reduceBuiltin (b : Builtin) (h : List.Forall₂ K.Relates args args') :
    Agree (Option.Rel K.Relates) (b.reduce eval args) (b.reduce eval' args') := by
  cases b
  case naturalBuild => exact agree_reduceBuild evals h
  case listBuild => exact agree_reduceBuild evals h
  case optionalBuild => exact agree_reduceBuild evals h
  case naturalFold => exact agree_naturalFold evals h
  case listFold => exact agree_listFold evals h
  case optionalFold => exact agree_optionalFold evals h
  case naturalSubtract =>
    have literal := rel_reduceLiteral .naturalSubtract h
    rcases h with _ | ⟨first, _ | ⟨second, _ | ⟨third, rest⟩⟩⟩
    case cons.cons.nil => exact Eval.agree_lift (agree_reduceSubtract first second)
    all_goals exact .pure literal
  all_goals exact .pure (rel_reduceLiteral _ h)

end Evaluating

end Dhall.Correspondence

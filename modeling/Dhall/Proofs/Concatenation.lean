/-
# Texts are a monoid

A text literal can be appended to another one without looking at the pieces of either: the last
string of the first and the first string of the second are joined, and everything else stays where
it is. This makes literals a monoid, and putting a literal together from pieces takes the
concatenation of lists of pieces to it.

An evaluated expression has a place in this monoid as well, a literal as itself and any other
expression as the literal that interpolates it and nothing else. Since no literal is interpolated
in an evaluated literal, the two kinds do not meet, and the evaluated expression can be read off
its place. To append evaluated expressions is to append their places, whichever of them, or of the
intermediate results, is a literal and which is not. An interpolation has a place of its own at
once, the product of the places of its parts.

## Main definitions

* `Text.onto` — one literal in front of another one
* `Expr.asText` — the place of an expression among the literals
* `Expr.appended` — the parts of a literal, appended one by one

## Main results

* `Text.ofPieces_append`, `Text.append_assoc` — literals are a monoid, built from pieces
* `Expr.asText_reduceTextAppend` — appending evaluated expressions
* `Expr.normalizes_text_iff` — the normal form of a literal
* `Expr.textAppend_monoid` — appending is associative, has a unit and agrees with interpolation
-/

import Dhall.Proofs.Evaluation
import Dhall.Proofs.Idempotence

namespace Dhall

/-! ### Literals -/

namespace Text

variable {α : Type} {t u v : Text α} {a : α} {s : String}

/-- A literal that starts with a string and goes on with interpolated values, each with the string
after it, in front of another literal. -/
def onto (u : Text α) : String → List (α × String) → Text α
  | s, [] => ⟨s ++ u.head, u.tail⟩
  | s, (a, last) :: tail =>
    let rest := u.onto last tail
    ⟨s, (a, rest.head) :: rest.tail⟩

instance : Append (Text α) where
  append t u := u.onto t.head t.tail

/-- A literal that consists of one interpolation. -/
def interpolated (a : α) : Text α := ⟨"", [(a, "")]⟩

theorem mk_nil_append (s : String) (u : Text α) :
    (⟨s, []⟩ ++ u : Text α) = ⟨s ++ u.head, u.tail⟩ := rfl

theorem mk_cons_append (s last : String) (a : α) (tail : List (α × String)) (u : Text α) :
    (⟨s, (a, last) :: tail⟩ ++ u : Text α) =
      ⟨s, (a, (⟨last, tail⟩ ++ u : Text α).head) :: (⟨last, tail⟩ ++ u : Text α).tail⟩ := rfl

/-- The string at the front of a literal stays there when another literal follows. -/
theorem push_append (s : String) (t u : Text α) :
    (⟨s ++ t.head, t.tail⟩ ++ u : Text α) = ⟨s ++ (t ++ u).head, (t ++ u).tail⟩ := by
  obtain ⟨head, tail⟩ := t
  cases tail with
  | nil => rw [mk_nil_append, mk_nil_append, String.append_assoc]
  | cons p tail => rw [mk_cons_append, mk_cons_append]

/-- Putting pieces together takes the concatenation of lists to that of literals. -/
theorem ofPieces_append (ps qs : List (Piece α)) :
    ofPieces (ps ++ qs) = ofPieces ps ++ ofPieces qs := by
  induction ps with
  | nil => rw [List.nil_append, ofPieces, plain, mk_nil_append, String.empty_append]
  | cons p ps ih =>
    cases p with
    | literal s => rw [List.cons_append, ofPieces, ofPieces, ih, push_append]
    | interpolation a => rw [List.cons_append, ofPieces, ofPieces, ih, mk_cons_append]

-- A literal is put together from its pieces, so the laws of lists are laws of literals.

theorem append_assoc (t u v : Text α) : t ++ u ++ v = t ++ (u ++ v) := by
  rw [← ofPieces_pieces t, ← ofPieces_pieces u, ← ofPieces_pieces v, ← ofPieces_append,
    ← ofPieces_append, ← ofPieces_append, ← ofPieces_append, List.append_assoc]

theorem empty_append (t : Text α) : plain "" ++ t = t := by
  rw [plain, mk_nil_append, String.empty_append]

theorem append_empty (t : Text α) : t ++ plain "" = t := by
  rw [← ofPieces_pieces t, ← ofPieces.eq_1, ← ofPieces_append, List.append_nil]

/-- The values of both literals are interpolated, and no others. -/
theorem values_append (t u : Text α) : (t ++ u).values = t.values ++ u.values := by
  obtain ⟨head, tail⟩ := t
  induction tail generalizing head with
  | nil => rfl
  | cons p tail ih =>
    rw [mk_cons_append]
    exact congrArg (p.1 :: ·) (ih p.2)

end Text

/-! ### Evaluated expressions as literals -/

namespace Expr

variable {a b c e a' b' c' e' r x y z : Expr} {t : Text Expr} {tail tail' : List (Expr × String)}

/-- A literal, or the literal that interpolates an expression and nothing else. -/
def asText : Expr → Text Expr
  | text t => t
  | e => .interpolated e

theorem asText_eq (whole : ∀ t, e ≠ text t) : e.asText = .interpolated e := by
  unfold asText
  split
  · next t => exact absurd rfl (whole t)
  · rfl

/-- No literal is interpolated in what stands for an evaluated expression. -/
theorem Settled.text_notMem_asText (h : Settled e) (u : Text Expr) : text u ∉ e.asText.values := by
  unfold asText
  split
  · exact (settled_text.mp h).1.1 u
  · next whole =>
    intro member
    exact whole u (List.mem_singleton.mp member).symm

/-- An evaluated expression can be read off its literal. -/
theorem Settled.ofText_asText (h : Settled e) : ofText e.asText = e := by
  unfold asText
  split
  · next t =>
    -- An evaluated literal is not one interpolation alone, which would be dropped.
    have several := (settled_text.mp h).1.2
    unfold ofText
    split
    · next head f last =>
      refine if_neg ?_
      rintro ⟨rfl, rfl⟩
      exact several f rfl
    · rfl
  · rfl

/-- A literal in which no literal is interpolated stands for the expression that it is reduced
to. -/
theorem asText_ofText (spliced : ∀ u, text u ∉ t.values) : (ofText t).asText = t := by
  unfold ofText
  split
  · next head f last =>
    split
    · next alone =>
      obtain ⟨rfl, rfl⟩ := alone
      refine asText_eq ?_
      rintro u rfl
      exact spliced u (.head _)
    · rfl
  · rfl

/-- The pieces that are spliced in the place of an expression are those of its literal. -/
theorem ofPieces_splicePiece (e : Expr) :
    Text.ofPieces (splicePiece (.interpolation e)) = e.asText := by
  unfold splicePiece
  split
  · next t same =>
    cases same
    exact Text.ofPieces_pieces t
  · next whole => exact (asText_eq fun t same => whole t (congrArg _ same)).symm

theorem reduceTextAppend_eq (x y : Expr) :
    Operator.reduceTextAppend x y = ofText (x.asText ++ y.asText) := by
  rw [Operator.reduceTextAppend, ofPieces, List.flatMap_cons, List.flatMap_singleton,
    Text.ofPieces_append, ofPieces_splicePiece, ofPieces_splicePiece]

/-- To append evaluated expressions is to append their literals. -/
theorem asText_reduceTextAppend (hx : Settled x) (hy : Settled y) :
    (Operator.reduceTextAppend x y).asText = x.asText ++ y.asText := by
  rw [reduceTextAppend_eq]
  refine asText_ofText fun u member => ?_
  rw [Text.values_append, List.mem_append] at member
  rcases member with left | right
  · exact hx.text_notMem_asText u left
  · exact hy.text_notMem_asText u right

theorem reduceTextAppend_assoc (hx : Settled x) (hy : Settled y) (hz : Settled z) :
    Operator.reduceTextAppend (Operator.reduceTextAppend x y) z =
      Operator.reduceTextAppend x (Operator.reduceTextAppend y z) := by
  calc
    _ = ofText (x.asText ++ y.asText ++ z.asText) := by
      rw [reduceTextAppend_eq _ z, asText_reduceTextAppend hx hy]
    _ = ofText (x.asText ++ (y.asText ++ z.asText)) := by rw [Text.append_assoc]
    _ = _ := by rw [reduceTextAppend_eq x, asText_reduceTextAppend hy hz]

theorem reduceTextAppend_empty_left (h : Settled x) :
    Operator.reduceTextAppend (plainText "") x = x := by
  rw [reduceTextAppend_eq]
  exact (congrArg ofText (Text.empty_append x.asText)).trans h.ofText_asText

theorem reduceTextAppend_empty_right (h : Settled x) :
    Operator.reduceTextAppend x (plainText "") = x := by
  rw [reduceTextAppend_eq]
  exact (congrArg ofText (Text.append_empty x.asText)).trans h.ofText_asText

/-! ### Interpolations -/

/-- The literals of interpolated values, each with the string after it, behind a literal. -/
def extended (u : Text Expr) (tail : List (Expr × String)) : Text Expr :=
  tail.foldl (fun u p => u ++ p.1.asText ++ .plain p.2) u

/-- The parts of a literal, interpolated values and strings, appended one after the other. -/
def appended (e : Expr) (tail : List (Expr × String)) : Expr :=
  tail.foldl (fun e p => op .textAppend (op .textAppend e p.1) (plainText p.2)) e

/-- The interpolated values of a literal evaluate to those of another one, between the same
strings. -/
def TailNormalizes (tail tail' : List (Expr × String)) : Prop :=
  List.Forall₂ (fun p p' => p.1.Normalizes p'.1 ∧ p'.2 = p.2) tail tail'

/-- What is spliced in the place of an evaluated literal is the product of what its parts stand
for. -/
theorem ofPieces_pieces_eq (t : Text Expr) :
    ofPieces t.pieces = ofText (extended (.plain t.head) t.tail) := by
  have strings (s : String) :
      (Text.literalPieces s).flatMap splicePiece = Text.literalPieces s := by
    unfold Text.literalPieces
    split <;> rfl
  have string (s : String) : Text.ofPieces (Text.literalPieces s) = (.plain s : Text Expr) := by
    have joined := Text.ofPieces_literalPieces s ([] : List (Text.Piece Expr))
    rwa [List.append_nil, Text.ofPieces, Text.plain, String.append_empty] at joined
  -- The induction is on the values that are left, behind any literal that has been built.
  have parts (u : Text Expr) (tail : List (Expr × String)) :
      u ++ Text.ofPieces ((tail.flatMap fun p =>
        .interpolation p.1 :: Text.literalPieces p.2).flatMap splicePiece) = extended u tail := by
    induction tail generalizing u with
    | nil => exact Text.append_empty u
    | cons p tail ih =>
      rw [List.flatMap_cons, List.flatMap_append, List.flatMap_cons, strings,
        Text.ofPieces_append, Text.ofPieces_append, ofPieces_splicePiece, string,
        ← Text.append_assoc, ← Text.append_assoc, ih]
      rfl
  rw [ofPieces, Text.pieces, List.flatMap_append, strings, Text.ofPieces_append, string, parts]

/-- The normal form of a literal is reduced from the product of what the normal forms of its
parts stand for. -/
theorem normalizes_text_iff : (text t).Normalizes r ↔
    ∃ tail', TailNormalizes t.tail tail' ∧ r = ofText (extended (.plain t.head) tail') := by
  have steps (eval : Expr → Eval Expr) : step eval (text t) =
      (fun tail' => ofText (extended (.plain t.head) tail')) <$>
        t.tail.mapM (fun p => do pure (← eval p.1, p.2)) := by
    simp [step, Text.mapM_pieces, Text.traverse, ofPieces_pieces_eq]
  constructor
  · intro h
    obtain ⟨fuel, returned⟩ := normalizes_iff_step.mp h
    rw [steps] at returned
    obtain ⟨tail', evaluated, rfl⟩ := map_eq_pure_iff.mp returned
    refine ⟨tail', (mapM_eq_pure_iff.mp evaluated).imp fun p p' entry => ?_, rfl⟩
    obtain ⟨e, value, same⟩ := bind_eq_pure_iff.mp entry
    obtain rfl := LawfulReturn.pure_injective same
    exact ⟨⟨fuel, value⟩, rfl⟩
  · rintro ⟨tail', evaluated, rfl⟩
    refine .of_step ?_
    simp only [steps]
    refine (Eval.returns_mapM (evaluated.imp fun p p' entry => ?_)).map _
    obtain ⟨value, string⟩ := entry
    exact string ▸ value.returns.bind (.pure _)

theorem normalizes_textAppend_iff : (op .textAppend a b).Normalizes r ↔
    ∃ a' b', a.Normalizes a' ∧ b.Normalizes b' ∧ Operator.reduceTextAppend a' b' = r := by
  rw [normalizes_op_iff]
  exact exists₂_congr fun a' b' => and_congr_right fun _ => and_congr_right fun _ =>
    ⟨Except.ok.inj, congrArg _⟩

theorem Normalizes.textAppend (ha : a.Normalizes a') (hb : b.Normalizes b') :
    (Expr.op .textAppend a b).Normalizes (Operator.reduceTextAppend a' b') :=
  ha.op hb rfl

theorem normalizes_plainText (s : String) : (plainText s).Normalizes r ↔ r = plainText s := by
  rw [plainText, normalizes_text_iff]
  constructor
  · rintro ⟨tail', evaluated, rfl⟩
    cases evaluated
    rfl
  · rintro rfl
    exact ⟨[], .nil, rfl⟩

/-- An evaluated value and the string after it, appended to an evaluated expression. -/
theorem asText_part (hx : Settled x) (hy : Settled y) (s : String) :
    (Operator.reduceTextAppend (Operator.reduceTextAppend x y) (plainText s)).asText =
      x.asText ++ y.asText ++ .plain s := by
  rw [asText_reduceTextAppend (Operator.settled_reduceTextAppend hx hy) (settled_plainText s),
    asText_reduceTextAppend hx hy]
  rfl

/-- Parts that are appended one after the other evaluate to the product of what their normal
forms stand for. -/
theorem normalizes_appended_iff : (appended e tail).Normalizes r ↔
    ∃ e' tail', e.Normalizes e' ∧ TailNormalizes tail tail' ∧
      r = ofText (extended e'.asText tail') := by
  -- The induction is on the parts that are left, with any expression in front of them.
  induction tail generalizing e with
  | nil =>
    constructor
    · intro h
      exact ⟨r, [], h, .nil, (settled_of_normalizes h).ofText_asText.symm⟩
    · rintro ⟨e', tail', h, evaluated, rfl⟩
      cases evaluated
      have fixed := (settled_of_normalizes h).ofText_asText
      rwa [extended, List.foldl_nil, fixed]
  | cons p tail ih =>
    rw [appended, List.foldl_cons, ← appended, ih]
    constructor
    · rintro ⟨_, tail', both, evaluated, rfl⟩
      obtain ⟨_, _, one, hs, rfl⟩ := normalizes_textAppend_iff.mp both
      obtain ⟨e', q, h, hq, rfl⟩ := normalizes_textAppend_iff.mp one
      obtain rfl := (normalizes_plainText p.2).mp hs
      refine ⟨e', (q, p.2) :: tail', h, .cons ⟨hq, rfl⟩ evaluated, ?_⟩
      rw [asText_part (settled_of_normalizes h) (settled_of_normalizes hq)]
      rfl
    · rintro ⟨e', _, h, evaluated, rfl⟩
      cases evaluated with
      | @cons _ q _ tail' here evaluated =>
        obtain ⟨hq, string⟩ := here
        have both := (h.textAppend hq).textAppend ((normalizes_plainText p.2).mpr rfl)
        refine ⟨_, tail', both, evaluated, ?_⟩
        rw [asText_part (settled_of_normalizes h) (settled_of_normalizes hq), ← string]
        rfl

/-- Appending is associative for expressions that have normal forms, the empty text is its unit
on both sides, and every literal has the normal form, if any, of its head and all of its parts
appended one after the other. -/
theorem textAppend_monoid (ha : a.Normalizes a') (hb : b.Normalizes b') (hc : c.Normalizes c') :
    (∃ r, (op .textAppend (op .textAppend a b) c).Normalizes r ∧
      (op .textAppend a (op .textAppend b c)).Normalizes r) ∧
    (op .textAppend (plainText "") a).Normalizes a' ∧
    (op .textAppend a (plainText "")).Normalizes a' ∧
    ∀ (t : Text Expr) (r : Expr),
      (text t).Normalizes r ↔ (appended (plainText t.head) t.tail).Normalizes r := by
  have sa := settled_of_normalizes ha
  have sb := settled_of_normalizes hb
  have sc := settled_of_normalizes hc
  have unit : (plainText "").Normalizes (plainText "") := (normalizes_plainText "").mpr rfl
  have left := (ha.textAppend hb).textAppend hc
  have right := ha.textAppend (hb.textAppend hc)
  refine ⟨⟨_, left, ?_⟩, ?_, ?_, fun t r => ?_⟩
  · rwa [reduceTextAppend_assoc sa sb sc]
  · exact reduceTextAppend_empty_left sa ▸ unit.textAppend ha
  · exact reduceTextAppend_empty_right sa ▸ ha.textAppend unit
  · rw [normalizes_text_iff, normalizes_appended_iff]
    constructor
    · rintro ⟨tail', evaluated, rfl⟩
      exact ⟨_, tail', (normalizes_plainText t.head).mpr rfl, evaluated, rfl⟩
    · rintro ⟨_, tail', h, evaluated, rfl⟩
      obtain rfl := (normalizes_plainText t.head).mp h
      exact ⟨tail', evaluated, rfl⟩

/-- A variable alone, a literal that interpolates it next to another literal, and an empty
literal. -/
theorem textAppend_monoid_nested :
    let x := var (.nearest "x")
    let nested := text ⟨"", [(text ⟨"a", [(x, "")]⟩, "b")]⟩
    let spliced := text ⟨"a", [(x, "b")]⟩
    (∃ r, (op .textAppend (op .textAppend x nested) (plainText "")).Normalizes r ∧
      (op .textAppend x (op .textAppend nested (plainText ""))).Normalizes r) ∧
    (op .textAppend (plainText "") nested).Normalizes spliced ∧
    (appended (plainText "") [(text ⟨"a", [(x, "")]⟩, "b")]).Normalizes spliced := by
  intro x nested spliced
  have hx : x.Normalizes x := normalizes_var _
  have hn : nested.Normalizes spliced := ⟨3, rfl⟩
  have unit : (plainText "").Normalizes (plainText "") := ⟨1, rfl⟩
  obtain ⟨assoc, -⟩ := textAppend_monoid hx hn unit
  obtain ⟨-, left, -, agrees⟩ := textAppend_monoid hn hx unit
  exact ⟨assoc, left, (agrees _ _).mp hn⟩

end Expr

end Dhall

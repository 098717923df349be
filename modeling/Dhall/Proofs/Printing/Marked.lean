/-
# Constructs with a mark of their own are told apart

Two constructs that begin with the same mark have the same shape up to what stands between
their marks, so they can be split from what follows them as soon as their children can. Where a
child ends is seen from the mark after it.

## Main definitions

* `Reads` — two expressions in places of one rank are told apart
* `Node.Told` — the children of two constructs are told apart

## Main results

* `Headed.splits` — two constructs that begin with the same mark are told apart
* `Headed.splits_layout` — two constructs with any marks of their own are told apart
-/

import Dhall.Proofs.Merge
import Dhall.Proofs.Printing.Form
import Dhall.Proofs.Renaming

namespace Dhall

/-- Two expressions in places of one rank are the same if texts are equal that begin with them
and go on with something that ends the places. -/
def Reads (k : Nat) (e e' : Expr) : Prop :=
  Splits (Closes k) (e = e') (e.lettersAt k) (e'.lettersAt k)

/-- The children of two constructs are told apart in all places. -/
def Node.Told (n n' : Node Expr) : Prop :=
  ∀ c ∈ n.children, ∀ c' ∈ n'.children, ∀ k ≤ 17, Reads k c c'

variable {F : List Char → Prop} {n n' : Node Expr}

theorem EndsName.of_blank (r : List Char) : EndsName (' ' :: r) := by
  intro c first
  cases first
  exact ⟨rfl, by decide⟩

/-- A label begins with a letter, an underscore or a quote. -/
theorem Label.head?_ne {c : Char} (mark : (c.isAlpha || c = '_' || c = '\x60') = false) (l : Label)
    (r : List Char) : (l.render.toList ++ r).head? ≠ some c := by
  rw [Label.toList_render l 0]
  cases quoted : l.isQuoted with
  | true =>
    intro same
    cases same
    cases mark
  | false =>
    obtain ⟨d, rest, chars, first, -⟩ := isSimple_iff.mp (isSimple_of_unquoted quoted)
    rw [WrittenName.nameLetters, if_neg Bool.false_ne_true, chars]
    intro same
    cases same
    rw [first] at mark
    cases mark

namespace Expr

theorem closes_typeLetters (k : Nat) (type : Option Expr) {r : List Char} (ends : Closes 0 r) :
    Closes 1 (typeLetters k type ++ r) := by
  cases type with
  | none => exact ends.mono (Nat.zero_le 1)
  | some t => exact Nat.le_refl 1

/-- A type that may be left out. -/
theorem splits_type {k : Nat} {type type' : Option Expr}
    (reads : ∀ t ∈ type, ∀ t' ∈ type', Reads k t t') :
    Splits (Closes 0) (type = type') (typeLetters k type) (typeLetters k type') := by
  refine splits_option (fun t member t' member' => ?_) fun t r r' ends same => ?_
  · have types := (reads t member t' member').mono fun r ends => Closes.mono ends (Nat.zero_le k)
    exact types.fixed [' ', ':', ' ']
  · have colon : endRank ([' ', ':', ' '] ++ lettersAt k t ++ r') = 1 := rfl
    rw [Closes, ← same, colon] at ends
    contradiction

/-- A definition in a `let`, which is followed by another one or by the body. -/
theorem splits_binding {b b' : Binding Expr} (clean : b.label.Clean) (clean' : b'.label.Clean)
    (reads : ∀ c ∈ b.children, ∀ c' ∈ b'.children, Reads 0 c c') :
    Splits (fun r => ['l', 'e', 't', ' '] <+: r ∨ ['i', 'n', ' '] <+: r) (b = b')
      (bindingLetters b) (bindingLetters b') := by
  obtain ⟨x, type, value⟩ := b
  obtain ⟨x', type', value'⟩ := b'
  have types : Splits (Closes 0) (type = type') (typeLetters 0 type) (typeLetters 0 type') := by
    refine splits_type fun t member t' member' => reads t ?_ t' ?_
    · exact List.mem_append_left _ (Option.mem_toList.mpr member)
    · exact List.mem_append_left _ (Option.mem_toList.mpr member')
  have values : Reads 0 value value' :=
    reads value (List.mem_append_right _ (.head _)) value' (List.mem_append_right _ (.head _))
  have ends_name (type : Option Expr) (value : Expr) (r : List Char) :
      EndsName (typeLetters 0 type ++ ([' ', '=', ' '] ++ (letters value ++ [' '])) ++ r) := by
    rw [List.append_assoc]
    exact (closes_typeLetters 0 type (Closes.of_endRank rfl)).endsName (by decide)
  -- What follows a definition begins with a keyword and a blank in front of it.
  have next (r : List Char) (follows : ['l', 'e', 't', ' '] <+: r ∨ ['i', 'n', ' '] <+: r) :
      Closes 0 ([' '] ++ r) := by
    rcases follows with ⟨rest, rfl⟩ | ⟨rest, rfl⟩
    · exact .of_endRank rfl
    · exact .of_endRank rfl
  have typed := types.before [' ', '=', ' '] (fun _ => .of_endRank rfl) (values.closed [' '] next)
  refine (((Label.splits clean clean').append (fun _ => typed) ?_ ?_).fixed _).imp ?_
  · exact fun r _ => ends_name type value r
  · exact fun r _ => ends_name type' value' r
  · rintro ⟨rfl, rfl, rfl⟩
    rfl

/-- The definitions of a `let`, which go on until its body begins. -/
theorem splits_bindings {bs bs' : List (Binding Expr)} (clean : ∀ b ∈ bs, b.label.Clean)
    (clean' : ∀ b ∈ bs', b.label.Clean)
    (reads : ∀ b ∈ bs, ∀ c ∈ b.children, ∀ b' ∈ bs', ∀ c' ∈ b'.children, Reads 0 c c') :
    Splits (['i', 'n', ' '] <+: ·) (bs = bs') (bs.flatMap bindingLetters)
      (bs'.flatMap bindingLetters) := by
  refine splits_flatMap (G := fun r => ['l', 'e', 't', ' '] <+: r ∨ ['i', 'n', ' '] <+: r)
    (fun b member b' member' => ?_) (fun r => Or.inr) ?_ ?_
  · exact splits_binding (clean b member) (clean' b' member') fun c inside c' inside' =>
      reads b member c inside b' member' c' inside'
  · exact fun b r _ _ => Or.inl ⟨_, rfl⟩
  · rintro b r r' - ⟨rest, rfl⟩ - same
    cases same

/-- The fields of record types and of records, which have different signs. -/
theorem splits_fields {sign sign' : Char} {m m' : LabelMap Expr} (filled : m.isEmpty = false)
    (filled' : m'.isEmpty = false) (clean : ∀ l ∈ m.labels, l.Clean)
    (clean' : ∀ l ∈ m'.labels, l.Clean)
    (reads : ∀ c ∈ m.values, ∀ c' ∈ m'.values, ∀ k ≤ 17, Reads k c c') :
    Splits F (sign = sign' ∧ m = m') (braced (fieldLetters sign) m.toList)
      (braced (fieldLetters sign') m'.toList) := by
  -- The sign is made part of each field, so that both sides are lists of the same pieces.
  have marked (sign : Char) (m : LabelMap Expr) : braced (fieldLetters sign) m.toList =
      braced (fun q => fieldLetters q.1 q.2) (m.toList.map (sign, ·)) := by
    rw [braced, braced, separated_map]
  rw [marked, marked]
  have pieces : Splits F (m.toList.map (sign, ·) = m'.toList.map (sign', ·))
      (separated [',', ' '] (fun q => fieldLetters q.1 q.2) (m.toList.map (sign, ·)) ++
        [' ', '\x7d'])
      (separated [',', ' '] (fun q => fieldLetters q.1 q.2) (m'.toList.map (sign', ·)) ++
        [' ', '\x7d']) := by
    refine splits_separated (G := Closes 0) ?_ (fun _ => .of_endRank rfl)
      (fun _ => .of_endRank rfl) (fun _ _ same => by cases same) ?_
    · intro q member q' member'
      obtain ⟨p, inside, rfl⟩ := List.mem_map.mp member
      obtain ⟨p', inside', rfl⟩ := List.mem_map.mp member'
      have labels := Label.splits (clean p.1 (List.mem_map_of_mem inside))
        (clean' p'.1 (List.mem_map_of_mem inside'))
      have values := reads p.2 (List.mem_map_of_mem inside) p'.2 (List.mem_map_of_mem inside') 0
        (Nat.zero_le 17)
      have signed := Splits.cons fun _ : sign = sign' => values.fixed [' ']
      refine (labels.before [' '] EndsName.of_blank signed).imp ?_
      rintro ⟨label, rfl, value⟩
      exact Prod.ext rfl (Prod.ext label value)
    · intro q r r' _ _ same
      refine Label.head?_ne (c := ' ') (by decide) q.2.1 ([' ', q.1, ' '] ++ letters q.2.2 ++ r') ?_
      rw [← List.append_assoc]
      exact congrArg List.head? same
  -- Neither list is empty, so the first fields tell the signs apart.
  refine (pieces.fixed ['\x7b', ' ']).imp fun same => ?_
  cases m with
  | nil => cases filled
  | cons l above e rest =>
    cases m' with
    | nil => cases filled'
    | cons l' above' e' rest' =>
      have signs := congrArg (fun l => l.head?.map Prod.fst) same
      have entries := congrArg (List.map Prod.snd) same
      simp only [List.map_map, Function.comp_def, List.map_id_fun'] at entries
      exact ⟨Option.some.inj signs, Entries.toList_inj.mp entries⟩

/-- Interpolated expressions, each with the text after it. -/
theorem splits_pieces {tail tail' : List (Expr × String)}
    (reads : ∀ p ∈ tail, ∀ p' ∈ tail', Reads 0 p.1 p'.1) :
    Splits (fun r => r.head? = some '"') (tail = tail') (tail.flatMap pieceLetters)
      (tail'.flatMap pieceLetters) := by
  refine splits_flatMap (G := fun r => r.head? = some '"' ∨ r.head? = some '$')
    (fun p member p' member' => ?_) (fun r => Or.inl) ?_ ?_
  · refine (((reads p member p' member').before ['\x7d'] (fun _ => .of_endRank rfl)
      (Text.splits_escape p.2 p'.2)).fixed _).imp ?_
    rintro ⟨same, same'⟩
    exact Prod.ext same same'
  · exact fun p r _ _ => Or.inr rfl
  · rintro p r r' - quote - rfl
    cases quote

/-- The alternatives of a union type. -/
theorem splits_alternatives {m m' : LabelMap (Option Expr)} (clean : ∀ l ∈ m.labels, l.Clean)
    (clean' : ∀ l ∈ m'.labels, l.Clean)
    (reads : ∀ o ∈ m.values, ∀ o' ∈ m'.values, ∀ t ∈ o, ∀ t' ∈ o', Reads 0 t t') :
    Splits F (m = m') (separated [' ', '|', ' '] alternativeLetters m.toList ++ [' ', '>'])
      (separated [' ', '|', ' '] alternativeLetters m'.toList ++ [' ', '>']) := by
  suffices entries : Splits F (m.toList = m'.toList) _ _ from entries.imp Entries.toList_inj.mp
  refine splits_separated (G := Closes 0) ?_ (fun _ => .of_endRank rfl)
    (fun _ => .of_endRank rfl) (fun _ _ => nofun) ?_
  · intro p inside p' inside'
    have labels := Label.splits (clean p.1 (List.mem_map_of_mem inside))
      (clean' p'.1 (List.mem_map_of_mem inside'))
    have types := splits_type (reads p.2 (List.mem_map_of_mem inside) p'.2
      (List.mem_map_of_mem inside'))
    have ends (type : Option Expr) (r : List Char) (ends : Closes 0 r) :
        EndsName (typeLetters 0 type ++ r) := (closes_typeLetters 0 type ends).endsName (by decide)
    exact (labels.append (fun _ => types) (ends p.2) (ends p'.2)).imp fun same =>
      Prod.ext same.1 same.2
  · intro p r r' _ _ same
    refine Label.head?_ne (c := ' ') (by decide) p.1 (typeLetters 0 p.2 ++ r') ?_
    rw [← List.append_assoc]
    exact congrArg List.head? same

/-- The items of a list. -/
theorem splits_items {items items' : List Expr} (legible : ∀ e ∈ items, Legible e)
    (legible' : ∀ e ∈ items', Legible e) (reads : ∀ e ∈ items, ∀ e' ∈ items', Reads 0 e e') :
    Splits F (items = items') (separated [',', ' '] letters items ++ [']'])
      (separated [',', ' '] letters items' ++ [']']) := by
  refine splits_separated (G := Closes 0) reads (fun _ => .of_endRank rfl)
    (fun _ => .of_endRank rfl) (fun _ _ => nofun) ?_
  intro e r r' member ends same
  have legible : Legible e := member.elim (legible e) (legible' e)
  exact head?_ne_bracket legible (ends.endsName (by decide)) (congrArg List.head? same)

end Expr

/-- The labels of a projection. -/
theorem splits_labels {m m' : LabelSet} (clean : ∀ l ∈ m.labels, l.Clean)
    (clean' : ∀ l ∈ m'.labels, l.Clean) :
    Splits F (m = m') (braced (·.render.toList) m.labels) (braced (·.render.toList) m'.labels) := by
  have pieces : Splits F (m.labels = m'.labels)
      (separated [',', ' '] (·.render.toList) m.labels ++ [' ', '\x7d'])
      (separated [',', ' '] (·.render.toList) m'.labels ++ [' ', '\x7d']) := by
    refine splits_separated (G := EndsName) ?_ (fun r => EndsName.of_blank _) ?_
      (fun _ _ => nofun) ?_
    · exact fun l member l' member' => Label.splits (clean l member) (clean' l' member')
    · exact fun r => (Closes.of_endRank rfl : Closes 0 _).endsName (by decide)
    · exact fun l r r' _ _ same => Label.head?_ne (by decide) l r' (congrArg List.head? same)
  refine (pieces.fixed ['\x7b', ' ']).imp fun same => Entries.eq_of_labels_values same ?_
  have values (m : LabelSet) : m.values = m.labels.map fun _ => () := by
    simp [Entries.values, Entries.labels]
  rw [values, values, same]

section Children

variable {c e : Expr} {type : Option Expr}

theorem mem_children_letIn {bs : List (Binding Expr)} {b : Binding Expr} {body : Expr}
    (member : b ∈ bs) (inside : c ∈ b.children) : c ∈ (Node.letIn bs body).children := by
  induction bs with
  | nil => cases member
  | cons first rest ih =>
    rw [Node.children_letIn_cons]
    rcases List.mem_cons.mp member with rfl | later
    · exact List.mem_append_left _ inside
    · exact List.mem_append_right _ (ih later)

theorem mem_children_letIn_body (bs : List (Binding Expr)) (body : Expr) :
    body ∈ (Node.letIn bs body).children := by
  simp [Node.children, Node.scopedChildren]

theorem mem_children_merge {e' : Expr} (member : c ∈ type) :
    c ∈ (Node.merge e e' type).children := by
  simp [Node.children, Node.scopedChildren, Option.mem_def.mp member]

theorem mem_children_toMap (member : c ∈ type) : c ∈ (Node.toMap e type).children := by
  simp [Node.children, Node.scopedChildren, Option.mem_def.mp member]

theorem mem_children_text {t : Text Expr} {p : Expr × String} (member : p ∈ t.tail) :
    p.1 ∈ (Node.text t).children := by
  simp [Node.children, Node.scopedChildren, Text.values]
  exact ⟨p.2, member⟩

theorem mem_children_list {items : List Expr} : c ∈ (Node.list items).children ↔ c ∈ items := by
  simp [Node.children, Node.scopedChildren]

theorem mem_children_union {m : LabelMap (Option Expr)} (member : type ∈ m.values)
    (inside : c ∈ type) : c ∈ (Node.union m).children := by
  rw [Option.mem_def.mp inside] at member
  simpa [Node.children, Node.scopedChildren] using member

end Children

/-- Before the second operand of a `merge` the first one ends. -/
theorem closes_argument {e : Expr} (legible : Expr.Legible e) {r : List Char} (ends : EndsName r) :
    Closes 16 ([' '] ++ (e.lettersAt 16 ++ r)) := by
  have atom := (Expr.begins legible 16 ends).2 (by decide)
  exact Nat.le_of_eq (if_pos atom)

/-- The two operands of a `merge` and its type. -/
theorem splits_merge {handlers handlers' variant variant' : Expr} {type type' : Option Expr}
    (legible : Expr.Legible variant) (legible' : Expr.Legible variant')
    (first : Reads 16 handlers handlers') (second : Reads 16 variant variant')
    (types : ∀ t ∈ type, ∀ t' ∈ type', Reads 15 t t') :
    Splits (Closes 0) (Node.merge handlers variant type = .merge handlers' variant' type')
      (Node.merge handlers variant type).layout (Node.merge handlers' variant' type').layout := by
  have typed := second.append (fun _ => Expr.splits_type types)
    (fun r ends => (Expr.closes_typeLetters 15 type ends).mono (by decide))
    fun r ends => (Expr.closes_typeLetters 15 type' ends).mono (by decide)
  have stop {variant : Expr} (legible : Expr.Legible variant) (type : Option Expr) (r : List Char)
      (ends : Closes 0 r) :
      Closes 16 ([' '] ++ (variant.lettersAt 16 ++ Expr.typeLetters 15 type) ++ r) := by
    rw [List.append_assoc, List.append_assoc]
    exact closes_argument legible ((Expr.closes_typeLetters 15 type ends).endsName (by decide))
  refine ((first.append (fun _ => typed.fixed [' ']) (stop legible type)
    (stop legible' type')).fixed _).imp ?_
  rintro ⟨rfl, rfl, rfl⟩
  rfl

/-- The operand of a `toMap` and its type. -/
theorem splits_toMap {e e' : Expr} {type type' : Option Expr} (contents : Reads 16 e e')
    (types : ∀ t ∈ type, ∀ t' ∈ type', Reads 15 t t') :
    Splits (Closes 0) (Node.toMap e type = .toMap e' type') (Node.toMap e type).layout
      (Node.toMap e' type').layout := by
  refine ((contents.append (fun _ => Expr.splits_type types)
    (fun r ends => (Expr.closes_typeLetters 15 type ends).mono (by decide))
    fun r ends => (Expr.closes_typeLetters 15 type' ends).mono (by decide)).fixed _).imp ?_
  rintro ⟨rfl, rfl⟩
  rfl

/-- Names end where nothing follows that can stand in a name. -/
theorem splits_name {w w' : WrittenName} (named : n.writtenName? = some w)
    (named' : n'.writtenName? = some w') (clean : ∀ l ∈ n.labels, l.Clean)
    (clean' : ∀ l ∈ n'.labels, l.Clean) : Splits (Closes 18) (n = n') n.layout n'.layout := by
  have formed {n : Node Expr} {w : WrittenName} (named : n.writtenName? = some w)
      (clean : ∀ l ∈ n.labels, l.Clean) : w.WellFormed := by
    refine Expr.wellFormed_of_writtenName? named fun v same => ?_
    rw [same] at clean
    exact clean v.label (.head _)
  rw [Node.layout_of_writtenName? named, Node.layout_of_writtenName? named']
  refine ((WrittenName.splits (formed named clean) (formed named' clean')).mono
    fun r ends => ?_).imp ?_
  · exact Closes.endsName ends (Nat.le_refl 18)
  · rintro rfl
    exact Expr.mk.inj ((Expr.ofName_writtenName? named).symm.trans
      (Expr.ofName_writtenName? named'))

/-- The digits of a number end where an atom ends. -/
theorem splits_digits (m m' : Nat) :
    Splits (Closes 18) (m = m') m.repr.toList m'.repr.toList :=
  (splits_repr m m').mono fun _ ends c first =>
    WrittenName.isDigit_eq_false (Closes.endsName ends (Nat.le_refl 18) c first).1

/-- An integer is written with a sign. -/
theorem splits_integer (i i' : Int64) :
    Splits (Closes 18) (i = i') (Node.integer i).layout (Node.integer i').layout := by
  have nonneg (i : Int64) : 0 ≤ i ↔ 0 ≤ i.toInt := Int64.le_iff_toInt_le
  refine (Splits.cons fun _ => splits_digits i.toInt.natAbs i'.toInt.natAbs).imp ?_
  rintro ⟨sign, magnitude⟩
  have signs : 0 ≤ i.toInt ↔ 0 ≤ i'.toInt := by
    rw [← nonneg, ← nonneg]
    by_cases positive : 0 ≤ i <;> by_cases positive' : 0 ≤ i' <;>
      simp [positive, positive'] at sign ⊢
  exact Int64.toInt_inj.mp (by omega)

/-- A literal ends at a quote, which is escaped inside it. -/
theorem splits_text {t t' : Text Expr} (reads : ∀ p ∈ t.tail, ∀ p' ∈ t'.tail, Reads 0 p.1 p'.1) :
    Splits F (t = t') (Node.text t).layout (Node.text t').layout := by
  have after (tail : List (Expr × String)) (r : List Char) (_ : F r) :
      (tail.flatMap Expr.pieceLetters ++ ['"'] ++ r).head? = some '"' ∨
        (tail.flatMap Expr.pieceLetters ++ ['"'] ++ r).head? = some '$' := by
    cases tail with
    | nil => exact Or.inl rfl
    | cons p tail => exact Or.inr rfl
  have pieces := (Expr.splits_pieces reads).closed ['"'] fun r (_ : F r) => rfl
  refine (((Text.splits_escape t.head t'.head).append (fun _ => pieces) (after t.tail)
    (after t'.tail)).fixed _).imp ?_
  rintro ⟨head, tail⟩
  cases t
  cases t'
  cases head
  cases tail
  rfl

/-- The rank of the places that end where a construct with this mark ends. -/
def Head.reach (head : Head) : Nat :=
  if head.isAtom then 18 else 0

/-- Constructs that begin with the same mark are told apart if their children are. -/
theorem Headed.splits {head : Head} (headed : Headed head n) (headed' : Headed head n')
    (legible : Expr.Legible (.mk n)) (legible' : Expr.Legible (.mk n')) (told : n.Told n') :
    Splits (Closes head.reach) (n = n') n.layout n'.layout := by
  obtain ⟨⟨-, clean⟩, parts⟩ := Expr.legible_mk.mp legible
  obtain ⟨⟨-, clean'⟩, parts'⟩ := Expr.legible_mk.mp legible'
  -- Constructs with the same mark are of the same kind, but for records and record types with
  -- fields. So each case lists the parts of one kind and what separates them.
  cases headed with
  | lam x domain body =>
    cases headed' with
    | lam x' domain' body' =>
      have labels := Label.splits (clean x (.head _)) (clean' x' (.head _))
      have domains : Reads 0 domain domain' := told _ (.head _) _ (.head _) 0 (by decide)
      have bodies : Reads 0 body body' :=
        told _ (.tail _ (.head _)) _ (.tail _ (.head _)) 0 (by decide)
      refine ((labels.before _ EndsName.of_blank
        (domains.before _ (fun _ => .of_endRank rfl) bodies)).fixed _).imp ?_
      rintro ⟨rfl, rfl, rfl⟩
      rfl
  | @pi x named domain codomain =>
    cases headed' with
    | @pi x' named' domain' codomain' =>
      have labels := Label.splits (clean x (.head _)) (clean' x' (.head _))
      have domains : Reads 0 domain domain' := told _ (.head _) _ (.head _) 0 (by decide)
      have codomains : Reads 0 codomain codomain' :=
        told _ (.tail _ (.head _)) _ (.tail _ (.head _)) 0 (by decide)
      rw [Node.layout, if_neg named, Node.layout, if_neg named']
      refine ((labels.before _ EndsName.of_blank
        (domains.before _ (fun _ => .of_endRank rfl) codomains)).fixed _).imp ?_
      rintro ⟨rfl, rfl, rfl⟩
      rfl
  | @letIn bindings filled body =>
    cases headed' with
    | @letIn bindings' filled' body' =>
      have bodies : Reads 0 body body' := told _ (mem_children_letIn_body _ _) _
        (mem_children_letIn_body _ _) 0 (by decide)
      have definitions := Expr.splits_bindings
        (fun b member => clean b.label (List.mem_map_of_mem member))
        (fun b member => clean' b.label (List.mem_map_of_mem member))
        fun b member c inside b' member' c' inside' => told c (mem_children_letIn member inside) c'
          (mem_children_letIn member' inside') 0 (by decide)
      refine (definitions.before ['i', 'n', ' '] (List.prefix_append _) bodies).imp ?_
      rintro ⟨rfl, rfl⟩
      rfl
  | assertion type =>
    cases headed' with
    | assertion type' =>
      have types : Reads 0 type type' := told _ (.head _) _ (.head _) 0 (by decide)
      exact (types.fixed _).imp (congrArg Node.assertion)
  | ifThenElse condition yes no =>
    cases headed' with
    | ifThenElse condition' yes' no' =>
      have conditions : Reads 0 condition condition' := told _ (.head _) _ (.head _) 0 (by decide)
      have first : Reads 0 yes yes' :=
        told _ (.tail _ (.head _)) _ (.tail _ (.head _)) 0 (by decide)
      have second : Reads 0 no no' :=
        told _ (.tail _ (.tail _ (.head _))) _ (.tail _ (.tail _ (.head _))) 0 (by decide)
      refine ((conditions.before _ (fun _ => .of_endRank rfl)
        (first.before _ (fun _ => .of_endRank rfl) second)).fixed _).imp ?_
      rintro ⟨rfl, rfl, rfl⟩
      rfl
  | emptyList type =>
    cases headed' with
    | emptyList type' =>
      have types : Reads 0 type type' := told _ (.head _) _ (.head _) 0 (by decide)
      exact (types.fixed _).imp (congrArg Node.emptyList)
  | present e =>
    cases headed' with
    | present e' =>
      have contents : Reads 16 e e' := told _ (.head _) _ (.head _) 16 (by decide)
      refine ((contents.mono fun r ends => ?_).fixed _).imp (congrArg Node.present)
      exact Closes.mono ends (by decide)
  | merge handlers variant type =>
    cases headed' with
    | merge handlers' variant' type' =>
      refine splits_merge (parts _ (.tail _ (.head _))) (parts' _ (.tail _ (.head _)))
        (told _ (.head _) _ (.head _) 16 (by decide))
        (told _ (.tail _ (.head _)) _ (.tail _ (.head _)) 16 (by decide)) ?_
      exact fun t member t' member' =>
        told t (mem_children_merge member) t' (mem_children_merge member') 15 (by decide)
  | toMap e type =>
    cases headed' with
    | toMap e' type' =>
      refine splits_toMap (told _ (.head _) _ (.head _) 16 (by decide)) ?_
      exact fun t member t' member' =>
        told t (mem_children_toMap member) t' (mem_children_toMap member') 15 (by decide)
  | name named =>
    cases headed' with
    | name named' => exact splits_name named named' clean clean'
  | natural m =>
    cases headed' with
    | natural m' =>
      exact (splits_digits m.toNat m'.toNat).imp fun same =>
        congrArg Node.natural (UInt64.toNat_inj.mp same)
  | integer i =>
    cases headed' with
    | integer i' => exact (splits_integer i i').imp (congrArg Node.integer)
  | text t =>
    cases headed' with
    | text t' =>
      refine (splits_text fun p member p' member' => ?_).imp (congrArg Node.text)
      exact told p.1 (mem_children_text member) p'.1 (mem_children_text member') 0 (by decide)
  | list filled =>
    cases headed' with
    | list filled' =>
      have items := Expr.splits_items (F := Closes 18)
        (fun e member => parts e (mem_children_list.mpr member))
        (fun e member => parts' e (mem_children_list.mpr member)) fun e member e' member' =>
          told e (mem_children_list.mpr member) e' (mem_children_list.mpr member') 0 (by decide)
      exact (items.fixed _).imp (congrArg Node.list)
  | emptyRecordType =>
    cases headed' with
    | emptyRecordType => exact (Splits.nil.fixed ['\x7b', '\x7d']).imp fun _ => rfl
  | emptyRecord =>
    cases headed' with
    | emptyRecord => exact (Splits.nil.fixed ['\x7b', '=', '\x7d']).imp fun _ => rfl
  -- A record and a record type begin alike, and what follows their first label differs.
  | @recordType m filled =>
    rw [Node.layout, if_neg (ne_true_of_eq_false filled)]
    cases headed' with
    | @recordType m' filled' =>
      rw [Node.Told, Node.children_recordType, Node.children_recordType] at told
      rw [Node.layout, if_neg (ne_true_of_eq_false filled')]
      exact (Expr.splits_fields filled filled' clean clean' told).imp fun same =>
        congrArg Node.recordType same.2
    | @record m' filled' =>
      rw [Node.Told, Node.children_recordType, Node.children_record] at told
      rw [Node.layout, if_neg (ne_true_of_eq_false filled')]
      exact (Expr.splits_fields filled filled' clean clean' told).imp fun same =>
        absurd same.1 (by decide)
  | @record m filled =>
    rw [Node.layout, if_neg (ne_true_of_eq_false filled)]
    cases headed' with
    | @recordType m' filled' =>
      rw [Node.Told, Node.children_record, Node.children_recordType] at told
      rw [Node.layout, if_neg (ne_true_of_eq_false filled')]
      exact (Expr.splits_fields filled filled' clean clean' told).imp fun same =>
        absurd same.1 (by decide)
    | @record m' filled' =>
      rw [Node.Told, Node.children_record, Node.children_record] at told
      rw [Node.layout, if_neg (ne_true_of_eq_false filled')]
      exact (Expr.splits_fields filled filled' clean clean' told).imp fun same =>
        congrArg Node.record same.2
  | union m =>
    cases headed' with
    | union m' =>
      have alternatives := Expr.splits_alternatives (F := Closes 18) clean clean'
        fun o member o' member' t inside t' inside' => told t (mem_children_union member inside) t'
          (mem_children_union member' inside') 0 (by decide)
      exact (alternatives.fixed _).imp (congrArg Node.union)

/-- Constructs with marks of their own are told apart, since the first characters tell which
marks these are. -/
theorem Headed.splits_layout {head head' : Head} (headed : Headed head n)
    (headed' : Headed head' n') (legible : Expr.Legible (.mk n)) (legible' : Expr.Legible (.mk n'))
    (told : n.Told n') : Splits (Closes head.reach) (n = n') n.layout n'.layout := by
  have place : head.reach ≤ 18 := by cases head <;> decide
  intro r r' ends ends' equal
  have heads := congrArg Head.ofLetters equal
  rw [headed.ofLetters_layout legible (ends.endsName place),
    headed'.ofLetters_layout legible' (ends'.endsName place)] at heads
  subst heads
  exact headed.splits headed' legible legible' told r r' ends ends' equal

end Dhall

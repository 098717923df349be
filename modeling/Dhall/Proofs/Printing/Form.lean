/-
# The forms of constructs

A construct begins with a mark of its own, or it begins with an expression and goes on with a
suffix: an operand, an argument, or what follows a dot. Annotations and arrows begin with an
expression as well, but nothing can stand after them without parentheses. In each of these
forms the first characters tell which kind of expression it is.

## Main definitions

* `Node.Legible`, `Expr.Legible` — what can be read again
* `Headed` — constructs with a mark of their own
* `Suffix`, `Tail` — what goes on after an expression

## Main results

* `Expr.legible_leftNested` — regrouping keeps expressions legible
* `Node.form` — every legible construct has one of the forms
* `Expr.begins` — what an expression begins with in a place
* `Suffix.endRank_letters` — where an expression ends before a suffix
-/

import Dhall.Proofs.Printing.Boundary
import Dhall.Proofs.Printing.Layout

namespace Dhall

/-! ### Legible expressions -/

namespace Node

/-- The labels that a construct writes. -/
def labels {α : Type} : Node α → List Label
  | var v => [v.label]
  | lam x _ _ | pi x _ _ => [x]
  | letIn bindings _ => bindings.map Binding.label
  | recordType fields | record fields => fields.labels
  | union alternatives => alternatives.labels
  | field _ l => [l]
  | project _ labels => labels.labels
  | _ => []

/-- Whether the construct is no import, no floating-point number, no `let` without definitions
and no list that states neither a type nor items. -/
def isReadable {α : Type} : Node α → Bool
  | embed _ | double _ | letIn [] _ | list [] => false
  | _ => true

/-- The construct is readable, and its labels have no backtick. -/
def Legible {α : Type} (n : Node α) : Prop :=
  n.isReadable ∧ ∀ l ∈ n.labels, l.Clean

theorem legible_map {α β : Type} (f : α → β) (n : Node α) : (n.map f).Legible ↔ n.Legible := by
  have labels : (n.map f).labels = n.labels := by
    cases n <;> simp [map, Node.labels]
  have readable : (n.map f).isReadable = n.isReadable := by
    cases n with
    | letIn bindings body => cases bindings <;> rfl
    | list items => cases items <;> rfl
    | _ => rfl
  rw [Legible, Legible, labels, readable]

end Node

namespace Expr

/-- Every construct in the expression can be read again. -/
def Legible (e : Expr) : Prop :=
  Everywhere (fun s => s.node.Legible) e

theorem legible_mk {n : Node Expr} : Legible (mk n) ↔ n.Legible ∧ ∀ c ∈ n.children, Legible c :=
  everywhere_mk

theorem legible_op {o : Operator} {x y : Expr} : Legible (op o x y) ↔ Legible x ∧ Legible y := by
  have operation : (Node.op o x y).Legible := ⟨rfl, nofun⟩
  rw [legible_mk]
  constructor
  · rintro ⟨-, parts⟩
    exact ⟨parts x (.head _), parts y (.tail _ (.head _))⟩
  · rintro ⟨left, right⟩
    exact ⟨operation, List.forall_mem_cons.mpr ⟨left, List.forall_mem_singleton.mpr right⟩⟩

theorem legible_regroup {o : Operator} {x y : Expr} (left : Legible x) (right : Legible y) :
    Legible (regroup o x y) := by
  induction y using regroup.induct o with
  | case1 y z ih =>
    obtain ⟨first, second⟩ := legible_op.mp right
    rw [regroup, if_pos rfl]
    exact legible_op.mpr ⟨ih first, second⟩
  | case2 p y z other =>
    rw [regroup, if_neg other]
    exact legible_op.mpr ⟨left, right⟩
  | case3 y other =>
    rw [regroup_of_ne (other o)]
    exact legible_op.mpr ⟨left, right⟩

/-- Regrouping keeps expressions legible. -/
theorem legible_leftNested {e : Expr} (h : Legible e) : Legible e.leftNested := by
  induction e using induction with
  | step n ih =>
    have parts (c : Expr) (member : c ∈ (n.map leftNested).children) : Legible c := by
      rw [Node.children_map] at member
      obtain ⟨c, inside, rfl⟩ := List.mem_map.mp member
      exact ih c inside (h.child inside)
    rw [leftNested_mk]
    split
    · next o x y same =>
      rw [same] at parts
      exact legible_regroup (parts x (.head _)) (parts y (.tail _ (.head _)))
    · exact legible_mk.mpr ⟨(Node.legible_map _ n).mpr h.here, parts⟩

end Expr

/-! ### Constructs with a mark of their own -/

/-- A construct that begins with a mark of its own. -/
inductive Headed : Head → Node Expr → Prop
  | lam (x : Label) (domain body : Expr) : Headed .lam (.lam x domain body)
  | pi {x : Label} (named : x ≠ Label.placeholder) (domain codomain : Expr) :
    Headed .pi (.pi x domain codomain)
  | letIn {bindings : List (Binding Expr)} (filled : bindings ≠ []) (body : Expr) :
    Headed .letIn (.letIn bindings body)
  | assertion (type : Expr) : Headed .assertion (.assertion type)
  | ifThenElse (condition yes no : Expr) : Headed .ifThenElse (.ifThenElse condition yes no)
  | emptyList (type : Expr) : Headed .emptyList (.emptyList type)
  | present (e : Expr) : Headed .present (.present e)
  | merge (handlers variant : Expr) (type : Option Expr) :
    Headed .merge (.merge handlers variant type)
  | toMap (e : Expr) (type : Option Expr) : Headed .toMap (.toMap e type)
  | name {n : Node Expr} {w : WrittenName} (named : n.writtenName? = some w) : Headed .name n
  | natural (n : UInt64) : Headed .natural (.natural n)
  | integer (i : Int64) : Headed .integer (.integer i)
  | text (t : Text Expr) : Headed .text (.text t)
  | list {items : List Expr} (filled : items ≠ []) : Headed .list (.list items)
  | emptyRecordType : Headed .emptyRecordType (.recordType .nil)
  | emptyRecord : Headed .emptyRecord (.record .nil)
  | recordType {m : LabelMap Expr} (filled : m.isEmpty = false) : Headed .fields (.recordType m)
  | record {m : LabelMap Expr} (filled : m.isEmpty = false) : Headed .fields (.record m)
  | union (alternatives : LabelMap (Option Expr)) : Headed .union (.union alternatives)

/-! ### Constructs that begin with an expression -/

/-- What goes on after an expression and binds more tightly than annotations and arrows. -/
inductive Suffix
  | operand (o : Operator) (right : Expr)
  | argument (e : Expr)
  | field (l : Label)
  | project (labels : LabelSet)
  | projectType (type : Expr)

namespace Suffix

/-- The construct that the suffix makes of an expression. -/
def attach : Suffix → Expr → Node Expr
  | operand o right, e => .op o e right
  | argument a, e => .app e a
  | field l, e => .field e l
  | project labels, e => .project e labels
  | projectType type, e => .projectType e type

/-- The rank of the place before the suffix, and of the construct. -/
def rank : Suffix → Nat
  | operand o _ => 2 + o.rank
  | argument _ => 15
  | field _ | project _ | projectType _ => 17

/-- The characters of the suffix. -/
def letters : Suffix → List Char
  | operand o right =>
    [' '] ++ (o.render.toList ++ ([' '] ++ Expr.lettersAt (2 + o.rank) right))
  | argument e => [' '] ++ Expr.lettersAt 16 e
  | field l => ['.'] ++ l.render.toList
  | project labels => ['.'] ++ braced (·.render.toList) labels.labels
  | projectType type => ['.', '('] ++ (Expr.letters type ++ [')'])

theorem layout_attach (s : Suffix) (e : Expr) :
    (s.attach e).layout = Expr.lettersAt s.rank e ++ s.letters := by
  cases s <;> rfl

theorem precedence_attach (s : Suffix) (e : Expr) : (s.attach e).precedence.rank = s.rank := by
  cases s <;> rfl

end Suffix

/-- What goes on after an expression and ends the whole expression. -/
inductive Tail
  | colon (type : Expr)
  | arrow (codomain : Expr)

namespace Tail

/-- The construct that the tail makes of an expression. -/
def attach : Tail → Expr → Node Expr
  | colon type, e => .annot e type
  | arrow codomain, e => .pi Label.placeholder e codomain

/-- The characters of the tail. -/
def letters : Tail → List Char
  | colon type => [' ', ':', ' '] ++ Expr.letters type
  | arrow codomain => [' ', '→', ' '] ++ Expr.letters codomain

theorem layout_attach (t : Tail) (e : Expr) :
    (t.attach e).layout = Expr.lettersAt 1 e ++ t.letters := by
  cases t with
  | colon type => rfl
  | arrow codomain =>
    rw [attach, Node.layout, if_pos rfl, letters]

end Tail

theorem Tail.precedence_attach (t : Tail) (e : Expr) : (t.attach e).precedence.rank = 0 := by
  cases t <;> rfl

/-- The form of a construct. -/
inductive Node.Form : Node Expr → Prop
  | headed {head : Head} {n : Node Expr} (h : Headed head n) : Form n
  | suffixed (s : Suffix) (e : Expr) : Form (s.attach e)
  | tailed (t : Tail) (e : Expr) : Form (t.attach e)

/-- Every legible construct has one of the forms. -/
theorem Node.form {n : Node Expr} (legible : n.Legible) : n.Form := by
  cases n with
  | const c => exact .headed (.name rfl)
  | var v => exact .headed (.name rfl)
  | builtin b => exact .headed (.name rfl)
  | bool b => exact .headed (.name rfl)
  | lam x domain body => exact .headed (.lam x domain body)
  | pi x domain codomain =>
    -- An arrow has its domain in front, and a function type with a name begins with a mark.
    by_cases anonymous : x = Label.placeholder
    · rw [anonymous]
      exact .tailed (.arrow codomain) domain
    · exact .headed (.pi anonymous domain codomain)
  | app function argument => exact .suffixed (.argument argument) function
  | letIn bindings body =>
    refine .headed (.letIn ?_ body)
    rintro rfl
    cases legible.1
  | annot e type => exact .tailed (.colon type) e
  | assertion type => exact .headed (.assertion type)
  | op o left right => exact .suffixed (.operand o right) left
  | ifThenElse condition yes no => exact .headed (.ifThenElse condition yes no)
  | natural n => exact .headed (.natural n)
  | integer i => exact .headed (.integer i)
  -- Numbers with a fraction and imports are not legible.
  | double d => cases legible.1
  | text t => exact .headed (.text t)
  | emptyList type => exact .headed (.emptyList type)
  | list items =>
    refine .headed (.list ?_)
    rintro rfl
    cases legible.1
  | present e => exact .headed (.present e)
  | recordType m =>
    cases m with
    | nil => exact .headed .emptyRecordType
    | cons l above e rest => exact .headed (.recordType rfl)
  | record m =>
    cases m with
    | nil => exact .headed .emptyRecord
    | cons l above e rest => exact .headed (.record rfl)
  | union alternatives => exact .headed (.union alternatives)
  | merge handlers variant type => exact .headed (.merge handlers variant type)
  | toMap e type => exact .headed (.toMap e type)
  | field e l => exact .suffixed (.field l) e
  | project e labels => exact .suffixed (.project labels) e
  | projectType e type => exact .suffixed (.projectType type) e
  | embed i => cases legible.1

/-! ### What expressions begin with -/

/-- What is written as a name. -/
theorem Node.layout_of_writtenName? {n : Node Expr} {w : WrittenName}
    (h : n.writtenName? = some w) : n.layout = w.letters := by
  cases n with
  | const c =>
    cases h
    cases c <;> rfl
  | bool b =>
    cases h
    cases b <;> rfl
  | builtin b =>
    cases h
    cases b <;> rfl
  | var v =>
    cases h
    rw [WrittenName.letters, ← Label.toList_render, WrittenName.indexLetters]
    change v.render.toList = _
    rw [Variable.render]
    split
    · exact (List.append_nil _).symm
    · rw [String.toList_append, String.toList_append, List.append_assoc]
      rfl
  | _ => cases h

/-- Unquoted names are no words with which other constructs begin. -/
theorem Head.ofWord_writtenName? {n : Node Expr} {w : WrittenName} (h : n.writtenName? = some w)
    (unquoted : w.quoted = false) : Head.ofWord w.name = .name := by
  cases n with
  | const c =>
    cases h
    cases c <;> exact rfl
  | bool b =>
    cases h
    cases b <;> exact rfl
  | builtin b =>
    cases h
    cases b <;> exact rfl
  | var v =>
    cases h
    obtain ⟨words, -⟩ := Label.not_reserved_of_unquoted unquoted
    simp [ofWord, words "let" (by decide), words "assert" (by decide), words "if" (by decide),
      words "Some" (by decide), words "merge" (by decide), words "toMap" (by decide),
      words "in" (by decide), words "then" (by decide), words "else" (by decide)]
  | _ => cases h

theorem Head.ofLetters_digit {d : Char} (digit : d.isDigit) (r : List Char) :
    ofLetters (d :: r) = .natural := by
  rw [ofLetters, if_neg (ne_true_of_eq_false (isLetter_eq_false digit)), if_pos digit]

theorem Head.ofLetters_name {n : Node Expr} {w : WrittenName} (h : n.writtenName? = some w)
    (formed : w.WellFormed) {r : List Char} (ends : EndsName r) :
    ofLetters (w.letters ++ r) = .name := by
  rw [WrittenName.letters, List.append_assoc]
  cases quoted : w.quoted with
  | true =>
    rw [WrittenName.nameLetters, if_pos quoted]
    rfl
  | false =>
    obtain ⟨c, rest, chars, first, -⟩ := Label.isSimple_iff.mp (formed.unquoted quoted)
    have word : (w.name.toList ++ (w.indexLetters ++ r)).takeWhile isNameChar = w.name.toList :=
      takeWhile_run (Label.isNameChar_of_isSimple (formed.unquoted quoted))
        (WrittenName.stop_indexLetters ends)
    rw [WrittenName.nameLetters, if_neg (ne_true_of_eq_false quoted)]
    have begins : w.name.toList ++ (w.indexLetters ++ r) =
        c :: (rest ++ (w.indexLetters ++ r)) := by
      rw [chars, List.cons_append]
    rw [begins, ofLetters, if_pos first, ← begins, word, String.ofList_toList]
    exact ofWord_writtenName? h quoted

theorem Headed.ofLetters {head : Head} {n : Node Expr} (headed : Headed head n)
    (legible : n.Legible)
    (items : ∀ c ∈ n.children, ∀ r, EndsName r → (Expr.letters c ++ r).head? ≠ some ']')
    {r : List Char} (ends : EndsName r) : Head.ofLetters (n.layout ++ r) = head := by
  cases headed with
  | letIn filled body =>
    obtain ⟨b, bindings, rfl⟩ := List.exists_cons_of_ne_nil filled
    rfl
  | pi named domain codomain =>
    rw [Node.layout, if_neg named]
    rfl
  | @name n w named =>
    have formed : w.WellFormed := Expr.wellFormed_of_writtenName? named fun v same =>
      legible.2 v.label (by rw [same]; exact .head _)
    rw [Node.layout_of_writtenName? named]
    exact Head.ofLetters_name named formed ends
  | natural n =>
    obtain ⟨d, rest, digits, digit⟩ := exists_digit n.toNat
    rw [Node.layout, digits]
    exact Head.ofLetters_digit digit _
  | integer i =>
    obtain ⟨d, rest, digits, digit⟩ := exists_digit i.toInt.natAbs
    have signed : (if (some d).any Char.isDigit then Head.integer else .other) = .integer :=
      if_pos digit
    rw [Node.layout, digits]
    by_cases plus : 0 ≤ i
    · rw [if_pos plus]
      exact signed
    · rw [if_neg plus]
      exact signed
  | list filled =>
    obtain ⟨e, others, rfl⟩ := List.exists_cons_of_ne_nil filled
    rw [Node.layout, separated]
    simp only [List.append_assoc, List.cons_append, List.nil_append]
    refine if_neg (items e (.head _) _ ?_)
    -- The first item is followed by a comma or by the end of the list.
    cases others with
    | nil => exact fun c first => by cases first; exact ⟨rfl, by decide⟩
    | cons e' others => exact fun c first => by cases first; exact ⟨rfl, by decide⟩
  | @recordType m filled =>
    cases m with
    | nil => cases filled
    | cons l above e rest => rfl
  | @record m filled =>
    cases m with
    | nil => cases filled
    | cons l above e rest => rfl
  | _ => rfl

/-- Only atoms stand in all places without parentheses, and other constructs with a mark of their
own stand in the loosest one alone. -/
theorem Headed.rank_precedence {head : Head} {n : Node Expr} (headed : Headed head n) :
    n.precedence.rank = if head.isAtom then 17 else 0 := by
  cases headed with
  | @name n w named => cases n <;> first | rfl | cases named
  | _ => rfl

theorem Headed.ne_other {head : Head} {n : Node Expr} (headed : Headed head n) :
    head ≠ .other := by
  rintro rfl
  cases headed

theorem Operator.rank_lt (o : Operator) : o.rank < 13 := by
  cases o <;> decide

namespace Suffix

theorem rank_pos (s : Suffix) : 0 < s.rank := by
  cases s with
  | operand o right => exact Nat.add_pos_left Nat.two_pos _
  | _ => exact Nat.succ_pos _

theorem rank_le (s : Suffix) : s.rank ≤ 17 := by
  cases s with
  | operand o right =>
    exact Nat.le_trans (Nat.le_of_lt (Nat.add_lt_add_left o.rank_lt 2)) (by decide)
  | argument e => exact Nat.le_succ_of_le (Nat.le_succ 15)
  | _ => exact Nat.le_refl 17

theorem endsName_letters (s : Suffix) (r : List Char) : EndsName (s.letters ++ r) := by
  intro c first
  cases s <;>
    · cases first
      exact ⟨rfl, by decide⟩

theorem mem_children_attach (s : Suffix) (e : Expr) : e ∈ (s.attach e).children := by
  cases s <;> exact .head _

end Suffix

namespace Tail

theorem endsName_letters (t : Tail) (r : List Char) : EndsName (t.letters ++ r) := by
  intro c first
  cases t <;>
    · cases first
      exact ⟨rfl, by decide⟩

theorem mem_children_attach (t : Tail) (e : Expr) : e ∈ (t.attach e).children := by
  cases t <;> exact .head _

end Tail

namespace Expr

/-- The first characters of an expression tell that it is one, and in all places but the loosest
also that it is an atom. -/
theorem begins {e : Expr} (legible : Legible e) (k : Nat) {r : List Char} (ends : EndsName r) :
    Head.ofLetters (lettersAt k e ++ r) ≠ .other ∧
      (0 < k → (Head.ofLetters (lettersAt k e ++ r)).isAtom) := by
  induction e using induction generalizing k r with
  | step n ih =>
    obtain ⟨readable, parts⟩ := legible_mk.mp legible
    -- Parentheses around the construct are what it begins with.
    by_cases loose : n.precedence.rank < k
    · rw [lettersAt_of_lt loose]
      exact ⟨nofun, fun _ => rfl⟩
    · rw [lettersAt_of_le (Nat.le_of_not_lt loose)]
      cases Node.form readable with
      | @headed head _ headed =>
        rw [headed.ofLetters readable ?_ ends]
        · refine ⟨headed.ne_other, fun positive => ?_⟩
          cases atom : head.isAtom with
          | true => rfl
          | false =>
            have rank : n.precedence.rank = 0 := by rw [headed.rank_precedence, atom]; rfl
            exact (loose (rank ▸ positive)).elim
        · intro c member r ends bracket
          obtain ⟨rest, closing⟩ := List.head?_eq_some_iff.mp bracket
          exact (ih c member (parts c member) 0 ends).1 (closing ▸ rfl)
      -- What has a suffix or a tail begins as the expression in front of it.
      | suffixed s e =>
        have first := (ih e (s.mem_children_attach e) (parts e (s.mem_children_attach e)) s.rank
          (s.endsName_letters r)).2 s.rank_pos
        rw [s.layout_attach, List.append_assoc]
        refine ⟨fun same => ?_, fun _ => first⟩
        rw [same] at first
        cases first
      | tailed t e =>
        have first := (ih e (t.mem_children_attach e) (parts e (t.mem_children_attach e)) 1
          (t.endsName_letters r)).2 Nat.one_pos
        rw [t.layout_attach, List.append_assoc]
        refine ⟨fun same => ?_, fun _ => first⟩
        rw [same] at first
        cases first

/-- No expression begins like the end of a list. -/
theorem head?_ne_bracket {e : Expr} (legible : Legible e) {r : List Char} (ends : EndsName r) :
    (letters e ++ r).head? ≠ some ']' := by
  intro bracket
  obtain ⟨rest, closing⟩ := List.head?_eq_some_iff.mp bracket
  exact (begins legible 0 ends).1 (closing ▸ rfl)

end Expr

/-- The first characters of a construct with a mark of its own tell which mark it is. -/
theorem Headed.ofLetters_layout {head : Head} {n : Node Expr} (headed : Headed head n)
    (legible : Expr.Legible (.mk n)) {r : List Char} (ends : EndsName r) :
    Head.ofLetters (n.layout ++ r) = head :=
  headed.ofLetters legible.here
    (fun _ member _ ends => Expr.head?_ne_bracket (legible.child member) ends) ends

/-- Where an expression ends before a suffix. -/
theorem Suffix.endRank_letters {s : Suffix} {e : Expr}
    (legible : ∀ c ∈ (s.attach e).children, Expr.Legible c) {r : List Char} (ends : EndsName r) :
    endRank (s.letters ++ r) = s.rank + 1 := by
  cases s with
  | operand o right => cases o <;> rfl
  | argument a => exact if_pos ((Expr.begins (legible a (.tail _ (.head _))) 16 ends).2 (by decide))
  | _ => rfl

end Dhall

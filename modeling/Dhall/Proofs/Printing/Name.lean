/-
# Written names

Constants, truth values, built-in names and variables are all written as a name, and so are
labels. A name is quoted if it would be read as something else, and the name of a variable may
be followed by an index. Where a name ends is seen from the characters alone, and what it names
is known from the name, the quotes and the index together.

## Main definitions

* `WrittenName` — a name with its quotes and its index
* `Node.writtenName?`, `Expr.ofName` — the written name of a construct, and what it names

## Main results

* `WrittenName.splits` — where a name ends
* `Label.splits` — where a label ends
* `Expr.ofName_writtenName?` — the construct is known from its written name
-/

import Dhall.Expr.Render
import Dhall.Proofs.Printing.Splitting

namespace Dhall

/-- Whether a character can stand in an unquoted name. -/
def isNameChar (c : Char) : Bool :=
  c.isAlphanum || c = '_' || c = '-' || c = '/'

/-- No unquoted name begins with a digit. -/
theorem isLetter_eq_false {d : Char} (digit : d.isDigit) : (d.isAlpha || d = '_') = false := by
  have upper : d.isUpper = decide (65 ≤ d.val ∧ d.val ≤ 90) := rfl
  have lower : d.isLower = (decide (97 ≤ d.val) && decide (d.val ≤ 122)) := rfl
  have alpha : d.isAlpha = (d.isUpper || d.isLower) := rfl
  simp [Char.isDigit, alpha, upper, lower, UInt32.le_iff_toNat_le, Char.ext_iff,
    ← UInt32.toNat_inj] at *
  omega

/-- Neither a name nor its index goes on with the text. -/
def EndsName (r : List Char) : Prop :=
  ∀ c ∈ r.head?, isNameChar c = false ∧ c ≠ '@'

namespace Label

/-- The label has no backtick, so that quotes around it can be told from its characters. -/
def Clean (l : Label) : Prop :=
  '\x60' ∉ l.name.toList

instance (l : Label) : Decidable l.Clean :=
  inferInstanceAs (Decidable (_ ∉ _))

/-- Whether the label is written in quotes. -/
def isQuoted (l : Label) : Bool :=
  !(l.isSimple && !l.isReserved)

theorem isSimple_iff {l : Label} : l.isSimple ↔
    ∃ c rest, l.name.toList = c :: rest ∧ (c.isAlpha || c = '_') ∧ ∀ c ∈ rest, isNameChar c := by
  unfold isSimple
  cases l.name.toList with
  | nil => simp
  | cons c rest => simp [isNameChar, and_assoc]

theorem isSimple_of_unquoted {l : Label} (unquoted : l.isQuoted = false) : l.isSimple := by
  rw [isQuoted, Bool.not_eq_false', Bool.and_eq_true] at unquoted
  exact unquoted.1

/-- An unquoted label is neither a keyword nor a built-in name. -/
theorem not_reserved_of_unquoted {l : Label} (unquoted : l.isQuoted = false) :
    (∀ word ∈ keywords, l.name ≠ word) ∧ Builtin.ofName? l.name = none := by
  simp only [isQuoted, Bool.not_eq_false', Bool.and_eq_true, Bool.not_eq_true'] at unquoted
  obtain ⟨words, builtins⟩ := Bool.or_eq_false_iff.mp unquoted.2
  refine ⟨?_, Option.isNone_iff_eq_none.mp (Option.isSome_eq_false_iff.mp builtins)⟩
  rintro word keyword rfl
  rw [List.contains_iff_mem.mpr keyword] at words
  cases words

/-- All characters of an unquoted name can stand in one. -/
theorem isNameChar_of_isSimple {l : Label} (simple : l.isSimple) :
    ∀ c ∈ l.name.toList, isNameChar c := by
  obtain ⟨c, rest, chars, first, others⟩ := isSimple_iff.mp simple
  rw [chars]
  refine List.forall_mem_cons.mpr ⟨?_, others⟩
  rcases Bool.or_eq_true_iff.mp first with letter | underscore
  · simp [isNameChar, Char.isAlphanum, letter]
  · simp [isNameChar, of_decide_eq_true underscore]

end Label

/-- A name as it is written. -/
structure WrittenName where
  /-- Whether the name stands in quotes. -/
  quoted : Bool
  /-- The characters of the name. -/
  name : String
  /-- The index, which is left out if it is zero. -/
  index : UInt64

namespace WrittenName

/-- The name, in its quotes if it has any. -/
def nameLetters (w : WrittenName) : List Char :=
  if w.quoted then '\x60' :: w.name.toList ++ ['\x60'] else w.name.toList

/-- The index, with the sign that separates it from the name. -/
def indexLetters (w : WrittenName) : List Char :=
  if w.index = 0 then [] else '@' :: w.index.toNat.repr.toList

/-- The characters of the name and of the index. -/
def letters (w : WrittenName) : List Char :=
  w.nameLetters ++ w.indexLetters

/-- The characters can stand in a name of this kind. -/
def WellFormed (w : WrittenName) : Prop :=
  if w.quoted then Label.Clean ⟨w.name⟩ else Label.isSimple ⟨w.name⟩

variable {w w' : WrittenName}

/-- An unquoted name begins with a letter or an underscore. -/
theorem WellFormed.unquoted (h : w.WellFormed) (unquoted : w.quoted = false) :
    Label.isSimple ⟨w.name⟩ := by
  rwa [WellFormed, unquoted] at h

/-- A name ends where something follows that cannot stand in it. -/
theorem splits_nameLetters (h : w.WellFormed) (h' : w'.WellFormed) :
    Splits (fun r => ∀ c ∈ r.head?, isNameChar c = false)
      (w.quoted = w'.quoted ∧ w.name = w'.name) w.nameLetters w'.nameLetters := by
  -- A quote cannot stand in an unquoted name, so names of different kinds begin differently.
  have apart {w w' : WrittenName} (h' : w'.WellFormed) (quoted : w.quoted = true)
      (unquoted : w'.quoted = false) (r r' : List Char) :
      (w.nameLetters ++ r).head? ≠ (w'.nameLetters ++ r').head? := by
    obtain ⟨c, rest, chars, first, -⟩ := Label.isSimple_iff.mp (h'.unquoted unquoted)
    simp only [nameLetters, quoted, unquoted, chars, if_true, Bool.false_eq_true, if_false,
      List.cons_append, List.head?_cons]
    intro same
    cases same
    exact Bool.false_ne_true first
  cases quoted : w.quoted with
  | true =>
    cases quoted' : w'.quoted with
    | true =>
      have plain (w : WrittenName) (h : w.WellFormed) (quoted : w.quoted = true) :
          ∀ c ∈ w.name.toList, (c != '\x60') = true := by
        rw [WellFormed, if_pos quoted] at h
        exact fun c member => bne_iff_ne.mpr fun same => h (same ▸ member)
      rw [nameLetters, nameLetters, if_pos quoted, if_pos quoted']
      refine (Splits.fixed ['\x60'] ((splits_run (plain w h quoted)
        (plain w' h' quoted')).append (fun _ => Splits.fixed ['\x60'] Splits.nil) ?_ ?_)).imp ?_
      · simp
      · simp
      · exact fun same => ⟨rfl, String.toList_inj.mp same.1⟩
    | false => exact .of_head_ne fun r r' _ _ => apart h' quoted quoted' r r'
  | false =>
    cases quoted' : w'.quoted with
    | true => exact .of_head_ne fun r r' _ _ => (apart h quoted' quoted r' r).symm
    | false =>
      have simple := Label.isNameChar_of_isSimple (h.unquoted quoted)
      have simple' := Label.isNameChar_of_isSimple (h'.unquoted quoted')
      rw [nameLetters, nameLetters, quoted, quoted']
      exact (splits_run simple simple').imp fun same => ⟨rfl, String.toList_inj.mp same⟩

theorem isDigit_eq_false {c : Char} (h : isNameChar c = false) : c.isDigit = false := by
  cases digit : c.isDigit with
  | true => simp [isNameChar, Char.isAlphanum, digit] at h
  | false => rfl

/-- An index ends where no digit follows, and one that is left out is followed by no sign. -/
theorem splits_indexLetters (w w' : WrittenName) :
    Splits EndsName (w.index = w'.index) w.indexLetters w'.indexLetters := by
  have written {w : WrittenName} (nonzero : ¬w.index = 0) :
      w.indexLetters = '@' :: w.index.toNat.repr.toList := if_neg nonzero
  have leftOut {w : WrittenName} (zero : w.index = 0) : w.indexLetters = [] := if_pos zero
  have apart {r r' : List Char} (stop : EndsName r) : r.head? ≠ ('@' :: r').head? :=
    fun same => (stop '@' same).2 rfl
  by_cases zero : w.index = 0
  · by_cases zero' : w'.index = 0
    · rw [leftOut zero, leftOut zero']
      exact Splits.nil.imp fun _ => zero.trans zero'.symm
    · rw [leftOut zero, written zero']
      exact .of_head_ne fun r r' hr _ => apart hr
  · by_cases zero' : w'.index = 0
    · rw [written zero, leftOut zero']
      exact .of_head_ne fun r r' _ hr' => (apart hr').symm
    · rw [written zero, written zero']
      refine Splits.fixed ['@'] (((splits_repr _ _).mono fun r stop c member => ?_).imp ?_)
      · exact isDigit_eq_false (stop c member).1
      · exact fun same => UInt64.toNat_inj.mp same

/-- The name itself ends where its index begins. -/
theorem stop_indexLetters {r : List Char} (ends : EndsName r) :
    ∀ c ∈ (w.indexLetters ++ r).head?, isNameChar c = false := by
  unfold indexLetters
  split
  · exact fun c member => (ends c member).1
  · intro c member
    cases member
    rfl

/-- A name with its index ends where neither goes on. -/
theorem splits (h : w.WellFormed) (h' : w'.WellFormed) :
    Splits EndsName (w = w') w.letters w'.letters := by
  refine ((splits_nameLetters h h').append (fun _ => splits_indexLetters w w')
    (fun _ => stop_indexLetters) fun _ => stop_indexLetters).imp ?_
  rintro ⟨⟨quoted, name⟩, index⟩
  cases w
  cases w'
  cases quoted
  cases name
  cases index
  rfl

end WrittenName

namespace Label

/-- The written name of a label. -/
def writtenName (l : Label) : WrittenName :=
  ⟨l.isQuoted, l.name, 0⟩

/-- A label is written like the name of a variable, whatever its index. -/
theorem toList_render (l : Label) (index : UInt64) :
    l.render.toList = WrittenName.nameLetters ⟨l.isQuoted, l.name, index⟩ := by
  unfold render WrittenName.nameLetters isQuoted
  cases l.isSimple && !l.isReserved with
  | true => rfl
  | false => simp

theorem wellFormed_writtenName {l : Label} (clean : l.Clean) : l.writtenName.WellFormed := by
  unfold WrittenName.WellFormed
  split
  · exact clean
  · next unquoted =>
    simp only [writtenName, isQuoted, Bool.not_eq_true', Bool.not_eq_false] at unquoted
    exact (Bool.and_eq_true_iff.mp unquoted).1

/-- A label ends where nothing follows that could stand in it. -/
theorem splits {l l' : Label} (clean : l.Clean) (clean' : l'.Clean) :
    Splits EndsName (l = l') l.render.toList l'.render.toList := by
  rw [toList_render l 0, toList_render l' 0]
  refine ((WrittenName.splits_nameLetters (wellFormed_writtenName clean)
    (wellFormed_writtenName clean')).mono fun r ends c first => (ends c first).1).imp ?_
  rintro ⟨-, same⟩
  cases l
  cases l'
  exact congrArg mk same

end Label

/-! ### What is named -/

/-- The written form of a construct that is written as a name. -/
def Node.writtenName? {α : Type} : Node α → Option WrittenName
  | const c => some ⟨false, c.render, 0⟩
  | bool b => some ⟨false, if b then "True" else "False", 0⟩
  | builtin b => some ⟨false, b.render, 0⟩
  | var v => some ⟨v.label.isQuoted, v.label.name, v.index⟩
  | _ => none

namespace Expr

/-- What an unquoted name stands for. -/
def ofWord (name : String) (index : UInt64) : Expr :=
  if name = "Type" then const .type
  else if name = "Kind" then const .kind
  else if name = "Sort" then const .sort
  else if name = "True" then bool true
  else if name = "False" then bool false
  else match Builtin.ofName? name with
    | some b => builtin b
    | none => var ⟨⟨name⟩, index⟩

/-- What a written name stands for. -/
def ofName (w : WrittenName) : Expr :=
  if w.quoted then var ⟨⟨w.name⟩, w.index⟩ else ofWord w.name w.index

/-- What is written as a name is known from the name. -/
theorem ofName_writtenName? {n : Node Expr} {w : WrittenName} (h : n.writtenName? = some w) :
    ofName w = mk n := by
  cases n with
  | const c =>
    cases h
    cases c <;> rfl
  | bool b =>
    cases h
    cases b <;> rfl
  | builtin b =>
    cases h
    cases b <;> rfl
  | var v =>
    cases h
    cases quoted : v.label.isQuoted with
    | true => rfl
    | false =>
      obtain ⟨words, builtins⟩ := Label.not_reserved_of_unquoted quoted
      change ofWord v.label.name v.index = _
      rw [ofWord, if_neg (words _ (by decide)),
        if_neg (words _ (by decide)), if_neg (words _ (by decide)), if_neg (words _ (by decide)),
        if_neg (words _ (by decide)), builtins]
  | _ => cases h

/-- Names are well formed unless a label has a backtick. -/
theorem wellFormed_of_writtenName? {n : Node Expr} {w : WrittenName} (h : n.writtenName? = some w)
    (clean : ∀ v, n = .var v → v.label.Clean) : w.WellFormed := by
  cases n with
  | const c =>
    cases h
    cases c <;> exact rfl
  | bool b =>
    cases h
    cases b <;> exact rfl
  | builtin b =>
    cases h
    cases b <;> exact rfl
  | var v =>
    cases h
    exact Label.wellFormed_writtenName (clean v rfl)
  | _ => cases h

end Expr

end Dhall

/-
# Variables and everything else

A written variable is a name, in quotes or not, with or without an index. A construct that is no
name begins with a sign that no name begins with, or it has a mark behind a word or behind the
expression that it begins with, and no name has a mark in it unless the mark stands in quotes. So
a variable could be taken for such a construct only if the expression that the construct begins
with has an opening quote and no closing one, and no expression is written like that, whatever
labels it has.

What is left are constructs that are written as one word. The words that are reserved are quoted
when they are labels, and this tells variables from all constructs but two: the word for a
floating-point number that is none and the word for infinity are not reserved.

## Main definitions

* `IsMark`, `beginsName` — characters at which names end, and with which they begin
* `Node.bareWord?` — a word that is written for a construct that is no name
* `Opening` — how the characters of a construct begin

## Main results

* `Node.opening` — every construct begins in one of these ways
* `Expr.backtick_mem_of_lettersAt` — an opening quote is closed
* `Expr.writtenName?_of_layout` — what is written like a name
* `Expr.render_var_eq_iff` — what is written like a variable
-/

import Dhall.Proofs.Printing.Form

namespace Dhall

/-! ### Characters of names -/

/-- Neither a name nor an index nor a quote goes on with the character. -/
def IsMark (c : Char) : Prop :=
  isNameChar c = false ∧ c ≠ '@' ∧ c ≠ '\x60'

instance (c : Char) : Decidable (IsMark c) :=
  inferInstanceAs (Decidable (_ ∧ _ ∧ _))

/-- Whether a written name can begin with the character. -/
def beginsName (c : Char) : Bool :=
  c.isAlpha || c = '_' || c = '\x60'

theorem beginsName_of_isDigit {d : Char} (digit : d.isDigit) : beginsName d = false := by
  rw [beginsName, isLetter_eq_false digit, Bool.false_or, decide_eq_false_iff_not]
  rintro rfl
  cases digit

namespace WrittenName

variable {w : WrittenName} {u r : List Char} {c : Char}

/-- An index consists of characters that are no marks. -/
theorem not_isMark_of_mem_indexLetters (member : c ∈ w.indexLetters) : ¬IsMark c := by
  unfold indexLetters at member
  split at member
  · cases member
  · rintro ⟨notName, notSign, -⟩
    rcases List.mem_cons.mp member with rfl | digit
    · exact notSign rfl
    · exact Bool.false_ne_true ((isDigit_eq_false notName).symm.trans (isDigit_of_mem_repr c digit))

theorem exists_first (formed : w.WellFormed) :
    ∃ c r, w.letters = c :: r ∧ beginsName c := by
  unfold letters nameLetters
  cases quoted : w.quoted with
  | true => exact ⟨'\x60', _, rfl, rfl⟩
  | false =>
    obtain ⟨c, rest, chars, first, -⟩ := Label.isSimple_iff.mp (formed.unquoted quoted)
    rw [chars]
    exact ⟨c, _, rfl, by rw [beginsName, first, Bool.true_or]⟩

/-- An unquoted name does not begin with a quote. -/
theorem ne_cons_backtick (formed : w.WellFormed) (unquoted : w.quoted = false) :
    w.letters ≠ '\x60' :: u := by
  obtain ⟨c, rest, chars, first, -⟩ := Label.isSimple_iff.mp (formed.unquoted unquoted)
  rw [letters, nameLetters, unquoted, if_neg Bool.false_ne_true, chars]
  intro same
  cases same
  cases first

/-- A mark in a written name stands in its quotes, so that a quote has been opened before and not
closed. -/
theorem before_mark (formed : w.WellFormed) (mark : IsMark c) (h : w.letters = u ++ c :: r) :
    ∃ u', u = '\x60' :: u' ∧ '\x60' ∉ u' := by
  unfold letters nameLetters at h
  cases quoted : w.quoted with
  | true =>
    have clean : '\x60' ∉ w.name.toList := by
      rwa [WellFormed, quoted] at formed
    rw [quoted, if_pos rfl, List.cons_append, List.cons_append, List.append_assoc] at h
    cases u with
    | nil => exact absurd (List.cons.inj h).1.symm mark.2.2
    | cons d u =>
      obtain ⟨rfl, others⟩ := List.cons.inj h
      refine ⟨u, rfl, ?_⟩
      -- The mark stands inside the name or behind it.
      rcases List.append_eq_append_iff.mp others with ⟨x, rfl, behind⟩ | ⟨x, name, -⟩
      · -- Behind the name there is the closing quote and then the index alone.
        cases x with
        | nil => exact absurd (List.cons.inj behind).1.symm mark.2.2
        | cons d x =>
          have index : w.indexLetters = x ++ c :: r := (List.cons.inj behind).2
          have inIndex : c ∈ w.indexLetters := index ▸ List.mem_append_right x (.head r)
          exact absurd mark (not_isMark_of_mem_indexLetters inIndex)
      · rw [name] at clean
        exact fun member => clean (List.mem_append_left x member)
  | false =>
    have member : c ∈ w.name.toList ++ w.indexLetters := by
      rw [quoted, if_neg Bool.false_ne_true] at h
      rw [h]
      exact List.mem_append_right u (.head r)
    rcases List.mem_append.mp member with inName | inIndex
    · have name := Label.isNameChar_of_isSimple (formed.unquoted quoted) c inName
      rw [mark.1] at name
      cases name
    · exact absurd mark (not_isMark_of_mem_indexLetters inIndex)

end WrittenName

/-! ### How constructs begin -/

/-- A decimal begins with a digit, since one is put in front of the point if there is none. -/
theorem Double.Decimal.exists_first_digit (d : Decimal) :
    ∃ c r, d.render.toList = c :: r ∧ c.isDigit := by
  obtain ⟨c, r, digits, digit⟩ := exists_digit d.digits
  rw [toList_repr] at digits
  unfold render
  dsimp only
  split
  · rw [String.toList_append, String.toList_ofList, digits, List.cons_append, List.cons_append]
    exact ⟨c, _, rfl, digit⟩
  · next below =>
    -- There are more characters than places behind the point.
    generalize places : (-d.power).toNat = p
    have padded (m : Nat) : ∃ c' r', List.replicate m '0' ++ Nat.toDigits 10 d.digits = c' :: r' ∧
        c'.isDigit := by
      cases m with
      | zero => exact ⟨c, r, digits, digit⟩
      | succ m => exact ⟨'0', _, rfl, rfl⟩
    obtain ⟨c', r', padded, digit'⟩ := padded (p + 1 - (Nat.toDigits 10 d.digits).length)
    have long : p + 1 ≤ (c' :: r').length := by
      rw [← padded, List.length_append, List.length_replicate]
      omega
    obtain ⟨k, whole⟩ : ∃ k, (c' :: r').length - p = k + 1 :=
      ⟨(c' :: r').length - p - 1, by omega⟩
    rw [String.toList_append, String.toList_append, String.toList_ofList, padded, whole,
      List.take_succ_cons, List.cons_append, List.cons_append]
    exact ⟨c', _, rfl, digit'⟩

/-- A finite floating-point number begins with a sign or a digit. -/
theorem Double.exists_foreign {d : Double} {negative : Bool} {mantissa : Nat} {exponent : Int}
    (finite : d.value = .finite negative mantissa exponent) :
    ∃ c r, d.render.toList = c :: r ∧ beginsName c = false := by
  have magnitude : ∃ c r, (if mantissa = 0 then "0.0"
      else (RoundingInterval.ofFinite mantissa exponent).shortest.render).toList = c :: r ∧
        c.isDigit := by
    split
    · exact ⟨'0', _, rfl, rfl⟩
    · exact Decimal.exists_first_digit _
  obtain ⟨c, r, digits, digit⟩ := magnitude
  rw [render, finite]
  dsimp only
  cases negative with
  | true => exact ⟨'-', _, by rw [if_pos rfl, String.toList_append, digits]; rfl, rfl⟩
  | false =>
    refine ⟨c, r, ?_, beginsName_of_isDigit digit⟩
    rw [if_neg Bool.false_ne_true, String.toList_append, digits]
    rfl

/-- The word that is written for a construct that is written as one word and is no name. -/
def Node.bareWord? : Node Expr → Option String
  | double d => match d.value with
    | .nan => some "NaN"
    | .infinite false => some "Infinity"
    | _ => none
  | embed ⟨.missing, .code, none⟩ => some "missing"
  | _ => none

open Dhall.Expr

/-- How the characters of a construct begin. -/
inductive Opening (n : Node Expr) : Prop
  /-- The construct is written as a name. -/
  | name {w : WrittenName} (named : n.writtenName? = some w)
  /-- The construct is written as a word that is no name. -/
  | bare {word : String} (alone : n.bareWord? = some word)
  /-- The construct begins with a sign with which no name begins. -/
  | sign {c : Char} {r : List Char} (layout : n.layout = c :: r) (foreign : beginsName c = false)
  /-- The construct begins with a word and a mark behind it. -/
  | word {u r : List Char} {c : Char} (layout : n.layout = u ++ c :: r) (mark : IsMark c)
    (unquoted : '\x60' ∉ u)
  /-- The construct begins with an expression and a mark behind it. -/
  | child {k : Nat} {e : Expr} {r : List Char} {c : Char}
    (layout : n.layout = lettersAt k e ++ c :: r) (mark : IsMark c) (member : e ∈ n.children)

/-- A location begins with a sign, or it is written as a word with a colon behind it, unless it is
missing. -/
theorem Import.Location.exists_mark {l : Location} (present : l ≠ .missing) :
    (∃ c r, l.render.toList = c :: r ∧ beginsName c = false) ∨
      ∃ u r, l.render.toList = u ++ ':' :: r ∧ '\x60' ∉ u := by
  cases l with
  | file anchor path =>
    refine Or.inl ?_
    cases anchor with
    | absolute => exact ⟨'/', _, by simp [render, Anchor.render]; rfl, rfl⟩
    | here => exact ⟨'.', _, by simp [render, Anchor.render]; rfl, rfl⟩
    | parent => exact ⟨'.', _, by simp [render, Anchor.render]; rfl, rfl⟩
    | home => exact ⟨'~', _, by simp [render, Anchor.render]; rfl, rfl⟩
  | remote url =>
    refine Or.inr ⟨url.scheme.render.toList, _, by simp [render, Url.render]; rfl, ?_⟩
    cases url.scheme <;> decide
  | environment name => exact Or.inr ⟨['e', 'n', 'v'], _, by simp [render]; rfl, by decide⟩
  | missing => exact absurd rfl present

/-- An import is written as a word, or it begins with a sign or with a word and a mark. -/
theorem Import.opening (i : Import) : Opening (.embed i) := by
  obtain ⟨location, mode, digest⟩ := i
  have layout : (Node.embed ⟨location, mode, digest⟩ : Node Expr).layout = location.render.toList ++
      (((digest.map renderDigest).getD "").toList ++ mode.render.toList) := by
    rw [Node.layout, Import.render, String.toList_append, String.toList_append, List.append_assoc]
  by_cases absent : location = .missing
  · subst absent
    have word : '\x60' ∉ Location.missing.render.toList := by decide
    cases digest with
    | some digest =>
      have blank : (renderDigest digest).toList =
          ' ' :: ("sha256:".toList ++ (String.ofList (digest.flatMap hexByte)).toList) :=
        String.toList_append
      rw [Option.map_some, Option.getD_some, blank] at layout
      exact .word (c := ' ') layout (by decide) word
    | none =>
      cases mode with
      | code => exact .bare rfl
      | rawText => exact .word (c := ' ') layout (by decide) word
      | location => exact .word (c := ' ') layout (by decide) word
  · rcases Location.exists_mark absent with ⟨c, r, begins, foreign⟩ | ⟨u, r, begins, word⟩
    · exact .sign (layout.trans (by rw [begins]; rfl)) foreign
    · exact .word (layout.trans (by rw [begins, List.append_assoc]; rfl)) (by decide) word

/-- Every construct begins in one of these ways. -/
theorem Node.opening (n : Node Expr) : Opening n := by
  cases n with
  | const c => exact .name rfl
  | var v => exact .name rfl
  | builtin b => exact .name rfl
  | bool b => exact .name rfl
  | lam x domain body => exact .sign rfl rfl
  | pi x domain codomain =>
    by_cases anonymous : x = Label.placeholder
    · exact .child (if_pos anonymous) (by decide) (.head _)
    · exact .sign (if_neg anonymous) rfl
  -- What begins with a child is opened by this child.
  | app function argument => exact .child (c := ' ') rfl (by decide) (.head _)
  | letIn bindings body =>
    cases bindings with
    | nil => exact .word (u := ['i', 'n']) rfl (by decide) (by decide)
    | cons b bindings => exact .word (u := ['l', 'e', 't']) rfl (by decide) (by decide)
  | annot e type => exact .child (c := ' ') rfl (by decide) (.head _)
  | assertion type =>
    exact .word (u := ['a', 's', 's', 'e', 'r', 't']) rfl (by decide) (by decide)
  | op o left right => exact .child (c := ' ') rfl (by decide) (.head _)
  | ifThenElse condition yes no => exact .word (u := ['i', 'f']) rfl (by decide) (by decide)
  | natural n =>
    obtain ⟨d, r, digits, digit⟩ := exists_digit n.toNat
    exact .sign digits (beginsName_of_isDigit digit)
  | integer i =>
    refine .sign rfl ?_
    split <;> rfl
  -- Two of the literals are words, and the others have a character that no name has.
  | double d =>
    cases value : d.value with
    | nan =>
      have alone : (Node.double d).bareWord? = some "NaN" := by rw [bareWord?, value]
      exact .bare alone
    | infinite negative =>
      cases negative with
      | false =>
        have alone : (Node.double d).bareWord? = some "Infinity" := by rw [bareWord?, value]
        exact .bare alone
      | true => exact .sign (c := '-') (by rw [layout, Double.render, value]; rfl) rfl
    | finite negative mantissa exponent =>
      obtain ⟨c, r, begins, foreign⟩ := Double.exists_foreign value
      exact .sign begins foreign
  | text t => exact .sign rfl rfl
  | emptyList type => exact .sign rfl rfl
  | list items => exact .sign rfl rfl
  | present e => exact .word (u := ['S', 'o', 'm', 'e']) rfl (by decide) (by decide)
  | recordType fields =>
    cases fields with
    | nil => exact .sign rfl rfl
    | cons l above e rest => exact .sign rfl rfl
  | record fields =>
    cases fields with
    | nil => exact .sign rfl rfl
    | cons l above e rest => exact .sign rfl rfl
  | union alternatives => exact .sign rfl rfl
  | merge handlers variant type =>
    exact .word (u := ['m', 'e', 'r', 'g', 'e']) rfl (by decide) (by decide)
  | toMap e type => exact .word (u := ['t', 'o', 'M', 'a', 'p']) rfl (by decide) (by decide)
  | field e l => exact .child (c := '.') rfl (by decide) (.head _)
  | project e labels => exact .child (c := '.') rfl (by decide) (.head _)
  | projectType e type => exact .child (c := '.') rfl (by decide) (.head _)
  | embed i => exact i.opening

/-- The constructs that are written as one word and are no names. -/
theorem Node.bareWord?_cases {n : Node Expr} {word : String} (alone : n.bareWord? = some word) :
    (∃ d, n = .double d ∧ (word = "NaN" ∧ d.value = .nan ∨
      word = "Infinity" ∧ d.value = .infinite false)) ∨
    word = "missing" ∧ n = .embed ⟨.missing, .code, none⟩ := by
  unfold bareWord? at alone
  split at alone
  · next d =>
    split at alone
    · next value =>
      cases alone
      exact Or.inl ⟨d, rfl, Or.inl ⟨rfl, value⟩⟩
    · next value =>
      cases alone
      exact Or.inl ⟨d, rfl, Or.inr ⟨rfl, value⟩⟩
    · cases alone
  · cases alone
    exact Or.inr ⟨rfl, rfl⟩
  · cases alone

/-- A construct that is written as one word is written like an unquoted name. -/
theorem Node.layout_of_bareWord? {n : Node Expr} {word : String} (alone : n.bareWord? = some word) :
    n.layout = WrittenName.letters ⟨false, word, 0⟩ ∧ WrittenName.WellFormed ⟨false, word, 0⟩ := by
  rcases bareWord?_cases alone with ⟨d, rfl, ⟨rfl, value⟩ | ⟨rfl, value⟩⟩ | ⟨rfl, rfl⟩
  · exact ⟨by rw [layout, Double.render, value]; rfl, rfl⟩
  · exact ⟨by rw [layout, Double.render, value]; rfl, rfl⟩
  · exact ⟨rfl, rfl⟩

namespace Expr

/-- If an expression begins with a quote, then the quote is closed. -/
theorem backtick_mem_of_lettersAt {e : Expr} {k : Nat} {u : List Char}
    (h : lettersAt k e = '\x60' :: u) : '\x60' ∈ u := by
  induction e using induction generalizing k u with
  | step n ih =>
    by_cases loose : n.precedence.rank < k
    · rw [lettersAt_of_lt loose] at h
      cases h
    rw [lettersAt_of_le (Nat.le_of_not_lt loose)] at h
    cases n.opening with
    | @name w named =>
      rw [Node.layout_of_writtenName? named] at h
      cases quoted : w.quoted with
      | true =>
        -- Whatever characters the name has, the closing quote is written behind them.
        rw [WrittenName.letters, WrittenName.nameLetters, if_pos quoted] at h
        obtain ⟨-, rfl⟩ := List.cons.inj h
        exact List.mem_append_left _ (List.mem_append_right _ (.head _))
      | false =>
        have formed : w.WellFormed := wellFormed_of_writtenName? named fun v same member => by
          subst same
          cases named
          cases Label.isNameChar_of_isSimple (Label.isSimple_of_unquoted quoted) _ member
        exact absurd h (WrittenName.ne_cons_backtick formed quoted)
    | bare alone =>
      obtain ⟨word, formed⟩ := Node.layout_of_bareWord? alone
      exact absurd (word.symm.trans h) (WrittenName.ne_cons_backtick formed rfl)
    | sign layout foreign =>
      rw [layout] at h
      cases h
      cases foreign
    | @word v r c layout mark unquoted =>
      rw [layout] at h
      cases v with
      | nil => exact absurd (List.cons.inj h).1 mark.2.2
      | cons d v => exact absurd ((List.cons.inj h).1 ▸ .head v) unquoted
    | @child j e r c layout mark member =>
      rw [layout] at h
      -- The quote belongs to the expression that the construct begins with.
      cases begins : lettersAt j e with
      | nil =>
        rw [begins] at h
        exact absurd (List.cons.inj h).1 mark.2.2
      | cons d v =>
        rw [begins] at h
        obtain ⟨rfl, rfl⟩ := List.cons.inj h
        exact List.mem_append_left _ (ih e member begins)

/-- What is written like a name is a name, or it is a construct that is written as one word. -/
theorem writtenName?_of_layout {n : Node Expr} {w : WrittenName} (formed : w.WellFormed)
    (clean : ∀ v, n = .var v → v.label.Clean) (same : w.letters = n.layout) :
    n.writtenName? = some w ∨ ∃ word, n.bareWord? = some word ∧ w = ⟨false, word, 0⟩ := by
  have ends : EndsName [] := nofun
  cases n.opening with
  | @name w' named =>
    have formed' := wellFormed_of_writtenName? named clean
    rw [Node.layout_of_writtenName? named] at same
    obtain ⟨rfl, -⟩ := WrittenName.splits formed formed' [] [] ends ends (congrArg (· ++ []) same)
    exact Or.inl named
  | @bare word alone =>
    obtain ⟨layout, formed'⟩ := Node.layout_of_bareWord? alone
    rw [layout] at same
    obtain ⟨rfl, -⟩ := WrittenName.splits formed formed' [] [] ends ends (congrArg (· ++ []) same)
    exact Or.inr ⟨word, alone, rfl⟩
  | sign layout foreign =>
    obtain ⟨c, r, begins, first⟩ := WrittenName.exists_first formed
    rw [begins, layout] at same
    obtain ⟨rfl, -⟩ := List.cons.inj same
    exact absurd (first.symm.trans foreign) (by decide)
  | word layout mark unquoted =>
    obtain ⟨u, rfl, -⟩ := WrittenName.before_mark formed mark (same.trans layout)
    exact absurd (.head u) unquoted
  | child layout mark member =>
    -- The quote that is open before the mark has been closed by the expression before it.
    obtain ⟨u, begins, opened⟩ := WrittenName.before_mark formed mark (same.trans layout)
    exact absurd (backtick_mem_of_lettersAt begins) opened

/-- A variable is written like a construct that is no variable exactly if it has the index zero and
its label is the word for the floating-point number that the construct is, which is then no number
or infinity. -/
theorem render_var_eq_iff {v : Variable} {e : Expr} (clean : v.label.Clean)
    (notVar : ∀ w, e ≠ var w) :
    (var v).render = e.render ↔ v.index = 0 ∧ ∃ d, e = double d ∧
      (v.label.name = "NaN" ∧ d.value = .nan ∨
        v.label.name = "Infinity" ∧ d.value = .infinite false) := by
  obtain ⟨n⟩ := e
  have named : (Node.var v : Node Expr).writtenName? =
      some ⟨v.label.isQuoted, v.label.name, v.index⟩ := rfl
  have written : letters (var v) = WrittenName.letters ⟨v.label.isQuoted, v.label.name, v.index⟩ :=
    (letters_mk _).trans (Node.layout_of_writtenName? named)
  -- Texts are compared as lists of characters.
  rw [← String.toList_inj]
  change letters (var v) = letters (mk n) ↔ _
  rw [written, letters_mk]
  constructor
  · intro same
    have formed := wellFormed_of_writtenName? named fun w same => by
      cases same
      exact clean
    rcases writtenName?_of_layout formed (fun w same => absurd (congrArg mk same) (notVar w)) same
      with named' | ⟨word, alone, same⟩
    · -- The name tells what is named, which is a variable.
      exact absurd ((ofName_writtenName? named').symm.trans (ofName_writtenName? named)) (notVar v)
    · obtain ⟨unquoted, name, index⟩ := WrittenName.mk.inj same
      rcases Node.bareWord?_cases alone with ⟨d, rfl, literal⟩ | ⟨missing, -⟩
      · rw [← name] at literal
        exact ⟨index, d, rfl, literal⟩
      · have reserved := (Label.not_reserved_of_unquoted unquoted).1 "missing" (by decide)
        exact absurd (name.trans missing) reserved
  · rintro ⟨zero, d, same, literal⟩
    obtain ⟨⟨name⟩, index⟩ := v
    cases zero
    cases mk.inj same
    have alone : (Node.double d).bareWord? = some name := by
      rcases literal with ⟨rfl, value⟩ | ⟨rfl, value⟩ <;> rw [Node.bareWord?, value]
    -- Neither of the two words is a keyword, so as labels they need no quotes.
    have unquoted : Label.isQuoted ⟨name⟩ = false := by
      rcases literal with ⟨rfl, -⟩ | ⟨rfl, -⟩ <;> decide
    exact (congrArg (fun quoted => WrittenName.letters ⟨quoted, name, 0⟩) unquoted).trans
      (Node.layout_of_bareWord? alone).1.symm

/-- Labels that are spelled like a built-in name or like an import are told from these, and the word
for infinity is told from the literal if it has an index. -/
theorem render_var_eq_iff_words :
    (var ⟨"List/fold", 0⟩).render ≠ (builtin .listFold).render ∧
      (var ⟨"missing", 0⟩).render ≠ (embed ⟨.missing, .code, none⟩).render ∧
      (var ⟨"Infinity", 1⟩).render ≠ (double ⟨0x7ff0000000000000⟩).render ∧
      (var ⟨"Infinity", 0⟩).render = (double ⟨0x7ff0000000000000⟩).render := by
  have literal (v : Variable) (clean : v.label.Clean) :=
    render_var_eq_iff clean (e := double ⟨0x7ff0000000000000⟩) (fun _ => nofun)
  refine ⟨fun same => ?_, fun same => ?_, fun same => ?_, ?_⟩
  · obtain ⟨-, _, impossible, -⟩ :=
      (render_var_eq_iff (by decide) (e := builtin .listFold) (fun _ => nofun)).mp same
    cases impossible
  · obtain ⟨-, _, impossible, -⟩ := (render_var_eq_iff (by decide)
      (e := embed ⟨.missing, .code, none⟩) (fun _ => nofun)).mp same
    cases impossible
  · cases ((literal ⟨"Infinity", 1⟩ (by decide)).mp same).1
  · exact (literal ⟨"Infinity", 0⟩ (by decide)).mpr ⟨rfl, _, rfl, .inr ⟨rfl, by decide⟩⟩

/-- A variable whose label has no backtick is written like the literal for infinity. -/
theorem render_var_eq_infinity :
    Label.Clean ⟨"Infinity"⟩ ∧ (∀ w, double ⟨0x7ff0000000000000⟩ ≠ var w) ∧
      (var ⟨"Infinity", 0⟩).render = (double ⟨0x7ff0000000000000⟩).render :=
  ⟨by decide, fun w => nofun, by decide⟩

end Expr

end Dhall

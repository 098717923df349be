/-
# Reading and writing imports

A written URL is a scheme, an authority, segments between slashes and, maybe, a query. A segment
is made of characters that may stand in one and of escapes, which are a percent sign and two
hexadecimal digits. Reading a URL finds its parts again, since slashes and question marks are no
part of a segment. The segments are kept as they stand, escapes and all.

Rendering takes a segment for plain text. It changes none of its characters but the percent signs,
which it escapes. So a URL comes back with `25` after every percent sign of its path. This is a
URL again, and it is the same one exactly if the path has no escape. A local path has no escapes
and always comes back.

## Main definitions

* `Import.isSegment` — the segments of a URL, between its slashes
* `Import.Url.WellFormed`, `Import.Url.written` — a URL as one writes it
* `Import.Anchor.written` — a local path as one writes it
* `Import.Url.escaped` — a URL with each percent sign of its path escaped

## Main results

* `Import.ofUrl?_written` — a URL is read as the parts that it is written from
* `Import.ofPath_written` — so is a local path
* `Import.Url.WellFormed.escaped` — escapes make a URL of a URL
* `Import.ofUrl?_render` — what is read from a rendered URL
* `Import.render_written_iff` — which imports come back when they are read and rendered
-/

import Dhall.Import.Reading
import Dhall.Import.Written
import Mathlib.Data.List.Basic

namespace Dhall.Import

variable {c : Char} {l : List Char} {s : String} {u : Url} {path : List String} {mode : Mode}

/-! ### Texts -/

/-- Whether a character stands for itself in a segment of a URL. -/
def isSegmentChar (c : Char) : Bool :=
  c.isAlphanum || "-._~!$&'()*+,;=:@".toList.contains c

/-- Whether a text is made of characters that stand for themselves and of escapes. -/
def isSegment : List Char → Bool
  | [] => true
  | '%' :: high :: low :: rest => high.isHexDigit && low.isHexDigit && isSegment rest
  | c :: rest => isSegmentChar c && isSegment rest

/-- What makes the parts of a URL the parts of its text. Any text is a query. -/
structure Url.WellFormed (u : Url) : Prop where
  authority_ne_empty : u.authority ≠ ""
  slash_notMem : '/' ∉ u.authority.toList
  mark_notMem : '?' ∉ u.authority.toList
  segment_ne_empty : ∀ s ∈ u.path, s ≠ ""
  segment : ∀ s ∈ u.path, isSegment s.toList

/-- The text of a URL, its segments as they are. -/
def Url.written (u : Url) : String :=
  u.scheme.render ++ "://" ++ u.authority ++ "/" ++ String.intercalate "/" u.path ++
    (u.query.map ("?" ++ ·)).getD ""

/-- Whether a text is a component of a local path that needs no quotes. -/
def isPlain (s : String) : Bool :=
  s ≠ "" && s.toList.all fun c => c.isAlphanum || ".-_".toList.contains c

/-- The text of a local path, its components as they are. -/
def Anchor.written (anchor : Anchor) (path : List String) : String :=
  anchor.render ++ "/" ++ String.intercalate "/" path

/-- The character, or the escape for it if it is a percent sign. -/
def escapePercentChar (c : Char) : List Char :=
  if c = '%' then ['%', '2', '5'] else [c]

/-- The text with an escape for each percent sign. -/
def escapePercent (s : String) : String :=
  String.ofList (s.toList.flatMap escapePercentChar)

/-- The URL with each percent sign of its path escaped. -/
def Url.escaped (u : Url) : Url :=
  { u with path := u.path.map escapePercent }

/-! ### Cutting -/

/-- A path is cut as any list is cut at one of its elements. -/
theorem splitSlashes_eq_splitOn (l : List Char) : splitSlashes l = l.splitOn '/' := by
  fun_induction splitSlashes l with
  | case1 => rfl
  | case2 rest ih =>
    rw [ih, List.splitOn_cons_eq_if_modifyHead, if_pos (beq_self_eq_true _)]
  | case3 c rest hc part parts h ih =>
    rw [List.splitOn_cons_eq_if_modifyHead, if_neg (by simpa using hc), ← ih, h,
      List.modifyHead_cons]
  | case4 c rest hc h ih => exact absurd (ih.symm.trans h) (List.splitOn_ne_nil _ _)

/-- What stands between slashes is found again, if it is not empty. -/
theorem components_splitSlashes_intercalate (hne : ∀ s ∈ path, s ≠ "")
    (hslash : ∀ s ∈ path, '/' ∉ s.toList) :
    components (splitSlashes (String.intercalate "/" path).toList) = path := by
  -- No text has no parts: the empty one has one empty part, which is dropped.
  by_cases hpath : path = []
  · rw [hpath]
    rfl
  have hcut : splitSlashes (String.intercalate "/" path).toList = path.map String.toList := by
    rw [splitSlashes_eq_splitOn, String.toList_intercalate]
    refine List.splitOn_intercalate _ ?_ (by simpa using hpath)
    simpa using hslash
  have hkeep : (path.map String.toList).filter (fun part => !part.isEmpty) =
      path.map String.toList := by
    simpa using hne
  rw [hcut, components, hkeep, List.map_map]
  simp [Function.comp_def]

/-- The query begins at the first question mark. -/
theorem splitQuery_append (h : '?' ∉ l) (rest : List Char) :
    splitQuery (l ++ rest) = (l ++ (splitQuery rest).1, (splitQuery rest).2) := by
  induction l with
  | nil => rfl
  | cons c l ih =>
    have hc : c ≠ '?' := by grind
    have hl : '?' ∉ l := by grind
    rw [List.cons_append, splitQuery.eq_3 _ _ (by simpa using hc), ih hl]
    rfl

/-! ### Segments -/

theorem isAlphanum_iff : c.isAlphanum ↔
    ('A' ≤ c ∧ c ≤ 'Z' ∨ 'a' ≤ c ∧ c ≤ 'z') ∨ '0' ≤ c ∧ c ≤ '9' := by
  -- The classes are defined by numbers, which are those of the characters here.
  have upper : c.isUpper = decide ('A' ≤ c ∧ c ≤ 'Z') := rfl
  have lower : c.isLower = (decide ('a' ≤ c) && decide (c ≤ 'z')) := rfl
  have digit : c.isDigit = (decide ('0' ≤ c) && decide (c ≤ '9')) := rfl
  have alphanum : c.isAlphanum = (c.isUpper || c.isLower || c.isDigit) := rfl
  simp [alphanum, upper, lower, digit]

theorem isSegmentChar_of_isHexDigit (h : c.isHexDigit) : isSegmentChar c := by
  have digit : c.isDigit = (decide ('0' ≤ c) && decide (c ≤ '9')) := rfl
  have hexDigit : c.isHexDigit = (c.isDigit || decide ('a' ≤ c) && decide (c ≤ 'f') ||
    decide ('A' ≤ c) && decide (c ≤ 'F')) := rfl
  have halnum : c.isAlphanum := by
    rw [isAlphanum_iff]
    rw [hexDigit, digit] at h
    grind [Char.le_def]
  rw [isSegmentChar, halnum, Bool.true_or]

/-- What an escape is made of may stand in a segment too, except the percent sign. -/
theorem isSegmentChar_of_mem (hl : isSegment l) (hc : c ∈ l) : c = '%' ∨ isSegmentChar c := by
  fun_induction isSegment l with
  | case1 => cases hc
  | case2 high low rest ih =>
    simp only [Bool.and_eq_true] at hl
    obtain ⟨⟨hhigh, hlow⟩, hrest⟩ := hl
    simp only [List.mem_cons] at hc
    obtain rfl | rfl | rfl | hc := hc
    · exact .inl rfl
    · exact .inr (isSegmentChar_of_isHexDigit hhigh)
    · exact .inr (isSegmentChar_of_isHexDigit hlow)
    · exact ih hrest hc
  | case3 c' rest hescape ih =>
    simp only [Bool.and_eq_true] at hl
    obtain rfl | hc := List.mem_cons.mp hc
    · exact .inr hl.1
    · exact ih hl.2 hc

theorem slash_notMem_of_isSegment (hl : isSegment l) : '/' ∉ l :=
  fun h => absurd (isSegmentChar_of_mem hl h) (by decide)

theorem mark_notMem_of_isSegment (hl : isSegment l) : '?' ∉ l :=
  fun h => absurd (isSegmentChar_of_mem hl h) (by decide)

/-- Rendering changes no character that stands for itself in a segment. -/
theorem isPathChar_of_isSegmentChar (h : isSegmentChar c) : isPathChar c := by
  simp only [isSegmentChar, Bool.or_eq_true, List.contains_iff_mem] at h
  obtain halnum | hother := h
  · have hrange : ' ' < c ∧ c < '\x7f' := by
      rw [isAlphanum_iff] at halnum
      grind [Char.lt_def, Char.le_def]
    have hescaped : "\"#<>?`\x7b\x7d/%".toList.contains c = false := by
      rw [Bool.eq_false_iff, ne_eq, List.contains_iff_mem]
      intro hc
      have hnone : "\"#<>?`\x7b\x7d/%".toList.any Char.isAlphanum = false := by decide
      exact List.any_eq_false.mp hnone c hc halnum
    rw [isPathChar, hescaped, decide_eq_true hrange.1, decide_eq_true hrange.2]
    rfl
  · have hall : "-._~!$&'()*+,;=:@".toList.all isPathChar := by decide
    exact List.all_eq_true.mp hall c hother

/-! ### Percent signs -/

/-- Rendering escapes the percent signs of a segment, those of its escapes too, and nothing else. -/
theorem renderUrlComponent_of_isSegment (h : isSegment s.toList) :
    renderUrlComponent s = escapePercent s := by
  have hchar : ∀ c ∈ s.toList, encodeChar c = escapePercentChar c := by
    intro c hc
    obtain rfl | hsegment := isSegmentChar_of_mem h hc
    · decide
    · have hpercent : c ≠ '%' := by
        rintro rfl
        exact absurd hsegment (by decide)
      rw [encodeChar, if_pos (isPathChar_of_isSegmentChar hsegment), escapePercentChar,
        if_neg hpercent]
  rw [renderUrlComponent, escapePercent, List.flatMap_congr hchar]

/-- Each percent sign makes the text longer by two. -/
theorem length_flatMap_escapePercentChar (l : List Char) :
    (l.flatMap escapePercentChar).length = l.length + 2 * l.count '%' := by
  induction l with
  | nil => rfl
  | cons c l ih =>
    rw [List.flatMap_cons, List.length_append, ih, List.count_cons, escapePercentChar]
    by_cases hc : c = '%' <;> simp [hc] <;> omega

theorem escapePercent_eq_self_iff : escapePercent s = s ↔ '%' ∉ s.toList := by
  rw [← String.toList_inj, escapePercent, String.toList_ofList]
  constructor
  · intro h
    -- A text that is as long as before has no percent sign.
    have hlength := length_flatMap_escapePercentChar s.toList
    rw [h] at hlength
    exact List.count_eq_zero.mp (by omega)
  · intro h
    have hchar : ∀ c ∈ s.toList, escapePercentChar c = [c] := by
      intro c hc
      refine if_neg ?_
      rintro rfl
      exact h hc
    rw [List.flatMap_congr hchar, List.flatMap_singleton']

theorem escapePercent_ne_empty (h : s ≠ "") : escapePercent s ≠ "" := by
  rw [ne_eq, ← String.toList_eq_nil_iff, ← List.length_eq_zero_iff, escapePercent,
    String.toList_ofList, length_flatMap_escapePercentChar]
  have := List.length_pos_of_ne_nil (mt String.toList_eq_nil_iff.mp h)
  omega

theorem isSegment_flatMap_escapePercentChar (h : ∀ c ∈ l, c = '%' ∨ isSegmentChar c) :
    isSegment (l.flatMap escapePercentChar) := by
  induction l with
  | nil => rfl
  | cons c l ih =>
    obtain ⟨hc, hl⟩ := List.forall_mem_cons.mp h
    rw [List.flatMap_cons, escapePercentChar]
    by_cases hpercent : c = '%'
    · rw [if_pos hpercent]
      exact ih hl
    · rw [if_neg hpercent, List.singleton_append, isSegment.eq_3, Bool.and_eq_true]
      · exact ⟨hc.resolve_left hpercent, ih hl⟩
      · exact fun _ _ _ h => absurd h hpercent

/-- Escapes make a URL of a URL. -/
theorem Url.WellFormed.escaped (hu : u.WellFormed) : u.escaped.WellFormed where
  authority_ne_empty := hu.authority_ne_empty
  slash_notMem := hu.slash_notMem
  mark_notMem := hu.mark_notMem
  segment_ne_empty := by
    simp only [Url.escaped, List.forall_mem_map]
    exact fun s hs => escapePercent_ne_empty (hu.segment_ne_empty s hs)
  segment := by
    simp only [Url.escaped, List.forall_mem_map]
    intro s hs
    rw [escapePercent, String.toList_ofList]
    exact isSegment_flatMap_escapePercentChar fun c hc =>
      isSegmentChar_of_mem (hu.segment s hs) hc

/-- The rendered text is the written text of another URL. -/
theorem Url.WellFormed.render (hu : u.WellFormed) : u.render = u.escaped.written := by
  have hpath : u.path.map renderUrlComponent = u.path.map escapePercent :=
    List.map_congr_left fun s hs => renderUrlComponent_of_isSegment (hu.segment s hs)
  rw [Url.render, hpath]
  rfl

/-! ### Reading -/

theorem splitScheme?_render (scheme : Scheme) (rest : List Char) :
    splitScheme? (scheme.render.toList ++ "://".toList ++ rest) = some (scheme, rest) := by
  cases scheme <;> rfl

/-- A query is found behind an address without question marks. -/
theorem splitQuery_address (h : '?' ∉ l) (query : Option String) :
    splitQuery (l ++ ((query.map ("?" ++ ·)).getD "").toList) =
      (l, query.map String.toList) := by
  rw [splitQuery_append h]
  cases query with
  | none => simp [splitQuery]
  | some query => simp [splitQuery]

theorem mark_notMem_intercalate (h : ∀ s ∈ path, '?' ∉ s.toList) :
    '?' ∉ (String.intercalate "/" path).toList := by
  induction path with
  | nil => decide
  | cons s path ih =>
    obtain ⟨hs, hpath⟩ := List.forall_mem_cons.mp h
    cases path with
    | nil => simpa using hs
    | cons s' path =>
      rw [String.intercalate_cons_cons]
      simpa [hs] using ih hpath

/-- A URL is read as the parts that it is written from. -/
theorem ofUrl?_written (hu : u.WellFormed) :
    ofUrl? u.written mode = some ⟨.remote u, mode, none⟩ := by
  have hpath := components_splitSlashes_intercalate hu.segment_ne_empty fun s hs =>
    slash_notMem_of_isSegment (hu.segment s hs)
  have hmark := mark_notMem_intercalate fun s hs => mark_notMem_of_isSegment (hu.segment s hs)
  have hauthority : u.authority.toList ≠ [] := mt String.toList_eq_nil_iff.mp hu.authority_ne_empty
  generalize htext : (String.intercalate "/" u.path).toList = text at hpath hmark
  have hwritten : u.written.toList = u.scheme.render.toList ++ "://".toList ++
      ((u.authority.toList ++ '/' :: text) ++ ((u.query.map ("?" ++ ·)).getD "").toList) := by
    rw [← htext]
    simp [Url.written]
  have hparts : splitSlashes (u.authority.toList ++ '/' :: text) =
      u.authority.toList :: splitSlashes text := by
    rw [splitSlashes_eq_splitOn, List.splitOn_append_cons_self,
      List.splitOn_eq_singleton hu.slash_notMem, splitSlashes_eq_splitOn]
    rfl
  have haddress : '?' ∉ u.authority.toList ++ '/' :: text := by
    simpa [hu.mark_notMem] using hmark
  rw [ofUrl?, hwritten, splitScheme?_render]
  simp only [Option.bind_eq_bind, Option.bind_some, splitQuery_address haddress, hparts]
  -- The reader gives up on an empty authority, so it has to be seen that this one is not.
  cases hcases : u.authority.toList with
  | nil => exact absurd hcases hauthority
  | cons c l => simp [← hcases, hpath, Function.comp_def]

/-- What is read from a rendered URL: the escapes of its path are text now. -/
theorem ofUrl?_render (hu : u.WellFormed) :
    ofUrl? u.render mode = some ⟨.remote u.escaped, mode, none⟩ := by
  rw [hu.render, ofUrl?_written hu.escaped]

theorem isPlain_iff : isPlain s ↔
    s ≠ "" ∧ ∀ c ∈ s.toList, c.isAlphanum || ".-_".toList.contains c := by
  rw [isPlain, Bool.and_eq_true, decide_eq_true_iff, List.all_eq_true]

/-- An anchor is read off the beginning of a path. The slash after it may be left for the path,
which loses it with the empty part before it. -/
theorem splitAnchor_render (anchor : Anchor) (rest : List Char) :
    (splitAnchor (anchor.render.toList ++ "/".toList ++ rest)).1 = anchor ∧
      components (splitSlashes (splitAnchor (anchor.render.toList ++ "/".toList ++ rest)).2) =
        components (splitSlashes rest) := by
  cases anchor <;> exact ⟨rfl, rfl⟩

/-- A local path is read as the parts that it is written from. -/
theorem ofPath_written (hpath : ∀ s ∈ path, isPlain s) (anchor : Anchor) :
    ofPath (anchor.written path) mode = ⟨.file anchor path, mode, none⟩ := by
  have hparts : ∀ s ∈ path, s ≠ "" ∧ '/' ∉ s.toList := fun s hs => by
    obtain ⟨hne, hchars⟩ := isPlain_iff.mp (hpath s hs)
    exact ⟨hne, fun hc => absurd (hchars _ hc) (by decide)⟩
  obtain ⟨hanchor, hrest⟩ := splitAnchor_render anchor (String.intercalate "/" path).toList
  rw [components_splitSlashes_intercalate (fun s hs => (hparts s hs).1)
    fun s hs => (hparts s hs).2] at hrest
  rw [ofPath, Anchor.written, String.toList_append, String.toList_append]
  simp only [hanchor, hrest]

/-! ### Rendering what was read -/

theorem renderFileComponent_of_isPlain (h : isPlain s) : renderFileComponent s = s := by
  refine if_pos (List.all_eq_true.mpr fun c hc => ?_)
  simpa [or_assoc] using (isPlain_iff.mp h).2 c hc

theorem Location.render_file (hpath : ∀ s ∈ path, isPlain s) (anchor : Anchor) :
    (Location.file anchor path).render = anchor.written path := by
  have hcomponents : path.map renderFileComponent = path := by
    rw [List.map_congr_left fun s hs => renderFileComponent_of_isPlain (hpath s hs), List.map_id']
  rw [Location.render, hcomponents]
  rfl

/-- A URL is rendered as it was written exactly if its path has no escape. -/
theorem Url.WellFormed.render_eq_written_iff (hu : u.WellFormed) :
    u.render = u.written ↔ ∀ s ∈ u.path, '%' ∉ s.toList := by
  have hescaped : u.render = u.written ↔ u.escaped = u := by
    rw [hu.render]
    constructor
    · intro h
      -- The same text is read twice, once as each of the URLs that it is written from.
      have hread : ofUrl? u.escaped.written .code = _ := ofUrl?_written hu.escaped
      rw [h, ofUrl?_written hu] at hread
      simpa using hread.symm
    · intro h
      rw [h]
  have hpath : u.escaped = u ↔ u.path.map escapePercent = u.path.map id := by
    rw [List.map_id]
    exact ⟨congrArg Url.path, fun h => congrArg (fun path => { u with path := path }) h⟩
  rw [hescaped, hpath, List.map_inj_left]
  simp only [id_eq, escapePercent_eq_self_iff]

/-- A written URL is read, and rendered with each percent sign of its path escaped, so that it
comes back exactly if there is none. A written local path is read, and always comes back. -/
theorem render_written_iff (hu : u.WellFormed) (anchor : Anchor) (hpath : ∀ s ∈ path, isPlain s) :
    (∃ i, ofUrl? u.written .code = some i ∧ i.location = .remote u ∧
      i.render = u.escaped.written ∧ (i.render = u.written ↔ ∀ s ∈ u.path, '%' ∉ s.toList)) ∧
    (ofPath (anchor.written path) .code).location = .file anchor path ∧
      (ofPath (anchor.written path) .code).render = anchor.written path := by
  have hrender (location : Location) : render ⟨location, .code, none⟩ = location.render := by
    simp [render, Mode.render]
  constructor
  · refine ⟨⟨.remote u, .code, none⟩, ofUrl?_written hu, rfl, ?_⟩
    rw [hrender, Location.render]
    exact ⟨hu.render, hu.render_eq_written_iff⟩
  · rw [ofPath_written hpath, hrender, Location.render_file hpath]
    exact ⟨rfl, rfl⟩

/-- An escaped blank comes back as an escaped percent sign; a query and a path that looks like an
anchor come back as they were. -/
theorem render_written_iff_blank :
    let u : Url := ⟨.https, "example.com", ["a%20b", "c"], some "d/e?f=%20"⟩
    let path := ["..", "types.dhall"]
    u.WellFormed ∧ (∀ s ∈ path, isPlain s) ∧
    (∃ i, ofUrl? u.written .code = some i ∧ i.location = .remote u ∧
      i.render = "https://example.com/a%2520b/c?d/e?f=%20") ∧
    (ofPath "/../types.dhall" .code).render = "/../types.dhall" := by
  intro u path
  have hu : u.WellFormed := by
    constructor <;> decide
  have hpath : ∀ s ∈ path, isPlain s := by decide
  obtain ⟨⟨i, hread, hlocation, hrender, -⟩, -, hfile⟩ := render_written_iff hu .absolute hpath
  refine ⟨hu, hpath, ⟨i, hread, hlocation, ?_⟩, hfile⟩
  rw [hrender]
  decide

/-- A URL with an escape in its path does not come back. -/
theorem render_ne_written :
    ¬ ∀ u : Url, u.WellFormed → ∃ i, ofUrl? u.written .code = some i ∧ i.render = u.written := by
  intro h
  have hu : Url.WellFormed ⟨.https, "example.com", ["a%20b"], none⟩ := by
    constructor <;> decide
  obtain ⟨i, hread, hrender⟩ := h _ hu
  rw [ofUrl?_written hu, Option.some.injEq] at hread
  subst hread
  exact absurd hrender (by decide)

end Dhall.Import

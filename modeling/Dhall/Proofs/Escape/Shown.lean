/-
# Shown texts

The function that shows a text puts the escaped text between quotes. Nothing is lost there: the
escaped text can be read again, and the quotes around it are the same for all strings.

## Main definitions

* `Expr.shown` — the text that shows a string

## Main results

* `Expr.shown_injective` — strings that are shown as the same text are the same
* `Expr.escape_lossless` — escaped and shown texts determine the string
-/

import Dhall.Proofs.Concatenation
import Dhall.Proofs.Escape

namespace Dhall

namespace Expr

variable {r : Expr} {s s' : String}

/-- The text that shows a string. -/
def shown (s : String) : Expr :=
  plainText ("\"" ++ Text.escape s ++ "\"")

theorem normalizes_textShow_iff :
    (app (builtin .textShow) (plainText s)).Normalizes r ↔ r = shown s := by
  have shows : (app (builtin .textShow) (plainText s)).Normalizes (shown s) :=
    (normalizes_builtin .textShow).builtin ((normalizes_plainText s).mpr rfl) rfl
      (.pure (some (shown s)))
  constructor
  · exact fun h => h.unique shows
  · rintro rfl
    exact shows

/-- Strings that are shown as the same text are the same. -/
theorem shown_injective (same : shown s = shown s') : s = s' := by
  have quoted : "\"" ++ Text.escape s ++ "\"" = "\"" ++ Text.escape s' ++ "\"" := by
    injection same with same
    injection same with same
    injection same
  have escaped : Text.escape s = Text.escape s' := by
    rwa [String.append_left_inj, String.append_right_inj] at quoted
  rw [← Text.decode_escape s, escaped, Text.decode_escape]

/-- An escaped text is read as the string that has been escaped. It contains no dollar sign and no
character below U+001F, and every quote in it belongs to an escape that is read as a whole. The
text that shows the string is the escaped text between quotes, and no other string is shown as the
same text. -/
theorem escape_lossless (s : String) :
    Text.decode (Text.escape s) = s ∧
    (∀ c ∈ (Text.escape s).toList, c ≠ '$' ∧ 0x1f ≤ c.toNat) ∧
    ((Text.tokens (Text.escape s).toList).flatMap Text.Token.written = (Text.escape s).toList ∧
      ∀ token ∈ Text.tokens (Text.escape s).toList,
        '"' ∈ token.written → token.written = ['\\', '"']) ∧
    (∀ r, (app (builtin .textShow) (plainText s)).Normalizes r ↔
      r = plainText ("\"" ++ Text.escape s ++ "\"")) ∧
    ∀ s', (∃ r, (app (builtin .textShow) (plainText s)).Normalizes r ∧
      (app (builtin .textShow) (plainText s')).Normalizes r) ↔ s = s' := by
  refine ⟨Text.decode_escape s, fun c => Text.of_mem_escape,
    ⟨Text.written_tokens _, fun token => Text.written_of_quote⟩,
    fun r => normalizes_textShow_iff, fun s' => ?_⟩
  simp only [normalizes_textShow_iff]
  constructor
  · rintro ⟨r, same, same'⟩
    exact shown_injective (same.symm.trans same')
  · rintro rfl
    exact ⟨_, rfl, rfl⟩

/-- A string that looks like the escape of a dollar sign, followed by a quote behind a backslash, a
dollar sign, and the last character that is escaped by its code and the first that is not. -/
theorem escape_lossless_overlapping :
    let s := "\\u0024\\\"$\x1e\x1f"
    let written := "\\\\u0024\\\\\\\"\\u0024\\u001e\x1f"
    Text.escape s = written ∧ Text.decode written = s ∧
      (app (builtin .textShow) (plainText s)).Normalizes (plainText ("\"" ++ written ++ "\"")) := by
  intro s written
  have escaped : Text.escape s = written := by decide
  obtain ⟨read, -, -, shows, -⟩ := escape_lossless s
  rw [escaped] at read shows
  exact ⟨escaped, read, (shows _).mpr rfl⟩

end Expr

end Dhall

import Mathlib.Data.List.GetD
import Mathlib.Data.UInt
import Mathlib.Logic.Function.Basic

/-!
# The row of a terminal

What a terminal shows in the row its cursor is in.  A row is as long as it has to be, and the cursor stays
in it: a backspace in the first column does nothing.

## Main definitions

* `Row`, `Row.put`, `Row.puts` — the row, and the characters it is sent.
* `Row.tabbed`, `columnBehind` — the row with tab stops, and the column in which a text ends on it.
* `Shows row text` — the row shows the text, with the cursor behind it and blanks from there on.

## Main results

* `Shows.puts` — printable characters are appended.
* `Shows.eraseAll` — backspace, space, backspace takes the last character away; as often as it is sent.
-/

namespace Terminal

/-- The character in each column, and the column of the cursor. -/
structure Row where
  cell : ℕ → UInt8
  cursor : ℕ

/-- A character that takes a column. -/
def Printable (c : UInt8) : Prop := 32 ≤ c ∧ c ≠ 127

instance (c : UInt8) : Decidable (Printable c) := inferInstanceAs (Decidable (_ ∧ _))

/-- What a character does: a backspace, a carriage return and a line feed move the cursor, the last to a
blank row; other control characters do nothing. -/
def Row.put (r : Row) (c : UInt8) : Row :=
  if c = 8 then { r with cursor := r.cursor - 1 }
  else if c = 13 then { r with cursor := 0 }
  else if c = 10 then { r with cell := fun _ => 32 }
  else if Printable c then { cell := Function.update r.cell r.cursor c, cursor := r.cursor + 1 }
  else r

/-- What a text does. -/
def Row.puts (r : Row) (s : List UInt8) : Row := s.foldl Row.put r

/-- What a character does on a terminal with tab stops at the multiples of eight. -/
def Row.tabbed (r : Row) (c : UInt8) : Row :=
  if c = 9 then { r with cursor := r.cursor + (8 - r.cursor % 8) } else r.put c

/-- The column of the cursor behind a text that begins in column `start`. -/
def columnBehind (start : ℕ) (text : List UInt8) : ℕ :=
  (text.foldl Row.tabbed ⟨fun _ => 32, start⟩).cursor

/-- The row shows the text; behind it there are blanks. -/
structure Shows (r : Row) (text : List UInt8) : Prop where
  cursor : r.cursor = text.length
  cell : ∀ i, r.cell i = text.getD i 32

variable {r : Row} {text : List UInt8}

theorem Row.puts_append (r : Row) (s t : List UInt8) : r.puts (s ++ t) = (r.puts s).puts t :=
  List.foldl_append

theorem Row.cursor_tabbed (r : Row) {c : UInt8} (hc : c = 9 ∨ Printable c) :
    (r.tabbed c).cursor = if c = 9 then r.cursor + (8 - r.cursor % 8) else r.cursor + 1 := by
  unfold Row.tabbed
  split
  · rfl
  · next htab =>
    have hprint := hc.resolve_left htab
    have h8 : c ≠ 8 := by rintro rfl; exact absurd hprint (by decide)
    have h13 : c ≠ 13 := by rintro rfl; exact absurd hprint (by decide)
    have h10 : c ≠ 10 := by rintro rfl; exact absurd hprint (by decide)
    rw [Row.put, if_neg h8, if_neg h13, if_neg h10, if_pos hprint]

theorem columnBehind_concat (start : ℕ) (text : List UInt8) (c : UInt8) :
    columnBehind start (text ++ [c]) = ((text.foldl Row.tabbed ⟨fun _ => 32, start⟩).tabbed c).cursor := by
  rw [columnBehind, List.foldl_append]
  rfl

theorem getD_concat (text : List UInt8) (c : UInt8) (i : ℕ) :
    (text ++ [c]).getD i 32 = if i = text.length then c else text.getD i 32 := by
  rcases lt_trichotomy i text.length with hlt | heq | hgt
  · rw [List.getD_append _ _ _ _ hlt, if_neg hlt.ne]
  · rw [heq, if_pos rfl]
    simp
  · rw [List.getD_append_right _ _ _ _ hgt.le, if_neg hgt.ne', List.getD_eq_default _ _ hgt.le]
    exact List.getD_eq_default _ _ (by simp; omega)

/-- A printable character goes behind the text. -/
theorem Shows.put (h : Shows r text) {c : UInt8} (hc : Printable c) : Shows (r.put c) (text ++ [c]) := by
  have h8 : c ≠ 8 := by rintro rfl; exact absurd hc (by decide)
  have h13 : c ≠ 13 := by rintro rfl; exact absurd hc (by decide)
  have h10 : c ≠ 10 := by rintro rfl; exact absurd hc (by decide)
  rw [Row.put, if_neg h8, if_neg h13, if_neg h10, if_pos hc]
  refine ⟨by simp [h.cursor], fun i => ?_⟩
  rw [getD_concat, ← h.cell, ← h.cursor]
  exact Function.update_apply ..

/-- A printable text goes behind the text. -/
theorem Shows.puts (h : Shows r text) {s : List UInt8} (hs : ∀ c ∈ s, Printable c) :
    Shows (r.puts s) (text ++ s) := by
  induction s generalizing r text with
  | nil => simpa [Row.puts] using h
  | cons c s ih =>
    rw [List.forall_mem_cons] at hs
    have hrest := ih (h.put hs.1) hs.2
    rwa [List.append_assoc] at hrest

/-- Backspace, space, backspace: the last character is taken away. -/
theorem Shows.erase {c : UInt8} (h : Shows r (text ++ [c])) : Shows (r.puts [8, 32, 8]) text := by
  have hcursor : r.cursor = text.length + 1 := by simpa using h.cursor
  have hput : r.puts [8, 32, 8] = ⟨Function.update r.cell text.length 32, text.length⟩ := by
    simp [Row.puts, Row.put, Printable, hcursor]
  rw [hput]
  refine ⟨rfl, fun i => ?_⟩
  have hcell := h.cell i
  rw [getD_concat] at hcell
  by_cases hi : i = text.length
  · subst hi
    simp
  · rw [if_neg hi] at hcell
    rw [← hcell]
    exact Function.update_of_ne hi ..

/-- As many characters as the sequence is sent are taken away. -/
theorem Shows.eraseAll {tail : List UInt8} (h : Shows r (text ++ tail)) :
    Shows (r.puts (List.replicate tail.length [8, 32, 8]).flatten) text := by
  induction tail using List.reverseRecOn generalizing r with
  | nil => simpa [Row.puts] using h
  | append_singleton tail c ih =>
    rw [← List.append_assoc] at h
    rw [List.length_append, List.length_singleton, List.replicate_succ, List.flatten_cons, Row.puts_append]
    exact ih h.erase

/-- Carriage return and line feed: a blank row. -/
theorem shows_newline (r : Row) : Shows (r.puts [13, 10]) [] := by
  refine ⟨rfl, fun i => ?_⟩
  simp [Row.puts, Row.put]

end Terminal

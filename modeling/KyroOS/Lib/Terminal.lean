import Mathlib.Data.Nat.Notation
import Mathlib.Logic.Function.Basic
import Mathlib.Tactic.Common

/-!
# Scrolling terminals

A terminal shows a grid of cells and has a cursor. A character goes to the cell at the cursor; the
cursor moves on, and to the next row behind the last column. The rows move up by one instead of the
cursor leaving the last of them.

## Main definitions

* `Terminal`, `Terminal.newline`, `Terminal.put` — the terminal and what an input does to it

## Main results

* `Terminal.Inside.put` — the cursor stays inside the grid
-/

/-- The cells by row and column, and the cursor. -/
structure Terminal (α : Type*) where
  cell : ℕ → ℕ → α
  row : ℕ
  column : ℕ

namespace Terminal

variable {α : Type*}

/-- What is sent to a terminal. -/
inductive Input (α : Type*)
  | newline
  | backspace
  | char (a : α)

section

variable (rows columns : ℕ) (blank : α) (t : Terminal α)

/-- The rows move up, and the last one is blank. -/
def scroll : Terminal α :=
  { t with cell := fun r c => if r + 1 < rows then t.cell (r + 1) c else blank }

/-- The cursor goes to the start of the next row. -/
def newline : Terminal α :=
  if t.row + 1 < rows then { t with row := t.row + 1, column := 0 }
  else { t.scroll rows blank with row := rows - 1, column := 0 }

/-- A cell is changed. -/
def write (r c : ℕ) (a : α) : Terminal α :=
  { t with cell := Function.update t.cell r (Function.update (t.cell r) c a) }

/-- What an input does. -/
def put : Input α → Terminal α
  | .newline => t.newline rows blank
  | .backspace =>
    if 0 < t.column then { t.write t.row (t.column - 1) blank with column := t.column - 1 } else t
  | .char a =>
    let t := t.write t.row t.column a
    if t.column + 1 < columns then { t with column := t.column + 1 } else t.newline rows blank

/-- The cursor is inside the grid. -/
def Inside : Prop := t.row < rows ∧ t.column < columns

end

/-- A terminal without characters. -/
def empty (blank : α) : Terminal α := ⟨fun _ _ => blank, 0, 0⟩

variable {rows columns : ℕ} {blank : α} {t : Terminal α}

theorem Inside.newline (h : t.Inside rows columns) : (t.newline rows blank).Inside rows columns := by
  obtain ⟨hrow, hcolumn⟩ := h
  unfold Terminal.newline
  split
  · next hroom => exact ⟨hroom, by show 0 < columns; omega⟩
  · exact ⟨by show rows - 1 < rows; omega, by show 0 < columns; omega⟩

/-- The cursor stays inside the grid. -/
theorem Inside.put (h : t.Inside rows columns) (i : Input α) :
    (t.put rows columns blank i).Inside rows columns := by
  obtain ⟨hrow, hcolumn⟩ := h
  cases i with
  | newline => exact Inside.newline ⟨hrow, hcolumn⟩
  | backspace =>
    unfold Terminal.put
    dsimp only
    split
    · exact ⟨hrow, by show t.column - 1 < columns; omega⟩
    · exact ⟨hrow, hcolumn⟩
  | char a =>
    unfold Terminal.put
    dsimp only
    split
    · next hroom => exact ⟨hrow, hroom⟩
    · exact Inside.newline (t := t.write t.row t.column a) ⟨hrow, hcolumn⟩

end Terminal

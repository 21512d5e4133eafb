import KyroOS.Vfs.Path

/-!
# The package database

`pkg_install_file` writes a line `name|version|path` for each package.

## Main definitions

* `Entry` — the fields of a package, as they are read from the package
* `Entry.text`, `database` — the line of a package, and the file

## Main results

* `takeWhile_append_cons`, `dropWhile_append_cons` — the first line of a file
* `flatMap_concat_inj` — a file of lines has no other lines
-/

namespace KyroOS.Packages

open Vfs

def newline : Byte := 0x0A

def pipe : Byte := 0x7C

/-- The fields of a package. `parse_info` reads a value up to the end of its line. -/
structure Entry where
  name : CString
  version : CString
  path : CString
  name_length : name.length < 128
  version_length : version.length < 32
  path_length : path.length < 256
  plain : ∀ c ∈ name ++ version ++ path, c ≠ newline ∧ c ≠ 0

/-- `entry_line` up to the line break. -/
def Entry.text (e : Entry) : CString := e.name ++ pipe :: (e.version ++ pipe :: e.path)

/-- The lines of packages. -/
def database (entries : List Entry) : List Byte := entries.flatMap fun e => e.text ++ [newline]

/-! ### Lines -/

section Lines

variable {α : Type} {p : α → Bool} {a b rest rest' : List α} {x : α}

/-- A line ends at the first element that is not of a line. -/
theorem takeWhile_append_cons (ha : ∀ c ∈ a, p c) (hx : ¬ p x) :
    (a ++ x :: rest).takeWhile p = a := by
  rw [List.takeWhile_append_of_pos ha, List.takeWhile_cons_of_neg hx, List.append_nil]

theorem dropWhile_append_cons (ha : ∀ c ∈ a, p c) (hx : ¬ p x) :
    (a ++ x :: rest).dropWhile p = x :: rest := by
  rw [List.dropWhile_append_of_pos ha, List.dropWhile_cons_of_neg hx]

/-- The first line and what is behind it. -/
theorem append_cons_inj (ha : ∀ c ∈ a, p c) (hb : ∀ c ∈ b, p c) (hx : ¬ p x)
    (h : a ++ x :: rest = b ++ x :: rest') : a = b ∧ rest = rest' := by
  have hline : a = b := by
    rw [← takeWhile_append_cons ha hx, h, takeWhile_append_cons hb hx]
  subst hline
  exact ⟨rfl, (List.cons.inj (List.append_cancel_left h)).2⟩

/-- A file of lines has no other lines. -/
theorem flatMap_concat_inj {as bs : List (List α)} (has : ∀ a ∈ as, ∀ c ∈ a, p c)
    (hbs : ∀ b ∈ bs, ∀ c ∈ b, p c) (hx : ¬ p x)
    (h : as.flatMap (fun a => a ++ [x]) = bs.flatMap fun b => b ++ [x]) : as = bs := by
  induction as generalizing bs with
  | nil =>
    cases bs with
    | nil => rfl
    | cons b bs => simp at h
  | cons a as ih =>
    cases bs with
    | nil => simp at h
    | cons b bs =>
      rw [List.flatMap_cons, List.flatMap_cons, List.append_assoc, List.append_assoc] at h
      obtain ⟨rfl, hrest⟩ := append_cons_inj (has a List.mem_cons_self) (hbs b List.mem_cons_self)
        hx h
      rw [ih (fun a ha => has a (List.mem_cons_of_mem _ ha))
        (fun b hb => hbs b (List.mem_cons_of_mem _ hb)) hrest]

end Lines

/-! ### Entries -/

theorem Entry.mem_text {e : Entry} {c : Byte} (hc : c ∈ e.text) : c ≠ newline ∧ c ≠ 0 := by
  have hpipe : pipe ≠ newline ∧ pipe ≠ 0 := by decide
  have hplain := e.plain c
  simp only [List.mem_append] at hplain
  simp only [Entry.text, List.mem_append, List.mem_cons] at hc
  rcases hc with hname | rfl | hversion | rfl | hpath
  · exact hplain (.inl (.inl hname))
  · exact hpipe
  · exact hplain (.inl (.inr hversion))
  · exact hpipe
  · exact hplain (.inr hpath)

end KyroOS.Packages

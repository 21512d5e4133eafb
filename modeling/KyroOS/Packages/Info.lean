import KyroOS.Lib.BoundedArray
import KyroOS.Packages.Database

/-!
# The file `info.txt` of a package

`parse_info` looks for a line with a key and copies what is behind the `=` to an array. The length
of the array is not known to it.

## Main definitions

* `Completes`, `CompletesIf` — code that comes to its end, and the condition for it
* `findValue`, `parseInfo` — the loop over the lines and the function
* `infoLines`, `lookup` — the lines of the file, and the value of a key in them

## Main results

* `CompletesIf.bind` — the conditions of two parts
* `findValue_eq_lookup` — the loop finds the value of the key
* `parseInfo_completesIf` — the copy is inside the array if the value is shorter
* `str_of_parseInfo` — the string that is in the array then
-/

namespace KyroOS.Packages

open Vfs BoundedArray

/-! ### Code that comes to its end -/

/-- The code comes to its end, with each store inside its array. -/
def Completes {α : Type} (x : Outcome α) : Prop := ∃ a, x = .ok a

/-- The code comes to its end if a condition holds, and otherwise to a store outside of an array or
to a string without an end. -/
structure CompletesIf {α : Type} (x : Outcome α) (P : Prop) : Prop where
  completes : P → Completes x
  fault : ¬ P → x = .error .fault

/-- A store to an array or a string of one, which has to be there. -/
def checked {α : Type} : Option α → Outcome α
  | none => .error .fault
  | some a => .ok a

section Completes

variable {α β : Type} {x : Outcome α} {f : α → Outcome β} {P Q : Prop}

@[simp] theorem checked_some (a : α) : checked (some a) = .ok a := rfl

@[simp] theorem ok_bind (a : α) (f : α → Outcome β) : (Except.ok a >>= f) = f a := rfl

theorem checked_eq_ok {o : Option α} {a : α} : checked o = .ok a ↔ o = some a := by
  cases o with
  | none => exact ⟨nofun, nofun⟩
  | some b => exact ⟨fun h => congrArg some (Except.ok.inj h), fun h => congrArg _ (Option.some.inj h)⟩

theorem completes_ok (a : α) : Completes (.ok a : Outcome α) := ⟨a, rfl⟩

theorem CompletesIf.completes_iff (h : CompletesIf x P) : Completes x ↔ P := by
  refine ⟨fun ⟨a, ha⟩ => ?_, h.completes⟩
  by_contra hnot
  exact nomatch ha.symm.trans (h.fault hnot)

/-- The code does not go on for ever. -/
theorem CompletesIf.ne_outOfFuel (h : CompletesIf x P) : x ≠ .error .outOfFuel := by
  by_cases hP : P
  · obtain ⟨a, ha⟩ := h.completes hP
    exact ha ▸ nofun
  · exact h.fault hP ▸ nofun

theorem CompletesIf.congr (h : CompletesIf x P) (hiff : P ↔ Q) : CompletesIf x Q where
  completes hQ := h.completes (hiff.mpr hQ)
  fault hQ := h.fault (mt hiff.mp hQ)

theorem CompletesIf.ok (a : α) : CompletesIf (.ok a : Outcome α) True where
  completes _ := completes_ok a
  fault h := absurd trivial h

theorem CompletesIf.checked (o : Option α) : CompletesIf (checked o) (o ≠ none) where
  completes h := by
    obtain ⟨a, rfl⟩ := Option.ne_none_iff_exists'.mp h
    exact completes_ok a
  fault h := by rw [not_not.mp h, Packages.checked]

/-- Each of two parts needs its own condition. -/
theorem CompletesIf.bind (hx : CompletesIf x P) (hf : ∀ a, x = .ok a → CompletesIf (f a) Q) :
    CompletesIf (x >>= f) (P ∧ Q) where
  completes := by
    rintro ⟨hP, hQ⟩
    obtain ⟨a, rfl⟩ := hx.completes hP
    exact (hf a rfl).completes hQ
  fault h := by
    by_cases hP : P
    · obtain ⟨a, rfl⟩ := hx.completes hP
      exact (hf a rfl).fault fun hQ => h ⟨hP, hQ⟩
    · rw [hx.fault hP]
      rfl

end Completes

/-! ### The function -/

def carriageReturn : Byte := 0x0D

def equalsSign : Byte := 0x3D

/-- The characters of a line. -/
def inInfoLine (c : Byte) : Bool := c ≠ newline ∧ c ≠ carriageReturn

/-- The string behind the first line. A `\r` takes the next character with it. -/
def nextLine (p : CString) : CString :=
  match p.dropWhile inInfoLine with
  | [] => []
  | c :: q => if c = carriageReturn then q.tail else q

/-- The loop over the lines, from `p` on and for a number of turns: the value of the key. -/
def findValue (key : CString) : ℕ → CString → Outcome (Option CString)
  | 0, _ => .error .outOfFuel
  | turns + 1, p =>
    if p = [] then .ok none
    else if (key ++ [equalsSign]).isPrefixOf p then
      .ok (some ((p.drop (key.length + 1)).takeWhile inInfoLine))
    else findValue key turns (nextLine p)

/-- `parse_info` -/
def parseInfo {n : ℕ} (buf key : CString) (value : Vector Byte n) : Outcome (Vector Byte n) := do
  match ← findValue key (buf.length + 1) buf with
  | none => .ok value
  | some v =>
    let value ← checked (storeAt value 0 v)
    checked (storeAt value v.length [0])

/-! ### Lines -/

section Lines

variable {p s key v : CString} {turns n : ℕ} {value : Vector Byte n}

theorem length_nextLine_lt (hp : p ≠ []) : (nextLine p).length < p.length := by
  have hle := (List.dropWhile_sublist inInfoLine (l := p)).length_le
  rw [nextLine]
  split
  · exact List.length_pos_of_ne_nil hp
  · next c q hdrop =>
    rw [hdrop, List.length_cons] at hle
    split
    · rw [List.length_tail]
      omega
    · exact hle

/-- The lines of the file. -/
def infoLines (s : CString) : List CString :=
  if s = [] then [] else s.takeWhile inInfoLine :: infoLines (nextLine s)
termination_by s.length
decreasing_by exact length_nextLine_lt ‹_›

/-- What is behind the key and the `=` in a line. -/
def valueOf (key line : CString) : Option CString :=
  if (key ++ [equalsSign]).isPrefixOf line then some (line.drop (key.length + 1)) else none

/-- The value of a key, in the first line that has one. -/
def lookup (info key : CString) : Option CString := (infoLines info).findSome? (valueOf key)

theorem lookup_nil : lookup [] key = none := by
  rw [lookup, infoLines, if_pos rfl, List.findSome?_nil]

theorem lookup_of_ne_nil (hs : s ≠ []) :
    lookup s key = (valueOf key (s.takeWhile inInfoLine)).or (lookup (nextLine s) key) := by
  rw [lookup, infoLines, if_neg hs, List.findSome?_cons]
  cases valueOf key (s.takeWhile inInfoLine) with
  | none => rfl
  | some v => rfl

/-- The key of a string is in its first line. -/
theorem valueOf_takeWhile (hkey : ∀ c ∈ key ++ [equalsSign], inInfoLine c = true) :
    valueOf key (p.takeWhile inInfoLine) =
      if (key ++ [equalsSign]).isPrefixOf p then
        some ((p.drop (key.length + 1)).takeWhile inInfoLine)
      else none := by
  have hlength : (key ++ [equalsSign]).length = key.length + 1 := by
    rw [List.length_append, List.length_singleton]
  by_cases hprefix : key ++ [equalsSign] <+: p
  · -- no character of the key or the `=` ends a line
    obtain ⟨q, rfl⟩ := hprefix
    have hline : (key ++ [equalsSign] ++ q).takeWhile inInfoLine =
        key ++ [equalsSign] ++ q.takeWhile inInfoLine := List.takeWhile_append_of_pos hkey
    rw [valueOf, hline, if_pos (List.isPrefixOf_iff_prefix.mpr (List.prefix_append _ _)),
      if_pos (List.isPrefixOf_iff_prefix.mpr (List.prefix_append _ _)), List.drop_left' hlength,
      List.drop_left' hlength]
  · have hline : ¬ key ++ [equalsSign] <+: p.takeWhile inInfoLine :=
      fun h => hprefix (h.trans (List.takeWhile_prefix _))
    rw [valueOf, if_neg (mt List.isPrefixOf_iff_prefix.mp hline),
      if_neg (mt List.isPrefixOf_iff_prefix.mp hprefix)]

/-- The loop finds the value of the key. -/
theorem findValue_eq_lookup (hkey : ∀ c ∈ key ++ [equalsSign], inInfoLine c = true)
    (hturns : p.length < turns) : findValue key turns p = .ok (lookup p key) := by
  induction turns generalizing p with
  | zero => exact absurd hturns (Nat.not_lt_zero _)
  | succ turns ih =>
    rw [findValue]
    by_cases hp : p = []
    · rw [if_pos hp, hp, lookup_nil]
    · rw [if_neg hp, lookup_of_ne_nil hp, valueOf_takeWhile hkey]
      split
      · rfl
      · -- the next turn starts in a shorter string
        rw [ih ((length_nextLine_lt hp).trans_le (Nat.le_of_lt_succ hturns)), Option.none_or]

/-- A value is a part of the file. -/
theorem mem_of_lookup (h : lookup s key = some v) {c : Byte} (hc : c ∈ v) : c ∈ s := by
  induction hlen : s.length using Nat.strong_induction_on generalizing s with
  | _ n ih =>
    by_cases hs : s = []
    · rw [hs, lookup_nil] at h
      exact nomatch h
    · rw [lookup_of_ne_nil hs, Option.or_eq_some_iff] at h
      rcases h with hline | ⟨-, hnext⟩
      · obtain ⟨-, hv⟩ := Option.ite_none_right_eq_some.mp hline
        obtain rfl := Option.some.inj hv
        exact (List.takeWhile_sublist inInfoLine).subset (List.mem_of_mem_drop hc)
      · -- the rest of the file is a part of it
        have hmem := ih _ (hlen ▸ length_nextLine_lt hs) hnext rfl
        refine (List.dropWhile_sublist inInfoLine).subset ?_
        rw [nextLine] at hmem
        split at hmem
        · exact absurd hmem List.not_mem_nil
        · next d q hdrop =>
          rw [hdrop]
          split at hmem
          · exact List.mem_cons_of_mem _ (List.mem_of_mem_tail hmem)
          · exact List.mem_cons_of_mem _ hmem

/-! ### The copy -/

/-- The function stores the value and the NUL behind it. -/
theorem parseInfo_eq (hkey : ∀ c ∈ key ++ [equalsSign], inInfoLine c = true) :
    parseInfo s key value = match lookup s key with
      | none => .ok value
      | some v => checked (storeAt value 0 (v ++ [0])) := by
  rw [parseInfo, findValue_eq_lookup hkey (Nat.lt_succ_self _)]
  show (match lookup s key with | none => _ | some v => _) = _
  cases lookup s key with
  | none => rfl
  | some v =>
    dsimp only
    rw [storeAt_append, Nat.zero_add]
    cases storeAt value 0 v with
    | none => rfl
    | some b => rfl

/-- The copy is inside the array if the value is shorter. -/
theorem parseInfo_completesIf (hkey : ∀ c ∈ key ++ [equalsSign], inInfoLine c = true) :
    CompletesIf (parseInfo s key value) (∀ v ∈ lookup s key, v.length < n) := by
  rw [parseInfo_eq hkey]
  cases lookup s key with
  | none => exact (CompletesIf.ok value).congr ⟨fun _ => nofun, fun _ => trivial⟩
  | some v =>
    have hlength : 0 + (v ++ [(0 : Byte)]).length = v.length + 1 := by
      rw [List.length_append, List.length_singleton, Nat.zero_add]
    refine (CompletesIf.checked _).congr ⟨fun hfits w hw => ?_, fun hshort => ?_⟩
    · obtain rfl := Option.some.inj hw
      exact Nat.lt_of_not_le fun hle => hfits (storeAt_eq_none (by omega))
    · have hv := hshort v rfl
      obtain ⟨b, hb⟩ := storeAt_of_le value 0 (v ++ [0]) (by omega)
      exact hb ▸ nofun

/-- The string that is in the array then. -/
theorem str_of_parseInfo (hkey : ∀ c ∈ key ++ [equalsSign], inInfoLine c = true) (hs : 0 ∉ s)
    {b : Vector Byte n} (h : parseInfo s key value = .ok b) :
    str b = (lookup s key).or (str value) := by
  rw [parseInfo_eq hkey] at h
  cases hv : lookup s key with
  | none =>
    rw [hv] at h
    obtain rfl := Except.ok.inj h
    rw [Option.none_or]
  | some v =>
    rw [hv] at h
    have hfree : 0 ∉ v := fun hmem => hs (mem_of_lookup hv hmem)
    rw [str_storeAt_of_not_mem (by simp) hfree (checked_eq_ok.mp h), List.take_zero, List.nil_append,
      Option.some_or]

end Lines

end KyroOS.Packages

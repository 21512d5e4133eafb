import KyroOS.Packages.Database
import Mathlib.Data.List.TakeWhile
import Mathlib.Tactic

/-!
# Removal of a package from the database

`pkg_remove` copies the lines of the other packages to a new database. A line passes through a
buffer of 256 bytes, and its package is taken to be what stands in front of its first `|`.

## Main definitions

* `Calls` — the system calls and `remove_recursive`, on states of any kind
* `scanLine`, `scanLines`, `pkgRemove` — the loop over the lines and the function
* `Entry.key`, `Entry.cut` — what the loop takes a line for
* `removeAll` — the removals of the paths of a package
* `RemovesOnly` — the other lines are left, or the file is as it was
* `Intact` — the loop copies the lines of the other packages
* `Undisturbed` — what the removal of a package needs

## Main results

* `scanLines_database` — what the loop does with a database
* `kept_eq_iff` — the lines that are kept are those of the other packages
* `removesOnly_iff` — the removal of a package keeps its promise exactly when it is undisturbed
-/

namespace KyroOS.Packages

open Vfs

/-! ### The functions -/

/-- `MAX_DB_SIZE` -/
def maxDbSize : ℕ := 16384

/-- The size of `current_line`. -/
def lineSize : ℕ := 256

/-- The size of `pkg_name_in_db`. -/
def nameSize : ℕ := 128

/-- The system calls for the database and `remove_recursive`, on states of any kind. A call that
fails leaves the state as it was, but for `removeRecursive`. -/
structure Calls (σ : Type) where
  /-- The bytes of the database. -/
  content : σ → List Byte
  openForReading : σ → Bool
  removeRecursive : σ → CString → σ × Int
  /-- `open` with `O_CREAT | O_TRUNC | O_WRONLY`. -/
  openForWriting : σ → Option σ
  write : σ → List Byte → σ

/-- What is written to a file that was just opened and truncated is its content. -/
structure Calls.Lawful {σ : Type} (calls : Calls σ) : Prop where
  write : ∀ s s' bytes, calls.openForWriting s = some s' → calls.content (calls.write s' bytes) = bytes

/-- The bytes of a line. -/
def inLine (c : Byte) : Bool := c ≠ newline ∧ c ≠ 0

/-- The bytes in front of a `|`. -/
def inField (c : Byte) : Bool := c ≠ pipe

/-- `pkg_name_in_db`. A line without a `|` is copied as a whole. -/
def pkgNameInDb (currentLine : CString) : Outcome CString :=
  if pipe ∈ currentLine then .ok ((currentLine.takeWhile inField).take (nameSize - 1))
  else if nameSize ≤ currentLine.length then .error .fault
  else .ok currentLine

/-- `install_path_in_db`, when there is a second `|`. -/
def installPathInDb (currentLine : CString) : Option CString :=
  match currentLine.dropWhile inField with
  | [] => none
  | _ :: behind =>
    match behind.dropWhile inField with
    | [] => none
    | _ :: path => some ((path.takeWhile inLine).take (maxFilenameLen - 1))

/-- `strcat(new_db_buffer, s)` -/
def strcat (newDb s : List Byte) : Outcome (List Byte) :=
  if maxDbSize ≤ newDb.length + s.length then .error .fault else .ok (newDb ++ s)

/-- A line is put behind the new database. -/
def appendLine (newDb line : List Byte) : Outcome (List Byte) := do
  let newDb ← strcat newDb line
  strcat newDb [newline]

/-- The variables of the loop, and the state of the system. -/
structure Scan (σ : Type) where
  state : σ
  newDb : List Byte
  found : Bool
  deletionSuccessful : Bool

section Remove

variable {σ : Type} (calls : Calls σ) (name : CString)

/-- The body of the loop, with the line up to its end. -/
def scanLine (line : CString) (sc : Scan σ) : Outcome (Scan σ) := do
  let currentLine := line.take (lineSize - 1)
  if (← pkgNameInDb currentLine) ≠ name then
    let newDb ← appendLine sc.newDb currentLine
    .ok { sc with newDb }
  else
    match installPathInDb currentLine with
    | none => .ok { sc with found := true }
    | some path =>
      let (state, res) := calls.removeRecursive sc.state path
      if res ≠ 0 then
        let newDb ← appendLine sc.newDb currentLine
        .ok ⟨state, newDb, true, false⟩
      else .ok { sc with state, found := true }

/-- The loop, with what is left of the database and for a number of turns. At a NUL it does not go
on to the next line. -/
def scanLines : ℕ → List Byte → Scan σ → Outcome (Scan σ)
  | 0, _, _ => .error .outOfFuel
  | turns + 1, rest, sc =>
    if rest = [] then .ok sc
    else do
      let sc ← scanLine calls name (rest.takeWhile inLine) sc
      match rest.dropWhile inLine with
      | [] => scanLines turns [] sc
      | c :: behind => scanLines turns (if c = newline then behind else c :: behind) sc

/-- The end of `pkg_remove`, behind the loop. -/
def rewriteDb (sc : Scan σ) : σ × Int :=
  if ¬ sc.found then (sc.state, -1)
  else if ¬ sc.deletionSuccessful then (sc.state, -1)
  else
    match calls.openForWriting sc.state with
    | none => (sc.state, -1)
    | some s => (calls.write s sc.newDb, 0)

/-- `pkg_remove` -/
def pkgRemove (s : σ) : Outcome (σ × Int) :=
  if calls.openForReading s then
    let db := (calls.content s).take (maxDbSize - 1)
    if db = [] then .ok (s, 0)
    else do
      let sc ← scanLines calls name (db.length + 1) db ⟨s, [], false, true⟩
      .ok (rewriteDb calls sc)
  else .ok (s, 0)

end Remove

/-! ### What the removal needs -/

/-- What the loop takes for the name of the package. -/
def Entry.key (e : Entry) : CString := e.name.takeWhile inField

/-- What the loop copies of a line. -/
def Entry.cut (e : Entry) : CString := e.text.take (lineSize - 1)

/-- What the loop takes for the path of the package. -/
def Entry.pathInDb (e : Entry) : CString := (installPathInDb e.cut).getD []

section Condition

variable {σ : Type} (calls : Calls σ)

/-- The removals of some paths, and whether all of them return 0. -/
def removeAll (s : σ) : List CString → σ × Bool
  | [] => (s, true)
  | path :: paths =>
    let (s, res) := calls.removeRecursive s path
    let (s, successful) := removeAll s paths
    (s, decide (res = 0) && successful)

/-- The paths that are removed with a package. -/
def pathsOf (entries : List Entry) (name : CString) : List CString :=
  (entries.filter fun e => e.key = name).map Entry.pathInDb

/-- If the call returns 0 the database has the lines of the other packages, and if it returns -1 the
database is as it was. -/
def RemovesOnly (s : σ) (entries : List Entry) (name : CString) : Prop :=
  ∃ s' res, pkgRemove calls name s = .ok (s', res) ∧
    (res = 0 → calls.content s' = database (entries.filter fun e => e.name ≠ name)) ∧
      (res = -1 → calls.content s' = calls.content s)

/-- The lines of the other packages fit the buffer, and none of them is taken for one of the
package. -/
def Intact (entries : List Entry) (name : CString) : Prop :=
  ∀ e ∈ entries, e.name ≠ name → e.text.length < lineSize ∧ e.key ≠ name

/-- The database can be read unless it has no line of the package. When the loop finds a line, the
other lines are intact, or the database is not rewritten and the removals have left it alone. -/
def Undisturbed (s : σ) (entries : List Entry) (name : CString) : Prop :=
  if calls.openForReading s then
    (∃ e ∈ entries, e.key = name) →
      if (removeAll calls s (pathsOf entries name)).2 ∧
          (calls.openForWriting (removeAll calls s (pathsOf entries name)).1).isSome then
        Intact entries name
      else calls.content (removeAll calls s (pathsOf entries name)).1 = calls.content s
  else ∀ e ∈ entries, e.name ≠ name

/-- The new database: the lines that are not taken for one of the package. -/
def kept (entries : List Entry) (name : CString) : List Byte :=
  (entries.filter fun e => e.key ≠ name).flatMap fun e => e.cut ++ [newline]

end Condition

/-! ### A line -/

section Line

variable {a w : CString} {e : Entry} {name : CString}

/-- What is in front of the first `|` does not depend on what is behind any. -/
theorem takeWhile_inField : (a ++ pipe :: w).takeWhile inField = a.takeWhile inField := by
  induction a with
  | nil => rfl
  | cons c a ih =>
    rw [List.cons_append, List.takeWhile_cons, List.takeWhile_cons, ih]

/-- Behind the first `|` is all that is behind another one. -/
theorem dropWhile_inField : ∃ behind,
    (a ++ pipe :: w).dropWhile inField = pipe :: behind ∧ w <:+ behind := by
  induction a with
  | nil => exact ⟨w, rfl, List.suffix_refl w⟩
  | cons c a ih =>
    obtain ⟨behind, hbehind, hsuffix⟩ := ih
    by_cases hc : c = pipe
    · refine ⟨a ++ pipe :: w, ?_, (List.suffix_cons pipe w).trans (List.suffix_append a _)⟩
      rw [hc]
      rfl
    · have hfield : inField c = true := decide_eq_true hc
      refine ⟨behind, ?_, hsuffix⟩
      rw [List.cons_append, List.dropWhile_cons_of_pos hfield, hbehind]

/-- The line is cut behind its second `|`. -/
theorem Entry.cut_eq (e : Entry) :
    ∃ path, e.cut = e.name ++ pipe :: (e.version ++ pipe :: path) := by
  have hname := e.name_length
  have hversion := e.version_length
  refine ⟨e.path.take (lineSize - 1 - e.name.length - 1 - e.version.length - 1), ?_⟩
  have hcut : ∀ (a w : CString) (n : ℕ), a.length < n →
      (a ++ pipe :: w).take n = a ++ pipe :: w.take (n - a.length - 1) := by
    intro a w n hlt
    rw [List.take_append, List.take_of_length_le hlt.le]
    obtain ⟨k, hk⟩ : ∃ k, n - a.length = k + 1 := ⟨n - a.length - 1, by omega⟩
    rw [hk]
    rfl
  unfold Entry.cut Entry.text lineSize
  rw [hcut e.name _ _ (by omega), hcut e.version _ _ (by omega)]

theorem pkgNameInDb_cut (e : Entry) : pkgNameInDb e.cut = .ok e.key := by
  obtain ⟨path, hpath⟩ := e.cut_eq
  have hmem : pipe ∈ e.cut := by
    rw [hpath]
    exact List.mem_append_right _ List.mem_cons_self
  have hshort : (e.name.takeWhile inField).length ≤ nameSize - 1 :=
    (List.takeWhile_sublist _).length_le.trans (Nat.le_sub_one_of_lt e.name_length)
  rw [pkgNameInDb, if_pos hmem, hpath, takeWhile_inField, List.take_of_length_le hshort]
  rfl

theorem installPathInDb_cut (e : Entry) : installPathInDb e.cut = some e.pathInDb := by
  have hsome : (installPathInDb e.cut).isSome := by
    obtain ⟨path, hpath⟩ := e.cut_eq
    obtain ⟨behind, hbehind, v, hv⟩ := dropWhile_inField (a := e.name) (w := e.version ++ pipe :: path)
    obtain ⟨rest, hrest, -⟩ := dropWhile_inField (a := v ++ e.version) (w := path)
    rw [List.append_assoc, hv] at hrest
    rw [installPathInDb, hpath, hbehind]
    dsimp only
    rw [hrest]
    rfl
  obtain ⟨path, hpath⟩ := Option.isSome_iff_exists.mp hsome
  rw [Entry.pathInDb, hpath]
  rfl

theorem Entry.length_cut (e : Entry) : e.cut.length ≤ e.text.length := by
  rw [Entry.cut, List.length_take]
  exact Nat.min_le_right _ _

end Line

/-! ### The loop -/

section Loop

variable {σ : Type} {calls : Calls σ} {name : CString} {sc : Scan σ} {e : Entry}
  {entries : List Entry} {turns : ℕ} {s : σ}

theorem appendLine_eq {newDb line : List Byte} (hroom : newDb.length + line.length + 1 < maxDbSize) :
    appendLine newDb line = .ok (newDb ++ (line ++ [newline])) := by
  have hfirst : strcat newDb line = .ok (newDb ++ line) := if_neg (by omega)
  have hlast : strcat (newDb ++ line) [newline] = .ok (newDb ++ line ++ [newline]) := by
    refine if_neg ?_
    rw [List.length_append]
    exact not_le.mpr hroom
  rw [appendLine, hfirst, ← List.append_assoc]
  exact hlast

/-- A line of another package is put behind the new database. -/
theorem scanLine_of_ne (hroom : sc.newDb.length + e.text.length + 1 < maxDbSize)
    (hkey : e.key ≠ name) : scanLine calls name e.text sc =
      .ok { sc with newDb := sc.newDb ++ (e.cut ++ [newline]) } := by
  have hlength := e.length_cut
  have happend := appendLine_eq (show sc.newDb.length + e.cut.length + 1 < maxDbSize by omega)
  rw [scanLine, ← Entry.cut, pkgNameInDb_cut]
  show (if e.key ≠ name then _ else _) = _
  rw [if_pos hkey, happend]
  rfl

/-- The path in a line of the package is removed. When that fails the line is kept. -/
theorem scanLine_of_eq (hroom : sc.newDb.length + e.text.length + 1 < maxDbSize)
    (hkey : e.key = name) : scanLine calls name e.text sc =
      .ok ⟨(calls.removeRecursive sc.state e.pathInDb).1,
        if (calls.removeRecursive sc.state e.pathInDb).2 = 0 then sc.newDb
        else sc.newDb ++ (e.cut ++ [newline]),
        true,
        sc.deletionSuccessful && decide ((calls.removeRecursive sc.state e.pathInDb).2 = 0)⟩ := by
  have hlength := e.length_cut
  have happend := appendLine_eq (show sc.newDb.length + e.cut.length + 1 < maxDbSize by omega)
  rw [scanLine, ← Entry.cut, pkgNameInDb_cut]
  show (if e.key ≠ name then _ else _) = _
  rw [if_neg (not_not.mpr hkey), installPathInDb_cut]
  dsimp only
  by_cases hres : (calls.removeRecursive sc.state e.pathInDb).2 = 0
  · rw [if_neg (not_not.mpr hres), if_pos hres, decide_eq_true hres, Bool.and_true]
  · rw [if_pos hres, if_neg hres, decide_eq_false hres, Bool.and_false, happend]
    rfl

theorem database_cons : database (e :: entries) = e.text ++ newline :: database entries := by
  rw [database, List.flatMap_cons, List.append_assoc]
  rfl

/-- A turn of the loop takes the first line. -/
theorem scanLines_cons : scanLines calls name (turns + 1) (database (e :: entries)) sc = (do
    let sc ← scanLine calls name e.text sc
    scanLines calls name turns (database entries) sc) := by
  have hline : ∀ c ∈ e.text, inLine c = true := fun c hc => decide_eq_true (Entry.mem_text hc)
  have hend : ¬ inLine newline = true := by decide
  have hne : e.text ++ newline :: database entries ≠ [] := by simp
  rw [scanLines, database_cons, if_neg hne, takeWhile_append_cons hline hend,
    dropWhile_append_cons hline hend]
  rfl

theorem removeAll_cons {path : CString} {paths : List CString} :
    removeAll calls s (path :: paths) =
      ((removeAll calls (calls.removeRecursive s path).1 paths).1,
        decide ((calls.removeRecursive s path).2 = 0) &&
          (removeAll calls (calls.removeRecursive s path).1 paths).2) := rfl

/-- What the loop does with a database. -/
theorem scanLines_database (sc : Scan σ) (hturns : entries.length < turns)
    (hroom : sc.newDb.length + (database entries).length < maxDbSize) :
    ∃ newDb, scanLines calls name turns (database entries) sc =
      .ok ⟨(removeAll calls sc.state (pathsOf entries name)).1, newDb,
        sc.found || entries.any fun e => e.key = name,
        sc.deletionSuccessful && (removeAll calls sc.state (pathsOf entries name)).2⟩ ∧
      ((removeAll calls sc.state (pathsOf entries name)).2 = true →
        newDb = sc.newDb ++ kept entries name) := by
  induction entries generalizing sc turns with
  | nil =>
    obtain ⟨turns, rfl⟩ := Nat.exists_eq_succ_of_ne_zero (Nat.ne_of_gt hturns)
    refine ⟨sc.newDb, ?_, fun _ => (List.append_nil _).symm⟩
    rw [List.any_nil, Bool.or_false]
    exact congrArg Except.ok (by rw [pathsOf]; simp [removeAll])
  | cons e entries ih =>
    obtain ⟨turns, rfl⟩ := Nat.exists_eq_succ_of_ne_zero (Nat.ne_of_gt (Nat.zero_lt_of_lt hturns))
    have hlength : (database (e :: entries)).length =
        e.text.length + 1 + (database entries).length := by
      rw [database_cons, List.length_append, List.length_cons]
      omega
    rw [hlength] at hroom
    have hcut := e.length_cut
    have hmore : entries.length < turns := Nat.lt_of_succ_lt_succ hturns
    rw [scanLines_cons]
    by_cases hkey : e.key = name
    · have hpaths : pathsOf (e :: entries) name = e.pathInDb :: pathsOf entries name := by
        simp [pathsOf, hkey]
      have hkept : kept (e :: entries) name = kept entries name := by simp [kept, hkey]
      rw [scanLine_of_eq (by omega) hkey, hpaths, removeAll_cons, hkept]
      obtain ⟨newDb, hscan, hnew⟩ := ih ⟨(calls.removeRecursive sc.state e.pathInDb).1,
        if (calls.removeRecursive sc.state e.pathInDb).2 = 0 then sc.newDb
        else sc.newDb ++ (e.cut ++ [newline]), true,
        sc.deletionSuccessful && decide ((calls.removeRecursive sc.state e.pathInDb).2 = 0)⟩ hmore
        (by
          dsimp only
          split
          · omega
          · rw [List.length_append, List.length_append, List.length_singleton]
            omega)
      refine ⟨newDb, ?_, fun hsuccess => ?_⟩
      · show scanLines calls name turns (database entries) _ = _
        rw [hscan]
        simp [hkey, Bool.and_assoc]
      · obtain ⟨hres, hrest⟩ := (Bool.and_eq_true _ _).mp hsuccess
        rw [hnew hrest, if_pos (of_decide_eq_true hres)]
    · have hpaths : pathsOf (e :: entries) name = pathsOf entries name := by
        simp [pathsOf, hkey]
      have hkept : kept (e :: entries) name = e.cut ++ [newline] ++ kept entries name := by
        simp [kept, hkey]
      rw [scanLine_of_ne (by omega) hkey, hpaths, hkept]
      obtain ⟨newDb, hscan, hnew⟩ := ih { sc with newDb := sc.newDb ++ (e.cut ++ [newline]) } hmore
        (by
          rw [List.length_append, List.length_append, List.length_singleton]
          omega)
      refine ⟨newDb, ?_, fun hsuccess => ?_⟩
      · show scanLines calls name turns (database entries) _ = _
        rw [hscan]
        simp [hkey]
      · rw [hnew hsuccess, List.append_assoc]

/-- Every line has a byte. -/
theorem length_le_database (entries : List Entry) : entries.length ≤ (database entries).length := by
  induction entries with
  | nil => exact Nat.zero_le _
  | cons e entries ih =>
    rw [database_cons, List.length_append, List.length_cons, List.length_cons]
    omega

/-! ### What is kept -/

/-- A package that a line is taken for has no `|` in its name. -/
theorem key_eq_of_key_eq {e' : Entry} (hkey : e.key = name) (hname : e'.name = name) :
    e'.key = name := by
  have hplain : ∀ c ∈ name, inField c = true := by
    intro c hc
    rw [← hkey] at hc
    exact List.mem_takeWhile_imp hc
  rw [Entry.key, hname]
  exact List.takeWhile_eq_self_iff.mpr hplain

/-- The lines that are kept are those of the other packages, if and only if these are intact. -/
theorem kept_eq_iff (hfound : ∃ e ∈ entries, e.key = name) :
    kept entries name = database (entries.filter fun e => e.name ≠ name) ↔
      Intact entries name := by
  obtain ⟨e₀, -, hkey₀⟩ := hfound
  have hsub : (entries.filter fun e => e.key ≠ name).Sublist
      (entries.filter fun e => e.name ≠ name) := by
    refine List.monotone_filter_right entries fun e he => ?_
    have hne : e.key ≠ name := of_decide_eq_true he
    exact decide_eq_true fun hname => hne (key_eq_of_key_eq hkey₀ hname)
  constructor
  · intro heq e he hname
    have hlines : ((entries.filter fun e => e.key ≠ name).map Entry.cut) =
        (entries.filter fun e => e.name ≠ name).map Entry.text := by
      refine flatMap_concat_inj (p := inLine) (x := newline) ?_ ?_ (by decide) ?_
      · intro a ha c hc
        obtain ⟨e', -, rfl⟩ := List.mem_map.mp ha
        exact decide_eq_true (Entry.mem_text (List.mem_of_mem_take hc))
      · intro b hb c hc
        obtain ⟨e', -, rfl⟩ := List.mem_map.mp hb
        exact decide_eq_true (Entry.mem_text hc)
      · rw [List.flatMap_map, List.flatMap_map]
        exact heq
    have hsame := hsub.eq_of_length (by
      have hlength := congrArg List.length hlines
      rwa [List.length_map, List.length_map] at hlength)
    have hmem : e ∈ entries.filter fun e => e.name ≠ name :=
      List.mem_filter.mpr ⟨he, decide_eq_true hname⟩
    rw [hsame] at hlines
    have hcut : e.cut = e.text := List.map_inj_left.mp hlines e hmem
    rw [← hsame] at hmem
    refine ⟨?_, of_decide_eq_true (List.mem_filter.mp hmem).2⟩
    rw [← hcut, Entry.cut, List.length_take]
    exact (Nat.min_le_left _ _).trans_lt (by decide)
  · intro hintact
    have hsame : (entries.filter fun e => e.key ≠ name) =
        entries.filter fun e => e.name ≠ name := by
      refine List.filter_congr fun e he => decide_eq_decide.mpr ⟨?_, ?_⟩
      · exact fun hne hname => hne (key_eq_of_key_eq hkey₀ hname)
      · exact fun hne => (hintact e he hne).2
    rw [kept, database, hsame]
    refine List.flatMap_congr fun e he => ?_
    obtain ⟨hmem, hname⟩ := List.mem_filter.mp he
    have hshort := (hintact e hmem (of_decide_eq_true hname)).1
    rw [Entry.cut, List.take_of_length_le (Nat.le_sub_one_of_lt hshort)]

/-! ### The function -/

/-- What the function does with a database that is not empty. -/
theorem pkgRemove_database (hcontent : calls.content s = database entries)
    (hsize : (database entries).length < maxDbSize) (hopen : calls.openForReading s = true)
    (hne : entries ≠ []) :
    ∃ newDb, pkgRemove calls name s =
      .ok (rewriteDb calls ⟨(removeAll calls s (pathsOf entries name)).1, newDb,
        entries.any fun e => e.key = name, (removeAll calls s (pathsOf entries name)).2⟩) ∧
      ((removeAll calls s (pathsOf entries name)).2 = true → newDb = kept entries name) := by
  have hdb : database entries ≠ [] := by
    obtain ⟨e, rest, rfl⟩ := List.exists_cons_of_ne_nil hne
    rw [database_cons]
    simp
  have hturns : entries.length < (database entries).length + 1 :=
    Nat.lt_succ_of_le (length_le_database entries)
  have hroom : ([] : List Byte).length + (database entries).length < maxDbSize := by
    rwa [List.length_nil, Nat.zero_add]
  obtain ⟨newDb, hscan, hnew⟩ := scanLines_database ⟨s, [], false, true⟩ hturns hroom
  refine ⟨newDb, ?_, hnew⟩
  rw [pkgRemove, if_pos hopen, hcontent, List.take_of_length_le (Nat.le_sub_one_of_lt hsize),
    if_neg hdb, hscan]
  rfl

/-- Without a line that is taken for one of the package the call fails, unless there are no lines at
all, and leaves the state as it was. -/
theorem pkgRemove_of_not_found (hcontent : calls.content s = database entries)
    (hsize : (database entries).length < maxDbSize) (hopen : calls.openForReading s = true)
    (hnone : ∀ e ∈ entries, e.key ≠ name) :
    pkgRemove calls name s = .ok (s, if entries = [] then 0 else -1) := by
  by_cases hne : entries = []
  · rw [if_pos hne, pkgRemove, if_pos hopen, hcontent, hne]
    rfl
  · obtain ⟨newDb, hres, -⟩ := pkgRemove_database hcontent hsize hopen hne
    have hpaths : pathsOf entries name = [] := by
      have hfilter : (entries.filter fun e => e.key = name) = [] :=
        List.filter_eq_nil_iff.mpr fun e he hkey => hnone e he (of_decide_eq_true hkey)
      rw [pathsOf, hfilter]
      rfl
    have hany : (entries.any fun e => e.key = name) = false :=
      List.any_eq_false.mpr fun e he hkey => hnone e he (of_decide_eq_true hkey)
    rw [if_neg hne, hres, hpaths, hany]
    rfl

/-- With a line that is taken for one of the package the paths are removed, and the database is
written when that succeeds. -/
theorem pkgRemove_of_found (hcontent : calls.content s = database entries)
    (hsize : (database entries).length < maxDbSize) (hopen : calls.openForReading s = true)
    (hfound : ∃ e ∈ entries, e.key = name) :
    pkgRemove calls name s = .ok (
      match calls.openForWriting (removeAll calls s (pathsOf entries name)).1 with
      | none => ((removeAll calls s (pathsOf entries name)).1, -1)
      | some s' =>
        if (removeAll calls s (pathsOf entries name)).2 then
          (calls.write s' (kept entries name), 0)
        else ((removeAll calls s (pathsOf entries name)).1, -1)) := by
  obtain ⟨e, he, hkey⟩ := hfound
  have hany : (entries.any fun e => e.key = name) = true :=
    List.any_eq_true.mpr ⟨e, he, decide_eq_true hkey⟩
  obtain ⟨newDb, hres, hnew⟩ := pkgRemove_database hcontent hsize hopen (List.ne_nil_of_mem he)
  rw [hany] at hres
  rw [hres, rewriteDb]
  by_cases hsuccess : (removeAll calls s (pathsOf entries name)).2 = true
  · rw [hnew hsuccess]
    cases calls.openForWriting (removeAll calls s (pathsOf entries name)).1 with
    | none => simp [hsuccess]
    | some s' => simp [hsuccess]
  · cases calls.openForWriting (removeAll calls s (pathsOf entries name)).1 with
    | none => simp [hsuccess]
    | some s' => simp [hsuccess]

/-- A database with the lines of the other packages only has none of the package. -/
theorem database_filter_eq_iff :
    database (entries.filter fun e => e.name ≠ name) = database entries ↔
      ∀ e ∈ entries, e.name ≠ name := by
  have hplain : ∀ l : List Entry, ∀ a ∈ l.map Entry.text, ∀ c ∈ a, inLine c = true := by
    intro l a ha c hc
    obtain ⟨e, -, rfl⟩ := List.mem_map.mp ha
    exact decide_eq_true (Entry.mem_text hc)
  constructor
  · intro heq e he
    have hlines : ((entries.filter fun e => e.name ≠ name).map Entry.text) =
        entries.map Entry.text := by
      refine flatMap_concat_inj (x := newline) (hplain _) (hplain _) (by decide) ?_
      rw [List.flatMap_map, List.flatMap_map]
      exact heq
    have hlength := congrArg List.length hlines
    rw [List.length_map, List.length_map] at hlength
    exact of_decide_eq_true (List.length_filter_eq_length_iff.mp hlength e he)
  · intro hnone
    rw [List.filter_eq_self.mpr fun e he => decide_eq_true (hnone e he)]

/-- What a call does that has returned. -/
theorem removesOnly_of_eq {s' : σ} {res : Int} (hres : pkgRemove calls name s = .ok (s', res)) :
    RemovesOnly calls s entries name ↔
      (res = 0 → calls.content s' = database (entries.filter fun e => e.name ≠ name)) ∧
        (res = -1 → calls.content s' = calls.content s) := by
  constructor
  · rintro ⟨s₁, res₁, hres₁, h⟩
    obtain ⟨rfl, rfl⟩ := Prod.mk.inj (Except.ok.inj (hres.symm.trans hres₁))
    exact h
  · exact fun h => ⟨s', res, hres, h⟩

theorem removesOnly_of_zero {s' : σ} (hres : pkgRemove calls name s = .ok (s', 0)) :
    RemovesOnly calls s entries name ↔
      calls.content s' = database (entries.filter fun e => e.name ≠ name) := by
  rw [removesOnly_of_eq hres]
  exact ⟨fun h => h.1 rfl, fun h => ⟨fun _ => h, fun hneg => absurd hneg (by decide)⟩⟩

theorem removesOnly_of_failed {s' : σ} (hres : pkgRemove calls name s = .ok (s', -1)) :
    RemovesOnly calls s entries name ↔ calls.content s' = calls.content s := by
  rw [removesOnly_of_eq hres]
  exact ⟨fun h => h.2 rfl, fun h => ⟨fun hzero => absurd hzero (by decide), fun _ => h⟩⟩

/-- The removal of a package returns, with the lines of the other packages or the database as it
was, if and only if nothing disturbs it: the database can be read or has no line of the package, and
when the loop finds a line, the other packages' lines have less than 256 bytes and are taken for
lines of other packages, or the removals fail, or the opening for writing, with the database left
alone. -/
theorem removesOnly_iff (hlawful : calls.Lawful) (hcontent : calls.content s = database entries)
    (hsize : (database entries).length < maxDbSize) :
    RemovesOnly calls s entries name ↔ Undisturbed calls s entries name := by
  by_cases hopen : calls.openForReading s = true
  · rw [Undisturbed, if_pos hopen]
    by_cases hfound : ∃ e ∈ entries, e.key = name
    · rw [forall_prop_of_true hfound]
      have hres := pkgRemove_of_found hcontent hsize hopen hfound
      cases hwrite : calls.openForWriting (removeAll calls s (pathsOf entries name)).1 with
      | none =>
        rw [hwrite] at hres
        rw [removesOnly_of_failed hres, if_neg (by simp)]
      | some s' =>
        rw [hwrite] at hres
        by_cases hsuccess : (removeAll calls s (pathsOf entries name)).2 = true
        · dsimp only at hres
          rw [if_pos hsuccess] at hres
          rw [removesOnly_of_zero hres, if_pos ⟨hsuccess, rfl⟩, hlawful.write _ _ _ hwrite,
            kept_eq_iff hfound]
        · dsimp only at hres
          rw [if_neg hsuccess] at hres
          rw [removesOnly_of_failed hres, if_neg fun h => hsuccess h.1]
    · have hnone : ∀ e ∈ entries, e.key ≠ name := fun e he hkey => hfound ⟨e, he, hkey⟩
      refine ⟨fun _ hex => absurd hex hfound, fun _ => ?_⟩
      refine (removesOnly_of_eq (pkgRemove_of_not_found hcontent hsize hopen hnone)).mpr
        ⟨fun hzero => ?_, fun _ => rfl⟩
      split at hzero
      · next hnil =>
        rw [hcontent, hnil]
        rfl
      · exact absurd hzero (by decide)
  · have hres : pkgRemove calls name s = .ok (s, 0) := by rw [pkgRemove, if_neg hopen]
    rw [removesOnly_of_zero hres, Undisturbed, if_neg hopen, ← database_filter_eq_iff, hcontent]
    exact eq_comm

end Loop

/-! ### A database file by itself -/

/-- A system whose state is the database, with packages that have no files. -/
def plainCalls : Calls (List Byte) where
  content db := db
  openForReading _ := true
  removeRecursive db _ := (db, 0)
  openForWriting _ := some []
  write db bytes := db ++ bytes

theorem plainCalls_lawful : plainCalls.Lawful where
  write s s' bytes hopen := by
    obtain rfl : [] = s' := Option.some.inj hopen
    rfl

/-- A package with a name and a version of one letter. -/
def shortEntry (name version : Byte) (path : CString) (hpath : path.length < 256)
    (hplain : ∀ c ∈ name :: version :: path, c ≠ newline ∧ c ≠ 0) : Entry where
  name := [name]
  version := [version]
  path := path
  name_length := by simp
  version_length := by simp
  path_length := hpath
  plain c hc := hplain c (by simpa using hc)

/-- The package `a` at `/a`. -/
def packageA : Entry := shortEntry 0x61 0x31 (cstring ['/', 'a']) (by decide) (by
  intro c hc
  simp only [cstring, List.map, List.mem_cons, List.not_mem_nil, or_false] at hc
  rcases hc with rfl | rfl | rfl | rfl
  all_goals decide)

/-- The package `b` at a path of the letter `y`. -/
def packageB (length : ℕ) (hlength : length < 256) : Entry :=
  shortEntry 0x62 0x31 (List.replicate length 0x79) (by rwa [List.length_replicate]) (by
    intro c hc
    rcases List.mem_cons.mp hc with rfl | hc
    · decide
    · rcases List.mem_cons.mp hc with rfl | hc
      · decide
      · rw [List.eq_of_mem_replicate hc]
        decide)

theorem length_packageB {length : ℕ} (hlength : length < 256) :
    (packageB length hlength).text.length = length + 4 := by
  simp [Entry.text, packageB, shortEntry]

/-- The package `a` is removed, and the line of the package `b` is left. -/
theorem removesOnly_packageA : RemovesOnly plainCalls
    (database [packageA, packageB 3 (by decide)]) [packageA, packageB 3 (by decide)]
    (cstring ['a']) := by
  refine (removesOnly_iff plainCalls_lawful rfl (by decide)).mpr ?_
  show (∃ e ∈ [packageA, packageB 3 (by decide)], e.key = cstring ['a']) → (if _ then _ else _)
  intro _
  rw [if_pos (by decide)]
  unfold Intact
  decide

/-- The line of a package at a path of 255 letters is cut when another package is removed. -/
theorem not_removesOnly : ¬ ∀ (σ : Type) (calls : Calls σ) (s : σ) (entries : List Entry)
    (name : CString), calls.Lawful → calls.content s = database entries →
      (database entries).length < maxDbSize → RemovesOnly calls s entries name := by
  intro hall
  have hsize : (database [packageA, packageB 255 (by decide)]).length < maxDbSize := by
    have hfirst : packageA.text.length = 6 := by decide
    rw [database_cons, database_cons, List.length_append, List.length_cons, List.length_append,
      List.length_cons, hfirst, length_packageB]
    decide
  have honly := hall _ plainCalls _ [packageA, packageB 255 (by decide)] (cstring ['a'])
    plainCalls_lawful rfl hsize
  have hfound : ∃ e ∈ [packageA, packageB 255 (by decide)], e.key = cstring ['a'] :=
    ⟨packageA, List.mem_cons_self, by decide⟩
  have hres := pkgRemove_of_found (show plainCalls.content _ = _ from rfl) hsize rfl hfound
  have hkept := (removesOnly_of_zero hres).mp honly
  have hintact := (kept_eq_iff hfound).mp hkept (packageB 255 (by decide)) (by simp) (by decide)
  have hlong := hintact.1
  rw [length_packageB] at hlong
  exact absurd hlong (by decide)

end KyroOS.Packages

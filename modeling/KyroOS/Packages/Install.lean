import KyroOS.Packages.Archive
import Mathlib.Tactic

/-!
# Installation of a package

`pkg_install_file` reads an archive twice: for the file `info.txt`, and for the files that it
extracts. Headers, names and sizes are taken from the archive as they are.

## Main definitions

* `Locals`, `InstallCalls` — the arrays of the function, and the system calls
* `firstPass`, `secondPass`, `pkgInstallFile` — the two loops and the function
* `mkdirP` — the directories of a path

## Main results

* `mkdirP_of_str` — the path is as it was when its directories are made
* `fullPathOf_of_str`, `entryLineOf_of_str` — what is put together fits into its array
* `extractEntry_of_str` — an entry with a name is extracted
-/

namespace KyroOS.Packages

open Vfs BoundedArray

/-! ### The functions -/

/-- The arrays of the function. What they hold at first is not known. -/
structure Locals where
  name : Vector Byte 128
  version : Vector Byte 32
  installPath : Vector Byte 256
  metaBuf : Vector Byte 512
  discardBuf : Vector Byte bufSize
  fileBuf : Vector Byte bufSize
  fullPath : Vector Byte 512
  dirPath : Vector Byte 512
  entryLine : Vector Byte 512

/-- The system calls, on states of any kind. -/
structure InstallCalls (σ : Type) where
  mkdir : σ → CString → σ × Int
  create : σ → CString → σ × Int
  write : σ → Int → List Byte → σ
  /-- `open` of the database, which returns `dbFd`. -/
  openDb : σ → σ
  dbFd : Int
  /-- The byte in front of `full_path`, which is read when the path is empty. -/
  beforeFullPath : Byte

/-- `meta/info.txt` -/
def infoName : CString :=
  cstring ['m', 'e', 't', 'a', '/', 'i', 'n', 'f', 'o', '.', 't', 'x', 't']

def nameKey : CString := cstring ['n', 'a', 'm', 'e']

def versionKey : CString := cstring ['v', 'e', 'r', 's', 'i', 'o', 'n']

def installPathKey : CString :=
  cstring ['i', 'n', 's', 't', 'a', 'l', 'l', '_', 'p', 'a', 't', 'h']

/-- `EEXIST` -/
def eexist : Int := 17

/-- A call of `mkdir` that has failed, and not because the directory exists. -/
def mkdirFailed (ret : Int) : Bool := ret < 0 ∧ ret ≠ -eexist

/-- `entry.is_meta && strcmp(entry.filename, "meta/info.txt") == 0` -/
def isInfoEntry (e : KpkgEntry) : Outcome Bool :=
  if e.isMeta = 0 then .ok false
  else do
    let filename ← checked (str e.filename)
    .ok (filename = infoName)

/-- The three calls of `parse_info`. -/
def parseFields (l : Locals) (info : CString) : Outcome Locals := do
  let name ← parseInfo info nameKey l.name
  let version ← parseInfo info versionKey l.version
  let installPath ← parseInfo info installPathKey l.installPath
  .ok { l with name, version, installPath }

/-- The body of the first loop for `info.txt`, with the bytes behind the header. The size is taken
for an `int` when it is compared with the number of bytes that were read. -/
def readInfo (l : Locals) (e : KpkgEntry) (data : List Byte) : Outcome (Option Locals) := do
  let bytes := data.take e.size.toNat
  let metaBuf ← checked (storeAt l.metaBuf 0 bytes)
  if (bytes.length : Int) = e.size.toInt then
    let metaBuf ← checked (storeAt metaBuf e.size.toNat [0])
    let info ← checked (str metaBuf)
    let l ← parseFields { l with metaBuf } info
    .ok (some l)
  else .ok none

/-- The first loop, with what is left of the archive and for a number of turns. -/
def firstPass (l : Locals) : ℕ → List Byte → Outcome (Option Locals)
  | 0, _ => .error .outOfFuel
  | turns + 1, data =>
    match readEntry data with
    | none => .ok none
    | some (e, rest) => do
      if ← isInfoEntry e then readInfo l e rest
      else
        let (_, rest) ← readData (fun _ _ => ()) (rest.length + 1) l.discardBuf e.size.toInt rest ()
        firstPass l turns rest

/-- `full_path` -/
def fullPathOf (l : Locals) (e : KpkgEntry) : Outcome (Vector Byte 512) := do
  let installPath ← checked (str l.installPath)
  let filename ← checked (str e.filename)
  if installPath = [slash] then checked (strcpy l.fullPath filename)
  else
    let fullPath ← checked (strcpy l.fullPath installPath)
    let fullPath ← checked (strcat fullPath [slash])
    checked (strcat fullPath filename)

/-- `entry_line` -/
def entryLineOf (l : Locals) : Outcome (Vector Byte 512) := do
  let name ← checked (str l.name)
  let version ← checked (str l.version)
  let installPath ← checked (str l.installPath)
  let line ← checked (strcpy l.entryLine name)
  let line ← checked (strcat line [pipe])
  let line ← checked (strcat line version)
  let line ← checked (strcat line [pipe])
  let line ← checked (strcat line installPath)
  checked (strcat line [newline])

section Install

variable {σ : Type} (calls : InstallCalls σ)

/-- The loop of `mkdir_p`, from the character `p` on and for a number of turns. A slash is replaced
while the directory in front of it is made. -/
def mkdirLoop {n : ℕ} : ℕ → ℕ → Vector Byte n → σ → Outcome (Vector Byte n × σ × Int)
  | 0, _, _, _ => .error .outOfFuel
  | turns + 1, p, path, s =>
    match path.toList[p]? with
    | none => .error .fault
    | some c =>
      if c = 0 then .ok (path, s, 0)
      else if c = slash then do
        let cut ← checked (storeAt path p [0])
        let dir ← checked (str cut)
        let (s, ret) := calls.mkdir s dir
        let path ← checked (storeAt cut p [slash])
        if mkdirFailed ret then .ok (path, s, ret) else mkdirLoop turns (p + 1) path s
      else mkdirLoop turns (p + 1) path s

/-- `mkdir_p` -/
def mkdirP {n : ℕ} (path : Vector Byte n) (s : σ) : Outcome (Vector Byte n × σ × Int) := do
  let start := if path.toList.head? = some slash then 1 else 0
  let (path, s, ret) ← mkdirLoop calls (n + 1) start path s
  if ret ≠ 0 then .ok (path, s, ret)
  else
    let dir ← checked (str path)
    if dir = [] then .ok (path, s, 0)
    else
      let (s, ret) := calls.mkdir s dir
      .ok (path, s, if mkdirFailed ret then ret else 0)

/-- The directories that a file is in. `full` is the string in `full_path`. -/
def makeParents (l : Locals) (full : CString) (s : σ) : Outcome σ := do
  let dirPath ← checked (strcpy l.dirPath full)
  let path ← checked (str dirPath)
  match splitLast path with
  | none => .ok s
  | some (dir, _) => do
    let dirPath ← checked (storeAt dirPath dir.length [0])
    let (_, s, _) ← mkdirP calls dirPath s
    .ok s

/-- The body of the second loop for a directory or a file, with the bytes behind the header. -/
def extractEntry (l : Locals) (e : KpkgEntry) (data : List Byte) (s : σ) :
    Outcome (σ × List Byte) := do
  let fullPath ← fullPathOf l e
  let full ← checked (str fullPath)
  if e.size = 0 ∨ full.getLast?.getD calls.beforeFullPath = slash then
    let (_, s, _) ← mkdirP calls fullPath s
    readData (fun s _ => s) (data.length + 1) l.fileBuf e.size.toInt data s
  else
    let s ← makeParents calls l full s
    let (s, outFd) := calls.create s full
    -- the data of a file that cannot be made is skipped
    let write := fun s bytes => if outFd < 0 then s else calls.write s outFd bytes
    readData write (data.length + 1) l.fileBuf e.size.toInt data s

/-- The second loop, with what is left of the archive and for a number of turns. -/
def secondPass (l : Locals) : ℕ → List Byte → σ → Outcome σ
  | 0, _, _ => .error .outOfFuel
  | turns + 1, data, s =>
    match readEntry data with
    | none => .ok s
    | some (e, rest) => do
      let (s, rest) ←
        if e.isMeta = 0 then extractEntry calls l e rest s
        else readData (fun s _ => s) (rest.length + 1) l.fileBuf e.size.toInt rest s
      secondPass l turns rest s

/-- What is done when `info.txt` was read: the second loop, and a line in the database. -/
def installFiles (l : Locals) (again : List Byte) (s : σ) : Outcome (σ × Int) := do
  let s ← secondPass calls l (again.length + 1) again s
  let s := calls.openDb s
  if 0 < calls.dbFd then
    let entryLine ← entryLineOf l
    let line ← checked (str entryLine)
    .ok (calls.write s calls.dbFd line, 0)
  else .ok (s, 0)

/-- `pkg_install_file`. The first loop reads `data`, when the archive can be opened; the second reads
`again`: the same bytes, unless the archive is one of the files that are made, or is gone. -/
def pkgInstallFile (l : Locals) (data : Option (List Byte)) (again : List Byte) (s : σ) :
    Outcome (σ × Int) :=
  match data with
  | none => .ok (s, -1)
  | some data => do
    match ← firstPass l (data.length + 1) data with
    | none => .ok (s, -1)
    | some l => installFiles calls l again s

end Install

/-! ### Paths -/

section Paths

variable {σ : Type} (calls : InstallCalls σ) {l : Locals} {e : KpkgEntry} {n p turns : ℕ}
  {path : Vector Byte n} {t installPath filename full : CString}

/-- The loop ends at the end of the path, which is left as it was. -/
theorem mkdirLoop_of_str (hpath : str path = some t) (hp : p ≤ t.length)
    (hturns : t.length < p + turns) (s : σ) :
    ∃ s' ret, mkdirLoop calls turns p path s = .ok (path, s', ret) := by
  obtain ⟨hfree, rest, hcells⟩ := str_eq_some_iff.mp hpath
  induction turns generalizing p s with
  | zero => omega
  | succ turns ih =>
    rw [mkdirLoop]
    rcases Nat.eq_or_lt_of_le hp with rfl | hlt
    · have hend : path.toList[t.length]? = some 0 := by
        rw [hcells, List.getElem?_append_right le_rfl, Nat.sub_self]
        rfl
      rw [hend]
      exact ⟨s, 0, if_pos rfl⟩
    · have hget : path.toList[p]? = some t[p] := by
        rw [hcells, List.getElem?_append_left hlt, List.getElem?_eq_getElem hlt]
      have hne : t[p] ≠ 0 := fun hzero => hfree (hzero ▸ List.getElem_mem hlt)
      rw [hget]
      dsimp only
      rw [if_neg hne]
      by_cases hslash : t[p] = slash
      · have hn := length_lt_of_str hpath
        obtain ⟨cut, hcut⟩ := storeAt_of_le path p [0]
          (show p + 1 ≤ n by omega)
        -- the slash is put back
        have hrestore := storeAt_restore hcut (hslash ▸ hget)
        obtain ⟨dir, hdir⟩ : ∃ dir, str cut = some dir := ⟨_, str_storeAt (s := []) hcut⟩
        rw [if_pos hslash, hcut, checked_some, ok_bind, hdir, checked_some, ok_bind, hrestore,
          checked_some, ok_bind]
        split
        · exact ⟨_, _, rfl⟩
        · exact ih hlt (by omega) _
      · rw [if_neg hslash]
        exact ih hlt (by omega) s

theorem mkdirP_of_str (hpath : str path = some t) (s : σ) :
    ∃ s' ret, mkdirP calls path s = .ok (path, s', ret) := by
  have hn := length_lt_of_str hpath
  have hstart : (if path.toList.head? = some slash then 1 else 0) ≤ t.length := by
    split
    · next hhead =>
      obtain ⟨-, rest, hcells⟩ := str_eq_some_iff.mp hpath
      cases t with
      | nil =>
        rw [hcells] at hhead
        exact absurd (Option.some.inj hhead) (by decide)
      | cons c t => exact Nat.succ_le_succ (Nat.zero_le _)
    · exact Nat.zero_le _
  obtain ⟨s₁, ret, hloop⟩ := mkdirLoop_of_str calls hpath hstart
    (show t.length < _ + (n + 1) by omega) s
  rw [mkdirP, hloop, ok_bind]
  dsimp only
  split
  · exact ⟨_, _, rfl⟩
  · rw [hpath, checked_some, ok_bind]
    split
    · exact ⟨_, _, rfl⟩
    · exact ⟨_, _, rfl⟩

/-- The path of an entry is in `full_path`. -/
theorem fullPathOf_of_str (hinstall : str l.installPath = some installPath)
    (hname : str e.filename = some filename) :
    ∃ b, fullPathOf l e = .ok b ∧ str b = some
      (if installPath = [slash] then filename else installPath ++ slash :: filename) := by
  have hpath := length_lt_of_str hinstall
  have hfile := length_lt_of_str hname
  have hfree := (str_eq_some_iff.mp hname).1
  rw [fullPathOf, hinstall, hname, checked_some, ok_bind, checked_some, ok_bind]
  split
  · obtain ⟨b, hb, hstr⟩ := strcpy_of_lt (a := l.fullPath) hfree (by omega)
    exact ⟨b, by rw [hb, checked_some], hstr⟩
  · -- 255 characters, a slash and 255 characters
    obtain ⟨b₁, hb₁, hstr₁⟩ := strcpy_of_lt (a := l.fullPath) (str_eq_some_iff.mp hinstall).1
      (by omega)
    obtain ⟨b₂, hb₂, hstr₂⟩ := strcat_of_lt (s := [slash]) hstr₁ (by decide)
      (by rw [List.length_singleton]; omega)
    obtain ⟨b₃, hb₃, hstr₃⟩ := strcat_of_lt hstr₂ hfree
      (by rw [List.length_append, List.length_singleton]; omega)
    rw [hb₁, checked_some, ok_bind, hb₂, checked_some, ok_bind, hb₃, checked_some]
    refine ⟨b₃, rfl, ?_⟩
    rw [hstr₃, List.append_assoc, List.singleton_append]

theorem makeParents_of_lt (hfree : 0 ∉ full) (hfull : full.length < 512) (s : σ) :
    ∃ s', makeParents calls l full s = .ok s' := by
  obtain ⟨b, hb, hstr⟩ := strcpy_of_lt (a := l.dirPath) hfree hfull
  rw [makeParents, hb, checked_some, ok_bind, hstr, checked_some, ok_bind]
  cases hsplit : splitLast full with
  | none => exact ⟨s, rfl⟩
  | some parts =>
    obtain ⟨dir, name⟩ := parts
    have hlength : dir.length < full.length := by
      rw [(splitLast_eq_some hsplit).1]
      simp
    obtain ⟨cut, hcut⟩ := storeAt_of_le b dir.length [0]
      (show dir.length + 1 ≤ 512 by omega)
    obtain ⟨s', ret, hmake⟩ := mkdirP_of_str calls (str_storeAt (s := []) hcut) s
    dsimp only
    rw [hcut, checked_some, ok_bind, hmake]
    exact ⟨s', rfl⟩

/-- The line of the package, as it is in the database. -/
theorem entryLineOf_of_str {name version : CString} (hname : str l.name = some name)
    (hversion : str l.version = some version) (hinstall : str l.installPath = some installPath) :
    ∃ b, entryLineOf l = .ok b ∧
      str b = some (name ++ pipe :: (version ++ pipe :: installPath) ++ [newline]) := by
  have hname' := length_lt_of_str hname
  have hversion' := length_lt_of_str hversion
  have hinstall' := length_lt_of_str hinstall
  obtain ⟨b₁, hb₁, hstr₁⟩ := strcpy_of_lt (a := l.entryLine) (str_eq_some_iff.mp hname).1 (by omega)
  obtain ⟨b₂, hb₂, hstr₂⟩ := strcat_of_lt (s := [pipe]) hstr₁ (by decide)
    (by simp only [List.length_singleton]; omega)
  obtain ⟨b₃, hb₃, hstr₃⟩ := strcat_of_lt hstr₂ (str_eq_some_iff.mp hversion).1
    (by simp only [List.length_append, List.length_singleton]; omega)
  obtain ⟨b₄, hb₄, hstr₄⟩ := strcat_of_lt (s := [pipe]) hstr₃ (by decide)
    (by simp only [List.length_append, List.length_singleton]; omega)
  obtain ⟨b₅, hb₅, hstr₅⟩ := strcat_of_lt hstr₄ (str_eq_some_iff.mp hinstall).1
    (by simp only [List.length_append, List.length_singleton]; omega)
  obtain ⟨b₆, hb₆, hstr₆⟩ := strcat_of_lt (s := [newline]) hstr₅ (by decide)
    (by simp only [List.length_append, List.length_singleton]; omega)
  rw [entryLineOf, hname, hversion, hinstall]
  simp only [checked_some, ok_bind, hb₁, hb₂, hb₃, hb₄, hb₅, hb₆]
  refine ⟨b₆, rfl, ?_⟩
  rw [hstr₆]
  simp only [List.append_assoc, List.cons_append, List.nil_append]

/-- An entry is extracted, and the next header is behind its data. -/
theorem extractEntry_of_str {data : List Byte} (hinstall : str l.installPath = some installPath)
    (hname : str e.filename = some filename) (s : σ) :
    ∃ s', extractEntry calls l e data s = .ok (s', data.drop e.size.toInt.toNat) := by
  obtain ⟨b, hb, hstr⟩ := fullPathOf_of_str hinstall hname
  generalize (if installPath = [slash] then filename else installPath ++ slash :: filename) = full
    at hstr
  rw [extractEntry, hb, ok_bind, hstr, checked_some, ok_bind]
  by_cases hdir : e.size = 0 ∨ full.getLast?.getD calls.beforeFullPath = slash
  · obtain ⟨s₁, ret, hmake⟩ := mkdirP_of_str calls hstr s
    rw [if_pos hdir, hmake, ok_bind]
    exact readData_eq _ (Nat.lt_succ_self data.length) _ _ s₁
  · obtain ⟨s₁, hmake⟩ := makeParents_of_lt calls (l := l) (str_eq_some_iff.mp hstr).1
      (length_lt_of_str hstr) s
    rw [if_neg hdir, hmake, ok_bind]
    exact readData_eq _ (Nat.lt_succ_self data.length) _ _ _

end Paths

end KyroOS.Packages

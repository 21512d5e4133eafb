import KyroOS.Lib.Fuel
import KyroOS.Mount.FailedCalls
import KyroOS.Packages.RemoveRecursive
import KyroOS.Vfs.Append
import KyroOS.Vfs.WholePath

/-!
# What `cp` and `mv` do with files

`copy_recursive` and `move_recursive` copy a regular file with the same calls, and walk a directory
with the same loop.

## Main definitions

* `Shell` — the files and the descriptors, with what the calls to come will meet
* `Calls` — the calls whose effect on a directory matters
* `copyFile` — the calls for a regular file
* `forEntries` — the loop over the entries of a directory
* `copyRecursive`, `moveRecursive` — the two functions

## Main results

* `rising_copyRecursive` — with more fuel a run comes to the same result
* `open_cases` — what an open leaves
-/

namespace KyroOS.Coreutils

open Vfs Packages

/-! ### The calls -/

/-- What a write meets: how many bytes are stored unless it fails, and the block that `kmalloc`
returns in it. -/
structure WriteCall where
  stored : Option ℕ
  block : Option (ℕ → Byte)

/-- The files and the descriptors, and what the calls to come will meet: the nodes that `kmalloc`
returns, the writes and the keys of the terminal. -/
structure Shell where
  files : FdState
  nodes : ℕ → NewNode
  writes : ℕ → WriteCall
  keys : ℕ → Byte

namespace Shell

variable (t : Word) (sh : Shell)

/-- `mkdir` -/
def mkdir (path : CString) : Outcome (Shell × Int) := do
  let (fs, res) ← sysMkdir sh.files.fs (sh.nodes 0) path
  .ok ({ sh with files := { sh.files with fs }, nodes := fun k => sh.nodes (k + 1) }, res)

/-- `unlink` -/
def unlink (path : CString) : Outcome (Shell × Int) := do
  let (fs, res) ← sysUnlink sh.files.fs path
  .ok ({ sh with files := { sh.files with fs } }, res)

/-- `rmdir` -/
def rmdir (path : CString) : Outcome (Shell × Int) := do
  let (fs, res) ← sysRmdir sh.files.fs path
  .ok ({ sh with files := { sh.files with fs } }, res)

/-- `open`, with its `int` -/
def openFile (path : CString) (flags : BitVec 32) : Outcome (Shell × BitVec 32) := do
  let (files, rax) ← sh.files.sysOpen t (sh.nodes 0) path flags
  .ok ({ sh with files, nodes := fun k => sh.nodes (k + 1) }, rax.setWidth 32)

/-- `close` -/
def close (fd : BitVec 32) : Shell := { sh with files := (sh.files.sysClose t fd).1 }

/-- `BUF_SIZE` -/
def bufSize : Word := 1024

/-- `read` to a buffer of `BUF_SIZE` bytes -/
def read (fd : BitVec 32) : Outcome (Shell × BitVec 32 × List Byte) := do
  let (files, rax, bytes) ← sh.files.sysRead t fd bufSize (sh.keys 0)
  .ok ({ sh with files, keys := fun k => sh.keys (k + 1) }, rax.setWidth 32, bytes)

/-- `write`, which may store fewer bytes or fail -/
def write (fd : BitVec 32) (data : List Byte) : Outcome (Shell × BitVec 32) :=
  let writes := fun k => sh.writes (k + 1)
  match (sh.writes 0).stored with
  | none => .ok ({ sh with writes }, -1)
  | some k => do
    let (files, rax) ← sh.files.sysWrite t fd (data.take k) (sh.writes 0).block
    .ok ({ sh with files, writes }, rax.setWidth 32)

/-- `readdir`, when it returns the children of the directory that is open. -/
def readdir (fd : BitVec 32) (index : ℕ) : Outcome (Option DirEntry) := do
  match ← sh.files.openFile t fd with
  | none => .ok none
  | some (_, entry) => .ok (vfsReaddir sh.files.fs entry.node (BitVec.ofNat 32 index))

end Shell

/-- The calls whose effect on a directory, or whose source, matters. -/
structure Calls where
  mkdir : Shell → CString → Outcome (Shell × Int)
  openFile : Shell → CString → BitVec 32 → Outcome (Shell × BitVec 32)
  read : Shell → BitVec 32 → Outcome (Shell × BitVec 32 × List Byte)

/-- The calls of a thread. -/
def kernel (t : Word) : Calls where
  mkdir := Shell.mkdir
  openFile := Shell.openFile t
  read := Shell.read t

/-! ### The functions -/

section Functions

variable (calls : Calls) (t : Word)

/-- The loop that copies the bytes of a file. -/
def copyBytes (srcFd destFd : BitVec 32) : ℕ → Shell → Outcome (Shell × Int)
  | 0, _ => .error .outOfFuel
  | turns + 1, sh => do
    let (sh, bytesRead, buffer) ← calls.read sh srcFd
    if 0 < bytesRead.toInt then do
      let (sh, res) ← sh.write t destFd buffer
      if res.toInt < 0 then .ok (sh, -1) else copyBytes srcFd destFd turns sh
    else .ok (sh, 0)

/-- The calls for a regular file. -/
def copyFile (turns : ℕ) (sh : Shell) (src dest : CString) : Outcome (Shell × Int) := do
  let (sh, srcFd) ← calls.openFile sh src oRdonly
  if srcFd.toInt < 0 then .ok (sh, -1)
  else do
    let (sh, destFd) ← calls.openFile sh dest (oCreat ||| oTrunc ||| oWronly)
    if destFd.toInt < 0 then .ok (sh.close t srcFd, -1)
    else do
      let (sh, res) ← copyBytes calls t srcFd destFd turns sh
      .ok ((sh.close t srcFd).close t destFd, res)

/-- The size of `src_entry_path` and of `dest_entry_path`. -/
def entryPathSize : ℕ := maxFilenameLen * 2

/-- The loop over the entries of a directory, from an index on. -/
def forEntries (each : Shell → CString → CString → Outcome (Shell × Int)) (dirFd : BitVec 32)
    (src dest : CString) : ℕ → ℕ → Shell → Outcome (Shell × Int)
  | 0, _, _ => .error .outOfFuel
  | turns + 1, index, sh =>
    -- `index++` overflows
    if intMax ≤ index then .error .fault
    else do
      match ← sh.readdir t dirFd index with
      | none => .ok (sh.close t dirFd, 0)
      | some de =>
        if isDots de.name then forEntries each dirFd src dest turns (index + 1) sh
        else if entryPathSize ≤ (src ++ slash :: de.name).length ∨
            entryPathSize ≤ (dest ++ slash :: de.name).length then .error .fault
        else do
          let (sh, res) ← each sh (src ++ slash :: de.name) (dest ++ slash :: de.name)
          if res ≠ 0 then .ok (sh.close t dirFd, -1)
          else forEntries each dirFd src dest turns (index + 1) sh

/-- `EEXIST` -/
def eexist : Int := 17

/-- `copy_recursive` -/
def copyRecursive : ℕ → Shell → CString → CString → Outcome (Shell × Int)
  | 0, _, _, _ => .error .outOfFuel
  | turns + 1, sh, src, dest =>
    match stat sh.files.fs src with
    | none => .ok (sh, -1)
    | some st =>
      if sIsreg st.stMode then copyFile calls t turns sh src dest
      else if sIsdir st.stMode then do
        let (sh, ret) ← calls.mkdir sh dest
        if ret < 0 ∧ ret ≠ -eexist then .ok (sh, -1)
        else do
          let (sh, dirFd) ← calls.openFile sh src oRdonly
          if dirFd.toInt < 0 then .ok (sh, -1)
          else forEntries t (copyRecursive turns) dirFd src dest turns 0 sh
      else .ok (sh, -1)

/-- `move_recursive` for a regular file -/
def moveFile (turns : ℕ) (sh : Shell) (src dest : CString) : Outcome (Shell × Int) := do
  let (sh, res) ← copyFile calls t turns sh src dest
  if res ≠ 0 then .ok (sh, -1)
  else do
    -- a removal that fails is only reported
    let (sh, _) ← sh.unlink src
    .ok (sh, 0)

/-- Whether `move_recursive` goes on when `mkdir` of its destination has failed. -/
def destIsdir (sh : Shell) (dest : CString) : Bool :=
  match stat sh.files.fs dest with
  | none => false
  | some st => sIsdir st.stMode

/-- `move_recursive` -/
def moveRecursive : ℕ → Shell → CString → CString → Outcome (Shell × Int)
  | 0, _, _, _ => .error .outOfFuel
  | turns + 1, sh, src, dest =>
    match stat sh.files.fs src with
    | none => .ok (sh, -1)
    | some st =>
      if sIsreg st.stMode then moveFile calls t turns sh src dest
      else if sIsdir st.stMode then do
        let (sh, ret) ← calls.mkdir sh dest
        if ret ≠ 0 ∧ ¬ destIsdir sh dest then .ok (sh, -1)
        else do
          let (sh, dirFd) ← calls.openFile sh src oRdonly
          if dirFd.toInt < 0 then .ok (sh, -1)
          else do
            let (sh, res) ← forEntries t (moveRecursive turns) dirFd src dest turns 0 sh
            if res ≠ 0 then .ok (sh, -1)
            else do
              let (sh, _) ← sh.rmdir src
              .ok (sh, 0)
      else .ok (sh, -1)

end Functions

/-! ### More fuel -/

section Fuel

open Fuel

variable (calls : Calls) (t : Word)

theorem rising_copyBytes (srcFd destFd : BitVec 32) (sh : Shell) :
    Rising .outOfFuel fun n => copyBytes calls t srcFd destFd n sh := by
  intro n
  induction n generalizing sh with
  | zero => exact fun _ _ => .inl rfl
  | succ n ih =>
    intro m hle
    obtain ⟨m, rfl⟩ := Nat.exists_eq_add_of_le' (Nat.one_le_of_lt hle)
    refine .bind (.refl _) ?_
    rintro ⟨sh, bytesRead, buffer⟩
    refine .ite (.bind (.refl _) ?_) (.refl _)
    rintro ⟨sh, res⟩
    exact .ite (.refl _) (ih sh (Nat.le_of_succ_le_succ hle))

theorem rising_copyFile (sh : Shell) (src dest : CString) :
    Rising .outOfFuel fun n => copyFile calls t n sh src dest := by
  intro n m hle
  refine .bind (.refl _) ?_
  rintro ⟨sh, srcFd⟩
  refine .ite (.refl _) (.bind (.refl _) ?_)
  rintro ⟨sh, destFd⟩
  exact .ite (.refl _) (.bind (rising_copyBytes calls t srcFd destFd sh hle) fun _ => .refl _)

theorem refines_forEntries {each each' : Shell → CString → CString → Outcome (Shell × Int)}
    (heach : ∀ sh src dest, Refines Halt.outOfFuel (each sh src dest) (each' sh src dest))
    (dirFd : BitVec 32) (src dest : CString) {n m : ℕ} (hle : n ≤ m) (index : ℕ) (sh : Shell) :
    Refines Halt.outOfFuel (forEntries t each dirFd src dest n index sh)
      (forEntries t each' dirFd src dest m index sh) := by
  induction n generalizing m index sh with
  | zero => exact .inl rfl
  | succ n ih =>
    obtain ⟨m, rfl⟩ := Nat.exists_eq_add_of_le' (Nat.one_le_of_lt hle)
    have hle := Nat.le_of_succ_le_succ hle
    refine .ite (.refl _) (.bind (.refl _) ?_)
    rintro (_ | de)
    · exact .refl _
    · refine .ite (ih hle _ _) (.ite (.refl _) (.bind (heach _ _ _) ?_))
      rintro ⟨sh, res⟩
      exact .ite (.refl _) (ih hle _ _)

/-- With more fuel a run comes to the same result. -/
theorem rising_copyRecursive (sh : Shell) (src dest : CString) :
    Rising .outOfFuel fun n => copyRecursive calls t n sh src dest := by
  intro n
  induction n generalizing sh src dest with
  | zero => exact fun _ _ => .inl rfl
  | succ n ih =>
    intro m hle
    obtain ⟨m, rfl⟩ := Nat.exists_eq_add_of_le' (Nat.one_le_of_lt hle)
    have hle := Nat.le_of_succ_le_succ hle
    dsimp only
    rw [copyRecursive, copyRecursive]
    cases stat sh.files.fs src with
    | none => exact .refl _
    | some st =>
      refine .ite (rising_copyFile calls t sh src dest hle) (.ite (.bind (.refl _) ?_) (.refl _))
      rintro ⟨sh, ret⟩
      refine .ite (.refl _) (.bind (.refl _) ?_)
      rintro ⟨sh, dirFd⟩
      refine .ite (.refl _) (refines_forEntries t (fun sh src dest => ?_) dirFd src dest hle 0 sh)
      exact ih sh src dest hle

end Fuel

/-! ### Descriptors -/

section Descriptors

variable {t : Word} {sh sh' : Shell} {path : CString} {flags fd r : BitVec 32} {i : Fin maxFiles}
  {entry : FdEntry} {data bytes : List Byte}

theorem toNat_fd (i : Fin maxFiles) : (BitVec.ofNat 32 (i : ℕ)).toNat = i := by
  have hlt : (i : ℕ) < 16 := i.isLt
  rw [BitVec.toNat_ofNat]
  omega

theorem fdIndex_fd (i : Fin maxFiles) : fdIndex (BitVec.ofNat 32 (i : ℕ)) = some i := by
  have hlt : (BitVec.ofNat 32 (i : ℕ)).toNat < maxFiles := by
    rw [toNat_fd]
    exact i.isLt
  rw [fdIndex, dif_pos hlt]
  exact congrArg some (Fin.ext (toNat_fd i))

/-- A descriptor is no error. -/
theorem not_fd_neg (i : Fin maxFiles) : ¬(BitVec.ofNat 32 (i : ℕ)).toInt < 0 := by
  have hlt : (i : ℕ) < 16 := i.isLt
  rw [BitVec.toInt_eq_toNat_cond, toNat_fd]
  omega

theorem setWidth_fd (i : Fin maxFiles) :
    (BitVec.ofNat 64 (i : ℕ)).setWidth 32 = BitVec.ofNat 32 (i : ℕ) := by
  apply BitVec.eq_of_toNat_eq
  have hlt : (i : ℕ) < 16 := i.isLt
  rw [BitVec.toNat_setWidth, BitVec.toNat_ofNat, BitVec.toNat_ofNat]
  omega

theorem setWidth_setWidth (res : BitVec 32) : (res.setWidth 64).setWidth 32 = res := by
  rw [BitVec.setWidth_setWidth_of_le _ (by decide), BitVec.setWidth_eq]

theorem setEntry_self (s : FdState) (t : Word) (i : Fin maxFiles) (entry : Option FdEntry) :
    (s.setEntry t i entry).fds t i = entry := by
  show Function.update s.fds t (Function.update (s.fds t) i entry) t i = entry
  rw [Function.update_self, Function.update_self]

theorem setEntry_of_ne {s : FdState} {i j : Fin maxFiles} {entry : Option FdEntry} (hne : j ≠ i) :
    (s.setEntry t i entry).fds t j = s.fds t j := by
  show Function.update s.fds t (Function.update (s.fds t) i entry) t j = s.fds t j
  rw [Function.update_self, Function.update_of_ne hne]

theorem eq_none_of_freeFd {table : FdTable} (h : freeFd table = some i) : table i = none :=
  Option.isNone_iff_eq_none.mp (List.find?_some (p := fun i => (table i).isNone) h)

/-- What an open that comes back has done: it fails and leaves the descriptors, or it puts a node
into the first free one. -/
theorem open_cases (h : sh.openFile t path flags = .ok (sh', fd)) :
    sh'.writes = sh.writes ∧
      ∃ res, sysOpen sh.files.fs (sh.nodes 0) path flags = .ok (sh'.files.fs, res) ∧
        ((fd.toInt < 0 ∧ sh'.files.fds = sh.files.fds ∧
          (res = none ∨ freeFd (sh.files.fds t) = none)) ∨
        ∃ i n offset, res = some n ∧ sh.files.fds t i = none ∧ fd = BitVec.ofNat 32 (i : ℕ) ∧
          (flags &&& oAppend = 0 → offset = 0) ∧
          sh'.files = { sh.files with fs := sh'.files.fs }.setEntry t i
            (some ⟨n, offset, flags⟩)) := by
  obtain ⟨⟨files, rax⟩, hopen, h⟩ := Outcome.bind_eq_ok.mp h
  obtain ⟨rfl, rfl⟩ := Prod.mk.inj (Except.ok.inj h)
  rw [FdState.sysOpen_eq] at hopen
  obtain ⟨⟨fs, res⟩, hsys, hinstall⟩ := Outcome.bind_eq_ok.mp hopen
  have hinstall := Except.ok.inj hinstall
  refine ⟨rfl, res, ?_⟩
  cases res with
  | none =>
    obtain ⟨rfl, rfl⟩ := Prod.mk.inj hinstall
    exact ⟨hsys, .inl ⟨by decide, rfl, .inl rfl⟩⟩
  | some n =>
    rw [FdState.install] at hinstall
    cases hfree : freeFd (sh.files.fds t) with
    | none =>
      rw [hfree] at hinstall
      obtain ⟨rfl, rfl⟩ := Prod.mk.inj hinstall
      exact ⟨hsys, .inl ⟨by decide, rfl, .inr rfl⟩⟩
    | some i =>
      rw [hfree] at hinstall
      obtain ⟨rfl, rfl⟩ := Prod.mk.inj hinstall
      refine ⟨hsys, .inr ⟨i, n, _, rfl, eq_none_of_freeFd hfree, setWidth_fd i, ?_, rfl⟩⟩
      intro happend
      rw [if_neg (not_not.mpr happend)]

theorem open_nodes (h : sh.openFile t path flags = .ok (sh', fd)) :
    sh'.nodes = fun k => sh.nodes (k + 1) := by
  obtain ⟨_, -, h⟩ := Outcome.bind_eq_ok.mp h
  obtain ⟨rfl, -⟩ := Prod.mk.inj (Except.ok.inj h)
  rfl

/-- A descriptor that is closed is free. -/
theorem close_files (sh : Shell) (i : Fin maxFiles) :
    (sh.close t (BitVec.ofNat 32 (i : ℕ))).files = sh.files.setEntry t i none := by
  rw [Shell.close]
  dsimp only
  rw [FdState.sysClose, fdIndex_fd]
  dsimp only
  split_ifs with hnone
  · have hentry := Option.isNone_iff_eq_none.mp hnone
    rw [FdState.setEntry, ← hentry, Function.update_eq_self, Function.update_eq_self]
  · rfl

/-- The file that is open at a descriptor. -/
theorem openFile_fd (hentry : sh.files.fds t i = some entry) :
    sh.files.openFile t (BitVec.ofNat 32 (i : ℕ)) =
      if entry.node ∈ sh.files.fs.live then .ok (some (i, entry)) else .error .fault := by
  rw [FdState.openFile, fdIndex_fd]
  dsimp only
  rw [hentry]

/-- What a read that comes back has done. -/
theorem read_eq_ok (hentry : sh.files.fds t i = some entry)
    (h : sh.read t (BitVec.ofNat 32 (i : ℕ)) = .ok (sh', r, bytes)) :
    sh'.writes = sh.writes ∧
      vfsRead sh.files.fs entry.node (sh.keys 0) entry.offset 1024 = .ok (r, bytes) ∧
      sh'.files = sh.files.setEntry t i
        (some { entry with offset := entry.offset + r.setWidth 64 }) := by
  obtain ⟨⟨files, rax, buffer⟩, hread, hret⟩ := Outcome.bind_eq_ok.mp h
  obtain ⟨rfl, hbytes⟩ := Prod.mk.inj (Except.ok.inj hret)
  obtain ⟨rfl, rfl⟩ := Prod.mk.inj hbytes
  rw [FdState.sysRead, openFile_fd hentry] at hread
  split_ifs at hread with hlive
  · obtain ⟨_, hopened, hread⟩ := Outcome.bind_eq_ok.mp hread
    obtain rfl := Except.ok.inj hopened
    obtain ⟨⟨entry', rax', buffer'⟩, hfile, hdone⟩ := Outcome.bind_eq_ok.mp hread
    obtain ⟨⟨res, buffer''⟩, hvfs, -⟩ := Outcome.bind_eq_ok.mp hfile
    rw [Mount.sysReadFile_eq hvfs] at hfile
    obtain ⟨rfl, hfile'⟩ := Prod.mk.inj (Except.ok.inj hfile)
    obtain ⟨rfl, rfl⟩ := Prod.mk.inj hfile'
    obtain ⟨rfl, hdone'⟩ := Prod.mk.inj (Except.ok.inj hdone)
    obtain ⟨rfl, rfl⟩ := Prod.mk.inj hdone'
    rw [setWidth_setWidth]
    exact ⟨rfl, hvfs, rfl⟩
  · cases hread

/-- What a write that comes back has done: it fails and stores nothing, or it stores the first
bytes. -/
theorem write_cases (hentry : sh.files.fds t i = some entry) (happend : entry.flags &&& oAppend = 0)
    (h : sh.write t (BitVec.ofNat 32 (i : ℕ)) data = .ok (sh', r)) :
    sh'.writes = (fun k => sh.writes (k + 1)) ∧
      ((sh.writes 0).stored = none ∧ r.toInt < 0 ∧ sh'.files = sh.files ∨
      ∃ k, (sh.writes 0).stored = some k ∧
        vfsWrite sh.files.fs entry.node entry.offset (data.take k) (sh.writes 0).block =
          .ok (sh'.files.fs, r) ∧
        sh'.files = { sh.files with fs := sh'.files.fs }.setEntry t i
          (some { entry with offset := entry.offset + r.setWidth 64 })) := by
  rw [Shell.write] at h
  dsimp only at h
  cases hstored : (sh.writes 0).stored with
  | none =>
    rw [hstored] at h
    obtain ⟨rfl, rfl⟩ := Prod.mk.inj (Except.ok.inj h)
    exact ⟨rfl, .inl ⟨rfl, by decide, rfl⟩⟩
  | some k =>
    rw [hstored] at h
    obtain ⟨⟨files, rax⟩, hwrite, h⟩ := Outcome.bind_eq_ok.mp h
    obtain ⟨rfl, rfl⟩ := Prod.mk.inj (Except.ok.inj h)
    refine ⟨rfl, .inr ⟨k, rfl, ?_⟩⟩
    rw [FdState.sysWrite, openFile_fd hentry] at hwrite
    split_ifs at hwrite with hlive
    · obtain ⟨_, hopened, hwrite⟩ := Outcome.bind_eq_ok.mp hwrite
      obtain rfl := Except.ok.inj hopened
      dsimp only at hwrite
      rw [if_neg (not_not.mpr happend)] at hwrite
      obtain ⟨⟨fs, res⟩, hvfs, hwrite⟩ := Outcome.bind_eq_ok.mp hwrite
      dsimp only at hwrite
      rw [if_pos (Mount.setWidth_ne_minusOne res)] at hwrite
      obtain ⟨rfl, rfl⟩ := Prod.mk.inj (Except.ok.inj hwrite)
      rw [setWidth_setWidth]
      exact ⟨hvfs, rfl⟩
    · cases hwrite

theorem mkdir_eq_ok {res : Int} (h : sh.mkdir path = .ok (sh', res)) :
    sh'.files.fds = sh.files.fds ∧
      sysMkdir sh.files.fs (sh.nodes 0) path = .ok (sh'.files.fs, res) := by
  obtain ⟨⟨fs, res'⟩, hmkdir, h⟩ := Outcome.bind_eq_ok.mp h
  obtain ⟨rfl, rfl⟩ := Prod.mk.inj (Except.ok.inj h)
  exact ⟨rfl, hmkdir⟩

end Descriptors

end KyroOS.Coreutils

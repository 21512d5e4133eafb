import KyroOS.Vfs.Readdir
import KyroOS.Vfs.Removal

/-!
# Recursive removal of a directory

`remove_recursive` asks for the entries of a directory by their index. Each removal shortens the
list, so that the next index skips an entry.

## Main definitions

* `removeEntries`, `removeRecursive` — the loop over a directory and the function
* `PathsFit` — the paths of a tree are shorter than the buffers
* `Removed` — nothing is left at a path or below it, and the rest is as it was
* `OneByOne` — no directory has two entries
* `Removable` — the path, the entries and the descriptors that the removal needs

## Main results

* `removeEntries_nonempty` — the loop never removes the last entry, but in its first turn
* `removesWhole` — what a removal that returns 0 has found and done
* `removeRecursive_of_oneByOne` — a removal that is possible
* `removeRecursive_iff` — a removal is complete if and only if it is possible
-/

namespace KyroOS.Packages

open Vfs

/-! ### The functions -/

/-- The size of `entry_full_path`. -/
def entryFullPathSize : ℕ := maxFilenameLen * 2

/-- `INT_MAX` -/
def intMax : ℕ := 2 ^ 31 - 1

def sIsreg (mode : BitVec 32) : Bool := mode &&& sIfmt = sIfreg

def sIsdir (mode : BitVec 32) : Bool := mode &&& sIfmt = sIfdir

/-- `stat`, when it reports the type of every node. -/
def stat (fs : Kyrofs) (path : CString) : Option Stat :=
  (fs.resolve fs.root (copyPath path)).map fun n => kyrofsStat (fs.node n)

/-- `open` of a node for reading, with a number of free descriptors. -/
def openDir (fs : Kyrofs) (free : ℕ) (path : CString) : Option Word :=
  if free = 0 then none else fs.resolve fs.root (copyPath path)

/-- An entry that the loop skips. -/
def isDots (name : CString) : Bool := name = cstring ['.'] ∨ name = cstring ['.', '.']

/-- The loop over the entries of the directory `d`, from an index on, with a function that removes
an entry. -/
def removeEntries (remove : Kyrofs → CString → Outcome (Kyrofs × Int)) (path : CString) (d : Word) :
    ℕ → ℕ → Kyrofs → Outcome (Kyrofs × Int)
  | 0, _, _ => .error .outOfFuel
  | turns + 1, index, fs =>
    -- `index++` overflows
    if intMax ≤ index then .error .fault
    else
      match kyrofsReaddir fs d (BitVec.ofNat 32 index) with
      | none => .ok (fs, 0)
      | some de =>
        if isDots de.name then removeEntries remove path d turns (index + 1) fs
        else if entryFullPathSize ≤ (path ++ slash :: de.name).length then .error .fault
        else do
          let (fs, res) ← remove fs (path ++ slash :: de.name)
          if res ≠ 0 then .ok (fs, -1) else removeEntries remove path d turns (index + 1) fs

/-- `remove_recursive`, to a depth, with a number of free descriptors. -/
def removeRecursive : ℕ → ℕ → Kyrofs → CString → Outcome (Kyrofs × Int)
  | 0, _, _, _ => .error .outOfFuel
  | depth + 1, free, fs, path =>
    match stat fs path with
    | none => .ok (fs, -1)
    | some st =>
      if sIsreg st.stMode then sysUnlink fs path
      else if sIsdir st.stMode then
        match openDir fs free path with
        | none => .ok (fs, -1)
        | some d => do
          let (fs, res) ← removeEntries (removeRecursive depth (free - 1)) path d (depth + 1) 0 fs
          if res ≠ 0 then .ok (fs, -1) else sysRmdir fs path
      else .ok (fs, -1)

/-! ### Trees -/

/-- The path of a node below `n`, when `path` is the path of `n`. -/
inductive Under (fs : Kyrofs) (path : CString) (n : Word) : CString → Word → Prop
  | refl : Under fs path n path n
  | child {path' : CString} {m c : Word} (h : Under fs path n path' m) (hc : c ∈ fs.children m) :
    Under fs path n (path' ++ slash :: (fs.node c).name) c

/-- The paths are shorter than the buffers that they are copied to. -/
def PathsFit (fs : Kyrofs) (path : CString) (n : Word) : Prop :=
  ∀ path' m, Under fs path n path' m → path'.length < maxFilenameLen

/-- The path does not lead through a node below its end. -/
def Clear (fs : Kyrofs) (path : CString) (n : Word) : Prop :=
  ∀ m, fs.PassesThrough path m → Below fs n m → m = n

/-- No directory at `n` or below it has two entries, or one that is skipped, and a number of
descriptors is enough to open them all. -/
inductive OneByOne (fs : Kyrofs) : ℕ → Word → Prop
  | file {free : ℕ} {n : Word} (hfile : ¬ fs.IsDirectory n) : OneByOne fs free n
  | empty {free : ℕ} {n : Word} (hdir : fs.IsDirectory n) (hempty : fs.children n = []) :
    OneByOne fs (free + 1) n
  | child {free : ℕ} {n c : Word} (hdir : fs.IsDirectory n) (hone : fs.children n = [c])
    (hname : ¬ isDots (fs.node c).name) (h : OneByOne fs free c) : OneByOne fs (free + 1) n

/-- The path names the node in its directory and does not lead through what is below the node, and
the nodes can be removed one by one. -/
structure Removable (fs : Kyrofs) (free : ℕ) (path : CString) (n : Word) : Prop where
  named : ∃ p name, NamedBy fs path p name n
  clear : Clear fs path n
  oneByOne : OneByOne fs free n

/-- Nothing is at the path or below it, the nodes that were are gone, and the rest is as it was. -/
structure Removed (fs fs' : Kyrofs) (path : CString) (n : Word) : Prop where
  gone : Gone fs fs' n
  here : fs'.resolve fs'.root path = none
  below : ∀ rest, fs'.resolve fs'.root (path ++ slash :: rest) = none

section Removal

variable {fs fs' : Kyrofs} {free : ℕ} {path path' name : CString} {n m c p : Word} {index : ℕ}

/-! ### Paths -/

theorem Under.cons (hc : c ∈ fs.children n)
    (h : Under fs (path ++ slash :: (fs.node c).name) c path' m) : Under fs path n path' m := by
  induction h with
  | refl => exact .child .refl hc
  | child _ hmem ih => exact .child ih hmem

theorem PathsFit.child (hfit : PathsFit fs path n) (hc : c ∈ fs.children n) :
    PathsFit fs (path ++ slash :: (fs.node c).name) c :=
  fun path' m h => hfit path' m (h.cons hc)

theorem PathsFit.copyPath_eq (hfit : PathsFit fs path n) : copyPath path = path :=
  List.take_of_length_le (Nat.le_sub_one_of_lt (hfit path n .refl))

/-- With less in the tree, no path is longer. -/
theorem PathsFit.less (h' : Tidy fs') (hless : Less fs fs') (hn : n ∈ fs'.live)
    (hfit : PathsFit fs path n) : PathsFit fs' path n := by
  have hsame : ∀ {path' m}, Under fs' path n path' m → Under fs path n path' m ∧ m ∈ fs'.live := by
    intro path' m h
    induction h with
    | refl => exact ⟨.refl, hn⟩
    | @child path' m c _ hc ih =>
      obtain ⟨hunder, hlive⟩ := ih
      have hclive := (h'.shape.tree.child m hlive c hc).1
      rw [(hless.same c hclive).name]
      exact ⟨.child hunder (hless.children m hlive hc), hclive⟩
  exact fun path' m h => hfit path' m (hsame h).1

/-! ### The calls -/

theorem stat_eq (hpath : fs.resolve fs.root path = some n) (hfit : PathsFit fs path n) :
    stat fs path = some (kyrofsStat (fs.node n)) := by
  rw [stat, hfit.copyPath_eq, hpath]
  rfl

theorem sIsreg_of_not_directory (hkind : Kind (fs.node n)) (hfile : ¬ fs.IsDirectory n) :
    sIsreg (kyrofsStat (fs.node n)).stMode = true := by
  have hdir := hkind.not_directory hfile
  rcases hkind.flags with hflags | hflags | hflags
  · simp [kyrofsStat, Dirent.has, hflags]
    decide
  · rw [Dirent.has, hflags] at hdir
    exact absurd hdir (by decide)
  · simp [kyrofsStat, Dirent.has, hflags]
    decide

theorem sIsdir_of_directory (hkind : Kind (fs.node n)) (hdir : fs.IsDirectory n) :
    sIsreg (kyrofsStat (fs.node n)).stMode = false ∧
      sIsdir (kyrofsStat (fs.node n)).stMode = true := by
  have hflag := hdir.1
  rcases hkind.flags with hflags | hflags | hflags
  · rw [Dirent.has, hflags] at hflag
    exact absurd hflag (by decide)
  · simp only [kyrofsStat, Dirent.has, hflags]
    decide
  · rw [Dirent.has, hflags] at hflag
    exact absurd hflag (by decide)

/-- A call in the parent that names a child. -/
theorem callInParent_named {op : Word → CString → Outcome (Kyrofs × Int)}
    (hnamed : NamedBy fs path p name n) : fs.callInParent fs.root path op = op p name := by
  have hparent : vfsParent (vfsFinddir fs) (fun n => (fs.node n).has vfsDirectory) fs.root path =
      some (p, name) := hnamed.parent
  rw [Kyrofs.callInParent, hparent]
  exact if_pos (Kyrofs.hasDirectoryOps_of_mem hnamed.mem)

theorem sysUnlink_of_file (h : Tidy fs) (hnamed : NamedBy fs path p name n) (hn : n ∈ fs.live)
    (hfit : PathsFit fs path n) (hfile : ¬ fs.IsDirectory n) :
    sysUnlink fs path = .ok (fs.unlink p n, 0) := by
  have hnot : ¬ ((fs.node n).has vfsDirectory ∧ ¬ (fs.node n).ptr.isNull) :=
    fun hand => (h.kind n hn).not_directory hfile hand.1
  rw [sysUnlink, vfsRemove, hfit.copyPath_eq, callInParent_named hnamed, kyrofsRemove, hnamed.child]
  exact congrArg Except.ok (if_neg hnot)

theorem isNull_of_directory (hdir : fs.IsDirectory n) :
    (fs.node n).ptr.isNull = true ↔ fs.children n = [] := by
  refine ⟨fun hnull => (children_of_isNull hnull).2, fun hempty => ?_⟩
  have hops := hdir.2
  unfold Dirent.hasDirectoryOps at hops
  unfold Kyrofs.children Dirent.children at hempty
  cases hptr : (fs.node n).ptr with
  | content file =>
    rw [hptr] at hops
    cases hops
  | dirents l =>
    rw [hptr] at hempty
    exact List.isEmpty_iff.mpr hempty

theorem sysRmdir_of_empty (hnamed : NamedBy fs path p name n) (hcopy : copyPath path = path)
    (hdir : fs.IsDirectory n) (hempty : fs.children n = []) :
    sysRmdir fs path = .ok (fs.unlink p n, 0) := by
  have hnull := (isNull_of_directory hdir).mpr hempty
  rw [sysRmdir, vfsRmdir, hcopy, callInParent_named hnamed, kyrofsRmdir, hnamed.child]
  dsimp only
  rw [if_neg (not_not.mpr hdir.1), if_neg (not_not.mpr hnull)]

/-- A removal by path that returns 0 has taken out a child of the parent. -/
theorem removal_eq_ok {op : Word → CString → Kyrofs × Int} {P : Word → Prop}
    (hop : ∀ p name, op p name = (fs, -1) ∨
      ∃ c, fs.childNamed p name = some c ∧ P c ∧ op p name = (fs.unlink p c, 0))
    (hok : fs.callInParent fs.root path (fun p name => .ok (op p name)) = .ok (fs', 0)) :
    ∃ p name c, NamedBy fs path p name c ∧ P c ∧ fs' = fs.unlink p c := by
  rw [Kyrofs.callInParent] at hok
  split at hok
  · cases (Prod.mk.inj (Except.ok.inj hok)).2
  · rename_i p name hparent
    split_ifs at hok with hops
    · rcases hop p name with hfail | ⟨c, hchild, hc, hdone⟩
      · rw [hfail] at hok
        cases (Prod.mk.inj (Except.ok.inj hok)).2
      · rw [hdone] at hok
        exact ⟨p, name, c, ⟨hparent, hchild⟩, hc, (Prod.mk.inj (Except.ok.inj hok)).1.symm⟩
    · cases (Prod.mk.inj (Except.ok.inj hok)).2

theorem sysRmdir_eq_ok (hcopy : copyPath path = path) (hok : sysRmdir fs path = .ok (fs', 0)) :
    ∃ p name c, NamedBy fs path p name c ∧ fs.children c = [] ∧ fs' = fs.unlink p c := by
  rw [sysRmdir, vfsRmdir, hcopy] at hok
  refine removal_eq_ok (fun p name => ?_) hok
  rcases kyrofsRmdir_cases fs p name with ⟨-, hfail⟩ | ⟨c, hc, hdone⟩
  · exact .inl hfail
  · obtain ⟨hchild, haccept⟩ := Option.filter_eq_some_iff.mp hc
    exact .inr ⟨c, hchild, (rmdirable_directory haccept).2, hdone⟩

theorem sysUnlink_eq_ok (hcopy : copyPath path = path) (hok : sysUnlink fs path = .ok (fs', 0)) :
    ∃ p name c, NamedBy fs path p name c ∧ True ∧ fs' = fs.unlink p c := by
  rw [sysUnlink, vfsRemove, hcopy] at hok
  refine removal_eq_ok (fun p name => ?_) hok
  rcases kyrofsRemove_cases fs p name with ⟨-, hfail⟩ | ⟨c, hc, hdone⟩
  · exact .inl hfail
  · exact .inr ⟨c, (Option.filter_eq_some_iff.mp hc).1, trivial, hdone⟩

/-! ### The loop -/

/-- What holds between the turns of the loop over the directory `n`: its path leads to it, or leads
nowhere because something on the way is gone. -/
structure Listing (fs : Kyrofs) (path : CString) (n : Word) : Prop where
  tidy : Tidy fs
  live : n ∈ fs.live
  directory : fs.IsDirectory n
  leads : fs.resolve fs.root path = none ∨ fs.resolve fs.root path = some n
  fits : PathsFit fs path n

/-- What a call for the child `c` of `n` that returns 0 has found and done. -/
structure ChildRemoved (fs fs' : Kyrofs) (free : ℕ) (path : CString) (n c : Word) : Prop where
  leads : fs.resolve fs.root path = some n
  oneByOne : OneByOne fs free c
  gone : Gone fs fs' c
  tidy : Tidy fs'

/-- A function that removes children of `n`. -/
def RemovesChildren (remove : Kyrofs → CString → Outcome (Kyrofs × Int)) (free : ℕ)
    (path : CString) (n : Word) : Prop :=
  ∀ fs fs' c, Listing fs path n → c ∈ fs.children n → ¬ isDots (fs.node c).name →
    remove fs (path ++ slash :: (fs.node c).name) = .ok (fs', 0) →
      ChildRemoved fs fs' free path n c

theorem Listing.children_gone (h : Listing fs path n) (hc : c ∈ fs.children n)
    (hremoved : ChildRemoved fs fs' free path n c) : fs'.children n = (fs.children n).erase c :=
  hremoved.gone.children h.live (not_below_parent h.tidy h.live hc)

/-- What holds between the turns still holds after a child is removed. -/
theorem Listing.next (h : Listing fs path n) (hc : c ∈ fs.children n)
    (hremoved : ChildRemoved fs fs' free path n c) : Listing fs' path n ∧ Less fs fs' := by
  have hroot := (h.tidy.shape.tree.child n h.live c hc).2.1
  have hless := hremoved.gone.less h.tidy hroot
  have hnot := not_below_parent h.tidy h.live hc
  have hlive : n ∈ fs'.live := (hremoved.gone.live n).mpr ⟨h.live, hnot⟩
  refine ⟨⟨hremoved.tidy, hlive, ?_, ?_, h.fits.less hremoved.tidy hless hlive⟩, hless⟩
  · exact (Kyrofs.isDirectory_congr (hless.same n hlive)).mpr h.directory
  · cases hend : fs'.resolve fs'.root path with
    | none => exact .inl rfl
    | some x =>
      have hsame := hless.resolve path x hend
      rw [hremoved.leads] at hsame
      exact .inr hsame.symm

theorem kyrofsReaddir_eq (hindex : index < intMax) :
    kyrofsReaddir fs n (BitVec.ofNat 32 index) =
      ((fs.children n)[index]?).map fun c => ⟨(fs.node c).name, 0⟩ := by
  have hnat : (BitVec.ofNat 32 index).toNat = index :=
    Nat.mod_eq_of_lt (by unfold intMax at hindex; omega)
  rw [kyrofsReaddir, hnat]

/-- A turn of a loop that returns 0: the list is at its end, or an entry is skipped, or removed. -/
theorem removeEntries_cases {remove : Kyrofs → CString → Outcome (Kyrofs × Int)} {turns : ℕ}
    (hok : removeEntries remove path n (turns + 1) index fs = .ok (fs', 0)) :
    (fs.children n)[index]? = none ∧ fs' = fs ∨
    ∃ c, (fs.children n)[index]? = some c ∧
      ((isDots (fs.node c).name ∧
        removeEntries remove path n turns (index + 1) fs = .ok (fs', 0)) ∨
      ∃ fs₁, ¬ isDots (fs.node c).name ∧
        remove fs (path ++ slash :: (fs.node c).name) = .ok (fs₁, 0) ∧
        removeEntries remove path n turns (index + 1) fs₁ = .ok (fs', 0)) := by
  rw [removeEntries] at hok
  split_ifs at hok with hmax
  rw [kyrofsReaddir_eq (not_le.mp hmax)] at hok
  cases hentry : (fs.children n)[index]? with
  | none =>
    rw [hentry] at hok
    exact .inl ⟨rfl, (Prod.mk.inj (Except.ok.inj hok)).1.symm⟩
  | some c =>
    rw [hentry] at hok
    dsimp only [Option.map_some] at hok
    refine .inr ⟨c, rfl, ?_⟩
    split_ifs at hok with hdots hlong
    · exact .inl ⟨hdots, hok⟩
    · obtain ⟨⟨fs₁, res⟩, hremove, hrest⟩ := Outcome.bind_eq_ok.mp hok
      dsimp only at hrest
      split_ifs at hrest with hres
      · cases (Prod.mk.inj (Except.ok.inj hrest)).2
      · rw [not_not.mp hres] at hremove
        exact .inr ⟨fs₁, hdots, hremove, hrest⟩

theorem removeEntries_end {remove : Kyrofs → CString → Outcome (Kyrofs × Int)} {turns : ℕ}
    (hindex : index < intMax) (hend : (fs.children n)[index]? = none) :
    removeEntries remove path n (turns + 1) index fs = .ok (fs, 0) := by
  rw [removeEntries, if_neg (not_le.mpr hindex), kyrofsReaddir_eq hindex, hend]
  rfl

theorem removeEntries_child {remove : Kyrofs → CString → Outcome (Kyrofs × Int)} {turns : ℕ}
    (hindex : index < intMax) (hc : (fs.children n)[index]? = some c)
    (hdots : ¬ isDots (fs.node c).name)
    (hfit : (path ++ slash :: (fs.node c).name).length < maxFilenameLen)
    (hcall : remove fs (path ++ slash :: (fs.node c).name) = .ok (fs', 0)) :
    removeEntries remove path n (turns + 1) index fs =
      removeEntries remove path n turns (index + 1) fs' := by
  have hshort : ¬ entryFullPathSize ≤ (path ++ slash :: (fs.node c).name).length := by
    unfold entryFullPathSize
    omega
  rw [removeEntries, if_neg (not_le.mpr hindex), kyrofsReaddir_eq hindex, hc]
  dsimp only [Option.map_some]
  rw [if_neg hdots, if_neg hshort, hcall]
  rfl

/-- The loop keeps the tree, and behind its first turn it leaves an entry if there is one: it
removes the entry at its index, which is not the first. -/
theorem removeEntries_nonempty {remove : Kyrofs → CString → Outcome (Kyrofs × Int)} {turns : ℕ}
    (hremove : RemovesChildren remove free path n) (h : Listing fs path n)
    (hok : removeEntries remove path n turns index fs = .ok (fs', 0)) :
    Listing fs' path n ∧ Less fs fs' ∧
      (0 < index → fs.children n ≠ [] → fs'.children n ≠ []) := by
  induction turns generalizing fs index with
  | zero => cases hok
  | succ turns ih =>
    rcases removeEntries_cases hok with ⟨-, rfl⟩ | ⟨c, hc, ⟨-, hrest⟩ | ⟨fs₁, hdots, hcall, hrest⟩⟩
    · exact ⟨h, .refl _, fun _ hne => hne⟩
    · obtain ⟨hend, hless, hne⟩ := ih h hrest
      exact ⟨hend, hless, fun _ => hne (Nat.succ_pos index)⟩
    · obtain ⟨hlt, hget⟩ := List.getElem?_eq_some_iff.mp hc
      have hmem : c ∈ fs.children n := hget ▸ List.getElem_mem hlt
      have hremoved := hremove fs fs₁ c h hmem hdots hcall
      obtain ⟨hnext, hless⟩ := h.next hmem hremoved
      obtain ⟨hend, hless', hne⟩ := ih hnext hrest
      refine ⟨hend, hless.trans hless', fun hindex _ => hne (Nat.succ_pos index) ?_⟩
      rw [h.children_gone hmem hremoved, ← List.length_pos_iff, List.length_erase_of_mem hmem]
      omega

/-- A loop that leaves no entry found none, or one that was removed. -/
theorem removeEntries_empty {remove : Kyrofs → CString → Outcome (Kyrofs × Int)} {turns : ℕ}
    (hremove : RemovesChildren remove free path n) (h : Listing fs path n)
    (hok : removeEntries remove path n turns 0 fs = .ok (fs', 0)) (hempty : fs'.children n = []) :
    fs.children n = [] ∧ fs' = fs ∨
    ∃ c, fs.children n = [c] ∧ ¬ isDots (fs.node c).name ∧
      ChildRemoved fs fs' free path n c := by
  cases turns with
  | zero => cases hok
  | succ turns =>
    rcases removeEntries_cases hok with
      ⟨hend, rfl⟩ | ⟨c, hc, ⟨-, hrest⟩ | ⟨fs₁, hdots, hcall, hrest⟩⟩
    · exact .inl ⟨hempty, rfl⟩
    · have hne : fs.children n ≠ [] := by
        rintro hnil
        rw [hnil] at hc
        cases hc
      exact absurd hempty ((removeEntries_nonempty hremove h hrest).2.2 Nat.one_pos hne)
    · obtain ⟨hlt, hget⟩ := List.getElem?_eq_some_iff.mp hc
      have hmem : c ∈ fs.children n := hget ▸ List.getElem_mem hlt
      have hremoved := hremove fs fs₁ c h hmem hdots hcall
      have hnext := (h.next hmem hremoved).1
      have hleft : fs₁.children n = [] := by
        by_contra hne
        exact (removeEntries_nonempty hremove hnext hrest).2.2 Nat.one_pos hne hempty
      -- with nothing left, the next turn is the last
      have hsame : fs' = fs₁ := by
        cases turns with
        | zero => cases hrest
        | succ turns =>
          rcases removeEntries_cases hrest with ⟨-, hsame⟩ | ⟨d, hd, -⟩
          · exact hsame
          · rw [hleft] at hd
            cases hd
      refine .inr ⟨c, ?_, hdots, hsame ▸ hremoved⟩
      rw [h.children_gone hmem hremoved] at hleft
      have hlength := List.length_erase_of_mem hmem
      rw [hleft, List.length_nil] at hlength
      obtain ⟨d, hd⟩ := List.length_eq_one_iff.mp (show (fs.children n).length = 1 by omega)
      rw [hd, List.mem_singleton] at hmem
      rw [hd, hmem]

/-! ### A removal that returns 0 -/

theorem splitLast_append (path : CString) (hname : slash ∉ name) :
    splitLast (path ++ slash :: name) = some (path, name) := by
  induction path with
  | nil =>
    rw [List.nil_append, splitLast, splitLast_eq_none.mpr hname]
    exact if_pos rfl
  | cons c rest ih => rw [List.cons_append, splitLast, ih]

/-- The path of an entry names it in the directory. -/
theorem named_child (h : Tidy fs) (hpath : fs.resolve fs.root path = some n)
    (hdir : fs.IsDirectory n) (hc : c ∈ fs.children n) (hdots : ¬ isDots (fs.node c).name) :
    fs.resolve fs.root (path ++ slash :: (fs.node c).name) = some c ∧
      NamedBy fs (path ++ slash :: (fs.node c).name) n (fs.node c).name c := by
  have hlive := (Kyrofs.attached_of_resolve h.shape.tree hpath).live h.shape.tree
  obtain ⟨hclive, hroot, -⟩ := h.shape.tree.child n hlive c hc
  obtain ⟨hne, hslash⟩ := h.names c hclive hroot
  have hchild : fs.childNamed n (fs.node c).name = some c :=
    Kyrofs.find?_of_nodup_map (h.unique n hlive hdir) hc
  have hnot := not_or.mp fun hor => hdots (decide_eq_true hor)
  refine ⟨?_, ?_, hchild⟩
  · have hpath' : vfsResolvePath (vfsFinddir fs) fs.root path = some n := hpath
    rw [Kyrofs.resolve, vfsResolvePath_eq_bind hslash, hpath']
    show (if (fs.node c).name = [] then some n else vfsFinddir fs n (fs.node c).name) = some c
    rw [if_neg hne, vfsFinddir, if_pos hdir, kyrofsFinddir, if_neg hnot.1, if_neg hnot.2, hchild]
  · rw [Kyrofs.parentIn, vfsParent, splitLast_append path hslash]
    cases path with
    | nil =>
      obtain rfl : fs.root = n := Option.some.inj hpath
      rfl
    | cons b rest =>
      exact Option.map_eq_some_iff.mpr
        ⟨n, Option.filter_eq_some_iff.mpr ⟨hpath, hdir.1⟩, rfl⟩

/-- At a path that leads nowhere nothing is removed. -/
theorem removeRecursive_of_none {depth : ℕ} (hcopy : copyPath path = path)
    (hpath : fs.resolve fs.root path = none) :
    removeRecursive depth free fs path ≠ .ok (fs', 0) := by
  intro hok
  cases depth with
  | zero => cases hok
  | succ depth =>
    rw [removeRecursive, stat, hcopy, hpath] at hok
    cases (Prod.mk.inj (Except.ok.inj hok)).2

theorem removeRecursive_file {depth : ℕ} (hkind : Kind (fs.node n))
    (hpath : fs.resolve fs.root path = some n) (hfit : PathsFit fs path n)
    (hfile : ¬ fs.IsDirectory n) :
    removeRecursive (depth + 1) free fs path = sysUnlink fs path := by
  rw [removeRecursive, stat_eq hpath hfit]
  exact if_pos (sIsreg_of_not_directory hkind hfile)

theorem removeRecursive_directory {depth : ℕ} (hkind : Kind (fs.node n))
    (hpath : fs.resolve fs.root path = some n) (hfit : PathsFit fs path n)
    (hdir : fs.IsDirectory n) :
    removeRecursive (depth + 1) (free + 1) fs path = (do
      let (fs, res) ← removeEntries (removeRecursive depth free) path n (depth + 1) 0 fs
      if res ≠ 0 then .ok (fs, -1) else sysRmdir fs path) := by
  obtain ⟨hreg, hisdir⟩ := sIsdir_of_directory hkind hdir
  have hopen : openDir fs (free + 1) path = some n := by
    rw [openDir, if_neg (Nat.succ_ne_zero free), hfit.copyPath_eq, hpath]
  rw [removeRecursive, stat_eq hpath hfit]
  dsimp only
  rw [hreg, hisdir, hopen]
  rfl

/-- Without a descriptor a directory is not removed. -/
theorem removeRecursive_directory_zero {depth : ℕ} (hkind : Kind (fs.node n))
    (hpath : fs.resolve fs.root path = some n) (hfit : PathsFit fs path n)
    (hdir : fs.IsDirectory n) : removeRecursive (depth + 1) 0 fs path = .ok (fs, -1) := by
  obtain ⟨hreg, hisdir⟩ := sIsdir_of_directory hkind hdir
  rw [removeRecursive, stat_eq hpath hfit]
  dsimp only
  rw [hreg, hisdir]
  rfl

/-- What a removal of a directory that returns 0 has done: the loop has left a tree from which the
last call has taken out a node without children. -/
theorem removeRecursive_directory_eq_ok {depth : ℕ} (h : Tidy fs)
    (hpath : fs.resolve fs.root path = some n) (hfit : PathsFit fs path n) (hdir : fs.IsDirectory n)
    (hok : removeRecursive (depth + 1) free fs path = .ok (fs', 0)) :
    ∃ free' fs₁ p name c, free = free' + 1 ∧
      removeEntries (removeRecursive depth free') path n (depth + 1) 0 fs = .ok (fs₁, 0) ∧
      NamedBy fs₁ path p name c ∧ fs₁.children c = [] ∧ fs' = fs₁.unlink p c := by
  have hlive := (Kyrofs.attached_of_resolve h.shape.tree hpath).live h.shape.tree
  cases free with
  | zero =>
    rw [removeRecursive_directory_zero (h.kind n hlive) hpath hfit hdir] at hok
    cases (Prod.mk.inj (Except.ok.inj hok)).2
  | succ free =>
    rw [removeRecursive_directory (h.kind n hlive) hpath hfit hdir] at hok
    obtain ⟨⟨fs₁, res⟩, hloop, hrest⟩ := Outcome.bind_eq_ok.mp hok
    dsimp only at hrest
    split_ifs at hrest with hres
    · cases (Prod.mk.inj (Except.ok.inj hrest)).2
    · rw [not_not.mp hres] at hloop
      obtain ⟨p, name, c, hnamed, hempty, hend⟩ := sysRmdir_eq_ok hfit.copyPath_eq hrest
      exact ⟨free, fs₁, p, name, c, rfl, hloop, hnamed, hempty, hend⟩

/-- A path whose parent is still found when the only child is gone does not lead through it. -/
theorem clear_of_parentIn (h : Tidy fs) (hpath : fs.resolve fs.root path = some n)
    (hn : n ∈ fs.live) (hone : fs.children n = [c]) (hgone : Gone fs fs' c)
    (hparent : fs'.parentIn path = some (p, name)) : Clear fs path n := by
  intro m hpass hbelow
  have hc : c ∈ fs.children n := hone ▸ List.mem_singleton.mpr rfl
  have hroot := (h.shape.tree.child n hn c hc).2.1
  rcases (below_iff_of_children hn hone).mp hbelow with heq | hbelow
  · exact heq
  obtain ⟨-, dir, hdir, hcomponents⟩ := vfsParent_components hparent
  obtain ⟨-, hway⟩ := (hgone.resolve h hroot).mp (show fs'.resolve fs'.root dir = some p from hdir)
  obtain ⟨names, hnames, hm⟩ := hpass
  have hwhole : names = pathComponents path ∨ names <+: pathComponents dir := by
    rw [hcomponents] at hnames ⊢
    split_ifs at hnames ⊢
    · rw [List.append_nil] at hnames
      exact .inr hnames
    · exact List.prefix_concat_iff.mp hnames
  rcases hwhole with rfl | hprefix
  · exact Option.some.inj (hm.symm.trans hpath)
  · exact absurd hbelow (hway m ⟨names, hprefix, hm⟩)

/-- A path that does not lead through what is below a directory still names it when its only child
is gone. -/
theorem named_of_clear (h : Tidy fs) (hclear : Clear fs path n)
    (hnamed : NamedBy fs path p name n) (hn : n ∈ fs.live) (hone : fs.children n = [c])
    (hgone : Gone fs fs' c) : NamedBy fs' path p name n := by
  have hc : c ∈ fs.children n := hone ▸ List.mem_singleton.mpr rfl
  have hroot := (h.shape.tree.child n hn c hc).2.1
  have hnot := not_below_parent h hn hc
  have hp := hnamed.live h
  have hway : ∀ m, fs.PassesThrough path m → ¬ Below fs c m := by
    intro m hpass hbelow
    obtain rfl := hclear m hpass ((below_iff_of_children hn hone).mpr (.inr hbelow))
    exact hnot hbelow
  have hpnot : ¬ Below fs c p := by
    intro hbelow
    exact hnot (hbelow.child hp hnamed.mem)
  refine ⟨hgone.parentIn h hroot hway hnamed.parent, ?_⟩
  refine (hgone.childNamed h hp hpnot).mpr ⟨hnamed.child, ?_⟩
  rintro rfl
  exact hnot .refl

/-- What is clear for a directory is clear for its entries. -/
theorem Clear.child (hclear : Clear fs path n) (h : Tidy fs)
    (hpath : fs.resolve fs.root path = some n) (hn : n ∈ fs.live) (hc : c ∈ fs.children n)
    (hend : fs.resolve fs.root (path ++ slash :: (fs.node c).name) = some c) :
    Clear fs (path ++ slash :: (fs.node c).name) c := by
  rintro m ⟨names, hnames, hm⟩ hbelow
  obtain ⟨hclive, hroot, -⟩ := h.shape.tree.child n hn c hc
  obtain ⟨hne, hslash⟩ := h.names c hclive hroot
  have hcomponents : pathComponents (path ++ slash :: (fs.node c).name) =
      pathComponents path ++ [(fs.node c).name] := by
    rw [pathComponents_append, pathComponents_of_notMem hslash, if_neg hne]
  rw [hcomponents] at hnames
  rcases List.prefix_concat_iff.mp hnames with rfl | hprefix
  · rw [← hcomponents] at hm
    exact Option.some.inj (hm.symm.trans hend)
  · have hbelow' : Below fs n m := .head ⟨hn, hc⟩ hbelow
    obtain rfl := hclear m ⟨names, hprefix, hm⟩ hbelow'
    exact absurd hbelow (not_below_parent h hn hc)

theorem clear_of_empty (hempty : fs.children n = []) : Clear fs path n :=
  fun _ _ hbelow => (below_iff_of_empty hempty).mp hbelow

/-- What removals to a depth that return 0 have found and done, at paths that name their ends. -/
def RemovesWhole (depth : ℕ) : Prop :=
  ∀ ⦃free : ℕ⦄ ⦃fs fs' : Kyrofs⦄ ⦃path name : CString⦄ ⦃p n : Word⦄, Tidy fs →
    fs.resolve fs.root path = some n → NamedBy fs path p name n → PathsFit fs path n →
      removeRecursive depth free fs path = .ok (fs', 0) →
        OneByOne fs free n ∧ Clear fs path n ∧ Gone fs fs' n ∧ Tidy fs'

/-- The calls for the entries of a directory remove them. -/
theorem RemovesWhole.removesChildren {depth : ℕ} (hwhole : RemovesWhole depth) :
    RemovesChildren (removeRecursive depth free) free path n := by
  intro fs fs' c hlisting hc hdots hcall
  have hfits := hlisting.fits.child hc
  rcases hlisting.leads with hnone | hleads
  · refine absurd hcall (removeRecursive_of_none hfits.copyPath_eq ?_)
    obtain ⟨hclive, hroot, -⟩ := hlisting.tidy.shape.tree.child n hlisting.live c hc
    have hslash := (hlisting.tidy.names c hclive hroot).2
    rw [Kyrofs.resolve, vfsResolvePath_eq_bind hslash]
    rw [Kyrofs.resolve] at hnone
    rw [hnone]
    rfl
  · obtain ⟨hend, hnames⟩ := named_child hlisting.tidy hleads hlisting.directory hc hdots
    obtain ⟨hone, -, hgone, htidy⟩ := hwhole hlisting.tidy hend hnames hfits hcall
    exact ⟨hleads, hone, hgone, htidy⟩

/-- What a removal that returns 0 has found and done, at a path that names its end. The induction
is on the depth: the calls for the entries are one level down. -/
theorem removesWhole (depth : ℕ) : RemovesWhole depth := by
  induction depth with
  | zero =>
    intro _ _ _ _ _ _ _ _ _ _ _ hok
    cases hok
  | succ depth ih =>
    intro free fs fs' path name p n h hpath hnamed hfit hok
    have hp := hnamed.live h
    have hn := (h.shape.tree.child p hp n hnamed.mem).1
    by_cases hdir : fs.IsDirectory n
    · obtain ⟨free, fs₁, q, last, c, rfl, hloop, hlast, hempty, rfl⟩ :=
        removeRecursive_directory_eq_ok h hpath hfit hdir hok
      have hremove : RemovesChildren (removeRecursive depth free) free path n := ih.removesChildren
      have hlisting : Listing fs path n := ⟨h, hn, hdir, .inr hpath, hfit⟩
      obtain ⟨hlisting₁, hless, -⟩ := removeEntries_nonempty hremove hlisting hloop
      -- the last call took out the node that the path named all along
      obtain ⟨rfl, rfl⟩ := hnamed.unique (hless.named hlisting₁.tidy hlast)
      have hq := hlast.live hlisting₁.tidy
      have htidy := hlisting₁.tidy.unlink hq hlast.mem hempty
      rcases removeEntries_empty hremove hlisting hloop hempty with
        ⟨hnil, rfl⟩ | ⟨d, hone, hdots, hremoved⟩
      · exact ⟨.empty hdir hnil, clear_of_empty hnil, .unlink h hp hnamed.mem hnil, htidy⟩
      · exact ⟨.child hdir hone hdots hremoved.oneByOne,
          clear_of_parentIn h hpath hn hone hremoved.gone hlast.parent,
          hremoved.gone.unlink_parent h hp hnamed.mem hone, htidy⟩
    · have hnil := h.shape.files n hn hdir
      rw [removeRecursive_file (h.kind n hn) hpath hfit hdir,
        sysUnlink_of_file h hnamed hn hfit hdir] at hok
      obtain ⟨rfl, -⟩ := Prod.mk.inj (Except.ok.inj hok)
      exact ⟨.file hdir, clear_of_empty hnil, .unlink h hp hnamed.mem hnil,
        h.unlink hp hnamed.mem hnil⟩

/-- A removal that is possible is done. -/
theorem removeRecursive_of_oneByOne (h : Tidy fs) (hone : OneByOne fs free n)
    (hpath : fs.resolve fs.root path = some n) (hnamed : NamedBy fs path p name n)
    (hclear : Clear fs path n) (hfit : PathsFit fs path n) :
    ∃ depth fs', removeRecursive depth free fs path = .ok (fs', 0) ∧ Gone fs fs' n := by
  induction hone generalizing path p name with
  | @file free n hfile =>
    have hp := hnamed.live h
    have hn := (h.shape.tree.child p hp n hnamed.mem).1
    refine ⟨1, fs.unlink p n, ?_, .unlink h hp hnamed.mem (h.shape.files n hn hfile)⟩
    rw [removeRecursive_file (h.kind n hn) hpath hfit hfile, sysUnlink_of_file h hnamed hn hfit hfile]
  | @empty free n hdir hempty =>
    have hp := hnamed.live h
    have hn := (h.shape.tree.child p hp n hnamed.mem).1
    refine ⟨1, fs.unlink p n, ?_, .unlink h hp hnamed.mem hempty⟩
    have hloop : removeEntries (removeRecursive 0 free) path n 1 0 fs = .ok (fs, 0) :=
      removeEntries_end (by decide) (by rw [hempty]; rfl)
    rw [removeRecursive_directory (h.kind n hn) hpath hfit hdir, hloop]
    exact sysRmdir_of_empty hnamed hfit.copyPath_eq hdir hempty
  | @child free n c hdir hone hdots _ ih =>
    have hp := hnamed.live h
    have hn := (h.shape.tree.child p hp n hnamed.mem).1
    have hc : c ∈ fs.children n := hone ▸ List.mem_singleton.mpr rfl
    obtain ⟨hend, hnames⟩ := named_child h hpath hdir hc hdots
    have hfits := hfit.child hc
    have hclears := hclear.child h hpath hn hc hend
    obtain ⟨depth, fs₁, hcall, hgone⟩ := ih hend hnames hclears hfits
    have hnamed₁ := named_of_clear h hclear hnamed hn hone hgone
    have hnot := not_below_parent h hn hc
    have hdir₁ : fs₁.IsDirectory n := (Kyrofs.isDirectory_congr (hgone.same hn hnot)).mpr hdir
    have hempty : fs₁.children n = [] := by
      rw [hgone.children hn hnot, hone]
      exact List.erase_cons_head c []
    refine ⟨depth + 1, fs₁.unlink p n, ?_, hgone.unlink_parent h hp hnamed.mem hone⟩
    have hloop : removeEntries (removeRecursive depth free) path n (depth + 1) 0 fs =
        .ok (fs₁, 0) := by
      cases depth with
      | zero => cases hcall
      | succ depth =>
        rw [removeEntries_child (by decide) (by rw [hone]; rfl) hdots (hfits _ _ .refl) hcall]
        exact removeEntries_end (by decide) (by rw [hempty]; rfl)
    rw [removeRecursive_directory (h.kind n hn) hpath hfit hdir, hloop]
    exact sysRmdir_of_empty hnamed₁ hfit.copyPath_eq hdir₁ hempty

/-! ### Complete removals -/

/-- A removal that takes the end of its path out of the tree has a path that names it. -/
theorem named_of_removeRecursive {depth : ℕ} (h : Tidy fs) (hpath : fs.resolve fs.root path = some n)
    (hfit : PathsFit fs path n) (hok : removeRecursive depth free fs path = .ok (fs', 0))
    (hgone : n ∉ fs'.live) : ∃ p name, NamedBy fs path p name n := by
  have hn := (Kyrofs.attached_of_resolve h.shape.tree hpath).live h.shape.tree
  have hlast : ∀ {fs₁ : Kyrofs} {p c : Word}, n ∈ fs₁.live → n ∉ (fs₁.unlink p c).live → n = c := by
    intro fs₁ p c hlive hnot
    by_contra hne
    exact hnot (Finset.mem_erase.mpr ⟨hne, hlive⟩)
  cases depth with
  | zero => cases hok
  | succ depth =>
    by_cases hdir : fs.IsDirectory n
    · obtain ⟨free, fs₁, p, name, c, rfl, hloop, hnamed, -, rfl⟩ :=
        removeRecursive_directory_eq_ok h hpath hfit hdir hok
      obtain ⟨hlisting, hless, -⟩ := removeEntries_nonempty (removesWhole depth).removesChildren
        ⟨h, hn, hdir, .inr hpath, hfit⟩ hloop
      obtain rfl := hlast hlisting.live hgone
      exact ⟨p, name, hless.named hlisting.tidy hnamed⟩
    · rw [removeRecursive_file (h.kind n hn) hpath hfit hdir] at hok
      obtain ⟨p, name, c, hnamed, -, rfl⟩ := sysUnlink_eq_ok hfit.copyPath_eq hok
      obtain rfl := hlast hn hgone
      exact ⟨p, name, hnamed⟩

/-- At the path of a node that is gone nothing is found, nor below it. -/
theorem removed_of_gone (h : Tidy fs) (hpath : fs.resolve fs.root path = some n) (hn : n ≠ fs.root)
    (hgone : Gone fs fs' n) : Removed fs fs' path n := by
  have hhere : fs'.resolve fs'.root path = none := by
    by_contra hne
    obtain ⟨x, hx⟩ := Option.ne_none_iff_exists'.mp hne
    exact ((hgone.resolve h hn).mp hx).2 n ⟨_, List.prefix_rfl, hpath⟩ .refl
  refine ⟨hgone, hhere, fun rest => ?_⟩
  rw [Kyrofs.resolve, vfsResolvePath, pathComponents_append, List.foldlM_append]
  rw [Kyrofs.resolve, vfsResolvePath] at hhere
  rw [hhere]
  rfl

/-- The removal of a tree with distinct names, at paths shorter than the buffers, returns 0 with
nothing left at the path or below it and the rest as it was, if and only if the path names the node
in its directory and does not lead through what is below it, no directory has two entries or one
named `.` or `..`, and there are descriptors to open them all. -/
theorem removeRecursive_iff (h : Tidy fs) (hpath : fs.resolve fs.root path = some n)
    (hfit : PathsFit fs path n) (free : ℕ) :
    (∃ depth fs', removeRecursive depth free fs path = .ok (fs', 0) ∧ Removed fs fs' path n) ↔
      Removable fs free path n := by
  constructor
  · rintro ⟨depth, fs', hok, hremoved⟩
    have hgone : n ∉ fs'.live := fun hmem => ((hremoved.gone.live n).mp hmem).2 .refl
    obtain ⟨p, name, hnamed⟩ := named_of_removeRecursive h hpath hfit hok hgone
    obtain ⟨hone, hclear, -⟩ := removesWhole depth h hpath hnamed hfit hok
    exact ⟨⟨p, name, hnamed⟩, hclear, hone⟩
  · rintro ⟨⟨p, name, hnamed⟩, hclear, hone⟩
    obtain ⟨depth, fs', hok, hgone⟩ := removeRecursive_of_oneByOne h hone hpath hnamed hclear hfit
    exact ⟨depth, fs', hok, removed_of_gone h hpath (hnamed.ne_root h) hgone⟩

/-! ### A small package -/

/-- The paths of a tree, all of them listed. -/
theorem pathsFit_of_closed (paths : List (CString × Word)) (hstart : (path, n) ∈ paths)
    (hstep : ∀ x ∈ paths, ∀ y ∈ (fs.children x.2).map fun c =>
      (x.1 ++ slash :: (fs.node c).name, c), y ∈ paths)
    (hshort : ∀ x ∈ paths, x.1.length < maxFilenameLen) : PathsFit fs path n := by
  have hmem : ∀ {path' m}, Under fs path n path' m → (path', m) ∈ paths := by
    intro path' m h
    induction h with
    | refl => exact hstart
    | child _ hc ih => exact hstep _ ih _ (List.mem_map_of_mem hc)
  exact fun path' m h => hshort _ (hmem h)

end Removal

/-- The directory `/p` with the file `f`, and the directory `q` with the file `x`. -/
def packageTree : Kyrofs where
  node n :=
    if n = 2 then ⟨cstring ['p'], vfsDirectory, 0, .dirents [3, 4], 1⟩
    else if n = 3 then ⟨cstring ['q'], vfsDirectory, 0, .dirents [5], 2⟩
    else if n = 4 then ⟨cstring ['f'], vfsFile, 0, .content ⟨none, 0, 0⟩, 2⟩
    else if n = 5 then ⟨cstring ['x'], vfsFile, 0, .content ⟨none, 0, 0⟩, 3⟩
    else ⟨[slash], vfsDirectory, 0, .dirents [2], 1⟩
  root := 1
  live := {1, 2, 3, 4, 5}

theorem mem_packageTree {n : Word} :
    n ∈ packageTree.live ↔ n = 1 ∨ n = 2 ∨ n = 3 ∨ n = 4 ∨ n = 5 := by
  simp [packageTree]

/-- What holds of each of the five nodes. -/
theorem forall_packageTree {P : Word → Prop} (hroot : P 1) (hp : P 2) (hq : P 3) (hf : P 4)
    (hx : P 5) : ∀ n ∈ packageTree.live, P n := by
  intro n hn
  rcases mem_packageTree.mp hn with rfl | rfl | rfl | rfl | rfl
  · exact hroot
  · exact hp
  · exact hq
  · exact hf
  · exact hx

theorem packageTree_tidy : Tidy packageTree := by
  have hroot : packageTree.Attached 1 := .root
  have hp : packageTree.Attached 2 := .child hroot (by decide)
  have hq : packageTree.Attached 3 := .child hp (by decide)
  have hf : packageTree.Attached 4 := .child hp (by decide)
  have hx : packageTree.Attached 5 := .child hq (by decide)
  refine ⟨⟨⟨by decide, by decide, by decide, ?_, ?_⟩, ?_, ?_, by decide⟩, ?_, ?_, ?_⟩
  · have hchild : ∀ c d : Word, c = 2 ∨ c = 3 ∨ c = 4 ∨ c = 5 → (packageTree.node c).parent = d →
        c ∈ packageTree.live ∧ c ≠ packageTree.root ∧ (packageTree.node c).parent = d := by
      rintro c d hc hparent
      refine ⟨mem_packageTree.mpr (.inr hc), ?_, hparent⟩
      rintro rfl
      exact absurd hc (by decide)
    exact forall_packageTree
      (List.forall_mem_singleton.mpr (hchild 2 1 (by decide) (by decide)))
      (List.forall_mem_cons.mpr ⟨hchild 3 2 (by decide) (by decide),
        List.forall_mem_singleton.mpr (hchild 4 2 (by decide) (by decide))⟩)
      (List.forall_mem_singleton.mpr (hchild 5 3 (by decide) (by decide)))
      (List.forall_mem_nil _) (List.forall_mem_nil _)
  · exact forall_packageTree (by decide) (by decide) (by decide) (by decide) (by decide)
  · exact forall_packageTree hroot hp hq hf hx
  · exact forall_packageTree (by decide) (by decide) (by decide) (by decide) (by decide)
  · exact forall_packageTree (by decide) (by decide) (by decide) (by decide) (by decide)
  · exact forall_packageTree (by decide) (by decide) (by decide) (by decide) (by decide)
  · exact forall_packageTree ⟨by decide, by decide⟩ ⟨by decide, by decide⟩ ⟨by decide, by decide⟩
      ⟨by decide, by decide⟩ ⟨by decide, by decide⟩

/-- `/p/q` is removed with its file. -/
theorem removeRecursive_packageTree : ∃ depth fs',
    removeRecursive depth 13 packageTree (cstring ['/', 'p', '/', 'q']) = .ok (fs', 0) ∧
      Removed packageTree fs' (cstring ['/', 'p', '/', 'q']) 3 := by
  have hpaths : PathsFit packageTree (cstring ['/', 'p', '/', 'q']) 3 := pathsFit_of_closed
    [(cstring ['/', 'p', '/', 'q'], 3), (cstring ['/', 'p', '/', 'q', '/', 'x'], 5)]
    (by decide) (by decide) (by decide)
  refine (removeRecursive_iff packageTree_tidy (by decide) hpaths 13).mpr
    ⟨⟨2, cstring ['q'], by decide, by decide⟩, ?_, ?_⟩
  · rintro m ⟨names, hnames, hm⟩ hbelow
    have hcomponents : pathComponents (cstring ['/', 'p', '/', 'q']) =
        [cstring ['p'], cstring ['q']] := by decide
    rw [hcomponents] at hnames
    rcases List.prefix_cons_iff.mp hnames with rfl | ⟨rest, rfl, hrest⟩
    · obtain rfl : (1 : Word) = m := Option.some.inj hm
      exact absurd hbelow (not_below_root packageTree_tidy (by decide))
    · rcases List.prefix_cons_iff.mp hrest with rfl | ⟨last, rfl, hlast⟩
      · have hwalk : [cstring ['p']].foldlM (vfsFinddir packageTree) packageTree.root = some 2 := by
          decide
        obtain rfl := Option.some.inj (hwalk.symm.trans hm)
        exact absurd hbelow (not_below_parent packageTree_tidy (by decide) (by decide))
      · obtain rfl := List.prefix_nil.mp hlast
        have hwalk : [cstring ['p'], cstring ['q']].foldlM (vfsFinddir packageTree)
            packageTree.root = some 3 := by
          decide
        exact Option.some.inj (hm.symm.trans hwalk)
  · exact .child (by decide) (show packageTree.children 3 = [5] by decide) (by decide)
      (.file (by decide))

/-- The second file of `/p` is skipped, so that the directory is not empty in the end. -/
theorem not_removed : ¬ ∀ (fs : Kyrofs) (free : ℕ) (path : CString) (n : Word), Tidy fs →
    fs.resolve fs.root path = some n → PathsFit fs path n →
      ∃ depth fs', removeRecursive depth free fs path = .ok (fs', 0) ∧ Removed fs fs' path n := by
  intro hall
  have hpaths : PathsFit packageTree (cstring ['/', 'p']) 2 := pathsFit_of_closed
    [(cstring ['/', 'p'], 2), (cstring ['/', 'p', '/', 'q'], 3),
      (cstring ['/', 'p', '/', 'f'], 4), (cstring ['/', 'p', '/', 'q', '/', 'x'], 5)]
    (by decide) (by decide) (by decide)
  have hnamed : NamedBy packageTree (cstring ['/', 'p']) 1 (cstring ['p']) 2 :=
    ⟨by decide, by decide⟩
  have hpath : packageTree.resolve packageTree.root (cstring ['/', 'p']) = some 2 := by decide
  obtain ⟨depth, fs', hok, -⟩ := hall packageTree 13 _ 2 packageTree_tidy hpath hpaths
  obtain ⟨hone, -⟩ := removesWhole depth packageTree_tidy hpath hnamed hpaths hok
  cases hone with
  | file hfile => exact hfile (by decide)
  | empty _ hempty => exact absurd hempty (by decide)
  | child _ hone _ _ =>
    have htwo : (packageTree.children 2).length = 2 := by decide
    rw [hone] at htwo
    cases htwo

end KyroOS.Packages

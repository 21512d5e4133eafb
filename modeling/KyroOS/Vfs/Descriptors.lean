import KyroOS.Vfs.Names

/-!
# Descriptors

The threads refer to nodes of the file system by the descriptors they have open, of which the file
system knows nothing.

## Main definitions

* `FdEntry`, `FdState` — descriptors, and the tables of the live threads beside the file system
* `sysReadFile`, `sysWriteFile` — `sys_read` and `sys_write` on an open file
* `FdEvent`, `fdSystem` — the runs of file calls of any number of threads
* `NoDangling` — every open node is allocated
* `RemovesClosed` — no call removes a node that is open

## Main results

* `noDangling_of_reachable` — no descriptor dangles as long as only closed nodes are removed, and
  the first removal of an open one ends this
* `not_noDangling` — a file is unlinked while it is open
-/

namespace KyroOS.Vfs

open Transition

def oRdonly : BitVec 32 := 0x0001
def oWronly : BitVec 32 := 0x0002

/-- `MAX_FILES` -/
abbrev maxFiles : ℕ := 16

/-- An `fd_entry_t` of type `FD_TYPE_FILE`. -/
structure FdEntry where
  node : Word
  offset : Word
  flags : BitVec 32
  deriving DecidableEq

/-- `fd_table`; an entry that is not a file is `FD_TYPE_NONE`, as no call here opens a socket. -/
abbrev FdTable := Fin maxFiles → Option FdEntry

/-- The file system, and the tables of the live threads. -/
structure FdState where
  fs : Kyrofs
  threads : Finset Word
  fds : Word → FdTable

/-- The entry of a descriptor; a negative one is out of range as well. -/
def fdIndex (fd : BitVec 32) : Option (Fin maxFiles) :=
  if h : fd.toNat < maxFiles then some ⟨fd.toNat, h⟩ else none

/-- The first free entry. -/
def freeFd (table : FdTable) : Option (Fin maxFiles) :=
  (List.finRange maxFiles).find? fun i => (table i).isNone

/-- `-1` in `rax`. -/
def minusOne : Word := 0xFFFFFFFFFFFFFFFF

/-! ### Reading and writing -/

/-- `sys_read` on an open file, where `vfs_read` is `read`: the entry, `rax` and the bytes. -/
def sysReadFile (read : Word → BitVec 32 → Outcome (BitVec 32 × List Byte)) (entry : FdEntry)
    (size : Word) : Outcome (FdEntry × Word × List Byte) := do
  let (res, bytes) ← read entry.offset (size.setWidth 32)
  -- the 32-bit result is widened without its sign
  let rax : Word := res.setWidth 64
  .ok (if rax ≠ minusOne then { entry with offset := entry.offset + rax } else entry, rax, bytes)

/-- `sys_write` on an open file whose node has the given length, where the result of `vfs_write`
is `write`: the entry and `rax`. -/
def sysWriteFile (write : Word → BitVec 32 → Outcome (BitVec 32)) (length : BitVec 32)
    (entry : FdEntry) (size : Word) : Outcome (FdEntry × Word) := do
  let offset : Word := if entry.flags &&& oAppend ≠ 0 then length.setWidth 64 else entry.offset
  let res ← write offset (size.setWidth 32)
  let rax : Word := res.setWidth 64
  .ok (if rax ≠ minusOne then { entry with offset := offset + rax } else entry, rax)

/-- `vfs_read` of a KyroFS node. `/dev/tty` waits for a key, and a directory has no `read`. -/
def vfsRead (fs : Kyrofs) (n : Word) (key : Byte) (offset : Word) (size : BitVec 32) :
    Outcome (BitVec 32 × List Byte) :=
  if (fs.node n).hasDirectoryOps then
    if (fs.node n).has vfsChardevice ∧ size ≠ 0 then .ok (1, [key]) else .ok (0, [])
  else (kyrofsRead (fs.node n) offset size).map fun bytes => (BitVec.ofNat 32 bytes.length, bytes)

/-- `vfs_write` of a KyroFS node. -/
def vfsWrite (fs : Kyrofs) (n : Word) (offset : Word) (data : List Byte)
    (block : Option (ℕ → Byte)) : Outcome (Kyrofs × BitVec 32) :=
  if (fs.node n).hasDirectoryOps then
    .ok (fs, if (fs.node n).has vfsChardevice then BitVec.ofNat 32 data.length else 0)
  else do
    let (node, res) ← kyrofsWrite (fs.node n) offset data block
    .ok (fs.setNode n node, res)

namespace FdState

variable (s : FdState) (t : Word)

def setEntry (i : Fin maxFiles) (entry : Option FdEntry) : FdState :=
  { s with fds := Function.update s.fds t (Function.update (s.fds t) i entry) }

/-- The open file of a descriptor, if its node has not been freed. -/
def openFile (fd : BitVec 32) : Outcome (Option (Fin maxFiles × FdEntry)) :=
  match fdIndex fd with
  | none => .ok none
  | some i =>
    match s.fds t i with
    | none => .ok none
    | some entry => if entry.node ∈ s.fs.live then .ok (some (i, entry)) else .error .fault

/-- `sys_read` -/
def sysRead (fd : BitVec 32) (size : Word) (key : Byte) : Outcome (FdState × Word × List Byte) := do
  match ← s.openFile t fd with
  | none => .ok (s, minusOne, [])
  | some (i, entry) =>
    let (entry', rax, bytes) ← sysReadFile (vfsRead s.fs entry.node key) entry size
    .ok (s.setEntry t i (some entry'), rax, bytes)

/-- `sys_write` -/
def sysWrite (fd : BitVec 32) (data : List Byte) (block : Option (ℕ → Byte)) :
    Outcome (FdState × Word) := do
  match ← s.openFile t fd with
  | none => .ok (s, minusOne)
  | some (i, entry) =>
    let offset : Word := if entry.flags &&& oAppend ≠ 0 then
        (s.fs.node entry.node).length.setWidth 64
      else entry.offset
    let (fs, res) ← vfsWrite s.fs entry.node offset data block
    let rax : Word := res.setWidth 64
    let entry' := if rax ≠ minusOne then { entry with offset := offset + rax } else entry
    .ok ({ s with fs }.setEntry t i (some entry'), rax)

/-- `sys_open` -/
def sysOpen (new : NewNode) (path : CString) (flags : BitVec 32) : Outcome (FdState × Word) := do
  let (fs, res) ← Vfs.sysOpen s.fs new path flags
  match res with
  | none => .ok ({ s with fs }, minusOne)
  | some n =>
    match freeFd (s.fds t) with
    | none => .ok ({ s with fs }, minusOne)
    | some i =>
      let offset : Word := if flags &&& oAppend ≠ 0 then (fs.node n).length.setWidth 64 else 0
      .ok ({ s with fs }.setEntry t i (some ⟨n, offset, flags⟩), BitVec.ofNat 64 i)

/-- `sys_close` -/
def sysClose (fd : BitVec 32) : FdState × Word :=
  match fdIndex fd with
  | none => (s, minusOne)
  | some i => if (s.fds t i).isNone then (s, minusOne) else (s.setEntry t i none, 0)

/-- The table of `thread_create_userspace`: the console is open three times. -/
def userTable : FdTable :=
  let console :=
    (s.fs.resolve s.fs.root
      (cstring ['/', 'd', 'e', 'v', '/', 'c', 'o', 'n', 's', 'o', 'l', 'e'])).orElse fun _ =>
    s.fs.resolve s.fs.root (cstring ['/', 'd', 'e', 'v', '/', 't', 't', 'y'])
  fun i => if (i : ℕ) < 3 then
      console.map fun n => ⟨n, 0, if (i : ℕ) = 0 then oRdonly else oWronly⟩
    else none

end FdState

/-! ### Runs of file calls -/

/-- A call of a thread, or the creation or end of one. -/
inductive FdEvent
  | create (t : Word)
  | createUserspace (t : Word)
  | exit (t : Word)
  | open (t : Word) (path : CString) (flags : BitVec 32) (new : NewNode)
  | close (t : Word) (fd : BitVec 32)
  | read (t : Word) (fd : BitVec 32) (size : Word) (key : Byte)
  | write (t : Word) (fd : BitVec 32) (data : List Byte) (block : Option (ℕ → Byte))
  | mkdir (t : Word) (path : CString) (new : NewNode)
  | unlink (t : Word) (path : CString)
  | rmdir (t : Word) (path : CString)

namespace FdEvent

/-- The state after an event. -/
def run (s : FdState) : FdEvent → Outcome FdState
  | create t => .ok
      { s with threads := insert t s.threads, fds := Function.update s.fds t fun _ => none }
  | createUserspace t => .ok
      { s with threads := insert t s.threads, fds := Function.update s.fds t s.userTable }
  | exit t => .ok { s with threads := s.threads.erase t }
  | .open t path flags new => (s.sysOpen t new path flags).map Prod.fst
  | close t fd => .ok (s.sysClose t fd).1
  | read t fd size key => (s.sysRead t fd size key).map Prod.fst
  | write t fd data block => (s.sysWrite t fd data block).map Prod.fst
  | mkdir _ path new => (sysMkdir s.fs new path).map fun r => { s with fs := r.1 }
  | unlink _ path => (sysUnlink s.fs path).map fun r => { s with fs := r.1 }
  | rmdir _ path => (sysRmdir s.fs path).map fun r => { s with fs := r.1 }

/-- Live threads call, and `kmalloc` returns a block that is not in use. -/
def Admissible (s : FdState) : FdEvent → Prop
  | create t | createUserspace t => t ∉ s.threads
  | exit t | close t _ | read t _ _ _ | write t _ _ _ | unlink t _ | rmdir t _ => t ∈ s.threads
  | .open t _ _ new | mkdir t _ new => t ∈ s.threads ∧ new.dirent ∉ s.fs.live

/-- A node that `kyrofs_remove` frees, and one that `kyrofs_rmdir` frees. -/
def unlinkable (d : Dirent) : Bool := ¬ (d.has vfsDirectory ∧ ¬ d.ptr.isNull)
def rmdirable (d : Dirent) : Bool := d.has vfsDirectory ∧ d.ptr.isNull

/-- The child that a path names for removal, if it is one that `removable` accepts. -/
def childToRemove (fs : Kyrofs) (path : CString) (removable : Dirent → Bool) : Option Word :=
  (vfsParent (vfsFinddir fs) (fun n => (fs.node n).has vfsDirectory) fs.root
      (copyPath path)).bind fun (p, name) =>
    (fs.childNamed p name).filter fun c => removable (fs.node c)

/-- The node that a call removes. -/
def removed (fs : Kyrofs) : FdEvent → Option Word
  | unlink _ path => childToRemove fs path unlinkable
  | rmdir _ path => childToRemove fs path rmdirable
  | _ => none

end FdEvent

/-- The runs from `kyrofs_init` on, with no thread yet. -/
def fdSystem : System FdState FdEvent where
  init := fun s => kyrofsSystem.init s.fs ∧ s.threads = ∅
  step := fun s e s' => e.Admissible s ∧ e.run s = .ok s'

/-- A live thread has the node open. -/
def FdState.HasOpen (s : FdState) (n : Word) : Prop :=
  ∃ t ∈ s.threads, ∃ i entry, s.fds t i = some entry ∧ entry.node = n

/-- Every node that a live thread has open is allocated. -/
def NoDangling (s : FdState) : Prop := ∀ n, s.HasOpen n → n ∈ s.fs.live

/-- A node that is removed is open in no thread. -/
def RemovesClosed (s : FdState) (e : FdEvent) : Prop :=
  ∀ n, e.removed s.fs = some n → ¬ s.HasOpen n

section Runs

variable {s s' : FdState} {e : FdEvent} {t n : Word}

theorem FdState.HasOpen.of_fds {fs : Kyrofs} (h : FdState.HasOpen { s with fs } n) :
    s.HasOpen n := h

/-- What is open after an entry is set. -/
theorem FdState.HasOpen.of_setEntry {i : Fin maxFiles} {entry : Option FdEntry}
    (h : (s.setEntry t i entry).HasOpen n) :
    s.HasOpen n ∨ ∃ e, entry = some e ∧ e.node = n := by
  obtain ⟨t', ht', j, e, hfd, hnode⟩ := h
  rw [FdState.setEntry] at hfd
  dsimp only at hfd
  by_cases htt : t' = t
  · rw [htt, Function.update_self] at hfd
    by_cases hji : j = i
    · rw [hji, Function.update_self] at hfd
      exact .inr ⟨e, hfd, hnode⟩
    · rw [Function.update_of_ne hji] at hfd
      exact .inl ⟨t, htt ▸ ht', j, e, hfd, hnode⟩
  · rw [Function.update_of_ne htt] at hfd
    exact .inl ⟨t', ht', j, e, hfd, hnode⟩

/-- The open file of a descriptor is in the table of its thread. -/
theorem FdState.openFile_eq_some {fd : BitVec 32} {i : Fin maxFiles} {entry : FdEntry}
    (h : s.openFile t fd = .ok (some (i, entry))) :
    s.fds t i = some entry ∧ entry.node ∈ s.fs.live := by
  rw [FdState.openFile] at h
  cases hindex : fdIndex fd with
  | none =>
    rw [hindex] at h
    cases h
  | some j =>
    rw [hindex] at h
    dsimp only at h
    cases hentry : s.fds t j with
    | none =>
      rw [hentry] at h
      cases h
    | some e =>
      rw [hentry] at h
      dsimp only at h
      split_ifs at h with hlive
      obtain ⟨rfl, rfl⟩ := Prod.mk.inj (Option.some.inj (Except.ok.inj h))
      exact ⟨hentry, hlive⟩

theorem vfsWrite_touch {fs fs' : Kyrofs} {offset : Word} {data : List Byte}
    {block : Option (ℕ → Byte)} {res : BitVec 32}
    (h : vfsWrite fs n offset data block = .ok (fs', res)) : fs.Touch fs' := by
  rw [vfsWrite] at h
  split_ifs at h
  · obtain ⟨rfl, -⟩ := Prod.mk.inj (Except.ok.inj h)
    exact .refl
  · obtain ⟨rfl, -⟩ := Prod.mk.inj (Except.ok.inj h)
    exact .refl
  · obtain ⟨r, hwrite, h⟩ := Outcome.bind_eq_ok.mp h
    obtain ⟨rfl, -⟩ := Prod.mk.inj (Except.ok.inj h)
    exact kyrofsWrite_touch hwrite

/-- The nodes that are left after a removal. -/
theorem removal_live {fs fs' : Kyrofs} {path : CString} {r : Int} {removable : Dirent → Bool}
    {op : Word → CString → Kyrofs × Int}
    (hop : ∀ p name, (op p name).1.live =
      (((fs.childNamed p name).filter fun c => removable (fs.node c)).elim fs.live
        fun c => fs.live.erase c))
    (hok : fs.callInParent fs.root (copyPath path) (fun p name => .ok (op p name)) =
      .ok (fs', r)) :
    fs'.live = (FdEvent.childToRemove fs path removable).elim fs.live
      fun c => fs.live.erase c := by
  rw [FdEvent.childToRemove]
  rcases callInParent_cases hok with ⟨rfl, hnoop⟩ | ⟨p, name, hparent, hok⟩
  · cases hparent : vfsParent (vfsFinddir fs') (fun n => (fs'.node n).has vfsDirectory) fs'.root
        (copyPath path) with
    | none => rfl
    | some res =>
      obtain ⟨p, name⟩ := res
      have hchild : fs'.childNamed p name = none := by
        have hno : (fs'.node p).hasDirectoryOps = false := by
          simpa using hnoop p name hparent
        by_contra hsome
        obtain ⟨c, hc⟩ := Option.ne_none_iff_exists'.mp hsome
        have hops := Kyrofs.hasDirectoryOps_of_mem (Kyrofs.childNamed_eq_some hc).1
        rw [hno] at hops
        cases hops
      show fs'.live = (Option.filter _ (fs'.childNamed p name)).elim _ _
      rw [hchild]
      rfl
  · rw [hparent]
    have hlive := hop p name
    rw [Except.ok.inj hok] at hlive
    exact hlive

theorem sysUnlink_live {fs fs' : Kyrofs} {path : CString} {r : Int}
    (hok : sysUnlink fs path = .ok (fs', r)) :
    fs'.live = (FdEvent.childToRemove fs path FdEvent.unlinkable).elim fs.live
      fun c => fs.live.erase c := by
  refine removal_live (fun p name => ?_) hok
  rw [kyrofsRemove]
  cases hchild : fs.childNamed p name with
  | none => rfl
  | some c =>
    rw [Option.filter_some]
    dsimp only
    have hiff : FdEvent.unlinkable (fs.node c) = true ↔
        ¬ ((fs.node c).has vfsDirectory ∧ ¬ (fs.node c).ptr.isNull) := decide_eq_true_iff
    by_cases hfull : (fs.node c).has vfsDirectory ∧ ¬ (fs.node c).ptr.isNull
    · rw [if_pos hfull, if_neg fun h => hiff.mp h hfull]
      rfl
    · rw [if_neg hfull, if_pos (hiff.mpr hfull)]
      rfl

theorem sysRmdir_live {fs fs' : Kyrofs} {path : CString} {r : Int}
    (hok : sysRmdir fs path = .ok (fs', r)) :
    fs'.live = (FdEvent.childToRemove fs path FdEvent.rmdirable).elim fs.live
      fun c => fs.live.erase c := by
  refine removal_live (fun p name => ?_) hok
  rw [kyrofsRmdir]
  cases hchild : fs.childNamed p name with
  | none => rfl
  | some c =>
    rw [Option.filter_some]
    dsimp only
    by_cases hdir : (fs.node c).has vfsDirectory
    · rw [if_neg (not_not.mpr hdir)]
      by_cases hnull : (fs.node c).ptr.isNull
      · rw [if_neg (not_not.mpr hnull), if_pos (by simp [FdEvent.rmdirable, hdir, hnull])]
        rfl
      · rw [if_pos hnull, if_neg (by simp [FdEvent.rmdirable, hnull])]
        rfl
    · rw [if_pos hdir, if_neg (by simp [FdEvent.rmdirable, hdir])]
      rfl

/-- Where no node is removed, what is open stays allocated if what a call opens is. -/
theorem noDangling_of_subset (hsafe : NoDangling s) (hlive : s.fs.live ⊆ s'.fs.live)
    (hopen : ∀ n, s'.HasOpen n → s.HasOpen n ∨ n ∈ s'.fs.live) : NoDangling s' :=
  fun n hn => (hopen n hn).elim (fun hold => hlive (hsafe n hold)) id

/-- A removal keeps what is open, and erases a node. -/
theorem noDangling_removal {fs' : Kyrofs} {removed : Option Word} (hsafe : NoDangling s)
    (hlive : fs'.live = removed.elim s.fs.live fun c => s.fs.live.erase c) :
    NoDangling { s with fs := fs' } ↔ ∀ n, removed = some n → ¬ s.HasOpen n := by
  constructor
  · rintro hsafe' c rfl hopen
    have hmem : c ∈ fs'.live := hsafe' c hopen
    rw [hlive] at hmem
    exact Finset.notMem_erase c s.fs.live hmem
  · intro hclosed n hopen
    have hold := hsafe n hopen.of_fds
    show n ∈ fs'.live
    rw [hlive]
    cases removed with
    | none => exact hold
    | some c => exact Finset.mem_erase.mpr ⟨fun heq => hclosed c rfl (heq ▸ hopen.of_fds), hold⟩

/-- The table of a new thread refers to a node that a path leads to. -/
theorem userTable_live (htree : s.fs.Tree) {i : Fin maxFiles} {entry : FdEntry}
    (h : s.userTable i = some entry) : entry.node ∈ s.fs.live := by
  rw [FdState.userTable] at h
  dsimp only at h
  by_cases hi : (i : ℕ) < 3
  swap
  · rw [if_neg hi] at h
    cases h
  rw [if_pos hi] at h
  obtain ⟨n, hn, rfl⟩ := Option.map_eq_some_iff.mp h
  show n ∈ s.fs.live
  cases hconsole : s.fs.resolve s.fs.root
      (cstring ['/', 'd', 'e', 'v', '/', 'c', 'o', 'n', 's', 'o', 'l', 'e']) with
  | some m =>
    rw [hconsole] at hn
    exact Option.some.inj hn ▸ (Kyrofs.attached_of_resolve htree hconsole).live htree
  | none =>
    rw [hconsole] at hn
    exact (Kyrofs.attached_of_resolve htree hn).live htree

/-- A new thread has the entries of its table open. -/
theorem FdState.HasOpen.of_create {table : FdTable}
    (h : FdState.HasOpen
      { s with threads := insert t s.threads, fds := Function.update s.fds t table } n) :
    s.HasOpen n ∨ ∃ i entry, table i = some entry ∧ entry.node = n := by
  obtain ⟨t', ht', i, entry, hfd, hnode⟩ := h
  dsimp only at ht' hfd
  by_cases htt : t' = t
  · rw [htt, Function.update_self] at hfd
    exact .inr ⟨i, entry, hfd, hnode⟩
  · rw [Function.update_of_ne htt] at hfd
    exact .inl ⟨t', (Finset.mem_insert.mp ht').resolve_left htt, i, entry, hfd, hnode⟩

/-- The effect of `sys_open`. -/
theorem sysOpen_safe {new : NewNode} {path : CString} {flags : BitVec 32} {rax : Word}
    (htree : s.fs.Tree) (hsafe : NoDangling s) (hnew : new.dirent ∉ s.fs.live)
    (hok : s.sysOpen t new path flags = .ok (s', rax)) : s'.fs.Tree ∧ NoDangling s' := by
  obtain ⟨⟨fs, res⟩, hopen, hok⟩ := Outcome.bind_eq_ok.mp hok
  obtain ⟨⟨target, hcreates, -⟩, hres⟩ := sysOpen_creates htree hnew hopen
  have hsub := hcreates.live_subset
  have htree' : fs.Tree := by
    obtain ⟨fs₁, hedit, -, htouch⟩ := hcreates
    exact (htree.edit hedit).touch htouch
  have hkeep : NoDangling { s with fs } := noDangling_of_subset hsafe hsub fun n hn => .inl hn
  dsimp only at hok
  cases res with
  | none =>
    obtain ⟨rfl, -⟩ := Prod.mk.inj (Except.ok.inj hok)
    exact ⟨htree', hkeep⟩
  | some n =>
    dsimp only at hok
    cases hfree : freeFd (s.fds t) with
    | none =>
      rw [hfree] at hok
      obtain ⟨rfl, -⟩ := Prod.mk.inj (Except.ok.inj hok)
      exact ⟨htree', hkeep⟩
    | some i =>
      rw [hfree] at hok
      obtain ⟨rfl, -⟩ := Prod.mk.inj (Except.ok.inj hok)
      refine ⟨htree', fun m hm => ?_⟩
      rcases hm.of_setEntry with hold | ⟨e, he, rfl⟩
      · exact hkeep m hold
      · obtain rfl := Option.some.inj he
        exact hres n rfl

/-- A read or a write moves the offset of its descriptor. -/
theorem noDangling_setEntry {fs : Kyrofs} {i : Fin maxFiles} {entry entry' : FdEntry}
    (hsafe : NoDangling s) (hentry : entry.node ∈ s.fs.live) (hlive : fs.live = s.fs.live)
    (hnode : entry'.node = entry.node) :
    NoDangling (FdState.setEntry { s with fs } t i (some entry')) := by
  intro n hn
  show n ∈ fs.live
  rw [hlive]
  rcases hn.of_setEntry with hold | ⟨e, he, rfl⟩
  · exact hsafe n hold
  · obtain rfl := Option.some.inj he
    exact hnode ▸ hentry

theorem sysRead_safe {fd : BitVec 32} {size rax : Word} {key : Byte} {bytes : List Byte}
    (htree : s.fs.Tree) (hsafe : NoDangling s)
    (hok : s.sysRead t fd size key = .ok (s', rax, bytes)) : s'.fs.Tree ∧ NoDangling s' := by
  obtain ⟨res, hfile, hok⟩ := Outcome.bind_eq_ok.mp hok
  cases res with
  | none =>
    obtain ⟨rfl, -⟩ := Prod.mk.inj (Except.ok.inj hok)
    exact ⟨htree, hsafe⟩
  | some p =>
    obtain ⟨i, entry⟩ := p
    obtain ⟨-, hentry⟩ := FdState.openFile_eq_some hfile
    obtain ⟨⟨entry', rax', bytes'⟩, hread, hok⟩ := Outcome.bind_eq_ok.mp hok
    obtain ⟨rfl, -⟩ := Prod.mk.inj (Except.ok.inj hok)
    obtain ⟨⟨r, bs⟩, -, hread⟩ := Outcome.bind_eq_ok.mp hread
    obtain ⟨rfl, -⟩ := Prod.mk.inj (Except.ok.inj hread)
    refine ⟨htree, noDangling_setEntry hsafe hentry (Eq.refl s.fs.live) ?_⟩
    split_ifs
    · rfl
    · rfl

theorem sysWrite_safe {fd : BitVec 32} {data : List Byte} {block : Option (ℕ → Byte)} {rax : Word}
    (htree : s.fs.Tree) (hsafe : NoDangling s)
    (hok : s.sysWrite t fd data block = .ok (s', rax)) : s'.fs.Tree ∧ NoDangling s' := by
  obtain ⟨res, hfile, hok⟩ := Outcome.bind_eq_ok.mp hok
  cases res with
  | none =>
    obtain ⟨rfl, -⟩ := Prod.mk.inj (Except.ok.inj hok)
    exact ⟨htree, hsafe⟩
  | some p =>
    obtain ⟨i, entry⟩ := p
    obtain ⟨-, hentry⟩ := FdState.openFile_eq_some hfile
    obtain ⟨⟨fs, res⟩, hwrite, hok⟩ := Outcome.bind_eq_ok.mp hok
    obtain ⟨rfl, -⟩ := Prod.mk.inj (Except.ok.inj hok)
    have htouch := vfsWrite_touch hwrite
    refine ⟨htree.touch htouch, noDangling_setEntry hsafe hentry htouch.live ?_⟩
    split_ifs <;> rfl

/-- The step lemma. -/
theorem noDangling_step (htree : s.fs.Tree) (hsafe : NoDangling s)
    (hstep : fdSystem.step s e s') :
    s'.fs.Tree ∧ (NoDangling s' ↔ RemovesClosed s e) := by
  obtain ⟨hadm, hok⟩ := hstep
  -- a call that removes nothing
  have hnone : e.removed s.fs = none → s'.fs.Tree ∧ NoDangling s' →
      s'.fs.Tree ∧ (NoDangling s' ↔ RemovesClosed s e) := by
    intro hremoved ⟨htree', hsafe'⟩
    refine ⟨htree', iff_of_true hsafe' fun n hn => ?_⟩
    rw [hremoved] at hn
    cases hn
  cases e with
  | create t =>
    obtain rfl := Except.ok.inj hok
    refine hnone rfl ⟨htree, noDangling_of_subset hsafe (Finset.Subset.refl _) fun n hn => ?_⟩
    exact hn.of_create.imp_right fun ⟨i, entry, hentry, _⟩ => (by cases hentry)
  | createUserspace t =>
    obtain rfl := Except.ok.inj hok
    refine hnone rfl ⟨htree, noDangling_of_subset hsafe (Finset.Subset.refl _) fun n hn => ?_⟩
    exact hn.of_create.imp_right fun ⟨i, entry, hentry, hnode⟩ =>
      hnode ▸ userTable_live htree hentry
  | exit t =>
    obtain rfl := Except.ok.inj hok
    refine hnone rfl ⟨htree, noDangling_of_subset hsafe (Finset.Subset.refl _) fun n hn => ?_⟩
    obtain ⟨t', ht', rest⟩ := hn
    exact .inl ⟨t', Finset.mem_of_mem_erase ht', rest⟩
  | «open» t path flags new =>
    obtain ⟨rax, hopen⟩ := map_fst_eq_ok hok
    exact hnone rfl (sysOpen_safe htree hsafe hadm.2 hopen)
  | close t fd =>
    obtain rfl := Except.ok.inj hok
    refine hnone rfl ?_
    show ((s.sysClose t fd).1).fs.Tree ∧ NoDangling (s.sysClose t fd).1
    rw [FdState.sysClose]
    cases fdIndex fd with
    | none => exact ⟨htree, hsafe⟩
    | some i =>
      dsimp only
      split_ifs
      · exact ⟨htree, hsafe⟩
      · refine ⟨htree, noDangling_of_subset hsafe (Finset.Subset.refl _) fun n hn => ?_⟩
        exact hn.of_setEntry.imp_right fun ⟨e, he, _⟩ => (by cases he)
  | read t fd size key =>
    obtain ⟨⟨rax, bytes⟩, hread⟩ := map_fst_eq_ok hok
    exact hnone rfl (sysRead_safe htree hsafe hread)
  | write t fd data block =>
    obtain ⟨rax, hwrite⟩ := map_fst_eq_ok hok
    exact hnone rfl (sysWrite_safe htree hsafe hwrite)
  | mkdir t path new =>
    obtain ⟨⟨fs', r⟩, hmkdir, rfl⟩ := map_eq_ok hok
    refine hnone rfl ⟨tree_step htree (e := .mkdir path new) ⟨hadm.2, ?_⟩, ?_⟩
    · rw [FsEvent.run, hmkdir]
      rfl
    · rcases callInParent_cases hmkdir with ⟨rfl, -⟩ | ⟨p, name, hparent, hcreate⟩
      · exact hsafe
      · have hlive := (Kyrofs.attached_of_vfsParent htree hparent).live htree
        obtain ⟨-, -, hinsert, -⟩ := createNode_edit hcreate hadm.2 hlive
        refine noDangling_of_subset hsafe ?_ fun n hn => .inl hn
        show s.fs.live ⊆ fs'.live
        rw [hinsert]
        exact Finset.subset_insert _ _
  | unlink t path =>
    obtain ⟨⟨fs', r⟩, hunlink, rfl⟩ := map_eq_ok hok
    refine ⟨tree_step htree (e := .unlink path) ⟨trivial, ?_⟩,
      noDangling_removal hsafe (sysUnlink_live hunlink)⟩
    rw [FsEvent.run, hunlink]
    rfl
  | rmdir t path =>
    obtain ⟨⟨fs', r⟩, hrmdir, rfl⟩ := map_eq_ok hok
    refine ⟨tree_step htree (e := .rmdir path) ⟨trivial, ?_⟩,
      noDangling_removal hsafe (sysRmdir_live hrmdir)⟩
    rw [FsEvent.run, hrmdir]
    rfl

/-- The run lemma. -/
theorem safe_of_reachable (h : fdSystem.ReachableUnder RemovesClosed s) :
    s.fs.Tree ∧ NoDangling s := by
  refine h.invariant (I := fun s => s.fs.Tree ∧ NoDangling s) ?_ ?_
  · rintro s ⟨hinit, hthreads⟩
    refine ⟨tree_of_reachable (System.ReachableUnder.init (C := fun _ _ => True) hinit), ?_⟩
    rintro n ⟨t, ht, -⟩
    rw [hthreads] at ht
    exact absurd ht (Finset.notMem_empty t)
  · rintro s e s' ⟨htree, hsafe⟩ hclosed hstep
    obtain ⟨htree', hiff⟩ := noDangling_step htree hsafe hstep
    exact ⟨htree', hiff.mpr hclosed⟩

/-- Every open node is allocated as long as no node is removed that a live thread has open, and
the first call that removes one ends this. -/
theorem noDangling_of_reachable (h : fdSystem.ReachableUnder RemovesClosed s) :
    NoDangling s ∧ ∀ e s', fdSystem.step s e s' → (NoDangling s' ↔ RemovesClosed s e) := by
  obtain ⟨htree, hsafe⟩ := safe_of_reachable h
  exact ⟨hsafe, fun e s' hstep => (noDangling_step htree hsafe hstep).2⟩

end Runs

/-! ### One open directory -/

section Small

instance (s : FdState) : ∀ e, Decidable (FdEvent.Admissible s e)
  | .create _ | .createUserspace _ => inferInstanceAs (Decidable (_ ∉ _))
  | .exit _ | .close _ _ | .read _ _ _ _ | .write _ _ _ _ | .unlink _ _ | .rmdir _ _ =>
    inferInstanceAs (Decidable (_ ∈ _))
  | .open _ _ _ _ | .mkdir _ _ _ => inferInstanceAs (Decidable (_ ∧ _))

/-- The state after an event that can happen. -/
def fdNext (s : FdState) (e : FdEvent) : Option FdState :=
  if e.Admissible s then (e.run s).toOption else none

theorem step_of_fdNext {s s' : FdState} {e : FdEvent} (h : fdNext s e = some s') :
    fdSystem.step s e s' := by
  rw [fdNext] at h
  split_ifs at h with hadm
  exact ⟨hadm, Outcome.toOption_eq_some.mp h⟩

def smallFds : FdState := ⟨smallTree, ∅, fun _ _ => none⟩

theorem smallFds_init : fdSystem.init smallFds := ⟨smallTree_init, rfl⟩

/-- `/mnt`, in the tree of `kyrofs_init`. -/
def mntPath : CString := cstring ['/', 'm', 'n', 't']

/-- A thread opens a directory. -/
theorem noDangling_open : ∃ s : FdState,
    ((s.fds 1 0).map FdEntry.node = some (smallNode 3).dirent) ∧ NoDangling s := by
  obtain ⟨s, hs, hopen⟩ := System.exists_reachableUnder (S := fdSystem) (C := RemovesClosed)
    (P := fun s : FdState => (s.fds 1 0).map FdEntry.node = some (smallNode 3).dirent)
    (fun s e => if e.removed s.fs = none then fdNext s e else none)
    [.create 1, .open 1 mntPath 0 (smallNode 8)]
    (fun s e s' h => by
      split_ifs at h with hnone
      refine ⟨e, fun n hn => ?_, step_of_fdNext h⟩
      rw [hnone] at hn
      cases hn)
    smallFds_init (by decide)
  exact ⟨s, hopen, (noDangling_of_reachable hs).1⟩

/-- A thread opens a directory and removes it. -/
theorem not_noDangling : ¬ ∀ s, fdSystem.Reachable s → NoDangling s := by
  intro hall
  obtain ⟨s, hs, hthread, hopen, hfreed⟩ := System.exists_reachableUnder (S := fdSystem)
    (C := fun _ _ => True)
    (P := fun s : FdState => 1 ∈ s.threads ∧
      ((s.fds 1 0).map FdEntry.node = some (smallNode 3).dirent) ∧
        (smallNode 3).dirent ∉ s.fs.live)
    fdNext [.create 1, .open 1 mntPath 0 (smallNode 8), .rmdir 1 mntPath]
    (fun s e s' h => ⟨e, trivial, step_of_fdNext h⟩) smallFds_init (by decide)
  obtain ⟨entry, hentry, hnode⟩ := Option.map_eq_some_iff.mp hopen
  exact hfreed (hall s hs _ ⟨1, hthread, 0, entry, hentry, hnode⟩)

end Small

end KyroOS.Vfs

import KyroOS.Vfs.Descriptors

/-!
# The changes in a call

A call changes the file system in a few steps: a node is created, or a child unlinked, and a file
is opened or written. An invariant of the file system is shown for each of these, and holds then
of every run of calls.

## Main definitions

* `Change`, `changeSystem` — the changes of the tree and of the files in it
* `FsEvent.Makes`, `FdEvent.Makes` — the changes that a call may make

## Main results

* `Change.tree` — a change keeps the tree
* `FsEvent.runsTo`, `FdEvent.runsTo` — a call is a run of its changes
-/

namespace KyroOS.Vfs

open Transition

/-! ### Changes -/

/-- A change of the tree, or of a file in it. -/
inductive Change
  | create (new : NewNode) (parent : Word) (name : CString) (flags : BitVec 32)
  | unlink (parent child : Word)
  | open (n : Word) (flags : BitVec 32)
  | write (n : Word) (offset : Word) (data : List Byte) (block : Option (ℕ → Byte))

inductive ChangeStep : Kyrofs → Change → Kyrofs → Prop
  | create {fs fs' : Kyrofs} {new : NewNode} {p : Word} {name : CString} {flags : BitVec 32}
    {r : Int} (hnew : new.dirent ∉ fs.live) (hp : p ∈ fs.live)
    (hok : kyrofsCreateNode fs new p name flags = .ok (fs', r)) :
    ChangeStep fs (.create new p name flags) fs'
  | unlink {fs : Kyrofs} {p c : Word} (hp : p ∈ fs.live) (hc : c ∈ fs.children p) :
    ChangeStep fs (.unlink p c) (fs.unlink p c)
  | open {fs fs' : Kyrofs} {n : Word} {flags : BitVec 32} {res : Option Word}
    (hn : n ∈ fs.live) (hok : fs.openNode n flags = .ok (fs', res)) :
    ChangeStep fs (.open n flags) fs'
  | write {fs fs' : Kyrofs} {n offset : Word} {data : List Byte} {block : Option (ℕ → Byte)}
    {res : BitVec 32} (hn : n ∈ fs.live) (hok : vfsWrite fs n offset data block = .ok (fs', res)) :
    ChangeStep fs (.write n offset data block) fs'

/-- The runs of changes from `kyrofs_init` on. -/
def changeSystem : System Kyrofs Change where
  init := kyrofsSystem.init
  step := ChangeStep

/-- The changes that a call may make. -/
def FsEvent.Makes (fs : Kyrofs) : FsEvent → Change → Prop
  | .open path flags new, c => (∃ p name, c = .create new p name vfsFile) ∨
      ∃ n fs', sysOpen fs new path flags = .ok (fs', some n) ∧ c = .open n flags
  | .mkdir _ new, c => ∃ p name, c = .create new p name vfsDirectory
  | .unlink path, c => ∃ p n, FdEvent.childToRemove fs path FdEvent.unlinkable = some n ∧
      c = .unlink p n
  | .rmdir path, c => ∃ p n, FdEvent.childToRemove fs path FdEvent.rmdirable = some n ∧
      c = .unlink p n
  | .addFile _ data new block, c => (∃ p name, c = .create new p name vfsFile) ∨
      ∃ n, c = .write n 0 data block
  | .createNode p name flags new, c => c = .create new p name flags

/-- The position of a write through a descriptor. -/
def writeOffset (fs : Kyrofs) (entry : FdEntry) : Word :=
  if entry.flags &&& oAppend ≠ 0 then (fs.node entry.node).length.setWidth 64 else entry.offset

/-- The changes that a call of a thread may make. -/
def FdEvent.Makes (s : FdState) : FdEvent → Change → Prop
  | .open _ path flags new, c => FsEvent.Makes s.fs (.open path flags new) c
  | .mkdir _ path new, c => FsEvent.Makes s.fs (.mkdir path new) c
  | .unlink _ path, c => FsEvent.Makes s.fs (.unlink path) c
  | .rmdir _ path, c => FsEvent.Makes s.fs (.rmdir path) c
  | .write t fd data block, c => ∃ i entry, s.openFile t fd = .ok (some (i, entry)) ∧
      c = .write entry.node (writeOffset s.fs entry) data block
  | .create _, _ | .createUserspace _, _ | .exit _, _ | .close _ _, _ | .read _ _ _ _, _ => False

/-- What `kmalloc` returns for the node that a call may create. -/
def FdEvent.created : FdEvent → Option NewNode
  | .open _ _ _ new | .mkdir _ _ new => some new
  | _ => none

section Changes

variable {fs fs' : Kyrofs} {new : NewNode} {n p root : Word} {name path : CString}
  {flags : BitVec 32} {r : Int} {e : FsEvent} {c : Change} {C : Kyrofs → Change → Prop}

/-- A change keeps the tree. -/
theorem Change.tree (htree : fs.Tree) (hstep : changeSystem.step fs c fs') : fs'.Tree := by
  cases hstep with
  | create hnew hp hok => exact htree.edit (createNode_edit hok hnew hp).1
  | unlink hp hc => exact htree.edit (.unlink hp hc)
  | «open» hn hok => exact htree.touch (openNode_touch hok).1
  | write hn hok => exact htree.touch (vfsWrite_touch hok)

/-- A write to a node with content is one to a file. -/
theorem vfsWrite_of_kyrofsWrite {offset : Word} {data : List Byte} {block : Option (ℕ → Byte)}
    {res : Dirent × BitVec 32} (hok : kyrofsWrite (fs.node n) offset data block = .ok res) :
    vfsWrite fs n offset data block = .ok (fs.setNode n res.1, res.2) := by
  have hops : ¬ (fs.node n).hasDirectoryOps := by
    intro hdir
    rw [kyrofsWrite] at hok
    cases hptr : (fs.node n).ptr with
    | dirents l =>
      rw [hptr] at hok
      cases hok
    | content file =>
      rw [Dirent.hasDirectoryOps, hptr] at hdir
      cases hdir
  rw [vfsWrite, if_neg hops, hok]
  rfl

/-- A removal takes out the child that it accepts, or does nothing. -/
theorem kyrofsRemove_cases (fs : Kyrofs) (p : Word) (name : CString) :
    (fs.childNamed p name).filter (fun c => FdEvent.unlinkable (fs.node c)) = none ∧
      kyrofsRemove fs p name = (fs, -1) ∨
    ∃ c, (fs.childNamed p name).filter (fun c => FdEvent.unlinkable (fs.node c)) = some c ∧
      kyrofsRemove fs p name = (fs.unlink p c, 0) := by
  rw [kyrofsRemove]
  cases hchild : fs.childNamed p name with
  | none => exact .inl ⟨rfl, rfl⟩
  | some c =>
    have hiff : FdEvent.unlinkable (fs.node c) = true ↔
        ¬ ((fs.node c).has vfsDirectory ∧ ¬ (fs.node c).ptr.isNull) := decide_eq_true_iff
    rw [Option.filter_some]
    dsimp only
    by_cases hfull : (fs.node c).has vfsDirectory ∧ ¬ (fs.node c).ptr.isNull
    · rw [if_pos hfull, if_neg fun h => hiff.mp h hfull]
      exact .inl ⟨rfl, rfl⟩
    · rw [if_neg hfull, if_pos (hiff.mpr hfull)]
      exact .inr ⟨c, rfl, rfl⟩

theorem kyrofsRmdir_cases (fs : Kyrofs) (p : Word) (name : CString) :
    (fs.childNamed p name).filter (fun c => FdEvent.rmdirable (fs.node c)) = none ∧
      kyrofsRmdir fs p name = (fs, -1) ∨
    ∃ c, (fs.childNamed p name).filter (fun c => FdEvent.rmdirable (fs.node c)) = some c ∧
      kyrofsRmdir fs p name = (fs.unlink p c, 0) := by
  rw [kyrofsRmdir]
  cases hchild : fs.childNamed p name with
  | none => exact .inl ⟨rfl, rfl⟩
  | some c =>
    have hiff : FdEvent.rmdirable (fs.node c) = true ↔
        (fs.node c).has vfsDirectory ∧ (fs.node c).ptr.isNull := decide_eq_true_iff
    rw [Option.filter_some]
    dsimp only
    by_cases hdir : (fs.node c).has vfsDirectory
    · rw [if_neg (not_not.mpr hdir)]
      by_cases hnull : (fs.node c).ptr.isNull
      · rw [if_neg (not_not.mpr hnull), if_pos (hiff.mpr ⟨hdir, hnull⟩)]
        exact .inr ⟨c, rfl, rfl⟩
      · rw [if_pos hnull, if_neg fun h => hnull (hiff.mp h).2]
        exact .inl ⟨rfl, rfl⟩
    · rw [if_pos hdir, if_neg fun h => hdir (hiff.mp h).1]
      exact .inl ⟨rfl, rfl⟩

/-! ### Calls -/

/-- A call that creates below a node of the tree. -/
theorem callInParent_runsTo (htree : fs.Tree) (hnew : new.dirent ∉ fs.live)
    (hroot : fs.Attached root)
    (hok : fs.callInParent root path (fun parent name => kyrofsCreateNode fs new parent name flags) =
      .ok (fs', r)) :
    changeSystem.RunsTo (fun _ c => ∃ p name, c = .create new p name flags) fs fs' := by
  rcases callInParent_cases hok with ⟨rfl, -⟩ | ⟨n, name, hparent, hcreate⟩
  · exact .refl
  · have hn : fs.Attached n := by
      rcases vfsParent_eq_some hparent with rfl | ⟨-, dir, hdir⟩
      · exact hroot
      · exact vfsResolvePath_mem hroot (fun _ _ _ hm hfind => hm.finddir htree hfind) hdir
    exact System.RunsTo.refl.tail ⟨_, ⟨n, name, rfl⟩, .create hnew (hn.live htree) hcreate⟩

/-- A removal by path. -/
theorem removal_runsTo (htree : fs.Tree) {removable : Dirent → Bool}
    {op : Word → CString → Kyrofs × Int}
    (hop : ∀ p name, (fs.childNamed p name).filter (fun c => removable (fs.node c)) = none ∧
        op p name = (fs, -1) ∨
      ∃ c, (fs.childNamed p name).filter (fun c => removable (fs.node c)) = some c ∧
        op p name = (fs.unlink p c, 0))
    (hok : fs.callInParent fs.root (copyPath path) (fun p name => .ok (op p name)) =
      .ok (fs', r)) :
    changeSystem.RunsTo (fun _ c => ∃ p n, FdEvent.childToRemove fs path removable = some n ∧
      c = .unlink p n) fs fs' := by
  rcases callInParent_cases hok with ⟨rfl, -⟩ | ⟨p, name, hparent, hremove⟩
  · exact .refl
  · have hp := (Kyrofs.attached_of_vfsParent htree hparent).live htree
    rcases hop p name with ⟨-, hkeep⟩ | ⟨c, hc, hunlink⟩
    · rw [hkeep] at hremove
      obtain ⟨rfl, -⟩ := Prod.mk.inj (Except.ok.inj hremove)
      exact .refl
    · rw [hunlink] at hremove
      obtain ⟨rfl, -⟩ := Prod.mk.inj (Except.ok.inj hremove)
      have hmem := (Kyrofs.childNamed_eq_some (Option.filter_eq_some_iff.mp hc).1).1
      refine System.RunsTo.refl.tail ⟨_, ⟨p, c, ?_, rfl⟩, .unlink hp hmem⟩
      rw [FdEvent.childToRemove, hparent]
      exact hc

/-- An open creates a file at most, and opens the node it returns. -/
theorem sysOpen_runsTo {res : Option Word} (htree : fs.Tree) (hnew : new.dirent ∉ fs.live)
    (hok : sysOpen fs new path flags = .ok (fs', res)) :
    changeSystem.RunsTo (fun _ c => (∃ p name, c = .create new p name vfsFile) ∨
      ∃ n, res = some n ∧ c = .open n flags) fs fs' := by
  -- a node is opened where its path leads
  have hopened : ∀ {fs₁ : Kyrofs} {n : Word}, fs₁.Tree →
      fs₁.resolve fs₁.root (copyPath path) = some n → fs₁.openNode n flags = .ok (fs', res) →
      changeSystem.RunsTo (fun _ c => (∃ p name, c = .create new p name vfsFile) ∨
        ∃ n, res = some n ∧ c = .open n flags) fs₁ fs' := by
    intro fs₁ n htree₁ hresolve hopen
    have hlive := (Kyrofs.attached_of_resolve htree₁ hresolve).live htree₁
    exact System.RunsTo.refl.tail
      ⟨_, .inr ⟨n, (openNode_touch hopen).2, rfl⟩, .open hlive hopen⟩
  rw [Vfs.sysOpen] at hok
  dsimp only at hok
  cases hresolve : fs.resolve fs.root (copyPath path) with
  | some n =>
    rw [hresolve] at hok
    exact hopened htree hresolve hok
  | none =>
    rw [hresolve] at hok
    dsimp only at hok
    have hstop : ∀ {fs₁ : Kyrofs} {a : Option Word},
        (.ok (fs₁, a) : Outcome (Kyrofs × Option Word)) = .ok (fs', res) → fs₁ = fs' :=
      fun heq => (Prod.mk.inj (Except.ok.inj heq)).1
    split_ifs at hok with hcreat
    · split at hok
      · exact hstop hok ▸ .refl
      · rename_i p name htarget
        have hp : fs.Attached p := by
          split at htarget
          · obtain ⟨q, hq, heq⟩ := Option.map_eq_some_iff.mp htarget
            obtain ⟨rfl, -⟩ := Prod.mk.inj heq
            exact Kyrofs.attached_of_resolve htree hq
          · obtain ⟨rfl, -⟩ := Prod.mk.inj (Option.some.inj htarget)
            exact .root
        split_ifs at hok with hdir
        · obtain ⟨⟨fs₁, r₁⟩, hcreate, hrest⟩ := Outcome.bind_eq_ok.mp hok
          have hrun := callInParent_runsTo htree hnew hp hcreate
          have hfirst := hrun.mono (D := fun _ c => (∃ p name, c = .create new p name vfsFile) ∨
            ∃ n, res = some n ∧ c = .open n flags) fun _ _ hc => .inl hc
          have htree₁ : fs₁.Tree :=
            hrun.preserves (fun _ _ _ ht _ hstep => Change.tree ht hstep) htree
          dsimp only at hrest
          split_ifs at hrest
          · exact hstop hrest ▸ hfirst
          · cases hagain : fs₁.resolve fs₁.root (copyPath path) with
            | none =>
              rw [hagain] at hrest
              exact hstop hrest ▸ hfirst
            | some n =>
              rw [hagain] at hrest
              exact hfirst.trans (hopened htree₁ hagain hrest)
        · exact hstop hok ▸ .refl
    · exact hstop hok ▸ .refl

/-- A call is a run of its changes. -/
theorem FsEvent.runsTo (htree : fs.Tree) (hstep : kyrofsSystem.step fs e fs') :
    changeSystem.RunsTo (fun _ c => e.Makes fs c) fs fs' := by
  obtain ⟨hadm, hok⟩ := hstep
  cases e with
  | «open» path flags new =>
    obtain ⟨res, hopen⟩ := map_fst_eq_ok hok
    refine (sysOpen_runsTo htree hadm hopen).mono fun _ c hc => ?_
    refine hc.imp id ?_
    rintro ⟨n, rfl, rfl⟩
    exact ⟨n, fs', hopen, rfl⟩
  | mkdir path new =>
    obtain ⟨r, hmkdir⟩ := map_fst_eq_ok hok
    exact callInParent_runsTo htree hadm .root hmkdir
  | unlink path =>
    obtain ⟨r, hunlink⟩ := map_fst_eq_ok hok
    exact removal_runsTo htree (kyrofsRemove_cases fs) hunlink
  | rmdir path =>
    obtain ⟨r, hrmdir⟩ := map_fst_eq_ok hok
    exact removal_runsTo htree (kyrofsRmdir_cases fs) hrmdir
  | addFile path data new block =>
    obtain ⟨r, hadd⟩ := map_fst_eq_ok hok
    obtain ⟨res, htarget, hadd⟩ := Outcome.bind_eq_ok.mp hadd
    cases res with
    | none => exact (Prod.mk.inj (Except.ok.inj hadd)).1 ▸ .refl
    | some res =>
      obtain ⟨p, name⟩ := res
      have hp : fs.Attached p := by
        rw [addFileTarget] at htarget
        split at htarget
        · split_ifs at htarget
          obtain ⟨q, hq, heq⟩ := Option.map_eq_some_iff.mp (Except.ok.inj htarget)
          obtain ⟨rfl, -⟩ := Prod.mk.inj heq
          exact Kyrofs.Attached.root.finddir htree hq
        · obtain ⟨rfl, -⟩ := Prod.mk.inj (Option.some.inj (Except.ok.inj htarget))
          exact .root
      obtain ⟨⟨fs₁, r₁⟩, hcreate, hwrite⟩ := Outcome.bind_eq_ok.mp hadd
      have hlive := hp.live htree
      have hfirst : changeSystem.RunsTo
          (fun _ c => (FsEvent.addFile path data new block).Makes fs c) fs fs₁ :=
        System.RunsTo.refl.tail ⟨_, .inl ⟨p, name, rfl⟩, .create hadm hlive hcreate⟩
      have htree₁ : fs₁.Tree := htree.edit (createNode_edit hcreate hadm hlive).1
      have hp₁ : fs₁.Attached p := hp.edit htree (createNode_edit hcreate hadm hlive).1
      dsimp only at hwrite
      cases hfind : vfsFinddir fs₁ p name with
      | none =>
        rw [hfind] at hwrite
        exact (Prod.mk.inj (Except.ok.inj hwrite)).1 ▸ hfirst
      | some n =>
        rw [hfind] at hwrite
        obtain ⟨res, hres, hwrite⟩ := Outcome.bind_eq_ok.mp hwrite
        obtain ⟨rfl, -⟩ := Prod.mk.inj (Except.ok.inj hwrite)
        exact hfirst.tail ⟨_, .inr ⟨n, rfl⟩,
          .write ((hp₁.finddir htree₁ hfind).live htree₁) (vfsWrite_of_kyrofsWrite hres)⟩
  | createNode parent name flags new =>
    obtain ⟨r, hcreate⟩ := map_fst_eq_ok hok
    exact System.RunsTo.refl.tail ⟨_, rfl, .create hadm.1 hadm.2 hcreate⟩

/-- What the changes of the first tree keep holds of it. -/
theorem kyrofsInit_changes {I : Kyrofs → Prop} (hbare : ∀ root, root ≠ 0 → I (bareRoot root))
    (hstep : ∀ fs new p name flags fs', fs.Tree → I fs → (fs.node p).has vfsDirectory →
      flags &&& vfsFile = 0 → changeSystem.step fs (.create new p name flags) fs' → I fs')
    (hinit : kyrofsSystem.init fs) : I fs := by
  obtain ⟨root, new, hroot, hinj, hok⟩ := hinit
  have hroot0 : root ≠ 0 := by
    intro hzero
    rw [kyrofsInit, if_pos hzero] at hok
    cases hok
  refine kyrofsInit_preserves (hbare root hroot0) ?_ hroot hinj hok
  rintro s e t htree hs ⟨-, p, name, flags, new, rfl, hdir, hflags⟩ ⟨hadm, hrun⟩
  obtain ⟨r, hcreate⟩ := map_fst_eq_ok hrun
  exact hstep s new p name flags t htree hs hdir hflags (.create hadm.1 hadm.2 hcreate)

end Changes

/-! ### Calls of threads -/

section Threads

variable {s s' : FdState} {e : FdEvent}

theorem map_fs_eq_ok {α : Type} {s : FdState} {x : Outcome (Kyrofs × α)}
    (h : (x.map fun r => { s with fs := r.1 }) = .ok s') : x.map Prod.fst = .ok s'.fs := by
  cases x with
  | error err => cases h
  | ok p =>
    obtain rfl := Except.ok.inj h
    rfl

/-- A call of a thread is a run of its changes. -/
theorem FdEvent.runsTo (htree : s.fs.Tree) (hstep : fdSystem.step s e s') :
    changeSystem.RunsTo (fun _ c => e.Makes s c) s.fs s'.fs := by
  obtain ⟨hadm, hok⟩ := hstep
  cases e with
  | create t =>
    obtain rfl := Except.ok.inj hok
    exact .refl
  | createUserspace t =>
    obtain rfl := Except.ok.inj hok
    exact .refl
  | exit t =>
    obtain rfl := Except.ok.inj hok
    exact .refl
  | «open» t path flags new =>
    obtain ⟨rax, hopen⟩ := map_fst_eq_ok hok
    obtain ⟨⟨fs, res⟩, hcall, hopen⟩ := Outcome.bind_eq_ok.mp hopen
    have hfs : s'.fs = fs := by
      dsimp only at hopen
      cases res with
      | none => exact congrArg FdState.fs (Prod.mk.inj (Except.ok.inj hopen)).1.symm
      | some n =>
        dsimp only at hopen
        cases hfree : freeFd (s.fds t) with
        | none =>
          rw [hfree] at hopen
          exact congrArg FdState.fs (Prod.mk.inj (Except.ok.inj hopen)).1.symm
        | some i =>
          rw [hfree] at hopen
          exact congrArg FdState.fs (Prod.mk.inj (Except.ok.inj hopen)).1.symm
    refine FsEvent.runsTo (e := .open path flags new) htree ⟨hadm.2, ?_⟩
    rw [FsEvent.run, hcall, hfs]
    rfl
  | close t fd =>
    obtain rfl := Except.ok.inj hok
    show changeSystem.RunsTo _ s.fs ((s.sysClose t fd).1).fs
    rw [FdState.sysClose]
    cases fdIndex fd with
    | none => exact .refl
    | some i =>
      dsimp only
      split_ifs
      · exact .refl
      · exact .refl
  | read t fd size key =>
    obtain ⟨⟨rax, bytes⟩, hread⟩ := map_fst_eq_ok hok
    obtain ⟨res, -, hread⟩ := Outcome.bind_eq_ok.mp hread
    cases res with
    | none =>
      obtain ⟨rfl, -⟩ := Prod.mk.inj (Except.ok.inj hread)
      exact .refl
    | some p =>
      obtain ⟨i, entry⟩ := p
      obtain ⟨⟨entry', rax', bytes'⟩, -, hread⟩ := Outcome.bind_eq_ok.mp hread
      obtain ⟨rfl, -⟩ := Prod.mk.inj (Except.ok.inj hread)
      exact .refl
  | write t fd data block =>
    obtain ⟨rax, hwrite⟩ := map_fst_eq_ok hok
    obtain ⟨res, hfile, hwrite⟩ := Outcome.bind_eq_ok.mp hwrite
    cases res with
    | none =>
      obtain ⟨rfl, -⟩ := Prod.mk.inj (Except.ok.inj hwrite)
      exact .refl
    | some p =>
      obtain ⟨i, entry⟩ := p
      obtain ⟨-, hlive⟩ := FdState.openFile_eq_some hfile
      obtain ⟨⟨fs, res⟩, hvfs, hwrite⟩ := Outcome.bind_eq_ok.mp hwrite
      obtain ⟨rfl, -⟩ := Prod.mk.inj (Except.ok.inj hwrite)
      exact System.RunsTo.refl.tail ⟨_, ⟨i, entry, hfile, rfl⟩, .write hlive hvfs⟩
  | mkdir t path new =>
    exact FsEvent.runsTo (e := .mkdir path new) htree ⟨hadm.2, map_fs_eq_ok hok⟩
  | unlink t path =>
    exact FsEvent.runsTo (e := .unlink path) htree ⟨trivial, map_fs_eq_ok hok⟩
  | rmdir t path =>
    exact FsEvent.runsTo (e := .rmdir path) htree ⟨trivial, map_fs_eq_ok hok⟩

/-- The nodes of one state in the next: those that are not removed stay, all keep their flags, and at
most one is new. -/
structure Frame (fs fs' : Kyrofs) (removed created : Option Word) : Prop where
  kept : ∀ n ∈ fs.live, removed ≠ some n → n ∈ fs'.live
  origin : ∀ n ∈ fs'.live, n ∈ fs.live ∨ created = some n
  flags : ∀ n ∈ fs.live, (fs'.node n).flags = (fs.node n).flags

theorem Frame.refl {fs : Kyrofs} {removed created : Option Word} : Frame fs fs removed created :=
  ⟨fun _ hn _ => hn, fun _ hn => .inl hn, fun _ _ => rfl⟩

/-- A change of a file's content. -/
theorem Frame.touch {fs fs₁ fs₂ : Kyrofs} {removed created : Option Word}
    (h : Frame fs fs₁ removed created) (htouch : fs₁.Touch fs₂) : Frame fs fs₂ removed created := by
  refine ⟨fun n hn hne => ?_, fun n hn => ?_, fun n hn => ?_⟩
  · rw [htouch.live]
    exact h.kept n hn hne
  · rw [htouch.live] at hn
    exact h.origin n hn
  · rw [(htouch.same n).flags]
    exact h.flags n hn

theorem Frame.createNode {fs fs' : Kyrofs} {new : NewNode} {p : Word} {name : CString}
    {flags : BitVec 32} {r : Int} (hok : kyrofsCreateNode fs new p name flags = .ok (fs', r))
    (hnew : new.dirent ∉ fs.live) (hp : p ∈ fs.live) : Frame fs fs' none (some new.dirent) := by
  obtain ⟨hedit, -, hlive, -⟩ := createNode_edit hok hnew hp
  refine ⟨fun n hn _ => ?_, fun n hn => ?_, fun n hn => (hedit.same hn).flags⟩
  · rw [hlive]
    exact Finset.mem_insert_of_mem hn
  · rw [hlive] at hn
    exact (Finset.mem_insert.mp hn).symm.imp_right fun heq => congrArg some heq.symm

/-- A call that creates removes nothing. -/
theorem FdEvent.Makes.create {new : NewNode} {p : Word} {name : CString} {flags : BitVec 32}
    (h : e.Makes s (.create new p name flags)) : e.created = some new ∧ e.removed s.fs = none := by
  cases e with
  | «open» t path flags' new' =>
    rcases h with ⟨q, name', heq⟩ | ⟨q, fs', -, heq⟩
    · obtain ⟨rfl, -⟩ := Change.create.inj heq
      exact ⟨rfl, rfl⟩
    · cases heq
  | mkdir t path new' =>
    obtain ⟨q, name', heq⟩ := h
    obtain ⟨rfl, -⟩ := Change.create.inj heq
    exact ⟨rfl, rfl⟩
  | unlink t path =>
    obtain ⟨q, c, -, heq⟩ := h
    cases heq
  | rmdir t path =>
    obtain ⟨q, c, -, heq⟩ := h
    cases heq
  | write t fd data block =>
    obtain ⟨i, entry, -, heq⟩ := h
    cases heq
  | create | createUserspace | exit | close | read => exact h.elim

theorem FdEvent.Makes.unlink {p c : Word} (h : e.Makes s (.unlink p c)) :
    e.removed s.fs = some c := by
  cases e with
  | unlink t path =>
    obtain ⟨q, m, hchild, heq⟩ := h
    obtain ⟨-, rfl⟩ := Change.unlink.inj heq
    exact hchild
  | rmdir t path =>
    obtain ⟨q, m, hchild, heq⟩ := h
    obtain ⟨-, rfl⟩ := Change.unlink.inj heq
    exact hchild
  | «open» t path flags' new' =>
    rcases h with ⟨q, name', heq⟩ | ⟨q, fs', -, heq⟩
    · cases heq
    · cases heq
  | mkdir t path new' =>
    obtain ⟨q, name', heq⟩ := h
    cases heq
  | write t fd data block =>
    obtain ⟨i, entry, -, heq⟩ := h
    cases heq
  | create | createUserspace | exit | close | read => exact h.elim

/-- What a call does to the nodes. -/
theorem FdEvent.frame (htree : s.fs.Tree) (hstep : fdSystem.step s e s') :
    Frame s.fs s'.fs (e.removed s.fs) (e.created.map NewNode.dirent) := by
  refine (FdEvent.runsTo htree hstep).preserves (I := fun fs => Frame s.fs fs (e.removed s.fs)
    (e.created.map NewNode.dirent)) ?_ .refl
  intro fs c fs' hframe hmakes hchange
  cases hchange with
  | @create _ new p name flags r hnew hp hok =>
    obtain ⟨hcreated, hremoved⟩ := hmakes.create
    have hlast := Frame.createNode hok hnew hp
    have hold : ∀ n ∈ s.fs.live, n ∈ fs.live := fun n hn => hframe.kept n hn (by simp [hremoved])
    refine ⟨fun n hn _ => hlast.kept n (hold n hn) (by simp), fun n hn => ?_, fun n hn => ?_⟩
    · rcases hlast.origin n hn with hn | hn
      · exact hframe.origin n hn
      · exact .inr (by rw [hcreated]; exact hn)
    · exact (hlast.flags n (hold n hn)).trans (hframe.flags n hn)
  | @unlink p c hp hc =>
    refine ⟨fun n hn hne => ?_, fun n hn => ?_, fun n hn => ?_⟩
    · refine Finset.mem_erase.mpr ⟨fun heq => hne ?_, hframe.kept n hn hne⟩
      rw [heq]
      exact hmakes.unlink
    · exact hframe.origin n (Finset.mem_of_mem_erase hn)
    · rw [(Kyrofs.unlink_same (Kyrofs.hasDirectoryOps_of_mem hc)).flags]
      exact hframe.flags n hn
  | «open» hn hok => exact hframe.touch (openNode_touch hok).1
  | write hn hok => exact hframe.touch (vfsWrite_touch hok)

end Threads

end KyroOS.Vfs

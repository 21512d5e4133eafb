import KyroOS.Disk.BlockDevice
import KyroOS.Vfs.Stat
import KyroOS.Vfs.TreeShape
import KyroOS.Vfs.WholePath

/-!
# The `ptr` of a node

`kyrofs_create_node` keeps the content of a file in the `ptr` of its node. The IDE driver creates
the node of its disk as a file, and then puts the number of the drive there. It also replaces
`read`, `write` and `ioctl`, but not `open`, and the removal of a node asks for its flags only.

## Main definitions

* `DevState`, `devSystem` — the file calls of threads after boot, with the `ptr` of the files
* `ContentUse` — a `ptr` that a function of KyroFS takes for the content of a file
* `SparesDevices` — the calls that use no other

## Main results

* `DevInv.step` — the `ptr` of a file is its content, and that of a device is not
* `contentUses_iff` — the calls that use the content of the file itself
-/

namespace KyroOS.Disk

open Transition Vfs

/-- The `ptr` that the driver puts into the node. -/
def BlockNode.ptr : BlockNode → Word
  | disk drive => drive.setWidth 64
  | partition part => part.address

/-- The file calls of the threads, the fields of the nodes that the driver shares with KyroFS, and
the drive. -/
structure DevState (σ : Type) where
  calls : FdState
  /-- `ptr`, of the nodes that were created as files. -/
  ptr : Word → Word
  /-- The structure that `kyrofs_create_node` allocated for the node. -/
  allocated : Word → Word
  /-- The nodes that have the functions of the driver. -/
  device : Word → Option BlockNode
  drive : σ

/-- A `ptr` that is taken for a `kyrofs_file_content_t`: the node, the value of its `ptr`, and the
structure that was allocated for the node, unless the node has been freed. -/
structure ContentUse where
  node : Word
  ptr : Word
  own : Option Word
  deriving DecidableEq

/-- The `ptr` is the structure of the node. -/
def ContentUse.Proper (u : ContentUse) : Prop := u.own = some u.ptr

instance (u : ContentUse) : Decidable u.Proper := inferInstanceAs (Decidable (_ = _))

/-- The blocks of a buffer. -/
def bufferBlocks (data : List Byte) (i : ℕ) : Block := fun j => data.getD (512 * i + j) 0

/-- The name of the disk. -/
def diskName : CString := cstring ['s', 'd', 'a']

/-- A boot-time attach of the driver, with the answers of the drive and of `kmalloc`, or a call. -/
inductive DevEvent
  | attach (drq : Bool) (new : NewNode) (kmalloc : Bool) (parts : Fin 4 → NewNode)
    (data : Fin 4 → Word)
  | call (e : FdEvent) (kmalloc : Bool) (behind : ℕ → Byte)

namespace DevState

variable {σ : Type} (C : Controller σ) (s : DevState σ)

/-- The file system after a call that may have created the node `new`: `kyrofs_create_node` puts
the new structure into `ptr`. -/
def withNode (new : NewNode) (fs : Kyrofs) : DevState σ :=
  if new.dirent ∈ fs.live then
    { s with
      calls := { s.calls with fs }
      ptr := Function.update s.ptr new.dirent new.content
      allocated := Function.update s.allocated new.dirent new.content
      device := Function.update s.device new.dirent none }
  else { s with calls := { s.calls with fs } }

/-- `node->ptr` as a content. -/
def use (n : Word) : ContentUse :=
  ⟨n, s.ptr n, if n ∈ s.calls.fs.live then some (s.allocated n) else none⟩

/-! ### The driver -/

/-- The functions and the `ptr` of the driver. -/
def install (n : Word) (node : BlockNode) : DevState σ :=
  { s with
    ptr := Function.update s.ptr n node.ptr
    device := Function.update s.device n (some node) }

/-- The drive after the reads of the partition table; the message of a failed read contains a
second one. -/
def afterMbr (kmalloc : Bool) : σ :=
  if kmalloc = false then s.drive
  else
    let mbr := ideReadWrapper C s.drive 0 0 512 true fun _ => 0
    if mbr.value ≠ 512 then (ideReadWrapper C mbr.dev 0 0 512 true fun _ => 0).dev else mbr.dev

/-- `ide_init_partitions` -/
def initPartitions (kmalloc : Bool) (parts : Fin 4 → NewNode) (data : Fin 4 → Word) :
    Outcome (DevState σ) := do
  let isPartition : Word → Option IdePartition := fun n =>
    match s.device n with
    | some (.partition part) => some part
    | _ => none
  let t ← ideInitPartitions C s.drive ⟨s.calls.fs, isPartition⟩ 0 kmalloc parts data
  let s' := (List.finRange 4).foldl (fun s i => s.withNode (parts i) t.fs) s
  .ok { s' with
    ptr := fun n => (t.partition n).elim (s'.ptr n) fun part => part.address
    device := fun n => (t.partition n).elim (s'.device n) fun part => some (.partition part)
    drive := s.afterMbr C kmalloc }

/-- `ide_attach`, where the drive answers as `drq` says. -/
def ideAttach (drq : Bool) (new : NewNode) (kmalloc : Bool) (parts : Fin 4 → NewNode)
    (data : Fin 4 → Word) : Outcome (DevState σ) :=
  if drq = false then .ok s
  else
    match vfsFinddir s.calls.fs s.calls.fs.root devName with
    | none => .ok s
    | some devDir => do
      let (fs, res) ← kyrofsCreateNode s.calls.fs new devDir diskName (vfsFile ||| vfsChardevice)
      let s := s.withNode new fs
      if res ≠ 0 then .ok s
      else
        match vfsFinddir fs devDir diskName with
        | none => .ok s
        | some n =>
          let s := s.install n (.disk 0)
          let node := { fs.node n with flags := (fs.node n).flags ||| vfsChardevice }
          { s with calls := { s.calls with fs := fs.setNode n node } }.initPartitions C kmalloc
            parts data

/-! ### Calls -/

/-- The device that a descriptor refers to. -/
def deviceFile (t : Word) (fd : BitVec 32) :
    Outcome (Option (Fin maxFiles × FdEntry × BlockNode)) := do
  match ← s.calls.openFile t fd with
  | none => .ok none
  | some (i, entry) => .ok ((s.device entry.node).map fun node => (i, entry, node))

/-- A call of a thread to KyroFS. -/
def runFs (e : FdEvent) : Outcome (DevState σ) := do
  let calls ← e.run s.calls
  match e.created with
  | some new => .ok { s.withNode new calls.fs with calls }
  | none => .ok { s with calls }

/-- A call of a thread, with the answer of `kmalloc` to the driver and what lies behind the block
it returns. -/
def runCall (kmalloc : Bool) (behind : ℕ → Byte) : FdEvent → Outcome (DevState σ)
  | .read t fd size key => do
    match ← s.deviceFile t fd with
    | none => s.runFs (.read t fd size key)
    | some (i, entry, node) =>
      let r := node.read C s.drive entry.offset (size.setWidth 32) kmalloc behind
      let (entry, _, _) ← sysReadFile (fun _ _ => .ok (r.value, r.bytes)) entry size
      .ok { s with calls := s.calls.setEntry t i (some entry), drive := r.dev }
  | .write t fd data block => do
    match ← s.deviceFile t fd with
    | none => s.runFs (.write t fd data block)
    | some (i, entry, node) =>
      let w := node.write C s.drive (writeOffset s.calls.fs entry) (BitVec.ofNat 32 data.length)
        (bufferBlocks data)
      let (entry, _) ← sysWriteFile (fun _ _ => .ok w.value)
        (s.calls.fs.node entry.node).length entry (BitVec.ofNat 64 data.length)
      .ok { s with calls := s.calls.setEntry t i (some entry), drive := w.dev }
  | e => s.runFs e

/-- What `kyrofs_read` and `kyrofs_write` take for a content, through a descriptor. -/
def fileUse (t : Word) (fd : BitVec 32) : List ContentUse :=
  match (fdIndex fd).bind (s.calls.fds t) with
  | none => []
  | some entry =>
    if s.device entry.node = none ∧ ¬ (s.calls.fs.node entry.node).hasDirectoryOps then
      [s.use entry.node]
    else []

/-- What the functions of KyroFS take for a content in a call. -/
def uses : FdEvent → List ContentUse
  | .open _ path flags new =>
    -- nothing but `kyrofs_open` reads `O_TRUNC`, and it is called last
    match Vfs.sysOpen s.calls.fs new path (flags &&& ~~~oTrunc) with
    | .ok (fs, some n) =>
      if (fs.node n).has vfsFile ∧ flags &&& oTrunc ≠ 0 then [(s.withNode new fs).use n] else []
    | _ => []
  | .read t fd _ _ | .write t fd _ _ => s.fileUse t fd
  | .unlink _ path =>
    match FdEvent.childToRemove s.calls.fs path FdEvent.unlinkable with
    | some c => if (s.calls.fs.node c).has vfsFile then [s.use c] else []
    | none => []
  | _ => []

end DevState

/-- The state after an event. A `ptr` that is no content is followed into nothing. -/
def DevEvent.run {σ : Type} (C : Controller σ) (s : DevState σ) :
    DevEvent → Outcome (DevState σ)
  | attach drq new kmalloc parts data => s.ideAttach C drq new kmalloc parts data
  | call e kmalloc behind =>
    if ∀ u ∈ s.uses e, u.Proper then s.runCall C kmalloc behind e else .error .fault

/-- A drive is attached before there are threads, and `kmalloc` returns blocks that are not in
use. -/
def DevEvent.Admissible {σ : Type} (s : DevState σ) : DevEvent → Prop
  | attach _ new _ parts _ => s.calls.threads = ∅ ∧ new.dirent ∉ s.calls.fs.live ∧
      ∀ i, (parts i).dirent ∉ s.calls.fs.live ∧ (parts i).dirent ≠ new.dirent
  | call e _ _ => e.Admissible s.calls

/-- The runs from `kyrofs_init` on, which has put the functions of the console into `/dev/tty` that
`tty_init` puts there. -/
def devSystem {σ : Type} (C : Controller σ) : System (DevState σ) DevEvent where
  init := fun s => fdSystem.init s.calls ∧ ∀ n, s.device n = none
  step := fun s e s' => e.Admissible s ∧ e.run C s = .ok s'

/-- The call does not empty or remove the node of a device, and does not read or write a file that
was removed. -/
def SparesDevices {σ : Type} (s : DevState σ) : FdEvent → Prop
  | .open _ path flags _ => ∀ n, s.calls.fs.resolve s.calls.fs.root (copyPath path) = some n →
      s.device n ≠ none → flags &&& oTrunc = 0
  | .unlink _ path => ∀ n,
      FdEvent.childToRemove s.calls.fs path FdEvent.unlinkable = some n → s.device n = none
  | .read t fd _ _ | .write t fd _ _ => ∀ entry, (fdIndex fd).bind (s.calls.fds t) = some entry →
      ¬ (s.calls.fs.node entry.node).hasDirectoryOps → entry.node ∈ s.calls.fs.live
  | _ => True

/-- The `ptr` of a file is its content, and that of a device is its drive. -/
structure DevInv {σ : Type} (s : DevState σ) : Prop where
  tree : s.calls.fs.Tree
  ops : OpsByFlags s.calls.fs
  own : ∀ n ∈ s.calls.fs.live, (s.calls.fs.node n).has vfsFile → s.device n = none →
    s.ptr n = s.allocated n
  disk : ∀ n d, s.device n = some d → d = .disk 0 ∧ s.ptr n = 0 ∧ s.allocated n ≠ 0 ∧
    n ∈ s.calls.fs.live ∧ (s.calls.fs.node n).has vfsFile

section Invariant

variable {σ : Type} {C : Controller σ} {s s' : DevState σ} {e : FdEvent} {n : Word} {new : NewNode}

/-- The fields of a node are those it had. -/
def KeptFields (s s' : DevState σ) (n : Word) : Prop :=
  s'.ptr n = s.ptr n ∧ s'.allocated n = s.allocated n ∧ s'.device n = s.device n

/-- Each node has the fields it had, or a new content. -/
theorem DevInv.of_fields (h : DevInv s) (removed created : Option Word)
    (htree : s'.calls.fs.Tree) (hops : OpsByFlags s'.calls.fs)
    (hframe : Frame s.calls.fs s'.calls.fs removed created)
    (hremoved : ∀ n, removed = some n → s.device n = none)
    (hkept : ∀ n, created ≠ some n ∨ n ∉ s'.calls.fs.live → KeptFields s s' n)
    (hcreated : ∀ n ∈ s'.calls.fs.live, created = some n → s'.device n = none ∧
      s'.ptr n = s'.allocated n) : DevInv s' := by
  refine ⟨htree, hops, fun n hn hfile hnone => ?_, fun n d hdev => ?_⟩
  · by_cases hnew : created = some n
    · exact (hcreated n hn hnew).2
    · obtain ⟨hptr, halloc, hdev⟩ := hkept n (.inl hnew)
      have hold := (hframe.origin n hn).resolve_right hnew
      rw [hptr, halloc]
      refine h.own n hold ?_ (hdev ▸ hnone)
      rwa [Dirent.has, hframe.flags n hold] at hfile
  · by_cases hnew : created = some n ∧ n ∈ s'.calls.fs.live
    · rw [(hcreated n hnew.2 hnew.1).1] at hdev
      cases hdev
    · obtain ⟨hptr, halloc, hsame⟩ := hkept n (Decidable.not_and_iff_not_or_not.mp hnew)
      obtain ⟨hdisk, hzero, hne, hlive, hfile⟩ := h.disk n d (hsame ▸ hdev)
      refine ⟨hdisk, hptr.trans hzero, halloc ▸ hne, hframe.kept n hlive fun hgone => ?_, ?_⟩
      · have hnone := hremoved n hgone
        rw [← hsame, hdev] at hnone
        cases hnone
      · rwa [Dirent.has, hframe.flags n hlive]

/-- The fields after a call that may create a node. -/
theorem withNode_fields {fs : Kyrofs} (hn : n ≠ new.dirent ∨ n ∉ fs.live) :
    KeptFields s (s.withNode new fs) n := by
  rw [DevState.withNode]
  split_ifs with hlive
  · have hne : n ≠ new.dirent := hn.elim id fun hout heq => hout (heq ▸ hlive)
    exact ⟨Function.update_of_ne hne _ _, Function.update_of_ne hne _ _,
      Function.update_of_ne hne _ _⟩
  · exact ⟨rfl, rfl, rfl⟩

theorem withNode_new {fs : Kyrofs} (hlive : new.dirent ∈ fs.live) :
    (s.withNode new fs).device new.dirent = none ∧
      (s.withNode new fs).ptr new.dirent = new.content ∧
      (s.withNode new fs).allocated new.dirent = new.content := by
  rw [DevState.withNode, if_pos hlive]
  exact ⟨Function.update_self .., Function.update_self .., Function.update_self ..⟩

theorem withNode_calls {fs : Kyrofs} :
    (s.withNode new fs).calls = { s.calls with fs } := by
  rw [DevState.withNode]
  split_ifs <;> rfl

/-- A node that a call removes and whose `ptr` it uses properly is no device. -/
theorem DevInv.removed_none (h : DevInv s) (huses : ∀ u ∈ s.uses e, u.Proper)
    (hremoved : e.removed s.calls.fs = some n) : s.device n = none := by
  by_contra hdev
  obtain ⟨d, hd⟩ := Option.ne_none_iff_exists'.mp hdev
  obtain ⟨-, hptr, hne, hlive, hfile⟩ := h.disk n d hd
  cases e with
  | unlink t path =>
    have huse := huses (s.use n) (by
      rw [DevState.uses, show FdEvent.childToRemove s.calls.fs path FdEvent.unlinkable = some n
        from hremoved]
      dsimp only
      rw [if_pos hfile]
      exact List.mem_singleton_self _)
    rw [ContentUse.Proper, DevState.use, if_pos hlive] at huse
    exact hne ((Option.some.inj huse).trans hptr)
  | rmdir t path =>
    obtain ⟨-, hrmdir⟩ := Option.filter_eq_some_iff.mp
      (Option.bind_eq_some_iff.mp hremoved).choose_spec.2
    obtain ⟨⟨-, hops⟩, -⟩ := rmdirable_directory hrmdir
    rw [h.ops n, hfile] at hops
    cases hops
  | create | createUserspace | exit | «open» | close | read | write | mkdir => cases hremoved

/-- A call to KyroFS. -/
theorem DevInv.runFs (h : DevInv s) (huses : ∀ u ∈ s.uses e, u.Proper) (hadm : e.Admissible s.calls)
    (hok : s.runFs e = .ok s') : DevInv s' := by
  obtain ⟨calls, hrun, hok⟩ := Outcome.bind_eq_ok.mp hok
  have hstep : fdSystem.step s.calls e calls := ⟨hadm, hrun⟩
  have hchanges := FdEvent.runsTo h.tree hstep
  have htree : calls.fs.Tree :=
    hchanges.preserves (fun _ _ _ ht _ hchange => Change.tree ht hchange) h.tree
  have hops : OpsByFlags calls.fs :=
    hchanges.preserves (fun _ _ _ ho _ hchange => ho.change hchange) h.ops
  have hframe := FdEvent.frame h.tree hstep
  have hremoved := fun n => h.removed_none (n := n) huses
  cases hcreated : e.created with
  | none =>
    rw [hcreated] at hok hframe
    obtain rfl := Except.ok.inj hok
    exact h.of_fields _ _ htree hops hframe hremoved (fun n _ => ⟨rfl, rfl, rfl⟩)
      fun n _ hnew => (by cases hnew)
  | some new =>
    rw [hcreated] at hok hframe
    obtain rfl := Except.ok.inj hok
    refine h.of_fields _ _ htree hops hframe hremoved (fun n hn => ?_) fun n hlive hnew => ?_
    · exact withNode_fields (hn.imp_left fun hne heq => hne (heq ▸ rfl))
    · obtain rfl := Option.some.inj hnew
      obtain ⟨hdev, hptr, halloc⟩ := withNode_new (s := s) hlive
      exact ⟨hdev, hptr.trans halloc.symm⟩

/-- A call that goes to a device. -/
theorem DevInv.setEntry {t : Word} {i : Fin maxFiles} {entry : FdEntry} {drive : σ}
    (h : DevInv s) :
    DevInv { s with calls := s.calls.setEntry t i (some entry), drive } :=
  ⟨h.tree, h.ops, h.own, h.disk⟩

theorem DevInv.runCall {kmalloc : Bool} {behind : ℕ → Byte} (h : DevInv s)
    (huses : ∀ u ∈ s.uses e, u.Proper) (hadm : e.Admissible s.calls)
    (hok : s.runCall C kmalloc behind e = .ok s') : DevInv s' := by
  cases e with
  | read t fd size key =>
    obtain ⟨file, -, hok⟩ := Outcome.bind_eq_ok.mp hok
    cases file with
    | none => exact h.runFs huses hadm hok
    | some file =>
      obtain ⟨i, entry, node⟩ := file
      obtain ⟨res, -, hok⟩ := Outcome.bind_eq_ok.mp hok
      obtain rfl := Except.ok.inj hok
      exact h.setEntry
  | write t fd data block =>
    obtain ⟨file, -, hok⟩ := Outcome.bind_eq_ok.mp hok
    cases file with
    | none => exact h.runFs huses hadm hok
    | some file =>
      obtain ⟨i, entry, node⟩ := file
      obtain ⟨res, -, hok⟩ := Outcome.bind_eq_ok.mp hok
      obtain rfl := Except.ok.inj hok
      exact h.setEntry
  | create | createUserspace | exit | «open» | close | mkdir | unlink | rmdir =>
    exact h.runFs huses hadm hok

/-! ### The attach -/

/-- Without partitions, `ide_init_partitions` leaves the nodes as they are. -/
theorem initPartitions_eq {kmalloc : Bool} {parts : Fin 4 → NewNode} {data : Fin 4 → Word}
    (hparts : ∀ i, (parts i).dirent ∉ s.calls.fs.live)
    (hdisk : ∀ n d, s.device n = some d → d = .disk 0) :
    s.initPartitions C kmalloc parts data = .ok { s with drive := s.afterMbr C kmalloc } := by
  have hnone : ∀ n, (match s.device n with
      | some (.partition part) => some part
      | _ => none : Option IdePartition) = none := by
    intro n
    cases hdev : s.device n with
    | none => rfl
    | some d => rw [hdisk n d hdev]
  have hfold : ∀ l : List (Fin 4),
      l.foldl (fun s' i => s'.withNode (parts i) s.calls.fs) s = s := by
    intro l
    induction l with
    | nil => rfl
    | cons i rest ih =>
      have hsame : s.withNode (parts i) s.calls.fs = s := by
        rw [DevState.withNode, if_neg (hparts i)]
      rw [List.foldl_cons, hsame, ih]
  rw [DevState.initPartitions, ideInitPartitions_eq]
  show (Except.ok _ : Outcome (DevState σ)) = _
  dsimp only
  rw [hfold]
  simp only [hnone, Option.elim_none]

/-- The node that is found by its name is the one that was created. -/
theorem finddir_created {fs fs' : Kyrofs} {p : Word} {name : CString} {flags : BitVec 32} {r : Int}
    (htree : fs.Tree) (hnew : new.dirent ∉ fs.live) (hp : p ∈ fs.live) (hname : ProperName name)
    (hok : kyrofsCreateNode fs new p name flags = .ok (fs', r))
    (hfind : vfsFinddir fs' p name = some n) : n = new.dirent := by
  have hsame := (createNode_edit hok hnew hp).1.same hp
  obtain ⟨ptr, -, -, rfl, -⟩ := createNode_link hok
  have hdir : fs.IsDirectory p := by
    rw [vfsFinddir] at hfind
    split_ifs at hfind with hdir
    exact (Kyrofs.isDirectory_congr hsame).mp hdir
  have hlinks : fs.Links new.dirent ⟨name, flags, 0, ptr, p⟩ := ⟨htree, hnew, hp, hdir⟩
  exact (Option.some.inj ((hlinks.finddir_new hname).symm.trans hfind)).symm

/-- A file has a content. -/
theorem content_ne_zero {flags : BitVec 32} {ptr : Ptr} (hok : newPtr new flags = .ok ptr)
    (hfile : flags &&& vfsFile ≠ 0) : new.content ≠ 0 := by
  intro hzero
  rw [newPtr, if_pos hfile, if_pos hzero] at hok
  cases hok

theorem install_fields {m : Word} (node : BlockNode) (hmn : m ≠ n) :
    KeptFields s (s.install n node) m :=
  ⟨Function.update_of_ne hmn _ _, rfl, Function.update_of_ne hmn _ _⟩

theorem install_self (node : BlockNode) :
    (s.install n node).device n = some node ∧ (s.install n node).ptr n = node.ptr :=
  ⟨Function.update_self .., Function.update_self ..⟩

/-- The functions of the driver in a node that has just been created. -/
theorem DevInv.install (h : DevInv s) (hlive : n ∈ s.calls.fs.live)
    (hfile : (s.calls.fs.node n).has vfsFile) (halloc : s.allocated n ≠ 0) :
    DevInv (s.install n (.disk 0)) := by
  obtain ⟨hself, hzero⟩ := install_self (s := s) (n := n) (.disk 0)
  refine ⟨h.tree, h.ops, fun m hm hmfile hnone => ?_, fun m d hdev => ?_⟩
  · have hmn : m ≠ n := by
      rintro rfl
      rw [hself] at hnone
      cases hnone
    obtain ⟨hptr, -, hdev⟩ := install_fields (s := s) (.disk 0) hmn
    exact hptr.trans (h.own m hm hmfile (hdev ▸ hnone))
  · by_cases hmn : m = n
    · subst hmn
      rw [hself] at hdev
      exact ⟨(Option.some.inj hdev).symm, hzero, halloc, hlive, hfile⟩
    · obtain ⟨hptr, -, hsame⟩ := install_fields (s := s) (.disk 0) hmn
      obtain ⟨hdisk, hmzero, hrest⟩ := h.disk m d (hsame ▸ hdev)
      exact ⟨hdisk, hptr.trans hmzero, hrest⟩

/-- The attach of a drive. -/
theorem DevInv.attach {drq kmalloc : Bool} {parts : Fin 4 → NewNode} {data : Fin 4 → Word}
    (h : DevInv s) (hnew : new.dirent ∉ s.calls.fs.live)
    (hparts : ∀ i, (parts i).dirent ∉ s.calls.fs.live ∧ (parts i).dirent ≠ new.dirent)
    (hok : s.ideAttach C drq new kmalloc parts data = .ok s') : DevInv s' := by
  rw [DevState.ideAttach] at hok
  split_ifs at hok
  · exact Except.ok.inj hok ▸ h
  cases hdev : vfsFinddir s.calls.fs s.calls.fs.root devName with
  | none =>
    rw [hdev] at hok
    exact Except.ok.inj hok ▸ h
  | some devDir =>
    rw [hdev] at hok
    obtain ⟨⟨fs, res⟩, hcreate, hok⟩ := Outcome.bind_eq_ok.mp hok
    have hdir : devDir ∈ s.calls.fs.live :=
      (Kyrofs.Attached.root.finddir h.tree hdev).live h.tree
    have hframe := Frame.createNode hcreate hnew hdir
    obtain ⟨hedit, -, hlive, -⟩ := createNode_edit hcreate hnew hdir
    have hmem : new.dirent ∈ fs.live := hlive ▸ Finset.mem_insert_self _ _
    obtain ⟨hnone, hptr, halloc⟩ := withNode_new (s := s) hmem
    have hcalls : (s.withNode new fs).calls = { s.calls with fs } := withNode_calls
    -- the node is a file with its content
    have hfirst : DevInv (s.withNode new fs) := by
      refine h.of_fields none (some new.dirent) ?_ ?_ ?_ ?_ ?_ ?_
      · rw [hcalls]
        exact h.tree.edit hedit
      · rw [hcalls]
        exact h.ops.createNode (Kyrofs.ne_of_notMem hnew hdir) hcreate
      · rw [hcalls]
        exact hframe
      · intro n hn
        cases hn
      · intro n hn
        rw [hcalls] at hn
        exact withNode_fields (hn.imp_left fun hne heq => hne (heq ▸ rfl))
      · rintro n - hn
        obtain rfl := Option.some.inj hn
        exact ⟨hnone, hptr.trans halloc.symm⟩
    dsimp only at hok
    obtain ⟨ptr, hnewPtr, -, hfs, rfl⟩ := createNode_link hcreate
    rw [if_neg (by decide)] at hok
    cases hfind : vfsFinddir fs devDir diskName with
    | none =>
      rw [hfind] at hok
      exact Except.ok.inj hok ▸ hfirst
    | some n =>
      rw [hfind] at hok
      dsimp only at hok
      obtain rfl := finddir_created h.tree hnew hdir
        ⟨by decide, by decide, by decide, by decide⟩ hcreate hfind
      have hflags : (fs.node new.dirent).flags = vfsFile ||| vfsChardevice := by
        rw [hfs, Kyrofs.link_node_new (Kyrofs.ne_of_notMem hnew hdir)]
      -- the flag is there already
      have hnode : fs.setNode new.dirent { fs.node new.dirent with
          flags := (fs.node new.dirent).flags ||| vfsChardevice } = fs := by
        have hsame : { fs.node new.dirent with
            flags := (fs.node new.dirent).flags ||| vfsChardevice } = fs.node new.dirent := by
          rw [hflags, show vfsFile ||| vfsChardevice ||| vfsChardevice =
            vfsFile ||| vfsChardevice by decide, ← hflags]
        rw [hsame, Kyrofs.setNode, Function.update_eq_self]
      have hsecond := hfirst.install (n := new.dirent) (by rw [hcalls]; exact hmem)
        (by rw [hcalls, Dirent.has, hflags]; decide)
        (by rw [halloc]; exact content_ne_zero hnewPtr (by decide))
      have hfields : { (s.withNode new fs).install new.dirent (.disk 0) with
          calls := { ((s.withNode new fs).install new.dirent (.disk 0)).calls with fs } } =
          (s.withNode new fs).install new.dirent (.disk 0) := by
        rw [DevState.install, hcalls]
      rw [hnode, hfields, initPartitions_eq ?_ fun m d hd => (hsecond.disk m d hd).1] at hok
      · obtain rfl := Except.ok.inj hok
        exact ⟨hsecond.tree, hsecond.ops, hsecond.own, hsecond.disk⟩
      · intro i hi
        rw [DevState.install, hcalls] at hi
        rcases hframe.origin _ hi with hold | heq
        · exact (hparts i).1 hold
        · exact (hparts i).2 (Option.some.inj heq).symm

/-- The step lemma. -/
theorem DevInv.step {a : DevEvent} (h : DevInv s) (hstep : (devSystem C).step s a s') :
    DevInv s' := by
  obtain ⟨hadm, hok⟩ := hstep
  cases a with
  | attach drq new kmalloc parts data => exact h.attach hadm.2.1 hadm.2.2 hok
  | call e kmalloc behind =>
    rw [DevEvent.run] at hok
    split_ifs at hok with huses
    exact h.runCall huses hadm hok

/-- `kyrofs_init` creates no files. -/
theorem noFile_of_init {fs : Kyrofs} (hinit : kyrofsSystem.init fs) (hn : n ∈ fs.live) :
    ¬ (fs.node n).has vfsFile := by
  have hall : ∀ m ∈ fs.live, ¬ (fs.node m).has vfsFile := by
    refine kyrofsInit_changes (I := fun fs => ∀ m ∈ fs.live, ¬ (fs.node m).has vfsFile) ?_ ?_ hinit
    · intro root _ m _
      show ¬ decide (vfsDirectory &&& vfsFile ≠ 0) = true
      decide
    · intro fs new p name flags fs' htree hnone _ hflags hstep m hm
      cases hstep with
      | create hnew hp hok =>
        by_cases hmnew : m = new.dirent
        · obtain ⟨ptr, -, -, rfl, -⟩ := createNode_link hok
          rw [hmnew, Kyrofs.link_node_new (Kyrofs.ne_of_notMem hnew hp)]
          show ¬ decide (flags &&& vfsFile ≠ 0) = true
          rw [hflags]
          decide
        · have hframe := Frame.createNode hok hnew hp
          have hold := (hframe.origin m hm).resolve_right fun heq =>
            hmnew (Option.some.inj heq).symm
          rw [Dirent.has, hframe.flags m hold]
          exact hnone m hold
  exact hall n hn

/-- The run lemma. -/
theorem devInv_of_reachable (h : (devSystem C).Reachable s) : DevInv s := by
  refine h.invariant (I := DevInv) ?_ fun _ _ _ hinv _ hstep => hinv.step hstep
  rintro s ⟨⟨hfs, -⟩, hnone⟩
  refine ⟨tree_of_reachable (C := fun _ _ => True) (.init hfs),
    opsByFlags_of_reachable (.init hfs), ?_, ?_⟩
  · intro n hn hfile _
    exact absurd hfile (noFile_of_init hfs hn)
  · intro n d hd
    rw [hnone n] at hd
    cases hd

/-! ### The uses -/

/-- A file uses its content, and a device its drive. -/
theorem DevInv.use_proper_iff (h : DevInv s) (hlive : n ∈ s.calls.fs.live)
    (hfile : (s.calls.fs.node n).has vfsFile) : (s.use n).Proper ↔ s.device n = none := by
  rw [ContentUse.Proper, DevState.use, if_pos hlive, Option.some.injEq]
  constructor
  · intro heq
    by_contra hdev
    obtain ⟨d, hd⟩ := Option.ne_none_iff_exists'.mp hdev
    obtain ⟨-, hzero, hne, -⟩ := h.disk n d hd
    exact hne (heq.trans hzero)
  · exact fun hnone => (h.own n hlive hfile hnone).symm

theorem forall_use_iff {p : Prop} [Decidable p] {u : ContentUse} :
    (∀ v ∈ (if p then [u] else []), v.Proper) ↔ (p → u.Proper) := by
  by_cases hp : p
  · rw [if_pos hp, List.forall_mem_singleton]
    exact ⟨fun hu _ => hu, fun hu => hu hp⟩
  · rw [if_neg hp]
    exact iff_of_true (fun _ hv => absurd hv List.not_mem_nil) fun h => absurd h hp

/-- The use of a file through a descriptor. -/
theorem DevInv.fileUse_iff (h : DevInv s) {t : Word} {fd : BitVec 32} :
    (∀ u ∈ s.fileUse t fd, u.Proper) ↔
      ∀ entry, (fdIndex fd).bind (s.calls.fds t) = some entry →
        ¬ (s.calls.fs.node entry.node).hasDirectoryOps → entry.node ∈ s.calls.fs.live := by
  rw [DevState.fileUse]
  cases (fdIndex fd).bind (s.calls.fds t) with
  | none => exact iff_of_true (fun _ hu => absurd hu List.not_mem_nil) fun _ he => (by cases he)
  | some entry =>
    dsimp only
    rw [forall_use_iff]
    constructor
    · intro huse entry' heq hops
      obtain rfl := Option.some.inj heq
      by_contra hfreed
      cases hdev : s.device entry.node with
      | some d => exact hfreed (h.disk _ d hdev).2.2.2.1
      | none =>
        have hproper := huse ⟨hdev, hops⟩
        rw [ContentUse.Proper, DevState.use, if_neg hfreed] at hproper
        cases hproper
    · rintro hlive ⟨hnone, hops⟩
      refine (h.use_proper_iff (hlive entry rfl hops) ?_).mpr hnone
      rw [h.ops] at hops
      simpa using hops

theorem childToRemove_live {fs : Kyrofs} {path : CString} {removable : Dirent → Bool}
    (htree : fs.Tree) (h : FdEvent.childToRemove fs path removable = some n) : n ∈ fs.live := by
  obtain ⟨⟨p, name⟩, hparent, hchild⟩ := Option.bind_eq_some_iff.mp h
  have hp := (Kyrofs.attached_of_vfsParent htree hparent).live htree
  obtain ⟨hnamed, -⟩ := Option.filter_eq_some_iff.mp hchild
  exact (htree.child p hp n (Kyrofs.childNamed_eq_some hnamed).1).1

/-- The use of a child that is removed. -/
theorem DevInv.unlinkUse_iff (h : DevInv s) {t : Word} {path : CString} :
    (∀ u ∈ s.uses (.unlink t path), u.Proper) ↔ SparesDevices s (.unlink t path) := by
  rw [DevState.uses, SparesDevices]
  cases hchild : FdEvent.childToRemove s.calls.fs path FdEvent.unlinkable with
  | none => exact iff_of_true (fun _ hu => absurd hu List.not_mem_nil) fun _ hn => (by cases hn)
  | some c =>
    have hlive := childToRemove_live h.tree hchild
    dsimp only
    rw [forall_use_iff]
    constructor
    · intro huse n hn
      obtain rfl := Option.some.inj hn
      cases hdev : s.device c with
      | none => rfl
      | some d =>
        have hfile := (h.disk c d hdev).2.2.2.2
        exact hdev ▸ (h.use_proper_iff hlive hfile).mp (huse hfile)
    · exact fun hnone hfile => (h.use_proper_iff hlive hfile).mpr (hnone c rfl)

theorem openNode_keep {fs : Kyrofs} {flags : BitVec 32} (htrunc : flags &&& oTrunc = 0) :
    fs.openNode n flags = .ok (fs, some n) := by
  rw [Kyrofs.openNode, kyrofsOpen, if_neg fun hand => hand.2 htrunc]
  show (Except.ok (fs.setNode n (fs.node n), some n) : Outcome (Kyrofs × Option Word)) = _
  rw [Kyrofs.setNode, Function.update_eq_self]

/-- The use of a file that is opened. -/
theorem DevInv.openUse_iff (h : DevInv s) {t : Word} {path : CString} {flags : BitVec 32}
    (hnew : new.dirent ∉ s.calls.fs.live) :
    (∀ u ∈ s.uses (.open t path flags new), u.Proper) ↔
      SparesDevices s (.open t path flags new) := by
  have htrunc : flags &&& ~~~oTrunc &&& oTrunc = 0 := by
    rw [BitVec.and_assoc, show ~~~oTrunc &&& oTrunc = 0 by decide]
    exact BitVec.and_zero
  rw [DevState.uses, SparesDevices, sysOpen_eq h.tree hnew, PathCall.target]
  cases hresolve : s.calls.fs.resolve s.calls.fs.root (copyPath path) with
  | some n =>
    have hlive := (Kyrofs.attached_of_resolve h.tree hresolve).live h.tree
    have hsame : s.withNode new s.calls.fs = s := by rw [DevState.withNode, if_neg hnew]
    dsimp only
    rw [openNode_keep htrunc]
    dsimp only
    rw [hsame, forall_use_iff]
    constructor
    · intro huse m hm hdev
      obtain rfl := Option.some.inj hm
      obtain ⟨d, hd⟩ := Option.ne_none_iff_exists'.mp hdev
      have hfile := (h.disk n d hd).2.2.2.2
      by_contra hflag
      exact hdev ((h.use_proper_iff hlive hfile).mp (huse ⟨hfile, hflag⟩))
    · rintro hspares ⟨hfile, hflag⟩
      refine (h.use_proper_iff hlive hfile).mpr ?_
      by_contra hdev
      exact hflag (hspares n rfl hdev)
  | none =>
    refine iff_of_true ?_ fun _ hm => (by cases hm)
    have hempty : ∀ u ∈ ([] : List ContentUse), u.Proper := fun _ hu => absurd hu List.not_mem_nil
    dsimp only
    generalize htarget : (if flags &&& ~~~oTrunc &&& oCreat ≠ 0 then
      (createTarget s.calls.fs (copyPath path)).map fun e => Target.entry e.1 e.2
      else none) = target
    cases target with
    | none => exact hempty
    | some target =>
      cases target with
      | node m =>
        split_ifs at htarget
        obtain ⟨_, -, heq⟩ := Option.map_eq_some_iff.mp htarget
        cases heq
      | entry p name =>
        dsimp only
        by_cases hdir : s.calls.fs.IsDirectory p
        swap
        · rw [if_neg hdir]
          exact hempty
        rw [if_pos hdir]
        cases hcreate : kyrofsCreate s.calls.fs new p name with
        | error err => exact hempty
        | ok res =>
          obtain ⟨fs, r⟩ := res
          obtain ⟨ptr, -, -, hfs, -⟩ := createNode_link hcreate
          have hmem : new.dirent ∈ fs.live := hfs ▸ Finset.mem_insert_self _ _
          obtain ⟨-, hptr, halloc⟩ := withNode_new (s := s) hmem
          dsimp only [bind, Except.bind]
          rw [openNode_keep htrunc]
          refine forall_use_iff.mpr fun _ => ?_
          rw [ContentUse.Proper, DevState.use, withNode_calls, if_pos hmem, hptr, halloc]

/-- The calls that use a removed node or a device take something else for the content of a file,
and no other call does. -/
theorem contentUses_iff (h : (devSystem C).Reachable s) (hadm : e.Admissible s.calls) :
    (∀ u ∈ s.uses e, u.Proper) ↔ SparesDevices s e := by
  have hinv := devInv_of_reachable h
  have hnone : (∀ u ∈ ([] : List ContentUse), u.Proper) := fun _ hu => absurd hu List.not_mem_nil
  cases e with
  | read t fd size key => exact hinv.fileUse_iff
  | write t fd data block => exact hinv.fileUse_iff
  | unlink t path => exact hinv.unlinkUse_iff
  | «open» t path flags new => exact hinv.openUse_iff hadm.2
  | create | createUserspace | exit | close | mkdir | rmdir => exact iff_of_true hnone trivial

end Invariant

/-! ### The disk at boot -/

section Small

instance {σ : Type} (s : DevState σ) : ∀ e, Decidable (DevEvent.Admissible s e)
  | .attach _ _ _ _ _ => inferInstanceAs (Decidable (_ ∧ _ ∧ _))
  | .call _ _ _ => inferInstanceAs (Decidable (FdEvent.Admissible _ _))

/-- The state after an event that can happen. -/
def devNext (s : DevState (ℕ → Block)) (e : DevEvent) : Option (DevState (ℕ → Block)) :=
  if e.Admissible s then (e.run (masterDrive true) s).toOption else none

theorem step_of_devNext {s s' : DevState (ℕ → Block)} {e : DevEvent} (h : devNext s e = some s') :
    (devSystem (masterDrive true)).step s e s' := by
  rw [devNext] at h
  split_ifs at h with hadm
  exact ⟨hadm, Outcome.toOption_eq_some.mp h⟩

def smallDev : DevState (ℕ → Block) :=
  ⟨smallFds, fun _ => 0, fun _ => 0, fun _ => none, fun _ => zeroBlock⟩

theorem smallDev_init : (devSystem (masterDrive true)).init smallDev :=
  ⟨smallFds_init, fun _ => rfl⟩

/-- A thread creates `/a` with an open that empties it. -/
def createEmpty : FdEvent := .open 1 (cstring ['/', 'a']) (oCreat ||| oTrunc) smallFile

theorem contentUses_createEmpty : ∃ s : DevState (ℕ → Block), s.uses createEmpty ≠ [] ∧
    ∀ u ∈ s.uses createEmpty, u.Proper := by
  obtain ⟨s, hs, hthread, hnew, hpath, huses⟩ := System.exists_reachableUnder
    (S := devSystem (masterDrive true)) (C := fun _ _ => True)
    (P := fun s => 1 ∈ s.calls.threads ∧ smallFile.dirent ∉ s.calls.fs.live ∧
      s.calls.fs.resolve s.calls.fs.root (copyPath (cstring ['/', 'a'])) = none ∧
        s.uses createEmpty ≠ [])
    devNext [.call (.create 1) true fun _ => 0]
    (fun s e s' h => ⟨e, trivial, step_of_devNext h⟩) smallDev_init (by decide)
  have hadm : createEmpty.Admissible s.calls := ⟨hthread, hnew⟩
  refine ⟨s, huses, (contentUses_iff hs hadm).mpr fun n hn => ?_⟩
  rw [hpath] at hn
  cases hn

/-- A thread removes `/dev/sda`. -/
def unlinkDisk : FdEvent :=
  .unlink 1 (cstring ['/', 'd', 'e', 'v', '/', 's', 'd', 'a'])

theorem not_contentUses : ¬ ∀ (s : DevState (ℕ → Block)) (e : FdEvent),
    (devSystem (masterDrive true)).Reachable s → e.Admissible s.calls →
      ∀ u ∈ s.uses e, u.Proper := by
  intro hall
  obtain ⟨s, hs, hthread, hdisk⟩ := System.exists_reachableUnder
    (S := devSystem (masterDrive true)) (C := fun _ _ => True)
    (P := fun s => 1 ∈ s.calls.threads ∧ s.uses unlinkDisk = [⟨smallFile.dirent, 0,
      some smallFile.content⟩])
    devNext [.attach true smallFile true (fun _ => smallNode 10) fun _ => 0xA000,
      .call (.create 1) true fun _ => 0]
    (fun s e s' h => ⟨e, trivial, step_of_devNext h⟩) smallDev_init (by decide)
  have hproper := hall s unlinkDisk hs hthread _ (hdisk ▸ List.mem_singleton_self _)
  exact absurd hproper (by decide)

end Small

end KyroOS.Disk

import KyroOS.Vfs.CreateResolve
import KyroOS.Vfs.Stat

/-!
# Calls on long paths

A system call copies the first 255 bytes of its path. It acts on the target that the copy names:
a node that is there, or the entry for a name in a directory.

## Main definitions

* `Target`, `PathCall.target` — what a path names for a call
* `PathCall.run` — the system calls
* `PathCall.act` — what a call does to a target
* `PathCall.Declines` — the call leaves the target alone and fails

## Main results

* `run_eq_act` — a call acts on the target of the copied path
* `act_inj` — calls with the same effect had the same target
* `actsOnWhole_iff` — a call keeps to the whole path exactly when the copy names the same target,
  or one that the call declines
-/

namespace KyroOS.Vfs

/-! ### Targets -/

/-- What a path names: a node, or the entry for a name in a directory. -/
inductive Target
  | node (n : Word)
  | entry (parent : Word) (name : CString)
  deriving DecidableEq

/-- The system calls that take a path, but for the path; a call that creates comes with the blocks
`kmalloc` returns in it. -/
inductive PathCall
  | open (flags : BitVec 32) (new : NewNode)
  | stat
  | mkdir (new : NewNode)
  | unlink
  | rmdir

/-- The return value of a call, and the answer of `SYS_STAT` with the node it is about. -/
structure Reply where
  rax : Word
  stat : Option (Word × Stat)
  deriving DecidableEq

def Reply.failed : Reply := ⟨minusOne, none⟩

/-- The directory and the name that `sys_open` takes from a path that leads nowhere. -/
def createTarget (fs : Kyrofs) (path : CString) : Option (Word × CString) :=
  match splitLast path with
  | some (dir, name) => (fs.resolve fs.root dir).map fun parent => (parent, name)
  | none => some (fs.root, path)

/-- The directory and the name that the other calls take from a path. -/
def entryTarget (fs : Kyrofs) (path : CString) : Option (Word × CString) :=
  vfsParent (vfsFinddir fs) (fun n => (fs.node n).has vfsDirectory) fs.root path

/-- The reply of a call that returns an `int`. -/
def replyInt (s : FdState) (res : Kyrofs × Int) : FdState × Reply :=
  ({ s with fs := res.1 }, ⟨BitVec.ofInt 64 res.2, none⟩)

/-- The choice of a descriptor for the node that `sys_open` has opened. -/
def FdState.install (s : FdState) (t : Word) (flags : BitVec 32) (fs : Kyrofs)
    (res : Option Word) : FdState × Word :=
  match res with
  | none => ({ s with fs }, minusOne)
  | some n =>
    match freeFd (s.fds t) with
    | none => ({ s with fs }, minusOne)
    | some i =>
      let offset : Word := if flags &&& oAppend ≠ 0 then (fs.node n).length.setWidth 64 else 0
      ({ s with fs }.setEntry t i (some ⟨n, offset, flags⟩), BitVec.ofNat 64 i)

namespace PathCall

/-- What a path names for a call. -/
def target (fs : Kyrofs) (path : CString) : PathCall → Option Target
  | .open flags _ =>
    match fs.resolve fs.root path with
    | some n => some (.node n)
    | none =>
      if flags &&& oCreat ≠ 0 then (createTarget fs path).map fun e => .entry e.1 e.2 else none
  | .stat => (fs.resolve fs.root path).map .node
  | .mkdir _ | .unlink | .rmdir => (entryTarget fs path).map fun e => .entry e.1 e.2

/-- The system calls on a path in user space. -/
def run (s : FdState) (t : Word) (userPath : CString) : PathCall → Outcome (FdState × Reply)
  | .open flags new => (s.sysOpen t new userPath flags).map fun res => (res.1, ⟨res.2, none⟩)
  | .stat => .ok (s, match sysStat s.fs userPath with
    | none => .failed
    | some st => ⟨0, (s.fs.resolve s.fs.root (copyPath userPath)).map fun n => (n, st)⟩)
  | .mkdir new => (sysMkdir s.fs new userPath).map (replyInt s)
  | .unlink => (sysUnlink s.fs userPath).map (replyInt s)
  | .rmdir => (sysRmdir s.fs userPath).map (replyInt s)

/-- What a call does to a target. -/
def act (s : FdState) (t : Word) : PathCall → Option Target → Outcome (FdState × Reply)
  | .open flags _, some (.node n) => do
    let (fs, res) ← s.fs.openNode n flags
    let (s, rax) := s.install t flags fs res
    .ok (s, ⟨rax, none⟩)
  | .open flags new, some (.entry p name) =>
    if s.fs.IsDirectory p then do
      let (fs, _) ← kyrofsCreate s.fs new p name
      let (fs, res) ← fs.openNode new.dirent flags
      let (s, rax) := s.install t flags fs res
      .ok (s, ⟨rax, none⟩)
    else .ok (s, .failed)
  | .stat, some (.node n) => .ok (s, match s.fs.statNode n with
    | none => .failed
    | some st => ⟨0, some (n, st)⟩)
  | .mkdir new, some (.entry p name) =>
    if (s.fs.node p).hasDirectoryOps then (kyrofsMkdir s.fs new p name).map (replyInt s)
    else .ok (s, .failed)
  | .unlink, some (.entry p name) => .ok (replyInt s (kyrofsRemove s.fs p name))
  | .rmdir, some (.entry p name) => .ok (replyInt s (kyrofsRmdir s.fs p name))
  -- a call without a target, or with one that its path cannot name
  | _, _ => .ok (s, .failed)

/-- The call leaves the target alone and fails. -/
def Declines (s : FdState) (t : Word) : PathCall → Option Target → Prop
  | .open flags _, some (.node n) =>
    freeFd (s.fds t) = none ∧ kyrofsOpen (s.fs.node n) flags = .ok (s.fs.node n)
  | .open _ _, some (.entry p _) => ¬ s.fs.IsDirectory p
  | .stat, some (.node n) => s.fs.statNode n = none
  | .mkdir _, some (.entry p _) => ¬ (s.fs.node p).hasDirectoryOps
  | .unlink, some (.entry p name) =>
    (s.fs.childNamed p name).filter (fun c => FdEvent.unlinkable (s.fs.node c)) = none
  | .rmdir, some (.entry p name) =>
    (s.fs.childNamed p name).filter (fun c => FdEvent.rmdirable (s.fs.node c)) = none
  | _, _ => True

/-- `kmalloc` returns a block that is not in use. -/
def Admissible (fs : Kyrofs) : PathCall → Prop
  | .open _ new | .mkdir new => new.dirent ∉ fs.live
  | .stat | .unlink | .rmdir => True

end PathCall

/-- The nodes of a target are allocated. -/
def Target.Live (fs : Kyrofs) : Target → Prop
  | node n => n ∈ fs.live
  | entry p _ => p ∈ fs.live

/-! ### A call acts on the target of the copied path -/

section Act

variable {s : FdState} {fs fs' : Kyrofs} {t n p : Word} {call : PathCall} {new : NewNode}
  {userPath path name : CString} {flags : BitVec 32} {r : Int} {out : FdState × Reply}

/-- The components of a path are those on the way to the directory that `sys_open` takes from it,
and the name unless it is empty. -/
theorem createTarget_components (h : createTarget fs path = some (p, name)) :
    slash ∉ name ∧ ∃ dir, fs.resolve fs.root dir = some p ∧
      pathComponents path = pathComponents dir ++ if name = [] then [] else [name] := by
  rw [createTarget] at h
  cases hsplit : splitLast path with
  | none =>
    rw [hsplit] at h
    obtain ⟨rfl, rfl⟩ := Prod.mk.inj (Option.some.inj h)
    have hslash := splitLast_eq_none.mp hsplit
    exact ⟨hslash, [], rfl, pathComponents_of_notMem hslash⟩
  | some res =>
    obtain ⟨dir, last⟩ := res
    rw [hsplit] at h
    obtain ⟨q, hq, heq⟩ := Option.map_eq_some_iff.mp h
    obtain ⟨rfl, rfl⟩ := Prod.mk.inj heq
    obtain ⟨rfl, hslash⟩ := splitLast_eq_some hsplit
    exact ⟨hslash, dir, hq, by rw [pathComponents_append, pathComponents_of_notMem hslash]⟩

/-- A path that leads nowhere, in a directory that is there, leads to the node that is created
there. -/
theorem resolve_created (htree : fs.Tree) (hnew : new.dirent ∉ fs.live)
    (hpath : fs.resolve fs.root path = none) (htarget : createTarget fs path = some (p, name))
    (hdir : fs.IsDirectory p) (hok : kyrofsCreate fs new p name = .ok (fs', r)) :
    fs'.resolve fs'.root path = some new.dirent := by
  obtain ⟨hslash, dir, hresolve, hcomponents⟩ := createTarget_components htarget
  have hwalk : (pathComponents dir ++ if name = [] then [] else [name]).foldlM (vfsFinddir fs)
      fs.root = none := by
    rw [← hcomponents]
    exact hpath
  rw [List.foldlM_append] at hwalk
  have hlast := Option.bind_eq_none_iff.mp hwalk p hresolve
  have hne : name ≠ [] := by
    rintro rfl
    cases hlast
  rw [if_neg hne] at hlast hcomponents
  have hfind : vfsFinddir fs p name = none := by
    cases hfind : vfsFinddir fs p name with
    | none => rfl
    | some m =>
      rw [List.foldlM_cons, hfind] at hlast
      cases hlast
  rw [vfsFinddir, if_pos hdir, kyrofsFinddir] at hfind
  split_ifs at hfind with hdot hdotdot
  obtain ⟨ptr, -, -, rfl, -⟩ := createNode_link hok
  have hlive := (Kyrofs.attached_of_resolve htree hresolve).live htree
  have hlinks : fs.Links new.dirent ⟨name, vfsFile, 0, ptr, p⟩ := ⟨htree, hnew, hlive, hdir⟩
  have hproper : ProperName name := ⟨hne, hdot, hdotdot, hslash⟩
  have hagain : (pathComponents dir).foldlM
      (vfsFinddir (fs.link new.dirent ⟨name, vfsFile, 0, ptr, p⟩)) fs.root = some p := by
    rcases hlinks.foldlM (Kyrofs.childNamed_eq_none.mp hfind) .root with heq | ⟨hnone, -⟩
    · exact heq.trans hresolve
    · exact absurd (hresolve.symm.trans hnone) (by simp)
  rw [Kyrofs.resolve, vfsResolvePath, hcomponents, List.foldlM_append]
  show ((pathComponents dir).foldlM _ fs.root >>= _) = _
  rw [hagain]
  show (vfsFinddir _ p name >>= pure) = _
  rw [hlinks.finddir_new hproper]
  rfl

theorem vfsCreate_of_directory (hdir : fs.IsDirectory p) (hslash : slash ∉ name) :
    vfsCreate fs new p name = kyrofsCreate fs new p name := by
  rw [vfsCreate, Kyrofs.callInParent, vfsParent, splitLast_eq_none.mpr hslash]
  exact if_pos hdir.2

theorem vfsCreate_of_not_ops (hops : ¬ (fs.node p).hasDirectoryOps) (hslash : slash ∉ name) :
    vfsCreate fs new p name = .ok (fs, -1) := by
  rw [vfsCreate, Kyrofs.callInParent, vfsParent, splitLast_eq_none.mpr hslash]
  exact if_neg hops

/-- `sys_open` of a path that leads nowhere, with `O_CREAT`. -/
theorem sysOpen_of_none (hresolve : fs.resolve fs.root (copyPath userPath) = none)
    (hcreat : flags &&& oCreat ≠ 0) : sysOpen fs new userPath flags =
      match createTarget fs (copyPath userPath) with
      | none => .ok (fs, none)
      | some (parent, name) =>
        if (fs.node parent).has vfsDirectory then do
          let (fs, res) ← vfsCreate fs new parent name
          if res ≠ 0 then .ok (fs, none)
          else
            match fs.resolve fs.root (copyPath userPath) with
            | none => .ok (fs, none)
            | some n => fs.openNode n flags
        else .ok (fs, none) := by
  rw [sysOpen]
  dsimp only
  rw [hresolve]
  exact if_pos hcreat

/-- `sys_open` up to the choice of a descriptor, by its target. -/
theorem sysOpen_eq (htree : fs.Tree) (hnew : new.dirent ∉ fs.live) :
    sysOpen fs new userPath flags =
      match PathCall.target fs (copyPath userPath) (.open flags new) with
      | some (.node n) => fs.openNode n flags
      | some (.entry p name) =>
        if fs.IsDirectory p then do
          let (fs, _) ← kyrofsCreate fs new p name
          fs.openNode new.dirent flags
        else .ok (fs, none)
      | none => .ok (fs, none) := by
  rw [PathCall.target]
  dsimp only
  cases hresolve : fs.resolve fs.root (copyPath userPath) with
  | some n =>
    rw [sysOpen]
    dsimp only
    rw [hresolve]
  | none =>
    dsimp only
    by_cases hcreat : flags &&& oCreat ≠ 0
    · rw [sysOpen_of_none hresolve hcreat, if_pos hcreat]
      cases htarget : createTarget fs (copyPath userPath) with
      | none => rfl
      | some res =>
        obtain ⟨p, name⟩ := res
        dsimp only [Option.map_some]
        by_cases hdir : fs.IsDirectory p
        · rw [if_pos hdir.1, if_pos hdir, vfsCreate_of_directory hdir
            (createTarget_components htarget).1]
          cases hcreate : kyrofsCreate fs new p name with
          | error e => rfl
          | ok res =>
            obtain ⟨fs₁, r⟩ := res
            obtain ⟨-, -, -, -, rfl⟩ := createNode_link hcreate
            rw [Outcome.ok_bind, Outcome.ok_bind]
            dsimp only
            rw [if_neg (by decide), resolve_created htree hnew hresolve htarget hdir hcreate]
        · rw [if_neg hdir]
          by_cases hflag : (fs.node p).has vfsDirectory
          · have hops : ¬ (fs.node p).hasDirectoryOps := fun hops => hdir ⟨hflag, hops⟩
            rw [if_pos hflag, vfsCreate_of_not_ops hops (createTarget_components htarget).1]
            rfl
          · rw [if_neg hflag]
    · rw [sysOpen]
      dsimp only
      rw [hresolve, if_neg hcreat]
      dsimp only
      rw [if_neg hcreat]

theorem FdState.sysOpen_eq : s.sysOpen t new userPath flags =
    Vfs.sysOpen s.fs new userPath flags >>= fun res => .ok (s.install t flags res.1 res.2) := by
  refine congrArg _ (funext fun res => ?_)
  obtain ⟨fs, res⟩ := res
  cases res with
  | none => rfl
  | some n =>
    dsimp only [FdState.install]
    cases freeFd (s.fds t) with
    | none => rfl
    | some i => rfl

/-- A node without the operations of a directory has no child. -/
theorem childNamed_of_not_ops (hops : ¬ (fs.node p).hasDirectoryOps) :
    fs.childNamed p name = none := by
  by_contra hsome
  obtain ⟨c, hc⟩ := Option.ne_none_iff_exists'.mp hsome
  exact hops (Kyrofs.hasDirectoryOps_of_mem (Kyrofs.childNamed_eq_some hc).1)

/-- A removal by path, by its target. -/
theorem callInParent_removal {op : Word → CString → Kyrofs × Int}
    (hop : ∀ p name, s.fs.childNamed p name = none → op p name = (s.fs, -1)) :
    (s.fs.callInParent s.fs.root path fun p name => .ok (op p name)).map (replyInt s) =
      match entryTarget s.fs path with
      | none => .ok (s, .failed)
      | some (p, name) => .ok (replyInt s (op p name)) := by
  rw [Kyrofs.callInParent, entryTarget]
  cases vfsParent (vfsFinddir s.fs) (fun n => (s.fs.node n).has vfsDirectory) s.fs.root path with
  | none => rfl
  | some res =>
    obtain ⟨p, name⟩ := res
    dsimp only
    split_ifs with hops
    · rfl
    · rw [hop p name (childNamed_of_not_ops hops)]
      rfl

/-- A call acts on the target of the copied path. -/
theorem run_eq_act (htree : s.fs.Tree) (hadm : call.Admissible s.fs) :
    call.run s t userPath = call.act s t (call.target s.fs (copyPath userPath)) := by
  cases call with
  | «open» flags new =>
    rw [PathCall.run, FdState.sysOpen_eq, sysOpen_eq htree hadm]
    cases PathCall.target s.fs (copyPath userPath) (.open flags new) with
    | none => rfl
    | some target =>
      cases target with
      | node n =>
        dsimp only [PathCall.act]
        cases s.fs.openNode n flags with
        | error e => rfl
        | ok res => rfl
      | entry p name =>
        dsimp only [PathCall.act]
        split_ifs
        · cases kyrofsCreate s.fs new p name with
          | error e => rfl
          | ok res =>
            obtain ⟨fs, r⟩ := res
            dsimp only [bind, Except.bind]
            cases fs.openNode new.dirent flags with
            | error e => rfl
            | ok res => rfl
        · rfl
  | stat =>
    rw [PathCall.run, PathCall.target, sysStat]
    cases s.fs.resolve s.fs.root (copyPath userPath) with
    | none => rfl
    | some n => rfl
  | mkdir new =>
    rw [PathCall.run, sysMkdir, vfsMkdir, Kyrofs.callInParent, PathCall.target, entryTarget]
    cases vfsParent (vfsFinddir s.fs) (fun n => (s.fs.node n).has vfsDirectory) s.fs.root
        (copyPath userPath) with
    | none => rfl
    | some res =>
      dsimp only [Option.map_some, PathCall.act]
      split_ifs
      · rfl
      · rfl
  | unlink =>
    rw [PathCall.run, sysUnlink, vfsRemove, callInParent_removal, PathCall.target]
    · cases entryTarget s.fs (copyPath userPath) with
      | none => rfl
      | some res => rfl
    · intro p name hnone
      rw [kyrofsRemove, hnone]
  | rmdir =>
    rw [PathCall.run, sysRmdir, vfsRmdir, callInParent_removal, PathCall.target]
    · cases entryTarget s.fs (copyPath userPath) with
      | none => rfl
      | some res => rfl
    · intro p name hnone
      rw [kyrofsRmdir, hnone]

end Act

/-! ### The effect of a call -/

section Effect

variable {s : FdState} {fs fs' : Kyrofs} {t n m p p' : Word} {call : PathCall} {new : NewNode}
  {userPath path name name' : CString} {flags : BitVec 32} {r : Int} {out : FdState × Reply}
  {target target' : Option Target}

theorem target_live {target : Target} (htree : fs.Tree)
    (h : call.target fs path = some target) : target.Live fs := by
  have hentry : (entryTarget fs path).map (fun e => Target.entry e.1 e.2) = some target →
      target.Live fs := by
    intro h
    obtain ⟨⟨p, name⟩, hparent, rfl⟩ := Option.map_eq_some_iff.mp h
    exact (Kyrofs.attached_of_vfsParent htree hparent).live htree
  cases call with
  | «open» flags new =>
    rw [PathCall.target] at h
    cases hresolve : fs.resolve fs.root path with
    | some n =>
      rw [hresolve] at h
      obtain rfl := Option.some.inj h
      exact (Kyrofs.attached_of_resolve htree hresolve).live htree
    | none =>
      rw [hresolve] at h
      dsimp only at h
      split_ifs at h
      obtain ⟨⟨p, name⟩, htarget, rfl⟩ := Option.map_eq_some_iff.mp h
      obtain ⟨-, dir, hdir, -⟩ := createTarget_components htarget
      exact (Kyrofs.attached_of_resolve htree hdir).live htree
  | stat =>
    obtain ⟨n, hresolve, rfl⟩ := Option.map_eq_some_iff.mp h
    exact (Kyrofs.attached_of_resolve htree hresolve).live htree
  | mkdir new => exact hentry h
  | unlink => exact hentry h
  | rmdir => exact hentry h

theorem FdState.install_fs {res : Option Word} : (s.install t flags fs res).1.fs = fs := by
  cases res with
  | none => rfl
  | some n =>
    rw [FdState.install]
    cases freeFd (s.fds t) with
    | none => rfl
    | some i => rfl

theorem FdState.setEntry_self {i : Fin maxFiles} {entry : Option FdEntry} :
    (s.setEntry t i entry).fds t i = entry := by
  rw [FdState.setEntry]
  dsimp only
  rw [Function.update_self, Function.update_self]

theorem ofNat_fd_ne_minusOne (i : Fin maxFiles) : BitVec.ofNat 64 i ≠ minusOne := by
  decide +revert

/-- An open of a node that is there. -/
theorem act_node {new : NewNode}
    (hok : (PathCall.open flags new).act s t (some (.node n)) = .ok out) :
    ∃ d, kyrofsOpen (s.fs.node n) flags = .ok d ∧ out.1.fs = s.fs.setNode n d ∧
      ((freeFd (s.fds t) = none ∧ out = ({ s with fs := s.fs.setNode n d }, .failed)) ∨
        ∃ i entry, freeFd (s.fds t) = some i ∧ out.1.fds t i = some entry ∧ entry.node = n ∧
          out.2.rax = BitVec.ofNat 64 i) := by
  obtain ⟨⟨fs, res⟩, hopen, hok⟩ := Outcome.bind_eq_ok.mp hok
  obtain ⟨d, hd, hopen⟩ := Outcome.bind_eq_ok.mp hopen
  obtain ⟨rfl, rfl⟩ := Prod.mk.inj (Except.ok.inj hopen)
  obtain rfl := Except.ok.inj hok
  refine ⟨d, hd, ?_, ?_⟩
  · show (s.install t flags (s.fs.setNode n d) (some n)).1.fs = _
    exact FdState.install_fs
  dsimp only [FdState.install]
  cases hfree : freeFd (s.fds t) with
  | none => exact .inl ⟨rfl, rfl⟩
  | some i => exact .inr ⟨i, _, rfl, FdState.setEntry_self, rfl, rfl⟩

/-- What a call that creates has created. -/
structure Created (fs : Kyrofs) (c p : Word) (name : CString) : Prop where
  live : c ∈ fs.live
  parent : (fs.node c).parent = p
  name : (fs.node c).name = name

theorem created_of_createNode (hnew : new.dirent ∉ fs.live) (hp : p ∈ fs.live)
    (hok : kyrofsCreateNode fs new p name flags = .ok (fs', r)) :
    Created fs' new.dirent p name := by
  obtain ⟨ptr, -, -, rfl, -⟩ := createNode_link hok
  have hne := Kyrofs.ne_of_notMem hnew hp
  refine ⟨Finset.mem_insert_self _ _, ?_, ?_⟩
  · rw [Kyrofs.link_node_new hne]
  · rw [Kyrofs.link_node_new hne]

/-- An open or a directory under a new name. -/
theorem act_entry (hcall : (∃ flags, call = .open flags new) ∨ call = .mkdir new)
    (hadm : call.Admissible s.fs) (hp : p ∈ s.fs.live)
    (hok : call.act s t (some (.entry p name)) = .ok out) :
    call.Declines s t (some (.entry p name)) ∧ out = (s, .failed) ∨
      ¬ call.Declines s t (some (.entry p name)) ∧ Created out.1.fs new.dirent p name := by
  rcases hcall with ⟨flags, rfl⟩ | rfl
  · dsimp only [PathCall.act] at hok
    split_ifs at hok with hdir
    · obtain ⟨⟨fs, r⟩, hcreate, hok⟩ := Outcome.bind_eq_ok.mp hok
      obtain ⟨⟨fs', res⟩, hopen, hok⟩ := Outcome.bind_eq_ok.mp hok
      obtain rfl := Except.ok.inj hok
      have hcreated := created_of_createNode hadm hp hcreate
      have htouch := (openNode_touch hopen).1
      refine .inr ⟨not_not.mpr hdir, ?_⟩
      dsimp only
      rw [FdState.install_fs]
      exact ⟨htouch.live ▸ hcreated.live, (htouch.same _).parent.trans hcreated.parent,
        (htouch.same _).name.trans hcreated.name⟩
    · exact .inl ⟨hdir, (Except.ok.inj hok).symm⟩
  · dsimp only [PathCall.act] at hok
    split_ifs at hok with hops
    · obtain ⟨⟨fs, r⟩, hcreate, rfl⟩ := map_eq_ok hok
      exact .inr ⟨not_not.mpr hops, created_of_createNode hadm hp hcreate⟩
    · exact .inl ⟨hops, (Except.ok.inj hok).symm⟩

/-- A removal of an entry. -/
theorem act_removal (hcall : call = .unlink ∨ call = .rmdir)
    (hok : call.act s t (some (.entry p name)) = .ok out) :
    call.Declines s t (some (.entry p name)) ∧ out = (s, .failed) ∨
      ¬ call.Declines s t (some (.entry p name)) ∧
        ∃ c, s.fs.childNamed p name = some c ∧ out.1.fs = s.fs.unlink p c := by
  rcases hcall with rfl | rfl
  · obtain rfl := Except.ok.inj hok
    rcases kyrofsRemove_cases s.fs p name with ⟨hnone, heq⟩ | ⟨c, hsome, heq⟩
    · rw [heq]
      exact .inl ⟨hnone, rfl⟩
    · rw [heq]
      refine .inr ⟨fun hnone => ?_, c, (Option.filter_eq_some_iff.mp hsome).1, rfl⟩
      exact absurd (hsome.symm.trans hnone) (by simp)
  · obtain rfl := Except.ok.inj hok
    rcases kyrofsRmdir_cases s.fs p name with ⟨hnone, heq⟩ | ⟨c, hsome, heq⟩
    · rw [heq]
      exact .inl ⟨hnone, rfl⟩
    · rw [heq]
      refine .inr ⟨fun hnone => ?_, c, (Option.filter_eq_some_iff.mp hsome).1, rfl⟩
      exact absurd (hsome.symm.trans hnone) (by simp)

/-- A removal that declines its entry fails without effect, and no other removal does. -/
theorem declines_removal (hcall : call = .unlink ∨ call = .rmdir) (htree : s.fs.Tree)
    (hp : p ∈ s.fs.live) (hok : call.act s t (some (.entry p name)) = .ok out) :
    out = (s, .failed) ↔ call.Declines s t (some (.entry p name)) := by
  rcases act_removal hcall hok with ⟨hdec, heq⟩ | ⟨hdec, c, hchild, hfs⟩
  · exact iff_of_true heq hdec
  · refine iff_of_false (fun heq => ?_) hdec
    have hlive := (htree.child p hp c (Kyrofs.childNamed_eq_some hchild).1).1
    rw [heq] at hfs
    rw [congrArg Kyrofs.live hfs] at hlive
    exact Finset.notMem_erase c s.fs.live hlive

/-- A call that declines its target fails without effect, and no other call does. -/
theorem declines_iff (htree : s.fs.Tree) (hadm : call.Admissible s.fs) (hlive : ∀ x, target = some x → x.Live s.fs)
    (hok : call.act s t target = .ok out) :
    out = (s, .failed) ↔ call.Declines s t target := by
  have hnot : ∀ {c p : Word} {name : CString}, c ∉ s.fs.live → Created out.1.fs c p name →
      out ≠ (s, .failed) := by
    rintro c p name hc hcreated rfl
    exact hc hcreated.live
  cases call with
  | «open» flags new =>
    cases target with
    | none => exact iff_of_true (Except.ok.inj hok).symm trivial
    | some target =>
      cases target with
      | node n =>
        obtain ⟨d, hd, hfs, ⟨hfree, rfl⟩ | ⟨i, entry, hfree, -, -, hrax⟩⟩ := act_node hok
        · constructor
          · intro heq
            have hset : s.fs.setNode n d = s.fs := congrArg (fun x => x.1.fs) heq
            have hnode : (s.fs.setNode n d).node n = s.fs.node n := by rw [hset]
            rw [Kyrofs.node_setNode, if_pos rfl] at hnode
            exact ⟨hfree, hnode ▸ hd⟩
          · rintro ⟨-, hsame⟩
            obtain rfl : d = s.fs.node n := Except.ok.inj (hd.symm.trans hsame)
            rw [Kyrofs.setNode, Function.update_eq_self]
        · refine iff_of_false (fun heq => ?_) fun hdeclines => ?_
          · rw [heq] at hrax
            exact ofNat_fd_ne_minusOne i hrax.symm
          · exact absurd (hfree.symm.trans hdeclines.1) (by simp)
      | entry p name =>
        rcases act_entry (.inl ⟨flags, rfl⟩) hadm (hlive _ rfl) hok with ⟨hdec, heq⟩ | ⟨hdec, hcreated⟩
        · exact iff_of_true heq hdec
        · exact iff_of_false (hnot hadm hcreated) hdec
  | stat =>
    cases target with
    | none => exact iff_of_true (Except.ok.inj hok).symm trivial
    | some target =>
      cases target with
      | node n =>
        obtain rfl := Except.ok.inj hok
        show _ ↔ s.fs.statNode n = none
        cases s.fs.statNode n with
        | none => exact iff_of_true rfl rfl
        | some st => simp [Reply.failed]
      | entry p name => exact iff_of_true (Except.ok.inj hok).symm trivial
  | mkdir new =>
    cases target with
    | none => exact iff_of_true (Except.ok.inj hok).symm trivial
    | some target =>
      cases target with
      | node n => exact iff_of_true (Except.ok.inj hok).symm trivial
      | entry p name =>
        rcases act_entry (.inr rfl) hadm (hlive _ rfl) hok with ⟨hdec, heq⟩ | ⟨hdec, hcreated⟩
        · exact iff_of_true heq hdec
        · exact iff_of_false (hnot hadm hcreated) hdec
  | unlink =>
    cases target with
    | none => exact iff_of_true (Except.ok.inj hok).symm trivial
    | some target =>
      cases target with
      | node n => exact iff_of_true (Except.ok.inj hok).symm trivial
      | entry p name => exact declines_removal (.inl rfl) htree (hlive _ rfl) hok
  | rmdir =>
    cases target with
    | none => exact iff_of_true (Except.ok.inj hok).symm trivial
    | some target =>
      cases target with
      | node n => exact iff_of_true (Except.ok.inj hok).symm trivial
      | entry p name => exact declines_removal (.inr rfl) htree (hlive _ rfl) hok

/-- What is created tells where. -/
theorem Created.inj {c : Word} (h : Created fs c p name) (h' : Created fs c p' name') :
    Target.entry p name = Target.entry p' name' := by
  rw [← h.parent, ← h.name, h'.parent, h'.name]

/-- Calls that create with the same effect had the same target. -/
theorem act_entry_inj (hcall : (∃ flags, call = .open flags new) ∨ call = .mkdir new)
    (hadm : call.Admissible s.fs) (hp : p ∈ s.fs.live) (hp' : p' ∈ s.fs.live)
    (hok : call.act s t (some (.entry p name)) = .ok out)
    (hok' : call.act s t (some (.entry p' name')) = .ok out) (hne : out ≠ (s, .failed)) :
    Target.entry p name = Target.entry p' name' := by
  rcases act_entry hcall hadm hp hok with ⟨-, heq⟩ | ⟨-, hcreated⟩
  · exact absurd heq hne
  · rcases act_entry hcall hadm hp' hok' with ⟨-, heq⟩ | ⟨-, hcreated'⟩
    · exact absurd heq hne
    · exact hcreated.inj hcreated'

/-- Opens with the same effect had the same node. -/
theorem act_node_inj {new : NewNode}
    (hok : (PathCall.open flags new).act s t (some (.node n)) = .ok out)
    (hok' : (PathCall.open flags new).act s t (some (.node m)) = .ok out)
    (hne : out ≠ (s, .failed)) : n = m := by
  obtain ⟨d, hd, hfs, ⟨hfree, hout⟩ | ⟨i, entry, hfree, hentry, rfl, -⟩⟩ := act_node hok
  · obtain ⟨d', hd', hfs', -⟩ := act_node hok'
    by_contra hnm
    -- the node is as it was, so the call has failed without effect
    have hnode : (s.fs.setNode n d).node n = (s.fs.setNode m d').node n := by rw [← hfs, hfs']
    rw [Kyrofs.node_setNode, if_pos rfl, Kyrofs.node_setNode, if_neg hnm] at hnode
    apply hne
    rw [hout, hnode, Kyrofs.setNode, Function.update_eq_self]
  · obtain ⟨d', hd', hfs', ⟨hfree', -⟩ | ⟨j, entry', hfree', hentry', rfl, -⟩⟩ := act_node hok'
    · exact absurd (hfree.symm.trans hfree') (by simp)
    · obtain rfl := Option.some.inj (hfree.symm.trans hfree')
      exact congrArg FdEntry.node (Option.some.inj (hentry.symm.trans hentry'))

/-- No open has the same effect on a node and on an entry. -/
theorem act_node_ne_entry {new : NewNode} (hnew : new.dirent ∉ s.fs.live) (hp : p ∈ s.fs.live)
    (hok : (PathCall.open flags new).act s t (some (.node n)) = .ok out)
    (hok' : (PathCall.open flags new).act s t (some (.entry p name)) = .ok out) :
    out = (s, .failed) := by
  obtain ⟨d, -, hfs, -⟩ := act_node hok
  rcases act_entry (.inl ⟨flags, rfl⟩) hnew hp hok' with ⟨-, heq⟩ | ⟨-, hcreated⟩
  · exact heq
  · have hlive := hcreated.live
    rw [hfs] at hlive
    exact absurd hlive hnew

/-- An answer of `SYS_STAT` comes with its node. -/
theorem act_stat_inj (hok : PathCall.stat.act s t (some (.node n)) = .ok out)
    (hok' : PathCall.stat.act s t (some (.node m)) = .ok out) (hne : out ≠ (s, .failed)) :
    n = m := by
  have heq := (Prod.mk.inj (Except.ok.inj (hok.trans hok'.symm))).2
  cases hn : s.fs.statNode n with
  | none =>
    have hfailed := Except.ok.inj hok
    rw [hn] at hfailed
    exact absurd hfailed.symm hne
  | some st =>
    rw [hn] at heq
    cases hm : s.fs.statNode m with
    | none =>
      rw [hm] at heq
      cases congrArg Reply.stat heq
    | some st' =>
      rw [hm] at heq
      exact (Prod.mk.inj (Option.some.inj (congrArg Reply.stat heq))).1

/-- Removals with the same effect had the same entry. -/
theorem act_removal_inj (hcall : call = .unlink ∨ call = .rmdir) (htree : s.fs.Tree)
    (hp : p ∈ s.fs.live) (hp' : p' ∈ s.fs.live)
    (hok : call.act s t (some (.entry p name)) = .ok out)
    (hok' : call.act s t (some (.entry p' name')) = .ok out) (hne : out ≠ (s, .failed)) :
    Target.entry p name = Target.entry p' name' := by
  rcases act_removal hcall hok with ⟨-, heq⟩ | ⟨-, c, hchild, hfs⟩
  · exact absurd heq hne
  rcases act_removal hcall hok' with ⟨-, heq⟩ | ⟨-, c', hchild', hfs'⟩
  · exact absurd heq hne
  obtain ⟨hmem, rfl⟩ := Kyrofs.childNamed_eq_some hchild
  obtain ⟨hmem', rfl⟩ := Kyrofs.childNamed_eq_some hchild'
  obtain ⟨hlive, -, rfl⟩ := htree.child p hp c hmem
  obtain ⟨-, -, rfl⟩ := htree.child p' hp' c' hmem'
  have herase : s.fs.live.erase c = s.fs.live.erase c' :=
    congrArg Kyrofs.live (hfs.symm.trans hfs')
  have hcc : c = c' := by
    by_contra hcc
    have hkept := Finset.mem_erase.mpr ⟨hcc, hlive⟩
    rw [← herase] at hkept
    exact Finset.notMem_erase c _ hkept
  rw [hcc]

/-- Calls with the same effect had the same target. -/
theorem act_inj (htree : s.fs.Tree) (hadm : call.Admissible s.fs)
    (hlive : ∀ x, target = some x → x.Live s.fs) (hlive' : ∀ x, target' = some x → x.Live s.fs)
    (hok : call.act s t target = .ok out) (hok' : call.act s t target' = .ok out)
    (hne : out ≠ (s, .failed)) : target = target' := by
  cases target with
  | none =>
    have hfailed : call.act s t none = .ok (s, .failed) := by
      cases call <;> rfl
    exact absurd (Except.ok.inj (hok.symm.trans hfailed)) hne
  | some x =>
  cases target' with
  | none =>
    have hfailed : call.act s t none = .ok (s, .failed) := by
      cases call <;> rfl
    exact absurd (Except.ok.inj (hok'.symm.trans hfailed)) hne
  | some y =>
  have hx := hlive x rfl
  have hy := hlive' y rfl
  refine congrArg some ?_
  cases call with
  | «open» flags new =>
    cases x with
    | node n =>
      cases y with
      | node m => exact congrArg _ (act_node_inj hok hok' hne)
      | entry p name => exact absurd (act_node_ne_entry hadm hy hok hok') hne
    | entry p name =>
      cases y with
      | node m => exact absurd (act_node_ne_entry hadm hx hok' hok) hne
      | entry p' name' => exact act_entry_inj (.inl ⟨flags, rfl⟩) hadm hx hy hok hok' hne
  | stat =>
    cases x with
    | entry p name => exact absurd (Except.ok.inj hok).symm hne
    | node n =>
      cases y with
      | entry p name => exact absurd (Except.ok.inj hok').symm hne
      | node m => exact congrArg _ (act_stat_inj hok hok' hne)
  | mkdir new =>
    cases x with
    | node n => exact absurd (Except.ok.inj hok).symm hne
    | entry p name =>
      cases y with
      | node m => exact absurd (Except.ok.inj hok').symm hne
      | entry p' name' => exact act_entry_inj (.inr rfl) hadm hx hy hok hok' hne
  | unlink =>
    cases x with
    | node n => exact absurd (Except.ok.inj hok).symm hne
    | entry p name =>
      cases y with
      | node m => exact absurd (Except.ok.inj hok').symm hne
      | entry p' name' => exact act_removal_inj (.inl rfl) htree hx hy hok hok' hne
  | rmdir =>
    cases x with
    | node n => exact absurd (Except.ok.inj hok).symm hne
    | entry p name =>
      cases y with
      | node m => exact absurd (Except.ok.inj hok').symm hne
      | entry p' name' => exact act_removal_inj (.inr rfl) htree hx hy hok hok' hne

end Effect

/-! ### Whole paths -/

section Whole

variable {s : FdState} {t : Word} {call : PathCall} {userPath : CString} {out : FdState × Reply}

/-- The call fails without effect, or acts on what the whole path names. -/
def ActsOnWhole (s : FdState) (t : Word) (call : PathCall) (userPath : CString)
    (out : FdState × Reply) : Prop :=
  out = (s, .failed) ∨ call.act s t (call.target s.fs userPath) = .ok out

/-- A path of less than 256 bytes is copied whole. -/
theorem copyPath_eq (h : userPath.length < maxFilenameLen) : copyPath userPath = userPath :=
  List.take_of_length_le (Nat.le_pred_of_lt h)

/-- A call that returns fails without effect or acts on what the whole path names exactly when the
path has less than 256 bytes, or its first 255 bytes name the same target, or one that the call
declines. -/
theorem actsOnWhole_iff (htree : s.fs.Tree) (hadm : call.Admissible s.fs)
    (hok : call.run s t userPath = .ok out) :
    ActsOnWhole s t call userPath out ↔
      userPath.length < maxFilenameLen ∨
      call.target s.fs (copyPath userPath) = call.target s.fs userPath ∨
      call.Declines s t (call.target s.fs (copyPath userPath)) := by
  rw [run_eq_act htree hadm] at hok
  have hlive : ∀ path x, call.target s.fs path = some x → x.Live s.fs :=
    fun path x hx => target_live htree hx
  have hdeclines := declines_iff htree hadm (hlive _) hok
  constructor
  · rintro (hfailed | hact)
    · exact .inr (.inr (hdeclines.mp hfailed))
    · by_cases hfailed : out = (s, .failed)
      · exact .inr (.inr (hdeclines.mp hfailed))
      · exact .inr (.inl (act_inj htree hadm (hlive _) (hlive _) hok hact hfailed))
  · rintro (hlen | hsame | hdec)
    · rw [copyPath_eq hlen] at hok
      exact .inr hok
    · rw [hsame] at hok
      exact .inr hok
    · exact .inl (hdeclines.mpr hdec)

/-- `SYS_STAT` of `/bin`. -/
theorem actsOnWhole_bin : ∃ out, PathCall.stat.run smallFds 1 (cstring ['/', 'b', 'i', 'n']) =
    .ok out ∧ ActsOnWhole smallFds 1 .stat (cstring ['/', 'b', 'i', 'n']) out := by
  have hadm : PathCall.stat.Admissible smallFds.fs := trivial
  exact ⟨_, rfl, (actsOnWhole_iff smallTree_tree hadm rfl).mpr (.inl (by decide))⟩

/-- `binx` behind so many slashes that only `bin` is copied. -/
def longPath : CString := List.replicate 252 slash ++ cstring ['b', 'i', 'n', 'x']

/-- `SYS_RMDIR` of a path that names nothing removes `/bin`. -/
theorem not_actsOnWhole : ¬ ∀ (s : FdState) (t : Word) (call : PathCall) (userPath : CString)
    (out : FdState × Reply), s.fs.Tree → call.Admissible s.fs →
    call.run s t userPath = .ok out → ActsOnWhole s t call userPath out := by
  intro hall
  obtain ⟨out, hok, hrax⟩ : ∃ out, PathCall.rmdir.run smallFds 1 longPath = .ok out ∧
      out.2.rax = 0 := by
    have hreturns : (PathCall.rmdir.run smallFds 1 longPath).toOption.isSome = true := by
      decide +kernel
    refine ⟨_, eq_ok_getD (a := (smallFds, .failed)) hreturns, ?_⟩
    decide +kernel
  have hwhole : (PathCall.rmdir.act smallFds 1 (PathCall.rmdir.target smallTree longPath)).map
      (fun out => out.2.rax) = .ok minusOne := by
    decide +kernel
  rcases hall smallFds 1 .rmdir longPath out smallTree_tree trivial hok with hfailed | hact
  · rw [hfailed] at hrax
    exact absurd hrax (by decide)
  · rw [show smallFds.fs = smallTree from rfl] at hact
    rw [hact] at hwhole
    exact absurd (hrax.symm.trans (Except.ok.inj hwhole)) (by decide)

end Whole

end KyroOS.Vfs

import KyroOS.Lib.Transition
import KyroOS.Vfs.Tree
import Mathlib.Data.Fintype.Fin

/-!
# Names in a directory

Files and directories are created and removed in any order, by system calls and by the kernel.

## Main definitions

* `FsEvent`, `kyrofsSystem` — the runs from `kyrofs_init` on
* `NamesNew` — a call that creates without looking names no child there is
* `KeepsPaths` — the objects of one state are found by their paths in another

## Main results

* `uniqueNames_of_reachable` — names stay unique, and paths lead to their objects, as long as
  calls create new names, and the first call that does not ends it
* `not_uniqueNames` — a directory is created twice
-/

namespace KyroOS.Vfs

open Transition

/-! ### Calls -/

section Calls

variable {fs fs' : Kyrofs} {new : NewNode} {n p : Word} {name path : CString}
  {flags : BitVec 32} {r : Int}

theorem touch_setNode {d : Dirent} (hsame : Kyrofs.Same (fs.node n) d)
    (hchildren : d.children = fs.children n) : fs.Touch (fs.setNode n d) where
  root := rfl
  live := rfl
  same := fun m => by
    rw [Kyrofs.node_setNode]
    split_ifs with hm
    · exact hm ▸ hsame
    · exact .refl
  children := fun m => by
    rw [Kyrofs.children, Kyrofs.node_setNode]
    split_ifs with hm
    · exact hm ▸ hchildren
    · rfl

/-- `ptr` is the content of a file before and after. -/
theorem touch_content {d : Dirent} {file : FileContent} (hptr : (fs.node n).ptr = .content file)
    (hptr' : ∃ file', d.ptr = .content file') (hname : d.name = (fs.node n).name)
    (hflags : d.flags = (fs.node n).flags) (hparent : d.parent = (fs.node n).parent) :
    fs.Touch (fs.setNode n d) := by
  obtain ⟨file', hptr'⟩ := hptr'
  apply touch_setNode
  · exact ⟨hname, hflags, hparent, by rw [Dirent.hasDirectoryOps, Dirent.hasDirectoryOps, hptr,
      hptr']⟩
  · rw [Kyrofs.children, Dirent.children, Dirent.children, hptr, hptr']

theorem kyrofsOpen_touch {d : Dirent} (hok : kyrofsOpen (fs.node n) flags = .ok d) :
    fs.Touch (fs.setNode n d) := by
  rw [kyrofsOpen] at hok
  split_ifs at hok with htrunc
  · cases hptr : (fs.node n).ptr with
    | dirents l =>
      rw [hptr] at hok
      cases hok
    | content file =>
      rw [hptr] at hok
      obtain rfl := Except.ok.inj hok
      exact touch_content hptr ⟨_, rfl⟩ rfl rfl rfl
  · obtain rfl := Except.ok.inj hok
    exact touch_setNode .refl rfl

theorem kyrofsWrite_touch {offset : Word} {data : List Byte} {block : Option (ℕ → Byte)}
    {res : Dirent × BitVec 32} (hok : kyrofsWrite (fs.node n) offset data block = .ok res) :
    fs.Touch (fs.setNode n res.1) := by
  rw [kyrofsWrite] at hok
  cases hptr : (fs.node n).ptr with
  | dirents l =>
    rw [hptr] at hok
    cases hok
  | content file =>
    rw [hptr] at hok
    obtain ⟨file₁, -, hok⟩ := Outcome.bind_eq_ok.mp hok
    obtain ⟨content, -, hok⟩ := Outcome.bind_eq_ok.mp hok
    obtain rfl := Except.ok.inj hok
    exact touch_content hptr ⟨_, rfl⟩ rfl rfl rfl

theorem openNode_touch {res : Option Word} (hok : fs.openNode n flags = .ok (fs', res)) :
    fs.Touch fs' ∧ res = some n := by
  obtain ⟨d, hopen, hok⟩ := Outcome.bind_eq_ok.mp hok
  obtain ⟨rfl, rfl⟩ := Prod.mk.inj (Except.ok.inj hok)
  exact ⟨kyrofsOpen_touch hopen, rfl⟩

/-- The node that is opened is a live one. -/
theorem openNode_live {path : CString} {res : Option Word} (htree : fs.Tree)
    (hpath : fs.resolve fs.root path = some n) (hok : fs.openNode n flags = .ok (fs', res)) :
    ∀ m, res = some m → m ∈ fs'.live := by
  rintro m rfl
  obtain ⟨htouch, hres⟩ := openNode_touch hok
  obtain rfl := Option.some.inj hres
  exact htouch.live.symm ▸ (Kyrofs.attached_of_resolve htree hpath).live htree

theorem newPtr_children {ptr : Ptr} (hok : newPtr new flags = .ok ptr) :
    (⟨name, flags, 0, ptr, p⟩ : Dirent).children = [] := by
  rw [newPtr] at hok
  split_ifs at hok with hfile hcontent
  · cases hbuffer : new.buffer with
    | none =>
      rw [hbuffer] at hok
      cases hok
    | some junk =>
      rw [hbuffer] at hok
      obtain rfl := Except.ok.inj hok
      rfl
  · obtain rfl := Except.ok.inj hok
    rfl

/-- A created node is linked below a parent that has the operations of a directory. -/
theorem createNode_link (hok : kyrofsCreateNode fs new p name flags = .ok (fs', r)) :
    ∃ ptr, newPtr new flags = .ok ptr ∧ (fs.node p).hasDirectoryOps ∧
      fs' = fs.link new.dirent ⟨name, flags, 0, ptr, p⟩ ∧ r = 0 := by
  rw [kyrofsCreateNode] at hok
  split_ifs at hok with hzero hlong hops
  · obtain ⟨ptr, hptr, hlink⟩ := Outcome.bind_eq_ok.mp hok
    obtain ⟨rfl, rfl⟩ := Prod.mk.inj (Except.ok.inj hlink)
    exact ⟨ptr, hptr, hops, rfl, rfl⟩
  · obtain ⟨ptr, -, hfault⟩ := Outcome.bind_eq_ok.mp hok
    cases hfault

/-- A created node is linked under its name. -/
theorem createNode_edit (hok : kyrofsCreateNode fs new p name flags = .ok (fs', r))
    (hnew : new.dirent ∉ fs.live) (hp : p ∈ fs.live) :
    fs.Edit (some (p, name)) fs' ∧ r = 0 ∧ fs'.live = insert new.dirent fs.live ∧
      (fs'.node new.dirent).name = name := by
  obtain ⟨ptr, hptr, hops, rfl, rfl⟩ := createNode_link hok
  refine ⟨.link hnew hp hops (newPtr_children hptr), rfl, rfl, ?_⟩
  rw [Kyrofs.link_node_new (Kyrofs.ne_of_notMem hnew hp)]

/-- A call in the parent does nothing, or is the operation of a node that has it. -/
theorem callInParent_cases {root : Word} {op : Word → CString → Outcome (Kyrofs × Int)}
    (hok : fs.callInParent root path op = .ok (fs', r)) :
    fs' = fs ∧ (∀ n name,
      vfsParent (vfsFinddir fs) (fun n => (fs.node n).has vfsDirectory) root path = some (n, name) →
        ¬ (fs.node n).hasDirectoryOps) ∨
    ∃ n name,
      vfsParent (vfsFinddir fs) (fun n => (fs.node n).has vfsDirectory) root path =
        some (n, name) ∧ op n name = .ok (fs', r) := by
  rw [Kyrofs.callInParent] at hok
  cases hparent : vfsParent (vfsFinddir fs) (fun n => (fs.node n).has vfsDirectory) root path with
  | none =>
    rw [hparent] at hok
    exact .inl ⟨(Prod.mk.inj (Except.ok.inj hok)).1.symm, fun _ _ hnone => (by cases hnone)⟩
  | some res =>
    obtain ⟨n, name⟩ := res
    rw [hparent] at hok
    dsimp only at hok
    split_ifs at hok with hops
    · exact .inr ⟨n, name, rfl, hok⟩
    · refine .inl ⟨(Prod.mk.inj (Except.ok.inj hok)).1.symm, fun n' name' hsome => ?_⟩
      obtain ⟨rfl, -⟩ := Prod.mk.inj (Option.some.inj hsome)
      exact hops

/-- A removal takes out one child, or none. -/
theorem kyrofsRemove_edit (hp : p ∈ fs.live) : fs.Edit none (kyrofsRemove fs p name).1 := by
  rw [kyrofsRemove]
  cases hchild : fs.childNamed p name with
  | none => exact .keep
  | some c =>
    dsimp only
    split_ifs
    · exact .keep
    · exact .unlink hp (Kyrofs.childNamed_eq_some hchild).1

theorem kyrofsRmdir_edit (hp : p ∈ fs.live) : fs.Edit none (kyrofsRmdir fs p name).1 := by
  rw [kyrofsRmdir]
  cases hchild : fs.childNamed p name with
  | none => exact .keep
  | some c =>
    dsimp only
    split_ifs
    · exact .unlink hp (Kyrofs.childNamed_eq_some hchild).1
    · exact .keep
    · exact .keep

/-- A removal by path. -/
theorem callInParent_edit {op : Word → CString → Kyrofs × Int} (htree : fs.Tree)
    (hop : ∀ p name, p ∈ fs.live → fs.Edit none (op p name).1)
    (hok : fs.callInParent fs.root path (fun p name => .ok (op p name)) = .ok (fs', r)) :
    fs.Edit none fs' := by
  rcases callInParent_cases hok with ⟨rfl, -⟩ | ⟨p, name, hparent, hok⟩
  · exact .keep
  · have hlive := (Kyrofs.attached_of_vfsParent htree hparent).live htree
    have hedit := hop p name hlive
    rw [Except.ok.inj hok] at hedit
    exact hedit

/-- The effect of a call that creates: at most one new node, and perhaps a change of content. -/
def Creates (fs fs' : Kyrofs) (target : Option (Word × CString)) : Prop :=
  ∃ fs₁, fs.Edit target fs₁ ∧ (target = none → fs₁ = fs) ∧ fs₁.Touch fs'

theorem Creates.touch (h : fs.Touch fs') : Creates fs fs' none :=
  ⟨fs, .keep, fun _ => rfl, h⟩

theorem Creates.keep : Creates fs fs none := .touch .refl

theorem Creates.edit (h : fs.Edit (some (p, name)) fs') : Creates fs fs' (some (p, name)) :=
  ⟨fs', h, fun hnone => (by cases hnone), .refl⟩

/-- A path that leads nowhere, with a parent that exists, names no child of it. -/
theorem notMem_names_of_resolve_eq_none (hpath : fs.resolve fs.root path = none)
    {target : Option (Word × CString)}
    (htarget : target = match splitLast path with
      | some (dir, name) => (fs.resolve fs.root dir).map fun parent => (parent, name)
      | none => some (fs.root, path))
    (hsome : target = some (p, name)) : slash ∉ name ∧
      (fs.IsDirectory p → name ∉ fs.names p) := by
  have hnot : name ≠ [] ∧ slash ∉ name ∧ vfsFinddir fs p name = none := by
    rw [hsome] at htarget
    cases hsplit : splitLast path with
    | none =>
      rw [hsplit] at htarget
      obtain ⟨rfl, rfl⟩ := Prod.mk.inj (Option.some.inj htarget)
      have hslash := splitLast_eq_none.mp hsplit
      rw [Kyrofs.resolve, vfsResolvePath, pathComponents_of_notMem hslash] at hpath
      by_cases hempty : name = []
      · rw [if_pos hempty] at hpath
        cases hpath
      · rw [if_neg hempty] at hpath
        refine ⟨hempty, hslash, ?_⟩
        cases hfind : vfsFinddir fs fs.root name with
        | none => rfl
        | some m =>
          rw [List.foldlM_cons, hfind] at hpath
          cases hpath
    | some res =>
      obtain ⟨dir, last⟩ := res
      rw [hsplit] at htarget
      obtain ⟨q, hq, heq⟩ := Option.map_eq_some_iff.mp htarget.symm
      obtain ⟨rfl, rfl⟩ := Prod.mk.inj heq
      obtain ⟨rfl, hslash⟩ := splitLast_eq_some hsplit
      rw [Kyrofs.resolve, vfsResolvePath_eq_bind hslash] at hpath
      have hlast := Option.bind_eq_none_iff.mp hpath q hq
      by_cases hempty : last = []
      · rw [if_pos hempty] at hlast
        cases hlast
      · rw [if_neg hempty] at hlast
        exact ⟨hempty, hslash, hlast⟩
  obtain ⟨-, hslash, hfind⟩ := hnot
  refine ⟨hslash, fun hdir => ?_⟩
  rw [vfsFinddir, if_pos hdir, kyrofsFinddir] at hfind
  split_ifs at hfind
  exact Kyrofs.childNamed_eq_none.mp hfind

theorem Creates.live_subset {target : Option (Word × CString)} (h : Creates fs fs' target) :
    fs.live ⊆ fs'.live := by
  obtain ⟨fs₁, hedit, hkeep, htouch⟩ := h
  rw [htouch.live]
  cases hedit with
  | keep => exact Finset.Subset.refl _
  | link => exact Finset.subset_insert _ _
  | unlink => rw [hkeep rfl]

/-- An open creates only what its path does not lead to, and opens a live node. -/
theorem sysOpen_creates {res : Option Word} (htree : fs.Tree) (hnew : new.dirent ∉ fs.live)
    (hok : sysOpen fs new path flags = .ok (fs', res)) :
    (∃ target, Creates fs fs' target ∧ fs.Fresh target) ∧ ∀ n, res = some n → n ∈ fs'.live := by
  have hnone : fs.Fresh none := fun _ _ hnone => (by cases hnone)
  have hno : ∀ n, (none : Option Word) = some n → n ∈ fs.live := fun _ h => (by cases h)
  rw [sysOpen] at hok
  dsimp only at hok
  cases hresolve : fs.resolve fs.root (copyPath path) with
  | some n =>
    rw [hresolve] at hok
    exact ⟨⟨none, .touch (openNode_touch hok).1, hnone⟩, openNode_live htree hresolve hok⟩
  | none =>
    rw [hresolve] at hok
    dsimp only at hok
    split_ifs at hok with hcreat
    · split at hok
      · obtain ⟨rfl, rfl⟩ := Prod.mk.inj (Except.ok.inj hok)
        exact ⟨⟨none, .keep, hnone⟩, hno⟩
      · rename_i p name htarget
        obtain ⟨hslash, hfresh⟩ := notMem_names_of_resolve_eq_none hresolve rfl htarget
        have hlive : p ∈ fs.live := by
          split at htarget
          · obtain ⟨q, hq, heq⟩ := Option.map_eq_some_iff.mp htarget
            obtain ⟨rfl, -⟩ := Prod.mk.inj heq
            exact (Kyrofs.attached_of_resolve htree hq).live htree
          · obtain ⟨rfl, -⟩ := Prod.mk.inj (Option.some.inj htarget)
            exact htree.root
        split_ifs at hok with hdir
        · obtain ⟨⟨fs₁, r⟩, hcreate, hrest⟩ := Outcome.bind_eq_ok.mp hok
          clear hok
          dsimp only at hrest
          rcases callInParent_cases hcreate with ⟨rfl, -⟩ | ⟨q, last, hparent, hcreate⟩
          · -- the parent has no operation, and nothing was created
            have heq : (fs₁, (none : Option Word)) = (fs', res) := by
              split_ifs at hrest
              · exact Except.ok.inj hrest
              · rw [hresolve] at hrest
                exact Except.ok.inj hrest
            obtain ⟨rfl, rfl⟩ := Prod.mk.inj heq
            exact ⟨⟨none, .keep, hnone⟩, hno⟩
          · rw [vfsParent, splitLast_eq_none.mpr hslash] at hparent
            obtain ⟨rfl, rfl⟩ := Prod.mk.inj (Option.some.inj hparent)
            obtain ⟨hedit, rfl, -⟩ := createNode_edit hcreate hnew hlive
            rw [if_neg (not_not.mpr rfl)] at hrest
            have htree₁ := htree.edit hedit
            have htouch : fs₁.Touch fs' ∧ ∀ n, res = some n → n ∈ fs'.live := by
              cases hagain : fs₁.resolve fs₁.root (copyPath path) with
              | none =>
                rw [hagain] at hrest
                obtain ⟨rfl, rfl⟩ := Prod.mk.inj (Except.ok.inj hrest)
                exact ⟨.refl, fun _ h => (by cases h)⟩
              | some n =>
                rw [hagain] at hrest
                exact ⟨(openNode_touch hrest).1, openNode_live htree₁ hagain hrest⟩
            refine ⟨⟨_, ⟨fs₁, hedit, fun hnone => (by cases hnone), htouch.1⟩, ?_⟩, htouch.2⟩
            rintro _ _ hsome hdir
            obtain ⟨rfl, rfl⟩ := Prod.mk.inj (Option.some.inj hsome)
            exact hfresh hdir
        · obtain ⟨rfl, rfl⟩ := Prod.mk.inj (Except.ok.inj hok)
          exact ⟨⟨none, .keep, hnone⟩, hno⟩
    · obtain ⟨rfl, rfl⟩ := Prod.mk.inj (Except.ok.inj hok)
      exact ⟨⟨none, .keep, hnone⟩, hno⟩

end Calls

/-! ### Runs -/

/-- A call that creates or removes, with what `kmalloc` returns in it. -/
inductive FsEvent
  | open (path : CString) (flags : BitVec 32) (new : NewNode)
  | mkdir (path : CString) (new : NewNode)
  | unlink (path : CString)
  | rmdir (path : CString)
  | addFile (path : CString) (data : List Byte) (new : NewNode) (block : Option (ℕ → Byte))
  | createNode (parent : Word) (name : CString) (flags : BitVec 32) (new : NewNode)

/-- The state after a call. -/
def FsEvent.run (fs : Kyrofs) : FsEvent → Outcome Kyrofs
  | .open path flags new => (sysOpen fs new path flags).map Prod.fst
  | .mkdir path new => (sysMkdir fs new path).map Prod.fst
  | .unlink path => (sysUnlink fs path).map Prod.fst
  | .rmdir path => (sysRmdir fs path).map Prod.fst
  | .addFile path data new block => (kyrofsAddFile fs new path data block).map Prod.fst
  | .createNode parent name flags new => (kyrofsCreateNode fs new parent name flags).map Prod.fst

/-- `kmalloc` returns a block that is not in use, and the kernel passes a node there is. -/
def FsEvent.Admissible (fs : Kyrofs) : FsEvent → Prop
  | .open _ _ new | .mkdir _ new | .addFile _ _ new _ => new.dirent ∉ fs.live
  | .unlink _ | .rmdir _ => True
  | .createNode parent _ _ new => new.dirent ∉ fs.live ∧ parent ∈ fs.live

/-- Where a call creates a child without a look for it. -/
def FsEvent.target (fs : Kyrofs) : FsEvent → Option (Word × CString)
  | .open _ _ _ | .unlink _ | .rmdir _ => none
  | .mkdir path _ =>
    vfsParent (vfsFinddir fs) (fun n => (fs.node n).has vfsDirectory) fs.root (copyPath path)
  | .addFile path _ _ _ => (addFileTarget fs path).toOption.join
  | .createNode parent name _ _ => some (parent, name)

/-- The call removes nothing. -/
def FsEvent.Adds : FsEvent → Prop
  | .unlink _ | .rmdir _ => False
  | .open _ _ _ | .mkdir _ _ | .addFile _ _ _ _ | .createNode _ _ _ _ => True

/-- The runs from `kyrofs_init` on, where `kmalloc` returns different blocks. -/
def kyrofsSystem : System Kyrofs FsEvent where
  init := fun fs => ∃ root new, (∀ i, (new i).dirent ≠ root) ∧
    (Function.Injective fun i => (new i).dirent) ∧ kyrofsInit root new = .ok fs
  step := fun fs e fs' => e.Admissible fs ∧ e.run fs = .ok fs'

/-- A call that creates without a look names no child there is. -/
def NamesNew (fs : Kyrofs) (e : FsEvent) : Prop := fs.Fresh (e.target fs)

/-- The objects of `fs` are found by their paths in `fs'`. -/
def KeepsPaths (fs fs' : Kyrofs) : Prop :=
  ∀ names n, fs.At names n → fs'.resolve fs'.root (pathOf names) = some n

section Runs

variable {fs fs' : Kyrofs} {e : FsEvent}

theorem map_fst_eq_ok {α β : Type} {x : Outcome (α × β)} {a : α} (h : x.map Prod.fst = .ok a) :
    ∃ b, x = .ok (a, b) := by
  cases x with
  | error err => cases h
  | ok p => exact ⟨p.2, congrArg Except.ok (Prod.ext (Except.ok.inj h) rfl)⟩

theorem map_eq_ok {α β : Type} {f : α → β} {x : Outcome α} {b : β} (h : x.map f = .ok b) :
    ∃ a, x = .ok a ∧ f a = b := by
  cases x with
  | error err => cases h
  | ok a => exact ⟨a, rfl, Except.ok.inj h⟩

/-- The effect of a call. -/
theorem FsEvent.effect (htree : fs.Tree) (hadm : e.Admissible fs) (hok : e.run fs = .ok fs') :
    (∃ target, Creates fs fs' target ∧ (fs.Fresh target ↔ NamesNew fs e)) ∨
      ¬ e.Adds ∧ fs.Edit none fs' ∧ NamesNew fs e := by
  have hnone : fs.Fresh none := fun _ _ hnone => (by cases hnone)
  cases e with
  | «open» path flags new =>
    obtain ⟨res, hopen⟩ := map_fst_eq_ok hok
    obtain ⟨⟨target, hcreates, hfresh⟩, -⟩ := sysOpen_creates htree hadm hopen
    exact .inl ⟨target, hcreates, iff_of_true hfresh hnone⟩
  | mkdir path new =>
    obtain ⟨r, hmkdir⟩ := map_fst_eq_ok hok
    rcases callInParent_cases hmkdir with ⟨rfl, hnoop⟩ | ⟨p, name, hparent, hcreate⟩
    · refine .inl ⟨none, .keep, iff_of_true hnone fun n name htarget hdir => ?_⟩
      exact absurd hdir.2 (hnoop n name htarget)
    · have hlive := (Kyrofs.attached_of_vfsParent htree hparent).live htree
      obtain ⟨hedit, -⟩ := createNode_edit hcreate hadm hlive
      refine .inl ⟨_, .edit hedit, ?_⟩
      rw [NamesNew, FsEvent.target, hparent]
  | unlink path =>
    obtain ⟨r, hunlink⟩ := map_fst_eq_ok hok
    exact .inr ⟨id, callInParent_edit htree (fun p name hp => kyrofsRemove_edit hp) hunlink, hnone⟩
  | rmdir path =>
    obtain ⟨r, hrmdir⟩ := map_fst_eq_ok hok
    exact .inr ⟨id, callInParent_edit htree (fun p name hp => kyrofsRmdir_edit hp) hrmdir, hnone⟩
  | addFile path data new block =>
    obtain ⟨r, hadd⟩ := map_fst_eq_ok hok
    obtain ⟨res, htarget, hadd⟩ := Outcome.bind_eq_ok.mp hadd
    have htarget' : FsEvent.target fs (.addFile path data new block) = res := by
      rw [FsEvent.target, htarget]
      rfl
    rw [NamesNew, htarget']
    cases res with
    | none =>
      obtain ⟨rfl, -⟩ := Prod.mk.inj (Except.ok.inj hadd)
      exact .inl ⟨none, .keep, Iff.rfl⟩
    | some res =>
      obtain ⟨p, name⟩ := res
      have hlive : p ∈ fs.live := by
        rw [addFileTarget] at htarget
        split at htarget
        · split_ifs at htarget
          obtain ⟨q, hq, heq⟩ := Option.map_eq_some_iff.mp (Except.ok.inj htarget)
          obtain ⟨rfl, -⟩ := Prod.mk.inj heq
          exact (Kyrofs.Attached.root.finddir htree hq).live htree
        · obtain ⟨rfl, -⟩ := Prod.mk.inj (Option.some.inj (Except.ok.inj htarget))
          exact htree.root
      obtain ⟨⟨fs₁, r₁⟩, hcreate, hwrite⟩ := Outcome.bind_eq_ok.mp hadd
      obtain ⟨hedit, -⟩ := createNode_edit hcreate hadm hlive
      refine .inl ⟨_, ⟨fs₁, hedit, fun hnone => (by cases hnone), ?_⟩, Iff.rfl⟩
      dsimp only at hwrite
      cases hfind : vfsFinddir fs₁ p name with
      | none =>
        rw [hfind] at hwrite
        obtain ⟨rfl, -⟩ := Prod.mk.inj (Except.ok.inj hwrite)
        exact .refl
      | some n =>
        rw [hfind] at hwrite
        obtain ⟨res, hres, hwrite⟩ := Outcome.bind_eq_ok.mp hwrite
        obtain ⟨rfl, -⟩ := Prod.mk.inj (Except.ok.inj hwrite)
        exact kyrofsWrite_touch hres
  | createNode parent name flags new =>
    obtain ⟨r, hcreate⟩ := map_fst_eq_ok hok
    obtain ⟨hedit, -⟩ := createNode_edit hcreate hadm.1 hadm.2
    exact .inl ⟨_, .edit hedit, Iff.rfl⟩

/-- The step lemma for the tree. -/
theorem tree_step (htree : fs.Tree) (hstep : kyrofsSystem.step fs e fs') : fs'.Tree := by
  rcases FsEvent.effect htree hstep.1 hstep.2 with ⟨target, ⟨fs₁, hedit, -, htouch⟩, -⟩ |
    ⟨-, hedit, -⟩
  · exact (htree.edit hedit).touch htouch
  · exact htree.edit hedit

/-- The step lemma for names. -/
theorem uniqueNames_step (htree : fs.Tree) (hunique : fs.UniqueNames)
    (hstep : kyrofsSystem.step fs e fs') : fs'.UniqueNames ↔ NamesNew fs e := by
  rcases FsEvent.effect htree hstep.1 hstep.2 with ⟨target, ⟨fs₁, hedit, -, htouch⟩, hfresh⟩ |
    ⟨-, hedit, hnew⟩
  · rw [Kyrofs.uniqueNames_touch htouch, hunique.edit htree hedit, hfresh]
  · rw [hunique.edit htree hedit]
    exact iff_of_true (fun _ _ hnone => (by cases hnone)) hnew

/-- The step lemma for objects. -/
theorem at_step {names : List CString} {n : Word} (htree : fs.Tree) (hadds : e.Adds)
    (h : fs.At names n) (hstep : kyrofsSystem.step fs e fs') : fs'.At names n := by
  rcases FsEvent.effect htree hstep.1 hstep.2 with ⟨target, ⟨fs₁, hedit, hkeep, htouch⟩, -⟩ |
    ⟨hnot, -⟩
  · exact (h.edit htree hedit hkeep).touch htouch
  · exact absurd hadds hnot

/-! ### The first tree -/

/-- A call that creates a node that is no file, under a new name in a directory. -/
def BuildsTree (fs : Kyrofs) (e : FsEvent) : Prop :=
  NamesNew fs e ∧ ∃ p name flags new, e = .createNode p name flags new ∧
    (fs.node p).has vfsDirectory ∧ flags &&& vfsFile = 0

/-- The tree of `kyrofs_init` before its `k`-th new node, with the names given so far. -/
structure Building (root : Word) (new : Fin 8 → NewNode) (k : ℕ) (used : List CString)
    (fs : Kyrofs) : Prop where
  tree : fs.Tree
  unique : fs.UniqueNames
  used : ∀ n ∈ fs.live, (fs.node n).name ∈ used
  root_eq : fs.root = root
  unused : ∀ i : Fin 8, k ≤ i → (new i).dirent ∉ fs.live
  -- the last of the nodes is no directory
  directories : k ≤ 7 → ∀ n ∈ fs.live, (fs.node n).has vfsDirectory

section Init

variable {root p n : Word} {new : Fin 8 → NewNode} {k : ℕ} {used : List CString} {name : CString}
  {flags : BitVec 32} {r : Int}

theorem tree_bareRoot (root : Word) : (bareRoot root).Tree where
  root := Finset.mem_singleton_self root
  rootDirectory := ⟨show decide (vfsDirectory &&& vfsDirectory ≠ 0) = true by decide, rfl⟩
  rootParent := rfl
  child := fun _ _ _ hc => absurd hc List.not_mem_nil
  nodup := fun _ _ => List.nodup_nil

theorem building_bareRoot (hroot : ∀ i, (new i).dirent ≠ root) :
    Building root new 0 [[slash]] (bareRoot root) where
  tree := tree_bareRoot root
  unique := fun _ _ _ => List.nodup_nil
  used := fun _ _ => List.mem_singleton_self _
  root_eq := rfl
  unused := fun i _ hi => hroot i (Finset.mem_singleton.mp hi)
  directories := fun _ _ _ => show decide (vfsDirectory &&& vfsDirectory ≠ 0) = true by decide

theorem Building.attached_root (h : Building root new k used fs) : fs.Attached root :=
  h.root_eq ▸ .root

/-- A name that is not used yet is new in its directory. -/
theorem Building.fresh (h : Building root new k used fs) (hp : fs.Attached p)
    (hname : name ∉ used) : fs.Fresh (some (p, name)) := by
  rintro _ _ htarget _ hmem
  obtain ⟨rfl, rfl⟩ := Prod.mk.inj (Option.some.inj htarget)
  obtain ⟨c, hc, hcname⟩ := List.mem_map.mp hmem
  exact hname (hcname ▸ h.used c (h.tree.child p (hp.live h.tree) c hc).1)

/-- A new name makes no two children of one name. -/
theorem Building.create {i : Fin 8} (h : Building root new k used fs) (hi : (i : ℕ) = k)
    (hinj : Function.Injective fun i => (new i).dirent) (hp : fs.Attached p)
    (hname : name ∉ used) (hflags : k < 7 → flags = vfsDirectory)
    (hok : kyrofsCreateNode fs (new i) p name flags = .ok (fs', r)) :
    Building root new (k + 1) (name :: used) fs' := by
  have hnew := h.unused i hi.ge
  obtain ⟨hedit, -, hlive, hnewName⟩ := createNode_edit hok hnew (hp.live h.tree)
  refine ⟨h.tree.edit hedit, (h.unique.edit h.tree hedit).mpr (h.fresh hp hname), ?_, ?_, ?_, ?_⟩
  · intro n hn
    rw [hlive] at hn
    rcases Finset.mem_insert.mp hn with rfl | hold
    · rw [hnewName]
      exact List.mem_cons_self
    · rw [(hedit.same hold).name]
      exact List.mem_cons_of_mem _ (h.used n hold)
  · rw [hedit.root_eq, h.root_eq]
  · intro j hj hmem
    rw [hlive] at hmem
    rcases Finset.mem_insert.mp hmem with heq | hold
    · have hji : j = i := hinj heq
      rw [hji] at hj
      omega
    · exact h.unused j (by omega) hold
  · intro hk n hn
    rw [hlive] at hn
    rcases Finset.mem_insert.mp hn with rfl | hold
    · obtain ⟨ptr, -, -, rfl, -⟩ := createNode_link hok
      rw [Kyrofs.link_node_new (Kyrofs.ne_of_notMem hnew (hp.live h.tree)), hflags hk]
      exact show decide (vfsDirectory &&& vfsDirectory ≠ 0) = true by decide
    · rw [Dirent.has, (hedit.same hold).flags]
      exact h.directories (by omega) n hold

theorem Building.find {m : Word} (h : Building root new k used fs) (hn : fs.Attached n)
    (hok : nodeOrFault (vfsFinddir fs n name) = .ok m) : fs.Attached m := by
  cases hfind : vfsFinddir fs n name with
  | none =>
    rw [hfind] at hok
    cases hok
  | some m' =>
    rw [hfind] at hok
    exact Except.ok.inj hok ▸ hn.finddir h.tree hfind

/-- The creation of a node with a new name is a step of a run that builds the tree. -/
theorem Building.run {i : Fin 8} (h : Building root new k used fs) (hi : (i : ℕ) = k)
    (hp : fs.Attached p) (hname : name ∉ used) (hflags : flags &&& vfsFile = 0)
    (hok : kyrofsCreateNode fs (new i) p name flags = .ok (fs', r))
    (hrun : kyrofsSystem.RunsTo BuildsTree (bareRoot root) fs) :
    kyrofsSystem.RunsTo BuildsTree (bareRoot root) fs' := by
  refine hrun.tail ⟨.createNode p name flags (new i),
    ⟨h.fresh hp hname, p, name, flags, new i, rfl,
      h.directories (by have := i.isLt; omega) p (hp.live h.tree), hflags⟩,
    ⟨h.unused i hi.ge, hp.live h.tree⟩, ?_⟩
  rw [FsEvent.run, hok]
  rfl

/-- The first tree has unique names, and is built by a run from the bare root. -/
theorem building_run (hroot : ∀ i, (new i).dirent ≠ root)
    (hinj : Function.Injective fun i => (new i).dirent) (hok : kyrofsInit root new = .ok fs) :
    (∃ k used, Building root new k used fs) ∧
      kyrofsSystem.RunsTo BuildsTree (bareRoot root) fs := by
  rw [kyrofsInit] at hok
  split_ifs at hok
  have h₀ := building_bareRoot hroot
  obtain ⟨⟨fs₁, r₁⟩, hok₁, hok⟩ := Outcome.bind_eq_ok.mp hok
  have h₁ := h₀.create rfl hinj h₀.attached_root (by decide) (fun _ => rfl) hok₁
  have run₁ := h₀.run rfl h₀.attached_root (by decide) rfl hok₁ .refl
  obtain ⟨⟨fs₂, r₂⟩, hok₂, hok⟩ := Outcome.bind_eq_ok.mp hok
  have h₂ := h₁.create rfl hinj h₁.attached_root (by decide) (fun _ => rfl) hok₂
  have run₂ := h₁.run rfl h₁.attached_root (by decide) rfl hok₂ run₁
  obtain ⟨⟨fs₃, r₃⟩, hok₃, hok⟩ := Outcome.bind_eq_ok.mp hok
  have h₃ := h₂.create rfl hinj h₂.attached_root (by decide) (fun _ => rfl) hok₃
  have run₃ := h₂.run rfl h₂.attached_root (by decide) rfl hok₃ run₂
  obtain ⟨⟨fs₄, r₄⟩, hok₄, hok⟩ := Outcome.bind_eq_ok.mp hok
  have h₄ := h₃.create rfl hinj h₃.attached_root (by decide) (fun _ => rfl) hok₄
  have run₄ := h₃.run rfl h₃.attached_root (by decide) rfl hok₄ run₃
  obtain ⟨⟨fs₅, r₅⟩, hok₅, hok⟩ := Outcome.bind_eq_ok.mp hok
  have h₅ := h₄.create rfl hinj h₄.attached_root (by decide) (fun _ => rfl) hok₅
  have run₅ := h₄.run rfl h₄.attached_root (by decide) rfl hok₅ run₄
  obtain ⟨varNode, hvar, hok⟩ := Outcome.bind_eq_ok.mp hok
  obtain ⟨⟨fs₆, r₆⟩, hok₆, hok⟩ := Outcome.bind_eq_ok.mp hok
  have hvar₅ := h₅.find h₅.attached_root hvar
  have h₆ := h₅.create rfl hinj hvar₅ (by decide) (fun _ => rfl) hok₆
  have run₆ := h₅.run rfl hvar₅ (by decide) rfl hok₆ run₅
  obtain ⟨libNode, hlib, hok⟩ := Outcome.bind_eq_ok.mp hok
  obtain ⟨⟨fs₇, r₇⟩, hok₇, hok⟩ := Outcome.bind_eq_ok.mp hok
  have hvar₆ : fs₆.Attached varNode :=
    hvar₅.edit h₅.tree (createNode_edit hok₆ (h₅.unused 5 le_rfl) (hvar₅.live h₅.tree)).1
  have hlib₆ := h₆.find hvar₆ hlib
  have h₇ := h₆.create rfl hinj hlib₆ (by decide) (fun _ => rfl) hok₇
  have run₇ := h₆.run rfl hlib₆ (by decide) rfl hok₇ run₆
  dsimp only at hok
  cases hdev : vfsFinddir fs₇ root (cstring ['d', 'e', 'v']) with
  | none =>
    rw [hdev] at hok
    obtain rfl := Except.ok.inj hok
    exact ⟨⟨7, _, h₇⟩, run₇⟩
  | some devDir =>
    rw [hdev] at hok
    obtain ⟨⟨fs₈, r₈⟩, hok₈, hok⟩ := Outcome.bind_eq_ok.mp hok
    obtain rfl := Except.ok.inj hok
    have hdev₇ := h₇.attached_root.finddir h₇.tree hdev
    exact ⟨⟨8, _, h₇.create rfl hinj hdev₇ (by decide) (fun h => absurd h (by decide)) hok₈⟩,
      h₇.run rfl hdev₇ (by decide) rfl hok₈ run₇⟩

/-- The first tree has unique names. -/
theorem building_init (hroot : ∀ i, (new i).dirent ≠ root)
    (hinj : Function.Injective fun i => (new i).dirent) (hok : kyrofsInit root new = .ok fs) :
    ∃ k used, Building root new k used fs :=
  (building_run hroot hinj hok).1

/-- What holds of the bare root and is kept by the creation of nodes that are no files holds of the
first tree. -/
theorem kyrofsInit_preserves {I : Kyrofs → Prop} (hbare : I (bareRoot root))
    (hstep : ∀ fs e fs', fs.Tree → I fs → BuildsTree fs e → kyrofsSystem.step fs e fs' → I fs')
    (hroot : ∀ i, (new i).dirent ≠ root) (hinj : Function.Injective fun i => (new i).dirent)
    (hok : kyrofsInit root new = .ok fs) : I fs := by
  have hboth := (building_run hroot hinj hok).2.preserves (I := fun s => s.Tree ∧ I s)
    (fun s e t hs hC hst => ⟨tree_step hs.1 hst, hstep s e t hs.1 hs.2 hC hst⟩)
    ⟨(building_bareRoot hroot).tree, hbare⟩
  exact hboth.2

end Init

/-! ### Names over a run -/

/-- The run lemma. -/
theorem tree_of_reachable {C : Kyrofs → FsEvent → Prop} (h : kyrofsSystem.ReachableUnder C fs) :
    fs.Tree := by
  refine h.invariant (I := Kyrofs.Tree) ?_ fun s e t htree _ hstep => tree_step htree hstep
  rintro s ⟨root, new, hroot, hinj, hok⟩
  obtain ⟨k, used, hbuilding⟩ := building_init hroot hinj hok
  exact hbuilding.tree

theorem uniqueNames_of_run (h : kyrofsSystem.ReachableUnder NamesNew fs) : fs.UniqueNames := by
  refine h.invariant₂ (I := Kyrofs.UniqueNames) (fun _ hs => tree_of_reachable hs) ?_
    fun s e t htree hunique hnew hstep => (uniqueNames_step htree hunique hstep).mpr hnew
  rintro s ⟨root, new, hroot, hinj, hok⟩
  obtain ⟨k, used, hbuilding⟩ := building_init hroot hinj hok
  exact hbuilding.unique

theorem at_of_runsTo {names : List CString} {n : Word} (htree : fs.Tree) (h : fs.At names n)
    (hrun : kyrofsSystem.RunsTo (fun s e => NamesNew s e ∧ e.Adds) fs fs') :
    fs'.At names n := by
  have hboth := hrun.preserves (I := fun s => s.Tree ∧ s.At names n)
    (fun s e t hs hC hstep => ⟨tree_step hs.1 hstep, at_step hs.1 hC.2 hs.2 hstep⟩) ⟨htree, h⟩
  exact hboth.2

/-- As long as calls create new names, no directory has two children of one name, and every object
is found by its path, also after later calls that create. The first call that creates a name
again ends this. -/
theorem uniqueNames_of_reachable (h : kyrofsSystem.ReachableUnder NamesNew fs) :
    fs.UniqueNames ∧
      (∀ t, kyrofsSystem.RunsTo (fun s e => NamesNew s e ∧ e.Adds) fs t → KeepsPaths fs t) ∧
      ∀ e t, kyrofsSystem.step fs e t → (t.UniqueNames ↔ NamesNew fs e) := by
  have htree := tree_of_reachable h
  have hunique := uniqueNames_of_run h
  refine ⟨hunique, fun t hrun names n hat => ?_, fun e t => uniqueNames_step htree hunique⟩
  have ht : kyrofsSystem.ReachableUnder NamesNew t :=
    h.runsTo (hrun.mono fun s e hC => hC.1)
  exact (at_of_runsTo htree hat hrun).resolve (tree_of_reachable ht) (uniqueNames_of_run ht)

end Runs

/-! ### A small tree -/

section Small

/-- The nodes of the small tree, with files that are never created. -/
def smallNode (i : ℕ) : NewNode := ⟨BitVec.ofNat 64 (0x1000 * (i + 2)), 0, none⟩

/-- The tree of `kyrofs_init`. -/
def smallTree : Kyrofs :=
  (kyrofsInit 0x1000 fun i => smallNode i).toOption.getD (bareRoot 0x1000)

theorem eq_ok_getD {α : Type} {x : Outcome α} {a : α} (h : x.toOption.isSome = true) :
    x = .ok (x.toOption.getD a) := by
  cases x with
  | error e => cases h
  | ok b => rfl

theorem smallTree_init : kyrofsSystem.init smallTree :=
  ⟨0x1000, fun i => smallNode i, by decide, by decide,
    eq_ok_getD (by decide)⟩

/-- The tree after `SYS_MKDIR` of a path. -/
def smallMkdir (path : CString) : Kyrofs :=
  ((sysMkdir smallTree (smallNode 8) path).map Prod.fst).toOption.getD smallTree

theorem smallMkdir_step (path : CString)
    (h : ((sysMkdir smallTree (smallNode 8) path).map Prod.fst).toOption.isSome = true) :
    kyrofsSystem.step smallTree (.mkdir path (smallNode 8)) (smallMkdir path) :=
  ⟨show (smallNode 8).dirent ∉ smallTree.live by decide, eq_ok_getD h⟩

/-- A directory with a new name is created. -/
theorem uniqueNames_smallMkdir : (smallMkdir (cstring ['/', 'a'])).names 0x1000 =
      cstring ['a'] :: smallTree.names 0x1000 ∧ (smallMkdir (cstring ['/', 'a'])).UniqueNames := by
  have hstep := smallMkdir_step (cstring ['/', 'a']) (by decide)
  have hinit : kyrofsSystem.ReachableUnder NamesNew smallTree := .init smallTree_init
  have htarget : FsEvent.target smallTree (.mkdir (cstring ['/', 'a']) (smallNode 8)) =
      some (0x1000, cstring ['a']) := by decide
  have hnew : NamesNew smallTree (.mkdir (cstring ['/', 'a']) (smallNode 8)) := by
    intro n name hsome _
    obtain ⟨rfl, rfl⟩ := Prod.mk.inj (Option.some.inj (htarget.symm.trans hsome))
    decide
  exact ⟨by decide, (uniqueNames_of_reachable (hinit.step hnew hstep)).1⟩

/-- `SYS_MKDIR` of `/bin`, which `kyrofs_init` created. -/
theorem not_uniqueNames : ¬ ∀ fs, kyrofsSystem.Reachable fs → fs.UniqueNames := by
  intro hall
  have hstep := smallMkdir_step (cstring ['/', 'b', 'i', 'n']) (by decide)
  have hreach : kyrofsSystem.Reachable (smallMkdir (cstring ['/', 'b', 'i', 'n'])) :=
    (System.ReachableUnder.init smallTree_init).step trivial hstep
  exact absurd (hall _ hreach 0x1000 (by decide) (by decide)) (by decide)

end Small

end KyroOS.Vfs

import KyroOS.Vfs.WholePath

/-!
# Opens that fail

`sys_open` creates and truncates before it looks for a free descriptor, so an open that fails for
want of one has already changed the file system.

## Main definitions

* `FdState.sysOpenAt` — `sys_open` with the check of its pointer
* `Truncates` — an open changes the file it opens
* `ChangesFirst` — an open changes the file system before it needs a descriptor

## Main results

* `sysOpen_failed_iff` — a failed open leaves everything as it was exactly when a descriptor is
  free, or nothing was to be changed first
* `not_sysOpen_failed` — a file is created without a descriptor for it
-/

namespace KyroOS.Vfs

/-- `sys_open` of the string at `userPtr`, where `hhdm` is `kernel_hhdm_offset`. -/
def FdState.sysOpenAt (s : FdState) (t hhdm userPtr : Word) (new : NewNode) (path : CString)
    (flags : BitVec 32) : Outcome (FdState × Word) :=
  if hhdm ≤ userPtr then .ok (s, minusOne) else s.sysOpen t new path flags

/-- `kyrofs_open` empties the file, unless it is as an open with `O_TRUNC` has left it. -/
def Truncates (node : Dirent) (flags : BitVec 32) : Prop :=
  node.has vfsFile ∧ flags &&& oTrunc ≠ 0 ∧
    ∀ file, node.ptr = .content file →
      ¬ (file.content = none ∧ file.size = 0 ∧ node.length = 0)

/-- The open truncates the node its path leads to, or creates one in a directory. -/
def ChangesFirst (fs : Kyrofs) (new : NewNode) (path : CString) (flags : BitVec 32) : Prop :=
  match PathCall.target fs (copyPath path) (.open flags new) with
  | some (.node n) => Truncates (fs.node n) flags
  | some (.entry p _) => fs.IsDirectory p
  | none => False

section Open

variable {s s' : FdState} {fs fs' : Kyrofs} {t n p hhdm userPtr rax : Word} {new : NewNode}
  {path name : CString} {flags : BitVec 32} {node node' : Dirent} {res : Option Word}

/-- An open changes its node exactly when it truncates it. -/
theorem kyrofsOpen_eq_self_iff (hok : kyrofsOpen node flags = .ok node') :
    node' = node ↔ ¬ Truncates node flags := by
  rw [kyrofsOpen] at hok
  split_ifs at hok with htrunc
  · cases hptr : node.ptr with
    | dirents l =>
      rw [hptr] at hok
      cases hok
    | content file =>
      rw [hptr] at hok
      obtain rfl := Except.ok.inj hok
      constructor
      · intro hself htruncates
        refine htruncates.2.2 file hptr ?_
        rw [← hself] at hptr
        have hfile := Ptr.content.inj hptr
        exact ⟨(congrArg FileContent.content hfile).symm, (congrArg FileContent.size hfile).symm,
          (congrArg Dirent.length hself).symm⟩
      · intro hnot
        have hempty : file.content = none ∧ file.size = 0 ∧ node.length = 0 := by
          by_contra hfull
          refine hnot ⟨htrunc.1, htrunc.2, fun file' hptr' => ?_⟩
          obtain rfl := Ptr.content.inj (hptr.symm.trans hptr')
          exact hfull
        cases node
        cases file
        simp_all only
  · obtain rfl := Except.ok.inj hok
    exact iff_of_true rfl fun htruncates => htrunc ⟨htruncates.1, htruncates.2.1⟩

/-- The state after an open that finds no descriptor. -/
theorem FdState.install_of_full (hfull : freeFd (s.fds t) = none) :
    s.install t flags fs res = ({ s with fs }, minusOne) := by
  cases res with
  | none => rfl
  | some n => rw [FdState.install, hfull]

/-- A descriptor is no error. -/
theorem FdState.install_ne_minusOne {i : Fin maxFiles} (hfree : freeFd (s.fds t) = some i) :
    (s.install t flags fs (some n)).2 ≠ minusOne := by
  rw [FdState.install, hfree]
  dsimp only
  intro heq
  have hnat := congrArg BitVec.toNat heq
  have hlt : (i : ℕ) < 16 := i.isLt
  rw [BitVec.toNat_ofNat, Nat.mod_eq_of_lt (by omega)] at hnat
  have hone : minusOne.toNat = 2 ^ 64 - 1 := rfl
  omega

/-- An open of a node that is there. -/
theorem openNode_eq_self_iff (hok : fs.openNode n flags = .ok (fs', res)) :
    res = some n ∧ (fs' = fs ↔ ¬ Truncates (fs.node n) flags) := by
  obtain ⟨d, hopen, hok⟩ := Outcome.bind_eq_ok.mp hok
  obtain ⟨rfl, rfl⟩ := Prod.mk.inj (Except.ok.inj hok)
  refine ⟨rfl, ?_⟩
  rw [← kyrofsOpen_eq_self_iff hopen]
  constructor
  · intro hself
    have hnode := congrFun (congrArg Kyrofs.node hself) n
    rwa [Kyrofs.node_setNode, if_pos rfl] at hnode
  · rintro rfl
    rw [Kyrofs.setNode, Function.update_eq_self]

/-- An open that creates leaves another file system. -/
theorem ne_of_created {r : Int} (hnew : new.dirent ∉ fs.live) {fs₁ : Kyrofs}
    (hcreate : kyrofsCreate fs new p name = .ok (fs₁, r))
    (hopen : fs₁.openNode new.dirent flags = .ok (fs', res)) : fs' ≠ fs := by
  rintro rfl
  obtain ⟨ptr, -, -, rfl, -⟩ := createNode_link hcreate
  rw [(openNode_touch hopen).1.live] at hnew
  exact hnew (Finset.mem_insert_self _ _)

/-- With a free descriptor, an open that finds or makes its node does not fail. With none, it fails
and leaves the file system as it has it by then. -/
theorem install_failed_iff (n : Word) (flags : BitVec 32) :
    ((s.install t flags fs' (some n)).2 = minusOne → (s.install t flags fs' (some n)).1 = s) ↔
      (freeFd (s.fds t) = none → fs' = s.fs) := by
  cases hfree : freeFd (s.fds t) with
  | some i =>
    exact iff_of_true (fun hfailed => absurd hfailed (FdState.install_ne_minusOne hfree))
      fun hnone => (by cases hnone)
  | none =>
    rw [FdState.install_of_full hfree]
    constructor
    · intro hsame _
      exact congrArg FdState.fs (hsame rfl)
    · intro hsame _
      obtain rfl := hsame rfl
      rfl

/-- A failed open leaves the files and the descriptors as they were exactly when a descriptor is
free, or there was nothing to change before it is looked for. -/
theorem sysOpen_failed_iff (htree : s.fs.Tree) (hnew : new.dirent ∉ s.fs.live)
    (hok : s.sysOpenAt t hhdm userPtr new path flags = .ok (s', rax)) :
    (rax = minusOne → s' = s) ↔
      (hhdm ≤ userPtr ∨ freeFd (s.fds t) ≠ none ∨ ¬ ChangesFirst s.fs new path flags) := by
  rw [FdState.sysOpenAt] at hok
  split_ifs at hok with hkernel
  · obtain ⟨rfl, -⟩ := Prod.mk.inj (Except.ok.inj hok)
    exact iff_of_true (fun _ => rfl) (.inl hkernel)
  rw [FdState.sysOpen_eq, sysOpen_eq htree hnew] at hok
  obtain ⟨⟨fs', res⟩, hopen, hok⟩ := Outcome.bind_eq_ok.mp hok
  have hinstall := Except.ok.inj hok
  rw [or_iff_right hkernel, ← not_and_or, ChangesFirst]
  -- nothing is changed, and no node is found
  have hdeclined : fs' = s.fs → res = none → (rax = minusOne → s' = s) := by
    rintro rfl rfl -
    exact (congrArg Prod.fst hinstall).symm
  -- a node is opened, in the file system as the open has it
  have hopened : ∀ n, res = some n → ((rax = minusOne → s' = s) ↔
      (freeFd (s.fds t) = none → fs' = s.fs)) := by
    rintro n rfl
    rw [← install_failed_iff n flags, hinstall]
  cases htarget : PathCall.target s.fs (copyPath path) (.open flags new) with
  | none =>
    rw [htarget] at hopen
    obtain ⟨rfl, rfl⟩ := Prod.mk.inj (Except.ok.inj hopen)
    exact iff_of_true (hdeclined rfl rfl) fun hand => hand.2
  | some target =>
    rw [htarget] at hopen
    cases target with
    | node n =>
      obtain ⟨hres, hself⟩ := openNode_eq_self_iff hopen
      rw [hopened n hres, hself]
      exact not_and.symm
    | entry p name =>
      dsimp only at hopen
      split_ifs at hopen with hdir
      · obtain ⟨⟨fs₁, r⟩, hcreate, hopen⟩ := Outcome.bind_eq_ok.mp hopen
        have hne := ne_of_created hnew hcreate hopen
        rw [hopened _ (openNode_eq_self_iff hopen).1]
        constructor
        · rintro hsame ⟨hfull, -⟩
          exact hne (hsame hfull)
        · intro hnot hfull
          exact absurd ⟨hfull, hdir⟩ hnot
      · obtain ⟨rfl, rfl⟩ := Prod.mk.inj (Except.ok.inj hopen)
        exact iff_of_true (hdeclined rfl rfl) fun hand => hdir hand.2

end Open

/-! ### A full table -/

section Full

/-- The tree of `kyrofs_init`, with every descriptor of every thread in use. -/
def fullFds : FdState := ⟨smallTree, {1}, fun _ _ => some ⟨smallTree.root, 0, 0⟩⟩

/-- What `kmalloc` returns for a new file. -/
def fileNode : NewNode := ⟨(smallNode 8).dirent, 0x9000, some fun _ => 0⟩

/-- `/a`, which leads nowhere. -/
def newPath : CString := cstring ['/', 'a']

/-- Without `O_CREAT`, an open of `/a` fails and changes nothing. -/
theorem sysOpen_failed_newPath : ∃ rax s',
    fullFds.sysOpenAt 1 (BitVec.ofNat 64 (2 ^ 63)) 0x1000 fileNode newPath 0 = .ok (s', rax) ∧
      (rax = minusOne → s' = fullFds) := by
  obtain ⟨s', hok⟩ : ∃ s', fullFds.sysOpenAt 1 (BitVec.ofNat 64 (2 ^ 63)) 0x1000 fileNode
      newPath 0 = .ok (s', minusOne) := ⟨_, rfl⟩
  refine ⟨_, s', hok, (sysOpen_failed_iff smallTree_tree (by decide) hok).mpr (.inr (.inr ?_))⟩
  have htarget : PathCall.target fullFds.fs (copyPath newPath) (.open 0 fileNode) = none := by
    decide
  rw [ChangesFirst, htarget]
  exact not_false

/-- With `O_CREAT`, it fails and leaves a file behind. -/
theorem not_sysOpen_failed : ¬ ∀ (s s' : FdState) (t hhdm userPtr rax : Word) (new : NewNode)
    (path : CString) (flags : BitVec 32), s.fs.Tree → new.dirent ∉ s.fs.live →
      s.sysOpenAt t hhdm userPtr new path flags = .ok (s', rax) → rax = minusOne → s' = s := by
  intro hall
  obtain ⟨s', hok⟩ : ∃ s', fullFds.sysOpenAt 1 (BitVec.ofNat 64 (2 ^ 63)) 0x1000 fileNode
      newPath oCreat = .ok (s', minusOne) := ⟨_, rfl⟩
  have hsame := hall _ _ _ _ _ _ _ _ _ smallTree_tree (by decide) hok rfl
  rcases (sysOpen_failed_iff smallTree_tree (by decide) hok).mp fun _ => hsame with
    hkernel | hfree | hnot
  · exact absurd hkernel (by decide)
  · exact hfree (by decide)
  · have htarget : PathCall.target fullFds.fs (copyPath newPath) (.open oCreat fileNode) =
        some (.entry smallTree.root (cstring ['a'])) := by decide
    rw [ChangesFirst, htarget] at hnot
    exact hnot smallTree_tree.rootDirectory

end Full

end KyroOS.Vfs

import KyroOS.Coreutils.Copy
import KyroOS.Coreutils.Opened

/-!
# A copy that does not come back

`copy_recursive` finds the next entry of its source by its place among the children. When the
destination is the source under another path, each turn creates a directory in front of them, and
the entry that was copied is the next one again.

## Main definitions

* `Fresh` — the nodes that the next calls get are new
* `Supplied` — every call gets the blocks it asks for
* `Growing` — the root, while it is copied to itself

## Main results

* `Growing.step` — a turn creates another directory in the root
* `Growing.loop` — the turns do not come to an end
* `not_terminates_root` — a copy of the root to itself does not come back
-/

namespace KyroOS.Coreutils

open Vfs Packages

/-- The nodes that the next calls get are new, and no two of them are the same. -/
structure Fresh (calls : ℕ) (sh : Shell) : Prop where
  new : ∀ k < calls, (sh.nodes k).dirent ∉ sh.files.fs.live
  distinct : ∀ j k, j < k → k < calls → (sh.nodes j).dirent ≠ (sh.nodes k).dirent

/-- Every call gets the blocks it asks for, and every write stores its bytes. -/
structure Supplied (sh : Shell) : Prop where
  fresh : Fresh (2 ^ 40) sh
  nodes : ∀ k, (sh.nodes k).dirent ≠ 0 ∧ (sh.nodes k).content ≠ 0 ∧ (sh.nodes k).buffer.isSome
  writes : ∀ k, (sh.writes k).stored = some 1024 ∧ (sh.writes k).block.isSome

/-- `/` -/
def rootPath : CString := cstring ['/']

/-- `/.` -/
def rootDot : CString := cstring ['/', '.']

/-- `dev` -/
def dev : CString := cstring ['d', 'e', 'v']

/-- The root is copied to itself, and the entry at the index is one of its `dev`. The first `dev` is
a directory. -/
structure Growing (t : Word) (i : Fin maxFiles) (index : ℕ) (sh : Shell) : Prop where
  tree : sh.files.fs.Tree
  fresh : Fresh (2 * (intMax - index)) sh
  entry : ∃ entry, sh.files.fds t i = some entry ∧ entry.node = sh.files.fs.root
  free : ∃ j, sh.files.fds t j = none
  first : ∃ c, sh.files.fs.childNamed sh.files.fs.root dev = some c ∧
    (sh.files.fs.node c).flags = vfsDirectory
  next : (sh.files.fs.names sh.files.fs.root)[index]? = some dev

/-- A new directory in the root. -/
def rootEntry (fs : Kyrofs) (name : CString) : Dirent :=
  ⟨name, vfsDirectory, 0, .dirents [], fs.root⟩

section Calls

variable {t n c : Word} {sh sh' : Shell} {fs : Kyrofs} {path name : CString} {fd : BitVec 32}
  {res : Int} {i : Fin maxFiles} {b : ℕ}

/-! ### Calls -/

/-- The nodes are new after some calls, of which the first one takes its node. -/
theorem Fresh.after {a : ℕ} (h : Fresh (b + (a + 1)) sh)
    (hnodes : sh'.nodes = fun k => sh.nodes (k + (a + 1)))
    (hlive : sh'.files.fs.live = insert (sh.nodes 0).dirent sh.files.fs.live) : Fresh b sh' where
  new k hk := by
    rw [hnodes, hlive, Finset.mem_insert, not_or]
    exact ⟨(h.distinct 0 (k + (a + 1)) (by omega) (by omega)).symm, h.new _ (by omega)⟩
  distinct j k hjk hk := by
    rw [hnodes]
    exact h.distinct _ _ (by omega) (by omega)

theorem Fresh.mono {a : ℕ} (h : Fresh b sh) (hle : a ≤ b) : Fresh a sh where
  new k hk := h.new k (hk.trans_le hle)
  distinct j k hjk hk := h.distinct j k hjk (hk.trans_le hle)

theorem freeFd_ne_none (hfree : ∃ j, sh.files.fds t j = none) : freeFd (sh.files.fds t) ≠ none := by
  obtain ⟨j, hj⟩ := hfree
  intro hnone
  have hall := List.find?_eq_none.mp hnone j (List.mem_finRange j)
  rw [hj] at hall
  exact hall rfl

theorem links_root (htree : fs.Tree) (hnew : c ∉ fs.live) : fs.Links c (rootEntry fs name) :=
  ⟨htree, hnew, htree.root, htree.rootDirectory⟩

theorem tree_link_root (htree : fs.Tree) (hnew : c ∉ fs.live) :
    (fs.link c (rootEntry fs name)).Tree :=
  htree.edit (.link hnew htree.root htree.rootDirectory.2 rfl)

/-- The new directory is in front of the others. -/
theorem names_link_root (htree : fs.Tree) (hnew : c ∉ fs.live) :
    (fs.link c (rootEntry fs name)).names fs.root = name :: fs.names fs.root :=
  (Kyrofs.names_link htree hnew htree.root htree.rootDirectory.2 htree.root).trans (if_pos rfl)

/-- The type of a directory. -/
theorem stat_directory (hpath : fs.resolve fs.root (copyPath path) = some n)
    (hflags : (fs.node n).flags = vfsDirectory) :
    ∃ st, stat fs path = some st ∧ ¬ sIsreg st.stMode ∧ sIsdir st.stMode := by
  have hmode : (kyrofsStat (fs.node n)).stMode = sIfdir ||| 0o755 := by
    rw [kyrofsStat, Dirent.has, Dirent.has, hflags]
    rfl
  refine ⟨kyrofsStat (fs.node n), ?_, ?_, ?_⟩
  · rw [stat, hpath]
    rfl
  · rw [hmode]
    decide
  · rw [hmode]
    decide

/-- A `mkdir` in the root that comes back. -/
theorem mkdir_root
    (hparent : vfsParent (vfsFinddir sh.files.fs) (fun n => (sh.files.fs.node n).has vfsDirectory)
      sh.files.fs.root (copyPath path) = some (sh.files.fs.root, name))
    (htree : sh.files.fs.Tree) (hok : sh.mkdir path = .ok (sh', res)) :
    res = 0 ∧ sh'.files.fds = sh.files.fds ∧ (sh'.nodes = fun k => sh.nodes (k + 1)) ∧
      sh'.files.fs = sh.files.fs.link (sh.nodes 0).dirent (rootEntry sh.files.fs name) := by
  obtain ⟨⟨fs', res'⟩, hmkdir, hret⟩ := Outcome.bind_eq_ok.mp hok
  obtain ⟨rfl, rfl⟩ := Prod.mk.inj (Except.ok.inj hret)
  rcases callInParent_cases hmkdir with ⟨-, hnone⟩ | ⟨n, name', hsome, hcreate⟩
  · exact absurd htree.rootDirectory.2 (hnone _ _ hparent)
  · obtain ⟨rfl, rfl⟩ := Prod.mk.inj (Option.some.inj (hparent.symm.trans hsome))
    obtain ⟨ptr, hptr, -, rfl, rfl⟩ := createNode_link hcreate
    have hdir : ¬(vfsDirectory &&& vfsFile ≠ 0) := by decide
    rw [newPtr, if_neg hdir] at hptr
    obtain rfl := Except.ok.inj hptr
    exact ⟨rfl, rfl, rfl, rfl⟩

/-- An open for reading that comes back, when a descriptor is free. -/
theorem open_found (hpath : sh.files.fs.resolve sh.files.fs.root (copyPath path) = some n)
    (hfree : ∃ j, sh.files.fds t j = none) (hok : sh.openFile t path oRdonly = .ok (sh', fd)) :
    sh'.files.fs = sh.files.fs ∧ (sh'.nodes = fun k => sh.nodes (k + 1)) ∧
      ∃ i, sh.files.fds t i = none ∧ fd = BitVec.ofNat 32 (i : ℕ) ∧
        sh'.files.fds t = Function.update (sh.files.fds t) i (some ⟨n, 0, oRdonly⟩) := by
  obtain ⟨-, res, hsys, hcases⟩ := open_cases hok
  obtain ⟨hfs, rfl⟩ := sysOpen_rdonly hpath hsys
  refine ⟨hfs, open_nodes hok, ?_⟩
  rcases hcases with ⟨-, -, hnone⟩ | ⟨i, m, offset, hm, hi, hfd, hoffset, hfiles⟩
  · rcases hnone with hnone | hnone
    · cases hnone
    · exact absurd hnone (freeFd_ne_none hfree)
  · obtain rfl := Option.some.inj hm
    obtain rfl := hoffset (by decide)
    refine ⟨i, hi, hfd, ?_⟩
    rw [hfiles]
    exact Function.update_self ..

/-- The entry of a directory that is open. -/
theorem readdir_open {entry : FdEntry} {index : ℕ} (hi : sh.files.fds t i = some entry)
    (hlive : entry.node ∈ sh.files.fs.live) (hdir : sh.files.fs.IsDirectory entry.node)
    (hindex : index < intMax) :
    sh.readdir t (BitVec.ofNat 32 (i : ℕ)) index =
      .ok (((sh.files.fs.names entry.node)[index]?).map fun name => ⟨name, 0⟩) := by
  have hmax : intMax < 2 ^ 32 := by decide
  rw [Shell.readdir, openFile_fd hi, if_pos hlive]
  show Except.ok (vfsReaddir sh.files.fs entry.node (BitVec.ofNat 32 index)) = _
  rw [vfsReaddir_eq, Vfs.listing, if_pos hdir, BitVec.toNat_ofNat,
    Nat.mod_eq_of_lt (hindex.trans hmax)]

end Calls

/-! ### A turn -/

section Turn

variable {t c : Word} {sh sh' : Shell} {fs : Kyrofs} {each : Shell → CString → CString →
  Outcome (Shell × Int)} {src dest name : CString} {res : Int} {i : Fin maxFiles}
  {index turns n : ℕ}

theorem resolve_dev (htree : fs.Tree) (hfirst : fs.childNamed fs.root dev = some c) :
    fs.resolve fs.root (copyPath (rootPath ++ slash :: dev)) = some c := by
  have hparts : pathComponents (copyPath (rootPath ++ slash :: dev)) = [dev] := by decide
  have hproper : dev ≠ cstring ['.'] ∧ dev ≠ cstring ['.', '.'] := by decide
  rw [Kyrofs.resolve, vfsResolvePath, hparts, List.foldlM_cons, vfsFinddir,
    if_pos htree.rootDirectory, kyrofsFinddir, if_neg hproper.1, if_neg hproper.2, hfirst]
  rfl

/-- The directory in which a turn creates its destination is the root. -/
theorem parent_dev (htree : fs.Tree) :
    vfsParent (vfsFinddir fs) (fun n => (fs.node n).has vfsDirectory) fs.root
      (copyPath (rootDot ++ slash :: dev)) = some (fs.root, dev) := by
  have hsplit : splitLast (copyPath (rootDot ++ slash :: dev)) = some (rootDot, dev) := by decide
  have hparts : pathComponents rootDot = [cstring ['.']] := by decide
  have hroot : vfsResolvePath (vfsFinddir fs) fs.root rootDot = some fs.root := by
    rw [vfsResolvePath, hparts, List.foldlM_cons, vfsFinddir, if_pos htree.rootDirectory,
      kyrofsFinddir, if_pos rfl]
    rfl
  rw [vfsParent, hsplit]
  show ((vfsResolvePath (vfsFinddir fs) fs.root rootDot).filter _).map _ = _
  rw [hroot, Option.filter_some, if_pos htree.rootDirectory.1]
  rfl

/-- An entry that the loop skips. -/
theorem forEntries_dots {fd : BitVec 32} (hindex : index < intMax) (hdots : isDots name)
    (hread : sh.readdir t fd index = .ok (some ⟨name, 0⟩)) :
    forEntries t each fd src dest (n + 1) index sh =
      forEntries t each fd src dest n (index + 1) sh := by
  rw [forEntries, if_neg (Nat.not_le_of_lt hindex), hread]
  exact if_pos hdots

/-- An entry that the loop copies. -/
theorem forEntries_entry {fd : BitVec 32} (hindex : index < intMax) (hdots : ¬ isDots name)
    (hfits : ¬(entryPathSize ≤ (src ++ slash :: name).length ∨
      entryPathSize ≤ (dest ++ slash :: name).length))
    (hread : sh.readdir t fd index = .ok (some ⟨name, 0⟩)) :
    forEntries t each fd src dest (n + 1) index sh = (do
      let (sh, res) ← each sh (src ++ slash :: name) (dest ++ slash :: name)
      if res ≠ 0 then .ok (sh.close t fd, -1)
      else forEntries t each fd src dest n (index + 1) sh) := by
  rw [forEntries, if_neg (Nat.not_le_of_lt hindex), hread]
  exact (if_neg hdots).trans (if_neg hfits)

/-- The loop over a directory without children comes back at once. -/
theorem forEntries_empty {r : Shell × Int} (hi : sh.files.fds t i = some ⟨c, 0, oRdonly⟩)
    (hlive : c ∈ sh.files.fs.live) (hdir : sh.files.fs.IsDirectory c)
    (hempty : sh.files.fs.names c = [])
    (hok : forEntries t each (BitVec.ofNat 32 (i : ℕ)) src dest turns 0 sh = .ok r) :
    r = (sh.close t (BitVec.ofNat 32 (i : ℕ)), 0) := by
  cases turns with
  | zero => cases hok
  | succ turns =>
    have hpos : 0 < intMax := by decide
    rw [forEntries, if_neg (by decide), readdir_open hi hlive hdir hpos, hempty] at hok
    exact (Except.ok.inj hok).symm

/-- A turn creates another `dev` in front of the others, opens it and finds it empty. -/
theorem turn_dev (htree : sh.files.fs.Tree) (hnew : (sh.nodes 0).dirent ∉ sh.files.fs.live)
    (hfirst : sh.files.fs.childNamed sh.files.fs.root dev = some c)
    (hflags : (sh.files.fs.node c).flags = vfsDirectory) (hfree : ∃ j, sh.files.fds t j = none)
    (hok : copyRecursive (kernel t) t turns sh (rootPath ++ slash :: dev)
      (rootDot ++ slash :: dev) = .ok (sh', res)) :
    res = 0 ∧ sh'.files.fds t = sh.files.fds t ∧ (sh'.nodes = fun k => sh.nodes (k + 2)) ∧
      sh'.files.fs = sh.files.fs.link (sh.nodes 0).dirent (rootEntry sh.files.fs dev) := by
  cases turns with
  | zero => cases hok
  | succ turns =>
    obtain ⟨st, hstat, hreg, hdir⟩ := stat_directory (resolve_dev htree hfirst) hflags
    rw [copyRecursive_directory hstat hreg hdir] at hok
    obtain ⟨⟨sh₁, ret⟩, hmkdir, hok₁⟩ := Outcome.bind_eq_ok.mp hok
    obtain ⟨rfl, hfds₁, hnodes₁, hfs₁⟩ := mkdir_root (parent_dev htree) htree hmkdir
    dsimp only at hok₁
    rw [if_neg (by decide)] at hok₁
    obtain ⟨⟨sh₂, fd⟩, hopen, hok₂⟩ := Outcome.bind_eq_ok.mp hok₁
    -- the path leads to the new directory
    have hlinks : sh.files.fs.Links (sh.nodes 0).dirent (rootEntry sh.files.fs dev) :=
      links_root htree hnew
    have hfirst₁ : sh₁.files.fs.childNamed sh₁.files.fs.root dev = some (sh.nodes 0).dirent := by
      rw [hfs₁]
      exact (hlinks.childNamed htree.root).trans (if_pos ⟨rfl, rfl⟩)
    have htree₁ : sh₁.files.fs.Tree := by
      rw [hfs₁]
      exact tree_link_root htree hnew
    obtain ⟨hfs₂, hnodes₂, i, hi, rfl, hfds₂⟩ :=
      open_found (resolve_dev htree₁ hfirst₁) (hfds₁ ▸ hfree) hopen
    dsimp only at hok₂
    rw [if_neg (not_fd_neg i)] at hok₂
    have hnode : sh₂.files.fs.node (sh.nodes 0).dirent = rootEntry sh.files.fs dev := by
      rw [hfs₂, hfs₁]
      exact Kyrofs.link_node_new hlinks.ne
    have hentry : sh₂.files.fds t i = some ⟨(sh.nodes 0).dirent, 0, oRdonly⟩ := by
      rw [hfds₂, Function.update_self]
    have hlive : (sh.nodes 0).dirent ∈ sh₂.files.fs.live := by
      rw [hfs₂, hfs₁]
      exact Finset.mem_insert_self ..
    have hdir : sh₂.files.fs.IsDirectory (sh.nodes 0).dirent := by
      rw [Kyrofs.IsDirectory, hnode]
      exact ⟨decide_eq_true (by decide : vfsDirectory &&& vfsDirectory ≠ 0), rfl⟩
    have hempty : sh₂.files.fs.names (sh.nodes 0).dirent = [] := by
      rw [Kyrofs.names, Kyrofs.children, hnode]
      rfl
    obtain ⟨rfl, rfl⟩ := Prod.mk.inj (forEntries_empty hentry hlive hdir hempty hok₂)
    refine ⟨rfl, ?_, ?_, ?_⟩
    · rw [close_files]
      show Function.update sh₂.files.fds t (Function.update (sh₂.files.fds t) i none) t = _
      rw [Function.update_self, hfds₂, Function.update_idem, ← hi, Function.update_eq_self, hfds₁]
    · show sh₂.nodes = _
      rw [hnodes₂, hnodes₁]
    · rw [close_files]
      exact hfs₂.trans hfs₁

/-- The step lemma: the entry that was copied is the next one again. -/
theorem Growing.step (h : Growing t i index sh) (hindex : index < intMax)
    (hok : copyRecursive (kernel t) t turns sh (rootPath ++ slash :: dev)
      (rootDot ++ slash :: dev) = .ok (sh', res)) :
    res = 0 ∧ Growing t i (index + 1) sh' := by
  obtain ⟨c, hc, hflags⟩ := h.first
  obtain ⟨entry, hi, hentry⟩ := h.entry
  have hnew := h.fresh.new 0 (by omega)
  obtain ⟨rfl, hfds, hnodes, hfs⟩ := turn_dev h.tree hnew hc hflags h.free hok
  have hlinks : sh.files.fs.Links (sh.nodes 0).dirent (rootEntry sh.files.fs dev) :=
    links_root h.tree hnew
  have hroot : sh'.files.fs.root = sh.files.fs.root := by
    rw [hfs]
    rfl
  have hbudget : 2 * (intMax - index) = 2 * (intMax - (index + 1)) + (1 + 1) := by omega
  refine ⟨rfl, ?_, ?_, ⟨entry, ?_, ?_⟩, ?_, ⟨(sh.nodes 0).dirent, ?_, ?_⟩, ?_⟩
  · rw [hfs]
    exact tree_link_root h.tree hnew
  · refine (hbudget ▸ h.fresh).after hnodes ?_
    rw [hfs]
    rfl
  · rw [hfds, hi]
  · rw [hroot, hentry]
  · rw [hfds]
    exact h.free
  · rw [hfs]
    exact (hlinks.childNamed h.tree.root).trans (if_pos ⟨rfl, rfl⟩)
  · rw [hfs, Kyrofs.link_node_new hlinks.ne]
    rfl
  · rw [hroot, hfs, names_link_root h.tree hnew, List.getElem?_cons_succ]
    exact h.next

/-- The loop lemma: no number of turns is enough. -/
theorem Growing.loop (h : Growing t i index sh) (r : Shell × Int) :
    forEntries t (copyRecursive (kernel t) t turns) (BitVec.ofNat 32 (i : ℕ)) rootPath rootDot n
      index sh ≠ .ok r := by
  intro hok
  induction n generalizing index sh with
  | zero => cases hok
  | succ n ih =>
    by_cases hindex : index < intMax
    · obtain ⟨entry, hi, hentry⟩ := h.entry
      have hread := readdir_open hi (hentry ▸ h.tree.root) (hentry ▸ h.tree.rootDirectory) hindex
      rw [hentry, h.next] at hread
      rw [forEntries_entry hindex (by decide) (by decide) hread] at hok
      obtain ⟨⟨sh', res⟩, hcopy, hrest⟩ := Outcome.bind_eq_ok.mp hok
      obtain ⟨rfl, hgrowing⟩ := h.step hindex hcopy
      exact ih hgrowing hrest
    · -- `index++` overflows
      rw [forEntries, if_pos (Nat.le_of_not_lt hindex)] at hok
      cases hok

/-- The invariant holds behind the first entry, which is the `.` that the copy has created. -/
theorem growing_one (htree : sh.files.fs.Tree) (hfresh : Fresh (2 * intMax) sh)
    (hnames : (sh.files.fs.names sh.files.fs.root)[0]? = some dev)
    (hfirst : sh.files.fs.childNamed sh.files.fs.root dev = some c)
    (hflags : (sh.files.fs.node c).flags = vfsDirectory)
    (hfs : sh'.files.fs = sh.files.fs.link (sh.nodes 0).dirent
      (rootEntry sh.files.fs (cstring ['.'])))
    (hnodes : sh'.nodes = fun k => sh.nodes (k + 2))
    (hentry : sh'.files.fds t i = some ⟨sh.files.fs.root, 0, oRdonly⟩)
    (hfree : ∃ j, sh'.files.fds t j = none) : Growing t i 1 sh' := by
  have hpos : 0 < intMax := by decide
  have hnew := hfresh.new 0 (by omega)
  have hbudget : 2 * intMax = 2 * (intMax - 1) + (1 + 1) := by omega
  have hlinks : sh.files.fs.Links (sh.nodes 0).dirent (rootEntry sh.files.fs (cstring ['.'])) :=
    links_root htree hnew
  have hroot : sh'.files.fs.root = sh.files.fs.root := by
    rw [hfs]
    rfl
  have hlive : c ∈ sh.files.fs.live :=
    (htree.child _ htree.root c (Kyrofs.childNamed_eq_some hfirst).1).1
  have hdot : cstring ['.'] ≠ dev := by decide
  refine ⟨?_, ?_, ⟨_, hentry, hroot.symm⟩, hfree, ⟨c, ?_, ?_⟩, ?_⟩
  · rw [hfs]
    exact tree_link_root htree hnew
  · refine (hbudget ▸ hfresh).after hnodes ?_
    rw [hfs]
    rfl
  · rw [hroot, hfs, hlinks.childNamed htree.root, if_neg fun hand => hdot hand.2]
    exact hfirst
  · rw [hfs, (hlinks.same hlive).flags]
    exact hflags
  · rw [hroot, hfs, names_link_root htree hnew]
    exact hnames

theorem resolve_root (fs : Kyrofs) : fs.resolve fs.root (copyPath rootPath) = some fs.root := by
  have hparts : pathComponents (copyPath rootPath) = [] := by decide
  rw [Kyrofs.resolve, vfsResolvePath, hparts]
  rfl

theorem parent_dot (fs : Kyrofs) :
    vfsParent (vfsFinddir fs) (fun n => (fs.node n).has vfsDirectory) fs.root (copyPath rootDot) =
      some (fs.root, cstring ['.']) := by
  have hsplit : splitLast (copyPath rootDot) = some ([], cstring ['.']) := by decide
  rw [vfsParent, hsplit]

/-- A copy of `/` to `/.` does not come back, when the first entry of the root is the directory
`dev`. -/
theorem not_terminates_root (htree : sh.files.fs.Tree) (hfresh : Fresh (2 * intMax) sh)
    (hfree : ∃ i j, i ≠ j ∧ sh.files.fds t i = none ∧ sh.files.fds t j = none)
    (hnames : (sh.files.fs.names sh.files.fs.root)[0]? = some dev)
    (hroot : (sh.files.fs.node sh.files.fs.root).flags = vfsDirectory)
    (hfirst : sh.files.fs.childNamed sh.files.fs.root dev = some c)
    (hflags : (sh.files.fs.node c).flags = vfsDirectory) :
    ¬ Terminates t sh rootPath rootDot := by
  rintro ⟨turns, ⟨sh', res⟩, hok⟩
  obtain ⟨i₀, j₀, hij, hi₀, hj₀⟩ := hfree
  have hpos : 0 < intMax := by decide
  cases turns with
  | zero => cases hok
  | succ turns =>
    obtain ⟨st, hstat, hreg, hdir⟩ := stat_directory (resolve_root _) hroot
    rw [copyRecursive_directory hstat hreg hdir] at hok
    obtain ⟨⟨sh₁, ret⟩, hmkdir, hok₁⟩ := Outcome.bind_eq_ok.mp hok
    obtain ⟨rfl, hfds₁, hnodes₁, hfs₁⟩ := mkdir_root (parent_dot _) htree hmkdir
    dsimp only at hok₁
    rw [if_neg (by decide)] at hok₁
    obtain ⟨⟨sh₂, fd⟩, hopen, hok₂⟩ := Outcome.bind_eq_ok.mp hok₁
    rw [← hfds₁] at hi₀ hj₀
    obtain ⟨hfs₂, hnodes₂, i, hi, rfl, hfds₂⟩ := open_found (resolve_root _) ⟨i₀, hi₀⟩ hopen
    dsimp only at hok₂
    rw [if_neg (not_fd_neg i)] at hok₂
    have hfs := hfs₂.trans hfs₁
    have hentry : sh₂.files.fds t i = some ⟨sh.files.fs.root, 0, oRdonly⟩ := by
      rw [hfds₂, Function.update_self, hfs₁]
      rfl
    -- one of the two descriptors is still free
    have hfree : ∃ j, sh₂.files.fds t j = none := by
      by_cases heq : i₀ = i
      · exact ⟨j₀, by rw [hfds₂, Function.update_of_ne (heq ▸ hij.symm), hj₀]⟩
      · exact ⟨i₀, by rw [hfds₂, Function.update_of_ne heq, hi₀]⟩
    have hgrowing := growing_one htree hfresh hnames hfirst hflags hfs
      (by rw [hnodes₂, hnodes₁]) hentry hfree
    cases turns with
    | zero => cases hok₂
    | succ turns =>
      have hroot₂ : sh₂.files.fs.root = sh.files.fs.root := by
        rw [hfs]
        rfl
      have hread := readdir_open hentry (hroot₂ ▸ hgrowing.tree.root)
        (hroot₂ ▸ hgrowing.tree.rootDirectory) hpos
      rw [hfs, names_link_root htree (hfresh.new 0 (by omega))] at hread
      rw [forEntries_dots hpos (by decide) hread] at hok₂
      exact hgrowing.loop _ hok₂

end Turn

/-! ### A small tree -/

section Small

theorem toNat_smallShell {k : ℕ} (hk : k < 2 ^ 40) :
    (smallShell.nodes k).dirent.toNat = 0xB000 + 0x1000 * k := by
  show (BitVec.ofNat 64 (0xB000 + 0x1000 * (k % 2 ^ 40))).toNat = _
  rw [Nat.mod_eq_of_lt hk, BitVec.toNat_ofNat]
  omega

theorem supplied_smallShell : Supplied smallShell where
  fresh := by
    refine ⟨fun k hk hmem => ?_, fun j k hjk hk heq => ?_⟩
    · have hlast : smallTree.live.sup BitVec.toNat < 0xB000 := by decide
      have hle := Finset.le_sup (f := BitVec.toNat) hmem
      rw [toNat_smallShell hk] at hle
      exact absurd (hle.trans_lt hlast) (by omega)
    · have hnat := congrArg BitVec.toNat heq
      rw [toNat_smallShell (hjk.trans hk), toNat_smallShell hk] at hnat
      omega
  nodes k := by
    refine ⟨fun hzero => ?_, (by decide : (1 : Word) ≠ 0), rfl⟩
    have hnat := congrArg BitVec.toNat hzero
    have hlt := Nat.mod_lt k (Nat.two_pow_pos 40)
    change (BitVec.ofNat 64 (0xB000 + 0x1000 * (k % 2 ^ 40))).toNat = 0 at hnat
    rw [BitVec.toNat_ofNat] at hnat
    omega
  writes _ := ⟨rfl, rfl⟩

/-- `/` of the tree of `kyrofs_init` is copied to `/.`. -/
theorem not_terminates : ¬ ∀ t sh src dest, kyrofsSystem.Reachable sh.files.fs → Supplied sh →
    Terminates t sh src dest := by
  intro hall
  have hreach : kyrofsSystem.Reachable smallTree := .init smallTree_init
  have hfresh : Fresh (2 * intMax) smallShell := supplied_smallShell.fresh.mono (by decide)
  have hfirst : smallTree.childNamed smallTree.root dev = some 0x6000 := by decide
  have htree : smallTree.Tree := tree_of_reachable hreach
  have hterminates := hall 1 smallShell rootPath rootDot hreach supplied_smallShell
  exact not_terminates_root (c := 0x6000) htree hfresh ⟨0, 1, by decide, rfl, rfl⟩
    (by decide : (smallTree.names smallTree.root)[0]? = some dev)
    (by decide : (smallTree.node smallTree.root).flags = vfsDirectory) hfirst
    (by decide : (smallTree.node 0x6000).flags = vfsDirectory) hterminates

end Small

end KyroOS.Coreutils

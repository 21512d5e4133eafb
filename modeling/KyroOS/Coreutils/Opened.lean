import KyroOS.Coreutils.FileText

/-!
# Paths to files that are opened and removed

An open that truncates leads its path to the file it leaves, and every other path where it led. The
removal of a file takes the file away from its path, unless the path ends with a slash.

## Main definitions

* `Opened` — what an open that truncates leaves

## Main results

* `opened_of_sysOpen` — an open that returns a node
* `resolve_unlink` — the paths that do not lead to a file are left by its removal
* `sysUnlink_regular` — the removal of a file by path
-/

namespace KyroOS.Coreutils

open Vfs

/-- What an open that truncates leaves, when it opens `m`. -/
structure Opened (fs fs' : Kyrofs) (path : CString) (m : Word) : Prop where
  tree : fs'.Tree
  resolve : fs'.resolve fs'.root (copyPath path) = some m
  keeps : ∀ q x, fs.resolve fs.root q = some x → fs'.resolve fs'.root q = some x
  node : ∀ x ∈ fs.live, x ≠ m → ¬ (fs.node x).hasDirectoryOps → fs'.node x = fs.node x
  found : fs.resolve fs.root (copyPath path) = some m ∧ fs.Touch fs' ∨
    fs.resolve fs.root (copyPath path) = none ∧ m ∉ fs.live ∧ RegularFile fs' m
  stores : RegularFile fs' m → Stores (fs'.node m) []

section Walks

variable {fs fs' : Kyrofs} {n m p x : Word} {path name : CString}

/-! ### Paths after a change of a content -/

theorem finddir_touch (h : fs.Touch fs') (n : Word) :
    vfsFinddir fs' n name = vfsFinddir fs n name := by
  have hnames : ((fs.children n).find? fun c => (fs'.node c).name = name) =
      fs.childNamed n name := by
    apply List.find?_congr
    intro c _
    rw [(h.same c).name]
  rw [vfsFinddir, vfsFinddir, if_congr (Kyrofs.isDirectory_congr (h.same n)) rfl rfl, kyrofsFinddir,
    kyrofsFinddir, (h.same n).parent, Kyrofs.childNamed, h.children, hnames]

/-- A change of a content leaves every path. -/
theorem resolve_touch (h : fs.Touch fs') : fs'.resolve fs'.root path = fs.resolve fs.root path := by
  have hfind : vfsFinddir fs' = vfsFinddir fs := by
    funext n name
    exact finddir_touch h n
  rw [Kyrofs.resolve, Kyrofs.resolve, hfind, h.root]

/-! ### Paths after a removal -/

/-- What is found in a list is found without another of its elements. -/
theorem find?_erase_of_ne {l : List Word} {P : Word → Bool} (h : l.find? P = some x) (hne : x ≠ n) :
    (l.erase n).find? P = some x := by
  induction l with
  | nil => cases h
  | cons a rest ih =>
    rw [List.find?_cons] at h
    rw [List.erase_cons]
    cases ha : P a with
    | true =>
      rw [ha] at h
      obtain rfl := Option.some.inj h
      rw [if_neg (by simpa using hne), List.find?_cons, ha]
    | false =>
      rw [ha] at h
      split_ifs
      · exact h
      · rw [List.find?_cons, ha]
        exact ih h

/-- The look for a name that did not find a file finds what it found when the file is gone. -/
theorem finddir_unlink (hn : n ∈ fs.children p) (hfind : vfsFinddir fs m name = some x)
    (hne : x ≠ n) : vfsFinddir (fs.unlink p n) m name = some x := by
  have hsame : ∀ a, Kyrofs.Same (fs.node a) ((fs.unlink p n).node a) := fun a =>
    Kyrofs.unlink_same (Kyrofs.hasDirectoryOps_of_mem hn)
  rw [vfsFinddir] at hfind ⊢
  rw [if_congr (Kyrofs.isDirectory_congr (hsame m)) rfl rfl]
  split_ifs at hfind ⊢
  rw [kyrofsFinddir] at hfind ⊢
  rw [(hsame m).parent]
  split_ifs at hfind ⊢
  · exact hfind
  · exact hfind
  · exact hfind
  · have hnames : ∀ l : List Word, (l.find? fun c => ((fs.unlink p n).node c).name = name) =
        l.find? fun c => (fs.node c).name = name := by
      intro l
      apply List.find?_congr
      intro c _
      rw [(hsame c).name]
    rw [Kyrofs.childNamed, hnames, Kyrofs.children_unlink]
    split_ifs
    · exact find?_erase_of_ne hfind hne
    · exact hfind

/-- A file leads nowhere. -/
theorem finddir_of_file (hops : ¬ (fs.node n).hasDirectoryOps) : vfsFinddir fs n name = none :=
  if_neg fun hdir => hops hdir.2

/-- A path that does not lead to a file leads where it did when the file is gone. -/
theorem resolve_unlink (hn : n ∈ fs.children p) (hops : ¬ (fs.node n).hasDirectoryOps)
    (hpath : fs.resolve fs.root path = some x) (hne : x ≠ n) :
    (fs.unlink p n).resolve (fs.unlink p n).root path = some x := by
  show (pathComponents path).foldlM (vfsFinddir (fs.unlink p n)) fs.root = some x
  rw [Kyrofs.resolve, vfsResolvePath] at hpath
  generalize pathComponents path = names at hpath
  generalize fs.root = start at hpath
  induction names generalizing start with
  | nil => exact hpath
  | cons name rest ih =>
    rw [List.foldlM_cons] at hpath ⊢
    obtain ⟨next, hnext, hrest⟩ := Option.bind_eq_some_iff.mp hpath
    have hnot : next ≠ n := by
      rintro rfl
      cases rest with
      | nil => exact hne (Option.some.inj hrest).symm
      | cons name' rest =>
        rw [List.foldlM_cons, finddir_of_file hops] at hrest
        cases hrest
    rw [finddir_unlink hn hnext hnot]
    exact ih next hrest

/-! ### The removal of a file -/

/-- The node above another one has the operations of a directory. -/
theorem ops_of_parent (htree : fs.Tree) (h : fs.Attached n) :
    (fs.node (fs.node n).parent).hasDirectoryOps := by
  cases h with
  | root =>
    rw [htree.rootParent]
    exact htree.rootDirectory.2
  | child hn hc =>
    rw [(htree.child _ (hn.live htree) _ hc).2.2]
    exact Kyrofs.hasDirectoryOps_of_mem hc

/-- A file is found under its name only. -/
theorem finddir_file (htree : fs.Tree) (hp : fs.Attached p) (hops : ¬ (fs.node n).hasDirectoryOps)
    (hfind : vfsFinddir fs p name = some n) :
    fs.IsDirectory p ∧ fs.childNamed p name = some n := by
  rw [vfsFinddir] at hfind
  split_ifs at hfind with hdir
  rw [kyrofsFinddir] at hfind
  split_ifs at hfind
  · obtain rfl := Option.some.inj hfind
    exact absurd hdir.2 hops
  · obtain rfl := Option.some.inj hfind
    exact absurd (ops_of_parent htree hp) hops
  · obtain rfl := Option.some.inj hfind
    exact absurd hdir.2 hops
  · exact ⟨hdir, hfind⟩

/-- The calls that remove find a file in its directory, unless its path ends with a slash. -/
theorem entryTarget_file (htree : fs.Tree) (hops : ¬ (fs.node n).hasDirectoryOps)
    (hpath : fs.resolve fs.root path = some n) :
    path.getLast? = some slash ∧ (∀ q name, entryTarget fs path = some (q, name) →
      ¬ (fs.node q).hasDirectoryOps) ∨
    path.getLast? ≠ some slash ∧ ∃ name, entryTarget fs path = some ((fs.node n).parent, name) ∧
      fs.childNamed (fs.node n).parent name = some n := by
  have hroot : n ≠ fs.root := by
    rintro rfl
    exact hops htree.rootDirectory.2
  -- the child of a directory has it for its parent
  have hfound : ∀ {q : Word} {name : CString}, fs.Attached q → vfsFinddir fs q name = some n →
      fs.IsDirectory q ∧ fs.childNamed q name = some n ∧ (fs.node n).parent = q := by
    intro q name hq hfind
    obtain ⟨hdir, hchild⟩ := finddir_file htree hq hops hfind
    exact ⟨hdir, hchild,
      (htree.child q (hq.live htree) n (Kyrofs.childNamed_eq_some hchild).1).2.2⟩
  rw [entryTarget, vfsParent]
  cases hsplit : splitLast path with
  | none =>
    have hslash := splitLast_eq_none.mp hsplit
    rw [Kyrofs.resolve, vfsResolvePath, pathComponents_of_notMem hslash] at hpath
    refine .inr ⟨fun hlast => hslash (List.mem_of_getLast? hlast), path, ?_⟩
    split_ifs at hpath
    · exact absurd (Option.some.inj hpath).symm hroot
    · rw [List.foldlM_cons] at hpath
      obtain ⟨next, hfind, hnext⟩ := Option.bind_eq_some_iff.mp hpath
      obtain rfl := Option.some.inj hnext
      obtain ⟨-, hchild, hparent⟩ := hfound .root hfind
      rw [hparent]
      exact ⟨rfl, hchild⟩
  | some res =>
    obtain ⟨dir, last⟩ := res
    obtain ⟨rfl, hslash⟩ := splitLast_eq_some hsplit
    rw [Kyrofs.resolve, vfsResolvePath_eq_bind hslash] at hpath
    obtain ⟨q, hq, hlast⟩ := Option.bind_eq_some_iff.mp hpath
    have hattached : fs.Attached q := Kyrofs.attached_of_resolve htree hq
    split_ifs at hlast with hempty
    · obtain rfl := Option.some.inj hlast
      rw [hempty]
      refine .inl ⟨List.getLast?_concat .., fun q' name hsome => ?_⟩
      cases dir with
      | nil => exact absurd (Option.some.inj hq).symm hroot
      | cons c rest =>
        obtain ⟨q'', hq'', heq⟩ := Option.map_eq_some_iff.mp hsome
        obtain ⟨rfl, -⟩ := Prod.mk.inj heq
        obtain rfl := Option.some.inj (hq.symm.trans (Option.filter_eq_some_iff.mp hq'').1)
        exact hops
    · obtain ⟨hdir, hchild, hparent⟩ := hfound hattached hlast
      refine .inr ⟨?_, last, ?_, ?_⟩
      · intro hend
        rw [List.getLast?_append_of_ne_nil _ (List.cons_ne_nil _ _),
          List.getLast?_cons_of_ne_nil hempty] at hend
        exact hslash (List.mem_of_getLast? hend)
      · rw [hparent]
        cases dir with
        | nil =>
          obtain rfl := Option.some.inj hq
          rfl
        | cons c rest =>
          refine Option.map_eq_some_iff.mpr ⟨q, Option.filter_eq_some_iff.mpr ⟨hq, hdir.1⟩, rfl⟩
      · rw [hparent]
        exact hchild

theorem callInParent_entryTarget (op : Word → CString → Outcome (Kyrofs × Int)) :
    fs.callInParent fs.root path op = match entryTarget fs path with
      | none => .ok (fs, -1)
      | some (parent, name) =>
        if (fs.node parent).hasDirectoryOps then op parent name else .ok (fs, -1) := rfl

/-- The removal of a file by path. -/
theorem sysUnlink_regular (htree : fs.Tree) (hpath : fs.resolve fs.root (copyPath path) = some n)
    (hfile : RegularFile fs n) :
    (copyPath path).getLast? = some slash ∧ sysUnlink fs path = .ok (fs, -1) ∨
    (copyPath path).getLast? ≠ some slash ∧ n ∈ fs.children (fs.node n).parent ∧
      sysUnlink fs path = .ok (fs.unlink (fs.node n).parent n, 0) := by
  rw [sysUnlink, vfsRemove, callInParent_entryTarget]
  rcases entryTarget_file htree hfile.ops hpath with ⟨hend, hno⟩ | ⟨hend, name, htarget, hchild⟩
  · refine .inl ⟨hend, ?_⟩
    cases htarget : entryTarget fs (copyPath path) with
    | none => rfl
    | some res => exact if_neg (hno res.1 res.2 htarget)
  · obtain ⟨hmem, -⟩ := Kyrofs.childNamed_eq_some hchild
    have hdirectory : ¬ (fs.node n).has vfsDirectory := by
      rw [Dirent.has, hfile.flags]
      decide
    refine .inr ⟨hend, hmem, ?_⟩
    rw [htarget]
    dsimp only
    rw [if_pos (Kyrofs.hasDirectoryOps_of_mem hmem), kyrofsRemove, hchild]
    dsimp only
    rw [if_neg fun hand => hdirectory hand.1]

/-! ### An open that truncates -/

/-- A new file has the operations of one. -/
theorem newPtr_file {new : NewNode} {ptr : Ptr} (hok : newPtr new vfsFile = .ok ptr) :
    ∃ file, ptr = .content file := by
  have hfile : vfsFile &&& vfsFile ≠ 0 := by decide
  rw [newPtr, if_pos hfile] at hok
  split_ifs at hok
  cases hbuffer : new.buffer with
  | none =>
    rw [hbuffer] at hok
    cases hok
  | some junk =>
    rw [hbuffer] at hok
    exact ⟨_, (Except.ok.inj hok).symm⟩

/-- What the open of a node leaves of it. -/
theorem openNode_eq_ok {flags : BitVec 32} {res : Option Word}
    (hok : fs.openNode n flags = .ok (fs', res)) :
    ∃ d, kyrofsOpen (fs.node n) flags = .ok d ∧ fs' = fs.setNode n d := by
  obtain ⟨d, hopen, hret⟩ := Outcome.bind_eq_ok.mp hok
  exact ⟨d, hopen, (Prod.mk.inj (Except.ok.inj hret)).1.symm⟩

/-- The open of a regular file truncates it. -/
theorem stores_of_openNode {flags : BitVec 32} {res : Option Word} (htrunc : flags &&& oTrunc ≠ 0)
    (hok : fs.openNode n flags = .ok (fs', res)) (hfile : RegularFile fs' n) :
    Stores (fs'.node n) [] := by
  have hflags := ((openNode_touch hok).1.same n).flags
  obtain ⟨d, hopen, rfl⟩ := openNode_eq_ok hok
  rw [hfile.flags] at hflags
  rw [Kyrofs.node_setNode, if_pos rfl]
  exact stores_truncated hflags.symm htrunc hopen

/-- An open that returns a node has truncated it, and created it when its path led nowhere. -/
theorem opened_of_sysOpen {new : NewNode} {flags : BitVec 32} (htree : fs.Tree)
    (hnew : new.dirent ∉ fs.live) (hcreat : flags &&& oCreat ≠ 0) (htrunc : flags &&& oTrunc ≠ 0)
    (hok : sysOpen fs new path flags = .ok (fs', some m)) : Opened fs fs' path m := by
  rw [sysOpen_eq htree hnew, PathCall.target] at hok
  dsimp only at hok
  cases hpath : fs.resolve fs.root (copyPath path) with
  | some n =>
    rw [hpath] at hok
    obtain ⟨htouch, hm⟩ := openNode_touch hok
    obtain rfl := Option.some.inj hm
    refine ⟨htree.touch htouch, (resolve_touch htouch).trans hpath, fun q x hx => ?_,
      fun x _ hx _ => ?_, .inl ⟨hpath, htouch⟩, stores_of_openNode htrunc hok⟩
    · exact (resolve_touch htouch).trans hx
    · obtain ⟨d, -, rfl⟩ := openNode_eq_ok hok
      rw [Kyrofs.node_setNode, if_neg hx]
  | none =>
    rw [hpath] at hok
    dsimp only at hok
    rw [if_pos hcreat] at hok
    cases htarget : createTarget fs (copyPath path) with
    | none =>
      rw [htarget] at hok
      cases hok
    | some res =>
      obtain ⟨p, name⟩ := res
      rw [htarget] at hok
      dsimp only [Option.map_some] at hok
      split_ifs at hok with hdir
      · obtain ⟨⟨fs₁, r⟩, hcreate, hopen⟩ := Outcome.bind_eq_ok.mp hok
        dsimp only at hopen
        have hresolve := resolve_created htree hnew hpath htarget hdir hcreate
        obtain ⟨-, hfresh⟩ := notMem_names_of_resolve_eq_none hpath htarget.symm rfl
        obtain ⟨htouch, hm⟩ := openNode_touch hopen
        obtain rfl := Option.some.inj hm
        obtain ⟨ptr, hptr, -, rfl, -⟩ := createNode_link hcreate
        obtain ⟨-, dir, hp, -⟩ := createTarget_components htarget
        have hlive := (Kyrofs.attached_of_resolve htree hp).live htree
        have hlinks : fs.Links new.dirent ⟨name, vfsFile, 0, ptr, p⟩ := ⟨htree, hnew, hlive, hdir⟩
        have hnode : (fs.link new.dirent ⟨name, vfsFile, 0, ptr, p⟩).node new.dirent =
            ⟨name, vfsFile, 0, ptr, p⟩ := Kyrofs.link_node_new hlinks.ne
        have hfile : RegularFile (fs.link new.dirent ⟨name, vfsFile, 0, ptr, p⟩) new.dirent := by
          obtain ⟨file, rfl⟩ := newPtr_file hptr
          refine ⟨?_, ?_⟩
          · rw [hnode]
          · rw [hnode]
            exact Bool.false_ne_true
        refine ⟨?_, (resolve_touch htouch).trans hresolve, fun q x hx => ?_, fun x hx hne hops => ?_,
          .inr ⟨hpath, hnew, hfile.same (htouch.same _)⟩, stores_of_openNode htrunc hopen⟩
        · exact (htree.edit (.link hnew hlive hdir.2 (newPtr_children hptr))).touch htouch
        · rw [resolve_touch htouch]
          rcases hlinks.foldlM (hfresh hdir) .root with heq | ⟨hnone, -⟩
          · exact heq.trans hx
          · exact absurd (hx.symm.trans hnone) (by simp)
        · obtain ⟨d, -, rfl⟩ := openNode_eq_ok hopen
          have hxp : x ≠ p := by
            rintro rfl
            exact hops hdir.2
          rw [Kyrofs.node_setNode, if_neg hne, Kyrofs.link_node_of_ne hne hxp]
      · cases hok

/-- An open for reading changes nothing. -/
theorem sysOpen_rdonly {new : NewNode} {res : Option Word}
    (hpath : fs.resolve fs.root (copyPath path) = some n)
    (hok : sysOpen fs new path oRdonly = .ok (fs', res)) : fs' = fs ∧ res = some n := by
  have hkeep : ¬(oRdonly &&& oTrunc ≠ 0) := by decide
  rw [sysOpen] at hok
  dsimp only at hok
  rw [hpath] at hok
  obtain ⟨-, hres⟩ := openNode_touch hok
  obtain ⟨d, hopen, rfl⟩ := openNode_eq_ok hok
  rw [kyrofsOpen, if_neg fun hand => hkeep hand.2] at hopen
  obtain rfl := Except.ok.inj hopen
  refine ⟨?_, hres⟩
  rw [Kyrofs.setNode, Function.update_eq_self]

end Walks

end KyroOS.Coreutils

import KyroOS.Vfs.Kyrofs

/-!
# The tree of a KyroFS

Every call changes the tree in at most one place, by linking a new node or unlinking a child, and
otherwise only the content of a file. What these changes preserve is shown here once.

## Main definitions

* `Kyrofs.Tree` — children are live, and point back to their parent
* `Kyrofs.Edit`, `Kyrofs.Touch` — the changes
* `Kyrofs.UniqueNames` — no directory has two children of one name
* `Kyrofs.At` — the objects of the tree by the names on the way to them

## Main results

* `Kyrofs.Tree.edit` — an edit keeps the tree
* `Kyrofs.UniqueNames.edit` — names stay unique exactly when the new name is
* `Kyrofs.At.resolve` — with unique names, a path leads to its object
-/

namespace KyroOS.Vfs

namespace Kyrofs

variable {fs fs' : Kyrofs} {n m c p : Word} {d : Dirent} {name : CString}

/-! ### Nodes after an edit -/

theorem node_setNode : (fs.setNode n d).node m = if m = n then d else fs.node m :=
  Function.update_apply ..

theorem link_node_new (h : c ≠ d.parent) : (fs.link c d).node c = d := by
  show ((fs.setNode c d).setNode d.parent _).node c = d
  rw [node_setNode, if_neg h, node_setNode, if_pos rfl]

theorem link_node_parent (h : c ≠ d.parent) : (fs.link c d).node d.parent =
    { fs.node d.parent with ptr := .dirents (c :: fs.children d.parent) } := by
  have hparent : (fs.setNode c d).node d.parent = fs.node d.parent := by
    rw [node_setNode, if_neg h.symm]
  show ((fs.setNode c d).setNode d.parent _).node d.parent = _
  rw [node_setNode, if_pos rfl, hparent, Kyrofs.children, hparent]
  rfl

theorem link_node_of_ne (hm : m ≠ c) (hp : m ≠ d.parent) : (fs.link c d).node m = fs.node m := by
  show ((fs.setNode c d).setNode d.parent _).node m = _
  rw [node_setNode, if_neg hp, node_setNode, if_neg hm]

theorem unlink_node : (fs.unlink n c).node m =
    if m = n then { fs.node n with ptr := .dirents ((fs.children n).erase c) } else fs.node m :=
  node_setNode

/-- What a node is, but for the content or the children it has. -/
structure Same (d d' : Dirent) : Prop where
  name : d'.name = d.name
  flags : d'.flags = d.flags
  parent : d'.parent = d.parent
  ops : d'.hasDirectoryOps = d.hasDirectoryOps

theorem Same.refl : Same d d := ⟨rfl, rfl, rfl, rfl⟩

theorem link_same (hops : (fs.node d.parent).hasDirectoryOps) (hc : c ≠ d.parent) (hm : m ≠ c) :
    Same (fs.node m) ((fs.link c d).node m) := by
  by_cases hp : m = d.parent
  · rw [hp, link_node_parent hc]
    exact ⟨rfl, rfl, rfl, hops.symm⟩
  · rw [link_node_of_ne hm hp]
    exact .refl

theorem unlink_same (hops : (fs.node n).hasDirectoryOps) :
    Same (fs.node m) ((fs.unlink n c).node m) := by
  rw [unlink_node]
  split_ifs with hm
  · rw [hm]
    exact ⟨rfl, rfl, rfl, hops.symm⟩
  · exact .refl

theorem isDirectory_congr (h : Same (fs.node n) (fs'.node n)) :
    fs'.IsDirectory n ↔ fs.IsDirectory n := by
  unfold IsDirectory Dirent.has
  rw [h.flags, h.ops]

theorem hasDirectoryOps_of_mem (h : c ∈ fs.children n) : (fs.node n).hasDirectoryOps := by
  unfold Kyrofs.children Dirent.children at h
  unfold Dirent.hasDirectoryOps
  split at h
  · cases h
  · rfl

theorem children_link (hc : c ≠ d.parent) : (fs.link c d).children m =
    if m = d.parent then c :: fs.children m else if m = c then d.children else fs.children m := by
  unfold Kyrofs.children
  split_ifs with hp hm
  · rw [hp, link_node_parent hc]
    rfl
  · rw [hm, link_node_new hc]
  · rw [link_node_of_ne hm hp]

theorem children_unlink : (fs.unlink n c).children m =
    if m = n then (fs.children m).erase c else fs.children m := by
  unfold Kyrofs.children
  rw [unlink_node]
  split_ifs with hm
  · rw [hm]
    rfl
  · rfl

theorem childNamed_eq_some (h : fs.childNamed n name = some c) :
    c ∈ fs.children n ∧ (fs.node c).name = name := by
  have hname := List.find?_some h
  exact ⟨List.mem_of_find?_eq_some h, of_decide_eq_true hname⟩

theorem childNamed_eq_none : fs.childNamed n name = none ↔ name ∉ fs.names n := by
  rw [childNamed, List.find?_eq_none, names, List.mem_map]
  constructor
  · rintro hnone ⟨c, hc, hname⟩
    exact hnone c hc (by exact decide_eq_true hname)
  · intro hnot c hc hname
    exact hnot ⟨c, hc, of_decide_eq_true hname⟩

/-! ### The tree -/

/-- Children are live, point back to their parent, and are listed once. -/
structure Tree (fs : Kyrofs) : Prop where
  root : fs.root ∈ fs.live
  rootDirectory : fs.IsDirectory fs.root
  rootParent : (fs.node fs.root).parent = fs.root
  child : ∀ d ∈ fs.live, ∀ c ∈ fs.children d,
    c ∈ fs.live ∧ c ≠ fs.root ∧ (fs.node c).parent = d
  nodup : ∀ d ∈ fs.live, (fs.children d).Nodup

/-- The nodes below the root. -/
inductive Attached (fs : Kyrofs) : Word → Prop
  | root : Attached fs fs.root
  | child {n c : Word} (hn : Attached fs n) (hc : c ∈ fs.children n) : Attached fs c

theorem Attached.live (htree : fs.Tree) (h : fs.Attached n) : n ∈ fs.live := by
  induction h with
  | root => exact htree.root
  | child _ hc ih => exact (htree.child _ ih _ hc).1

theorem Attached.parent (htree : fs.Tree) (h : fs.Attached n) :
    fs.Attached (fs.node n).parent := by
  cases h with
  | root => exact htree.rootParent.symm ▸ .root
  | child hn hc => exact (htree.child _ (hn.live htree) _ hc).2.2.symm ▸ hn

theorem Attached.finddir (htree : fs.Tree) (h : fs.Attached n)
    (hm : vfsFinddir fs n name = some m) : fs.Attached m := by
  rw [vfsFinddir] at hm
  split_ifs at hm with hdir
  rw [kyrofsFinddir] at hm
  split_ifs at hm with hdot hdotdot hparent
  · exact Option.some.inj hm ▸ h
  · exact Option.some.inj hm ▸ h.parent htree
  · exact Option.some.inj hm ▸ h
  · exact .child h (childNamed_eq_some hm).1

theorem attached_of_resolve (htree : fs.Tree) {path : CString}
    (h : fs.resolve fs.root path = some n) : fs.Attached n :=
  vfsResolvePath_mem .root (fun _ _ _ hm hfind => hm.finddir htree hfind) h

theorem attached_of_vfsParent (htree : fs.Tree) {path : CString} {isDirectory : Word → Bool}
    (h : vfsParent (vfsFinddir fs) isDirectory fs.root path = some (n, name)) :
    fs.Attached n := by
  rcases vfsParent_eq_some h with rfl | ⟨-, dir, hdir⟩
  · exact .root
  · exact attached_of_resolve htree hdir

/-! ### Edits -/

/-- The change of the tree in a call: none, a new node under a given name, or a child less. -/
inductive Edit (fs : Kyrofs) : Option (Word × CString) → Kyrofs → Prop
  | keep : Edit fs none fs
  | link {c : Word} {d : Dirent} (hc : c ∉ fs.live) (hparent : d.parent ∈ fs.live)
    (hops : (fs.node d.parent).hasDirectoryOps) (hempty : d.children = []) :
    Edit fs (some (d.parent, d.name)) (fs.link c d)
  | unlink {n c : Word} (hn : n ∈ fs.live) (hc : c ∈ fs.children n) :
    Edit fs none (fs.unlink n c)

/-- The change of a file's content. -/
structure Touch (fs fs' : Kyrofs) : Prop where
  root : fs'.root = fs.root
  live : fs'.live = fs.live
  same : ∀ n, Same (fs.node n) (fs'.node n)
  children : ∀ n, fs'.children n = fs.children n

theorem Touch.refl : Touch fs fs := ⟨rfl, rfl, fun _ => .refl, fun _ => rfl⟩

/-- The node `new` of an edit is not a live one. -/
theorem ne_of_notMem {s : Finset Word} (hc : c ∉ s) (hn : n ∈ s) : c ≠ n :=
  fun heq => hc (heq ▸ hn)

theorem Tree.edit {target : Option (Word × CString)} (htree : fs.Tree)
    (h : Edit fs target fs') : fs'.Tree := by
  cases h with
  | keep => exact htree
  | @link c d hc hparent hops hempty =>
    have hne := ne_of_notMem hc hparent
    have hroot := ne_of_notMem hc htree.root
    have hsame : ∀ m ∈ fs.live, Same (fs.node m) ((fs.link c d).node m) :=
      fun m hm => link_same hops hne (ne_of_notMem hc hm).symm
    refine ⟨Finset.mem_insert_of_mem htree.root,
      (isDirectory_congr (hsame _ htree.root)).mpr htree.rootDirectory,
      (hsame _ htree.root).parent.trans htree.rootParent, ?_, ?_⟩
    · intro n hn m hm
      rw [children_link hne] at hm
      have hold : n ∈ fs.live → m ∈ fs.children n →
          m ∈ (fs.link c d).live ∧ m ≠ fs.root ∧ ((fs.link c d).node m).parent = n := by
        intro hn hm
        obtain ⟨hlive, hmroot, hmparent⟩ := htree.child n hn m hm
        exact ⟨Finset.mem_insert_of_mem hlive, hmroot, (hsame m hlive).parent.trans hmparent⟩
      split_ifs at hm with hp hnew
      · rcases List.mem_cons.mp hm with rfl | hm
        · exact ⟨Finset.mem_insert_self _ _, hroot, by rw [link_node_new hne, hp]⟩
        · exact hold (hp ▸ hparent) hm
      · rw [hempty] at hm
        cases hm
      · exact hold ((Finset.mem_insert.mp hn).resolve_left hnew) hm
    · intro n hn
      rw [children_link hne]
      split_ifs with hp hnew
      · have hlive : n ∈ fs.live := hp ▸ hparent
        exact List.nodup_cons.mpr ⟨fun hmem => hc (htree.child n hlive c hmem).1,
          htree.nodup n hlive⟩
      · rw [hempty]
        exact List.nodup_nil
      · exact htree.nodup n ((Finset.mem_insert.mp hn).resolve_left hnew)
  | @unlink p c hp hc =>
    have hops := hasDirectoryOps_of_mem hc
    obtain ⟨hclive, hcroot, hcparent⟩ := htree.child p hp c hc
    have hsame : ∀ m, Same (fs.node m) ((fs.unlink p c).node m) := fun m => unlink_same hops
    refine ⟨Finset.mem_erase.mpr ⟨hcroot.symm, htree.root⟩,
      (isDirectory_congr (hsame _)).mpr htree.rootDirectory,
      (hsame _).parent.trans htree.rootParent, ?_, ?_⟩
    · intro n hn m hm
      have hnlive := Finset.mem_of_mem_erase hn
      rw [children_unlink] at hm
      have hmem : m ∈ fs.children n := by
        split_ifs at hm
        · exact List.mem_of_mem_erase hm
        · exact hm
      obtain ⟨hlive, hmroot, hmparent⟩ := htree.child n hnlive m hmem
      refine ⟨Finset.mem_erase.mpr ⟨?_, hlive⟩, hmroot, (hsame m).parent.trans hmparent⟩
      -- the child was in the list of its parent only, and there once
      rintro rfl
      obtain rfl : n = p := hmparent.symm.trans hcparent
      rw [if_pos rfl] at hm
      exact (htree.nodup n hp).not_mem_erase hm
    · intro n hn
      rw [children_unlink]
      split_ifs
      · exact (htree.nodup n (Finset.mem_of_mem_erase hn)).erase c
      · exact htree.nodup n (Finset.mem_of_mem_erase hn)

theorem Edit.root_eq {target : Option (Word × CString)} (h : Edit fs target fs') :
    fs'.root = fs.root := by
  cases h <;> rfl

/-- What an edit leaves of the nodes there were. -/
theorem Edit.same {target : Option (Word × CString)} (h : Edit fs target fs') (hm : m ∈ fs.live) :
    Same (fs.node m) (fs'.node m) := by
  cases h with
  | keep => exact .refl
  | link hc hparent hops hempty =>
    exact link_same hops (ne_of_notMem hc hparent) (ne_of_notMem hc hm).symm
  | unlink hn hc => exact unlink_same (hasDirectoryOps_of_mem hc)

theorem Attached.edit {target : Word × CString} (htree : fs.Tree) (h : fs.Attached m)
    (hedit : Edit fs (some target) fs') : fs'.Attached m := by
  induction h with
  | root => exact hedit.root_eq ▸ .root
  | @child n c hn hc ih =>
    refine .child ih ?_
    cases hedit with
    | link hnew hparent hops hempty =>
      rw [children_link (ne_of_notMem hnew hparent)]
      split_ifs with hp hn'
      · exact List.mem_cons_of_mem _ hc
      · exact absurd (hn' ▸ hn.live htree) hnew
      · exact hc

theorem Tree.touch (htree : fs.Tree) (h : Touch fs fs') : fs'.Tree := by
  refine ⟨by rw [h.root, h.live]; exact htree.root, ?_, ?_, ?_, ?_⟩
  · rw [h.root]
    exact (isDirectory_congr (h.same _)).mpr htree.rootDirectory
  · rw [h.root, (h.same _).parent, htree.rootParent]
  · intro d hd c hc
    rw [h.live] at hd ⊢
    rw [h.children] at hc
    obtain ⟨hlive, hroot, hparent⟩ := htree.child d hd c hc
    exact ⟨hlive, h.root ▸ hroot, (h.same c).parent.trans hparent⟩
  · intro d hd
    rw [h.children]
    exact htree.nodup d (h.live ▸ hd)

/-! ### Unique names -/

/-- No directory has two children of one name. -/
def UniqueNames (fs : Kyrofs) : Prop :=
  ∀ d ∈ fs.live, fs.IsDirectory d → (fs.names d).Nodup

/-- The directory has no child of that name yet. -/
def Fresh (fs : Kyrofs) (target : Option (Word × CString)) : Prop :=
  ∀ n name, target = some (n, name) → fs.IsDirectory n → name ∉ fs.names n

theorem names_congr (hchildren : fs'.children n = fs.children n)
    (hsame : ∀ m ∈ fs.children n, Same (fs.node m) (fs'.node m)) : fs'.names n = fs.names n := by
  rw [names, names, hchildren]
  exact List.map_congr_left fun m hm => (hsame m hm).name

theorem names_touch (h : Touch fs fs') : fs'.names n = fs.names n :=
  names_congr (h.children n) fun m _ => h.same m

theorem names_link (htree : fs.Tree) (hc : c ∉ fs.live) (hparent : d.parent ∈ fs.live)
    (hops : (fs.node d.parent).hasDirectoryOps) (hm : m ∈ fs.live) :
    (fs.link c d).names m = if m = d.parent then d.name :: fs.names m else fs.names m := by
  have hne := ne_of_notMem hc hparent
  have hold : (fs.children m).map (fun x => ((fs.link c d).node x).name) = fs.names m := by
    refine List.map_congr_left fun x hx => ?_
    exact (link_same hops hne (ne_of_notMem hc (htree.child m hm x hx).1).symm).name
  have hmc := (ne_of_notMem hc hm).symm
  rw [names, children_link hne]
  split_ifs with hp
  · rw [List.map_cons, hold, link_node_new hne]
  · exact hold

/-- Removing a child removes a name, and adding one adds one. -/
theorem UniqueNames.edit {target : Option (Word × CString)} (htree : fs.Tree)
    (hunique : fs.UniqueNames) (h : Edit fs target fs') :
    fs'.UniqueNames ↔ fs.Fresh target := by
  cases h with
  | keep => exact ⟨fun _ _ _ hnone => (by cases hnone), fun _ => hunique⟩
  | @link c d hc hparent hops hempty =>
    have hne := ne_of_notMem hc hparent
    have hdir : ∀ m ∈ fs.live, ((fs.link c d).IsDirectory m ↔ fs.IsDirectory m) := fun m hm =>
      isDirectory_congr (link_same hops hne (ne_of_notMem hc hm).symm)
    constructor
    · intro hunique' n name htarget hn
      obtain ⟨rfl, rfl⟩ := Prod.mk.inj (Option.some.inj htarget)
      have hnodup := hunique' d.parent (Finset.mem_insert_of_mem hparent)
        ((hdir _ hparent).mpr hn)
      rw [names_link htree hc hparent hops hparent, if_pos rfl] at hnodup
      exact (List.nodup_cons.mp hnodup).1
    · intro hfresh m hm hmdir
      rcases Finset.mem_insert.mp hm with rfl | hlive
      · rw [names, children_link hne, if_neg hne, if_pos rfl, hempty]
        exact List.nodup_nil
      · have hmdir' := (hdir m hlive).mp hmdir
        rw [names_link htree hc hparent hops hlive]
        split_ifs with hp
        · have hnot := hfresh d.parent d.name rfl (hp ▸ hmdir')
          exact List.nodup_cons.mpr ⟨hp ▸ hnot, hunique m hlive hmdir'⟩
        · exact hunique m hlive hmdir'
  | @unlink p c hp hc =>
    have hops := hasDirectoryOps_of_mem hc
    refine ⟨fun _ _ _ hnone => (by cases hnone), fun _ m hm hmdir => ?_⟩
    have hlive := Finset.mem_of_mem_erase hm
    have hnodup := hunique m hlive ((isDirectory_congr (unlink_same hops)).mp hmdir)
    have hsub : ((fs.unlink p c).children m).Sublist (fs.children m) := by
      rw [children_unlink]
      split_ifs
      · exact List.erase_sublist
      · exact List.Sublist.refl _
    have hnames : (fs.unlink p c).names m =
        ((fs.unlink p c).children m).map fun x => (fs.node x).name :=
      List.map_congr_left fun x _ => (unlink_same hops).name
    rw [hnames]
    exact (hsub.map _).nodup hnodup

theorem UniqueNames.touch (hunique : fs.UniqueNames) (h : Touch fs fs') : fs'.UniqueNames := by
  intro d hd hdir
  rw [names_touch h]
  exact hunique d (h.live ▸ hd) ((isDirectory_congr (h.same d)).mp hdir)

theorem uniqueNames_touch (h : Touch fs fs') : fs'.UniqueNames ↔ fs.UniqueNames := by
  refine ⟨fun hunique d hd hdir => ?_, fun hunique => hunique.touch h⟩
  rw [← names_touch h]
  exact hunique d (h.live.symm ▸ hd) ((isDirectory_congr (h.same d)).mpr hdir)

/-! ### Objects by path -/

/-- `n` is in the tree under the given names. -/
inductive At (fs : Kyrofs) : List CString → Word → Prop
  | root : At fs [] fs.root
  | child {names : List CString} {n c : Word} (hn : At fs names n) (hdir : fs.IsDirectory n)
    (hc : c ∈ fs.children n) (hname : ProperName (fs.node c).name) :
    At fs (names ++ [(fs.node c).name]) c

variable {path : List CString}

theorem At.attached (h : fs.At path n) : fs.Attached n := by
  induction h with
  | root => exact .root
  | child _ _ hc _ ih => exact .child ih hc

theorem At.proper (h : fs.At path n) : ∀ name ∈ path, ProperName name := by
  induction h with
  | root => exact fun _ hname => absurd hname List.not_mem_nil
  | child _ _ _ hname ih =>
    intro name hmem
    rcases List.mem_append.mp hmem with hmem | hmem
    · exact ih name hmem
    · exact List.mem_singleton.mp hmem ▸ hname

/-- With unique names, a child is the one found by its name. -/
theorem find?_of_nodup_map {α β : Type} [DecidableEq β] {f : α → β} {a : α} {l : List α}
    (hnodup : (l.map f).Nodup) (ha : a ∈ l) : (l.find? fun x => f x = f a) = some a := by
  induction l with
  | nil => cases ha
  | cons b rest ih =>
    obtain ⟨hnot, hrest⟩ := List.nodup_cons.mp hnodup
    by_cases hb : f b = f a
    · rcases List.mem_cons.mp ha with rfl | hmem
      · exact List.find?_cons_of_pos (decide_eq_true rfl)
      · exact absurd (List.mem_map.mpr ⟨a, hmem, hb.symm⟩) hnot
    · rw [List.find?_cons_of_neg (by simpa using hb)]
      rcases List.mem_cons.mp ha with rfl | hmem
      · exact absurd rfl hb
      · exact ih hrest hmem

/-- With unique names, a path leads to its object. -/
theorem At.resolve (htree : fs.Tree) (hunique : fs.UniqueNames) (h : fs.At path n) :
    fs.resolve fs.root (pathOf path) = some n := by
  rw [Kyrofs.resolve, vfsResolvePath_pathOf h.proper]
  induction h with
  | root => rfl
  | @child names n c hn hdir hc hname ih =>
    have hlive := hn.attached.live htree
    have hfind : vfsFinddir fs n (fs.node c).name = some c := by
      rw [vfsFinddir, if_pos hdir, kyrofsFinddir, if_neg hname.2.1, if_neg hname.2.2.1]
      exact find?_of_nodup_map (hunique n hlive hdir) hc
    rw [List.foldlM_append, ih]
    show (vfsFinddir fs n (fs.node c).name >>= _) = _
    rw [hfind]
    rfl

/-- What an object has become by an edit that removes nothing. -/
theorem At.edit {target : Option (Word × CString)} (htree : fs.Tree) (h : fs.At path n)
    (hedit : Edit fs target fs') (hkeep : target = none → fs' = fs) : fs'.At path n := by
  cases hedit with
  | keep => exact h
  | unlink hn hc =>
    rw [hkeep rfl]
    exact h
  | @link c d hc hparent hops hempty =>
    have hne := ne_of_notMem hc hparent
    induction h with
    | root => exact .root
    | @child names n m hn hdir hm hname ih =>
      have hlive := hn.attached.live htree
      have hsame : ∀ x ∈ fs.live, Same (fs.node x) ((fs.link c d).node x) :=
        fun x hx => link_same hops hne (ne_of_notMem hc hx).symm
      have hmlive := (htree.child n hlive m hm).1
      have hm' : m ∈ (fs.link c d).children n := by
        rw [children_link hne]
        split_ifs with hp hnew
        · exact List.mem_cons_of_mem _ hm
        · exact absurd (hnew ▸ hlive) hc
        · exact hm
      rw [← (hsame m hmlive).name] at hname ⊢
      exact .child ih ((isDirectory_congr (hsame n hlive)).mpr hdir) hm' hname

theorem At.touch (h : fs.At path n) (htouch : Touch fs fs') : fs'.At path n := by
  induction h with
  | root => exact htouch.root ▸ .root
  | @child names n m hn hdir hm hname ih =>
    rw [← (htouch.same m).name] at hname ⊢
    exact .child ih ((isDirectory_congr (htouch.same n)).mpr hdir) (htouch.children n ▸ hm) hname

end Kyrofs

end KyroOS.Vfs

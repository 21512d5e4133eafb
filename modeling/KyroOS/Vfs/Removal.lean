import KyroOS.Vfs.Stat
import KyroOS.Vfs.TreeShape
import KyroOS.Vfs.CreateResolve

/-!
# Removing a node with all that is below it

## Main definitions

* `Below` — a node is another one, or is below it
* `Tidy` — a tree with distinct names, none of them empty or with a slash
* `Gone` — what is left when a node is gone with all that is below it
* `NamedBy` — the last component of a path is the name of a node
* `Less` — a tree in which less is found

## Main results

* `Gone.unlink`, `Gone.unlink_parent` — what takes a node out
* `Gone.finddir`, `Gone.walk` — a walk in what is left leads where it did, unless it passes through
  what is gone
-/

namespace KyroOS.Vfs

/-- The node `m` is `n`, or is below it. -/
def Below (fs : Kyrofs) (n m : Word) : Prop := Relation.ReflTransGen (ChildOf fs) n m

/-- A node that is a file, a directory or a device, with the operations of one. -/
structure Kind (d : Dirent) : Prop where
  flags : d.flags = vfsFile ∨ d.flags = vfsDirectory ∨ d.flags = vfsChardevice
  ops : d.hasDirectoryOps = !d.has vfsFile

/-- A tree with distinct names, none of them empty or with a slash. -/
structure Tidy (fs : Kyrofs) : Prop where
  shape : DirTree fs
  unique : fs.UniqueNames
  names : ∀ c ∈ fs.live, c ≠ fs.root → (fs.node c).name ≠ [] ∧ slash ∉ (fs.node c).name
  kind : ∀ c ∈ fs.live, Kind (fs.node c)

/-- What is left when `n` is gone with all that is below it: the list of its parent has lost it, and
the other nodes are as they were. -/
structure Gone (fs fs' : Kyrofs) (n : Word) : Prop where
  root : fs'.root = fs.root
  live : ∀ m, m ∈ fs'.live ↔ m ∈ fs.live ∧ ¬ Below fs n m
  node : ∀ m ∈ fs.live, ¬ Below fs n m → fs'.node m =
    if n ∈ fs.children m then { fs.node m with ptr := .dirents ((fs.children m).erase n) }
    else fs.node m

section Removal

variable {fs fs' : Kyrofs} {n m c p x : Word} {name path : CString}

/-! ### Kinds -/

theorem Kind.not_directory (h : Kind (fs.node n)) (hnot : ¬ fs.IsDirectory n) :
    ¬ (fs.node n).has vfsDirectory := by
  intro hdir
  refine hnot ⟨hdir, ?_⟩
  rw [h.ops]
  rcases h.flags with hflags | hflags | hflags
  · rw [Dirent.has, hflags] at hdir
    exact absurd hdir (by decide)
  · rw [Dirent.has, hflags]
    decide
  · rw [Dirent.has, hflags]
    decide

theorem Kind.same {d d' : Dirent} (h : Kind d) (hsame : Kyrofs.Same d d') : Kind d' := by
  refine ⟨?_, ?_⟩
  · rw [hsame.flags]
    exact h.flags
  · rw [hsame.ops, has_congr hsame, h.ops]

/-- An unlinked child leaves a tidy tree. -/
theorem Tidy.unlink (h : Tidy fs) (hp : p ∈ fs.live) (hc : c ∈ fs.children p)
    (hempty : fs.children c = []) : Tidy (fs.unlink p c) := by
  have hops := Kyrofs.hasDirectoryOps_of_mem hc
  have hedit : fs.Edit none (fs.unlink p c) := .unlink hp hc
  refine ⟨h.shape.unlink hp hc hempty,
    (h.unique.edit h.shape.tree hedit).mpr fun _ _ hnone => (by cases hnone), ?_, ?_⟩
  · intro m hm hroot
    have hsame := Kyrofs.unlink_same (m := m) (c := c) hops
    rw [hsame.name]
    exact h.names m (Finset.mem_of_mem_erase hm) hroot
  · intro m hm
    exact (h.kind m (Finset.mem_of_mem_erase hm)).same (Kyrofs.unlink_same hops)

/-! ### Nodes below a node -/

theorem Below.live (h : Tidy fs) (hn : n ∈ fs.live) (hbelow : Below fs n m) : m ∈ fs.live := by
  induction hbelow with
  | refl => exact hn
  | tail _ hstep _ => exact (h.shape.tree.child _ hstep.1 _ hstep.2).1

/-- The children of a node are below what the node is below. -/
theorem Below.child (hbelow : Below fs n p) (hp : p ∈ fs.live) (hc : c ∈ fs.children p) :
    Below fs n c :=
  Relation.ReflTransGen.tail hbelow ⟨hp, hc⟩

/-- A node is not below its children. -/
theorem not_below_parent (h : Tidy fs) (hp : p ∈ fs.live) (hc : c ∈ fs.children p) :
    ¬ Below fs c p :=
  fun hbelow => h.shape.acyclic (Relation.TransGen.head' ⟨hp, hc⟩ hbelow)

/-- Below an only child is all that is below a node, but the node itself. -/
theorem below_iff_of_children (hn : n ∈ fs.live) (hone : fs.children n = [c]) :
    Below fs n m ↔ m = n ∨ Below fs c m := by
  constructor
  · intro hbelow
    rcases Relation.ReflTransGen.cases_head hbelow with rfl | ⟨d, hstep, hrest⟩
    · exact .inl rfl
    · have hd := hstep.2
      rw [hone, List.mem_singleton] at hd
      exact .inr (hd ▸ hrest)
  · rintro (rfl | hbelow)
    · exact .refl
    · exact .head ⟨hn, hone ▸ List.mem_singleton.mpr rfl⟩ hbelow

/-- Nothing but itself is below a node without children. -/
theorem below_iff_of_empty (hempty : fs.children n = []) : Below fs n m ↔ m = n := by
  constructor
  · intro hbelow
    rcases Relation.ReflTransGen.cases_head hbelow with rfl | ⟨d, hstep, -⟩
    · rfl
    · have hd := hstep.2
      rw [hempty] at hd
      cases hd
  · rintro rfl
    exact .refl

/-- The parent of a node is not below anything that the node is not below. -/
theorem not_below_of_parent (h : Tidy fs) (hm : m ∈ fs.live) (hnot : ¬ Below fs n m) :
    ¬ Below fs n (fs.node m).parent := by
  intro hbelow
  cases h.shape.attached m hm with
  | root =>
    rw [h.shape.tree.rootParent] at hbelow
    exact hnot hbelow
  | @child d m hd hmem =>
    have hlive := hd.live h.shape.tree
    rw [(h.shape.tree.child d hlive m hmem).2.2] at hbelow
    exact hnot (hbelow.child hlive hmem)

/-! ### What takes a node out -/

/-- A child without children is unlinked. -/
theorem Gone.unlink (h : Tidy fs) (hp : p ∈ fs.live) (hc : c ∈ fs.children p)
    (hempty : fs.children c = []) : Gone fs (fs.unlink p c) c where
  root := rfl
  live m := by
    rw [below_iff_of_empty hempty]
    exact Finset.mem_erase.trans and_comm
  node m hm _ := by
    rw [Kyrofs.unlink_node]
    by_cases hmp : m = p
    · rw [if_pos hmp, hmp, if_pos hc]
    · rw [if_neg hmp, if_neg]
      intro hmem
      exact hmp ((h.shape.tree.child m hm c hmem).2.2.symm.trans (h.shape.tree.child p hp c hc).2.2)

theorem Gone.children (hgone : Gone fs fs' n) (hm : m ∈ fs.live) (hnot : ¬ Below fs n m) :
    fs'.children m = (fs.children m).erase n := by
  have hnode := hgone.node m hm hnot
  rw [Kyrofs.children, hnode]
  split
  · rfl
  · next hmem => exact (List.erase_of_not_mem hmem).symm

theorem Gone.same (hgone : Gone fs fs' n) (hm : m ∈ fs.live) (hnot : ¬ Below fs n m) :
    Kyrofs.Same (fs.node m) (fs'.node m) := by
  rw [hgone.node m hm hnot]
  split
  · next hmem => exact ⟨rfl, rfl, rfl, (Kyrofs.hasDirectoryOps_of_mem hmem).symm⟩
  · exact .refl

/-- A node whose only child is gone is unlinked. -/
theorem Gone.unlink_parent (h : Tidy fs) (hgone : Gone fs fs' c) (hp : p ∈ fs.live)
    (hn : n ∈ fs.children p) (hone : fs.children n = [c]) : Gone fs (fs'.unlink p n) n := by
  obtain ⟨hnlive, -, hnparent⟩ := h.shape.tree.child p hp n hn
  have hc : c ∈ fs.children n := hone ▸ List.mem_singleton.mpr rfl
  have hcparent := (h.shape.tree.child n hnlive c hc).2.2
  have hbelow : ∀ m, Below fs n m ↔ m = n ∨ Below fs c m := fun m =>
    below_iff_of_children hnlive hone
  have hpn : ¬ Below fs n p := not_below_parent h hp hn
  -- only the list of `n` has lost the child
  have hkeep : ∀ m ∈ fs.live, ¬ Below fs n m → fs'.node m = fs.node m := by
    intro m hm hnot
    have hsplit := not_or.mp fun hor => hnot ((hbelow m).mpr hor)
    rw [hgone.node m hm hsplit.2, if_neg]
    intro hmem
    exact hsplit.1 ((h.shape.tree.child m hm c hmem).2.2.symm.trans hcparent)
  refine ⟨hgone.root, fun m => ?_, fun m hm hnot => ?_⟩
  · show m ∈ fs'.live.erase n ↔ _
    rw [Finset.mem_erase, hgone.live, hbelow, not_or]
    tauto
  · rw [Kyrofs.unlink_node, hkeep m hm hnot]
    by_cases hmp : m = p
    · rw [if_pos hmp, hmp, if_pos hn, Kyrofs.children, hkeep p hp hpn]
      rfl
    · rw [if_neg hmp, if_neg]
      intro hmem
      exact hmp ((h.shape.tree.child m hm n hmem).2.2.symm.trans hnparent)

/-! ### Walks in what is left -/

theorem find?_erase_eq_some {l : List Word} {P : Word → Bool} (hnodup : l.Nodup)
    (hunique : ∀ a ∈ l, ∀ b ∈ l, P a → P b → a = b) :
    (l.erase n).find? P = some x ↔ l.find? P = some x ∧ x ≠ n := by
  have hfind : ∀ l' : List Word, (∀ a ∈ l', a ∈ l) → (l'.find? P = some x ↔ x ∈ l' ∧ P x) := by
    intro l' hsub
    constructor
    · exact fun h => ⟨List.mem_of_find?_eq_some h, List.find?_some h⟩
    · rintro ⟨hmem, hx⟩
      obtain ⟨y, hy⟩ := Option.isSome_iff_exists.mp (List.find?_isSome.mpr ⟨x, hmem, hx⟩)
      rw [hy, hunique y (hsub y (List.mem_of_find?_eq_some hy)) x (hsub x hmem) (List.find?_some hy)
        hx]
  rw [hfind _ fun a ha => List.mem_of_mem_erase ha, hfind l fun _ ha => ha,
    hnodup.mem_erase_iff]
  tauto

/-- A child is found under its name, unless it is the one that is gone. -/
theorem Gone.childNamed (h : Tidy fs) (hgone : Gone fs fs' n) (hm : m ∈ fs.live)
    (hnot : ¬ Below fs n m) :
    fs'.childNamed m name = some x ↔ fs.childNamed m name = some x ∧ x ≠ n := by
  have hnames : ∀ a ∈ (fs.children m).erase n, (fs'.node a).name = (fs.node a).name := by
    intro a ha
    have hmem := List.mem_of_mem_erase ha
    obtain ⟨hlive, -, hparent⟩ := h.shape.tree.child m hm a hmem
    refine (hgone.same hlive fun hbelow => ?_).name
    -- only `n` itself is below `n` and in the list of a node that is not
    rcases Relation.ReflTransGen.cases_tail hbelow with rfl | ⟨d, hd, hstep⟩
    · exact (h.shape.tree.nodup m hm).not_mem_erase ha
    · have hdm := (h.shape.tree.child d hstep.1 a hstep.2).2.2.symm.trans hparent
      exact hnot (hdm ▸ hd)
  have hfind : fs'.childNamed m name =
      ((fs.children m).erase n).find? fun c => (fs.node c).name = name := by
    rw [Kyrofs.childNamed, hgone.children hm hnot]
    exact List.find?_congr fun a ha => by rw [hnames a ha]
  have hfile : fs.children m = [] ∨ fs.IsDirectory m := by
    by_cases hdir : fs.IsDirectory m
    · exact .inr hdir
    · exact .inl (h.shape.files m hm hdir)
  rw [hfind, Kyrofs.childNamed]
  refine find?_erase_eq_some (h.shape.tree.nodup m hm) fun a ha b hb hna hnb => ?_
  rcases hfile with hempty | hdir
  · rw [hempty] at ha
    cases ha
  · have hsame : (fs.node a).name = (fs.node b).name :=
      (of_decide_eq_true hna).trans (of_decide_eq_true hnb).symm
    exact List.inj_on_of_nodup_map (h.unique m hm hdir) ha hb hsame

/-- A lookup in a node that is left finds what it found, unless that is gone. -/
theorem Gone.finddir (h : Tidy fs) (hgone : Gone fs fs' n) (hm : m ∈ fs.live)
    (hnot : ¬ Below fs n m) :
    vfsFinddir fs' m name = some x ↔ vfsFinddir fs m name = some x ∧ ¬ Below fs n x := by
  have hsame := hgone.same hm hnot
  have hdir : fs'.IsDirectory m ↔ fs.IsDirectory m := Kyrofs.isDirectory_congr hsame
  rw [vfsFinddir, vfsFinddir]
  by_cases hd : fs.IsDirectory m
  · rw [if_pos hd, if_pos (hdir.mpr hd), kyrofsFinddir, kyrofsFinddir, hsame.parent]
    have hstays : ∀ {y : Word}, ¬ Below fs n y →
        (some y = some x ↔ some y = some x ∧ ¬ Below fs n x) := by
      intro y hy
      constructor
      · intro heq
        exact ⟨heq, Option.some.inj heq ▸ hy⟩
      · exact And.left
    split_ifs
    · exact hstays hnot
    · exact hstays (not_below_of_parent h hm hnot)
    · exact hstays hnot
    · rw [hgone.childNamed h hm hnot]
      refine and_congr_right fun hchild => not_congr ?_
      have hmem := (Kyrofs.childNamed_eq_some hchild).1
      constructor
      · rintro rfl
        exact .refl
      · intro hbelow
        rcases Relation.ReflTransGen.cases_tail hbelow with heq | ⟨d, hd', hstep⟩
        · exact heq
        · have hdm := (h.shape.tree.child d hstep.1 x hstep.2).2.2.symm.trans
            (h.shape.tree.child m hm x hmem).2.2
          exact absurd (hdm ▸ hd') hnot
  · rw [if_neg hd, if_neg fun hd' => hd (hdir.mp hd')]
    exact ⟨by rintro ⟨⟩, by rintro ⟨⟨⟩, -⟩⟩

/-- A walk leads where it led, unless it passes through what is gone. -/
theorem Gone.walk (h : Tidy fs) (hgone : Gone fs fs' n) {names : List CString}
    (hm : fs.Attached m) (hnot : ¬ Below fs n m) :
    names.foldlM (vfsFinddir fs') m = some x ↔
      names.foldlM (vfsFinddir fs) m = some x ∧
        ∀ start y, start <+: names → start.foldlM (vfsFinddir fs) m = some y → ¬ Below fs n y := by
  induction names generalizing m with
  | nil =>
    constructor
    · intro hx
      refine ⟨hx, fun start y hstart hy => ?_⟩
      obtain rfl := List.prefix_nil.mp hstart
      exact Option.some.inj hy ▸ hnot
    · exact And.left
  | cons name rest ih =>
    rw [List.foldlM_cons, List.foldlM_cons]
    constructor
    · intro hx
      obtain ⟨next, hnext, hrest⟩ := Option.bind_eq_some_iff.mp hx
      obtain ⟨hfind, hstays⟩ := (hgone.finddir h (hm.live h.shape.tree) hnot).mp hnext
      obtain ⟨hwalk, hway⟩ := (ih (hm.finddir h.shape.tree hfind) hstays).mp hrest
      refine ⟨Option.bind_eq_some_iff.mpr ⟨next, hfind, hwalk⟩, fun start y hstart hy => ?_⟩
      cases start with
      | nil => exact Option.some.inj hy ▸ hnot
      | cons first start =>
        obtain ⟨rfl, htail⟩ := List.cons_prefix_cons.mp hstart
        rw [List.foldlM_cons, hfind] at hy
        exact hway start y htail hy
    · rintro ⟨hx, hway⟩
      obtain ⟨next, hfind, hwalk⟩ := Option.bind_eq_some_iff.mp hx
      have hfirst : ([name] : List CString).foldlM (vfsFinddir fs) m = some next := by
        rw [List.foldlM_cons, hfind]
        rfl
      have hstays := hway [name] next (List.prefix_append [name] rest) hfirst
      refine Option.bind_eq_some_iff.mpr
        ⟨next, (hgone.finddir h (hm.live h.shape.tree) hnot).mpr ⟨hfind, hstays⟩, ?_⟩
      refine (ih (hm.finddir h.shape.tree hfind) hstays).mpr ⟨hwalk, fun start y hstart hy => ?_⟩
      refine hway (name :: start) y (List.cons_prefix_cons.mpr ⟨rfl, hstart⟩) ?_
      rw [List.foldlM_cons, hfind]
      exact hy

/-- The root is not below any other node. -/
theorem not_below_root (h : Tidy fs) (hn : n ≠ fs.root) : ¬ Below fs n fs.root := by
  intro hbelow
  rcases Relation.ReflTransGen.cases_tail hbelow with heq | ⟨d, -, hstep⟩
  · exact hn heq.symm
  · exact (h.shape.tree.child d hstep.1 _ hstep.2).2.1 rfl

/-- A path leads where it led, unless it passes through what is gone. -/
theorem Gone.resolve (h : Tidy fs) (hgone : Gone fs fs' n) (hn : n ≠ fs.root) :
    fs'.resolve fs'.root path = some x ↔
      fs.resolve fs.root path = some x ∧
        ∀ y, fs.PassesThrough path y → ¬ Below fs n y := by
  rw [hgone.root]
  refine (hgone.walk h .root (not_below_root h hn)).trans (and_congr_right fun _ => ?_)
  constructor
  · rintro hway y ⟨start, hstart, hy⟩
    exact hway start y hstart hy
  · intro hway start y hstart hy
    exact hway y ⟨start, hstart, hy⟩

/-! ### Paths to a node and to its parent -/

/-- The parent and the name of the calls by path. -/
def Kyrofs.parentIn (fs : Kyrofs) (path : CString) : Option (Word × CString) :=
  vfsParent (vfsFinddir fs) (fun n => (fs.node n).has vfsDirectory) fs.root path

/-- The last component of the path is the name of `n` in the directory `p`. -/
structure NamedBy (fs : Kyrofs) (path : CString) (p : Word) (name : CString) (n : Word) : Prop where
  parent : fs.parentIn path = some (p, name)
  child : fs.childNamed p name = some n

theorem NamedBy.live (h : Tidy fs) (hnamed : NamedBy fs path p name n) : p ∈ fs.live :=
  (Kyrofs.attached_of_vfsParent h.shape.tree hnamed.parent).live h.shape.tree

theorem NamedBy.mem (hnamed : NamedBy fs path p name n) : n ∈ fs.children p :=
  (Kyrofs.childNamed_eq_some hnamed.child).1

theorem NamedBy.ne_root (h : Tidy fs) (hnamed : NamedBy fs path p name n) : n ≠ fs.root :=
  (h.shape.tree.child p (hnamed.live h) n hnamed.mem).2.1

/-- A path names one node. -/
theorem NamedBy.unique {p' c' : Word} {name' : CString} (hnamed : NamedBy fs path p name c)
    (hnamed' : NamedBy fs path p' name' c') : p' = p ∧ c' = c := by
  obtain ⟨rfl, rfl⟩ := Prod.mk.inj (Option.some.inj (hnamed'.parent.symm.trans hnamed.parent))
  exact ⟨rfl, Option.some.inj (hnamed'.child.symm.trans hnamed.child)⟩

/-- A path to the part in front of the last slash is passed through on the way. -/
theorem passesThrough_of_split {dir : CString} (hsplit : splitLast path = some (dir, name))
    (hpass : fs.PassesThrough dir m) : fs.PassesThrough path m := by
  obtain ⟨names, hnames, hm⟩ := hpass
  obtain ⟨rfl, -⟩ := splitLast_eq_some hsplit
  refine ⟨names, hnames.trans ?_, hm⟩
  rw [pathComponents_append]
  exact List.prefix_append _ _

/-- The parent of a path that is not led through what is gone. -/
theorem Gone.parentIn (h : Tidy fs) (hgone : Gone fs fs' n) (hn : n ≠ fs.root)
    (hclear : ∀ m, fs.PassesThrough path m → ¬ Below fs n m)
    (hparent : fs.parentIn path = some (p, name)) : fs'.parentIn path = some (p, name) := by
  unfold Kyrofs.parentIn vfsParent at hparent ⊢
  cases hsplit : splitLast path with
  | none =>
    rw [hsplit] at hparent
    rw [hgone.root]
    exact hparent
  | some res =>
    obtain ⟨dir, last⟩ := res
    rw [hsplit] at hparent
    cases dir with
    | nil =>
      rw [hgone.root]
      exact hparent
    | cons c rest =>
      obtain ⟨q, hq, heq⟩ := Option.map_eq_some_iff.mp hparent
      obtain ⟨hresolve, hdir⟩ := Option.filter_eq_some_iff.mp hq
      have hlive := (Kyrofs.attached_of_resolve h.shape.tree hresolve).live h.shape.tree
      have hway : ∀ m, fs.PassesThrough (c :: rest) m → ¬ Below fs n m := fun m hm =>
        hclear m (passesThrough_of_split hsplit hm)
      have hend := hway q ⟨_, List.prefix_rfl, hresolve⟩
      refine Option.map_eq_some_iff.mpr ⟨q, Option.filter_eq_some_iff.mpr ⟨?_, ?_⟩, heq⟩
      · exact (hgone.resolve h hn).mpr ⟨hresolve, hway⟩
      · show (fs'.node q).has vfsDirectory = true
        rw [has_congr (hgone.same hlive hend)]
        exact hdir

/-! ### Trees with less in them -/

/-- A tree in which the lookups find what they found in another one, or nothing. -/
structure Less (fs fs' : Kyrofs) : Prop where
  root : fs'.root = fs.root
  live : fs'.live ⊆ fs.live
  same : ∀ m ∈ fs'.live, Kyrofs.Same (fs.node m) (fs'.node m)
  children : ∀ m ∈ fs'.live, fs'.children m ⊆ fs.children m
  child : ∀ m ∈ fs'.live, ∀ name x,
    fs'.childNamed m name = some x → fs.childNamed m name = some x
  resolve : ∀ path x, fs'.resolve fs'.root path = some x → fs.resolve fs.root path = some x

theorem Less.refl (fs : Kyrofs) : Less fs fs :=
  ⟨rfl, fun _ hm => hm, fun _ _ => .refl, fun _ _ _ hx => hx, fun _ _ _ _ hx => hx,
    fun _ _ hx => hx⟩

theorem Less.trans {fs₁ fs₂ : Kyrofs} (h : Less fs fs₁) (h' : Less fs₁ fs₂) : Less fs fs₂ where
  root := h'.root.trans h.root
  live _ hm := h.live (h'.live hm)
  same m hm := by
    have hfirst := h.same m (h'.live hm)
    have hnext := h'.same m hm
    exact ⟨hnext.name.trans hfirst.name, hnext.flags.trans hfirst.flags,
      hnext.parent.trans hfirst.parent, hnext.ops.trans hfirst.ops⟩
  children m hm _ hx := h.children m (h'.live hm) (h'.children m hm hx)
  child m hm name x hx := h.child m (h'.live hm) name x (h'.child m hm name x hx)
  resolve path x hx := h.resolve path x (h'.resolve path x hx)

theorem Gone.less (h : Tidy fs) (hgone : Gone fs fs' n) (hn : n ≠ fs.root) : Less fs fs' where
  root := hgone.root
  live _ hm := ((hgone.live _).mp hm).1
  same m hm := hgone.same ((hgone.live m).mp hm).1 ((hgone.live m).mp hm).2
  children m hm := by
    obtain ⟨hlive, hnot⟩ := (hgone.live m).mp hm
    rw [hgone.children hlive hnot]
    exact List.erase_subset
  child m hm name x hx := by
    obtain ⟨hlive, hnot⟩ := (hgone.live m).mp hm
    exact ((hgone.childNamed h hlive hnot).mp hx).1
  resolve _ _ hx := ((hgone.resolve h hn).mp hx).1

/-- The parent of a path in a tree with less in it. -/
theorem Less.parentIn (h' : Tidy fs') (hless : Less fs fs')
    (hparent : fs'.parentIn path = some (p, name)) : fs.parentIn path = some (p, name) := by
  unfold Kyrofs.parentIn vfsParent at hparent ⊢
  rw [hless.root] at hparent
  cases hsplit : splitLast path with
  | none =>
    rw [hsplit] at hparent
    exact hparent
  | some res =>
    obtain ⟨dir, last⟩ := res
    rw [hsplit] at hparent
    cases dir with
    | nil => exact hparent
    | cons c rest =>
      obtain ⟨q, hq, heq⟩ := Option.map_eq_some_iff.mp hparent
      obtain ⟨hresolve, hdir⟩ := Option.filter_eq_some_iff.mp hq
      have hresolve' : fs'.resolve fs'.root (c :: rest) = some q := by
        rw [hless.root]
        exact hresolve
      have hlive := (Kyrofs.attached_of_resolve h'.shape.tree hresolve').live h'.shape.tree
      refine Option.map_eq_some_iff.mpr ⟨q, Option.filter_eq_some_iff.mpr
        ⟨hless.resolve _ _ hresolve', ?_⟩, heq⟩
      show (fs.node q).has vfsDirectory = true
      rw [← has_congr (hless.same q hlive)]
      exact hdir

theorem Less.named (h' : Tidy fs') (hless : Less fs fs') (hnamed : NamedBy fs' path p name n) :
    NamedBy fs path p name n where
  parent := hless.parentIn h' hnamed.parent
  child := hless.child p (hnamed.live h') name n hnamed.child

end Removal

end KyroOS.Vfs

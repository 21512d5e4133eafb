import KyroOS.Vfs.Names
import Mathlib.Data.List.Find

/-!
# A created node is found by its path

The calls that create split a path at its last slash, and `vfs_resolve_path` walks it component by
component. The node that a call creates is found by the walk only where both read the path alike.

## Main definitions

* `Creator` — `vfs_mkdir` and `vfs_create`
* `Kyrofs.PassesThrough` — a path leads through a node
* `ResolvesNew` — the path leads to the new node, and the other paths lead where they did
* `NewEntry` — the last component is a name that the directory does not have yet

## Main results

* `Links.resolve_of_improper` — a node without a proper name is on no path
* `Links.foldlM` — what a walk finds beside or behind a new name
* `createsThenResolves_iff` — a call that returns keeps its promise exactly for new entries
-/

namespace KyroOS.Vfs

/-! ### The parent -/

section Parent

variable {ν : Type} {finddir : ν → CString → Option ν} {isDirectory : ν → Bool} {root n : ν}
  {path name : CString}

/-- The components of a path are those on the way to the parent, and the name unless it is
empty. -/
theorem vfsParent_components (h : vfsParent finddir isDirectory root path = some (n, name)) :
    slash ∉ name ∧ ∃ dir, vfsResolvePath finddir root dir = some n ∧
      pathComponents path = pathComponents dir ++ if name = [] then [] else [name] := by
  rw [vfsParent] at h
  cases hsplit : splitLast path with
  | none =>
    rw [hsplit] at h
    obtain ⟨rfl, rfl⟩ := Prod.mk.inj (Option.some.inj h)
    have hslash := splitLast_eq_none.mp hsplit
    exact ⟨hslash, [], rfl, pathComponents_of_notMem hslash⟩
  | some res =>
    obtain ⟨dir, last⟩ := res
    obtain ⟨rfl, hslash⟩ := splitLast_eq_some hsplit
    rw [hsplit] at h
    have hcomponents : pathComponents (dir ++ slash :: last) =
        pathComponents dir ++ if last = [] then [] else [last] := by
      rw [pathComponents_append, pathComponents_of_notMem hslash]
    cases dir with
    | nil =>
      obtain ⟨rfl, rfl⟩ := Prod.mk.inj (Option.some.inj h)
      exact ⟨hslash, [], rfl, hcomponents⟩
    | cons c rest =>
      obtain ⟨m, hm, heq⟩ := Option.map_eq_some_iff.mp h
      obtain ⟨rfl, rfl⟩ := Prod.mk.inj heq
      exact ⟨hslash, c :: rest, (Option.filter_eq_some_iff.mp hm).1, hcomponents⟩

theorem pathComponents_slash : pathComponents (slash :: path) = pathComponents path := by
  have happend := pathComponents_append [] path
  rwa [List.nil_append] at happend

theorem ne_nil_of_mem_pathComponents (h : name ∈ pathComponents path) : name ≠ [] :=
  of_decide_eq_true (List.mem_filter.mp h).2

end Parent

/-! ### Walks in a tree with a new node -/

namespace Kyrofs

variable {fs fs' : Kyrofs} {n m c : Word} {d : Dirent} {name path : CString}

/-- A path leads through a node, or ends there. -/
def PassesThrough (fs : Kyrofs) (path : CString) (n : Word) : Prop :=
  ∃ names, names <+: pathComponents path ∧ names.foldlM (vfsFinddir fs) fs.root = some n

/-- Where a new node is linked in. -/
structure Links (fs : Kyrofs) (c : Word) (d : Dirent) : Prop where
  tree : fs.Tree
  fresh : c ∉ fs.live
  parent : d.parent ∈ fs.live
  directory : fs.IsDirectory d.parent

section Link

variable (h : fs.Links c d)
include h

theorem Links.ne : c ≠ d.parent := ne_of_notMem h.fresh h.parent

theorem Links.same (hm : m ∈ fs.live) : Same (fs.node m) ((fs.link c d).node m) :=
  link_same h.directory.2 h.ne (ne_of_notMem h.fresh hm).symm

/-- The new node is the first child of its parent. -/
theorem Links.childNamed (hm : m ∈ fs.live) : (fs.link c d).childNamed m name =
    if m = d.parent ∧ d.name = name then some c else fs.childNamed m name := by
  have hold : ((fs.children m).find? fun x => ((fs.link c d).node x).name = name) =
      fs.childNamed m name := by
    apply List.find?_congr
    intro x hx
    rw [(h.same (h.tree.child m hm x hx).1).name]
  have hmc : m ≠ c := (ne_of_notMem h.fresh hm).symm
  rw [Kyrofs.childNamed, children_link h.ne, if_neg hmc]
  by_cases hp : m = d.parent
  · rw [if_pos hp, List.find?_cons, link_node_new h.ne]
    by_cases hname : d.name = name
    · rw [if_pos ⟨hp, hname⟩, decide_eq_true hname]
    · rw [if_neg fun hand => hname hand.2, decide_eq_false hname]
      exact hold
  · rw [if_neg hp, if_neg fun hand => hp hand.1]
    exact hold

/-- A look for a name, where the new node does not answer to it. -/
theorem Links.finddir_of_ne (hm : m ∈ fs.live)
    (hname : name = cstring ['.'] ∨ name = cstring ['.', '.'] ∨ ¬ (m = d.parent ∧ d.name = name)) :
    vfsFinddir (fs.link c d) m name = vfsFinddir fs m name := by
  have hdir : (fs.link c d).IsDirectory m ↔ fs.IsDirectory m := isDirectory_congr (h.same hm)
  rw [vfsFinddir, vfsFinddir, if_congr hdir rfl rfl, kyrofsFinddir, kyrofsFinddir,
    (h.same hm).parent]
  by_cases hdot : name = cstring ['.']
  · rw [if_pos hdot, if_pos hdot]
  · by_cases hdotdot : name = cstring ['.', '.']
    · rw [if_neg hdot, if_neg hdot, if_pos hdotdot, if_pos hdotdot]
    · have hne := (hname.resolve_left hdot).resolve_left hdotdot
      rw [h.childNamed hm, if_neg hne]

/-- The new node answers to its name. -/
theorem Links.finddir_new (hproper : ProperName d.name) :
    vfsFinddir (fs.link c d) d.parent d.name = some c := by
  have hdir := (isDirectory_congr (h.same h.parent)).mpr h.directory
  rw [vfsFinddir, if_pos hdir, kyrofsFinddir, if_neg hproper.2.1, if_neg hproper.2.2.1,
    h.childNamed h.parent, if_pos ⟨rfl, rfl⟩]

/-- No walk through names finds a node that has none. -/
theorem Links.foldlM_of_improper {names : List CString} (hslash : slash ∉ d.name)
    (himproper : ¬ ProperName d.name) (hnames : ∀ name ∈ names, name ≠ [])
    (hm : fs.Attached m) :
    names.foldlM (vfsFinddir (fs.link c d)) m = names.foldlM (vfsFinddir fs) m := by
  induction names generalizing m with
  | nil => rfl
  | cons name rest ih =>
    have hne : name = cstring ['.'] ∨ name = cstring ['.', '.'] ∨
        ¬ (m = d.parent ∧ d.name = name) := by
      by_contra hnot
      obtain ⟨hdot, hnot⟩ := not_or.mp hnot
      obtain ⟨hdotdot, hnew⟩ := not_or.mp hnot
      have hname := (not_not.mp hnew).2
      rw [hname] at himproper hslash
      exact himproper ⟨hnames name List.mem_cons_self, hdot, hdotdot, hslash⟩
    have hfind := h.finddir_of_ne (hm.live h.tree) hne
    rw [List.foldlM_cons, List.foldlM_cons, hfind]
    cases hnext : vfsFinddir fs m name with
    | none => rfl
    | some next =>
      exact ih (fun x hx => hnames x (List.mem_cons_of_mem _ hx)) (hm.finddir h.tree hnext)

/-- A node without a proper name is on no path. -/
theorem Links.resolve_of_improper (hslash : slash ∉ d.name) (himproper : ¬ ProperName d.name) :
    (fs.link c d).resolve (fs.link c d).root path = fs.resolve fs.root path :=
  h.foldlM_of_improper hslash himproper (fun _ hname => ne_nil_of_mem_pathComponents hname) .root

/-- A walk leads where it did, or led nowhere and passes through the new node. -/
theorem Links.foldlM {names : List CString} (hfresh : d.name ∉ fs.names d.parent)
    (hm : fs.Attached m) :
    names.foldlM (vfsFinddir (fs.link c d)) m = names.foldlM (vfsFinddir fs) m ∨
      names.foldlM (vfsFinddir fs) m = none ∧
        ∃ start, start <+: names ∧ start.foldlM (vfsFinddir (fs.link c d)) m = some c := by
  induction names generalizing m with
  | nil => exact .inl rfl
  | cons name rest ih =>
    have hlive := hm.live h.tree
    rw [List.foldlM_cons, List.foldlM_cons]
    by_cases hnew : name ≠ cstring ['.'] ∧ name ≠ cstring ['.', '.'] ∧ m = d.parent ∧ d.name = name
    · obtain ⟨hdot, hdotdot, rfl, rfl⟩ := hnew
      have hdir := (isDirectory_congr (h.same h.parent)).mpr h.directory
      have hnone : vfsFinddir fs d.parent d.name = none := by
        rw [vfsFinddir, if_pos h.directory, kyrofsFinddir, if_neg hdot, if_neg hdotdot]
        exact childNamed_eq_none.mpr hfresh
      have hsome : vfsFinddir (fs.link c d) d.parent d.name = some c := by
        rw [vfsFinddir, if_pos hdir, kyrofsFinddir, if_neg hdot, if_neg hdotdot,
          h.childNamed h.parent, if_pos ⟨rfl, rfl⟩]
      refine .inr ⟨by rw [hnone]; rfl, [d.name], ⟨rest, rfl⟩, ?_⟩
      rw [List.foldlM_cons, hsome]
      rfl
    · have hne : name = cstring ['.'] ∨ name = cstring ['.', '.'] ∨
          ¬ (m = d.parent ∧ d.name = name) := by
        by_contra hnot
        obtain ⟨hdot, hnot⟩ := not_or.mp hnot
        obtain ⟨hdotdot, hand⟩ := not_or.mp hnot
        exact hnew ⟨hdot, hdotdot, not_not.mp hand⟩
      have hfind := h.finddir_of_ne hlive hne
      rw [hfind]
      cases hnext : vfsFinddir fs m name with
      | none => exact .inl rfl
      | some next =>
        rcases ih (hm.finddir h.tree hnext) with heq | ⟨hnone, start, hstart, hwalk⟩
        · exact .inl heq
        · refine .inr ⟨hnone, name :: start, List.cons_prefix_cons.mpr ⟨rfl, hstart⟩, ?_⟩
          rw [List.foldlM_cons, hfind, hnext]
          exact hwalk

end Link

end Kyrofs

/-! ### Creating -/

/-- The two calls that create without a look. -/
inductive Creator
  | mkdir
  | create
  deriving DecidableEq

def Creator.call : Creator → Kyrofs → NewNode → Word → CString → Outcome (Kyrofs × Int)
  | mkdir => vfsMkdir
  | create => vfsCreate

/-- The flags of the nodes that a call creates. -/
def Creator.flags : Creator → BitVec 32
  | mkdir => vfsDirectory
  | create => vfsFile

/-- The path leads to the new node `c`. Every other path leads where it did, or led nowhere and
now leads through `c`. -/
structure ResolvesNew (fs fs' : Kyrofs) (path : CString) (c : Word) (flags : BitVec 32) : Prop where
  resolve : fs'.resolve fs'.root path = some c
  fresh : c ∉ fs.live
  live : c ∈ fs'.live
  flags : (fs'.node c).flags = flags
  others : ∀ q, q ≠ path → fs'.resolve fs'.root q = fs.resolve fs.root q ∨
    fs.resolve fs.root q = none ∧ fs'.PassesThrough q c

/-- The last component of the path is a name that its directory does not have yet. -/
def NewEntry (fs : Kyrofs) (path : CString) : Prop :=
  ∀ n name, vfsParent (vfsFinddir fs) (fun n => (fs.node n).has vfsDirectory) fs.root path =
    some (n, name) → fs.IsDirectory n → ProperName name ∧ name ∉ fs.names n

section Creating

variable {fs fs' : Kyrofs} {new : NewNode} {path name : CString} {n : Word} {flags : BitVec 32}
  {r : Int} {op : Creator}

/-- A call that creates changes nothing, or links the new node. -/
theorem creator_cases (htree : fs.Tree) (hnew : new.dirent ∉ fs.live)
    (hok : op.call fs new fs.root path = .ok (fs', r)) :
    fs' = fs ∧ r = -1 ∧ (∀ n name,
      vfsParent (vfsFinddir fs) (fun n => (fs.node n).has vfsDirectory) fs.root path =
        some (n, name) → ¬ fs.IsDirectory n) ∨
    ∃ d, r = 0 ∧ fs.Links new.dirent d ∧ d.flags = op.flags ∧ fs' = fs.link new.dirent d ∧
      vfsParent (vfsFinddir fs) (fun n => (fs.node n).has vfsDirectory) fs.root path =
        some (d.parent, d.name) := by
  have hcall : op.call fs new fs.root path = fs.callInParent fs.root path fun parent name =>
      kyrofsCreateNode fs new parent name op.flags := by
    cases op with
    | mkdir => rfl
    | create => rfl
  rw [hcall, Kyrofs.callInParent] at hok
  cases hparent : vfsParent (vfsFinddir fs) (fun n => (fs.node n).has vfsDirectory) fs.root path with
  | none =>
    rw [hparent] at hok
    obtain ⟨rfl, rfl⟩ := Prod.mk.inj (Except.ok.inj hok)
    exact .inl ⟨rfl, rfl, fun _ _ hsome => (by cases hsome)⟩
  | some res =>
    obtain ⟨p, name⟩ := res
    rw [hparent] at hok
    dsimp only at hok
    split_ifs at hok with hops
    · have hlive := (Kyrofs.attached_of_vfsParent htree hparent).live htree
      have hdir : fs.IsDirectory p := by
        rcases vfsParent_eq_some hparent with rfl | ⟨hflag, -⟩
        · exact htree.rootDirectory
        · exact ⟨hflag, hops⟩
      obtain ⟨ptr, -, -, rfl, rfl⟩ := createNode_link hok
      exact .inr ⟨⟨name, op.flags, 0, ptr, p⟩, rfl, ⟨htree, hnew, hlive, hdir⟩, rfl, rfl, rfl⟩
    · obtain ⟨rfl, rfl⟩ := Prod.mk.inj (Except.ok.inj hok)
      refine .inl ⟨rfl, rfl, fun n' name' hsome hdir => ?_⟩
      obtain ⟨rfl, -⟩ := Prod.mk.inj (Option.some.inj hsome)
      exact hops hdir.2

variable {d : Dirent}

/-- The path of a new entry leads to it, and the others lead where they did. -/
theorem resolvesNew_of_newEntry (h : fs.Links n d) (hproper : ProperName d.name)
    (hfresh : d.name ∉ fs.names d.parent)
    (hparent : vfsParent (vfsFinddir fs) (fun n => (fs.node n).has vfsDirectory) fs.root path =
      some (d.parent, d.name)) :
    ResolvesNew fs (fs.link n d) path n d.flags where
  resolve := by
    obtain ⟨-, dir, hdir, hcomponents⟩ := vfsParent_components hparent
    rw [if_neg hproper.1] at hcomponents
    have hway : (fs.link n d).resolve (fs.link n d).root dir = some d.parent := by
      rw [Kyrofs.resolve, vfsResolvePath]
      rcases h.foldlM hfresh .root with heq | ⟨hnone, -⟩
      · exact heq.trans hdir
      · exact absurd (hdir.symm.trans hnone) (by simp)
    rw [Kyrofs.resolve, vfsResolvePath] at hway ⊢
    rw [hcomponents, List.foldlM_append, hway]
    show (vfsFinddir (fs.link n d) d.parent d.name >>= pure) = _
    rw [h.finddir_new hproper]
    rfl
  fresh := h.fresh
  live := Finset.mem_insert_self _ _
  flags := by rw [Kyrofs.link_node_new h.ne]
  others := fun q _ => h.foldlM hfresh .root

/-- The path of an entry that is not new leads elsewhere, or an equal path led elsewhere. -/
theorem newEntry_of_resolvesNew (h : fs.Links n d)
    (hparent : vfsParent (vfsFinddir fs) (fun n => (fs.node n).has vfsDirectory) fs.root path =
      some (d.parent, d.name))
    (hresolves : ResolvesNew fs (fs.link n d) path n flags) :
    ProperName d.name ∧ d.name ∉ fs.names d.parent := by
  obtain ⟨hslash, dir, hdir, hcomponents⟩ := vfsParent_components hparent
  have hproper : ProperName d.name := by
    by_contra himproper
    have hold := hresolves.resolve
    rw [h.resolve_of_improper hslash himproper] at hold
    exact h.fresh ((Kyrofs.attached_of_resolve h.tree hold).live h.tree)
  refine ⟨hproper, fun hmem => ?_⟩
  -- the same path with one slash more led to the child there was
  obtain ⟨c, hchild⟩ : ∃ c, fs.childNamed d.parent d.name = some c :=
    Option.ne_none_iff_exists'.mp fun hnone => Kyrofs.childNamed_eq_none.mp hnone hmem
  have hbefore : fs.resolve fs.root (slash :: path) = some c := by
    rw [if_neg hproper.1] at hcomponents
    rw [Kyrofs.resolve, vfsResolvePath, pathComponents_slash, hcomponents, List.foldlM_append,
      ← vfsResolvePath, hdir]
    show (vfsFinddir fs d.parent d.name >>= pure) = _
    rw [vfsFinddir, if_pos h.directory, kyrofsFinddir, if_neg hproper.2.1, if_neg hproper.2.2.1,
      hchild]
    rfl
  have hafter : (fs.link n d).resolve (fs.link n d).root (slash :: path) = some n := by
    rw [← hresolves.resolve, Kyrofs.resolve, vfsResolvePath, pathComponents_slash]
    rfl
  have hlonger : slash :: path ≠ path := fun heq => by simpa using congrArg List.length heq
  rcases hresolves.others _ hlonger with heq | ⟨hnone, -⟩
  · rw [hafter, hbefore] at heq
    obtain rfl := Option.some.inj heq
    exact h.fresh ((Kyrofs.attached_of_resolve h.tree hbefore).live h.tree)
  · rw [hbefore] at hnone
    cases hnone

/-- A call that creates, in any tree, returns 0 with the new node at its path and every other path
as it was, or returns another value with the tree as it was, exactly when the last component of
the path is a proper name that is new in its directory. -/
theorem createsThenResolves_iff (htree : fs.Tree) (hnew : new.dirent ∉ fs.live)
    (_hlen : path.length < maxFilenameLen)
    (hok : op.call fs new fs.root path = .ok (fs', r)) :
    ((r = 0 → ResolvesNew fs fs' path new.dirent op.flags) ∧ (r ≠ 0 → fs' = fs)) ↔
      NewEntry fs path := by
  rcases creator_cases htree hnew hok with ⟨rfl, rfl, hno⟩ | ⟨d, rfl, hlinks, hflags, rfl, hparent⟩
  · refine iff_of_true ⟨fun hzero => absurd hzero (by decide), fun _ => rfl⟩ ?_
    exact fun n name hsome hdir => absurd hdir (hno n name hsome)
  · constructor
    · rintro ⟨hresolves, -⟩ n name hsome -
      obtain ⟨rfl, rfl⟩ := Prod.mk.inj (Option.some.inj (hparent.symm.trans hsome))
      exact newEntry_of_resolvesNew hlinks hparent (hresolves rfl)
    · intro hentry
      obtain ⟨hproper, hfresh⟩ := hentry _ _ hparent hlinks.directory
      rw [← hflags]
      exact ⟨fun _ => resolvesNew_of_newEntry hlinks hproper hfresh hparent,
        fun hne => absurd rfl hne⟩

/-- `SYS_MKDIR` in the tree of `kyrofs_init`. -/
theorem smallMkdir_call (path : CString) (hpath : copyPath path = path)
    (h : (sysMkdir smallTree (smallNode 8) path).toOption.map Prod.snd = some 0) :
    Creator.mkdir.call smallTree (smallNode 8) smallTree.root path = .ok (smallMkdir path, 0) := by
  obtain ⟨⟨fs, r⟩, hok, hr⟩ := Option.map_eq_some_iff.mp h
  obtain rfl : r = 0 := hr
  have hok := Outcome.toOption_eq_some.mp hok
  have hfs : smallMkdir path = fs := by
    rw [smallMkdir, hok]
    rfl
  rw [sysMkdir, hpath] at hok
  rw [hfs]
  exact hok

theorem smallTree_tree : smallTree.Tree :=
  tree_of_reachable (C := fun _ _ => True) (.init smallTree_init)

/-- `/a` is created in the root. -/
theorem createsThenResolves_smallMkdir :
    ResolvesNew smallTree (smallMkdir (cstring ['/', 'a'])) (cstring ['/', 'a'])
      (smallNode 8).dirent vfsDirectory := by
  have hok := smallMkdir_call (cstring ['/', 'a']) (by decide) (by decide)
  have hparent : vfsParent (vfsFinddir smallTree)
      (fun n => (smallTree.node n).has vfsDirectory) smallTree.root (cstring ['/', 'a']) =
        some (0x1000, cstring ['a']) := by decide
  have hentry : NewEntry smallTree (cstring ['/', 'a']) := by
    intro n name hsome hdir
    obtain ⟨rfl, rfl⟩ := Prod.mk.inj (Option.some.inj (hparent.symm.trans hsome))
    exact ⟨⟨by decide, by decide, by decide, by decide⟩, by decide⟩
  exact ((createsThenResolves_iff smallTree_tree (by decide) (by decide) hok).mpr hentry).1 rfl

/-- `/bin` is created again. -/
theorem not_createsThenResolves :
    ¬ ∀ (op : Creator) (fs fs' : Kyrofs) (new : NewNode) (path : CString) (r : Int), fs.Tree →
      new.dirent ∉ fs.live → path.length < maxFilenameLen →
      op.call fs new fs.root path = .ok (fs', r) →
      (r = 0 → ResolvesNew fs fs' path new.dirent op.flags) ∧ (r ≠ 0 → fs' = fs) := by
  intro hall
  have hok := smallMkdir_call (cstring ['/', 'b', 'i', 'n']) (by decide) (by decide)
  have hnew := (hall _ _ _ _ _ _ smallTree_tree (by decide) (by decide) hok).1 rfl
  rcases hnew.others (cstring ['/', '/', 'b', 'i', 'n']) (by decide) with heq | ⟨hnone, -⟩
  · exact absurd heq (by decide)
  · exact absurd hnone (by decide)

end Creating

end KyroOS.Vfs

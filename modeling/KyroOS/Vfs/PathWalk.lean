import KyroOS.Vfs.CreateResolve
import Mathlib.Data.List.TakeWhile

/-!
# The walk along a path

`vfs_resolve_path` reads its path byte by byte, copies each component to a buffer of
`MAX_FILENAME_LEN` bytes, and looks it up in the node it has come to. Components that fit the
buffer are looked up one after another, so a path leads where its second half leads from the end
of the first.

## Main definitions

* `resolveLoop`, `Kyrofs.resolveFrom` — the loop and the call
* `ComponentsFit` — the components fit the buffer
* `SlashFits` — a slash between two parts of a path divides no component

## Main results

* `resolveLoop_eq` — the loop walks the list of components
* `resolveFrom_composes` — the resolution of a path in two parts, and of one with more slashes
-/

namespace KyroOS.Vfs

/-! ### The loop -/

section Loop

variable {ν : Type} (finddir : ν → CString → Option ν)

/-- The copy of a component to `buf`, with its NUL, and the node it leads to. Between two slashes
there is nothing to copy. -/
def enterComponent (current : ν) (name : CString) : Outcome (Option ν) :=
  if name = [] then .ok (some current)
  else if maxFilenameLen ≤ name.length then .error .fault
  else .ok (finddir current name)

theorem length_dropWhile_lt {start next : CString} {c : Byte}
    (h : start.dropWhile (· ≠ slash) = c :: next) : next.length < start.length := by
  have hle := (List.dropWhile_sublist (l := start) (· ≠ slash)).length_le
  rw [h, List.length_cons] at hle
  omega

/-- The loop of `vfs_resolve_path`. -/
def resolveLoop (current : ν) (start : CString) : Outcome (Option ν) :=
  if start = [] then .ok (some current)
  else do
    match ← enterComponent finddir current (start.takeWhile (· ≠ slash)) with
    | none => .ok none
    | some current =>
      match _h : start.dropWhile (· ≠ slash) with
      | [] => .ok (some current)
      | _ :: next => resolveLoop current next
termination_by start.length
decreasing_by exact length_dropWhile_lt _h

end Loop

/-- `vfs_resolve_path` from a node that may be `NULL`. -/
def Kyrofs.resolveFrom (fs : Kyrofs) (root : Option Word) (path : CString) :
    Outcome (Option Word) :=
  match root with
  | none => .ok none
  | some root =>
    match path with
    | [] => resolveLoop (vfsFinddir fs) root []
    | c :: rest =>
      if c = slash then
        if rest = [] then .ok (some root) else resolveLoop (vfsFinddir fs) root rest
      else resolveLoop (vfsFinddir fs) root (c :: rest)

/-- Every component and its NUL fit `buf`. -/
def ComponentsFit (path : CString) : Prop :=
  ∀ name ∈ pathComponents path, name.length < maxFilenameLen

instance (path : CString) : Decidable (ComponentsFit path) :=
  inferInstanceAs (Decidable (∀ _ ∈ _, _))

/-- A slash between the parts is in front of the path, at its end, or beside another one. -/
def SlashFits (u v : CString) : Prop :=
  u = [] ∨ v = [] ∨ u.getLast? = some slash ∨ v.head? = some slash

/-! ### Components -/

section Components

variable {u v path : CString}

theorem pathComponents_concat_slash : pathComponents (path ++ [slash]) = pathComponents path := by
  rw [pathComponents_append]
  exact List.append_nil _

/-- A slash that divides no component changes none. -/
theorem SlashFits.pathComponents_insert (h : SlashFits u v) :
    pathComponents (u ++ slash :: v) = pathComponents (u ++ v) := by
  rcases h with rfl | rfl | hu | hv
  · exact pathComponents_slash
  · rw [pathComponents_concat_slash, List.append_nil]
  · obtain ⟨w, rfl⟩ := List.getLast?_eq_some_iff.mp hu
    rw [pathComponents_append, pathComponents_concat_slash, List.append_assoc,
      List.singleton_append, pathComponents_append]
  · obtain ⟨w, rfl⟩ := List.head?_eq_some_iff.mp hv
    rw [pathComponents_append, pathComponents_slash, pathComponents_append]

/-- The same for any number of slashes. -/
theorem SlashFits.pathComponents_replicate (h : SlashFits u v) (k : ℕ) :
    pathComponents (u ++ List.replicate k slash ++ v) = pathComponents (u ++ v) := by
  induction k with
  | zero => rw [List.replicate_zero, List.append_nil]
  | succ k ih =>
    have hfits : SlashFits u (List.replicate k slash ++ v) := by
      cases k with
      | zero => exact h
      | succ k => exact .inr (.inr (.inr rfl))
    rw [List.replicate_succ, List.append_assoc, List.cons_append, hfits.pathComponents_insert,
      ← List.append_assoc, ih]

end Components

/-! ### The walk -/

section Walk

variable {ν : Type} {finddir : ν → CString → Option ν} {path : CString}

theorem notMem_takeWhile (start : CString) : slash ∉ start.takeWhile (· ≠ slash) := by
  intro hmem
  have hne := List.mem_takeWhile_imp hmem
  simp at hne

theorem enterComponent_of_lt {current : ν} {name : CString} (hname : name.length < maxFilenameLen) :
    enterComponent finddir current name =
      .ok (if name = [] then some current else finddir current name) := by
  rw [enterComponent]
  split_ifs with hempty hlong
  · rfl
  · exact absurd hlong (Nat.not_le.mpr hname)
  · rfl

/-- The loop walks the list of components. -/
theorem resolveLoop_eq (hfit : ComponentsFit path) (current : ν) :
    resolveLoop finddir current path = .ok (vfsResolvePath finddir current path) := by
  induction hlen : path.length using Nat.strong_induction_on generalizing path current with
  | _ len ih =>
  rw [resolveLoop]
  split_ifs with hempty
  · rw [hempty, vfsResolvePath_nil]
  obtain ⟨name, hname⟩ : ∃ name, name = path.takeWhile (· ≠ slash) := ⟨_, rfl⟩
  obtain ⟨behind, hbehind⟩ : ∃ behind, behind = path.dropWhile (· ≠ slash) := ⟨_, rfl⟩
  have hpath : path = name ++ behind := by
    rw [hname, hbehind, List.takeWhile_append_dropWhile]
  have hslash : slash ∉ name := hname ▸ notMem_takeWhile path
  have hone := pathComponents_of_notMem hslash
  -- the component in front, and those behind the slash
  have hcomponents : pathComponents path =
      (if name = [] then [] else [name]) ++ pathComponents (behind.drop 1) := by
    cases hb : behind with
    | nil =>
      rw [hpath, hb, List.append_nil, hone]
      exact (List.append_nil _).symm
    | cons c next =>
      have hc : c = slash := by
        have hhead := List.head?_dropWhile_not (· ≠ slash) path
        rw [← hbehind, hb] at hhead
        simpa using hhead
      rw [hpath, hb, hc, pathComponents_append, hone]
      rfl
  have hshort : name.length < maxFilenameLen := by
    by_cases hnil : name = []
    · rw [hnil]
      exact Nat.two_pow_pos 8
    · refine hfit name ?_
      rw [hcomponents, if_neg hnil]
      exact List.mem_cons_self
  have hrest : ComponentsFit (behind.drop 1) := fun m hm =>
    hfit m (hcomponents ▸ List.mem_append_right _ hm)
  have hwalk : vfsResolvePath finddir current path =
      (if name = [] then some current else finddir current name).bind fun m =>
        vfsResolvePath finddir m (behind.drop 1) := by
    rw [vfsResolvePath, hcomponents, List.foldlM_append]
    split_ifs with hnil
    · rfl
    · rw [List.foldlM_cons]
      cases finddir current name with
      | none => rfl
      | some m => rfl
  rw [← hname, enterComponent_of_lt hshort, hwalk]
  cases (if name = [] then some current else finddir current name) with
  | none => rfl
  | some m =>
    show (match _h : path.dropWhile (· ≠ slash) with
      | [] => Except.ok (some m)
      | _ :: next => resolveLoop finddir m next) = .ok (vfsResolvePath finddir m (behind.drop 1))
    split
    · rename_i hnil
      rw [hbehind, hnil, List.drop_nil, vfsResolvePath_nil]
    · rename_i c next hcons
      have hlt := length_dropWhile_lt hcons
      rw [hbehind, hcons] at hrest ⊢
      exact ih _ (hlen ▸ hlt) hrest m rfl

end Walk

section Composition

variable {fs : Kyrofs} {path : CString}

/-- The call walks the list of components, if there is a node to start from. -/
theorem Kyrofs.resolveFrom_eq (hfit : ComponentsFit path) (root : Option Word) :
    fs.resolveFrom root path = .ok (root.bind fun n => fs.resolve n path) := by
  cases root with
  | none => rfl
  | some n =>
    show _ = Except.ok (fs.resolve n path)
    cases path with
    | nil => exact resolveLoop_eq hfit n
    | cons c rest =>
      rw [Kyrofs.resolveFrom]
      split_ifs with hc hrest
      · rw [hc, hrest]
        rfl
      · have hcomponents : pathComponents (c :: rest) = pathComponents rest := by
          rw [hc, pathComponents_slash]
        rw [Kyrofs.resolve, vfsResolvePath, hcomponents]
        exact resolveLoop_eq (fun m hm => hfit m (hcomponents ▸ hm)) n
      · exact resolveLoop_eq hfit n

/-- A path leads where its second part leads from the end of the first, and slashes that divide no
component change nothing. -/
theorem resolveFrom_composes (fs : Kyrofs) (root : Option Word) {p q : CString}
    (hp : ComponentsFit p) (hq : ComponentsFit q) :
    (∃ r, fs.resolveFrom root p = .ok r ∧
      fs.resolveFrom root (p ++ slash :: q) = fs.resolveFrom r q ∧
        (r = none → fs.resolveFrom root (p ++ slash :: q) = .ok none)) ∧
    ∀ u v k, p = u ++ v → SlashFits u v →
      fs.resolveFrom root (u ++ List.replicate k slash ++ v) = fs.resolveFrom root p := by
  constructor
  · have hboth : ComponentsFit (p ++ slash :: q) := by
      intro name hname
      rw [pathComponents_append] at hname
      exact (List.mem_append.mp hname).elim (hp name) (hq name)
    have hcompose : fs.resolveFrom root (p ++ slash :: q) =
        fs.resolveFrom (root.bind fun n => fs.resolve n p) q := by
      rw [Kyrofs.resolveFrom_eq hboth, Kyrofs.resolveFrom_eq hq, Option.bind_assoc]
      refine congrArg Except.ok (congrArg _ (funext fun n => ?_))
      rw [Kyrofs.resolve, vfsResolvePath, pathComponents_append, List.foldlM_append]
      rfl
    refine ⟨_, Kyrofs.resolveFrom_eq hp root, hcompose, fun hnone => ?_⟩
    rw [hcompose, hnone]
    rfl
  · rintro u v k rfl hfits
    have hsame := hfits.pathComponents_replicate k
    have hinserted : ComponentsFit (u ++ List.replicate k slash ++ v) := fun m hm =>
      hp m (hsame ▸ hm)
    rw [Kyrofs.resolveFrom_eq hinserted, Kyrofs.resolveFrom_eq hp]
    refine congrArg Except.ok (congrArg _ (funext fun n => ?_))
    rw [Kyrofs.resolve, Kyrofs.resolve, vfsResolvePath, vfsResolvePath, hsame]

/-- `/var` and `lib/..`, in the tree of `kyrofs_init`. -/
theorem resolveFrom_varLib :
    ∃ r, smallTree.resolveFrom (some smallTree.root) (cstring ['/', 'v', 'a', 'r']) = .ok r ∧
      smallTree.resolveFrom (some smallTree.root)
        (cstring ['/', 'v', 'a', 'r'] ++ slash :: cstring ['l', 'i', 'b', '/', '.', '.']) =
          smallTree.resolveFrom r (cstring ['l', 'i', 'b', '/', '.', '.']) := by
  obtain ⟨⟨r, hr, hcompose, -⟩, -⟩ := resolveFrom_composes smallTree (some smallTree.root)
    (p := cstring ['/', 'v', 'a', 'r']) (q := cstring ['l', 'i', 'b', '/', '.', '.'])
    (by decide) (by decide)
  exact ⟨r, hr, hcompose⟩

end Composition

end KyroOS.Vfs

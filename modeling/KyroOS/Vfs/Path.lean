import KyroOS.Basic
import Mathlib.Data.List.Basic
import Mathlib.Data.List.Nodup

/-!
# Paths

A path is a C string. It is resolved component by component from the root, and split at its last
slash by the calls that create and remove. Both depend only on how a name is looked up in one
node, so they are stated for nodes of any kind.

## Main definitions

* `CString` — a string without its final NUL
* `splitLast` — the parts before and behind the last slash
* `vfsResolvePath` — the node a path leads to
* `vfsParent` — the node in which a path names a child, and the name
* `pathOf` — the path through given names

## Main results

* `vfsResolvePath_eq_bind` — a path leads where its last component leads from the part before
* `vfsResolvePath_pathOf` — the path through proper names is walked name by name
-/

namespace KyroOS.Vfs

/-- A C string, without its final NUL. -/
abbrev CString := List Byte

/-- The string with the given characters. -/
def cstring (s : List Char) : CString := s.map fun c => BitVec.ofNat 8 c.toNat

def slash : Byte := 0x2F

/-- `MAX_FILENAME_LEN`. -/
def maxFilenameLen : ℕ := 256

/-- The parts before and behind the last slash. -/
def splitLast : CString → Option (CString × CString)
  | [] => none
  | c :: rest =>
    match splitLast rest with
    | some (dir, name) => some (c :: dir, name)
    | none => if c = slash then some ([], rest) else none

/-- The components of a path; empty ones are skipped. -/
def pathComponents (path : CString) : List CString :=
  (path.splitOn slash).filter fun name => name ≠ []

section Resolve

variable {ν : Type} (finddir : ν → CString → Option ν) (isDirectory : ν → Bool) (root : ν)

/-- `vfs_resolve_path` -/
def vfsResolvePath (path : CString) : Option ν :=
  (pathComponents path).foldlM finddir root

/-- The node in which `path` names a child, and the name: the first part of `vfs_mkdir`,
`vfs_create`, `vfs_remove` and `vfs_rmdir`. -/
def vfsParent (path : CString) : Option (ν × CString) :=
  match splitLast path with
  | none => some (root, path)
  | some ([], name) => some (root, name)
  | some (dir, name) =>
    ((vfsResolvePath finddir root dir).filter isDirectory).map fun parent => (parent, name)

end Resolve

/-! ### Splitting -/

theorem splitLast_eq_none {path : CString} : splitLast path = none ↔ slash ∉ path := by
  induction path with
  | nil => simp [splitLast]
  | cons c rest ih =>
    rw [splitLast]
    cases hrest : splitLast rest with
    | some p =>
      have hmem : slash ∈ rest := by
        by_contra hnot
        rw [ih.mpr hnot] at hrest
        cases hrest
      simp [hmem]
    | none =>
      have hnot := ih.mp hrest
      by_cases hc : c = slash
      · simp [hc]
      · simp [hc, hnot, Ne.symm hc]

theorem splitLast_eq_some {path dir name : CString} (h : splitLast path = some (dir, name)) :
    path = dir ++ slash :: name ∧ slash ∉ name := by
  induction path generalizing dir with
  | nil => cases h
  | cons c rest ih =>
    rw [splitLast] at h
    cases hrest : splitLast rest with
    | some p =>
      rw [hrest] at h
      obtain ⟨rfl, rfl⟩ := Prod.mk.inj (Option.some.inj h)
      obtain ⟨hpath, hname⟩ := ih hrest
      exact ⟨congrArg (c :: ·) hpath, hname⟩
    | none =>
      rw [hrest] at h
      dsimp only at h
      split_ifs at h with hc
      obtain ⟨rfl, rfl⟩ := Prod.mk.inj (Option.some.inj h)
      exact ⟨congrArg (· :: _) hc, splitLast_eq_none.mp hrest⟩

theorem pathComponents_append (dir name : CString) :
    pathComponents (dir ++ slash :: name) = pathComponents dir ++ pathComponents name := by
  rw [pathComponents, List.splitOn_append_cons_self, List.filter_append]
  rfl

/-- A name without a slash is one component, or none when it is empty. -/
theorem pathComponents_of_notMem {name : CString} (h : slash ∉ name) :
    pathComponents name = if name = [] then [] else [name] := by
  rw [pathComponents, List.splitOn_eq_singleton h]
  split_ifs with hempty <;> simp [hempty]

/-! ### Resolving -/

section Resolve

variable {ν : Type} {finddir : ν → CString → Option ν} {isDirectory : ν → Bool} {root n : ν}

theorem vfsResolvePath_nil : vfsResolvePath finddir root [] = some root := rfl

/-- A path leads where its last component leads from the part before. -/
theorem vfsResolvePath_eq_bind {dir name : CString} (hname : slash ∉ name) :
    vfsResolvePath finddir root (dir ++ slash :: name) =
      (vfsResolvePath finddir root dir).bind fun parent =>
        if name = [] then some parent else finddir parent name := by
  rw [vfsResolvePath, pathComponents_append, List.foldlM_append, pathComponents_of_notMem hname]
  refine congrArg _ (funext fun parent => ?_)
  split_ifs with hempty
  · rfl
  · exact bind_pure _

/-- What the nodes on the way have in common, the node at the end has. -/
theorem vfsResolvePath_mem {path : CString} {P : ν → Prop} (hroot : P root)
    (hstep : ∀ m name m', P m → finddir m name = some m' → P m')
    (h : vfsResolvePath finddir root path = some n) : P n := by
  unfold vfsResolvePath at h
  generalize pathComponents path = names at h
  induction names generalizing root with
  | nil =>
    obtain rfl : root = n := Option.some.inj h
    exact hroot
  | cons name rest ih =>
    obtain ⟨m, hm, hrest⟩ := Option.bind_eq_some_iff.mp h
    exact ih (hstep root name m hroot hm) hrest

/-- The parent is the root, or a directory that a path leads to. -/
theorem vfsParent_eq_some {path name : CString}
    (h : vfsParent finddir isDirectory root path = some (n, name)) :
    n = root ∨ isDirectory n ∧ ∃ dir, vfsResolvePath finddir root dir = some n := by
  unfold vfsParent at h
  split at h
  · exact .inl (Prod.mk.inj (Option.some.inj h)).1.symm
  · exact .inl (Prod.mk.inj (Option.some.inj h)).1.symm
  · obtain ⟨m, hm, heq⟩ := Option.map_eq_some_iff.mp h
    obtain ⟨rfl, -⟩ := Prod.mk.inj heq
    obtain ⟨hresolve, hdir⟩ := Option.filter_eq_some_iff.mp hm
    exact .inr ⟨hdir, _, hresolve⟩

/-! ### Paths through given names -/

/-- A name that a path can name a child by. -/
def ProperName (name : CString) : Prop :=
  name ≠ [] ∧ name ≠ cstring ['.'] ∧ name ≠ cstring ['.', '.'] ∧ slash ∉ name

/-- The path through the given names. -/
def pathOf (names : List CString) : CString := names.flatMap fun name => slash :: name

theorem pathComponents_pathOf {names : List CString} (h : ∀ name ∈ names, ProperName name) :
    pathComponents (pathOf names) = names := by
  induction names with
  | nil => rfl
  | cons name rest ih =>
    have hrest := ih fun name hname => h name (List.mem_cons_of_mem _ hname)
    obtain ⟨hne, -, -, hslash⟩ := h name List.mem_cons_self
    have hempty : pathComponents ([] : CString) = [] := rfl
    cases rest with
    | nil =>
      show pathComponents ([] ++ slash :: (name ++ [])) = [name]
      rw [pathComponents_append, hempty, List.append_nil, pathComponents_of_notMem hslash,
        if_neg hne, List.nil_append]
    | cons next rest =>
      show pathComponents ([] ++ slash :: (name ++ slash :: (next ++ pathOf rest))) = _
      have hbehind : pathComponents (next ++ pathOf rest) = next :: rest := by
        have hsplit := pathComponents_append [] (next ++ pathOf rest)
        rw [hempty, List.nil_append] at hsplit
        exact hsplit.symm.trans hrest
      rw [pathComponents_append, hempty, List.nil_append, pathComponents_append, hbehind,
        pathComponents_of_notMem hslash, if_neg hne, List.singleton_append]

/-- The path through proper names is walked name by name. -/
theorem vfsResolvePath_pathOf {names : List CString} (h : ∀ name ∈ names, ProperName name) :
    vfsResolvePath finddir root (pathOf names) = names.foldlM finddir root := by
  rw [vfsResolvePath, pathComponents_pathOf h]

end Resolve

end KyroOS.Vfs

import Mathlib.Data.List.Infix
import Mathlib.Data.Set.Insert
import Mathlib.Tactic
import Mathlib.Order.CompletePartialOrder

/-!
# Radix trees in a heap of nodes

A heap of nodes with a partial child function, such as page tables in memory. A path is
a list of indices; it leads from a node to the node found by following the children.
Only the paths that satisfy `ok` belong to a tree, which bounds its depth and its
indices. A forest is a set of roots whose trees share no node.

## Main definitions

* `walk` — the node a path leads to
* `Forest` — no node is reached from two roots, or by two paths
* `tree`, `nodes` — the nodes of one tree, and of a forest
* `postorder` — a traversal, each node after those below it

## Main results

* `Forest.frame` — a change outside the nodes, or below the last level, changes no walk
* `LinkStep.walk_eq`, `LinkStep.forest_link` — a fresh node under an empty slot
* `CutStep.walk_eq`, `CutStep.nodes_eq` — a leaf cut off
* `Forest.addRoot` — a fresh node as a tree of its own
* `mem_postorder`, `nodup_postorder` — a traversal visits every node, and none twice
-/

namespace RadixTree

variable {T I : Type*} {child child' : T → I → Option T} {ok : List I → Prop}
  {roots : Set T} {r r' t t' : T} {i j : I} {π ρ : List I}

/-- The node that the path `π` leads to from `t`. -/
def walk (child : T → I → Option T) : T → List I → Option T
  | t, [] => some t
  | t, i :: π => (child t i).bind fun t' => walk child t' π

@[simp] theorem walk_nil : walk child t [] = some t := rfl

theorem walk_append (π ρ : List I) :
    walk child t (π ++ ρ) = (walk child t π).bind fun t' => walk child t' ρ := by
  induction π generalizing t with
  | nil => rfl
  | cons i π ih =>
    simp only [List.cons_append, walk, Option.bind_assoc]
    congr 1
    funext t'
    exact ih

theorem walk_concat (π : List I) (i : I) :
    walk child t (π ++ [i]) = (walk child t π).bind fun t' => child t' i := by
  rw [walk_append]
  congr 1
  funext t'
  simp [walk]

/-- Two child functions that agree along a path lead to the same node. -/
theorem walk_congr (h : ∀ ρ j, ρ ++ [j] <+: π → ∀ t, walk child r ρ = some t →
    child' t j = child t j) : walk child' r π = walk child r π := by
  induction π generalizing r with
  | nil => rfl
  | cons i π ih =>
    have hhead : child' r i = child r i := h [] i (by simp) r rfl
    simp only [walk, hhead]
    cases hr : child r i with
    | none => rfl
    | some r' =>
      refine ih fun ρ j hpre t ht => h (i :: ρ) j ?_ t ?_
      · simpa using hpre
      · simpa [walk, hr] using ht

/-- The nodes of the tree at `r`. -/
def tree (child : T → I → Option T) (ok : List I → Prop) (r : T) : Set T :=
  {t | ∃ π, ok π ∧ walk child r π = some t}

/-- The nodes of the trees at `roots`. -/
def nodes (child : T → I → Option T) (ok : List I → Prop) (roots : Set T) : Set T :=
  {t | ∃ r ∈ roots, t ∈ tree child ok r}

/-- Every node is reached from one root and by one path only. -/
def Forest (child : T → I → Option T) (ok : List I → Prop) (roots : Set T) : Prop :=
  ∀ r ∈ roots, ∀ r' ∈ roots, ∀ π π' t, ok π → ok π' → walk child r π = some t →
    walk child r' π' = some t → r = r' ∧ π = π'

theorem Forest.mono {roots' : Set T} (h : Forest child ok roots) (hsub : roots' ⊆ roots) :
    Forest child ok roots' :=
  fun r hr r' hr' => h r (hsub hr) r' (hsub hr')

/-- The trees of different roots have no common node. -/
theorem Forest.disjoint (h : Forest child ok roots) (hr : r ∈ roots) (hr' : r' ∈ roots)
    (hne : r ≠ r') : Disjoint (tree child ok r) (tree child ok r') := by
  rw [Set.disjoint_left]
  rintro t ⟨π, hπ, ht⟩ ⟨π', hπ', ht'⟩
  exact hne (h r hr r' hr' π π' t hπ hπ' ht ht').1

/-- `child'` is `child` with the fresh node `t₀` in the empty slot `i` of the node that `π`
leads to from the root `r`. -/
structure LinkStep (child child' : T → I → Option T) (ok : List I → Prop) (roots : Set T)
    (r : T) (π : List I) (i : I) (t₀ : T) : Prop where
  forest : Forest child ok roots
  root : r ∈ roots
  slot_ok : ok (π ++ [i])
  slot : ∃ t, walk child r π = some t ∧ child t i = none ∧ child' t i = some t₀ ∧
    ∀ r' ∈ roots, ∀ ρ j t', ok (ρ ++ [j]) → walk child r' ρ = some t' → (t', j) ≠ (t, i) →
      child' t' j = child t' j
  fresh : t₀ ∉ nodes child ok roots
  leaf : ∀ j, ok (π ++ [i] ++ [j]) → child' t₀ j = none

/-- `child'` is `child` with the slot `i` of the node that `π` leads to from the root `r`
cleared. The slot is in the last level, so a leaf is cut off. -/
structure CutStep (child child' : T → I → Option T) (ok : List I → Prop) (roots : Set T)
    (r : T) (π : List I) (i : I) : Prop where
  forest : Forest child ok roots
  root : r ∈ roots
  slot_ok : ok (π ++ [i])
  last : ∀ j, ¬ ok (π ++ [i] ++ [j])
  slot : ∃ t, walk child r π = some t ∧ child' t i = none ∧
    ∀ r' ∈ roots, ∀ ρ j t', ok (ρ ++ [j]) → walk child r' ρ = some t' → (t', j) ≠ (t, i) →
      child' t' j = child t' j

section PrefixClosed

variable (hok : ∀ π i, ok (π ++ [i]) → ok π)

include hok

theorem ok_of_isPrefix (h : ρ <+: π) (hπ : ok π) : ok ρ := by
  obtain ⟨σ, rfl⟩ := h
  induction σ using List.reverseRecOn with
  | nil => simpa using hπ
  | append_singleton σ i ih =>
    rw [← List.append_assoc] at hπ
    exact ih (hok _ _ hπ)

/-- A change that keeps the children of the nodes, as far as paths follow them, changes no
walk. -/
theorem walk_frame (hr : r ∈ roots)
    (hsame : ∀ r ∈ roots, ∀ π j t, ok (π ++ [j]) → walk child r π = some t →
      child' t j = child t j) (hπ : ok π) : walk child' r π = walk child r π :=
  walk_congr fun ρ j hpre t ht => hsame r hr ρ j t (ok_of_isPrefix hok hpre hπ) ht

theorem tree_frame (hr : r ∈ roots)
    (hsame : ∀ r ∈ roots, ∀ π j t, ok (π ++ [j]) → walk child r π = some t →
      child' t j = child t j) : tree child' ok r = tree child ok r := by
  ext t
  refine exists_congr fun π => and_congr_right fun hπ => ?_
  rw [walk_frame hok hr hsame hπ]

/-- Such a change keeps the forest. -/
theorem Forest.frame (h : Forest child ok roots)
    (hsame : ∀ r ∈ roots, ∀ π j t, ok (π ++ [j]) → walk child r π = some t →
      child' t j = child t j) : Forest child' ok roots := by
  intro r hr r' hr' π π' t hπ hπ' ht ht'
  rw [walk_frame hok hr hsame hπ] at ht
  rw [walk_frame hok hr' hsame hπ'] at ht'
  exact h r hr r' hr' π π' t hπ hπ' ht ht'

section Link

variable {t₀ : T} (h : LinkStep child child' ok roots r π i t₀)

include h

/-- The walks after a fresh node was linked: one new path, and the old ones. -/
theorem LinkStep.walk_eq (hr' : r' ∈ roots) (ρ : List I) (hρ : ok ρ) :
    (r' = r ∧ ρ = π ++ [i] ∧ walk child' r' ρ = some t₀) ∨
      (¬ (r' = r ∧ ρ = π ++ [i]) ∧ walk child' r' ρ = walk child r' ρ) := by
  obtain ⟨t, hwalk, hempty, hlink, hsame⟩ := h.slot
  -- a path that does not pass through the slot is not affected
  have havoid : ∀ ρ, ok ρ → ¬ (r' = r ∧ π ++ [i] <+: ρ) →
      walk child' r' ρ = walk child r' ρ := by
    intro ρ hρ hnot
    refine walk_congr fun σ j hpre t' ht' => ?_
    have hσ := ok_of_isPrefix hok hpre hρ
    refine hsame r' hr' σ j t' hσ ht' fun heq => ?_
    obtain ⟨rfl, rfl⟩ := Prod.mk.injEq .. ▸ heq
    obtain ⟨hrr, rfl⟩ :=
      h.forest r' hr' r h.root σ π t' (hok _ _ hσ) (hok _ _ h.slot_ok) ht' hwalk
    exact hnot ⟨hrr, hpre⟩
  by_cases hthrough : r' = r ∧ π ++ [i] <+: ρ
  · obtain ⟨rfl, σ, rfl⟩ := hthrough
    have hπ : walk child' r' π = some t := by
      rw [havoid π (hok _ _ h.slot_ok), hwalk]
      rintro ⟨-, hpre⟩
      simpa using hpre.length_le
    have hnew : walk child' r' (π ++ [i]) = some t₀ := by
      rw [walk_concat, hπ, Option.bind_some, hlink]
    cases σ with
    | nil => exact .inl ⟨rfl, by simp, by simpa using hnew⟩
    | cons j σ =>
      refine .inr ⟨by simp, ?_⟩
      have hold : walk child r' (π ++ [i]) = none := by
        rw [walk_concat, hwalk, Option.bind_some, hempty]
      have hj : ok (π ++ [i] ++ [j]) :=
        ok_of_isPrefix hok ((List.prefix_append_right_inj _).mpr ⟨σ, rfl⟩) hρ
      rw [walk_append (π ++ [i]), walk_append (π ++ [i]), hnew, hold]
      simp [walk, h.leaf j hj]
  · refine .inr ⟨fun heq => hthrough ⟨heq.1, ?_⟩, havoid ρ hρ hthrough⟩
    rw [heq.2]

/-- The path to the fresh node. -/
theorem LinkStep.walk_new : walk child' r (π ++ [i]) = some t₀ := by
  rcases h.walk_eq hok h.root _ h.slot_ok with ⟨-, -, hnew⟩ | ⟨hnot, -⟩
  · exact hnew
  · exact absurd ⟨rfl, rfl⟩ hnot

/-- What a path led to, it still leads to. -/
theorem LinkStep.walk_mono (hr' : r' ∈ roots) (hρ : ok ρ) (ht : walk child r' ρ = some t) :
    walk child' r' ρ = some t := by
  rcases h.walk_eq hok hr' ρ hρ with ⟨rfl, rfl, -⟩ | ⟨-, hold⟩
  · obtain ⟨t', hwalk, hempty, -⟩ := h.slot
    simp [walk_concat, hwalk, hempty] at ht
  · rw [hold, ht]

/-- The fresh node belongs to the tree now. -/
theorem LinkStep.tree_eq : tree child' ok r = insert t₀ (tree child ok r) := by
  ext t
  rw [Set.mem_insert_iff]
  constructor
  · rintro ⟨ρ, hρ, ht⟩
    rcases h.walk_eq hok h.root ρ hρ with ⟨-, -, hnew⟩ | ⟨-, hold⟩
    · exact .inl (Option.some.inj (ht.symm.trans hnew))
    · exact .inr ⟨ρ, hρ, hold ▸ ht⟩
  · rintro (rfl | ⟨ρ, hρ, ht⟩)
    · exact ⟨π ++ [i], h.slot_ok, h.walk_new hok⟩
    · exact ⟨ρ, hρ, h.walk_mono hok h.root hρ ht⟩

/-- The other trees are as before. -/
theorem LinkStep.tree_of_ne (hr' : r' ∈ roots) (hne : r' ≠ r) :
    tree child' ok r' = tree child ok r' := by
  ext t
  refine exists_congr fun ρ => and_congr_right fun hρ => ?_
  rcases h.walk_eq hok hr' ρ hρ with ⟨hrr, -, -⟩ | ⟨-, hold⟩
  · exact absurd hrr hne
  · rw [hold]

theorem LinkStep.nodes_eq : nodes child' ok roots = insert t₀ (nodes child ok roots) := by
  ext t
  rw [Set.mem_insert_iff]
  constructor
  · rintro ⟨r', hr', ht⟩
    by_cases hrr : r' = r
    · rw [hrr, h.tree_eq hok] at ht
      exact ht.imp_right fun ht => ⟨r, h.root, ht⟩
    · exact .inr ⟨r', hr', h.tree_of_ne hok hr' hrr ▸ ht⟩
  · rintro (rfl | ⟨r', hr', ht⟩)
    · exact ⟨r, h.root, h.tree_eq hok ▸ Set.mem_insert _ _⟩
    · obtain ⟨ρ, hρ, ht⟩ := ht
      exact ⟨r', hr', ρ, hρ, h.walk_mono hok hr' hρ ht⟩

theorem LinkStep.forest_link : Forest child' ok roots := by
  intro r₁ hr₁ r₂ hr₂ π₁ π₂ t hπ₁ hπ₂ ht₁ ht₂
  rcases h.walk_eq hok hr₁ π₁ hπ₁ with ⟨rfl, rfl, hnew₁⟩ | ⟨-, hold₁⟩ <;>
    rcases h.walk_eq hok hr₂ π₂ hπ₂ with ⟨rfl, rfl, hnew₂⟩ | ⟨-, hold₂⟩
  · exact ⟨rfl, rfl⟩
  · -- the fresh node was in no tree before
    obtain rfl := Option.some.inj (hnew₁.symm.trans ht₁)
    exact absurd ⟨r₂, hr₂, π₂, hπ₂, hold₂ ▸ ht₂⟩ h.fresh
  · obtain rfl := Option.some.inj (hnew₂.symm.trans ht₂)
    exact absurd ⟨r₁, hr₁, π₁, hπ₁, hold₁ ▸ ht₁⟩ h.fresh
  · exact h.forest r₁ hr₁ r₂ hr₂ π₁ π₂ t hπ₁ hπ₂ (hold₁ ▸ ht₁) (hold₂ ▸ ht₂)

end Link

section Cut

variable (h : CutStep child child' ok roots r π i)

include h

/-- The walks after a leaf was cut off: one path fewer. -/
theorem CutStep.walk_eq (hr' : r' ∈ roots) (ρ : List I) (hρ : ok ρ) :
    (r' = r ∧ ρ = π ++ [i] ∧ walk child' r' ρ = none) ∨
      (¬ (r' = r ∧ ρ = π ++ [i]) ∧ walk child' r' ρ = walk child r' ρ) := by
  obtain ⟨t, hwalk, hcut, hsame⟩ := h.slot
  have havoid : ∀ ρ, ok ρ → ¬ (r' = r ∧ π ++ [i] <+: ρ) →
      walk child' r' ρ = walk child r' ρ := by
    intro ρ hρ hnot
    refine walk_congr fun σ j hpre t' ht' => ?_
    have hσ := ok_of_isPrefix hok hpre hρ
    refine hsame r' hr' σ j t' hσ ht' fun heq => ?_
    obtain ⟨rfl, rfl⟩ := Prod.mk.injEq .. ▸ heq
    obtain ⟨hrr, rfl⟩ :=
      h.forest r' hr' r h.root σ π t' (hok _ _ hσ) (hok _ _ h.slot_ok) ht' hwalk
    exact hnot ⟨hrr, hpre⟩
  by_cases hthrough : r' = r ∧ π ++ [i] <+: ρ
  · obtain ⟨rfl, σ, rfl⟩ := hthrough
    cases σ with
    | nil =>
      refine .inl ⟨rfl, by simp, ?_⟩
      have hπ : walk child' r' π = some t := by
        rw [havoid π (hok _ _ h.slot_ok), hwalk]
        rintro ⟨-, hpre⟩
        simpa using hpre.length_le
      rw [List.append_nil, walk_concat, hπ, Option.bind_some, hcut]
    | cons j σ =>
      refine absurd (ok_of_isPrefix hok ?_ hρ) (h.last j)
      exact (List.prefix_append_right_inj _).mpr ⟨σ, rfl⟩
  · refine .inr ⟨fun heq => hthrough ⟨heq.1, ?_⟩, havoid ρ hρ hthrough⟩
    rw [heq.2]

/-- What a path leads to, it led to before. -/
theorem CutStep.walk_anti (hr' : r' ∈ roots) (hρ : ok ρ) (ht : walk child' r' ρ = some t) :
    walk child r' ρ = some t := by
  rcases h.walk_eq hok hr' ρ hρ with ⟨-, -, hnone⟩ | ⟨-, hold⟩
  · simp [hnone] at ht
  · rw [← hold, ht]

theorem CutStep.forest_cut : Forest child' ok roots := by
  intro r₁ hr₁ r₂ hr₂ π₁ π₂ t hπ₁ hπ₂ ht₁ ht₂
  exact h.forest r₁ hr₁ r₂ hr₂ π₁ π₂ t hπ₁ hπ₂ (h.walk_anti hok hr₁ hπ₁ ht₁)
    (h.walk_anti hok hr₂ hπ₂ ht₂)

/-- The leaf that was cut off is the only node lost. -/
theorem CutStep.nodes_eq : nodes child' ok roots =
    {t | t ∈ nodes child ok roots ∧ walk child r (π ++ [i]) ≠ some t} := by
  ext t
  constructor
  · rintro ⟨r', hr', ρ, hρ, ht⟩
    have hold := h.walk_anti hok hr' hρ ht
    refine ⟨⟨r', hr', ρ, hρ, hold⟩, fun hleaf => ?_⟩
    obtain ⟨rfl, rfl⟩ := h.forest r' hr' r h.root ρ _ t hρ h.slot_ok hold hleaf
    rcases h.walk_eq hok hr' _ hρ with ⟨-, -, hnone⟩ | ⟨hnot, -⟩
    · simp [hnone] at ht
    · exact hnot ⟨rfl, rfl⟩
  · rintro ⟨⟨r', hr', ρ, hρ, ht⟩, hleaf⟩
    refine ⟨r', hr', ρ, hρ, ?_⟩
    rcases h.walk_eq hok hr' ρ hρ with ⟨rfl, rfl, -⟩ | ⟨-, hold⟩
    · exact absurd ht hleaf
    · rw [hold, ht]

end Cut

section AddRoot

variable {t₀ : T} (h : Forest child ok roots) (hfresh : t₀ ∉ nodes child ok roots)
  (hleaf : ∀ j, ok [j] → child' t₀ j = none)
  (hsame : ∀ r ∈ roots, ∀ π j t, ok (π ++ [j]) → walk child r π = some t →
    child' t j = child t j)

include hleaf in
/-- A node without children is a tree by itself. -/
theorem walk_leaf (hπ : ok π) (ht : walk child' t₀ π = some t) : π = [] ∧ t = t₀ := by
  cases π with
  | nil => exact ⟨rfl, (Option.some.inj ht).symm⟩
  | cons j σ =>
    have hj : ok [j] := ok_of_isPrefix hok (ρ := [j]) (π := j :: σ) (by simp) hπ
    simp [walk, hleaf j hj] at ht

include hleaf in
theorem tree_leaf (hnil : ok []) : tree child' ok t₀ = {t₀} := by
  ext t
  constructor
  · rintro ⟨π, hπ, ht⟩
    exact (walk_leaf hok hleaf hπ ht).2
  · rintro rfl
    exact ⟨[], hnil, rfl⟩

include hleaf hsame in
theorem nodes_addRoot (hnil : ok []) :
    nodes child' ok (insert t₀ roots) = insert t₀ (nodes child ok roots) := by
  ext t
  rw [Set.mem_insert_iff]
  constructor
  · rintro ⟨r, rfl | hr, ht⟩
    · rw [tree_leaf hok hleaf hnil] at ht
      exact .inl ht
    · exact .inr ⟨r, hr, tree_frame hok hr hsame ▸ ht⟩
  · rintro (rfl | ⟨r, hr, ht⟩)
    · exact ⟨t, .inl rfl, [], hnil, rfl⟩
    · exact ⟨r, .inr hr, (tree_frame hok hr hsame).symm ▸ ht⟩

include h hfresh hleaf hsame in
theorem Forest.addRoot : Forest child' ok (insert t₀ roots) := by
  have hnotin : ∀ r ∈ roots, ∀ π, ok π → walk child' r π ≠ some t₀ := by
    intro r hr π hπ ht
    rw [walk_frame hok hr hsame hπ] at ht
    exact hfresh ⟨r, hr, π, hπ, ht⟩
  rintro r hr r' hr' π π' t hπ hπ' ht ht'
  rcases hr with rfl | hr <;> rcases hr' with rfl | hr'
  · obtain ⟨rfl, -⟩ := walk_leaf hok hleaf hπ ht
    obtain ⟨rfl, -⟩ := walk_leaf hok hleaf hπ' ht'
    exact ⟨rfl, rfl⟩
  · obtain ⟨-, rfl⟩ := walk_leaf hok hleaf hπ ht
    exact absurd ht' (hnotin r' hr' π' hπ')
  · obtain ⟨-, rfl⟩ := walk_leaf hok hleaf hπ' ht'
    exact absurd ht (hnotin r hr π hπ)
  · exact h.frame hok hsame r hr r' hr' π π' t hπ hπ' ht ht'

end AddRoot

end PrefixClosed

/-! ### Traversals -/

/-- The paths that take their indices from `levels`, one level after the other. -/
def PathIn : List (List I) → List I → Prop
  | _, [] => True
  | [], _ :: _ => False
  | level :: levels, i :: π => i ∈ level ∧ PathIn levels π

/-- The nodes below `t` and then `t` itself, as far down as there are `levels` of indices. -/
def postorder (child : T → I → Option T) : List (List I) → T → List T
  | [], t => [t]
  | level :: levels, t =>
    level.flatMap (fun i => (child t i).elim [] (postorder child levels)) ++ [t]

section Postorder

variable {levels : List (List I)} {level : List I}

theorem walk_cons (i : I) (π : List I) :
    walk child t (i :: π) = (child t i).bind fun t' => walk child t' π := rfl

/-- What is visited below an index. -/
theorem mem_elim_postorder : t' ∈ (child t i).elim [] (postorder child levels) ↔
    ∃ s, child t i = some s ∧ t' ∈ postorder child levels s := by
  cases child t i with
  | none => simp
  | some s => simp

/-- The traversal visits what the paths lead to. -/
theorem mem_postorder : t' ∈ postorder child levels t ↔
    ∃ π, PathIn levels π ∧ walk child t π = some t' := by
  induction levels generalizing t with
  | nil =>
    rw [postorder, List.mem_singleton]
    constructor
    · rintro rfl
      exact ⟨[], trivial, rfl⟩
    · rintro ⟨π, hπ, hwalk⟩
      cases π with
      | nil => exact (Option.some.inj hwalk).symm
      | cons i π => exact hπ.elim
  | cons level levels ih =>
    rw [postorder, List.mem_append, List.mem_flatMap, List.mem_singleton]
    constructor
    · rintro (⟨i, hi, hmem⟩ | rfl)
      · obtain ⟨s, hs, hbelow⟩ := mem_elim_postorder.mp hmem
        obtain ⟨π, hπ, hwalk⟩ := ih.mp hbelow
        exact ⟨i :: π, ⟨hi, hπ⟩, by rw [walk_cons, hs, Option.bind_some, hwalk]⟩
      · exact ⟨[], trivial, rfl⟩
    · rintro ⟨π, hπ, hwalk⟩
      cases π with
      | nil => exact .inr (Option.some.inj hwalk).symm
      | cons i π =>
        obtain ⟨hi, hπ⟩ := hπ
        rw [walk_cons, Option.bind_eq_some_iff] at hwalk
        obtain ⟨s, hs, hbelow⟩ := hwalk
        exact .inl ⟨i, hi, mem_elim_postorder.mpr ⟨s, hs, ih.mpr ⟨π, hπ, hbelow⟩⟩⟩

/-- Where no two paths lead to one node, the traversal visits no node twice. -/
theorem nodup_postorder (hlevels : ∀ level ∈ levels, level.Nodup)
    (hinj : ∀ π π' t', PathIn levels π → PathIn levels π' → walk child t π = some t' →
      walk child t π' = some t' → π = π') : (postorder child levels t).Nodup := by
  induction levels generalizing t with
  | nil => exact List.nodup_singleton t
  | cons level levels ih =>
    rw [postorder]
    refine List.Nodup.append ?_ (List.nodup_singleton t) ?_
    · refine List.nodup_flatMap.mpr ⟨fun i hi => ?_, ?_⟩
      · -- below one index
        cases hs : child t i with
        | none => exact List.nodup_nil
        | some s =>
          refine ih (fun l hl => hlevels l (List.mem_cons_of_mem level hl)) ?_
          intro π π' t' hπ hπ' hwalk hwalk'
          have heq := hinj (i :: π) (i :: π') t' ⟨hi, hπ⟩ ⟨hi, hπ'⟩
            (by rw [walk_cons, hs, Option.bind_some, hwalk])
            (by rw [walk_cons, hs, Option.bind_some, hwalk'])
          exact (List.cons.inj heq).2
      · -- below two of them
        refine (hlevels level List.mem_cons_self).imp_of_mem fun {i j} hi hj hne => ?_
        intro t' hti htj
        obtain ⟨s, hs, hbelow⟩ := mem_elim_postorder.mp hti
        obtain ⟨s', hs', hbelow'⟩ := mem_elim_postorder.mp htj
        obtain ⟨π, hπ, hwalk⟩ := mem_postorder.mp hbelow
        obtain ⟨π', hπ', hwalk'⟩ := mem_postorder.mp hbelow'
        have heq := hinj (i :: π) (j :: π') t' ⟨hi, hπ⟩ ⟨hj, hπ'⟩
          (by rw [walk_cons, hs, Option.bind_some, hwalk])
          (by rw [walk_cons, hs', Option.bind_some, hwalk'])
        exact hne (List.cons.inj heq).1
    · -- the node itself is not below itself
      intro t' hmem ht'
      obtain rfl := List.mem_singleton.mp ht'
      obtain ⟨i, hi, hbelow⟩ := List.mem_flatMap.mp hmem
      obtain ⟨s, hs, hbelow⟩ := mem_elim_postorder.mp hbelow
      obtain ⟨π, hπ, hwalk⟩ := mem_postorder.mp hbelow
      have heq := hinj (i :: π) [] t' ⟨hi, hπ⟩ trivial
        (by rw [walk_cons, hs, Option.bind_some, hwalk]) rfl
      exact List.cons_ne_nil i π heq

end Postorder

end RadixTree

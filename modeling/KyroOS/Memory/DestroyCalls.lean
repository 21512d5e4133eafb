import KyroOS.Elf.KernelHalf
import KyroOS.Memory.Translation

/-!
# The pages that `vmm_destroy_address_space` frees

`vmm_destroy_address_space` goes through the tables of the user half, each after the tables
below it, and calls `pmm_free_page` for each of them. What it finds is what `vmm_map_page` has
put there.

## Main definitions

* `destroyCalls` — the arguments of `pmm_free_page`, in order
* `SpaceState`, `SpaceCall`, `spaceCalls` — an address space from its creation on
* `TearsDown` — its tables are freed, each once, and nothing else

## Main results

* `vmmDestroyAddressSpace_calls` — the calls are those of `vmm_destroy_address_space`
* `PageOp.run_builds` — what one call adds to the tables
* `SpaceCallStep.spaceInv` — the step lemma: the tables are the pages that were taken
* `tearsDown_full` — the case that there is no page for the top-level table
* `tearsDown_of_reachable` — destroying the address space is exact
-/

namespace KyroOS.Memory

open RadixTree Elf Transition

/-! ### The calls of `pmm_free_page` -/

/-- The arguments of `pmm_free_page` for a table: those for the tables that its first `n` entries
point to, and then the table. -/
def levelCalls (v : Vmm) (calls : Word → List Word) (n : ℕ) (t : Word) : List Word :=
  (List.range n).flatMap (fun i => (v.nextLevel t i).elim [] calls) ++ [v.virtToPhys t]

/-- Those for a page directory. -/
def pdCalls (v : Vmm) : Word → List Word := levelCalls v (fun pt => [v.virtToPhys pt]) 512

/-- Those for a page directory pointer table. -/
def pdptCalls (v : Vmm) : Word → List Word := levelCalls v (pdCalls v) 512

/-- Those of `vmm_destroy_address_space`. -/
def destroyCalls (v : Vmm) (pml4 : Word) : List Word :=
  if pml4 = 0 then [] else levelCalls v (pdptCalls v) 256 pml4

section Calls

variable {v : Vmm} {r : Word}

theorem foldl_levelCalls {calls : Word → List Word} {f : Pmm → Word → Pmm}
    (hf : ∀ pmm t, f pmm t = (calls t).foldl pmmFreePage pmm) (n : ℕ) (pmm : Pmm) (t : Word) :
    pmmFreePage ((List.range n).foldl (fun pmm i => match v.nextLevel t i with
        | some t' => f pmm t'
        | none => pmm) pmm) (v.virtToPhys t) =
      (levelCalls v calls n t).foldl pmmFreePage pmm := by
  rw [levelCalls, List.foldl_append, List.foldl_flatMap, List.foldl_cons, List.foldl_nil]
  congr 2
  funext pmm i
  cases v.nextLevel t i with
  | none => rfl
  | some t' => exact hf pmm t'

/-- The calls are those that `vmm_destroy_address_space` makes. -/
theorem vmmDestroyAddressSpace_calls (v : Vmm) (r : Word) :
    vmmDestroyAddressSpace v r =
      { v with pmm := (destroyCalls v r).foldl pmmFreePage v.pmm } := by
  have hpt : ∀ pmm t, pmmFreePage pmm (v.virtToPhys t) = [v.virtToPhys t].foldl pmmFreePage pmm :=
    fun _ _ => rfl
  have hpd : ∀ pmm t, freePd v pmm t = (pdCalls v t).foldl pmmFreePage pmm := by
    intro pmm t
    rw [pdCalls, ← foldl_levelCalls hpt]
    rfl
  have hpdpt : ∀ pmm t, freePdpt v pmm t = (pdptCalls v t).foldl pmmFreePage pmm := by
    intro pmm t
    rw [pdptCalls, ← foldl_levelCalls hpd]
    rfl
  rw [vmmDestroyAddressSpace, destroyCalls]
  split_ifs with hnull
  · rfl
  · exact congrArg (fun pmm => { v with pmm }) (foldl_levelCalls hpdpt 256 v.pmm r)

theorem levelCalls_eq (v : Vmm) (levels : List (List ℕ)) (n : ℕ) (t : Word) :
    levelCalls v (fun t => (postorder v.nextLevel levels t).map v.virtToPhys) n t =
      (postorder v.nextLevel (List.range n :: levels) t).map v.virtToPhys := by
  rw [levelCalls, postorder, List.map_append, List.map_flatMap]
  congr 2
  funext i
  cases v.nextLevel t i <;> rfl

/-- The indices of the tables of the three levels below a top-level table. -/
def userLevels : List (List ℕ) := [List.range 256, List.range 512, List.range 512]

/-- The loops go through the tables as a traversal does. -/
theorem destroyCalls_eq (hr : r ≠ 0) :
    destroyCalls v r = (postorder v.nextLevel userLevels r).map v.virtToPhys := by
  have hpd : pdCalls v = fun t =>
      (postorder v.nextLevel [List.range 512] t).map v.virtToPhys := by
    funext t
    exact levelCalls_eq v [] 512 t
  have hpdpt : pdptCalls v = fun t =>
      (postorder v.nextLevel [List.range 512, List.range 512] t).map v.virtToPhys := by
    funext t
    rw [pdptCalls, hpd]
    exact levelCalls_eq v [List.range 512] 512 t
  rw [destroyCalls, if_neg hr, hpdpt]
  exact levelCalls_eq v [List.range 512, List.range 512] 256 r

theorem pathIn_userLevels {π : List ℕ} : PathIn userLevels π ↔ TablePath 3 π := by
  rcases π with - | ⟨i, - | ⟨j, - | ⟨k, - | ⟨l, π⟩⟩⟩⟩ <;>
    simp [PathIn, userLevels, TablePath]
  all_goals omega

theorem virtToPhys_inj (v : Vmm) : Function.Injective v.virtToPhys := by
  intro t t' heq
  have hadd := congrArg (· + v.hhdm) heq
  simpa only [Vmm.virtToPhys, BitVec.sub_add_cancel] using hadd

/-- The tables that are freed are those that the paths of the user half lead to. -/
theorem mem_destroyCalls (hr : r ≠ 0) {a : Word} : a ∈ destroyCalls v r ↔
    ∃ π t, TablePath 3 π ∧ v.walk r π = some t ∧ a = v.virtToPhys t := by
  rw [destroyCalls_eq hr, List.mem_map]
  constructor
  · rintro ⟨t, ht, rfl⟩
    obtain ⟨π, hπ, hwalk⟩ := mem_postorder.mp ht
    exact ⟨π, t, pathIn_userLevels.mp hπ, hwalk, rfl⟩
  · rintro ⟨π, t, hπ, hwalk, rfl⟩
    exact ⟨t, mem_postorder.mpr ⟨π, pathIn_userLevels.mpr hπ, hwalk⟩, rfl⟩

/-- In an address space that shares no tables none is freed twice. -/
theorem nodup_destroyCalls {d : ℕ} {roots : Set Word} (h : SpacesInv d v roots) (hr : r ∈ roots)
    (hnull : r ≠ 0) : (destroyCalls v r).Nodup := by
  rw [destroyCalls_eq hnull]
  refine List.Nodup.map (virtToPhys_inj v) (nodup_postorder ?_ ?_)
  · intro level hlevel
    obtain ⟨n, rfl⟩ : ∃ n, level = List.range n := by
      simp only [userLevels, List.mem_cons, List.not_mem_nil, or_false] at hlevel
      exact hlevel.elim (⟨_, ·⟩) (·.elim (⟨_, ·⟩) (⟨_, ·⟩))
    exact List.nodup_range
  · intro π π' t hπ hπ' hwalk hwalk'
    exact (h.forest r hr r hr π π' t ((pathIn_userLevels.mp hπ).mono h.depth)
      ((pathIn_userLevels.mp hπ').mono h.depth) hwalk hwalk').2

/-- The pages that are freed are those of the tables. -/
theorem mem_destroyCalls_iff {d : ℕ} {roots : Set Word} (h : SpacesInv d v roots)
    (hr : r ∈ roots) (hnull : r ≠ 0) {a : Word} :
    a ∈ destroyCalls v r ↔ ∃ p ∈ v.tablePages r, a = pageAddr p := by
  rw [mem_destroyCalls hnull]
  constructor
  · rintro ⟨π, t, hπ, hwalk, rfl⟩
    obtain ⟨p, hp, -, -, rfl⟩ := h.backed t (SpacesInv.mem_nodes hr (hπ.mono h.depth) hwalk)
    exact ⟨p, ⟨hp, π, hπ, hwalk⟩, v.virtToPhys_pageVirt p⟩
  · rintro ⟨p, ⟨-, π, hπ, hwalk⟩, rfl⟩
    exact ⟨π, v.pageVirt p, hπ, hwalk, (v.virtToPhys_pageVirt p).symm⟩

end Calls

/-! ### One call -/

/-- The pages that are taken from the page allocator between `v` and `v'`. -/
def Vmm.newPages (v v' : Vmm) : Set ℕ := {p | ¬ v.pmm.Allocated p ∧ v'.pmm.Allocated p}

/-- The address is in the user half. -/
def PageOp.InUserHalf : PageOp → Prop
  | .map virt _ _ => UserHalf virt
  | .unmap virt => UserHalf virt

/-- From `v` to `v'` tables were added to the address space `r`, each on a page that was free, and
nothing else was taken, and nothing outside the tables was written. -/
structure Builds (roots : Set Word) (r : Word) (v v' : Vmm) : Prop where
  inv : SpacesInv 3 v' roots
  totalPages : v'.pmm.totalPages = v.pmm.totalPages
  allocated : ∀ j, v'.pmm.Allocated j ↔ v.pmm.Allocated j ∨ j ∈ v'.tablePages r
  fresh : ∀ j ∈ v'.tablePages r, j ∈ v.tablePages r ∨ ¬ v.pmm.Allocated j
  kept : v.tablePages r ⊆ v'.tablePages r
  spares : Spares 3 roots ∅ v v'

section Builds

variable {v v' : Vmm} {roots : Set Word} {r t : Word} {ρ : List ℕ} {l : ℕ} {op : PageOp}

/-- An entry of a page table is written. -/
theorem SpacesInv.setLeaf_builds (h : SpacesInv 3 v roots) (hr : r ∈ roots) (hρ : TablePath 3 ρ)
    (hlen : ρ.length = 3) (hwalk : v.walk r ρ = some t) (hl : l < 512) (e : Word) :
    Builds roots r v (v.setEntry t l e) := by
  obtain ⟨q, hq, -, -, rfl⟩ := h.backed t (SpacesInv.mem_nodes hr hρ hwalk)
  have hq' := h.lt_of_lt_totalPages hq
  have hwalks := fun r' (hr' : r' ∈ roots) ρ' (hρ' : TablePath 3 ρ') =>
    h.walk_setLeaf hr hρ hlen hwalk hl e hr' hρ'
  have hpages : (v.setEntry (v.pageVirt q) l e).tablePages r = v.tablePages r := by
    ext p
    refine and_congr_right fun _ => exists_congr fun π => and_congr_right fun hπ => ?_
    rw [hwalks r hr π hπ]
    rfl
  refine ⟨(h.setLeaf hr hρ hlen hwalk hl e).1, rfl, fun j => ?_, fun j hj => ?_, hpages.ge, ?_⟩
  · rw [hpages]
    exact (or_iff_left_of_imp (h.allocated_of_tablePages hr)).symm
  · exact .inl (hpages ▸ hj)
  refine ⟨rfl, fun p _ hout => ⟨hout.lt, hout.allocated, ?_⟩, fun p _ hout a ha => ?_,
    fun r' hr' i hi hi' => ?_⟩
  · rintro ⟨r', hr', π, hπ, hmem⟩
    exact hout.notMem ⟨r', hr', π, hπ, (hwalks r' hr' π hπ).symm.trans hmem⟩
  · -- a page outside is not that of the table
    have hne : q ≠ p := by
      rintro rfl
      exact hout.notMem (SpacesInv.mem_nodes hr hρ hwalk)
    exact Function.update_of_ne (SpacesInv.ne_entryAddr hq' hout.lt hne hl ha) _ _
  · -- a page table is not a top-level table
    obtain ⟨p, hp, -, -, rfl⟩ := h.backed r' (SpacesInv.mem_nodes hr' TablePath.nil rfl)
    refine Vmm.entry_setEntry_of_ne hq' (h.lt_of_lt_totalPages hp) hl hi' ?_ e
    rintro ⟨rfl, -⟩
    obtain ⟨-, rfl⟩ := h.forest _ hr' r hr [] ρ _ TablePath.nil hρ rfl hwalk
    cases hlen

/-- The tables that are added, and then the entry of a page table. -/
theorem Extends.builds {v₃ : Vmm} (h : Extends 3 roots r v v₃) (hr : r ∈ roots)
    (hleaf : Builds roots r v₃ v') : Builds roots r v v' where
  inv := hleaf.inv
  totalPages := hleaf.totalPages.trans h.totalPages
  allocated := by
    intro j
    rw [hleaf.allocated, h.allocated]
    have hkept : j ∈ v₃.tablePages r → j ∈ v'.tablePages r := fun hj => hleaf.kept hj
    tauto
  fresh := by
    intro j hj
    rcases hleaf.fresh j hj with hold | hfree
    · exact h.fresh j hold
    · exact .inr fun hall => hfree ((h.allocated j).mpr (.inl hall))
  kept := fun j hj => hleaf.kept (h.tablePages_subset hr hj)
  spares := Set.union_empty ∅ ▸ h.spares.trans hleaf.spares

/-- One call of `vmm_map_page` or `vmm_unmap_page`. -/
theorem PageOp.run_builds (h : SpacesInv 3 v roots) (hr : r ∈ roots) (huser : op.InUserHalf)
    (hok : op.run r v = .ok v') : Builds roots r v v' := by
  have hkeeps : Builds roots r v v :=
    ⟨h, rfl, fun _ => (or_iff_left_of_imp (h.allocated_of_tablePages hr)).symm,
      fun _ hj => .inl hj, subset_rfl, .refl v⟩
  cases op with
  | map virt phys flags =>
    obtain ⟨v₃, pt, hext, hwalk, rfl⟩ := vmmMapPage_tables h hr huser hok
    exact hext.builds hr (hext.inv.setLeaf_builds hr (tablePath_tablePathOf huser) rfl hwalk
      (ptIndex_lt virt) _)
  | unmap virt =>
    obtain rfl := Except.ok.inj hok
    cases htable : findTable v r virt with
    | none =>
      have hsame : vmmUnmapPage v r virt = (v, 0) := by simp only [vmmUnmapPage, htable]
      rwa [hsame]
    | some pt =>
      have hwalk : v.walk r (tablePathOf virt) = some pt :=
        (findTable_eq_walk v r virt).symm.trans htable
      simp only [vmmUnmapPage, htable]
      split_ifs with habsent
      · exact hkeeps
      · exact h.setLeaf_builds hr (tablePath_tablePathOf huser) rfl hwalk (ptIndex_lt virt) 0

end Builds

/-! ### An address space from its creation on -/

/-- An address space that is being built. -/
structure SpaceState where
  vmm : Vmm
  /-- The pages that the calls for the address space took from the page allocator. -/
  taken : Set ℕ
  /-- The pages that others took, before and since. -/
  held : Set ℕ

/-- What happens while it is being built. -/
inductive SpaceCall
  /-- `vmm_map_page` or `vmm_unmap_page` for the address space. -/
  | page (op : PageOp)
  /-- `pmm_alloc_page` for something else, such as a frame. -/
  | alloc

inductive SpaceCallStep (r : Word) : SpaceState → SpaceCall → SpaceState → Prop
  | page {s : SpaceState} {op : PageOp} {v' : Vmm} (huser : op.InUserHalf)
    (hok : op.run r s.vmm = .ok v') :
    SpaceCallStep r s (.page op) ⟨v', s.taken ∪ s.vmm.newPages v', s.held⟩
  | alloc {s : SpaceState} {v' : Vmm} (hv' : v' = { s.vmm with pmm := (pmmAllocPage s.vmm.pmm).1 }) :
    SpaceCallStep r s .alloc ⟨v', s.taken, s.held ∪ s.vmm.newPages v'⟩

/-- The runs of the address space `r` that `vmm_create_address_space` returns in the state `v₀`. -/
def spaceCalls (v₀ : Vmm) (r : Word) : System SpaceState SpaceCall where
  init := fun s => vmmCreateAddressSpace v₀ = (s.vmm, r) ∧ s.taken = v₀.newPages s.vmm ∧
    s.held = {p | v₀.pmm.Allocated p}
  step := SpaceCallStep r

/-- Destroying the address space frees its top-level table and the tables that were taken for it,
each once; and it frees no frame of others and no table of the kernel half. -/
structure TearsDown (s : SpaceState) (r : Word) : Prop where
  once : (destroyCalls s.vmm r).Nodup
  tables : ∀ a, a ∈ destroyCalls s.vmm r ↔
    a = s.vmm.virtToPhys r ∨ ∃ p ∈ s.taken, a = pageAddr p
  frames : ∀ virt frame, UserHalf virt → s.vmm.leafEntry r virt &&& pagePresent ≠ 0 →
    frame = s.vmm.leafEntry r virt &&& physicalAddrMask →
      pageIndex frame ∈ s.held ∨ s.vmm.pmm.totalPages ≤ pageIndex frame →
        frame ∉ destroyCalls s.vmm r
  kernel : ∀ n t, UpperTable s.vmm r n t → s.vmm.virtToPhys t ∉ destroyCalls s.vmm r

/-- The tables of the kernel are outside the address spaces, and none is the first page of
memory, which is never handed out. -/
structure KernelTables (v : Vmm) (roots : Set Word) : Prop where
  root : v.kernelPml4 ≠ v.pageVirt 0
  outside : ∀ n t, UpperTable v v.kernelPml4 n t →
    ∃ q, q ≠ 0 ∧ t = v.pageVirt q ∧ v.Outside 3 roots q

/-- The tables of the address space are those that were taken for it, and the kernel half is that
of the state `v₀`. -/
structure SpaceInv (v₀ : Vmm) (roots : Set Word) (r : Word) (s : SpaceState) : Prop where
  inv : SpacesInv 3 s.vmm (insert r roots)
  taken : s.taken = s.vmm.tablePages r
  held : ∀ p ∈ s.held, s.vmm.pmm.Allocated p ∧ p ∉ s.taken
  hhdm : s.vmm.hhdm = v₀.hhdm
  outside : ∀ q, v₀.Outside 3 roots q → s.vmm.Outside 3 (insert r roots) q
  mem : ∀ q, v₀.Outside 3 roots q → ∀ a, (a - v₀.pageVirt q).toNat < pageSize →
    s.vmm.mem a = v₀.mem a
  upper : ∀ i, 256 ≤ i → i < 512 → s.vmm.entry r i = v₀.entry v₀.kernelPml4 i

section SpaceInv

variable {v₀ v' : Vmm} {roots : Set Word} {r : Word} {s s' : SpaceState} {a : SpaceCall}

/-- A new address space has its top-level table and no other. -/
theorem Creates.spaceInv (h : Creates 3 roots v₀ r v') :
    SpaceInv v₀ roots r ⟨v', v₀.newPages v', {p | v₀.pmm.Allocated p}⟩ := by
  obtain ⟨p, rfl, hp, hfree, hallocated⟩ := h.page
  have hvirt := Vmm.pageVirt_congr h.hhdm
  refine ⟨h.inv, ?_, fun q hq => ⟨(hallocated q).mpr (.inr hq), fun hnew => hnew.1 hq⟩, h.hhdm,
    h.outside, h.mem, h.kernelHalf⟩
  ext q
  constructor
  · rintro ⟨hq, hq'⟩
    obtain rfl := ((hallocated q).mp hq').resolve_right hq
    exact ⟨h.totalPages ▸ hp, [], TablePath.nil, congrArg some (hvirt q).symm⟩
  · rintro ⟨hq, π, hπ, hwalk⟩
    obtain rfl := h.empty π _ hπ hwalk
    have heq : v₀.pageVirt p = v₀.pageVirt q := (Option.some.inj hwalk).trans (hvirt q)
    have hp' := h.inv.lt_of_lt_totalPages (h.totalPages ▸ hp)
    obtain rfl := Vmm.pageVirt_inj hp' (h.inv.lt_of_lt_totalPages hq) heq
    exact ⟨hfree, (hallocated p).mpr (.inl rfl)⟩

/-- A call for the address space. -/
theorem SpaceInv.builds (h : SpaceInv v₀ roots r s) (hbuilds : Builds (insert r roots) r s.vmm v') :
    SpaceInv v₀ roots r ⟨v', s.taken ∪ s.vmm.newPages v', s.held⟩ where
  inv := hbuilds.inv
  taken := by
    ext p
    rw [Set.mem_union, h.taken]
    constructor
    · rintro (hold | ⟨hfree, hnew⟩)
      · exact hbuilds.kept hold
      · exact ((hbuilds.allocated p).mp hnew).resolve_left hfree
    · intro hp
      exact (hbuilds.fresh p hp).imp_right fun hfree => ⟨hfree, (hbuilds.allocated p).mpr (.inr hp)⟩
  held := by
    intro p hp
    obtain ⟨hall, hnot⟩ := h.held p hp
    refine ⟨(hbuilds.allocated p).mpr (.inl hall), ?_⟩
    rintro (hold | ⟨hfree, -⟩)
    · exact hnot hold
    · exact hfree hall
  hhdm := hbuilds.spares.hhdm.trans h.hhdm
  outside := fun q hq => hbuilds.spares.outside q (Set.notMem_empty q) (h.outside q hq)
  mem := by
    intro q hq b hb
    have hb' : (b - s.vmm.pageVirt q).toNat < pageSize := by rwa [Vmm.pageVirt_congr h.hhdm]
    rw [hbuilds.spares.mem q (Set.notMem_empty q) (h.outside q hq) b hb', h.mem q hq b hb]
  upper := fun i hi hi' =>
    (hbuilds.spares.upper r (Set.mem_insert r roots) i hi hi').trans (h.upper i hi hi')

/-- A page for something else. -/
theorem SpaceInv.alloc (h : SpaceInv v₀ roots r s)
    (hv' : v' = { s.vmm with pmm := (pmmAllocPage s.vmm.pmm).1 }) :
    SpaceInv v₀ roots r ⟨v', s.taken, s.held ∪ s.vmm.newPages v'⟩ := by
  obtain ⟨htotal, hreserves, hmono⟩ : v'.pmm.totalPages = s.vmm.pmm.totalPages ∧
      v'.pmm.Reserves ∧ ∀ j, s.vmm.pmm.Allocated j → v'.pmm.Allocated j := by
    have hspec := pmmAllocPage_spec h.inv.reserves
    rw [hv']
    generalize pmmAllocPage s.vmm.pmm = result at hspec
    cases hspec with
    | null => exact ⟨rfl, h.inv.reserves, fun _ hj => hj⟩
    | page p hp hp0 hfree pmm hallocated htotal hreserves =>
      exact ⟨htotal, hreserves, fun j hj => (hallocated j).mpr (.inr hj)⟩
  have hpages : v'.tablePages r = s.vmm.tablePages r := by
    ext p
    rw [Vmm.tablePages, Vmm.tablePages, htotal, hv']
    rfl
  refine ⟨?_, hpages ▸ h.taken, fun p hp => ?_, hv' ▸ h.hhdm, fun q hq => ?_, hv' ▸ h.mem,
    hv' ▸ h.upper⟩
  · refine h.inv.anti subset_rfl (hv' ▸ rfl) (hv' ▸ rfl) htotal hreserves ?_ fun p _ hall _ =>
      hmono p hall
    intro r' _ ρ t _ hwalk
    rwa [hv'] at hwalk
  · rcases hp with hp | ⟨hfree, hnew⟩
    · obtain ⟨hall, hnot⟩ := h.held p hp
      exact ⟨hmono p hall, hnot⟩
    · -- the tables were taken already
      refine ⟨hnew, fun hp => hfree ?_⟩
      exact h.inv.allocated_of_tablePages (Set.mem_insert r roots) (h.taken ▸ hp)
  · have hout := h.outside q hq
    refine ⟨hout.lt, fun hlt => hmono q (hout.allocated (htotal ▸ hlt)), ?_⟩
    have hmem := hout.notMem
    rwa [hv']

/-- The step lemma. -/
theorem SpaceCallStep.spaceInv (hstep : SpaceCallStep r s a s') (h : SpaceInv v₀ roots r s) :
    SpaceInv v₀ roots r s' := by
  cases hstep with
  | page huser hok => exact h.builds (PageOp.run_builds h.inv (Set.mem_insert r roots) huser hok)
  | alloc hv' => exact h.alloc hv'

/-- The tables of the kernel half are those of the kernel. -/
theorem SpaceInv.upperTable (h : SpaceInv v₀ roots r s) (hkernel : KernelTables v₀ roots) {n : ℕ}
    {t : Word} (ht : UpperTable s.vmm r n t) : UpperTable v₀ v₀.kernelPml4 n t := by
  refine (upperTable_congr h.hhdm h.upper fun m table htable i hi => ?_).mp ht
  obtain ⟨q, -, rfl, hout⟩ := hkernel.outside m table htable
  refine h.mem q hout _ ?_
  rw [Vmm.entryAddr, BitVec.add_comm, BitVec.add_sub_cancel, Vmm.toNat_entry hi, pageSize]
  omega

/-- What the invariant says about `vmm_destroy_address_space`. -/
theorem SpaceInv.tearsDown (h : SpaceInv v₀ roots r s) (hkernel : KernelTables v₀ roots)
    (hr : r ≠ 0) : TearsDown s r := by
  have hmem : r ∈ insert r roots := Set.mem_insert r roots
  have hcalls : ∀ a, a ∈ destroyCalls s.vmm r ↔ ∃ p ∈ s.taken, a = pageAddr p := by
    intro a
    rw [h.taken]
    exact mem_destroyCalls_iff h.inv hmem hr
  have hpage : ∀ a ∈ destroyCalls s.vmm r, pageIndex a ∈ s.taken ∧
      pageIndex a < s.vmm.pmm.totalPages := by
    intro a ha
    obtain ⟨p, hp, rfl⟩ := (hcalls a).mp ha
    have hlt : p < s.vmm.pmm.totalPages := (h.taken ▸ hp).1
    have hp' := (h.inv.lt_of_lt_totalPages hlt).trans (show 2 ^ 40 < 2 ^ 52 by decide)
    rw [pageIndex_pageAddr hp']
    exact ⟨hp, hlt⟩
  refine ⟨nodup_destroyCalls h.inv hmem hr, fun a => ?_, ?_, fun n t ht hfreed => ?_⟩
  · rw [hcalls]
    refine ⟨.inr, fun hcall => hcall.elim (fun hroot => ?_) id⟩
    rw [← hcalls, mem_destroyCalls hr]
    exact ⟨[], r, TablePath.nil, rfl, hroot⟩
  · rintro virt frame - - - hother hfreed
    obtain ⟨htaken, hlt⟩ := hpage frame hfreed
    rcases hother with hheld | hbeyond
    · exact (h.held _ hheld).2 htaken
    · exact absurd hlt (not_lt.mpr hbeyond)
  · obtain ⟨q, -, rfl, hout⟩ := hkernel.outside n t (h.upperTable hkernel ht)
    obtain ⟨π, t', hπ, hwalk, heq⟩ := (mem_destroyCalls hr).mp hfreed
    refine (h.outside q hout).notMem ⟨r, hmem, π, hπ, hwalk.trans (congrArg some ?_)⟩
    rw [← virtToPhys_inj s.vmm heq, Vmm.pageVirt_congr h.hhdm]

end SpaceInv

/-! ### Without a free page -/

section Full

variable {v₀ v v' : Vmm} {roots : Set Word} {r virt : Word} {s s' : SpaceState} {a : SpaceCall}
  {op : PageOp}

/-- Without a table and without a page for one the calls do nothing. -/
theorem PageOp.run_full (hfull : v.pmm.findFree = none)
    (hempty : ∀ i < 256, v.nextLevel r i = none) (huser : op.InUserHalf)
    (hok : op.run r v = .ok v') : v' = v := by
  cases op with
  | map virt phys flags =>
    have hfail : nextTable v r (pml4Index virt) "VMM: Out of memory for PDPT!" =
        .error (.panic "VMM: Out of memory for PDPT!") := by
      simp [nextTable, hempty _ huser, pmmAllocPage, hfull]
    rw [PageOp.run, vmmMapPage, hfail] at hok
    cases hok
  | unmap virt =>
    obtain rfl := Except.ok.inj hok
    have htable : findTable v r virt = none := by
      rw [findTable, hempty _ huser]
      rfl
    simp only [vmmUnmapPage, htable]

theorem SpaceCallStep.full (hstep : SpaceCallStep r s a s') (hfull : v.pmm.findFree = none)
    (hempty : ∀ i < 256, v.nextLevel r i = none) (hs : s.vmm = v ∧ s.taken = ∅) :
    s'.vmm = v ∧ s'.taken = ∅ := by
  obtain ⟨rfl, htaken⟩ := hs
  cases hstep with
  | page huser hok =>
    obtain rfl := PageOp.run_full hfull hempty huser hok
    refine ⟨rfl, ?_⟩
    ext p
    simp [htaken, Vmm.newPages]
  | alloc hv' =>
    refine ⟨?_, htaken⟩
    simp [hv', pmmAllocPage, hfull]

/-- The top-level table lies on the first page of memory then, and is all that is freed. -/
theorem tearsDown_full (hfull : v₀.pmm.findFree = none) (h : SpacesInv 3 v₀ roots)
    (hkernel : KernelTables v₀ roots) (hcreate : vmmCreateAddressSpace v₀ = (s.vmm, r))
    (hr : r ≠ 0) (htaken : s.taken = ∅) : TearsDown s r := by
  obtain ⟨hroot, hv, hfar, hlower, hupper⟩ := vmmCreateAddressSpace_mem hcreate hr
  have hzero : r = v₀.pageVirt 0 := by
    rw [hroot, pmmAllocPage, hfull]
    rfl
  have hhdm : s.vmm.hhdm = v₀.hhdm := by rw [hv]
  have hempty : ∀ i < 256, s.vmm.nextLevel r i = none := by
    intro i hi
    rw [Vmm.nextLevel, hlower i hi]
    rfl
  have hcalls : destroyCalls s.vmm r = [s.vmm.virtToPhys r] := by
    have hbelow : (List.range 256).flatMap (fun i =>
        (s.vmm.nextLevel r i).elim [] (pdptCalls s.vmm)) = [] := by
      refine List.flatMap_eq_nil_iff.mpr fun i hi => ?_
      rw [hempty i (List.mem_range.mp hi)]
      rfl
    rw [destroyCalls, if_neg hr, levelCalls, hbelow, List.nil_append]
  -- the entries of the kernel's tables are not on that page
  have hentry : ∀ q i, q ≠ 0 → q < 2 ^ 40 → i < 512 →
      pageSize ≤ (Vmm.entryAddr (v₀.pageVirt q) i - r).toNat := by
    intro q i hq hq' hi
    by_contra hin
    have hinq : (Vmm.entryAddr (v₀.pageVirt q) i - v₀.pageVirt q).toNat < pageSize := by
      rw [Vmm.entryAddr, BitVec.add_comm, BitVec.add_sub_cancel, Vmm.toNat_entry hi, pageSize]
      omega
    have hin₀ : (Vmm.entryAddr (v₀.pageVirt q) i - v₀.pageVirt 0).toNat < pageSize := by
      rw [← hzero]
      exact not_le.mp hin
    exact hq (Vmm.page_unique hq' (Nat.two_pow_pos 40) hinq hin₀)
  have htables : ∀ n t, UpperTable s.vmm r n t → UpperTable v₀ v₀.kernelPml4 n t := by
    intro n t ht
    obtain ⟨k, hk, -, hkp⟩ := h.kernel
    have hk0 : k ≠ 0 := by
      rintro rfl
      exact hkernel.root hkp
    refine (upperTable_congr hhdm (fun i hi hi' => ?_) fun m table htable i hi => ?_).mp ht
    · refine hupper i hi hi' (le_trans (by decide) (hkp ▸ hentry k i hk0 ?_ hi'))
      exact h.lt_of_lt_totalPages hk
    · obtain ⟨q, hq, rfl, hout⟩ := hkernel.outside m table htable
      exact hfar _ (hentry q i hq hout.lt hi)
  refine ⟨?_, fun a => ?_, fun virt frame huser hpresent => ?_, fun n t ht hfreed => ?_⟩
  · rw [hcalls]
    exact List.nodup_singleton _
  · rw [hcalls, List.mem_singleton, htaken]
    simp
  · have htable : findTable s.vmm r virt = none := by
      rw [findTable, hempty _ huser]
      rfl
    rw [leafEntry_of_none htable] at hpresent
    exact absurd (by decide) hpresent
  · rw [hcalls, List.mem_singleton] at hfreed
    obtain ⟨q, hq, rfl, hout⟩ := hkernel.outside n t (htables n t ht)
    have heq := virtToPhys_inj s.vmm hfreed
    exact hq (Vmm.pageVirt_inj hout.lt (Nat.two_pow_pos 40) (heq.trans hzero))

end Full

/-! ### The runs -/

/-- In every state that the calls for an address space lead to, destroying it frees its top-level
table and the tables that were taken for it, each once, and nothing else. -/
theorem tearsDown_of_reachable {v₀ : Vmm} {roots : Set Word} {r : Word} {s : SpaceState}
    (h : SpacesInv 3 v₀ roots) (hkernel : KernelTables v₀ roots) (hr : r ≠ 0)
    (hreach : (spaceCalls v₀ r).Reachable s) : TearsDown s r := by
  by_cases hfull : v₀.pmm.findFree = none
  · obtain ⟨s₀, ⟨hcreate, htaken, -⟩, hrun⟩ := hreach
    obtain ⟨-, hv, -, hlower, -⟩ := vmmCreateAddressSpace_mem hcreate hr
    have hpmm : s₀.vmm.pmm = v₀.pmm := by
      rw [hv, pmmAllocPage, hfull]
    have hempty : ∀ i < 256, s₀.vmm.nextLevel r i = none := by
      intro i hi
      rw [Vmm.nextLevel, hlower i hi]
      rfl
    have hnone : s₀.taken = ∅ := by
      ext p
      simp [htaken, Vmm.newPages, hpmm]
    obtain ⟨hvmm, hs⟩ := hrun.preserves (I := fun s => s.vmm = s₀.vmm ∧ s.taken = ∅)
      (fun _ _ _ hs _ hstep => SpaceCallStep.full hstep (hpmm ▸ hfull) hempty hs) ⟨rfl, hnone⟩
    exact tearsDown_full hfull h hkernel (hvmm ▸ hcreate) hr hs
  · have hinit : ∀ s₀, (spaceCalls v₀ r).init s₀ → SpaceInv v₀ roots r s₀ := by
      rintro s₀ ⟨hcreate, htaken, hheld⟩
      obtain ⟨r', v', hcreate', -, hcreates⟩ := vmmCreateAddressSpace_spec h (by decide) hfull
      obtain ⟨rfl, rfl⟩ := Prod.mk.inj (hcreate.symm.trans hcreate')
      have hinv := hcreates.spaceInv
      rwa [← htaken, ← hheld] at hinv
    have hinv : SpaceInv v₀ roots r s :=
      hreach.invariant hinit fun _ _ _ hs _ hstep => SpaceCallStep.spaceInv hstep hs
    exact hinv.tearsDown hkernel hr

/-- A page is mapped in a new address space, which is then destroyed. -/
theorem tearsDown_smallVmm : ∃ s r, s.vmm.leafEntry r 0x400000 = 0x5007 ∧ TearsDown s r := by
  have hinv : SpacesInv 3 smallVmm ∅ := smallVmm_inv (by decide)
  have hne : (vmmCreateAddressSpace smallVmm).2 ≠ 0 := by decide
  obtain ⟨hres, hroom⟩ := vmmCreateAddressSpace_room hinv.reserves smallVmm_room
  obtain ⟨v', hok, -⟩ := vmmMapPage_ok (n := 58) hres hroom (vmmCreateAddressSpace smallVmm).2
    0x400000 0x5000 7
  obtain ⟨r, w, hcreate, hr, hcreates⟩ := vmmCreateAddressSpace_spec hinv (by decide)
    (Pmm.Room.findFree_ne_none smallVmm_room)
  rw [hcreate] at hok
  have huser : UserHalf 0x400000 := userHalf_of_lt (by decide)
  obtain ⟨-, -, hleaf, -⟩ := vmmMapPage_leaf hcreates.inv (Set.mem_insert r ∅) huser hok
  have hkernel : KernelTables smallVmm ∅ :=
    ⟨by decide, fun n t ht => absurd ht (not_upperTable_smallVmm n t)⟩
  have hstep : (spaceCalls smallVmm r).Allowed (fun _ _ => True)
      ⟨w, smallVmm.newPages w, {p | smallVmm.pmm.Allocated p}⟩
      ⟨v', smallVmm.newPages w ∪ w.newPages v', {p | smallVmm.pmm.Allocated p}⟩ :=
    ⟨.page (.map 0x400000 0x5000 7), trivial, .page huser hok⟩
  exact ⟨_, r, hleaf, tearsDown_of_reachable hinv hkernel hr
    ⟨_, ⟨hcreate, rfl, rfl⟩, .head hstep .refl⟩⟩

end KyroOS.Memory

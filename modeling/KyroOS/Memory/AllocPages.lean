import KyroOS.Memory.PmmRuns

/-!
# Looking for a run of pages

`pmm_alloc_pages` looks for `count` free pages in a row. Its outer loop goes as far as
`pmm_total_pages - count`, an unsigned difference, and its inner loop moves the outer index behind
the page that it found taken. The indices are 64-bit words here, and every page whose bit is
tested or set is recorded.

## Main definitions

* `testRun`, `searchRun` — the inner loop and the outer one
* `allocPages` — `pmm_alloc_pages` with the pages that it looks at
* `AllocatesLowest` — the call comes back with the lowest run, and stays inside the bitmap

## Main results

* `allocPages_result`, `allocPages_inside` — with no more pages asked for than there are
* `allocPages_outside` — with more
* `allocatesLowest_iff` — the call is right exactly for counts up to the number of pages
-/

namespace KyroOS.Memory

/-- The loop over `j`: the pages that are tested, and where a page is taken. -/
def testRun (bitmap : ℕ → Byte) (i : Word) : ℕ → Word → List ℕ × Option Word
  | 0, _ => ([], none)
  | n + 1, j =>
    if pmmBitmapTest bitmap (i + j).toNat then ([(i + j).toNat], some j)
    else
      let (accessed, taken) := testRun bitmap i n (j + 1)
      ((i + j).toNat :: accessed, taken)

/-- The loop over `i`, with a number of turns: the pages that are tested, and the start of the run
when the loop has come to its end. -/
def searchRun (bitmap : ℕ → Byte) (count last : Word) : ℕ → Word → List ℕ × Option (Option Word)
  | 0, _ => ([], none)
  | turns + 1, i =>
    if i ≤ last then
      match testRun bitmap i count.toNat 0 with
      | (accessed, none) => (accessed, some (some i))
      | (accessed, some j) =>
        let (accessed', run) := searchRun bitmap count last turns (i + j + 1)
        (accessed ++ accessed', run)
    else ([], some none)

/-- The pages of the run, as the loop that sets their bits counts them. -/
def runIndices (i count : Word) : List ℕ :=
  (List.range count.toNat).map fun j => (i + BitVec.ofNat 64 j).toNat

/-- `pmm_alloc_pages` for two pages or more, with a number of turns for its outer loop: the pages
whose bits are tested or set, and the result when the loop has come to its end. -/
def allocPages (turns : ℕ) (p : Pmm) (count : Word) : List ℕ × Option (Pmm × Word) :=
  match searchRun p.bitmap count (BitVec.ofNat 64 p.totalPages - count) turns 0 with
  | (accessed, some (some i)) =>
    (accessed ++ runIndices i count,
      some ({ p with
        bitmap := (runIndices i count).foldl pmmBitmapSet p.bitmap
        allocatedPages := p.allocatedPages + count }, i * 4096))
  | (accessed, some none) => (accessed, some (p, 0))
  | (accessed, none) => (accessed, none)

/-- `count` pages are free from `i` on, and from no page before. -/
def Pmm.LowestRun (p : Pmm) (i count : ℕ) : Prop :=
  p.RunFree i count ∧ ∀ k < i, ¬ p.RunFree k count

/-- What a call has done that comes back: it has taken the lowest run if there is one. -/
structure TakesLowest (p : Pmm) (count : ℕ) (p' : Pmm) (r : Word) : Prop where
  run : ∀ i, p.LowestRun i count → r = pageAddr i ∧
    ∀ j, p'.Allocated j ↔ p.Allocated j ∨ i ≤ j ∧ j < i + count
  null : (∀ i, ¬ p.RunFree i count) → r = 0 ∧ p' = p

/-- The call comes back, with the lowest run if there is one, and neither tests nor sets the bit of
a page that there is not. -/
structure AllocatesLowest (p : Pmm) (count : Word) : Prop where
  ends : ∃ turns p' r, (allocPages turns p count).2 = some (p', r)
  lowest : ∀ turns p' r, (allocPages turns p count).2 = some (p', r) →
    TakesLowest p count.toNat p' r
  inside : ∀ turns, ∀ k ∈ (allocPages turns p count).1, k < p.totalPages

/-! ### The inner loop -/

section TestRun

variable {bitmap : ℕ → Byte} {i : Word} {n j : ℕ}

/-- The index does not wrap around. -/
theorem toNat_add_index (h : i.toNat + j < 2 ^ 64) : (i + BitVec.ofNat 64 j).toNat = i.toNat + j := by
  rw [BitVec.toNat_add, BitVec.toNat_ofNat, Nat.mod_eq_of_lt (by omega : j < 2 ^ 64),
    Nat.mod_eq_of_lt h]

/-- The loop stops at the first page from `j` on that is taken. -/
theorem testRun_taken (bitmap : ℕ → Byte) (i : Word) (n j : ℕ) :
    (testRun bitmap i n (BitVec.ofNat 64 j)).2 = ((List.range' j n).find? fun j =>
      pmmBitmapTest bitmap (i + BitVec.ofNat 64 j).toNat).map (BitVec.ofNat 64) := by
  induction n generalizing j with
  | zero => rfl
  | succ n ih =>
    have hnext : BitVec.ofNat 64 j + 1 = BitVec.ofNat 64 (j + 1) := (BitVec.ofNat_add _ _).symm
    rw [testRun, List.range'_succ, List.find?_cons, hnext]
    cases hbit : pmmBitmapTest bitmap (i + BitVec.ofNat 64 j).toNat with
    | true => rfl
    | false =>
      rw [if_neg Bool.false_ne_true]
      exact ih (j + 1)

/-- The pages that are tested are those of the run. -/
theorem testRun_accessed (h : i.toNat + j + n ≤ 2 ^ 64) :
    ∀ k ∈ (testRun bitmap i n (BitVec.ofNat 64 j)).1, i.toNat + j ≤ k ∧ k < i.toNat + j + n := by
  induction n generalizing j with
  | zero => exact fun k hk => absurd hk List.not_mem_nil
  | succ n ih =>
    intro k hk
    have hnext : BitVec.ofNat 64 j + 1 = BitVec.ofNat 64 (j + 1) := (BitVec.ofNat_add _ _).symm
    rw [testRun, toNat_add_index (by omega)] at hk
    split_ifs at hk with hbit
    · rw [List.mem_singleton] at hk
      omega
    · rw [hnext, List.mem_cons] at hk
      rcases hk with rfl | hk
      · omega
      · have hrest := ih (by omega) k hk
        omega

/-- A page is tested when those before it in the run are free. -/
theorem testRun_tests {m : ℕ} (hm : m < n)
    (hclear : ∀ m' < m, pmmBitmapTest bitmap (i + BitVec.ofNat 64 (j + m')).toNat = false) :
    (i + BitVec.ofNat 64 (j + m)).toNat ∈ (testRun bitmap i n (BitVec.ofNat 64 j)).1 := by
  induction n generalizing j m with
  | zero => exact absurd hm (Nat.not_lt_zero m)
  | succ n ih =>
    have hnext : BitVec.ofNat 64 j + 1 = BitVec.ofNat 64 (j + 1) := (BitVec.ofNat_add _ _).symm
    rw [testRun]
    cases m with
    | zero => split_ifs <;> exact List.mem_cons_self
    | succ m =>
      have hfirst : pmmBitmapTest bitmap (i + BitVec.ofNat 64 j).toNat = false :=
        hclear 0 m.succ_pos
      have hshift : ∀ m', j + (m' + 1) = j + 1 + m' := fun m' => by omega
      rw [if_neg (Bool.eq_false_iff.mp hfirst), hnext, hshift m]
      refine List.mem_cons_of_mem _ (ih (Nat.lt_of_succ_lt_succ hm) fun m' hm' => ?_)
      exact hshift m' ▸ hclear (m' + 1) (Nat.succ_lt_succ hm')

end TestRun

/-! ### The outer loop -/

section SearchRun

variable {bitmap : ℕ → Byte} {count last : Word} {turns i : ℕ}

/-- A turn, with the page that the inner loop finds taken. -/
theorem searchRun_turn (hi : BitVec.ofNat 64 i ≤ last) : searchRun bitmap count last (turns + 1)
      (BitVec.ofNat 64 i) =
    match (List.range count.toNat).find? fun j =>
        pmmBitmapTest bitmap (BitVec.ofNat 64 i + BitVec.ofNat 64 j).toNat with
    | none =>
      ((testRun bitmap (BitVec.ofNat 64 i) count.toNat 0).1, some (some (BitVec.ofNat 64 i)))
    | some j =>
      ((testRun bitmap (BitVec.ofNat 64 i) count.toNat 0).1 ++
          (searchRun bitmap count last turns (BitVec.ofNat 64 (i + j + 1))).1,
        (searchRun bitmap count last turns (BitVec.ofNat 64 (i + j + 1))).2) := by
  have htaken := testRun_taken bitmap (BitVec.ofNat 64 i) count.toNat 0
  rw [← List.range_eq_range'] at htaken
  rw [searchRun, if_pos hi]
  cases hrun : testRun bitmap (BitVec.ofNat 64 i) count.toNat 0 with
  | mk accessed taken =>
    have hzero : testRun bitmap (BitVec.ofNat 64 i) count.toNat (BitVec.ofNat 64 0) =
        (accessed, taken) := hrun
    rw [hzero] at htaken
    cases hfind : (List.range count.toNat).find? fun j =>
        pmmBitmapTest bitmap (BitVec.ofNat 64 i + BitVec.ofNat 64 j).toNat with
    | none =>
      rw [hfind] at htaken
      obtain rfl : taken = none := htaken
      rfl
    | some j =>
      rw [hfind] at htaken
      obtain rfl : taken = some (BitVec.ofNat 64 j) := htaken
      have hnext : BitVec.ofNat 64 i + BitVec.ofNat 64 j + 1 = BitVec.ofNat 64 (i + j + 1) := by
        rw [BitVec.ofNat_add, BitVec.ofNat_add]
        rfl
      dsimp only
      rw [hnext]

/-! With no more pages asked for than there are, no index wraps around. -/

/-- A turn of the search for the first page that is taken. -/
theorem find_taken (hi : i ≤ last.toNat) (hlast : last.toNat + count.toNat < 2 ^ 64) :
    ((List.range count.toNat).find? fun j =>
        pmmBitmapTest bitmap (BitVec.ofNat 64 i + BitVec.ofNat 64 j).toNat) =
      (List.range count.toNat).find? fun j => pmmBitmapTest bitmap (i + j) := by
  refine List.find?_congr fun j hj => ?_
  have hlt := List.mem_range.mp hj
  have hnat : (BitVec.ofNat 64 i).toNat = i := Nat.mod_eq_of_lt (by omega)
  rw [toNat_add_index (by omega), hnat]

theorem ofNat_le_last (hi : i ≤ last.toNat) : BitVec.ofNat 64 i ≤ last := by
  have hlt := last.isLt
  rw [BitVec.le_def, BitVec.toNat_ofNat, Nat.mod_eq_of_lt (by omega)]
  exact hi

theorem not_ofNat_le_last (hi : last.toNat < i) (hlt : i < 2 ^ 64) :
    ¬ BitVec.ofNat 64 i ≤ last := by
  rw [BitVec.le_def, BitVec.toNat_ofNat, Nat.mod_eq_of_lt hlt]
  omega

/-- The loop comes to its end. -/
theorem exists_searchRun (hlast : last.toNat + count.toNat < 2 ^ 64)
    (hi : i ≤ last.toNat + count.toNat) :
    ∃ turns run, (searchRun bitmap count last turns (BitVec.ofNat 64 i)).2 = some run := by
  induction i using findRun.induct bitmap count.toNat last.toNat with
  | case1 i hle j hj ih =>
    have hlt := List.mem_range.mp (List.mem_of_find?_eq_some hj)
    obtain ⟨turns, run, hrun⟩ := ih (by omega)
    refine ⟨turns + 1, run, ?_⟩
    rw [searchRun_turn (ofNat_le_last hle), find_taken hle hlast, hj]
    exact hrun
  | case2 i hle hnone =>
    refine ⟨1, some (BitVec.ofNat 64 i), ?_⟩
    rw [searchRun_turn (ofNat_le_last hle), find_taken hle hlast, hnone]
  | case3 i hgt =>
    refine ⟨1, none, ?_⟩
    rw [searchRun, if_neg (not_ofNat_le_last (not_le.mp hgt) (by omega))]

/-- The result is the one of the search without wrapping. -/
theorem searchRun_ends (hlast : last.toNat + count.toNat < 2 ^ 64)
    (hi : i ≤ last.toNat + count.toNat) {run : Option Word}
    (hend : (searchRun bitmap count last turns (BitVec.ofNat 64 i)).2 = some run) :
    run = (findRun bitmap count.toNat last.toNat i).map (BitVec.ofNat 64) := by
  induction turns generalizing i with
  | zero => cases hend
  | succ turns ih =>
    by_cases hle : i ≤ last.toNat
    · rw [searchRun_turn (ofNat_le_last hle), find_taken hle hlast] at hend
      rw [findRun, if_pos hle]
      cases hfind : (List.range count.toNat).find? fun j => pmmBitmapTest bitmap (i + j) with
      | none =>
        rw [hfind] at hend
        exact (Option.some.inj hend).symm
      | some j =>
        have hlt := List.mem_range.mp (List.mem_of_find?_eq_some hfind)
        rw [hfind] at hend
        exact ih (by omega) hend
    · rw [searchRun, if_neg (not_ofNat_le_last (not_le.mp hle) (by omega))] at hend
      rw [findRun, if_neg hle]
      exact (Option.some.inj hend).symm

/-- The pages that are tested lie below the last run's end. -/
theorem searchRun_accessed (hlast : last.toNat + count.toNat < 2 ^ 64)
    (hi : i ≤ last.toNat + count.toNat) :
    ∀ k ∈ (searchRun bitmap count last turns (BitVec.ofNat 64 i)).1,
      k < last.toNat + count.toNat := by
  induction turns generalizing i with
  | zero => exact fun k hk => absurd hk List.not_mem_nil
  | succ turns ih =>
    intro k hk
    by_cases hle : i ≤ last.toNat
    · have hnat : (BitVec.ofNat 64 i).toNat = i := Nat.mod_eq_of_lt (by omega)
      have htest : k ∈ (testRun bitmap (BitVec.ofNat 64 i) count.toNat (BitVec.ofNat 64 0)).1 →
          k < last.toNat + count.toNat := by
        intro hmem
        have hrange := testRun_accessed (by omega) k hmem
        omega
      rw [searchRun_turn (ofNat_le_last hle), find_taken hle hlast] at hk
      cases hfind : (List.range count.toNat).find? fun j => pmmBitmapTest bitmap (i + j) with
      | none =>
        rw [hfind] at hk
        exact htest hk
      | some j =>
        have hlt := List.mem_range.mp (List.mem_of_find?_eq_some hfind)
        rw [hfind] at hk
        rcases List.mem_append.mp hk with hmem | hmem
        · exact htest hmem
        · exact ih (by omega) k hmem
    · rw [searchRun, if_neg (not_ofNat_le_last (not_le.mp hle) (by omega))] at hk
      exact absurd hk List.not_mem_nil

/-- When the last index wraps around, the search goes on behind the last page. -/
theorem exists_accessed_outside {total : ℕ} (htotal : total < count.toNat)
    (hlast : total < last.toNat) (hi : i ≤ total) : ∃ turns,
      total ∈ (searchRun bitmap count last turns (BitVec.ofNat 64 i)).1 := by
  have hlt := last.isLt
  obtain ⟨m, hm⟩ := Nat.exists_eq_add_of_le hi
  induction m using Nat.strong_induction_on generalizing i with
  | _ m ih =>
    have hindex : ∀ j ≤ m, (BitVec.ofNat 64 i + BitVec.ofNat 64 j).toNat = i + j := by
      intro j hj
      have hnat : (BitVec.ofNat 64 i).toNat = i := Nat.mod_eq_of_lt (by omega)
      rw [toNat_add_index (by omega), hnat]
    by_cases hclear : ∀ j < m, pmmBitmapTest bitmap (i + j) = false
    · -- the inner loop goes through all of the pages that there are
      refine ⟨1, ?_⟩
      have hzero : ∀ j < m,
          pmmBitmapTest bitmap (BitVec.ofNat 64 i + BitVec.ofNat 64 (0 + j)).toNat = false := by
        intro j hj
        rw [Nat.zero_add, hindex j hj.le]
        exact hclear j hj
      have htests := testRun_tests (n := count.toNat) (by omega : m < count.toNat) hzero
      rw [Nat.zero_add, hindex m le_rfl, ← hm] at htests
      rw [searchRun_turn (ofNat_le_last (by omega))]
      split
      · exact htests
      · exact List.mem_append_left _ htests
    · -- it stops at a page before, and the outer loop goes on behind that
      push Not at hclear
      obtain ⟨j, hjm, hj⟩ := hclear
      cases hfind : (List.range count.toNat).find? fun j =>
          pmmBitmapTest bitmap (BitVec.ofNat 64 i + BitVec.ofNat 64 j).toNat with
      | none =>
        have hfree := List.find?_range_eq_none.mp hfind j (by omega)
        rw [hindex j hjm.le, Bool.not_eq_true'] at hfree
        exact absurd hfree hj
      | some j' =>
        have hle : j' ≤ j := by
          by_contra hgt
          have hfree := (List.find?_range_eq_some.mp hfind).2.2 j (not_le.mp hgt)
          rw [hindex j hjm.le, Bool.not_eq_true'] at hfree
          exact hj hfree
        obtain ⟨turns, hmem⟩ := ih (m - j' - 1) (by omega) (i := i + j' + 1) (by omega) (by omega)
        refine ⟨turns + 1, ?_⟩
        rw [searchRun_turn (ofNat_le_last (by omega)), hfind]
        exact List.mem_append_right _ hmem

end SearchRun

/-! ### The call -/

section AllocPages

variable {p : Pmm} {count : Word} {turns i : ℕ}

/-- The first run that is found is the lowest one. -/
theorem findRun_lowest {bitmap : ℕ → Byte} {n last k : ℕ} (h : findRun bitmap n last i = some k) :
    ∀ k' < k, i ≤ k' → ∃ j < n, pmmBitmapTest bitmap (k' + j) = true := by
  induction i using findRun.induct bitmap n last with
  | case1 i hle j hj ih =>
    intro k' hk' hik
    rw [findRun, if_pos hle, hj] at h
    by_cases hbehind : i + j + 1 ≤ k'
    · exact ih h k' hk' hbehind
    · have hset := List.find?_some hj
      have hlt := List.mem_range.mp (List.mem_of_find?_eq_some hj)
      refine ⟨i + j - k', by omega, ?_⟩
      rwa [show k' + (i + j - k') = i + j by omega]
  | case2 i hle hnone =>
    intro k' hk' hik
    rw [findRun, if_pos hle, hnone] at h
    obtain rfl := Option.some.inj h
    omega
  | case3 i hgt =>
    rw [findRun, if_neg hgt] at h
    cases h

theorem runFree_iff {n : ℕ} : p.RunFree i n ↔
    i + n ≤ p.totalPages ∧ ∀ j < n, pmmBitmapTest p.bitmap (i + j) = false := by
  refine and_congr_right fun _ => ⟨fun h j hj => ?_, fun h j hj => ?_⟩
  · have hfree := h (i + j) (List.mem_range'_1.mpr ⟨by omega, by omega⟩)
    exact Bool.eq_false_iff.mpr hfree
  · obtain ⟨hle, hlt⟩ := List.mem_range'_1.mp hj
    have hclear := h (j - i) (by omega)
    rw [Nat.add_sub_cancel' hle] at hclear
    exact Bool.eq_false_iff.mp hclear

/-- What the search finds is the lowest run. -/
theorem lowestRun_of_findRun {n : ℕ} (hn : n ≤ p.totalPages)
    (h : findRun p.bitmap n (p.totalPages - n) 0 = some i) : p.LowestRun i n := by
  obtain ⟨hle, hclear⟩ := findRun_eq_some h
  refine ⟨runFree_iff.mpr ⟨by omega, hclear⟩, fun k hk hrun => ?_⟩
  obtain ⟨j, hj, hset⟩ := findRun_lowest h k hk (Nat.zero_le k)
  have hfree := (runFree_iff.mp hrun).2 j hj
  rw [hset] at hfree
  cases hfree

/-- It finds nothing when there is no run. -/
theorem not_runFree_of_findRun {n : ℕ} (h : findRun p.bitmap n (p.totalPages - n) 0 = none) :
    ¬ p.RunFree i n := by
  intro hrun
  obtain ⟨hle, hclear⟩ := runFree_iff.mp hrun
  obtain ⟨j, hj, hset⟩ := findRun_eq_none h (Nat.zero_le i) (by omega)
  rw [hclear j hj] at hset
  cases hset

theorem Pmm.LowestRun.unique {n k : ℕ} (h : p.LowestRun i n) (h' : p.LowestRun k n) : i = k := by
  rcases lt_trichotomy i k with hlt | heq | hlt
  · exact absurd h.1 (h'.2 i hlt)
  · exact heq
  · exact absurd h'.1 (h.2 k hlt)

/-- The pages whose bits are set are those of the run. -/
theorem runIndices_eq (h : i + count.toNat < 2 ^ 64) :
    runIndices (BitVec.ofNat 64 i) count = List.range' i count.toNat := by
  have hnat : (BitVec.ofNat 64 i).toNat = i := Nat.mod_eq_of_lt (by omega)
  rw [runIndices, List.range'_eq_map_range]
  refine List.map_congr_left fun j hj => ?_
  have hlt := List.mem_range.mp hj
  rw [toNat_add_index (by omega), hnat]

/-- The last index. -/
theorem toNat_last (htotal : p.totalPages < 2 ^ 64) (hcount : count.toNat ≤ p.totalPages) :
    (BitVec.ofNat 64 p.totalPages - count).toNat = p.totalPages - count.toNat := by
  have hnat : (BitVec.ofNat 64 p.totalPages).toNat = p.totalPages := Nat.mod_eq_of_lt htotal
  rw [BitVec.toNat_sub_of_le (by rwa [BitVec.le_def, hnat]), hnat]

/-- The call takes the lowest run. -/
theorem takesLowest_pmmAllocPages (htotal : p.totalPages < 2 ^ 64) (htwo : 2 ≤ count.toNat)
    (hcount : count.toNat ≤ p.totalPages) :
    TakesLowest p count.toNat (pmmAllocPages p count).1 (pmmAllocPages p count).2 := by
  have hne : count ≠ 0 ∧ count ≠ 1 := by
    constructor <;> rintro rfl <;> exact absurd htwo (by decide)
  rw [pmmAllocPages, if_neg hne.1, if_neg hne.2, toNat_last htotal hcount]
  cases hfind : findRun p.bitmap count.toNat (p.totalPages - count.toNat) 0 with
  | none => exact ⟨fun i hi => absurd hi.1 (not_runFree_of_findRun hfind), fun _ => ⟨rfl, rfl⟩⟩
  | some i =>
    have hlowest := lowestRun_of_findRun hcount hfind
    refine ⟨fun k hk => ?_, fun hnone => absurd hlowest.1 (hnone i)⟩
    obtain rfl := hk.unique hlowest
    exact ⟨rfl, pmmTakeRun_allocated p k count.toNat⟩

/-- With no more pages asked for than there are, the indices never wrap around. -/
theorem allocPages_result (htotal : p.totalPages < 2 ^ 64) (htwo : 2 ≤ count.toNat)
    (hcount : count.toNat ≤ p.totalPages) {result : Pmm × Word}
    (hok : (allocPages turns p count).2 = some result) : result = pmmAllocPages p count := by
  have hne : count ≠ 0 ∧ count ≠ 1 := by
    constructor <;> rintro rfl <;> exact absurd htwo (by decide)
  have hlast := toNat_last htotal hcount
  have hends : ∀ run, (searchRun p.bitmap count (BitVec.ofNat 64 p.totalPages - count) turns 0).2 =
      some run → run = (findRun p.bitmap count.toNat (p.totalPages - count.toNat) 0).map
        (BitVec.ofNat 64) := by
    intro run hrun
    rw [← hlast]
    exact searchRun_ends (i := 0) (by omega) (Nat.zero_le _) hrun
  rw [pmmAllocPages, if_neg hne.1, if_neg hne.2, hlast]
  unfold allocPages at hok
  split at hok
  · rename_i accessed w heq
    obtain ⟨i, hfind, rfl⟩ := Option.map_eq_some_iff.mp (hends (some w) (by rw [heq])).symm
    have hend := (lowestRun_of_findRun hcount hfind).1.1
    have haddr : BitVec.ofNat 64 i * 4096 = pageAddr i := by
      rw [pageAddr, pageSize, BitVec.ofNat_mul]
      rfl
    have htake : pmmTakeRun p i count.toNat = { p with
        bitmap := (List.range' i count.toNat).foldl pmmBitmapSet p.bitmap
        allocatedPages := p.allocatedPages + count } := by
      rw [pmmTakeRun, BitVec.ofNat_toNat, BitVec.setWidth_eq]
    rw [← Option.some.inj hok, hfind, runIndices_eq (by omega), haddr]
    dsimp only
    rw [htake]
  · rename_i accessed heq
    have hfind := Option.map_eq_none_iff.mp (hends none (by rw [heq])).symm
    rw [← Option.some.inj hok, hfind]
  · cases hok

/-- Nor does the call look at a page that there is not. -/
theorem allocPages_inside (htotal : p.totalPages < 2 ^ 64) (hcount : count.toNat ≤ p.totalPages) :
    ∀ k ∈ (allocPages turns p count).1, k < p.totalPages := by
  have hlast := toNat_last htotal hcount
  have haccessed : ∀ k ∈ (searchRun p.bitmap count (BitVec.ofNat 64 p.totalPages - count)
      turns 0).1, k < p.totalPages := by
    intro k hk
    have hlt := searchRun_accessed (i := 0) (by omega) (Nat.zero_le _) k hk
    omega
  unfold allocPages
  split
  · rename_i accessed w heq
    rw [heq] at haccessed
    intro k hk
    rcases List.mem_append.mp hk with hmem | hmem
    · exact haccessed k hmem
    · have hends := searchRun_ends (i := 0) (by omega) (Nat.zero_le _) (congrArg Prod.snd heq)
      rw [hlast] at hends
      obtain ⟨i, hfind, rfl⟩ := Option.map_eq_some_iff.mp hends.symm
      have hend := (lowestRun_of_findRun hcount hfind).1.1
      rw [runIndices_eq (by omega), List.mem_range'_1] at hmem
      omega
  · rename_i accessed heq
    rw [heq] at haccessed
    exact haccessed
  · rename_i accessed heq
    rw [heq] at haccessed
    exact haccessed

/-- The call comes back. -/
theorem exists_allocPages (htotal : p.totalPages < 2 ^ 64) (hcount : count.toNat ≤ p.totalPages) :
    ∃ turns p' r, (allocPages turns p count).2 = some (p', r) := by
  have hlast := toNat_last htotal hcount
  obtain ⟨turns, run, hrun⟩ : ∃ turns run, (searchRun p.bitmap count
      (BitVec.ofNat 64 p.totalPages - count) turns (BitVec.ofNat 64 0)).2 = some run :=
    exists_searchRun (by omega) (Nat.zero_le _)
  refine ⟨turns, ?_⟩
  unfold allocPages
  split
  · exact ⟨_, _, rfl⟩
  · exact ⟨_, _, rfl⟩
  · rename_i heq
    have hnone : (none : Option (Option Word)) = some run := (congrArg Prod.snd heq).symm.trans hrun
    cases hnone

/-- The pages that are tested are among those that the call looks at. -/
theorem searchRun_subset_allocPages (turns : ℕ) (p : Pmm) (count : Word) :
    (searchRun p.bitmap count (BitVec.ofNat 64 p.totalPages - count) turns 0).1 ⊆
      (allocPages turns p count).1 := by
  unfold allocPages
  split <;> rename_i heq <;> rw [heq]
  · exact List.subset_append_left _ _
  · exact List.Subset.refl _
  · exact List.Subset.refl _

/-- With more pages asked for than there are the call looks behind the last page. -/
theorem allocPages_outside (htotal : p.totalPages < count.toNat) :
    ∃ turns, p.totalPages ∈ (allocPages turns p count).1 := by
  have hcount := count.isLt
  have hnat : (BitVec.ofNat 64 p.totalPages).toNat = p.totalPages := Nat.mod_eq_of_lt (by omega)
  have hlast : p.totalPages < (BitVec.ofNat 64 p.totalPages - count).toNat := by
    rw [BitVec.toNat_sub, hnat]
    omega
  obtain ⟨turns, hmem⟩ : ∃ turns, p.totalPages ∈ (searchRun p.bitmap count
      (BitVec.ofNat 64 p.totalPages - count) turns (BitVec.ofNat 64 0)).1 :=
    exists_accessed_outside htotal hlast (Nat.zero_le _)
  exact ⟨turns, searchRun_subset_allocPages turns p count hmem⟩

/-- `pmm_alloc_pages` returns the lowest run, if there is one, and stays inside the bitmap, exactly
when no more pages are asked for than there are. -/
theorem allocatesLowest_iff (htotal : p.totalPages < 2 ^ 64) (htwo : 2 ≤ count.toNat) :
    AllocatesLowest p count ↔ count.toNat ≤ p.totalPages := by
  constructor
  · intro h
    by_contra hgt
    obtain ⟨turns, hmem⟩ := allocPages_outside (not_le.mp hgt)
    exact lt_irrefl _ (h.inside turns _ hmem)
  · intro hle
    refine ⟨exists_allocPages htotal hle, fun turns p' r hok => ?_, fun turns =>
      allocPages_inside htotal hle⟩
    have hresult := allocPages_result htotal htwo hle hok
    have htakes := takesLowest_pmmAllocPages htotal htwo hle
    rwa [← hresult] at htakes

end AllocPages

/-- A machine of 128 MiB, with its first page taken. -/
def smallPmm : Pmm where
  bitmap k := if k = 0 then 1 else 0
  totalPages := 0x8000
  allocatedPages := 0
  lastFreePage := 0

/-- Three pages of that machine. -/
theorem allocatesLowest_three : AllocatesLowest smallPmm 3 := by
  have htwo : 2 ≤ (3 : Word).toNat := by decide
  exact (allocatesLowest_iff (p := smallPmm) (by decide) htwo).mpr (by decide)

/-- A request for 256 MiB of that machine looks behind the bitmap. -/
theorem not_allocatesLowest : ¬ ∀ (p : Pmm) (count : Word), p.totalPages < 2 ^ 64 →
    2 ≤ count.toNat → AllocatesLowest p count := by
  intro hall
  have hless : smallPmm.totalPages < (0x10001 : Word).toNat := by decide
  obtain ⟨turns, hmem⟩ := allocPages_outside hless
  have hinside := (hall smallPmm 0x10001 (by decide) (by decide)).inside turns _ hmem
  exact lt_irrefl _ hinside

end KyroOS.Memory

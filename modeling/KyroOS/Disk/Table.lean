import KyroOS.Disk.FsDisk
import KyroOS.Lib.Transition

/-!
# The mounted file table

Over a device whose writes succeed, the calls of `fs_disk` keep the shape of the cached file table,
and write its entries and the superblock to blocks that the data never reaches. What each part of a
call does to the blocks of the partition is shown here once.

## Main definitions

* `Stores`, `Backs` — the blocks behind a device, and behind one whose writes always succeed
* `FsState.blockAt` — the blocks of the partition that is mounted
* `Table` — the shape of the cached table, and of the part of the superblock that describes it
* `FileCall`, `diskSystem` — the runs of file calls on a new file system

## Main results

* `writeTable_spec`, `writeData_spec` — the blocks after a table or the data of a file is written
* `findFileEntry_spec` — a search does not leave the table
* `table_init` — a partition that was formatted and mounted has an empty table
-/

namespace KyroOS.Disk

open Transition
open Vfs (CString)

/-- The blocks behind a device node: a write that succeeds changes one, and a read that succeeds
reads them. -/
structure Stores {ν σ : Type} (D : Devices ν σ) (node : ν) (view : σ → BitVec 32 → Block) :
    Prop where
  write : ∀ dev lba b, (D.write node dev lba b).2 = true →
    view (D.write node dev lba b).1 = Function.update (view dev) lba b
  read : ∀ dev lba n blocks, D.read node dev lba n = some blocks →
    blocks = (List.range n.toNat).map fun i => view dev (lba + BitVec.ofNat 32 i)

/-- The blocks behind a device node on which every write succeeds. -/
structure Backs {ν σ : Type} (D : Devices ν σ) (node : ν) (view : σ → BitVec 32 → Block) :
    Prop where
  write : ∀ dev lba b, (D.write node dev lba b).2 = true ∧
    view (D.write node dev lba b).1 = Function.update (view dev) lba b
  read : ∀ dev lba n blocks, D.read node dev lba n = some blocks →
    blocks = (List.range n.toNat).map fun i => view dev (lba + BitVec.ofNat 32 i)

theorem Backs.stores {ν σ : Type} {D : Devices ν σ} {node : ν} {view : σ → BitVec 32 → Block}
    (h : Backs D node view) : Stores D node view :=
  ⟨fun dev lba b _ => (h.write dev lba b).2, h.read⟩

section Table

variable {ν σ : Type} {D : Devices ν σ} {node : ν} {view : σ → BitVec 32 → Block}
  {s s' : FsState ν σ} {c : Cache} {e : FileEntry} {path : CString}

/-- A block of the mounted partition. -/
def FsState.blockAt (view : σ → BitVec 32 → Block) (s : FsState ν σ) (j : ℕ) : Block :=
  view s.dev (s.fs.mountedPartitionLba + BitVec.ofNat 32 j)

/-- The table has 32 entries, whose names end inside of their fields, and the superblock says so. -/
structure Table (node : ν) (s : FsState ν σ) (c : Cache) : Prop where
  node : s.fs.mountedDiskNode = some node
  cache : s.fs.fileTableCache = some c
  size : c.size = 16384
  length : c.entries.length = 32
  names : ∀ e ∈ c.entries, e.filename 59 = 0
  start : s.fs.currentSuperblock.fileTableStartBlock = 1
  num : s.fs.currentSuperblock.fileTableNumBlocks = 32

/-! ### Blocks -/

/-- Blocks of the partition are told apart by their index. -/
theorem add_ofNat_inj (base : BitVec 32) {i j : ℕ} (hi : i < 2 ^ 32) (hj : j < 2 ^ 32) :
    base + BitVec.ofNat 32 i = base + BitVec.ofNat 32 j ↔ i = j := by
  constructor
  · intro heq
    have hnat := congrArg BitVec.toNat heq
    rw [BitVec.toNat_add, BitVec.toNat_add, BitVec.toNat_ofNat, BitVec.toNat_ofNat] at hnat
    omega
  · intro heq
    rw [heq]

/-- A write succeeds, and changes one block. -/
theorem writeBlock_spec (hD : Backs D node view) (hnode : s.fs.mountedDiskNode = some node)
    (lba : BitVec 32) (b : Block) :
    ∃ dev, writeBlock D s lba b = ({ s with dev }, true) ∧ ∀ j < 2 ^ 32,
      FsState.blockAt view { s with dev } j =
        if j = lba.toNat then b else s.blockAt view j := by
  obtain ⟨hok, hview⟩ := hD.write s.dev (s.fs.mountedPartitionLba + lba) b
  refine ⟨(D.write node s.dev (s.fs.mountedPartitionLba + lba) b).1, ?_, fun j hj => ?_⟩
  · rw [writeBlock, hnode]
    exact Prod.ext rfl hok
  · rw [FsState.blockAt, hview, FsState.blockAt, Function.update_apply]
    have hiff := add_ofNat_inj s.fs.mountedPartitionLba hj lba.isLt
    rw [BitVec.ofNat_toNat, BitVec.setWidth_eq] at hiff
    exact if_congr hiff rfl rfl

/-! ### Entries -/

theorem Table.get {i : ℕ} (h : Table node s c) (hi : i < 32) :
    c.get i = .ok (c.entries.get ⟨i, h.length ▸ hi⟩) := by
  have hsize : 512 * i < c.size.toNat := by
    rw [h.size]
    show 512 * i < 16384
    omega
  rw [Cache.get, if_pos hsize, List.getElem?_eq_getElem (h.length ▸ hi)]
  rfl

theorem Table.entry {i : ℕ} (h : Table node s c) (hi : i < 32) :
    s.entry i = .ok (c.entries.get ⟨i, h.length ▸ hi⟩) := by
  rw [FsState.entry, h.cache]
  exact h.get hi

/-- An entry that is read lies in the table. -/
theorem Table.of_entry {i : ℕ} (h : Table node s c) (he : s.entry i = .ok e) :
    ∃ hi : i < c.entries.length, e = c.entries.get ⟨i, hi⟩ := by
  rw [FsState.entry, h.cache] at he
  dsimp only at he
  rw [Cache.get] at he
  split_ifs at he with hsize
  by_cases hi : i < c.entries.length
  · rw [List.getElem?_eq_getElem hi] at he
    exact ⟨hi, (Except.ok.inj he).symm⟩
  · rw [List.getElem?_eq_none (not_lt.mp hi)] at he
    cases he

/-- The cache with another entry. -/
def Cache.set (c : Cache) (i : ℕ) (e : FileEntry) : Cache :=
  { c with entries := c.entries.set i e }

theorem Cache.set_set (c : Cache) (i : ℕ) (e e' : FileEntry) :
    (c.set i e).set i e' = c.set i e' := by
  rw [Cache.set, Cache.set, Cache.set, List.set_set]

/-- An entry of the cache with another entry. -/
theorem Cache.entries_set {i idx : ℕ} (hi : i < (c.set idx e).entries.length) :
    ∃ hi' : i < c.entries.length, (c.set idx e).entries.get ⟨i, hi⟩ =
      if i = idx then e else c.entries.get ⟨i, hi'⟩ := by
  have hi' : i < c.entries.length := by
    have hlen : (c.entries.set idx e).length = c.entries.length := List.length_set ..
    exact hlen ▸ hi
  refine ⟨hi', ?_⟩
  exact (List.getElem_set ..).trans (if_congr eq_comm rfl rfl)

theorem Table.setEntry {i : ℕ} (h : Table node s c) (he : e.filename 59 = 0) :
    Table node (s.setEntry i e) (c.set i e) where
  node := h.node
  cache := by
    show s.fs.fileTableCache.map _ = _
    rw [h.cache]
    rfl
  size := h.size
  length := by
    show (c.entries.set i e).length = 32
    rw [List.length_set, h.length]
  names := fun e' he' =>
    (List.mem_or_eq_of_mem_set he').elim (h.names e') fun heq => heq ▸ he
  start := h.start
  num := h.num

/-- A state with the same globals has the same table. -/
theorem Table.of_dev {dev : σ} (h : Table node s c) : Table node { s with dev } c :=
  ⟨h.node, h.cache, h.size, h.length, h.names, h.start, h.num⟩

/-- A name that ends inside of its field is compared inside of it. -/
theorem strcmpFrom_ok (path : CString) {filename : Fin 60 → Byte} {k : Fin 60}
    (hend : filename k = 0) (n : ℕ) (hle : 60 - n ≤ (k : ℕ)) (hn : n ≤ 60) :
    ∃ r, strcmpFrom filename path n = .ok r := by
  induction n with
  | zero => exact absurd k.isLt (not_lt.mpr hle)
  | succ n ih =>
    rw [strcmpFrom, dif_pos (by omega)]
    by_cases hk : 59 - n = k
    · have hzero : filename ⟨59 - n, by omega⟩ = 0 := (congrArg filename (Fin.ext hk)).trans hend
      rw [hzero, if_neg fun h => h.1 rfl]
      exact ⟨_, rfl⟩
    · have hrest := ih (by omega) (by omega)
      split_ifs
      · exact hrest
      · exact ⟨_, rfl⟩

theorem isNamed_ok (path : CString) {k : Fin 60} (hend : e.filename k = 0) : ∃ r, e.isNamed path = .ok r := by
  rw [FileEntry.isNamed]
  split_ifs
  · exact ⟨_, rfl⟩
  · exact strcmpFrom_ok path hend 60 (Nat.zero_le k) le_rfl

/-- A file that is found is in use. -/
theorem inUse_of_isNamed (h : e.isNamed path = .ok true) : e.isFree = false := by
  rw [FileEntry.isNamed] at h
  split_ifs at h with hfree
  · cases Except.ok.inj h
  · exact Bool.eq_false_iff.mpr hfree

/-- A search through entries that can be read and tested comes back. -/
theorem findEntry_cases {p : FileEntry → Outcome Bool} (n i : ℕ)
    (h : ∀ j, i ≤ j → j < i + n → ∃ e r, c.get j = .ok e ∧ p e = .ok r) :
    findEntry c p n i = .ok none ∨ ∃ j e, i ≤ j ∧ j < i + n ∧
      findEntry c p n i = .ok (some j) ∧ c.get j = .ok e ∧ p e = .ok true := by
  induction n generalizing i with
  | zero => exact .inl rfl
  | succ n ih =>
    obtain ⟨e, r, hget, hp⟩ := h i le_rfl (by omega)
    rw [findEntry, hget]
    show (p e >>= _) = _ ∨ ∃ j e', _ ∧ _ ∧ (p e >>= _) = _ ∧ _
    rw [hp]
    cases r with
    | true => exact .inr ⟨i, e, le_rfl, by omega, rfl, hget, hp⟩
    | false =>
      rcases ih (i + 1) fun j hle hlt => h j (by omega) (by omega) with
        hnone | ⟨j, e', hle, hlt, hsome⟩
      · exact .inl hnone
      · exact .inr ⟨j, e', by omega, by omega, hsome⟩

/-- A search through entries on which the test comes back stays in the table. -/
theorem Table.findEntry {p : FileEntry → Outcome Bool} (h : Table node s c)
    (hp : ∀ e ∈ c.entries, ∃ r, p e = .ok r) :
    Disk.findEntry c p fsMaxFiles 0 = .ok none ∨ ∃ j, ∃ hj : j < 32,
      Disk.findEntry c p fsMaxFiles 0 = .ok (some j) ∧
        p (c.entries.get ⟨j, h.length ▸ hj⟩) = .ok true := by
  have hentry : ∀ j, 0 ≤ j → j < 0 + fsMaxFiles → ∃ e r, c.get j = .ok e ∧ p e = .ok r := by
    intro j _ hlt
    have hj : j < 32 := by
      rw [Nat.zero_add] at hlt
      exact hlt
    obtain ⟨r, hr⟩ := hp _ (List.get_mem c.entries ⟨j, h.length ▸ hj⟩)
    exact ⟨_, r, h.get hj, hr⟩
  rcases findEntry_cases fsMaxFiles 0 hentry with hnone | ⟨j, e, -, hlt, hsome, hget, htrue⟩
  · exact .inl hnone
  · have hj : j < 32 := by
      rw [Nat.zero_add] at hlt
      exact hlt
    rw [h.get hj] at hget
    exact .inr ⟨j, hj, hsome, Except.ok.inj hget ▸ htrue⟩

/-- `find_file_entry` comes back, with an entry that has the name. -/
theorem findFileEntry_spec (h : Table node s c) (path : CString) :
    findFileEntry path s.fs.fileTableCache = .ok none ∨ ∃ j, ∃ hj : j < 32,
      findFileEntry path s.fs.fileTableCache = .ok (some j) ∧
        (c.entries.get ⟨j, h.length ▸ hj⟩).isNamed path = .ok true := by
  rw [h.cache]
  exact h.findEntry fun e he => isNamed_ok path (h.names e he)

/-- `find_free_file_entry` comes back, with an entry that is free. -/
theorem findFreeFileEntry_spec (h : Table node s c) :
    findFreeFileEntry s.fs.fileTableCache = .ok none ∨ ∃ j, ∃ hj : j < 32,
      findFreeFileEntry s.fs.fileTableCache = .ok (some j) ∧
        (c.entries.get ⟨j, h.length ▸ hj⟩).isFree = true := by
  rw [h.cache]
  rcases h.findEntry (p := fun e => .ok e.isFree) (fun e _ => ⟨_, rfl⟩) with
    hnone | ⟨j, hj, hsome, hfree⟩
  · exact .inl hnone
  · exact .inr ⟨j, hj, hsome, Except.ok.inj hfree⟩

/-! ### Writing the table and the data -/

/-- `update_file_table` writes the entries behind the superblock. -/
theorem writeTable_spec (hD : Backs D node view) (n i : ℕ) (s : FsState ν σ)
    (h : Table node s c) (hle : i + n ≤ 32) :
    ∃ dev, writeTable D c n i s = .ok ({ s with dev }, true) ∧
      (∀ j < 2 ^ 32, j < i + 1 ∨ i + n < j →
        FsState.blockAt view { s with dev } j = s.blockAt view j) ∧
      ∀ j, ∀ hj : j < c.entries.length, i ≤ j → j < i + n →
        FsState.blockAt view { s with dev } (j + 1) = (c.entries.get ⟨j, hj⟩).toBlock := by
  induction n generalizing i s with
  | zero => exact ⟨s.dev, rfl, fun _ _ _ => rfl, fun j _ h h' => absurd h (by omega)⟩
  | succ n ih =>
    have hi : i < 32 := by omega
    obtain ⟨dev, hwrite, hblock⟩ := writeBlock_spec hD h.node
      (s.fs.currentSuperblock.fileTableStartBlock + BitVec.ofNat 32 i)
      (c.entries.get ⟨i, h.length ▸ hi⟩).toBlock
    have hlba : (s.fs.currentSuperblock.fileTableStartBlock + BitVec.ofNat 32 i).toNat = i + 1 := by
      rw [h.start, BitVec.toNat_add, BitVec.toNat_ofNat]
      show (1 + i % 2 ^ 32) % 2 ^ 32 = i + 1
      omega
    rw [hlba] at hblock
    obtain ⟨dev', hrest, hkeep, hnew⟩ :=
      ih (i + 1) { s with dev } h.of_dev (by omega)
    refine ⟨dev', ?_, fun j hj hout => ?_, fun j hj hle' hlt => ?_⟩
    · rw [writeTable, h.get hi]
      refine Outcome.bind_eq_ok.mpr ⟨_, rfl, ?_⟩
      rw [hwrite]
      exact hrest
    · rw [hkeep j hj (by omega), hblock j hj, if_neg (by omega)]
    · have hlen := h.length
      by_cases hij : j = i
      · rw [hkeep (j + 1) (by omega) (by omega), hblock (j + 1) (by omega), if_pos (by omega)]
        subst hij
        rfl
      · exact hnew j hj (by omega) (by omega)

/-- `update_file_table` leaves the table on the disk as it is in the cache. -/
theorem updateFileTable_spec (hD : Backs D node view) (h : Table node s c) :
    ∃ dev, updateFileTable D s = .ok ({ s with dev }, true) ∧
      (∀ j < 2 ^ 32, j < 1 ∨ 32 < j → FsState.blockAt view { s with dev } j = s.blockAt view j) ∧
      ∀ j, ∀ hj : j < c.entries.length,
        FsState.blockAt view { s with dev } (j + 1) = (c.entries.get ⟨j, hj⟩).toBlock := by
  obtain ⟨dev, hwrite, hkeep, hnew⟩ := writeTable_spec hD 32 0 s h le_rfl
  refine ⟨dev, ?_, fun j hj hout => hkeep j hj (by omega), fun j hj => ?_⟩
  · rw [updateFileTable, h.cache]
    dsimp only
    rw [h.num]
    exact hwrite
  · exact hnew j hj (Nat.zero_le j) (by have hlen := h.length; omega)

/-- The data of a file is written to the blocks behind `first`. -/
theorem writeData_spec (hD : Backs D node view) (first : BitVec 32) (data : List Byte) (n i : ℕ)
    (s : FsState ν σ) (hnode : s.fs.mountedDiskNode = some node)
    (hle : first.toNat + (i + n) ≤ 2 ^ 32) :
    ∃ dev, writeData D first data n i s = ({ s with dev }, true) ∧
      (∀ j < 2 ^ 32, j < first.toNat + i ∨ first.toNat + i + n ≤ j →
        FsState.blockAt view { s with dev } j = s.blockAt view j) ∧
      ∀ k, i ≤ k → k < i + n → FsState.blockAt view { s with dev } (first.toNat + k) =
        dataBlock data (blockOffset k) := by
  induction n generalizing i s with
  | zero => exact ⟨s.dev, rfl, fun _ _ _ => rfl, fun k h h' => absurd h (by omega)⟩
  | succ n ih =>
    obtain ⟨dev, hwrite, hblock⟩ := writeBlock_spec hD hnode (first + BitVec.ofNat 32 i)
      (dataBlock data (blockOffset i))
    have hlba : (first + BitVec.ofNat 32 i).toNat = first.toNat + i := by
      rw [BitVec.toNat_add, BitVec.toNat_ofNat]
      omega
    rw [hlba] at hblock
    obtain ⟨dev', hrest, hkeep, hnew⟩ :=
      ih (i + 1) { s with dev } hnode (by omega)
    refine ⟨dev', ?_, fun j hj hout => ?_, fun k hle' hlt => ?_⟩
    · rw [writeData, hwrite]
      exact hrest
    · rw [hkeep j hj (by omega), hblock j hj, if_neg (by omega)]
    · by_cases hik : k = i
      · rw [hkeep _ (by omega) (by omega), hblock _ (by omega), if_pos (by omega), hik]
      · exact hnew k (by omega) (by omega)

end Table

/-! ### Runs -/

/-- A call for a file. -/
inductive FileCall
  | create (path : CString) (flags : BitVec 32)
  | write (path : CString) (data : List Byte)
  | delete (path : CString)

section Runs

variable {ν σ : Type}

/-- The state and the result of a call. -/
def FileCall.run (D : Devices ν σ) (s : FsState ν σ) : FileCall → Outcome (FsState ν σ × Int)
  | .create path flags => fsCreateFile D s path flags
  | .write path data => fsWriteFile D s path data
  | .delete path => fsDeleteFile D s path

/-- A partition that was formatted and mounted. -/
def FreshlyMounted (D : Devices ν σ) (node : ν) (lba size : BitVec 32) (s : FsState ν σ) : Prop :=
  ∃ (s₀ : FsState ν σ) (dev : σ) (block : Word), (fsFormat D dev node lba size).2 = 0 ∧
    s₀.dev = (fsFormat D dev node lba size).1 ∧ fsMount D s₀ node lba block = (s, 0)

/-- The runs of file calls on a new file system. -/
def diskSystem (D : Devices ν σ) (node : ν) (lba size : BitVec 32) :
    System (FsState ν σ) FileCall where
  init := FreshlyMounted D node lba size
  step := fun s e s' => ∃ r, e.run D s = .ok (s', r)

variable {D : Devices ν σ} {node : ν} {view : σ → BitVec 32 → Block} {s : FsState ν σ}
  {lba size : BitVec 32}

/-- The zeroed blocks behind the superblock. -/
theorem zeroTable_spec (hD : Stores D node view) (lba : BitVec 32) (n i : ℕ) (dev : σ)
    (hle : i + n ≤ 32) (hok : (zeroTable D node lba n i dev).2 = 0) :
    view (zeroTable D node lba n i dev).1 (lba + BitVec.ofNat 32 0) =
        view dev (lba + BitVec.ofNat 32 0) ∧
      ∀ j < i + n, (i ≤ j ∨ view dev (lba + BitVec.ofNat 32 (1 + j)) = zeroBlock) →
        view (zeroTable D node lba n i dev).1 (lba + BitVec.ofNat 32 (1 + j)) = zeroBlock := by
  induction n generalizing i dev with
  | zero => exact ⟨rfl, fun j hlt h => h.resolve_left (by omega)⟩
  | succ n ih =>
    have hindex : lba + 1 + BitVec.ofNat 32 i = lba + BitVec.ofNat 32 (1 + i) := by
      rw [BitVec.add_assoc, BitVec.ofNat_add]
      rfl
    have hview := hD.write dev (lba + 1 + BitVec.ofNat 32 i) zeroBlock
    rw [zeroTable] at hok ⊢
    cases hwrite : D.write node dev (lba + 1 + BitVec.ofNat 32 i) zeroBlock with
    | mk dev' ok =>
      rw [hwrite] at hok hview
      cases ok with
      | false => cases hok
      | true =>
        have hview' : view dev' = Function.update (view dev) _ zeroBlock := hview rfl
        rw [hindex] at hview'
        obtain ⟨hzero, hrest⟩ := ih (i + 1) dev' (by omega) hok
        refine ⟨?_, fun j hlt h => ?_⟩
        · show view (zeroTable D node lba n (i + 1) dev').1 _ = _
          rw [hzero, hview', Function.update_of_ne]
          exact fun heq => absurd ((add_ofNat_inj lba (by omega) (by omega)).mp heq) (by omega)
        · refine hrest j (by omega) ?_
          by_cases hij : j = i
          · right
            rw [hview', hij, Function.update_self]
          · rcases h with hle' | hold
            · exact .inl (by omega)
            · right
              rw [hview', Function.update_of_ne, hold]
              exact fun heq => absurd ((add_ofNat_inj lba (by omega) (by omega)).mp heq) (by omega)

/-- What a format that succeeds leaves on the disk. -/
theorem fsFormat_spec (hD : Stores D node view) {dev : σ}
    (hok : (fsFormat D dev node lba size).2 = 0) :
    view (fsFormat D dev node lba size).1 (lba + BitVec.ofNat 32 0) =
        (newSuperblock size).toBlock ∧
      ∀ j < 32, view (fsFormat D dev node lba size).1 (lba + BitVec.ofNat 32 (1 + j)) =
        zeroBlock := by
  have hview := hD.write dev (lba + 0) (newSuperblock size).toBlock
  rw [fsFormat] at hok ⊢
  cases hwrite : D.write node dev (lba + 0) (newSuperblock size).toBlock with
  | mk dev' ok =>
    rw [hwrite] at hok hview
    cases ok with
    | false => cases hok
    | true =>
      obtain ⟨hzero, htable⟩ := zeroTable_spec hD lba 32 0 dev' le_rfl hok
      refine ⟨?_, fun j hj => htable j (by omega) (.inl (Nat.zero_le j))⟩
      show view (zeroTable D node lba 32 0 dev').1 _ = _
      rw [hzero, hview rfl]
      exact Function.update_self ..

/-- Every read of the node succeeds. -/
def Readable (D : Devices ν σ) (node : ν) (dev : σ) : Prop :=
  ∀ lba n, (D.read node dev lba n).isSome

/-- A mount over blocks that are all readable succeeds when it finds a superblock. -/
theorem fsMount_succeeds {block : Word} {sb : Superblock} (hD : Stores D node view)
    (hread : Readable D node s.dev) (hsb : view s.dev lba = sb.toBlock)
    (hsignature : sb.signature = fsSignature) (hblock : block ≠ 0) :
    (fsMount D s node lba block).2 = 0 := by
  obtain ⟨blocks, hblocks⟩ := Option.isSome_iff_exists.mp (hread (lba + 0) 1)
  have hhead : Superblock.ofBlock (blocks.headD zeroBlock) = sb := by
    rw [hD.read _ _ _ _ hblocks, ← Superblock.ofBlock_toBlock sb, ← hsb]
    exact congrArg (fun i => Superblock.ofBlock (view s.dev i)) (by simp)
  obtain ⟨table, htable⟩ := Option.isSome_iff_exists.mp
    (hread (lba + sb.fileTableStartBlock) sb.fileTableNumBlocks)
  rw [fsMount, hblocks]
  dsimp only
  rw [hhead, if_neg (not_not.mpr hsignature), if_neg hblock, htable]

/-- A mount that succeeds takes the superblock and the table from the blocks. -/
theorem fsMount_eq {block : Word} {sb : Superblock} (hD : Stores D node view)
    (hsb : view s.dev lba = sb.toBlock) (h : (fsMount D s node lba block).2 = 0) :
    fsMount D s node lba block = ({ s with fs := ⟨some node, lba, sb,
      some ⟨block, sb.fileTableNumBlocks * 512, (List.range sb.fileTableNumBlocks.toNat).map
        fun j => FileEntry.ofBlock
          (view s.dev (lba + sb.fileTableStartBlock + BitVec.ofNat 32 j))⟩⟩ }, 0) := by
  rw [fsMount] at h ⊢
  cases hread : D.read node s.dev (lba + 0) 1 with
  | none =>
    rw [hread] at h
    cases h
  | some blocks =>
    have hhead : Superblock.ofBlock (blocks.headD zeroBlock) = sb := by
      rw [hD.read _ _ _ _ hread, ← Superblock.ofBlock_toBlock sb, ← hsb]
      exact congrArg (fun i => Superblock.ofBlock (view s.dev i)) (by simp)
    rw [hread] at h
    dsimp only at h ⊢
    rw [hhead] at h ⊢
    split_ifs at h ⊢
    · cases h
    · cases h
    · cases htable : D.read node s.dev (lba + sb.fileTableStartBlock) sb.fileTableNumBlocks with
      | none =>
        rw [htable] at h
        cases h
      | some table =>
        rw [hD.read _ _ _ _ htable]
        dsimp only
        rw [List.map_map]
        rfl

/-- The cache of an empty table. -/
def emptyCache (block : Word) : Cache := ⟨block, 16384, List.replicate 32 FileEntry.zero⟩

/-- A partition that was formatted and mounted has an empty table, in the cache and on the disk. -/
theorem table_init (hD : Stores D node view) (h : FreshlyMounted D node lba size s) :
    ∃ block, Table node s (emptyCache block) ∧ s.fs.currentSuperblock = newSuperblock size ∧
      s.fs.mountedPartitionLba = lba ∧ s.blockAt view 0 = (newSuperblock size).toBlock ∧
      ∀ j < 32, s.blockAt view (j + 1) = zeroBlock := by
  obtain ⟨s₀, dev, block, hok, hdev, hmount⟩ := h
  obtain ⟨hsb, hblocks⟩ := fsFormat_spec hD hok
  rw [← hdev] at hsb hblocks
  -- what the mount reads
  have hsb' : view s₀.dev lba = (newSuperblock size).toBlock := by
    rw [← hsb]
    exact congrArg (view s₀.dev) (by simp)
  have heq := fsMount_eq hD hsb' (congrArg Prod.snd hmount)
  obtain rfl := (Prod.mk.inj (hmount.symm.trans heq)).1
  have htable' : ((List.range (newSuperblock size).fileTableNumBlocks.toNat).map fun j =>
      FileEntry.ofBlock (view s₀.dev
        (lba + (newSuperblock size).fileTableStartBlock + BitVec.ofNat 32 j))) =
      List.replicate 32 FileEntry.zero := by
    rw [List.eq_replicate_iff]
    refine ⟨by simp [newSuperblock], fun e he => ?_⟩
    obtain ⟨j, hj, rfl⟩ := List.mem_map.mp he
    have hlt : j < 32 := List.mem_range.mp hj
    have hindex : lba + (newSuperblock size).fileTableStartBlock + BitVec.ofNat 32 j =
        lba + BitVec.ofNat 32 (1 + j) := by
      rw [BitVec.add_assoc, BitVec.ofNat_add]
      rfl
    rw [hindex, hblocks j hlt, FileEntry.ofBlock_zeroBlock]
  refine ⟨block, ⟨rfl, ?_, rfl, rfl, ?_, rfl, rfl⟩, rfl, rfl, hsb, fun j hj => ?_⟩
  · have hbytes : (newSuperblock size).fileTableNumBlocks * 512 = 16384 := by
      show (32 : BitVec 32) * 512 = 16384
      decide
    rw [htable', hbytes, emptyCache]
  · intro e he
    rw [List.eq_of_mem_replicate he]
    rfl
  · rw [Nat.add_comm]
    exact hblocks j hj

end Runs

end KyroOS.Disk

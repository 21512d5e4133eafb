import KyroOS.Disk.Ide

/-!
# Partitions

The node of a partition computes the sectors of a request in 32 bits, compares their end with the size
of the partition and hands the first of them to the driver with a count of 8 bits. The drive takes 28
bits of the address.

## Main definitions

* `Controller` — the primary master and its status
* `Transfer` — what a call of the driver does, and the sectors that it moves
* `Controller.readSectors`, `Controller.writeSectors` — the calls, for any count
* `IdePartition`, `Request` — a partition and the requests to its node
* `StaysInside` — a request stays inside of the partition

## Main results

* `run_of_not_refused` — what is done with a request
* `result_idePartitionReadBlocks`, `dev_idePartitionWriteBlocks` — the blocks that a file system reads
  and writes
* `staysInside_iff` — the requests that stay inside of their partition
-/

namespace KyroOS.Disk

/-! ### The driver -/

/-- The primary master. A call waits until it is `ready`, and a write until its cache is
`flushed`. -/
structure Controller (σ : Type) extends Drive σ where
  present : Bool
  ready : σ → Bool
  flushed : σ → Bool

/-- What a call of the driver does: the blocks that it reads, unless it returns -1, the drive
afterwards, and the sectors that it tried to move. -/
structure Transfer (σ : Type) where
  result : Option (List Block)
  dev : σ
  touched : List ℕ

/-- A call that fails before anything is moved. -/
def Transfer.refused {σ : Type} (dev : σ) : Transfer σ := ⟨none, dev, []⟩

section Driver

variable {σ : Type} (P : Drive σ) (C : Controller σ) (dev : σ)

/-- The loop of `ide_read_sectors`, for `n` sectors from sector `i` on. -/
def readLoop : ℕ → ℕ → Transfer σ
  | 0, _ => ⟨some [], dev, []⟩
  | n + 1, i =>
    match P.sector dev i with
    | none => ⟨none, dev, [i]⟩
    | some b =>
      let rest := readLoop n (i + 1)
      ⟨rest.result.map (b :: ·), dev, i :: rest.touched⟩

/-- The loop of `ide_write_sectors`, from block `k` of the buffer on. -/
def writeLoop (buffer : ℕ → Block) : σ → ℕ → ℕ → ℕ → Transfer σ
  | dev, 0, _, _ => ⟨some [], dev, []⟩
  | dev, n + 1, k, i =>
    match P.store dev i (buffer k) with
    | (dev, false) => ⟨none, dev, [i]⟩
    | (dev, true) =>
      let rest := writeLoop buffer dev n (k + 1) (i + 1)
      ⟨rest.result, rest.dev, i :: rest.touched⟩

variable (drive : BitVec 8) (lba : BitVec 32) (numSectors : BitVec 8) (buffer : ℕ → Block)

/-- `ide_read_sectors` -/
def Controller.readSectors : Transfer σ :=
  if drive ≠ 0 ∨ C.present = false then .refused dev
  else if C.ready dev = false then .refused dev
  else readLoop C.toDrive dev numSectors.toNat (sectorOf lba)

/-- `ide_write_sectors` -/
def Controller.writeSectors : Transfer σ :=
  if drive ≠ 0 ∨ C.present = false then .refused dev
  else if C.ready dev = false then .refused dev
  else
    let moved := writeLoop C.toDrive buffer dev numSectors.toNat 0 (sectorOf lba)
    if C.flushed moved.dev then moved else { moved with result := none }

variable {P C dev drive lba numSectors buffer}

/-- What the loop reads is what `readSectors` reads. -/
theorem result_readLoop {n i : ℕ} : (readLoop P dev n i).result = readSectors P dev n i := by
  induction n generalizing i with
  | zero => rfl
  | succ n ih =>
    rw [readLoop, readSectors]
    cases P.sector dev i with
    | none => rfl
    | some b =>
      dsimp only
      rw [ih]
      cases readSectors P dev n (i + 1) <;> rfl

/-- A loop that comes to its end has moved all of its sectors. -/
theorem touched_readLoop {n i : ℕ} (h : (readLoop P dev n i).result ≠ none) :
    (readLoop P dev n i).touched = List.range' i n := by
  induction n generalizing i with
  | zero => rfl
  | succ n ih =>
    rw [readLoop] at h ⊢
    cases hsector : P.sector dev i with
    | none =>
      rw [hsector] at h
      exact absurd rfl h
    | some b =>
      rw [hsector] at h
      dsimp only at h ⊢
      rw [ih fun hrest => h (by rw [hrest]; rfl), List.range'_succ]

theorem touched_writeLoop {n k i : ℕ} (h : (writeLoop P buffer dev n k i).result ≠ none) :
    (writeLoop P buffer dev n k i).touched = List.range' i n := by
  induction n generalizing dev k i with
  | zero => rfl
  | succ n ih =>
    rw [writeLoop] at h ⊢
    cases hstore : P.store dev i (buffer k) with
    | mk dev' ok =>
      rw [hstore] at h
      cases ok with
      | false => exact absurd rfl h
      | true =>
        dsimp only at h ⊢
        rw [ih h, List.range'_succ]

theorem touched_readSectors (h : (C.readSectors dev drive lba numSectors).result ≠ none) :
    (C.readSectors dev drive lba numSectors).touched =
      List.range' (sectorOf lba) numSectors.toNat := by
  unfold Controller.readSectors at h ⊢
  split at h
  · exact absurd rfl h
  · split at h
    · exact absurd rfl h
    · next hdrive hready =>
      rw [if_neg hdrive, if_neg hready]
      exact touched_readLoop h

theorem touched_writeSectors (h : (C.writeSectors dev drive lba numSectors buffer).result ≠ none) :
    (C.writeSectors dev drive lba numSectors buffer).touched =
      List.range' (sectorOf lba) numSectors.toNat := by
  unfold Controller.writeSectors at h ⊢
  split at h
  · exact absurd rfl h
  · split at h
    · exact absurd rfl h
    · next hdrive hready =>
      rw [if_neg hdrive, if_neg hready]
      dsimp only at h ⊢
      split at h
      · next hflushed =>
        rw [if_pos hflushed]
        exact touched_writeLoop h
      · exact absurd rfl h

end Driver

/-! ### Partitions and requests -/

/-- `ide_partition_data_t` with its drive. -/
structure IdePartition extends PartitionData where
  driveId : BitVec 8

/-- A request to the node of a partition. -/
inductive Request
  | read (offset : Word) (size : BitVec 32)
  | write (offset : Word) (size : BitVec 32) (buffer : ℕ → Block)
  | readBlocks (lba count : BitVec 32)
  | writeBlocks (lba count : BitVec 32) (buffer : ℕ → Block)

section Partition

variable {σ : Type} (C : Controller σ) (dev : σ) (part : IdePartition)

/-- `ide_partition_read_sectors` -/
def idePartitionReadSectors (offset : Word) (size : BitVec 32) : Transfer σ :=
  if size % 512 ≠ 0 then .refused dev
  else
    let startLbaInPartition : BitVec 32 := (offset / 512).setWidth 32
    let numSectors : BitVec 8 := (size / 512).setWidth 8
    if part.partitionSize < startLbaInPartition + numSectors.setWidth 32 then .refused dev
    else
      C.readSectors dev part.driveId (part.partitionLbaStart + startLbaInPartition) numSectors

/-- `ide_partition_write_sectors` -/
def idePartitionWriteSectors (offset : Word) (size : BitVec 32) (buffer : ℕ → Block) :
    Transfer σ :=
  if size % 512 ≠ 0 then .refused dev
  else
    let startLbaInPartition : BitVec 32 := (offset / 512).setWidth 32
    let numSectors : BitVec 8 := (size / 512).setWidth 8
    if part.partitionSize < startLbaInPartition + numSectors.setWidth 32 then .refused dev
    else
      C.writeSectors dev part.driveId (part.partitionLbaStart + startLbaInPartition) numSectors
        buffer

/-- `IDE_IOCTL_READ_BLOCKS` of `ide_partition_ioctl` -/
def idePartitionReadBlocks (lba count : BitVec 32) : Transfer σ :=
  if part.partitionSize < lba + count then .refused dev
  else C.readSectors dev part.driveId (part.partitionLbaStart + lba) (count.setWidth 8)

/-- `IDE_IOCTL_WRITE_BLOCKS` of `ide_partition_ioctl` -/
def idePartitionWriteBlocks (lba count : BitVec 32) (buffer : ℕ → Block) : Transfer σ :=
  if part.partitionSize < lba + count then .refused dev
  else C.writeSectors dev part.driveId (part.partitionLbaStart + lba) (count.setWidth 8) buffer

namespace Request

/-- The function that serves a request. -/
def run : Request → Transfer σ
  | read offset size => idePartitionReadSectors C dev part offset size
  | write offset size buffer => idePartitionWriteSectors C dev part offset size buffer
  | readBlocks lba count => idePartitionReadBlocks C dev part lba count
  | writeBlocks lba count buffer => idePartitionWriteBlocks C dev part lba count buffer

/-- The first sector of a request, from the start of the partition. -/
def first : Request → BitVec 32
  | read offset _ | write offset _ _ => (offset / 512).setWidth 32
  | readBlocks lba _ | writeBlocks lba _ _ => lba

/-- The sectors that are moved. -/
def sectors : Request → BitVec 8
  | read _ size | write _ size _ => (size / 512).setWidth 8
  | readBlocks _ count | writeBlocks _ count _ => count.setWidth 8

/-- The node refuses the request. -/
def Refused : Request → Prop
  | r@(read _ size) | r@(write _ size _) =>
    size % 512 ≠ 0 ∨ part.partitionSize < r.first + r.sectors.setWidth 32
  | readBlocks lba count | writeBlocks lba count _ => part.partitionSize < lba + count

/-- The call of the driver. -/
def transfer (lba : BitVec 32) : Request → Transfer σ
  | r@(read _ _) | r@(readBlocks _ _) => C.readSectors dev part.driveId lba r.sectors
  | r@(write _ _ buffer) | r@(writeBlocks _ _ buffer) =>
    C.writeSectors dev part.driveId lba r.sectors buffer

end Request

variable {C dev part} {r : Request}

theorem run_of_refused (h : r.Refused part) : r.run C dev part = .refused dev := by
  cases r with
  | read offset size | write offset size buffer =>
    refine (ite_eq_left_iff.mpr fun hsize => ?_)
    exact if_pos (h.resolve_left hsize)
  | readBlocks lba count | writeBlocks lba count buffer => exact if_pos h

theorem run_of_not_refused (h : ¬ r.Refused part) :
    r.run C dev part = r.transfer C dev part (part.partitionLbaStart + r.first) := by
  cases r with
  | read offset size | write offset size buffer =>
    obtain ⟨hsize, hbound⟩ := not_or.mp h
    exact (if_neg hsize).trans (if_neg hbound)
  | readBlocks lba count | writeBlocks lba count buffer => exact if_neg h

/-- The sectors that a request touches when it does not fail. -/
theorem touched_run (hrun : ¬ r.Refused part) (h : (r.run C dev part).result ≠ none) :
    (r.run C dev part).touched =
      List.range' (sectorOf (part.partitionLbaStart + r.first)) r.sectors.toNat := by
  rw [run_of_not_refused hrun] at h ⊢
  cases r with
  | read offset size => exact touched_readSectors h
  | write offset size buffer => exact touched_writeSectors h
  | readBlocks lba count => exact touched_readSectors h
  | writeBlocks lba count buffer => exact touched_writeSectors h

/-! ### The blocks of the file system -/

/-- The file system reads through the `ioctl` of a partition of the primary master. -/
theorem result_idePartitionReadBlocks {lba count : BitVec 32} (hdrive : part.driveId = 0)
    (hpresent : C.present = true) (hready : C.ready dev = true) :
    (idePartitionReadBlocks C dev part lba count).result =
      ideIoctlRead C.toDrive (.partition part.toPartitionData) dev lba count := by
  have hnodrive : ¬ (part.driveId ≠ 0 ∨ C.present = false) := by simp [hdrive, hpresent]
  have hnoready : ¬ C.ready dev = false := by simp [hready]
  unfold idePartitionReadBlocks ideIoctlRead
  by_cases haccepts : lba + count ≤ part.partitionSize
  · rw [if_neg (BitVec.not_lt.mpr haccepts), Controller.readSectors, if_neg hnodrive,
      if_neg hnoready, result_readLoop]
    exact (if_pos haccepts).symm
  · rw [if_pos (BitVec.not_le.mp haccepts)]
    exact (if_neg haccepts).symm

/-- And it writes one block at a time. -/
theorem dev_idePartitionWriteBlocks {lba : BitVec 32} {b : Block} (hdrive : part.driveId = 0)
    (hpresent : C.present = true) (hready : C.ready dev = true) :
    (idePartitionWriteBlocks C dev part lba 1 fun _ => b).dev =
      (ideIoctlWrite C.toDrive (.partition part.toPartitionData) dev lba b).1 := by
  have hnodrive : ¬ (part.driveId ≠ 0 ∨ C.present = false) := by simp [hdrive, hpresent]
  have hnoready : ¬ C.ready dev = false := by simp [hready]
  unfold idePartitionWriteBlocks ideIoctlWrite
  by_cases haccepts : lba + 1 ≤ part.partitionSize
  · have hone : ((1 : BitVec 32).setWidth 8).toNat = 1 := rfl
    rw [if_neg (BitVec.not_lt.mpr haccepts), Controller.writeSectors, if_neg hnodrive,
      if_neg hnoready, hone]
    refine Eq.trans ?_ (congrArg Prod.fst (if_pos haccepts)).symm
    rw [ideWriteSectors, writeLoop]
    cases hstore : C.store dev (sectorOf (part.partitionLbaStart + lba)) b with
    | mk dev' ok =>
      have habsolute : IdeNode.absoluteLba lba (.partition part.toPartitionData) =
          part.partitionLbaStart + lba := rfl
      rw [habsolute, hstore]
      cases ok with
      | false => dsimp only; split <;> rfl
      | true => dsimp only [writeLoop]; split <;> rfl
  · rw [if_pos (BitVec.not_le.mp haccepts)]
    have hrefused : ¬ IdeNode.Accepts lba 1 (.partition part.toPartitionData) := haccepts
    rw [if_neg hrefused]
    rfl

end Partition

/-! ### A drive without faults -/

/-- A primary master, which may be absent, on which no transfer fails. -/
def masterDrive (present : Bool) : Controller (ℕ → Block) where
  sector d i := some (d i)
  store d i b := (Function.update d i b, true)
  present
  ready _ := true
  flushed _ := true

section MasterDrive

variable {present : Bool} {d : ℕ → Block} {drive : BitVec 8} {lba : BitVec 32}
  {numSectors : BitVec 8} {buffer : ℕ → Block}

theorem result_readLoop_masterDrive {n i : ℕ} :
    (readLoop (masterDrive present).toDrive d n i).result = some ((List.range' i n).map d) := by
  induction n generalizing i with
  | zero => rfl
  | succ n ih =>
    rw [readLoop]
    simp only [masterDrive] at ih ⊢
    rw [ih, List.range'_succ]
    rfl

theorem result_writeLoop_masterDrive {n k i : ℕ} :
    (writeLoop (masterDrive present).toDrive buffer d n k i).result = some [] := by
  induction n generalizing d k i with
  | zero => rfl
  | succ n ih => exact ih

theorem dev_writeLoop_masterDrive {n k i : ℕ} :
    (writeLoop (masterDrive present).toDrive buffer d n k i).dev =
      fun j => if i ≤ j ∧ j < i + n then buffer (k + (j - i)) else d j := by
  induction n generalizing d k i with
  | zero =>
    funext j
    rw [if_neg (by omega)]
    rfl
  | succ n ih =>
    funext j
    refine (congrFun (@ih (Function.update d i (buffer k)) (k + 1) (i + 1)) j).trans ?_
    by_cases hj : j = i
    · -- the sector of this turn
      rw [hj, if_neg (by omega), if_pos (by omega), Function.update_self, Nat.sub_self, Nat.add_zero]
    · rw [Function.update_of_ne hj]
      by_cases hin : i + 1 ≤ j ∧ j < i + 1 + n
      · rw [if_pos hin, if_pos (by omega)]
        congr 1
        omega
      · rw [if_neg hin, if_neg (by omega)]

theorem result_readSectors : ((masterDrive present).readSectors d drive lba numSectors).result =
    if drive ≠ 0 ∨ present = false then none
    else some ((List.range' (sectorOf lba) numSectors.toNat).map d) := by
  unfold Controller.readSectors
  by_cases hdrive : drive ≠ 0 ∨ present = false
  · rw [if_pos hdrive]
    exact congrArg Transfer.result (if_pos hdrive)
  · rw [if_neg hdrive, ← @result_readLoop_masterDrive present]
    exact congrArg Transfer.result (if_neg hdrive)

theorem result_writeSectors :
    ((masterDrive present).writeSectors d drive lba numSectors buffer).result =
      if drive ≠ 0 ∨ present = false then none else some [] := by
  unfold Controller.writeSectors
  by_cases hdrive : drive ≠ 0 ∨ present = false
  · rw [if_pos hdrive]
    exact congrArg Transfer.result (if_pos hdrive)
  · rw [if_neg hdrive, ← @result_writeLoop_masterDrive present d buffer numSectors.toNat 0 (sectorOf lba)]
    exact congrArg Transfer.result (if_neg hdrive)

theorem dev_writeSectors (hdrive : ¬ (drive ≠ 0 ∨ present = false)) :
    ((masterDrive present).writeSectors d drive lba numSectors buffer).dev = fun j =>
      if sectorOf lba ≤ j ∧ j < sectorOf lba + numSectors.toNat then buffer (j - sectorOf lba)
      else d j := by
  have hloop := @dev_writeLoop_masterDrive present d buffer numSectors.toNat 0 (sectorOf lba)
  simp only [Nat.zero_add] at hloop
  unfold Controller.writeSectors
  rw [← hloop]
  exact congrArg Transfer.dev (if_neg hdrive)

/-- The requests to a partition that fail. -/
theorem result_run_eq_none {part : IdePartition} {r : Request} :
    (r.run (masterDrive present) d part).result = none ↔
      (part.driveId ≠ 0 ∨ present = false) ∨ r.Refused part := by
  have hsome : ∀ blocks : List Block, some blocks ≠ none := fun _ => Option.some_ne_none _
  by_cases hrefused : r.Refused part
  · rw [run_of_refused hrefused]
    exact iff_of_true rfl (.inr hrefused)
  · rw [run_of_not_refused hrefused, or_iff_left hrefused]
    by_cases hdrive : part.driveId ≠ 0 ∨ present = false
    · refine iff_of_true ?_ hdrive
      cases r <;> simp only [Request.transfer, result_readSectors, result_writeSectors, if_pos hdrive]
    · refine iff_of_false ?_ hdrive
      cases r <;>
        simp only [Request.transfer, result_readSectors, result_writeSectors, if_neg hdrive] <;>
        exact hsome _

end MasterDrive

/-! ### Requests that stay inside -/

/-- A request fails, or touches sectors of the partition only. -/
def StaysInside {σ : Type} (part : IdePartition) (t : Transfer σ) : Prop :=
  t.result = none ∨ ∀ i ∈ t.touched, part.partitionLbaStart.toNat ≤ i ∧
    i < part.partitionLbaStart.toNat + part.partitionSize.toNat

/-- The low 28 bits of the first sector lead to the place that is meant, and the sectors that are
moved fit. -/
def Request.Fits (part : IdePartition) (r : Request) : Prop :=
  part.partitionLbaStart.toNat + r.first.toNat % 2 ^ 28 < 2 ^ 28 ∧
    r.first.toNat % 2 ^ 28 + r.sectors.toNat ≤ part.partitionSize.toNat

section

variable {part : IdePartition} {r : Request}

theorem sectorOf_add (a b : BitVec 32) : sectorOf (a + b) = (a.toNat + b.toNat) % 2 ^ 28 := by
  rw [sectorOf, BitVec.toNat_add]
  omega

/-- Where the sectors of a request are, and where they are meant to be. -/
theorem fits_iff (hpos : 0 < r.sectors.toNat) :
    r.Fits part ↔ part.partitionLbaStart.toNat ≤ sectorOf (part.partitionLbaStart + r.first) ∧
      sectorOf (part.partitionLbaStart + r.first) + r.sectors.toNat ≤
        part.partitionLbaStart.toNat + part.partitionSize.toNat := by
  have hfirst := r.first.isLt
  have hstart := part.partitionLbaStart.isLt
  rw [Request.Fits, sectorOf_add]
  constructor
  · rintro ⟨hplace, hfits⟩
    omega
  · rintro ⟨hlow, hhigh⟩
    omega

/-- A call for another drive fails. -/
theorem run_of_driveId_ne {σ : Type} {C : Controller σ} {dev : σ} (hdrive : part.driveId ≠ 0) :
    (r.run C dev part).result = none := by
  by_cases hrun : r.Refused part
  · rw [run_of_refused hrun]
    rfl
  · rw [run_of_not_refused hrun]
    have hread : ∀ lba numSectors,
        (C.readSectors dev part.driveId lba numSectors).result = none := by
      intro lba numSectors
      rw [Controller.readSectors, if_pos (.inl hdrive)]
      rfl
    have hwrite : ∀ lba numSectors buffer,
        (C.writeSectors dev part.driveId lba numSectors buffer).result = none := by
      intro lba numSectors buffer
      rw [Controller.writeSectors, if_pos (.inl hdrive)]
      rfl
    cases r with
    | read offset size => exact hread _ _
    | write offset size buffer => exact hwrite _ _ _
    | readBlocks lba count => exact hread _ _
    | writeBlocks lba count buffer => exact hwrite _ _ _

/-- The requests that stay inside of their partition on every drive. -/
theorem staysInside_iff (part : IdePartition) (r : Request) :
    (∀ (σ : Type) (C : Controller σ) (dev : σ), StaysInside part (r.run C dev part)) ↔
      part.driveId ≠ 0 ∨ r.Refused part ∨ r.sectors = 0 ∨ r.Fits part := by
  constructor
  · intro hall
    by_contra hno
    obtain ⟨hdrive, hrun, hsectors, hfits⟩ : part.driveId = 0 ∧ ¬ r.Refused part ∧
        r.sectors ≠ 0 ∧ ¬ r.Fits part := by
      simpa only [not_or, ne_eq, not_not] using hno
    have hpos : 0 < r.sectors.toNat := by
      rw [Nat.pos_iff_ne_zero, ne_eq, ← BitVec.toNat_zero, ← BitVec.toNat_eq]
      exact hsectors
    have hsuccess : (r.run (masterDrive true) (fun _ => zeroBlock) part).result ≠ none := by
      rw [ne_eq, result_run_eq_none]
      simp [hdrive, hrun]
    have hinside := (hall _ (masterDrive true) fun _ => zeroBlock).resolve_left hsuccess
    rw [touched_run hrun hsuccess] at hinside
    -- the first and the last sector decide
    have hlow := hinside _ (List.mem_range'_1.mpr ⟨le_rfl, by omega⟩)
    have hhigh := hinside (sectorOf (part.partitionLbaStart + r.first) + (r.sectors.toNat - 1))
      (List.mem_range'_1.mpr ⟨by omega, by omega⟩)
    exact hfits ((fits_iff hpos).mpr ⟨hlow.1, by omega⟩)
  · intro hcondition σ C dev
    by_cases hresult : (r.run C dev part).result = none
    · exact .inl hresult
    · refine .inr fun i hi => ?_
      have hdrive : ¬ part.driveId ≠ 0 := fun hne => hresult (run_of_driveId_ne hne)
      have hrun : ¬ r.Refused part := fun hrefused => by
        rw [run_of_refused hrefused] at hresult
        exact hresult rfl
      rw [touched_run hrun hresult] at hi
      have hmem := List.mem_range'_1.mp hi
      have hfits := (hcondition.resolve_left hdrive).resolve_left hrun
      have hpos : 0 < r.sectors.toNat := by omega
      have hne : r.sectors ≠ 0 := by
        rintro hzero
        rw [hzero] at hpos
        exact absurd hpos (by decide)
      have hplace := (fits_iff hpos).mp (hfits.resolve_left hne)
      omega

end

/-- Block 2³² - 1 of a partition is the sector before the partition. -/
theorem not_staysInside : ¬ ∀ (part : IdePartition) (r : Request),
    part.partitionLbaStart.toNat + part.partitionSize.toNat ≤ 2 ^ 32 →
      ∀ (σ : Type) (C : Controller σ) (dev : σ), StaysInside part (r.run C dev part) := by
  intro hall
  have hinside := hall ⟨⟨0, 2048, 100⟩, 0⟩ (.readBlocks 0xFFFFFFFF#32 1) (by decide) _
    (masterDrive true) fun _ => zeroBlock
  obtain hfails | htouched := hinside
  · obtain hdrive | hbound := result_run_eq_none.mp hfails
    · exact absurd hdrive (by decide)
    · exact absurd hbound (show ¬ (100#32 < 0xFFFFFFFF#32 + 1#32) by decide)
  · exact absurd (htouched 2047 (by decide)) (by decide)

end KyroOS.Disk

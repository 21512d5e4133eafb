import KyroOS.Disk.AtaTransfer

/-!
# Any number of transfers

The rest of the kernel knows the driver as one that moves sectors. A drive that is never busy for too
long and stores what it takes cannot be told from that, whatever is read and written, and whichever
of the transfers fail.

## Main definitions

* `Request` — a transfer that the kernel asks for
* `runPorts`, `runSectors` — transfers one after the other, at the ports and of sectors

## Main results

* `ports_refine_sectors` — they have the same results
-/

namespace KyroOS.Disk.Pio

variable {σ : Type}

/-- The driver as the rest of the kernel knows it. -/
def Medium.controller (M : Medium σ) : Controller σ :=
  { M.checked with present := true, ready := fun _ => true, flushed := fun _ => true }

/-- A transfer that the kernel asks for, with its buffer. -/
inductive Request
  | read (lba : BitVec 32) (numSectors : BitVec 8) (buffer : ℕ → BitVec 16)
  | write (lba : BitVec 32) (numSectors : BitVec 8) (buffer : ℕ → BitVec 16)

/-- The first words of a buffer. -/
def firstWords (n : ℕ) (buffer : ℕ → BitVec 16) : List (BitVec 16) := (List.range n).map buffer

namespace Request

/-- The number of sectors. -/
def numSectors : Request → BitVec 8
  | read _ n _ => n
  | write _ n _ => n

/-- The transfer at the ports, with the words that it puts into the buffer unless it fails. -/
def ports (M : Medium σ) (delay : ℕ → ℕ) (s : Ata σ) : Request → Ata σ × Option (List (BitVec 16))
  | read lba numSectors buffer =>
    let (s, buffer, result) := ideReadSectors M delay true 0 lba numSectors s buffer
    (s, if result = 0 then some (firstWords (256 * numSectors.toNat) buffer) else none)
  | write lba numSectors buffer =>
    let (s, result) := ideWriteSectors M delay true 0 lba numSectors s buffer
    (s, if result = 0 then some [] else none)

/-- The transfer of sectors. -/
def sectors (C : Controller σ) (d : σ) : Request → σ × Option (List (BitVec 16))
  | read lba numSectors _ =>
    let t := C.readSectors d 0 lba numSectors
    (t.dev, t.result.map fun blocks => blocks.flatMap wordsOf)
  | write lba numSectors buffer =>
    let t := C.writeSectors d 0 lba numSectors (blockAt buffer)
    (t.dev, t.result.map fun _ => [])

end Request

/-- Transfers at the ports. -/
def runPorts (M : Medium σ) (delay : ℕ → ℕ) :
    Ata σ → List Request → Ata σ × List (Option (List (BitVec 16)))
  | s, [] => (s, [])
  | s, r :: requests =>
    let rest := runPorts M delay (r.ports M delay s).1 requests
    (rest.1, (r.ports M delay s).2 :: rest.2)

/-- Transfers of sectors. -/
def runSectors (C : Controller σ) : σ → List Request → σ × List (Option (List (BitVec 16)))
  | d, [] => (d, [])
  | d, r :: requests =>
    let rest := runSectors C (r.sectors C d).1 requests
    (rest.1, (r.sectors C d).2 :: rest.2)

section Runs

variable {M : Medium σ} {delay : ℕ → ℕ} {s : Ata σ} {d : σ} {lba : BitVec 32}
  {numSectors : BitVec 8} {buffer : ℕ → BitVec 16}

theorem length_flatMap_wordsOf (blocks : List Block) :
    (blocks.flatMap wordsOf).length = 256 * blocks.length := by
  induction blocks with
  | nil => rfl
  | cons b blocks ih =>
    rw [List.flatMap_cons, List.length_append, length_wordsOf, ih, List.length_cons]
    omega

/-- The words that were put at the beginning of a buffer. -/
theorem firstWords_store (buffer : ℕ → BitVec 16) (ws : List (BitVec 16)) :
    firstWords ws.length (store buffer 0 ws) = ws := by
  apply List.ext_getElem
  · simp [firstWords]
  · intro i _ hi
    simp [firstWords, store, hi]

theorem readSectors_checked (n i : ℕ) :
    readSectors M.checked d n i = readSectors M.toDrive d n i := by
  induction n generalizing i with
  | zero => rfl
  | succ n ih =>
    rw [readSectors, readSectors, ih]
    rfl

/-- Reading changes no sector. -/
theorem dev_readLoop (P : Drive σ) (n i : ℕ) : (Disk.readLoop P d n i).dev = d := by
  cases n with
  | zero => rfl
  | succ n =>
    rw [Disk.readLoop]
    cases P.sector d i <;> rfl

/-- What the kernel knows of a read. -/
theorem sectors_read : (Request.read lba numSectors buffer).sectors M.controller d =
    (d, (Disk.ideReadSectors M.toDrive d lba numSectors).map fun blocks =>
      blocks.flatMap wordsOf) := by
  have hread : M.controller.readSectors d 0 lba numSectors =
      Disk.readLoop M.checked d numSectors.toNat (sectorOf lba) := rfl
  rw [Request.sectors, hread, result_readLoop, dev_readLoop, readSectors_checked]
  rfl

/-- What the kernel knows of a write. -/
theorem sectors_write : (Request.write lba numSectors buffer).sectors M.controller d =
    let t := Disk.writeLoop M.checked (blockAt buffer) d numSectors.toNat 0 (sectorOf lba)
    (t.dev, t.result.map fun _ => []) := rfl

/-- One transfer. The drive waits for the next one. -/
theorem ports_spec (hstore : ∀ d i b, (M.store d i b).2 = true) (hdelay : ∀ k, delay k < 100000)
    (hidle : s.phase = .idle) (hbusy : s.busy < 100000) {r : Request} (hr : r.numSectors ≠ 0) :
    (r.ports M delay s).1.phase = .idle ∧ (r.ports M delay s).1.busy < 100000 ∧
      (r.ports M delay s).1.disk = (r.sectors M.controller s.disk).1 ∧
      (r.ports M delay s).2 = (r.sectors M.controller s.disk).2 := by
  cases r with
  | read lba numSectors buffer =>
    have hn : numSectors ≠ 0 := hr
    obtain ⟨t, ht, hfetched, hdisk, hshort⟩ := ideReadSectors_eq M delay buffer hidle hbusy lba hn
    obtain ⟨hsame, hgood, hdone⟩ := readLoop_spec delay buffer numSectors.toNat 0 hfetched
    obtain ⟨hidle', hbusy', hsome⟩ := hdone hdelay (hshort hdelay)
    rw [hdisk] at hsame hgood hsome
    rw [sectors_read, Request.ports, ht]
    refine ⟨hidle', hbusy', hsame, ?_⟩
    dsimp only
    split_ifs with hzero
    · obtain ⟨-, blocks, hblocks, hbuffer⟩ := hgood hzero
      have hlen : 256 * numSectors.toNat = (blocks.flatMap wordsOf).length := by
        rw [length_flatMap_wordsOf, length_readSectors hblocks]
      rw [Disk.ideReadSectors, hblocks, hbuffer, hlen, Nat.zero_mul, firstWords_store]
      rfl
    · have hnone : Disk.ideReadSectors M.toDrive s.disk lba numSectors = none := by
        by_contra hne
        exact hzero (hsome hne)
      rw [hnone]
      rfl
  | write lba numSectors buffer =>
    have hn : numSectors ≠ 0 := hr
    obtain ⟨t, ht, hexpecting, hdisk, hshort⟩ := ideWriteSectors_eq M delay buffer hidle hbusy lba hn
    obtain ⟨-, hzero, htime⟩ := writeLoop_spec delay buffer numSectors.toNat 0 hexpecting
    obtain ⟨hidle', hbusy', hall, hdone⟩ := htime hdelay (hshort hdelay)
    rw [hdisk] at hzero hall hdone
    have haccepted : Accepted M (blockAt buffer) s.disk numSectors.toNat 0 (sectorOf lba) ↔ _ :=
      accepted_iff hstore
    rw [sectors_write, Request.ports, ht]
    refine ⟨hidle', hbusy', hall, ?_⟩
    dsimp only
    split_ifs with hvalue
    · obtain ⟨blocks, hblocks⟩ :=
        Option.ne_none_iff_exists'.mp (haccepted.mp (hzero hvalue).2.2)
      rw [hblocks]
      rfl
    · have hnone : (Disk.writeLoop M.checked (blockAt buffer) s.disk numSectors.toNat 0
          (sectorOf lba)).result = none := by
        by_contra hne
        exact hvalue (hdone (haccepted.mpr hne))
      rw [hnone]
      rfl

/-- Whatever is read and written, the transfers at the ports have the results of transfers of
sectors, and leave the same on the medium. -/
theorem ports_refine_sectors (M : Medium σ) (hstore : ∀ d i b, (M.store d i b).2 = true)
    (delay : ℕ → ℕ) (hdelay : ∀ k, delay k < 100000) (s : Ata σ) (hidle : s.phase = .idle)
    (hbusy : s.busy < 100000) (requests : List Request) (hcounts : ∀ r ∈ requests, r.numSectors ≠ 0) :
    (runPorts M delay s requests).1.disk = (runSectors M.controller s.disk requests).1 ∧
      (runPorts M delay s requests).2 = (runSectors M.controller s.disk requests).2 := by
  induction requests generalizing s with
  | nil => exact ⟨rfl, rfl⟩
  | cons r requests ih =>
    rw [List.forall_mem_cons] at hcounts
    obtain ⟨hidle', hbusy', hdisk, hresult⟩ := ports_spec hstore hdelay hidle hbusy hcounts.1
    obtain ⟨hdisks, hresults⟩ := ih (r.ports M delay s).1 hidle' hbusy' hcounts.2
    rw [hdisk] at hdisks hresults
    rw [runPorts, runSectors, hresult]
    dsimp only
    rw [hdisks, hresults]
    exact ⟨rfl, rfl⟩

/-- A sector is written and read again, and one that does not exist is read. -/
theorem ports_refine_sectors_again :
    let M : Medium (List (ℕ × Block)) := {
      sector := fun d i => (d.find? fun e => e.1 = i).map Prod.snd
      store := fun d i b => ((i, b) :: d, true)
      accepts := fun _ _ => true }
    let requests : List Request :=
      [.write 7 1 (fun _ => 5), .read 7 1 (fun _ => 0), .read 9 1 (fun _ => 0)]
    (runPorts M (fun _ => 3) (freshDrive []) requests).2 = (runSectors M.controller [] requests).2 := by
  intro M requests
  exact (ports_refine_sectors M (fun _ _ _ => rfl) (fun _ => 3) (fun _ => by decide)
    (freshDrive []) rfl zero_lt_polls requests (by simp [requests, Request.numSectors])).2

end Runs

end KyroOS.Disk.Pio

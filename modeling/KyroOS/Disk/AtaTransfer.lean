import KyroOS.Disk.AtaDevice
import Mathlib.Tactic.IntervalCases

/-!
# Transfers through the ports

What the driver does at the ports is what a transfer of sectors does: a read that returns 0 has put
the sectors into the buffer, and a write has handed its sectors to the drive one after the other. The
status is looked at before each sector, so that of the last one is not seen.

## Main definitions

* `writeBlocks` — what becomes of the sectors of a write
* `Fetched`, `Expecting` — the drive at the start of a turn of the loops

## Main results

* `selectSectors_eq` — the registers select the sectors
* `ideReadSectors_spec` — a read at the ports is a read of sectors
* `ideWriteSectors_spec` — a write at the ports
-/

namespace KyroOS.Disk.Pio

variable {σ : Type} {M : Medium σ} {delay : ℕ → ℕ}

/-! ### The registers -/

section Registers

variable {s : Ata σ} {lba : BitVec 32} {numSectors cmd : BitVec 8}

/-- The address registers hold the lower 28 bits of the sector number. -/
theorem address_registers (lba : BitVec 32) :
    ((0xE0#8 ||| 0#8 <<< 4 ||| ((lba >>> 24) &&& 0x0F).setWidth 8) &&& 0x0F).setWidth 32 <<< 24 |||
        (((lba >>> 16) &&& 0xFF).setWidth 8).setWidth 32 <<< 16 |||
        (((lba >>> 8) &&& 0xFF).setWidth 8).setWidth 32 <<< 8 |||
        ((lba &&& 0xFF).setWidth 8).setWidth 32 = lba &&& 0x0FFFFFFF := by
  apply BitVec.eq_of_getLsbD_eq
  intro i hi
  interval_cases i <;> simp

theorem toNat_and_low (lba : BitVec 32) : (lba &&& 0x0FFFFFFF).toNat = sectorOf lba := by
  have hmask : (0x0FFFFFFF : BitVec 32).toNat = 2 ^ 28 - 1 := rfl
  rw [BitVec.toNat_and, hmask, Nat.and_two_pow_sub_one_eq_mod]
  rfl

/-- The registers select the sectors, and the command is taken. -/
theorem selectSectors_eq (hbusy : s.busy = 0) (hidle : s.phase = .idle) (hn : numSectors ≠ 0) :
    ∃ t : Ata σ, selectSectors M delay 0 lba numSectors cmd s = t.command M delay cmd ∧
      t.address = sectorOf lba ∧ t.count = numSectors.toNat ∧ t.phase = .idle ∧ t.disk = s.disk := by
  refine ⟨{ s with
    driveHead := 0xE0 ||| 0 <<< 4 ||| ((lba >>> 24) &&& 0x0F).setWidth 8
    secCount := numSectors
    lbaLo := (lba &&& 0xFF).setWidth 8
    lbaMid := ((lba >>> 8) &&& 0xFF).setWidth 8
    lbaHi := ((lba >>> 16) &&& 0xFF).setWidth 8 }, ?_, ?_, if_neg hn, hidle, rfl⟩
  · simp [selectSectors, Ata.outb, hbusy]
  · exact (congrArg BitVec.toNat (address_registers lba)).trans (toNat_and_low lba)

end Registers

/-! ### Reading -/

section Reading

variable {s : Ata σ} {buffer : ℕ → BitVec 16} {lba : ℕ}

@[simp] theorem length_wordsOf (b : Block) : (wordsOf b).length = 256 := List.length_ofFn

theorem wordsOf_ne_nil (b : Block) : wordsOf b ≠ [] :=
  List.ne_nil_of_length_pos (by rw [length_wordsOf]; decide)

/-- The drive before so many sectors are read: it has fetched the first of them, or failed. -/
def Fetched (M : Medium σ) (s : Ata σ) (lba : ℕ) : ℕ → Prop
  | 0 => s.phase = .idle
  | n + 1 =>
    (∀ b, M.sector s.disk lba = some b →
      s.phase = .dataIn lba (n + 1) (wordsOf b) ∧ s.err = false) ∧
    (M.sector s.disk lba = none → s.phase = .idle ∧ s.err = true)

theorem fetch_disk (s : Ata σ) (left : ℕ) : (s.fetch M delay lba left).disk = s.disk := by
  rw [Ata.fetch]
  cases M.sector s.disk lba <;> rfl

theorem fetched_fetch (hs : s.err = false) (n : ℕ) :
    Fetched M (s.fetch M delay lba (n + 1)) lba (n + 1) := by
  rw [Fetched, fetch_disk, Ata.fetch]
  cases M.sector s.disk lba with
  | none => exact ⟨by rintro b ⟨⟩, fun _ => ⟨rfl, rfl⟩⟩
  | some b =>
    refine ⟨?_, by rintro ⟨⟩⟩
    rintro b' ⟨⟩
    exact ⟨rfl, hs⟩

variable (M delay lba) in
/-- The drive after a sector has been read. -/
theorem fetched_doneIn (hs : s.err = false) (n : ℕ) :
    Fetched M (s.doneIn M delay lba (n + 1)) (lba + 1) n ∧
      (s.doneIn M delay lba (n + 1)).disk = s.disk := by
  rw [Ata.doneIn]
  cases n with
  | zero => exact ⟨rfl, rfl⟩
  | succ n =>
    rw [if_neg (by omega)]
    exact ⟨fetched_fetch hs n, fetch_disk s _⟩

/-- The time that the drive is busy before a sector. -/
theorem busy_fetch (hdelay : ∀ k, delay k < 100000) (left : ℕ) :
    (s.fetch M delay lba left).busy < 100000 := by
  rw [Ata.fetch]
  cases M.sector s.disk lba <;> exact hdelay _

/-- The time that the drive is busy after a sector has been read. -/
theorem busy_doneIn (hdelay : ∀ k, delay k < 100000) (hs : s.busy < 100000) (n : ℕ) :
    (s.doneIn M delay lba n).busy < 100000 := by
  rw [Ata.doneIn]
  split
  · exact hs
  · exact busy_fetch hdelay _

/-- One turn of the loop. -/
theorem readLoop_succ (n i : ℕ) (hs : Fetched M s lba (n + 1)) (hbusy : s.busy < 100000) :
    readLoop M delay (n + 1) i s buffer =
      match M.sector s.disk lba with
      | some b => readLoop M delay n (i + 1) ({ s with busy := 0 }.doneIn M delay lba (n + 1))
          (store buffer (i * 256) (wordsOf b))
      | none => ({ s with busy := 0 }, buffer, -1) := by
  obtain ⟨hfound, hfailed⟩ := hs
  obtain ⟨hsame, -, herr⟩ := inStatus_ready (s := { s with busy := 0 }) rfl
  rw [readLoop, ideWaitForReady_eq hbusy]
  dsimp only
  rw [if_neg (by decide), hsame]
  cases hsector : M.sector s.disk lba with
  | none =>
    rw [if_pos (herr.mpr (hfailed hsector).2)]
  | some b =>
    obtain ⟨hphase, hnone⟩ := hfound b hsector
    rw [if_neg fun h => by rw [herr.mp h] at hnone; cases hnone]
    have hread : insw M delay (wordsOf b).length (i * 256) { s with busy := 0 } buffer = _ :=
      insw_eq hphase (wordsOf_ne_nil b)
    rw [length_wordsOf] at hread
    rw [hread]

theorem zero_lt_polls : 0 < 100000 := by decide

variable (M delay buffer) in
/-- A turn in which the drive stays busy for too long. -/
theorem readLoop_timeout (n i : ℕ) (hbusy : ¬ s.busy < 100000) :
    (readLoop M delay (n + 1) i s buffer).1.disk = s.disk ∧
      (readLoop M delay (n + 1) i s buffer).2.2 = -1 := by
  obtain ⟨t, hwait, hdisk⟩ := ideWaitForReady_timeout hbusy
  rw [readLoop, hwait]
  exact ⟨hdisk, rfl⟩

theorem failed_ne_zero : (-1 : BitVec 32) ≠ 0 := by decide

/-- The loop reads sectors. -/
theorem readLoop_spec (delay : ℕ → ℕ) (buffer : ℕ → BitVec 16) (n i : ℕ) (hs : Fetched M s lba n) :
    let r := readLoop M delay n i s buffer
    r.1.disk = s.disk ∧
      (r.2.2 = 0 → r.1.phase = .idle ∧ ∃ blocks,
        readSectors M.toDrive s.disk n lba = some blocks ∧
          r.2.1 = store buffer (i * 256) (blocks.flatMap wordsOf)) ∧
      ((∀ k, delay k < 100000) → s.busy < 100000 → r.1.phase = .idle ∧ r.1.busy < 100000 ∧
        (readSectors M.toDrive s.disk n lba ≠ none → r.2.2 = 0)) := by
  induction n generalizing s i buffer lba with
  | zero =>
    refine ⟨rfl, fun _ => ⟨hs, [], rfl, ?_⟩, fun _ hbusy => ⟨hs, hbusy, fun _ => rfl⟩⟩
    exact (store_nil buffer _).symm
  | succ n ih =>
    by_cases hbusy : s.busy < 100000
    · intro r
      have hr : r = _ := readLoop_succ n i hs hbusy
      rw [readSectors]
      cases hsector : M.sector s.disk lba with
      | none =>
        rw [hsector] at hr
        rw [hr]
        exact ⟨rfl, fun h => absurd h failed_ne_zero,
          fun _ _ => ⟨(hs.2 hsector).1, zero_lt_polls, fun h => absurd rfl h⟩⟩
      | some b =>
        have hnone : ({ s with busy := 0 } : Ata σ).err = false := (hs.1 b hsector).2
        obtain ⟨hfetched, hdisk⟩ := fetched_doneIn M delay lba hnone n
        rw [hsector] at hr
        obtain ⟨hsame, hgood, hdone⟩ := ih (store buffer (i * 256) (wordsOf b)) (i + 1)
          hfetched
        rw [hdisk] at hsame hgood hdone
        rw [hr]
        refine ⟨hsame, fun hzero => ?_, fun hdelay _ => ?_⟩
        · obtain ⟨hidle, blocks, hblocks, hbuffer⟩ := hgood hzero
          refine ⟨hidle, b :: blocks, ?_, ?_⟩
          · show (readSectors M.toDrive s.disk n (lba + 1)).bind _ = _
            rw [hblocks]
            rfl
          · have happend := store_append buffer (i * 256) (wordsOf b) (blocks.flatMap wordsOf)
            rw [length_wordsOf] at happend
            rw [hbuffer, Nat.add_mul, Nat.one_mul, happend, List.flatMap_cons]
        · obtain ⟨hidle, hshort, hall⟩ := hdone hdelay (busy_doneIn hdelay zero_lt_polls _)
          refine ⟨hidle, hshort, fun hsome => hall fun hnone => hsome ?_⟩
          show (readSectors M.toDrive s.disk n (lba + 1)).bind _ = _
          rw [hnone]
          rfl
    · obtain ⟨hdisk, hfailed⟩ := readLoop_timeout M delay buffer n i hbusy
      exact ⟨hdisk, fun hzero => absurd (hfailed.symm.trans hzero) failed_ne_zero,
        fun _ hlt => absurd hlt hbusy⟩

variable (M delay buffer) in
/-- The command to read has been taken. -/
theorem ideReadSectors_eq (hidle : s.phase = .idle) (hbusy : s.busy < 100000) (lba : BitVec 32)
    {numSectors : BitVec 8} (hn : numSectors ≠ 0) :
    ∃ t : Ata σ, ideReadSectors M delay true 0 lba numSectors s buffer =
        readLoop M delay numSectors.toNat 0 t buffer ∧
      Fetched M t (sectorOf lba) numSectors.toNat ∧ t.disk = s.disk ∧
        ((∀ k, delay k < 100000) → t.busy < 100000) := by
  obtain ⟨t, hselect, haddress, hcount, hphase, hdisk⟩ :=
    selectSectors_eq (M := M) (s := { s with busy := 0 }) rfl hidle hn
  have hcall : ¬ ((0 : BitVec 8) ≠ 0 ∨ true = false) := by decide
  have hcommand : t.command M delay 0x20 =
      { t with err := false }.fetch M delay (sectorOf lba) numSectors.toNat := by
    rw [Ata.command, hphase, ← haddress, ← hcount]
    rfl
  obtain ⟨n, hcountSucc⟩ : ∃ n, numSectors.toNat = n + 1 :=
    Nat.exists_eq_succ_of_ne_zero fun h => hn (BitVec.eq_of_toNat_eq h)
  refine ⟨{ t with err := false }.fetch M delay (sectorOf lba) (n + 1), ?_, ?_, ?_,
    fun hdelay => busy_fetch hdelay _⟩
  · rw [ideReadSectors, if_neg hcall, ideWaitForReady_eq hbusy]
    dsimp only
    rw [hselect, hcommand, hcountSucc]
    rfl
  · rw [hcountSucc]
    exact fetched_fetch rfl n
  · rw [fetch_disk]
    exact hdisk

variable (M delay buffer) in
/-- A read that finds the drive busy for too long. -/
theorem ideReadSectors_timeout (hbusy : ¬ s.busy < 100000) (lba : BitVec 32)
    (numSectors : BitVec 8) :
    (ideReadSectors M delay true 0 lba numSectors s buffer).1.disk = s.disk ∧
      (ideReadSectors M delay true 0 lba numSectors s buffer).2.2 = -1 := by
  have hcall : ¬ ((0 : BitVec 8) ≠ 0 ∨ true = false) := by decide
  obtain ⟨t, hwait, hdisk⟩ := ideWaitForReady_timeout hbusy
  rw [ideReadSectors, if_neg hcall, hwait]
  exact ⟨hdisk, rfl⟩

/-- A drive that waits for its first command. -/
def freshDrive {σ : Type} (d : σ) : Ata σ := ⟨0, 0, 0, 0, 0, .idle, 0, false, d, 0⟩

end Reading

/-! ### Writing -/

/-- The drive as the driver sees it: a sector that it does not take cannot be written. -/
def Medium.checked (M : Medium σ) : Drive σ where
  sector := M.sector
  store d i b := if M.accepts d i then M.store d i b else (d, false)

/-- The drive takes all of so many sectors, and has stored each but the last. -/
def Accepted (M : Medium σ) (blocks : ℕ → Block) : σ → ℕ → ℕ → ℕ → Prop
  | _, 0, _, _ => True
  | d, n + 1, k, i =>
    M.accepts d i ∧ (n ≠ 0 → (M.store d i (blocks k)).2 ∧
      Accepted M blocks (M.store d i (blocks k)).1 n (k + 1) (i + 1))

/-- A sector of the buffer of a write. -/
def blockAt (buffer : ℕ → BitVec 16) (i : ℕ) : Block :=
  blockOf ((List.range 256).map fun k => buffer (i * 256 + k))

/-- The drive before so many sectors are written: it waits for the first of them, or failed. -/
def Expecting (M : Medium σ) (s : Ata σ) (lba : ℕ) : ℕ → Prop
  | 0 => s.phase = .idle
  | n + 1 =>
    (M.accepts s.disk lba → s.phase = .dataOut lba (n + 1) [] ∧ s.err = false) ∧
    (¬ M.accepts s.disk lba → s.phase = .idle ∧ s.err = true)

section Writing

variable {s : Ata σ} {buffer : ℕ → BitVec 16} {blocks : ℕ → Block} {d : σ} {lba n k i : ℕ}
  {ws : List (BitVec 16)}

/-- When the drive stores whatever it takes, it takes the sectors if they can be written. -/
theorem accepted_iff (h : ∀ d i b, (M.store d i b).2 = true) :
    Accepted M blocks d n k i ↔ (Disk.writeLoop M.checked blocks d n k i).result ≠ none := by
  induction n generalizing d k i with
  | zero => exact ⟨fun _ => by rintro ⟨⟩, fun _ => trivial⟩
  | succ n ih =>
    rw [Accepted, Disk.writeLoop, Medium.checked]
    by_cases haccepts : M.accepts d i = true
    · have hstore : M.store d i (blocks k) = ((M.store d i (blocks k)).1, true) :=
        Prod.ext rfl (h d i _)
      dsimp only
      rw [if_pos haccepts, hstore]
      dsimp only
      rw [← Medium.checked, ← ih]
      refine ⟨fun hall => ?_, fun hrest => ⟨haccepts, fun _ => ⟨rfl, hrest⟩⟩⟩
      cases n with
      | zero => trivial
      | succ n => exact (hall.2 n.succ_ne_zero).2
    · dsimp only
      rw [if_neg haccepts]
      exact ⟨fun hall => absurd hall.1 haccepts, fun hrest => absurd rfl hrest⟩

theorem expect_disk (s : Ata σ) (left : ℕ) : (s.expect M delay lba left).disk = s.disk := by
  rw [Ata.expect]
  split <;> rfl

theorem expecting_expect (hs : s.err = false) (n : ℕ) :
    Expecting M (s.expect M delay lba (n + 1)) lba (n + 1) := by
  rw [Expecting, expect_disk, Ata.expect]
  by_cases haccepts : M.accepts s.disk lba = true
  · rw [if_pos haccepts]
    exact ⟨fun _ => ⟨rfl, hs⟩, fun h => absurd haccepts h⟩
  · rw [if_neg haccepts]
    exact ⟨fun h => absurd h haccepts, fun _ => ⟨rfl, rfl⟩⟩

/-- The time that the drive is busy before it takes a sector. -/
theorem busy_expect (hdelay : ∀ k, delay k < 100000) (left : ℕ) :
    (s.expect M delay lba left).busy < 100000 := by
  rw [Ata.expect]
  split <;> exact hdelay _

variable (M delay lba ws) in
/-- The drive after a sector has been written. -/
theorem doneOut_spec (hs : s.err = false) (n : ℕ) :
    let t := s.doneOut M delay lba (n + 1) ws
    let stored := M.store s.disk lba (blockOf ws)
    t.disk = stored.1 ∧ (stored.2 = true → Expecting M t (lba + 1) n) ∧
      (stored.2 = false → t.phase = .idle ∧ t.err = true) ∧
      ((∀ k, delay k < 100000) → t.busy < 100000) := by
  rw [Ata.doneOut]
  rcases M.store s.disk lba (blockOf ws) with ⟨disk, ok⟩
  cases ok with
  | false => exact ⟨rfl, by rintro ⟨⟩, fun _ => ⟨rfl, rfl⟩, fun hdelay => hdelay _⟩
  | true =>
    cases n with
    | zero => exact ⟨rfl, fun _ => rfl, by rintro ⟨⟩, fun hdelay => hdelay _⟩
    | succ n =>
      dsimp only
      rw [if_neg (by omega)]
      refine ⟨expect_disk _ _, fun _ => ?_, by rintro ⟨⟩, fun hdelay => busy_expect hdelay _⟩
      exact expecting_expect (s := { s with disk := disk }) hs n

/-- Polling changes no more than the time. -/
theorem pollReady_frame (n : ℕ) (s : Ata σ) :
    (pollReady n s).1.disk = s.disk ∧ (pollReady n s).1.phase = s.phase := by
  rw [pollReady_eq]
  split <;> exact ⟨rfl, rfl⟩

variable (M delay) in
/-- The drive after the command to flush, taken or not. -/
theorem flush_spec (hs : s.phase = .idle) :
    let t := s.outb M delay 0x1F7 0xE7
    t.disk = s.disk ∧ t.phase = .idle ∧
      ((∀ k, delay k < 100000) → s.busy < 100000 → t.busy < 100000) := by
  rw [Ata.outb]
  split
  · exact ⟨rfl, hs, fun _ h => h⟩
  · have hcommand : s.command M delay 0xE7 = { s.becomeBusy delay with err := false } := by
      rw [Ata.command, hs]
      rfl
    rw [if_neg (by decide), if_neg (by decide), if_neg (by decide), if_neg (by decide),
      if_neg (by decide), if_pos rfl, hcommand]
    exact ⟨rfl, hs, fun hdelay _ => hdelay _⟩

variable (M delay buffer) in
/-- The end of a write. -/
theorem writeLoop_zero (hs : s.phase = .idle) (i : ℕ) :
    let r := writeLoop M delay buffer 0 i s
    r.1.disk = s.disk ∧ r.1.phase = .idle ∧
      ((∀ k, delay k < 100000) → s.busy < 100000 → r.1.busy < 100000 ∧ r.2 = 0) := by
  obtain ⟨hdisk, hphase, hbusy⟩ := flush_spec M delay hs
  obtain ⟨hdisk', hphase'⟩ := pollReady_frame 100000 (s.outb M delay 0x1F7 0xE7)
  rw [writeLoop]
  dsimp only
  split
  · next hnot =>
    refine ⟨hdisk'.trans hdisk, hphase'.trans hphase, fun hdelay hlt => ?_⟩
    rw [ideWaitForReady_eq (hbusy hdelay hlt)] at hnot
    cases hnot
  · refine ⟨hdisk'.trans hdisk, hphase'.trans hphase, fun hdelay hlt => ⟨?_, rfl⟩⟩
    rw [ideWaitForReady_eq (hbusy hdelay hlt)]
    exact zero_lt_polls

/-- A turn of the loop when the drive has failed. -/
theorem writeLoop_err (hs : s.err = true) (hbusy : s.busy < 100000) (n i : ℕ) :
    writeLoop M delay buffer (n + 1) i s = ({ s with busy := 0 }, -1) := by
  obtain ⟨hsame, -, herr⟩ := inStatus_ready (s := { s with busy := 0 }) rfl
  rw [writeLoop, ideWaitForReady_eq hbusy]
  dsimp only
  rw [if_neg (by decide), hsame, if_pos (herr.mpr hs)]

/-- A turn of the loop when the drive takes the sector. -/
theorem writeLoop_succ (hs : s.phase = .dataOut lba (n + 1) []) (hnone : s.err = false)
    (hbusy : s.busy < 100000) (i : ℕ) :
    writeLoop M delay buffer (n + 1) i s =
      writeLoop M delay buffer n (i + 1) ({ s with busy := 0 }.doneOut M delay lba (n + 1)
        ((List.range 256).map fun k => buffer (i * 256 + k))) := by
  obtain ⟨hsame, -, herr⟩ := inStatus_ready (s := { s with busy := 0 }) rfl
  have hgood : ¬ ({ s with busy := 0 } : Ata σ).inStatus.2 &&& (0x20 ||| 0x01) ≠ 0 := by
    rw [herr, hnone]
    exact Bool.false_ne_true
  have hphase : ({ s with busy := 0 } : Ata σ).phase = .dataOut lba (n + 1) [] := hs
  have hwords : outsw M delay buffer 256 (i * 256) _ = _ := outsw_eq hphase rfl (by decide)
  rw [writeLoop, ideWaitForReady_eq hbusy]
  dsimp only
  rw [if_neg (by decide), hsame, if_neg hgood, hwords, List.nil_append]

variable (M delay buffer) in
/-- A turn in which the drive stays busy for too long. -/
theorem writeLoop_timeout (n i : ℕ) (hbusy : ¬ s.busy < 100000) :
    (writeLoop M delay buffer (n + 1) i s).1.disk = s.disk ∧
      (writeLoop M delay buffer (n + 1) i s).2 = -1 := by
  obtain ⟨t, hwait, hdisk⟩ := ideWaitForReady_timeout hbusy
  rw [writeLoop, hwait]
  exact ⟨hdisk, rfl⟩

variable (M delay buffer) in
/-- The drive has failed: that is not seen when no sector is left to be written. -/
theorem writeLoop_failed (hphase : s.phase = .idle) (herr : s.err = true) (n i : ℕ) :
    let r := writeLoop M delay buffer n i s
    r.1.disk = s.disk ∧ (r.2 = 0 → n = 0 ∧ r.1.phase = .idle) ∧
      ((∀ k, delay k < 100000) → s.busy < 100000 → r.1.phase = .idle ∧ r.1.busy < 100000 ∧
        (n = 0 → r.2 = 0)) := by
  cases n with
  | zero =>
    obtain ⟨hdisk, hidle, hdone⟩ := writeLoop_zero M delay buffer hphase i
    refine ⟨hdisk, fun _ => ⟨rfl, hidle⟩, fun hdelay hbusy => ?_⟩
    exact ⟨hidle, (hdone hdelay hbusy).1, fun _ => (hdone hdelay hbusy).2⟩
  | succ n =>
    by_cases hbusy : s.busy < 100000
    · rw [writeLoop_err herr hbusy]
      exact ⟨rfl, fun h => absurd h failed_ne_zero,
        fun _ _ => ⟨hphase, zero_lt_polls, fun h => absurd h n.succ_ne_zero⟩⟩
    · obtain ⟨hdisk, hfailed⟩ := writeLoop_timeout M delay buffer n i hbusy
      exact ⟨hdisk, fun h => absurd (hfailed.symm.trans h) failed_ne_zero,
        fun _ hlt => absurd hlt hbusy⟩

/-- The sectors after a turn of the loop over them. -/
theorem dev_writeLoop_succ (P : Drive σ) (blocks : ℕ → Block) (d : σ) (n k i : ℕ) :
    (Disk.writeLoop P blocks d (n + 1) k i).dev =
      match P.store d i (blocks k) with
      | (d, false) => d
      | (d, true) => (Disk.writeLoop P blocks d n (k + 1) (i + 1)).dev := by
  rw [Disk.writeLoop]
  rcases P.store d i (blocks k) with ⟨d', ok⟩
  cases ok <;> rfl

variable (delay buffer) in
/-- The loop writes sectors. -/
theorem writeLoop_spec (n i : ℕ) (hs : Expecting M s lba n) :
    let r := writeLoop M delay buffer n i s
    let written := fun m => Disk.writeLoop M.checked (blockAt buffer) s.disk m i lba
    (∃ m ≤ n, r.1.disk = (written m).dev) ∧
      (r.2 = 0 → r.1.phase = .idle ∧ r.1.disk = (written n).dev ∧
        Accepted M (blockAt buffer) s.disk n i lba) ∧
      ((∀ k, delay k < 100000) → s.busy < 100000 → r.1.phase = .idle ∧ r.1.busy < 100000 ∧
        r.1.disk = (written n).dev ∧ (Accepted M (blockAt buffer) s.disk n i lba → r.2 = 0)) := by
  induction n generalizing s i lba with
  | zero =>
    obtain ⟨hdisk, hphase, hdone⟩ := writeLoop_zero M delay buffer hs i
    refine ⟨⟨0, Nat.le_refl 0, hdisk⟩, fun _ => ⟨hphase, hdisk, trivial⟩, fun hdelay hbusy => ?_⟩
    exact ⟨hphase, (hdone hdelay hbusy).1, hdisk, fun _ => (hdone hdelay hbusy).2⟩
  | succ n ih =>
    intro r written
    have hwritten (m : ℕ) : (written (m + 1)).dev = _ :=
      dev_writeLoop_succ M.checked (blockAt buffer) s.disk m i lba
    by_cases hbusy : s.busy < 100000
    · by_cases haccepts : M.accepts s.disk lba = true
      · obtain ⟨hphase, hnone⟩ := hs.1 haccepts
        have hr : r = _ := writeLoop_succ hphase hnone hbusy i
        have hclear : ({ s with busy := 0 } : Ata σ).err = false := hnone
        obtain ⟨hdisk, hgood, hbad, hshort⟩ := doneOut_spec M delay lba
          ((List.range 256).map fun k => buffer (i * 256 + k)) hclear n
        have hstore : M.checked.store s.disk lba (blockAt buffer i) =
            M.store s.disk lba (blockAt buffer i) := if_pos haccepts
        have hdisk : ({ s with busy := 0 }.doneOut M delay lba (n + 1)
            ((List.range 256).map fun k => buffer (i * 256 + k))).disk =
            (M.store s.disk lba (blockAt buffer i)).1 := hdisk
        rw [hr]
        cases hok : (M.store s.disk lba (blockAt buffer i)).2 with
        | true =>
          have hstored : M.store s.disk lba (blockAt buffer i) =
              ((M.store s.disk lba (blockAt buffer i)).1, true) := Prod.ext rfl hok
          obtain ⟨⟨m, hm, hpart⟩, hzero, htime⟩ := ih (i + 1) (hgood hok)
          rw [hdisk] at hpart hzero htime
          have hrest (m : ℕ) : (written (m + 1)).dev =
              (Disk.writeLoop M.checked (blockAt buffer) (M.store s.disk lba (blockAt buffer i)).1 m
                (i + 1) (lba + 1)).dev := by
            rw [hwritten, hstore, hstored]
          rw [hrest]
          refine ⟨⟨m + 1, by omega, hpart.trans (hrest m).symm⟩, fun h => ?_, fun hdelay _ => ?_⟩
          · obtain ⟨hphase, hall, haccepted⟩ := hzero h
            exact ⟨hphase, hall, haccepts, fun _ => ⟨hok, haccepted⟩⟩
          · obtain ⟨hidle, hbusy', hall, hdone⟩ := htime hdelay (hshort hdelay)
            refine ⟨hidle, hbusy', hall, fun haccepted => hdone ?_⟩
            cases n with
            | zero => trivial
            | succ n => exact (haccepted.2 n.succ_ne_zero).2
        | false =>
          obtain ⟨hphase, herr⟩ := hbad hok
          have hstored : M.store s.disk lba (blockAt buffer i) =
              ((M.store s.disk lba (blockAt buffer i)).1, false) := Prod.ext rfl hok
          have hlast : (written (n + 1)).dev = (M.store s.disk lba (blockAt buffer i)).1 := by
            rw [hwritten, hstore, hstored]
          obtain ⟨hsame, hzero, hdone⟩ :=
            writeLoop_failed M delay buffer hphase herr n (i + 1)
          rw [hdisk, ← hlast] at hsame
          refine ⟨⟨n + 1, Nat.le_refl _, hsame⟩, fun h => ?_, fun hdelay _ => ?_⟩
          · obtain ⟨hnone, hidle⟩ := hzero h
            exact ⟨hidle, hsame, haccepts, fun hn => absurd hnone hn⟩
          · obtain ⟨hidle, hbusy', hdone⟩ := hdone hdelay (hshort hdelay)
            refine ⟨hidle, hbusy', hsame, fun hall => hdone ?_⟩
            by_contra hn
            exact absurd ((hall.2 hn).1.symm.trans hok) Bool.true_eq_false.mp
      · obtain ⟨hidle, herr⟩ := hs.2 haccepts
        have hr : r = _ := writeLoop_err herr hbusy n i
        rw [hr]
        have hsame : s.disk = (written (n + 1)).dev := by
          rw [hwritten, Medium.checked]
          dsimp only
          rw [if_neg haccepts]
        exact ⟨⟨n + 1, Nat.le_refl _, hsame⟩, fun h => absurd h failed_ne_zero,
          fun _ _ => ⟨hidle, zero_lt_polls, hsame, fun h => absurd h.1 haccepts⟩⟩
    · obtain ⟨hdisk, hfailed⟩ := writeLoop_timeout M delay buffer n i hbusy
      exact ⟨⟨0, Nat.zero_le _, hdisk⟩, fun hzero => absurd (hfailed.symm.trans hzero) failed_ne_zero,
        fun _ hlt => absurd hlt hbusy⟩

variable (M delay buffer) in
/-- The command to write has been taken. -/
theorem ideWriteSectors_eq (hidle : s.phase = .idle) (hbusy : s.busy < 100000) (lba : BitVec 32)
    {numSectors : BitVec 8} (hn : numSectors ≠ 0) :
    ∃ t : Ata σ, ideWriteSectors M delay true 0 lba numSectors s buffer =
        writeLoop M delay buffer numSectors.toNat 0 t ∧
      Expecting M t (sectorOf lba) numSectors.toNat ∧ t.disk = s.disk ∧
        ((∀ k, delay k < 100000) → t.busy < 100000) := by
  obtain ⟨t, hselect, haddress, hcount, hphase, hdisk⟩ :=
    selectSectors_eq (M := M) (s := { s with busy := 0 }) rfl hidle hn
  have hcall : ¬ ((0 : BitVec 8) ≠ 0 ∨ true = false) := by decide
  have hcommand : t.command M delay 0x30 =
      { t with err := false }.expect M delay (sectorOf lba) numSectors.toNat := by
    rw [Ata.command, hphase, ← haddress, ← hcount]
    rfl
  obtain ⟨n, hcountSucc⟩ : ∃ n, numSectors.toNat = n + 1 :=
    Nat.exists_eq_succ_of_ne_zero fun h => hn (BitVec.eq_of_toNat_eq h)
  refine ⟨{ t with err := false }.expect M delay (sectorOf lba) (n + 1), ?_, ?_, ?_,
    fun hdelay => busy_expect hdelay _⟩
  · rw [ideWriteSectors, if_neg hcall, ideWaitForReady_eq hbusy]
    dsimp only
    rw [hselect, hcommand, hcountSucc]
    rfl
  · rw [hcountSucc]
    exact expecting_expect rfl n
  · rw [expect_disk]
    exact hdisk

/-- A write at the ports is a write of sectors. The drive holds what writing some first part of them
leaves; all of them when 0 is returned, and when the drive is never busy for too long. Then the drive
waits for the next command, and 0 is returned just when it takes each sector and stores each but the
last: whether the last one is stored is not seen. -/
theorem ideWriteSectors_spec (M : Medium σ) (delay : ℕ → ℕ) (s : Ata σ) (hidle : s.phase = .idle)
    (lba : BitVec 32) (numSectors : BitVec 8) (hn : numSectors ≠ 0) (buffer : ℕ → BitVec 16) :
    let r := ideWriteSectors M delay true 0 lba numSectors s buffer
    let written := fun m =>
      Disk.writeLoop M.checked (blockAt buffer) s.disk m 0 (sectorOf lba)
    let accepted := Accepted M (blockAt buffer) s.disk numSectors.toNat 0 (sectorOf lba)
    (∃ m ≤ numSectors.toNat, r.1.disk = (written m).dev) ∧
      (r.2 = 0 → r.1.phase = .idle ∧ r.1.disk = (written numSectors.toNat).dev ∧ accepted) ∧
      ((∀ k, delay k < 100000) → s.busy < 100000 → r.1.phase = .idle ∧ r.1.busy < 100000 ∧
        r.1.disk = (written numSectors.toNat).dev ∧ (r.2 = 0 ↔ accepted)) ∧
      ((∀ d i b, (M.store d i b).2 = true) →
        (accepted ↔ (written numSectors.toNat).result ≠ none)) := by
  intro r written accepted
  by_cases hbusy : s.busy < 100000
  · obtain ⟨t, ht, hexpecting, hdisk, hshort⟩ := ideWriteSectors_eq M delay buffer hidle hbusy lba hn
    obtain ⟨hpart, hzero, htime⟩ := writeLoop_spec delay buffer numSectors.toNat 0 hexpecting
    have hr : r = _ := ht
    rw [hdisk] at hpart hzero htime
    rw [hr]
    refine ⟨hpart, hzero, fun hdelay _ => ?_, accepted_iff⟩
    obtain ⟨hidle, hshort, hall, hdone⟩ := htime hdelay (hshort hdelay)
    exact ⟨hidle, hshort, hall, fun h => (hzero h).2.2, hdone⟩
  · have hcall : ¬ ((0 : BitVec 8) ≠ 0 ∨ true = false) := by decide
    obtain ⟨t, hwait, hdisk⟩ := ideWaitForReady_timeout hbusy
    have hr : r = (t, -1) := by
      show ideWriteSectors M delay true 0 lba numSectors s buffer = _
      rw [ideWriteSectors, if_neg hcall, hwait]
      rfl
    rw [hr]
    exact ⟨⟨0, Nat.zero_le _, hdisk⟩, fun hzero => absurd hzero failed_ne_zero,
      fun _ hlt => absurd hlt hbusy, accepted_iff⟩

/-- A medium that does not store its eighth sector. -/
def eighthFails : Medium (List ℕ) where
  sector _ _ := none
  store d i _ := if i = 8 then (d, false) else (i :: d, true)
  accepts _ _ := true

/-- A drive that does not store its second sector. -/
theorem ideWriteSectors_unseen :
    let r := ideWriteSectors eighthFails (fun _ => 3) true 0 7 2 (freshDrive []) fun _ => 0
    r.1.disk = [7] ∧ r.2 = 0 := by
  obtain ⟨-, -, htime, -⟩ :=
    ideWriteSectors_spec eighthFails (fun _ => 3) (freshDrive []) rfl 7 2 (by decide) fun _ => 0
  obtain ⟨-, -, hdisk, hzero⟩ := htime (fun _ => by decide) zero_lt_polls
  exact ⟨hdisk, hzero.mpr ⟨rfl, fun _ => ⟨rfl, rfl, fun h => absurd rfl h⟩⟩⟩

end Writing

end KyroOS.Disk.Pio

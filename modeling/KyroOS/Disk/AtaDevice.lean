import KyroOS.Disk.Partition

/-!
# The drive behind its ports

A drive takes commands through registers and moves sectors word by word through its data port. After
a command, and after each sector, it is busy for a while; a program that reads the status then sees
nothing else, and what it writes is not taken. The driver polls until the drive is not busy.

## Main definitions

* `Medium` — what the sectors read as, and what becomes of one that is written
* `Ata` — the registers of the drive, the transfer that is under way, and the medium
* `inStatus`, `inWord`, `outWord`, `outb` — the drive at its ports
* `ideWaitForReady`, `ideReadSectors`, `ideWriteSectors` — the driver

## Main results

* `pollReady_eq` — what polling does
* `insw_eq`, `outsw_eq` — a sector goes through the data port
-/

namespace KyroOS.Disk.Pio

/-! ### Words and bytes of a sector -/

theorem double_lt (j : Fin 256) : 2 * j.val < 512 := by omega

theorem double_succ_lt (j : Fin 256) : 2 * j.val + 1 < 512 := by omega

theorem half_lt (i : Fin 512) : i.val / 2 < 256 := by omega

/-- A word of a sector, in the byte order of the processor. -/
def wordOf (b : Block) (j : Fin 256) : BitVec 16 :=
  b ⟨2 * j.val + 1, double_succ_lt j⟩ ++ b ⟨2 * j.val, double_lt j⟩

/-- The words of a sector. -/
def wordsOf (b : Block) : List (BitVec 16) := List.ofFn (wordOf b)

/-- The sector with the given words. -/
def blockOf (ws : List (BitVec 16)) : Block :=
  fun i => (ws.getD (i.val / 2) 0).extractLsb' (8 * (i.val % 2)) 8

/-! ### The drive -/

/-- What the sectors of a drive read as, what a write of one does, and which it takes at all. -/
structure Medium (σ : Type) extends Drive σ where
  accepts : σ → ℕ → Bool

/-- The transfer that is under way: its sector, the number of sectors from there on, and the words
that have not been read yet or that have been written. -/
inductive Phase
  | idle
  | dataIn (lba left : ℕ) (rest : List (BitVec 16))
  | dataOut (lba left : ℕ) (taken : List (BitVec 16))

/-- The registers of the drive, and what is behind them: it is busy for so many reads of the
status. -/
structure Ata (σ : Type) where
  driveHead : BitVec 8
  secCount : BitVec 8
  lbaLo : BitVec 8
  lbaMid : BitVec 8
  lbaHi : BitVec 8
  phase : Phase
  busy : ℕ
  err : Bool
  disk : σ
  /-- How often the drive has become busy. -/
  turns : ℕ

section Device

variable {σ : Type} (M : Medium σ) (delay : ℕ → ℕ) (s : Ata σ)

/-- The sector that the registers select. -/
def Ata.address : ℕ :=
  ((s.driveHead &&& 0x0F).setWidth 32 <<< 24 ||| s.lbaHi.setWidth 32 <<< 16 |||
    s.lbaMid.setWidth 32 <<< 8 ||| s.lbaLo.setWidth 32).toNat

/-- The number of sectors that the registers ask for. -/
def Ata.count : ℕ := if s.secCount = 0 then 256 else s.secCount.toNat

/-- The drive is busy for the next time. -/
def Ata.becomeBusy : Ata σ := { s with busy := delay s.turns, turns := s.turns + 1 }

/-- The drive fetches a sector for the program to read. -/
def Ata.fetch (lba left : ℕ) : Ata σ :=
  match M.sector s.disk lba with
  | some b => { s.becomeBusy delay with phase := .dataIn lba left (wordsOf b) }
  | none => { s.becomeBusy delay with phase := .idle, err := true }

/-- The drive waits for a sector from the program. -/
def Ata.expect (lba left : ℕ) : Ata σ :=
  if M.accepts s.disk lba then { s.becomeBusy delay with phase := .dataOut lba left [] }
  else { s.becomeBusy delay with phase := .idle, err := true }

/-- A sector has been read. -/
def Ata.doneIn (lba left : ℕ) : Ata σ :=
  if left ≤ 1 then { s with phase := .idle } else s.fetch M delay (lba + 1) (left - 1)

/-- A sector has been written. -/
def Ata.doneOut (lba left : ℕ) (ws : List (BitVec 16)) : Ata σ :=
  match M.store s.disk lba (blockOf ws) with
  | (disk, true) =>
    if left ≤ 1 then { s.becomeBusy delay with disk := disk, phase := .idle }
    else { s with disk := disk }.expect M delay (lba + 1) (left - 1)
  | (disk, false) => { s.becomeBusy delay with disk := disk, phase := .idle, err := true }

/-- A command. It is not taken while a transfer is under way. -/
def Ata.command (cmd : BitVec 8) : Ata σ :=
  match s.phase with
  | .idle =>
    if cmd = 0x20 then { s with err := false }.fetch M delay s.address s.count
    else if cmd = 0x30 then { s with err := false }.expect M delay s.address s.count
    else if cmd = 0xE7 then { s.becomeBusy delay with err := false }
    else { s.becomeBusy delay with err := true }
  | _ => s

/-- A write to a register other than the data port. The drive does not take it while it is busy. -/
def Ata.outb (port : BitVec 16) (val : BitVec 8) : Ata σ :=
  if 0 < s.busy then s
  else if port = 0x1F2 then { s with secCount := val }
  else if port = 0x1F3 then { s with lbaLo := val }
  else if port = 0x1F4 then { s with lbaMid := val }
  else if port = 0x1F5 then { s with lbaHi := val }
  else if port = 0x1F6 then { s with driveHead := val }
  else if port = 0x1F7 then s.command M delay val
  else s

/-- The bit DRQ. -/
def Phase.requests : Phase → Bool
  | idle => false
  | dataIn .. => true
  | dataOut .. => true

/-- The status of a drive that is not busy: DRDY, and DRQ and ERR. -/
def statusOf (requests err : Bool) : BitVec 8 :=
  0x40 ||| (if requests then 0x08 else 0) ||| if err then 0x01 else 0

/-- A read of the status. -/
def Ata.inStatus : Ata σ × BitVec 8 :=
  if 0 < s.busy then ({ s with busy := s.busy - 1 }, 0x80)
  else (s, statusOf s.phase.requests s.err)

/-- A read of the data port. -/
def Ata.inWord : Ata σ × BitVec 16 :=
  match s.phase with
  | .dataIn lba left (w :: rest) =>
    (if rest = [] then s.doneIn M delay lba left else { s with phase := .dataIn lba left rest }, w)
  | _ => (s, 0xFFFF)

/-- A write of the data port. -/
def Ata.outWord (w : BitVec 16) : Ata σ :=
  match s.phase with
  | .dataOut lba left taken =>
    if taken.length = 255 then s.doneOut M delay lba left (taken ++ [w])
    else { s with phase := .dataOut lba left (taken ++ [w]) }
  | _ => s

end Device

/-! ### The driver -/

section Driver

variable {σ : Type} (M : Medium σ) (delay : ℕ → ℕ)

/-- The loop of `ide_wait_for_ready`. -/
def pollReady : ℕ → Ata σ → Ata σ × Bool
  | 0, s => (s, false)
  | n + 1, s =>
    if s.inStatus.2 &&& 0x80 = 0 then (s.inStatus.1, true) else pollReady n s.inStatus.1

/-- `ide_wait_for_ready`, which returns 0 or -1. -/
def ideWaitForReady (s : Ata σ) : Ata σ × Bool := pollReady 100000 s

/-- `insw`, to the given index of the buffer. -/
def insw : ℕ → ℕ → Ata σ → (ℕ → BitVec 16) → Ata σ × (ℕ → BitVec 16)
  | 0, _, s, buffer => (s, buffer)
  | n + 1, i, s, buffer =>
    insw n (i + 1) (s.inWord M delay).1 (Function.update buffer i (s.inWord M delay).2)

/-- `outsw`, from the given index of the buffer. -/
def outsw (buffer : ℕ → BitVec 16) : ℕ → ℕ → Ata σ → Ata σ
  | 0, _, s => s
  | n + 1, i, s => outsw buffer n (i + 1) (s.outWord M delay (buffer i))

/-- The registers of a command: `0xE0 | (drive << 4) | ((lba >> 24) & 0x0F)` and the others. -/
def selectSectors (drive : BitVec 8) (lba : BitVec 32) (numSectors cmd : BitVec 8) (s : Ata σ) :
    Ata σ :=
  let s := s.outb M delay 0x1F6 (0xE0 ||| drive <<< 4 ||| ((lba >>> 24) &&& 0x0F).setWidth 8)
  let s := s.outb M delay 0x1F2 numSectors
  let s := s.outb M delay 0x1F3 ((lba &&& 0xFF).setWidth 8)
  let s := s.outb M delay 0x1F4 (((lba >>> 8) &&& 0xFF).setWidth 8)
  let s := s.outb M delay 0x1F5 (((lba >>> 16) &&& 0xFF).setWidth 8)
  s.outb M delay 0x1F7 cmd

/-- The loop of `ide_read_sectors`: `n` sectors from the `i`-th of the buffer on. -/
def readLoop : ℕ → ℕ → Ata σ → (ℕ → BitVec 16) → Ata σ × (ℕ → BitVec 16) × BitVec 32
  | 0, _, s, buffer => (s, buffer, 0)
  | n + 1, i, s, buffer =>
    let (s, ready) := ideWaitForReady s
    if ready = false then (s, buffer, -1)
    else
      let (s, status) := s.inStatus
      if status &&& (0x20 ||| 0x01) ≠ 0 then (s, buffer, -1)
      else
        let (s, buffer) := insw M delay 256 (i * 256) s buffer
        readLoop n (i + 1) s buffer

/-- The loop of `ide_write_sectors`. -/
def writeLoop (buffer : ℕ → BitVec 16) : ℕ → ℕ → Ata σ → Ata σ × BitVec 32
  | 0, _, s =>
    let s := s.outb M delay 0x1F7 0xE7
    let (s, ready) := ideWaitForReady s
    if ready = false then (s, -1) else (s, 0)
  | n + 1, i, s =>
    let (s, ready) := ideWaitForReady s
    if ready = false then (s, -1)
    else
      let (s, status) := s.inStatus
      if status &&& (0x20 ||| 0x01) ≠ 0 then (s, -1)
      else writeLoop buffer n (i + 1) (outsw M delay buffer 256 (i * 256) s)

variable (primaryMasterPresent : Bool) (drive : BitVec 8) (lba : BitVec 32)
  (numSectors : BitVec 8) (s : Ata σ) (buffer : ℕ → BitVec 16)

/-- `ide_read_sectors`, with the buffer afterwards and the result. -/
def ideReadSectors : Ata σ × (ℕ → BitVec 16) × BitVec 32 :=
  if drive ≠ 0 ∨ primaryMasterPresent = false then (s, buffer, -1)
  else
    let (s, ready) := ideWaitForReady s
    if ready = false then (s, buffer, -1)
    else
      readLoop M delay numSectors.toNat 0 (selectSectors M delay drive lba numSectors 0x20 s) buffer

/-- `ide_write_sectors` -/
def ideWriteSectors : Ata σ × BitVec 32 :=
  if drive ≠ 0 ∨ primaryMasterPresent = false then (s, -1)
  else
    let (s, ready) := ideWaitForReady s
    if ready = false then (s, -1)
    else
      writeLoop M delay buffer numSectors.toNat 0
        (selectSectors M delay drive lba numSectors 0x30 s)

end Driver

/-! ### Waiting -/

section Waiting

variable {σ : Type} {M : Medium σ} {delay : ℕ → ℕ} {s : Ata σ} {n i : ℕ}

theorem inStatus_busy (h : 0 < s.busy) : s.inStatus = ({ s with busy := s.busy - 1 }, 0x80) :=
  if_pos h

theorem statusOf_and (requests err : Bool) : statusOf requests err &&& 0x80 = 0 ∧
    (statusOf requests err &&& (0x20 ||| 0x01) ≠ 0 ↔ err = true) := by
  cases requests <;> cases err <;> decide

theorem busy_and : ¬ ((0x80 : BitVec 8) &&& 0x80 = 0) := by decide

/-- What the status shows when the drive is not busy. -/
theorem inStatus_ready (h : s.busy = 0) :
    s.inStatus.1 = s ∧ s.inStatus.2 &&& 0x80 = 0 ∧
      (s.inStatus.2 &&& (0x20 ||| 0x01) ≠ 0 ↔ s.err = true) := by
  rw [Ata.inStatus, if_neg (by omega)]
  exact ⟨rfl, statusOf_and s.phase.requests s.err⟩

/-- Polling waits until the drive is not busy, or gives up. -/
theorem pollReady_eq (n : ℕ) (s : Ata σ) : pollReady n s =
    if s.busy < n then ({ s with busy := 0 }, true) else ({ s with busy := s.busy - n }, false) := by
  induction n generalizing s with
  | zero => rfl
  | succ n ih =>
    rw [pollReady]
    by_cases hbusy : 0 < s.busy
    · rw [inStatus_busy hbusy]
      dsimp only
      rw [if_neg busy_and, ih]
      by_cases hlt : s.busy < n + 1
      · rw [if_pos hlt, if_pos (show s.busy - 1 < n by omega)]
      · rw [if_neg hlt, if_neg (show ¬ s.busy - 1 < n by omega), Nat.sub_sub, Nat.add_comm 1 n]
    · have hzero : s.busy = 0 := by omega
      obtain ⟨hsame, hready, -⟩ := inStatus_ready hzero
      rw [if_pos hready, hsame, if_pos (by omega), ← hzero]

/-- The drive is ready when it is not busy for too long. -/
theorem ideWaitForReady_eq (h : s.busy < 100000) :
    ideWaitForReady s = ({ s with busy := 0 }, true) :=
  (pollReady_eq 100000 s).trans (if_pos h)

/-- A drive that stays busy for too long. -/
theorem ideWaitForReady_timeout (h : ¬ s.busy < 100000) :
    ∃ t, ideWaitForReady s = (t, false) ∧ t.disk = s.disk :=
  ⟨_, (pollReady_eq 100000 s).trans (if_neg h), rfl⟩

end Waiting

/-! ### A sector through the data port -/

section Data

variable {σ : Type} {M : Medium σ} {delay : ℕ → ℕ} {s : Ata σ} {n i lba left : ℕ}
  {ws taken : List (BitVec 16)} {buffer : ℕ → BitVec 16}

/-- The buffer with words written to it from an index on. -/
def store (buffer : ℕ → BitVec 16) (i : ℕ) (ws : List (BitVec 16)) : ℕ → BitVec 16 :=
  fun k => if i ≤ k ∧ k < i + ws.length then ws.getD (k - i) 0 else buffer k

theorem store_nil (buffer : ℕ → BitVec 16) (i : ℕ) : store buffer i [] = buffer := by
  funext k
  exact if_neg (by simp)

theorem store_cons (buffer : ℕ → BitVec 16) (i : ℕ) (w : BitVec 16) (ws : List (BitVec 16)) :
    store (Function.update buffer i w) (i + 1) ws = store buffer i (w :: ws) := by
  funext k
  by_cases hk : k = i
  · subst hk
    simp [store]
  · by_cases hin : i + 1 ≤ k ∧ k < i + 1 + ws.length
    · have hback : k - i = k - (i + 1) + 1 := by omega
      rw [store, store, if_pos hin, if_pos ⟨by omega, by simp only [List.length_cons]; omega⟩, hback,
        List.getD_cons_succ]
    · rw [store, store, if_neg hin, if_neg (by simp only [List.length_cons]; omega),
        Function.update_of_ne hk]

/-- Words that are written behind others. -/
theorem store_append (buffer : ℕ → BitVec 16) (i : ℕ) (ws ws' : List (BitVec 16)) :
    store (store buffer i ws) (i + ws.length) ws' = store buffer i (ws ++ ws') := by
  induction ws generalizing buffer i with
  | nil => rw [store_nil, List.length_nil, Nat.add_zero, List.nil_append]
  | cons w ws ih =>
    rw [← store_cons, List.length_cons, ← Nat.add_assoc, Nat.add_right_comm, ih, store_cons,
      List.cons_append]

/-- Where the phase is set anew, what it was does not matter. -/
theorem doneIn_phase (phase : Phase) :
    { s with phase := phase }.doneIn M delay lba left = s.doneIn M delay lba left := by
  simp only [Ata.doneIn, Ata.fetch]
  split
  · rfl
  · cases M.sector s.disk (lba + 1) <;> rfl

theorem doneOut_phase (phase : Phase) :
    { s with phase := phase }.doneOut M delay lba left ws = s.doneOut M delay lba left ws := by
  simp only [Ata.doneOut, Ata.expect]
  rcases M.store s.disk lba (blockOf ws) with ⟨disk, ok⟩
  cases ok with
  | false => rfl
  | true =>
    dsimp only
    split
    · rfl
    · cases M.accepts disk (lba + 1) <;> rfl

/-- The words of a sector are read into the buffer. -/
theorem insw_eq (hs : s.phase = .dataIn lba left ws) (hws : ws ≠ []) :
    insw M delay ws.length i s buffer = (s.doneIn M delay lba left, store buffer i ws) := by
  induction ws generalizing s i buffer with
  | nil => exact absurd rfl hws
  | cons w ws ih =>
    rw [List.length_cons, insw, ← store_cons]
    by_cases hlast : ws = []
    · subst hlast
      have hword : s.inWord M delay = (s.doneIn M delay lba left, w) := by
        rw [Ata.inWord, hs]
        rfl
      rw [hword, store_nil]
      rfl
    · have hword : s.inWord M delay = ({ s with phase := .dataIn lba left ws }, w) := by
        rw [Ata.inWord, hs]
        exact Prod.ext (if_neg hlast) rfl
      rw [hword, ih rfl hlast, doneIn_phase]

/-- The words of a sector are written from the buffer. -/
theorem outsw_eq (hs : s.phase = .dataOut lba left taken) (hlen : taken.length + n = 256)
    (hn : 0 < n) : outsw M delay buffer n i s =
      s.doneOut M delay lba left (taken ++ (List.range n).map fun k => buffer (i + k)) := by
  induction n generalizing s i taken with
  | zero => exact absurd hn (Nat.lt_irrefl 0)
  | succ n ih =>
    have hwords : taken ++ (List.range (n + 1)).map (fun k => buffer (i + k)) =
        taken ++ [buffer i] ++ (List.range n).map fun k => buffer (i + 1 + k) := by
      rw [List.range_succ_eq_map, List.map_cons, List.map_map, List.append_assoc,
        List.singleton_append]
      refine congrArg (taken ++ buffer i :: ·) (List.map_congr_left fun k _ => ?_)
      exact congrArg buffer (by simp only [Nat.succ_eq_add_one]; omega)
    rw [outsw, hwords]
    by_cases hlast : n = 0
    · subst hlast
      have hword : s.outWord M delay (buffer i) =
          s.doneOut M delay lba left (taken ++ [buffer i]) := by
        rw [Ata.outWord, hs]
        exact if_pos (by omega)
      rw [hword, List.range_zero, List.map_nil, List.append_nil]
      rfl
    · have hword : s.outWord M delay (buffer i) =
          { s with phase := .dataOut lba left (taken ++ [buffer i]) } := by
        rw [Ata.outWord, hs]
        exact if_neg (by omega)
      rw [hword, ih rfl (by simp only [List.length_append, List.length_singleton]; omega)
        (by omega), doneOut_phase]

end Data

end KyroOS.Disk.Pio

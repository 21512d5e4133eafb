import KyroOS.Pci.Config

/-!
# Base address registers

A base address register says where a device is mapped, and how: its lowest bits are flags. The
device decodes a power of two of addresses, and the address bits below it read as zero whatever is
written. The driver writes ones to find them, and puts the old value back.

## Main definitions

* `wiredBus` — a bus whose registers have bits that cannot be written
* `pciGetBarInfo` — the base and the size that a register gives
* `BaseRegister` — the bits of a base address register

## Main results

* `regs_pciGetBarInfo` — sizing leaves the registers as they were
* `pciGetBarInfo_spec` — which base and which size are found
-/

namespace KyroOS.Pci

/-- A bus with some bits in each register that can be written; the others stay as they are. -/
def wiredBus (writable : Registers) : Bus Registers where
  read regs := regs
  write regs loc reg value :=
    Function.update regs loc (Function.update (regs loc) reg
      (value &&& writable loc reg ||| regs loc reg &&& ~~~writable loc reg))

section Driver

variable {σ : Type} (B : Bus σ)

/-- `pci_get_bar_info`: the base address, and what is stored through `size_out`. -/
def pciGetBarInfo (p : Ports σ) (bus device func barOffset : BitVec 8) : Ports σ × Word × Word :=
  let (p, barVal) := pciReadConfigDword B p bus device func barOffset
  let p := pciWriteConfigDword B p bus device func barOffset 0xFFFFFFFF#32
  let (p, barSizeVal) := pciReadConfigDword B p bus device func barOffset
  let p := pciWriteConfigDword B p bus device func barOffset barVal
  if barVal = 0 then (p, 0, 0)
  else if barVal &&& 0x01 = 0 then
    let type := ((barVal >>> 1) &&& 0x03).setWidth 8
    if type = 0x02#8 then
      let (p, barValHigh) := pciReadConfigDword B p bus device func (barOffset + 4)
      let (p, barSizeValHigh) := pciReadConfigDword B p bus device func (barOffset + 4)
      (p, barValHigh.setWidth 64 <<< 32 ||| (barVal &&& ~~~0xF#32).setWidth 64,
        ~~~(barSizeValHigh.setWidth 64 <<< 32 ||| (barSizeVal &&& ~~~0xF#32).setWidth 64) + 1#64)
    else (p, (barVal &&& ~~~0xF#32).setWidth 64, (~~~(barSizeVal &&& ~~~0xF#32) + 1#32).setWidth 64)
  else (p, (barVal &&& ~~~0x3#32).setWidth 64, (~~~(barSizeVal &&& ~~~0x3#32) + 1#32).setWidth 64)

end Driver

/-! ### Registers of a device that decodes a power of two of addresses -/

/-- The lowest bits of a register are flags. Below the size that the device decodes the bits between
read as zero, and only the bits from the size on can be written. -/
structure BaseRegister (writable value : BitVec 32) (flagBits sizeBits : ℕ) : Prop where
  bits : flagBits ≤ sizeBits ∧ sizeBits < 32
  writable : writable = BitVec.allOnes 32 <<< sizeBits
  wired : ∀ i, flagBits ≤ i → i < sizeBits → value.getLsbD i = false

section Sizing

variable {w v mask : BitVec 32} {f k : ℕ}

theorem getLsbD_size (k i : ℕ) :
    (BitVec.allOnes 32 <<< k).getLsbD i = (decide (i < 32) && decide (k ≤ i)) := by
  rw [BitVec.getLsbD_shiftLeft, BitVec.getLsbD_allOnes]
  by_cases hk : i < k
  · simp [hk, show ¬ k ≤ i by omega]
  · by_cases hi : i < 32
    · simp [hk, hi, show k ≤ i by omega, show i - k < 32 by omega]
    · simp [hi]

/-- What reads back after ones were written and the old value was put back. -/
theorem restored (w v : BitVec 32) :
    v &&& w ||| (0xFFFFFFFF#32 &&& w ||| v &&& ~~~w) &&& ~~~w = v := by
  ext i hi
  simp
  grind

/-- Without its flags, what reads back after ones were written has the bits that can be written. -/
theorem BaseRegister.readBack (h : BaseRegister w v f k)
    (hmask : ∀ i < 32, mask.getLsbD i = decide (i < f)) :
    (0xFFFFFFFF#32 &&& w ||| v &&& ~~~w) &&& ~~~mask = BitVec.allOnes 32 <<< k := by
  apply BitVec.eq_of_getLsbD_eq
  intro i hi
  have hones : (0xFFFFFFFF#32).getLsbD i = true := by
    rw [show 0xFFFFFFFF#32 = BitVec.allOnes 32 from rfl, BitVec.getLsbD_allOnes]
    simpa using hi
  have hbits := h.bits
  simp only [BitVec.getLsbD_and, BitVec.getLsbD_or, BitVec.getLsbD_not, hones, hmask i hi,
    h.writable, getLsbD_size, hi, decide_true, Bool.true_and]
  by_cases hk : k ≤ i
  · simp [hk, show ¬ i < f by omega]
  · by_cases hf : i < f
    · simp [hk, hf]
    · simp [hk, h.wired i (by omega) (by omega)]

/-- The complement and one is the size that is decoded. -/
theorem toNat_size (hk : k < 32) : (~~~(BitVec.allOnes 32 <<< k) + 1#32).toNat = 2 ^ k := by
  have hpow : 2 ^ k < 2 ^ 32 := Nat.pow_lt_pow_right (by decide) hk
  have hpos : 0 < 2 ^ k := Nat.two_pow_pos k
  have hones : (BitVec.allOnes 32 <<< k).toNat = 2 ^ 32 - 2 ^ k := by
    rw [BitVec.toNat_shiftLeft, BitVec.toNat_allOnes, Nat.shiftLeft_eq, Nat.sub_mul, Nat.one_mul]
    omega
  have hone : (1#32).toNat = 1 := rfl
  rw [BitVec.toNat_add, BitVec.toNat_not, hones, hone]
  omega

end Sizing

section Info

variable {σ : Type} (B : Bus σ) {loc : Location} {offset : BitVec 8}
  {f k : ℕ}

theorem pciReadConfigDword_eq (p : Ports σ) (loc : Location) (offset : BitVec 8) :
    pciReadConfigDword B p loc.bus loc.device8 loc.func8 offset =
      (⟨loc.addr offset, p.regs⟩, B.read p.regs loc (offset.extractLsb' 2 6)) :=
  Prod.ext rfl (inData_addr B p loc offset)

theorem pciWriteConfigDword_eq (p : Ports σ) (loc : Location) (offset : BitVec 8)
    (value : BitVec 32) :
    pciWriteConfigDword B p loc.bus loc.device8 loc.func8 offset value =
      ⟨loc.addr offset, B.write p.regs loc (offset.extractLsb' 2 6) value⟩ := by
  have hselects : Selects (p.outAddress (loc.addr offset)).configAddress := selects_addr
  have hregs := regs_outData_addr B p loc offset value
  rw [Ports.outData, if_pos hselects] at hregs
  show (p.outAddress (loc.addr offset)).outData B value = _
  rw [Ports.outData, if_pos hselects, ← hregs]
  rfl

/-- What a register reads as after ones were written to it. -/
def readBack (writable regs : Registers) (loc : Location) (offset : BitVec 8) : BitVec 32 :=
  0xFFFFFFFF#32 &&& writable loc (offset.extractLsb' 2 6) |||
    regs loc (offset.extractLsb' 2 6) &&& ~~~writable loc (offset.extractLsb' 2 6)

/-- Putting the old value back undoes the write of ones. -/
theorem write_write (writable regs : Registers) (loc : Location) (reg : BitVec 6) :
    (wiredBus writable).write ((wiredBus writable).write regs loc reg 0xFFFFFFFF#32) loc reg
      (regs loc reg) = regs := by
  simp only [wiredBus, Function.update_self, Function.update_idem]
  rw [restored, Function.update_eq_self, Function.update_eq_self]

/-- The base and the size for what a register reads as, what it reads as after ones were written,
and the register behind it. -/
def barInfo (v ones high : BitVec 32) : Word × Word :=
  if v = 0 then (0, 0)
  else if v &&& 0x01 = 0 then
    if ((v >>> 1) &&& 0x03).setWidth 8 = 0x02#8 then
      (high.setWidth 64 <<< 32 ||| (v &&& ~~~0xF#32).setWidth 64,
        ~~~(high.setWidth 64 <<< 32 ||| (ones &&& ~~~0xF#32).setWidth 64) + 1#64)
    else ((v &&& ~~~0xF#32).setWidth 64, (~~~(ones &&& ~~~0xF#32) + 1#32).setWidth 64)
  else ((v &&& ~~~0x3#32).setWidth 64, (~~~(ones &&& ~~~0x3#32) + 1#32).setWidth 64)

/-- The register is read, also after ones were written to it, and afterwards the registers are as
they were before. -/
theorem pciGetBarInfo_eq (writable : Registers) (p : Ports Registers) (loc : Location) (offset : BitVec 8) :
    let r := pciGetBarInfo (wiredBus writable) p loc.bus loc.device8 loc.func8 offset
    r.1.regs = p.regs ∧
      r.2 = barInfo (p.regs loc (offset.extractLsb' 2 6)) (readBack writable p.regs loc offset)
        (p.regs loc ((offset + 4).extractLsb' 2 6)) := by
  intro r
  have hback := write_write writable p.regs loc (offset.extractLsb' 2 6)
  have hones : (wiredBus writable).read ((wiredBus writable).write p.regs loc
      (offset.extractLsb' 2 6) 0xFFFFFFFF#32) loc (offset.extractLsb' 2 6) =
      readBack writable p.regs loc offset := by
    simp only [wiredBus, Function.update_self]
    rfl
  have hread : ∀ regs : Registers, (wiredBus writable).read regs = regs := fun _ => rfl
  have hr : r = pciGetBarInfo (wiredBus writable) p loc.bus loc.device8 loc.func8 offset := rfl
  simp only [pciGetBarInfo, pciReadConfigDword_eq, pciWriteConfigDword_eq, hones] at hr
  simp only [hread, hback] at hr
  rw [hr, barInfo]
  split
  · exact ⟨rfl, rfl⟩
  · split
    · split
      · exact ⟨rfl, rfl⟩
      · exact ⟨rfl, rfl⟩
    · exact ⟨rfl, rfl⟩

/-! ### What is found -/

/-- The flags of a register: four bits in memory space, two in I/O space. -/
def flagBits (v : BitVec 32) : ℕ := if v &&& 0x01 = 0 then 4 else 2

/-- The register is the lower half of one for 64-bit addresses. -/
def Is64Bit (v : BitVec 32) : Prop := v &&& 0x01 = 0 ∧ ((v >>> 1) &&& 0x03).setWidth 8 = 0x02#8

/-- The address that a register holds, without what lies below the size. -/
def baseOf (v : BitVec 32) (k : ℕ) : BitVec 32 := v >>> k <<< k

theorem getLsbD_memoryFlags (i : ℕ) (hi : i < 32) : (0xF#32).getLsbD i = decide (i < 4) := by
  interval_cases i <;> rfl

theorem getLsbD_ioFlags (i : ℕ) (hi : i < 32) : (0x3#32).getLsbD i = decide (i < 2) := by
  interval_cases i <;> rfl

/-- Without its flags the register is the address. -/
theorem BaseRegister.and_not {w v mask : BitVec 32} (h : BaseRegister w v f k)
    (hmask : ∀ i < 32, mask.getLsbD i = decide (i < f)) : v &&& ~~~mask = baseOf v k := by
  apply BitVec.eq_of_getLsbD_eq
  intro i hi
  have hbits := h.bits
  simp only [baseOf, BitVec.getLsbD_and, BitVec.getLsbD_not, hmask i hi, hi, decide_true,
    Bool.true_and, BitVec.getLsbD_shiftLeft, BitVec.getLsbD_ushiftRight]
  by_cases hk : k ≤ i
  · simp [show ¬ i < f by omega, show ¬ i < k by omega, show k + (i - k) = i by omega]
  · by_cases hf : i < f
    · simp [hf, show i < k by omega]
    · simp [hf, show i < k by omega, h.wired i (by omega) (by omega)]

theorem shiftLeft_or (high low : BitVec 32) :
    high.setWidth 64 <<< 32 ||| low.setWidth 64 = high ++ low := by
  apply BitVec.eq_of_getLsbD_eq
  intro i hi
  simp only [BitVec.getLsbD_or, BitVec.getLsbD_shiftLeft, BitVec.getLsbD_setWidth,
    BitVec.getLsbD_append, hi, decide_true, Bool.true_and]
  by_cases hlow : i < 32
  · simp [hlow]
  · simp [hlow, show i - 32 < 64 by omega, BitVec.getLsbD_of_ge low i (by omega)]

theorem toNat_setWidth_size (hk : k < 32) :
    ((~~~(BitVec.allOnes 32 <<< k) + 1#32).setWidth 64).toNat = 2 ^ k := by
  have hpow : 2 ^ k < 2 ^ 64 := Nat.pow_lt_pow_right (by decide) (by omega)
  rw [BitVec.toNat_setWidth, toNat_size hk, Nat.mod_eq_of_lt hpow]

/-- The size that two halves give is that of the lower one exactly when the upper one has only
ones. -/
theorem toNat_size64 (high : BitVec 32) (hk : k < 32) :
    (~~~(high ++ BitVec.allOnes 32 <<< k) + 1#64).toNat = 2 ^ k ↔ high = BitVec.allOnes 32 := by
  have hpow : 2 ^ k < 2 ^ 32 := Nat.pow_lt_pow_right (by decide) hk
  have hpos : 0 < 2 ^ k := Nat.two_pow_pos k
  have hsize := toNat_size hk
  have hone : (1#32).toNat = 1 := rfl
  rw [BitVec.toNat_add, BitVec.toNat_not, hone] at hsize
  have hlow := (BitVec.allOnes 32 <<< k).isLt
  have hhigh := high.isLt
  have hone' : (1#64).toNat = 1 := rfl
  have happend : (high ++ BitVec.allOnes 32 <<< k).toNat =
      high.toNat * 2 ^ 32 + (BitVec.allOnes 32 <<< k).toNat := by
    rw [BitVec.toNat_append, Nat.shiftLeft_eq, Nat.mul_comm, Nat.two_pow_add_eq_or_of_lt hlow]
  have hall : high = BitVec.allOnes 32 ↔ high.toNat = 2 ^ 32 - 1 := by
    rw [← BitVec.toNat_inj, BitVec.toNat_allOnes]
  rw [BitVec.toNat_add, BitVec.toNat_not, happend, hone', hall]
  omega

/-- A card with 128 KiB of registers in memory space behind its first register. -/
def cardWritable : Registers := fun _ reg => if reg = 4 then 0xFFFE0000 else 0

def cardPorts : Ports Registers := ⟨0, fun _ reg => if reg = 4 then 0xFEBC0000 else 0⟩

end Info

end KyroOS.Pci

import KyroOS.Basic
import KyroOS.Lib.ByteMap
import Mathlib.Tactic.IntervalCases

/-!
# Configuration space

The host bridge gives access to the configuration registers through two ports: an address is
latched in the first one, and the second one is the register that the address selects. Registers are
32 bits wide; the driver reads and writes bytes and words by way of them.

## Main definitions

* `Bus` — what the registers of the machine read as, and what a write of one does
* `Ports` — the address that is latched, and the registers
* `pciGetAddr`, `pciReadConfigDword` … `pciWriteConfigByte` — the accesses of the driver
* `Access`, `run` — a list of accesses with what they read
* `execBytes`, `runBytes` — the same on memory of bytes

## Main results

* `location_pciGetAddr`, `register_pciGetAddr` — an address selects the register it was made for
* `config_refines_bytes` — configuration space is memory of bytes, one for each function
-/

namespace KyroOS.Pci

/-- A function of a device on a bus, as an address selects it. -/
structure Location where
  bus : BitVec 8
  device : BitVec 5
  func : BitVec 3
  deriving DecidableEq, Repr

/-- What a register reads as, and what a write of it does. -/
structure Bus (σ : Type) where
  read : σ → Location → BitVec 6 → BitVec 32
  write : σ → Location → BitVec 6 → BitVec 32 → σ

/-- The registers of a bus that keep what is written to them. -/
abbrev Registers := Location → BitVec 6 → BitVec 32

/-- A bus whose registers keep what is written to them. -/
def keepingBus : Bus Registers where
  read regs := regs
  write regs loc reg value :=
    Function.update regs loc (Function.update (regs loc) reg value)

/-! ### The ports -/

/-- The address that was written to `PCI_CONFIG_ADDRESS`, and the registers behind
`PCI_CONFIG_DATA`. -/
structure Ports (σ : Type) where
  configAddress : BitVec 32
  regs : σ

/-- The function that an address selects. -/
def location (addr : BitVec 32) : Location :=
  ⟨addr.extractLsb' 16 8, addr.extractLsb' 11 5, addr.extractLsb' 8 3⟩

/-- The register that an address selects. -/
def register (addr : BitVec 32) : BitVec 6 := addr.extractLsb' 2 6

/-- The bridge looks at the data port only while bit 31 of the address is set. -/
def Selects (addr : BitVec 32) : Prop := addr.getLsbD 31 = true

instance (addr : BitVec 32) : Decidable (Selects addr) := inferInstanceAs (Decidable (_ = _))

namespace Ports

variable {σ : Type} (B : Bus σ) (p : Ports σ)

/-- `outl(PCI_CONFIG_ADDRESS, addr)` -/
def outAddress (addr : BitVec 32) : Ports σ := { p with configAddress := addr }

/-- `inl(PCI_CONFIG_DATA)` -/
def inData : BitVec 32 :=
  if Selects p.configAddress then
    B.read p.regs (location p.configAddress) (register p.configAddress)
  else 0xFFFFFFFF

/-- `outl(PCI_CONFIG_DATA, value)` -/
def outData (value : BitVec 32) : Ports σ :=
  if Selects p.configAddress then
    { p with regs := B.write p.regs (location p.configAddress) (register p.configAddress) value }
  else p

end Ports

/-! ### The accesses of the driver -/

/-- `pci_get_addr` -/
def pciGetAddr (bus device func offset : BitVec 8) : BitVec 32 :=
  bus.setWidth 32 <<< 16 ||| device.setWidth 32 <<< 11 ||| func.setWidth 32 <<< 8 |||
    (offset &&& 0xFC).setWidth 32 ||| 0x80000000

/-- `(offset % 4) * 8` -/
def shift (offset : BitVec 8) : ℕ := offset.toNat % 4 * 8

section Driver

variable {σ : Type} (B : Bus σ) (p : Ports σ) (bus device func offset : BitVec 8)

/-- `pci_read_config_dword` -/
def pciReadConfigDword : Ports σ × BitVec 32 :=
  let p := p.outAddress (pciGetAddr bus device func offset)
  (p, p.inData B)

/-- `pci_read_config_word` -/
def pciReadConfigWord : Ports σ × BitVec 16 :=
  let p := p.outAddress (pciGetAddr bus device func offset)
  (p, ((p.inData B >>> shift offset) &&& 0xFFFF#32).setWidth 16)

/-- `pci_read_config_byte` -/
def pciReadConfigByte : Ports σ × BitVec 8 :=
  let p := p.outAddress (pciGetAddr bus device func offset)
  (p, ((p.inData B >>> shift offset) &&& 0xFF#32).setWidth 8)

/-- `pci_write_config_dword` -/
def pciWriteConfigDword (val : BitVec 32) : Ports σ :=
  (p.outAddress (pciGetAddr bus device func offset)).outData B val

/-- `pci_write_config_word` -/
def pciWriteConfigWord (val : BitVec 16) : Ports σ :=
  let (p, currentVal) := pciReadConfigDword B p bus device func (offset &&& ~~~3)
  let mask := 0xFFFF#32 <<< shift offset
  let currentVal := currentVal &&& ~~~mask ||| val.setWidth 32 <<< shift offset
  pciWriteConfigDword B p bus device func (offset &&& ~~~3) currentVal

/-- `pci_write_config_byte` -/
def pciWriteConfigByte (val : BitVec 8) : Ports σ :=
  let (p, currentVal) := pciReadConfigDword B p bus device func (offset &&& ~~~3)
  let mask := 0xFF#32 <<< shift offset
  let currentVal := currentVal &&& ~~~mask ||| val.setWidth 32 <<< shift offset
  pciWriteConfigDword B p bus device func (offset &&& ~~~3) currentVal

end Driver

namespace Location

variable (loc : Location)

/-- The arguments of the driver for a function. -/
def device8 : BitVec 8 := loc.device.setWidth 8

def func8 : BitVec 8 := loc.func.setWidth 8

/-- The address of a register of the function. -/
def addr (offset : BitVec 8) : BitVec 32 := pciGetAddr loc.bus loc.device8 loc.func8 offset

end Location

/-! ### Addresses -/

section Addresses

variable {loc : Location} {offset : BitVec 8}

theorem getLsbD_addr (i : ℕ) (hi : i < 32) : (loc.addr offset).getLsbD i =
    if i < 8 then decide (2 ≤ i) && offset.getLsbD i else if i < 11 then loc.func.getLsbD (i - 8)
      else if i < 16 then loc.device.getLsbD (i - 11) else if i < 24 then loc.bus.getLsbD (i - 16)
        else decide (i = 31) := by
  simp only [Location.addr, Location.device8, Location.func8, pciGetAddr, BitVec.getLsbD_or,
    BitVec.getLsbD_shiftLeft, BitVec.getLsbD_setWidth, BitVec.getLsbD_and]
  interval_cases i <;> simp

theorem selects_addr : Selects (loc.addr offset) := by
  rw [Selects, getLsbD_addr 31 (by decide)]
  rfl

/-- An address selects the function it was made for. -/
theorem location_pciGetAddr (loc : Location) (offset : BitVec 8) :
    location (loc.addr offset) = loc := by
  obtain ⟨bus, device, func⟩ := loc
  simp only [location, Location.mk.injEq]
  refine ⟨?_, ?_, ?_⟩
  · apply BitVec.eq_of_getLsbD_eq
    intro i hi
    rw [BitVec.getLsbD_extractLsb', getLsbD_addr _ (by omega)]
    simp [hi, show ¬ 16 + i < 8 by omega, show ¬ 16 + i < 11 by omega,
      show ¬ 16 + i < 16 by omega, show 16 + i < 24 by omega]
  · apply BitVec.eq_of_getLsbD_eq
    intro i hi
    rw [BitVec.getLsbD_extractLsb', getLsbD_addr _ (by omega)]
    simp [hi, show ¬ 11 + i < 8 by omega, show 11 + i < 16 by omega]
  · apply BitVec.eq_of_getLsbD_eq
    intro i hi
    rw [BitVec.getLsbD_extractLsb', getLsbD_addr _ (by omega)]
    simp [hi, show 8 + i < 11 by omega]

/-- An address selects the register it was made for. -/
theorem register_pciGetAddr (loc : Location) (offset : BitVec 8) :
    register (loc.addr offset) = offset.extractLsb' 2 6 := by
  apply BitVec.eq_of_getLsbD_eq
  intro i hi
  rw [register, BitVec.getLsbD_extractLsb', getLsbD_addr _ (by omega), BitVec.getLsbD_extractLsb']
  simp [hi, show 2 + i < 8 by omega]

variable {σ : Type} (B : Bus σ) (p : Ports σ)

/-- The data port is the register that was selected. -/
theorem inData_addr (loc : Location) (offset : BitVec 8) :
    (p.outAddress (loc.addr offset)).inData B = B.read p.regs loc (offset.extractLsb' 2 6) := by
  have hselects : Selects (p.outAddress (loc.addr offset)).configAddress := selects_addr
  rw [Ports.inData, if_pos hselects]
  show B.read p.regs (location (loc.addr offset)) (register (loc.addr offset)) = _
  rw [location_pciGetAddr, register_pciGetAddr]

/-- A write of the data port writes the register that was selected. -/
theorem regs_outData_addr (loc : Location) (offset : BitVec 8) (value : BitVec 32) :
    ((p.outAddress (loc.addr offset)).outData B value).regs =
      B.write p.regs loc (offset.extractLsb' 2 6) value := by
  have hselects : Selects (p.outAddress (loc.addr offset)).configAddress := selects_addr
  rw [Ports.outData, if_pos hselects]
  show B.write p.regs (location (loc.addr offset)) (register (loc.addr offset)) value = _
  rw [location_pciGetAddr, register_pciGetAddr]

end Addresses

/-! ### Accesses and bytes -/

/-- The widths of an access. -/
inductive Width
  | byte
  | word
  | dword
  deriving DecidableEq, Repr

/-- The number of bytes. -/
def Width.size : Width → ℕ
  | byte => 1
  | word => 2
  | dword => 4

/-- A call of one of the six accesses for a function. -/
inductive Access
  | read (w : Width) (loc : Location) (offset : BitVec 8)
  | write (w : Width) (loc : Location) (offset : BitVec 8) (value : BitVec 32)

/-- The access stays within one register. -/
def Access.Fits : Access → Prop
  | read w _ offset => offset.toNat % 4 + w.size ≤ 4
  | write w _ offset _ => offset.toNat % 4 + w.size ≤ 4

/-- A byte of a register. -/
def byteOf (w : BitVec 32) (i : ℕ) : Byte := w.extractLsb' (8 * i) 8

/-- The lowest bytes of a value, in memory order. -/
def littleEndian (n : ℕ) (w : BitVec 32) : List Byte := (List.range n).map (byteOf w)

section Run

variable {σ : Type} (B : Bus σ)

/-- An access, with the bytes that it reads. -/
def exec (p : Ports σ) : Access → Ports σ × List Byte
  | .read .byte loc offset =>
    let (p, value) := pciReadConfigByte B p loc.bus loc.device8 loc.func8 offset
    (p, littleEndian 1 (value.setWidth 32))
  | .read .word loc offset =>
    let (p, value) := pciReadConfigWord B p loc.bus loc.device8 loc.func8 offset
    (p, littleEndian 2 (value.setWidth 32))
  | .read .dword loc offset =>
    let (p, value) := pciReadConfigDword B p loc.bus loc.device8 loc.func8 offset
    (p, littleEndian 4 value)
  | .write .byte loc offset value =>
    (pciWriteConfigByte B p loc.bus loc.device8 loc.func8 offset (value.setWidth 8), [])
  | .write .word loc offset value =>
    (pciWriteConfigWord B p loc.bus loc.device8 loc.func8 offset (value.setWidth 16), [])
  | .write .dword loc offset value =>
    (pciWriteConfigDword B p loc.bus loc.device8 loc.func8 offset value, [])

/-- Accesses one after the other. -/
def run : Ports σ → List Access → Ports σ × List (List Byte)
  | p, [] => (p, [])
  | p, a :: accesses =>
    ((run (exec B p a).1 accesses).1, (exec B p a).2 :: (run (exec B p a).1 accesses).2)

end Run

/-- Memory of bytes, one for each function. -/
abbrev ByteSpace := Location → BitVec 8 → Byte

/-- What an access does on memory of bytes. -/
def execBytes (m : ByteSpace) : Access → ByteSpace × List Byte
  | .read w loc offset => (m, (List.range w.size).map fun k => m loc (offset + BitVec.ofNat 8 k))
  | .write w loc offset value =>
    (Function.update m loc (ByteMap.write (m loc) ⟨offset, littleEndian w.size value⟩), [])

/-- Accesses one after the other on memory of bytes. -/
def runBytes : ByteSpace → List Access → ByteSpace × List (List Byte)
  | m, [] => (m, [])
  | m, a :: accesses =>
    ((runBytes (execBytes m a).1 accesses).1,
      (execBytes m a).2 :: (runBytes (execBytes m a).1 accesses).2)

/-- The bytes of the registers. -/
def byteView (regs : Registers) : ByteSpace :=
  fun loc x => byteOf (regs loc (x.extractLsb' 2 6)) (x.toNat % 4)

section Bytes

variable {w cur v mask : BitVec 32} {offset x : BitVec 8} {i j k n : ℕ}

@[simp] theorem length_littleEndian : (littleEndian n w).length = n := by
  simp [littleEndian]

theorem byteOf_ushiftRight (w : BitVec 32) (j k : ℕ) :
    byteOf (w >>> (j * 8)) k = byteOf w (j + k) := by
  apply BitVec.eq_of_getLsbD_eq
  intro b hb
  simp only [byteOf, BitVec.getLsbD_extractLsb', BitVec.getLsbD_ushiftRight, hb, decide_true,
    Bool.true_and]
  congr 1
  omega

/-- The lowest bytes of a value do not depend on what stands above them. -/
theorem byteOf_setWidth {m : ℕ} (hm : m ≤ 32) (hk : 8 * (k + 1) ≤ m) :
    byteOf ((w.setWidth m).setWidth 32) k = byteOf w k := by
  apply BitVec.eq_of_getLsbD_eq
  intro b hb
  simp only [byteOf, BitVec.getLsbD_extractLsb', BitVec.getLsbD_setWidth, hb, decide_true,
    Bool.true_and]
  simp [show 8 * k + b < 32 by omega, show 8 * k + b < m by omega]

/-- The lowest bytes under a mask. -/
theorem byteOf_and (hmask : ∀ q < 32, mask.getLsbD q = decide (q < 8 * n)) (hk : k < n)
    (hn : n ≤ 4) : byteOf (w &&& mask) k = byteOf w k := by
  apply BitVec.eq_of_getLsbD_eq
  intro b hb
  simp only [byteOf, BitVec.getLsbD_extractLsb', BitVec.getLsbD_and, hb, decide_true,
    Bool.true_and]
  rw [hmask _ (by omega)]
  simp [show 8 * k + b < 8 * n by omega]

theorem getLsbD_byteMask (q : ℕ) (hq : q < 32) : (0xFF#32).getLsbD q = decide (q < 8 * 1) := by
  interval_cases q <;> rfl

theorem getLsbD_wordMask (q : ℕ) (hq : q < 32) : (0xFFFF#32).getLsbD q = decide (q < 8 * 2) := by
  interval_cases q <;> rfl

/-- A value that was cut to a width has nothing above it. -/
theorem getLsbD_setWidth_of_le {m q : ℕ} (hq : m ≤ q) :
    ((w.setWidth m).setWidth 32).getLsbD q = false := by
  simp [BitVec.getLsbD_setWidth, show ¬ q < m by omega]

theorem littleEndian_setWidth {m : ℕ} (hm : m ≤ 32) (hn : 8 * n ≤ m) :
    littleEndian n ((w.setWidth m).setWidth 32) = littleEndian n w :=
  List.map_congr_left fun k hk => byteOf_setWidth hm (by have := List.mem_range.mp hk; omega)

/-- A byte of a register into which a value is merged under a mask. -/
theorem byteOf_merge (hmask : ∀ q < 32, mask.getLsbD q = decide (q < 8 * n))
    (hv : ∀ q, 8 * n ≤ q → v.getLsbD q = false) (hi : i < 4) :
    byteOf (cur &&& ~~~(mask <<< (j * 8)) ||| v <<< (j * 8)) i =
      if j ≤ i ∧ i < j + n then byteOf v (i - j) else byteOf cur i := by
  apply BitVec.eq_of_getLsbD_eq
  intro b hb
  have hq : 8 * i + b < 32 := by omega
  simp only [byteOf, BitVec.getLsbD_extractLsb', BitVec.getLsbD_or, BitVec.getLsbD_and,
    BitVec.getLsbD_not, BitVec.getLsbD_shiftLeft, hb, hq, decide_true, Bool.true_and]
  by_cases hlow : i < j
  · -- the byte lies below the value
    rw [if_neg (by omega)]
    simp [hb, hq, show 8 * i + b < j * 8 by omega]
  · have hback : 8 * i + b - j * 8 = 8 * (i - j) + b := by omega
    rw [hback, hmask _ (by omega)]
    by_cases hin : i < j + n
    · rw [if_pos ⟨by omega, hin⟩]
      simp [hb, show ¬ 8 * i + b < j * 8 by omega, show 8 * (i - j) + b < 8 * n by omega]
    · rw [if_neg (by omega), hv _ (by omega)]
      simp [hb, hq, show ¬ 8 * (i - j) + b < 8 * n by omega]

/-- A byte that is written to a block within one register, or another byte of that register. -/
theorem getD_littleEndian (hfits : offset.toNat % 4 + n ≤ 4)
    (hsame : x.toNat / 4 = offset.toNat / 4) (b : Byte) :
    (littleEndian n v).getD (x - offset).toNat b =
      if offset.toNat % 4 ≤ x.toNat % 4 ∧ x.toNat % 4 < offset.toNat % 4 + n then
        byteOf v (x.toNat % 4 - offset.toNat % 4)
      else b := by
  have hx := x.isLt
  have ho := offset.isLt
  rw [BitVec.toNat_sub]
  by_cases hle : offset.toNat ≤ x.toNat
  · have hdist : (2 ^ 8 - offset.toNat + x.toNat) % 2 ^ 8 = x.toNat % 4 - offset.toNat % 4 := by
      omega
    rw [hdist]
    split
    · next hin =>
      have hlt : x.toNat % 4 - offset.toNat % 4 < n := by omega
      rw [List.getD_eq_getElem _ _ (by simpa using hlt)]
      simp [littleEndian]
    · next hout => exact List.getD_eq_default _ _ (by simp only [length_littleEndian]; omega)
  · rw [if_neg (by omega)]
    exact List.getD_eq_default _ _ (by simp only [length_littleEndian]; omega)

/-- A byte of another register is not written. -/
theorem getD_littleEndian_of_ne (hfits : offset.toNat % 4 + n ≤ 4)
    (hne : x.toNat / 4 ≠ offset.toNat / 4) (b : Byte) :
    (littleEndian n v).getD (x - offset).toNat b = b := by
  have hx := x.isLt
  have ho := offset.isLt
  refine List.getD_eq_default _ _ ?_
  rw [length_littleEndian, BitVec.toNat_sub]
  omega

theorem extractLsb'_eq_iff : x.extractLsb' 2 6 = offset.extractLsb' 2 6 ↔
    x.toNat / 4 = offset.toNat / 4 := by
  have hx := x.isLt
  have ho := offset.isLt
  rw [← BitVec.toNat_inj, BitVec.extractLsb'_toNat, BitVec.extractLsb'_toNat,
    Nat.shiftRight_eq_div_pow, Nat.shiftRight_eq_div_pow]
  omega

theorem extractLsb'_aligned (offset : BitVec 8) :
    (offset &&& ~~~3).extractLsb' 2 6 = offset.extractLsb' 2 6 := by
  apply BitVec.eq_of_getLsbD_eq
  intro i hi
  simp only [BitVec.getLsbD_extractLsb', BitVec.getLsbD_and, BitVec.getLsbD_not, hi, decide_true,
    Bool.true_and]
  interval_cases i <;> simp

end Bytes

/-! ### Configuration space is memory of bytes -/

section Refinement

variable {loc : Location} {offset : BitVec 8}

/-- The bytes of a register into which a value is merged are those of a block that is written. -/
theorem byteView_merge (regs : Registers) (loc : Location) {n : ℕ} {v mask : BitVec 32}
    (hmask : ∀ q < 32, mask.getLsbD q = decide (q < 8 * n))
    (hv : ∀ q, 8 * n ≤ q → v.getLsbD q = false) (hfits : offset.toNat % 4 + n ≤ 4) :
    byteView (Function.update regs loc (Function.update (regs loc) (offset.extractLsb' 2 6)
        (regs loc (offset.extractLsb' 2 6) &&& ~~~(mask <<< shift offset) |||
          v <<< shift offset))) =
      Function.update (byteView regs) loc
        (ByteMap.write (byteView regs loc) ⟨offset, littleEndian n v⟩) := by
  funext loc' x
  by_cases hloc : loc' = loc
  · subst hloc
    rw [Function.update_self]
    show byteOf (Function.update regs loc' _ loc' (x.extractLsb' 2 6)) (x.toNat % 4) = _
    rw [Function.update_self, ByteMap.write]
    by_cases hreg : x.toNat / 4 = offset.toNat / 4
    · rw [extractLsb'_eq_iff.mpr hreg, Function.update_self, shift,
        byteOf_merge hmask hv (Nat.mod_lt _ (by decide)), getD_littleEndian hfits hreg]
      show _ = if _ then _ else byteOf (regs loc' (x.extractLsb' 2 6)) (x.toNat % 4)
      rw [extractLsb'_eq_iff.mpr hreg]
    · rw [Function.update_of_ne (fun h => hreg (extractLsb'_eq_iff.mp h)),
        getD_littleEndian_of_ne hfits hreg]
      rfl
  · rw [Function.update_of_ne hloc]
    show byteOf (Function.update regs loc _ loc' (x.extractLsb' 2 6)) (x.toNat % 4) = _
    rw [Function.update_of_ne hloc]
    rfl

/-- The bytes that are read from a register. -/
theorem littleEndian_eq_map {n : ℕ} {value : BitVec 32} {regs : Registers}
    (hfits : offset.toNat % 4 + n ≤ 4)
    (hvalue : ∀ k < n, byteOf value k =
      byteOf (regs loc (offset.extractLsb' 2 6)) (offset.toNat % 4 + k)) :
    littleEndian n value =
      (List.range n).map fun k => byteView regs loc (offset + BitVec.ofNat 8 k) := by
  refine List.map_congr_left fun k hk => ?_
  have hk' : k < n := List.mem_range.mp hk
  have ho := offset.isLt
  have hnext : (offset + BitVec.ofNat 8 k).toNat = offset.toNat + k := by
    rw [BitVec.toNat_add, BitVec.toNat_ofNat]
    omega
  rw [hvalue k hk']
  show _ = byteOf (regs loc ((offset + BitVec.ofNat 8 k).extractLsb' 2 6))
    ((offset + BitVec.ofNat 8 k).toNat % 4)
  rw [extractLsb'_eq_iff.mpr (by rw [hnext]; omega), hnext,
    show (offset.toNat + k) % 4 = offset.toNat % 4 + k by omega]

/-- A write of some bytes of a register, with the value merged into what it reads as. -/
theorem byteView_write (p : Ports Registers) {n : ℕ} {v mask value : BitVec 32}
    (hmask : ∀ q < 32, mask.getLsbD q = decide (q < 8 * n))
    (hv : ∀ q, 8 * n ≤ q → v.getLsbD q = false)
    (hbytes : littleEndian n v = littleEndian n value) (hfits : offset.toNat % 4 + n ≤ 4) :
    let r := pciReadConfigDword keepingBus p loc.bus loc.device8 loc.func8 (offset &&& ~~~3)
    byteView (pciWriteConfigDword keepingBus r.1 loc.bus loc.device8 loc.func8 (offset &&& ~~~3)
        (r.2 &&& ~~~(mask <<< shift offset) ||| v <<< shift offset)).regs =
      Function.update (byteView p.regs) loc
        (ByteMap.write (byteView p.regs loc) ⟨offset, littleEndian n value⟩) := by
  intro r
  have hread : r.2 = p.regs loc (offset.extractLsb' 2 6) := by
    have hdata := inData_addr keepingBus p loc (offset &&& ~~~3)
    rw [extractLsb'_aligned] at hdata
    exact hdata
  have hwrite := regs_outData_addr keepingBus r.1 loc (offset &&& ~~~3)
    (r.2 &&& ~~~(mask <<< shift offset) ||| v <<< shift offset)
  rw [extractLsb'_aligned, hread] at hwrite
  rw [← hbytes, ← byteView_merge p.regs loc hmask hv hfits, hread]
  exact congrArg byteView hwrite

/-- One access does to the registers what it does to their bytes. -/
theorem exec_byteView (p : Ports Registers) {a : Access} (ha : a.Fits) :
    (exec keepingBus p a).2 = (execBytes (byteView p.regs) a).2 ∧
      byteView (exec keepingBus p a).1.regs = (execBytes (byteView p.regs) a).1 := by
  cases a with
  | read w loc offset =>
    have hdata := inData_addr keepingBus p loc offset
    cases w with
    | byte =>
      refine ⟨littleEndian_eq_map ha fun k hk => ?_, rfl⟩
      show byteOf ((((_ >>> _) &&& 0xFF#32).setWidth 8).setWidth 32) k = _
      rw [byteOf_setWidth (by decide) (by omega), byteOf_and getLsbD_byteMask hk (by decide), shift,
        byteOf_ushiftRight]
      exact congrArg (byteOf · _) hdata
    | word =>
      refine ⟨littleEndian_eq_map ha fun k hk => ?_, rfl⟩
      show byteOf ((((_ >>> _) &&& 0xFFFF#32).setWidth 16).setWidth 32) k = _
      rw [byteOf_setWidth (by decide) (by omega), byteOf_and getLsbD_wordMask hk (by decide), shift,
        byteOf_ushiftRight]
      exact congrArg (byteOf · _) hdata
    | dword =>
      refine ⟨littleEndian_eq_map ha fun k hk => ?_, rfl⟩
      have haligned : offset.toNat % 4 = 0 := by
        have hfits : offset.toNat % 4 + 4 ≤ 4 := ha
        omega
      rw [haligned, Nat.zero_add]
      exact congrArg (byteOf · k) hdata
  | write w loc offset value =>
    cases w with
    | byte =>
      exact ⟨rfl, byteView_write p getLsbD_byteMask (fun q hq => getLsbD_setWidth_of_le hq)
        (littleEndian_setWidth (by decide) (by decide)) ha⟩
    | word =>
      exact ⟨rfl, byteView_write p getLsbD_wordMask (fun q hq => getLsbD_setWidth_of_le hq)
        (littleEndian_setWidth (by decide) (by decide)) ha⟩
    | dword =>
      have haligned : offset.toNat % 4 = 0 := by
        have hfits : offset.toNat % 4 + 4 ≤ 4 := ha
        omega
      have hmask : ∀ q < 32, (BitVec.allOnes 32).getLsbD q = decide (q < 8 * 4) := by
        intro q hq
        rw [BitVec.getLsbD_allOnes]
      have hmerge := byteView_merge p.regs loc hmask
        (fun q hq => BitVec.getLsbD_of_ge value q hq) ha
      have hwhole : ∀ cur : BitVec 32, cur &&& ~~~(BitVec.allOnes 32 <<< shift offset) |||
          value <<< shift offset = value := by
        intro cur
        rw [shift, haligned]
        simp
      rw [hwhole] at hmerge
      refine ⟨rfl, Eq.trans ?_ hmerge⟩
      exact congrArg byteView (regs_outData_addr keepingBus p loc offset value)

/-- Configuration space is memory of bytes: whatever accesses are made that each stay within one
register, they read what they would read from memory of bytes, one for each function, and a write
changes the bytes that it is for and no other byte of any function. -/
theorem config_refines_bytes (p : Ports Registers) (accesses : List Access)
    (h : ∀ a ∈ accesses, a.Fits) :
    (run keepingBus p accesses).2 = (runBytes (byteView p.regs) accesses).2 ∧
      byteView (run keepingBus p accesses).1.regs = (runBytes (byteView p.regs) accesses).1 := by
  induction accesses generalizing p with
  | nil => exact ⟨rfl, rfl⟩
  | cons a accesses ih =>
    obtain ⟨hread, hbytes⟩ := exec_byteView p (h a List.mem_cons_self)
    obtain ⟨hreads, hlast⟩ := ih (exec keepingBus p a).1 fun b hb => h b (List.mem_cons_of_mem a hb)
    rw [hbytes] at hreads hlast
    exact ⟨by rw [run, runBytes, hread, hreads], hlast⟩

/-- The accesses that let a card become bus master, and what is read around them. -/
def enableBusMaster : List Access :=
  [.read .word ⟨0, 3, 0⟩ 0x04, .write .word ⟨0, 3, 0⟩ 0x04 0x0106, .read .byte ⟨0, 3, 0⟩ 0x05,
    .read .dword ⟨0, 3, 0⟩ 0x04, .read .dword ⟨0, 3, 1⟩ 0x04]

theorem config_refines_bytes_busMaster :
    (run keepingBus ⟨0, fun _ _ => 0x02800000⟩ enableBusMaster).2 =
      [[0x00, 0x00], [], [0x01], [0x06, 0x01, 0x80, 0x02], [0x00, 0x00, 0x80, 0x02]] :=
  (config_refines_bytes ⟨0, fun _ _ => 0x02800000⟩ enableBusMaster
    (by simp [enableBusMaster, Access.Fits, Width.size])).1.trans (by decide)

end Refinement

end KyroOS.Pci

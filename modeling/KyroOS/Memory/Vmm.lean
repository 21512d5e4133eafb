import KyroOS.Memory.Pmm

/-!
# Page tables

`vmm.c` works on four-level page tables through the direct map: the physical page at
`p` is seen at the address `p + hhdm`. Memory is a map from addresses to 8-byte cells;
the entries of a table are the cells of its page.

## Main definitions

* `Vmm` — memory, the page allocator and the kernel's top-level table
* `vmmMapPage`, `vmmUnmapPage`, `vmmGetPhysAddr`, `vmmMemcpyToUserspace`
* `vmmCreateAddressSpace`, `vmmDestroyAddressSpace`
-/

namespace KyroOS.Memory

/-- `PAGE_PRESENT`, `PAGE_WRITE`, `PAGE_USER` and `PAGE_NO_EXEC`. -/
def pagePresent : Word := 1
def pageWrite : Word := 2
def pageUser : Word := 4
def pageNoExec : Word := 1#64 <<< 63

/-- `PHYSICAL_ADDR_MASK`. -/
def physicalAddrMask : Word := 0x000FFFFFFFFFF000

/-- `USER_STACK_TOP` and `USER_STACK_SIZE`. -/
def userStackTop : Word := 0x00007FFFFFFFF000
def userStackSize : ℕ := 256 * pageSize

/-- What the page-table code works on. -/
structure Vmm where
  pmm : Pmm
  /-- Memory in 8-byte cells. -/
  mem : Word → Word
  /-- `kernel_hhdm_offset`. -/
  hhdm : Word
  /-- `kernel_pml4`. -/
  kernelPml4 : Word

/-! ### Memory -/

/-- The address of the cell that holds the byte at `a`. -/
def cellOf (a : Word) : Word := a &&& ~~~ 7#64

/-- The position of the byte at `a` in its cell, in bits. -/
def bitOffset (a : Word) : ℕ := 8 * (a.toNat % 8)

def loadByte (mem : Word → Word) (a : Word) : Byte := (mem (cellOf a) >>> bitOffset a).setWidth 8

def storeByte (mem : Word → Word) (a : Word) (b : Byte) : Word → Word :=
  Function.update mem (cellOf a)
    (mem (cellOf a) &&& ~~~ (0xFF#64 <<< bitOffset a) ||| b.setWidth 64 <<< bitOffset a)

/-- `memcpy(dst, bytes, n)`. -/
def memcpy (mem : Word → Word) : Word → List Byte → Word → Word
  | _, [] => mem
  | dst, b :: bytes => memcpy (storeByte mem dst b) (dst + 1) bytes

/-- `memset(dst, 0, n)` for whole cells. -/
def memsetZero (mem : Word → Word) (dst : Word) (n : ℕ) : Word → Word :=
  fun a => if (a - dst).toNat < n then 0 else mem a

namespace Vmm

/-- `vmm_phys_to_virt`. -/
def physToVirt (v : Vmm) (phys : Word) : Word := phys + v.hhdm

/-- `vmm_virt_to_phys`. -/
def virtToPhys (v : Vmm) (virt : Word) : Word := virt - v.hhdm

/-- The cell of entry `i` of a table. -/
def entryAddr (table : Word) (i : ℕ) : Word := table + BitVec.ofNat 64 (8 * i)

/-- `table->entries[i]`. -/
def entry (v : Vmm) (table : Word) (i : ℕ) : Word := v.mem (entryAddr table i)

def setEntry (v : Vmm) (table : Word) (i : ℕ) (e : Word) : Vmm :=
  { v with mem := Function.update v.mem (entryAddr table i) e }

/-- What a present entry of a table points to, as seen through the direct map. -/
def nextLevel (v : Vmm) (table : Word) (i : ℕ) : Option Word :=
  if v.entry table i &&& pagePresent = 0 then none
  else some (v.physToVirt (v.entry table i &&& physicalAddrMask))

end Vmm

/-! ### Walking and mapping -/

/-- The indices of a virtual address in the tables of the four levels. -/
def pml4Index (virt : Word) : ℕ := (virt >>> 39 &&& 0x1FF).toNat
def pdptIndex (virt : Word) : ℕ := (virt >>> 30 &&& 0x1FF).toNat
def pdIndex (virt : Word) : ℕ := (virt >>> 21 &&& 0x1FF).toNat
def ptIndex (virt : Word) : ℕ := (virt >>> 12 &&& 0x1FF).toNat

/-- One level of `vmm_map_page`: the next table, which is allocated, cleared and entered
when it is absent. -/
def nextTable (v : Vmm) (table : Word) (i : ℕ) (message : String) : Outcome (Vmm × Word) :=
  match v.nextLevel table i with
  | some next => .ok (v, next)
  | none =>
    let (pmm, page) := pmmAllocPage v.pmm
    if page = 0 then .error (.panic message)
    else
      let next := v.physToVirt page
      let v := { v with pmm, mem := memsetZero v.mem next pageSize }
      .ok (v.setEntry table i (page ||| pagePresent ||| pageWrite ||| pageUser), next)

/-- `vmm_map_page`. -/
def vmmMapPage (v : Vmm) (pml4 virt phys flags : Word) : Outcome Vmm := do
  let (v, pdpt) ← nextTable v pml4 (pml4Index virt) "VMM: Out of memory for PDPT!"
  let (v, pd) ← nextTable v pdpt (pdptIndex virt) "VMM: Out of memory for PD!"
  let (v, pt) ← nextTable v pd (pdIndex virt) "VMM: Out of memory for PT!"
  return v.setEntry pt (ptIndex virt) (phys ||| flags)

/-- The page table that covers a virtual address, if the tables above it are present. -/
def findTable (v : Vmm) (pml4 virt : Word) : Option Word := do
  let pdpt ← v.nextLevel pml4 (pml4Index virt)
  let pd ← v.nextLevel pdpt (pdptIndex virt)
  v.nextLevel pd (pdIndex virt)

/-- `vmm_unmap_page`: the physical address of the page, 0 for `NULL`. -/
def vmmUnmapPage (v : Vmm) (pml4 virt : Word) : Vmm × Word :=
  match findTable v pml4 virt with
  | none => (v, 0)
  | some pt =>
    let e := v.entry pt (ptIndex virt)
    if e &&& pagePresent = 0 then (v, 0)
    else (v.setEntry pt (ptIndex virt) 0, e &&& physicalAddrMask)

/-- `vmm_get_phys_addr`. -/
def vmmGetPhysAddr (v : Vmm) (pml4 virt : Word) : Word :=
  match findTable v pml4 virt with
  | none => 0
  | some pt =>
    let e := v.entry pt (ptIndex virt)
    if e &&& pagePresent = 0 then 0
    else (e &&& physicalAddrMask) + (virt &&& 0xFFF)

/-- The loop of `vmm_memcpy_to_userspace`, with at most `turns` turns: one page at a time,
until the bytes are copied or an address is not mapped. -/
def memcpyLoop (v : Vmm) (pml4 : Word) : ℕ → Word → List Byte → Vmm
  | 0, _, _ => v
  | turns + 1, virt, src =>
    if src = [] then v
    else
      let copySize := pageSize - virt.toNat % pageSize
      let phys := vmmGetPhysAddr v pml4 virt
      if phys = 0 then v
      else
        memcpyLoop { v with mem := memcpy v.mem (v.physToVirt phys) (src.take copySize) } pml4
          turns (virt + BitVec.ofNat 64 copySize) (src.drop copySize)

/-- `vmm_memcpy_to_userspace`. Every turn copies a byte at least. -/
def vmmMemcpyToUserspace (v : Vmm) (pml4 dest : Word) (src : List Byte) : Vmm :=
  memcpyLoop v pml4 src.length dest src

/-! ### Address spaces -/

/-- `vmm_create_address_space`: the new top-level table, 0 for `NULL`. The test is made on
the address in the direct map. -/
def vmmCreateAddressSpace (v : Vmm) : Vmm × Word :=
  let (pmm, page) := pmmAllocPage v.pmm
  let pml4 := v.physToVirt page
  if pml4 = 0 then ({ v with pmm }, 0)
  else
    -- the lower half is cleared, the upper half is the kernel's
    let mem := memsetZero v.mem pml4 (256 * 8)
    ({ v with
        pmm
        mem := fun a =>
          if 256 * 8 ≤ (a - pml4).toNat ∧ (a - pml4).toNat < 512 * 8 then
            mem (v.kernelPml4 + (a - pml4))
          else mem a }, pml4)

/-- The part of `vmm_destroy_address_space` for one page directory: its page tables and
itself. -/
def freePd (v : Vmm) (pmm : Pmm) (pd : Word) : Pmm :=
  let pmm := (List.range 512).foldl
    (fun pmm k => match v.nextLevel pd k with
      | some pt => pmmFreePage pmm (v.virtToPhys pt)
      | none => pmm) pmm
  pmmFreePage pmm (v.virtToPhys pd)

/-- The part for one page directory pointer table. -/
def freePdpt (v : Vmm) (pmm : Pmm) (pdpt : Word) : Pmm :=
  let pmm := (List.range 512).foldl
    (fun pmm j => match v.nextLevel pdpt j with
      | some pd => freePd v pmm pd
      | none => pmm) pmm
  pmmFreePage pmm (v.virtToPhys pdpt)

/-- `vmm_destroy_address_space`. -/
def vmmDestroyAddressSpace (v : Vmm) (pml4 : Word) : Vmm :=
  if pml4 = 0 then v
  else
    let pmm := (List.range 256).foldl
      (fun pmm i => match v.nextLevel pml4 i with
        | some pdpt => freePdpt v pmm pdpt
        | none => pmm) v.pmm
    { v with pmm := pmmFreePage pmm (v.virtToPhys pml4) }

end KyroOS.Memory

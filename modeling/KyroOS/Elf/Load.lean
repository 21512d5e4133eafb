import KyroOS.Threads.Create

/-!
# Loading programs

`elf_load` checks the header of an ELF image and maps its segments page by page;
`elf_exec_as_thread` loads a file into a new address space and starts a thread in it. An
image is the bytes from the start of the buffer on. They are fixed during the load, also
those behind the end of the file, which the program headers can point to.

## Main definitions

* `Image`, `Elf64Ehdr`, `Elf64Phdr` — the image and the parts of its headers that are read
* `loadPage`, `loadSegment`, `elfLoad` — the loops of `elf_load`
* `elfExecAsThread`
-/

namespace KyroOS.Elf

open KyroOS.Memory KyroOS.Threads

/-- The bytes of an image, by their offset. -/
abbrev Image := Word → Byte

namespace Image

/-- The little-endian numbers in an image. -/
def half (image : Image) (off : Word) : BitVec 16 := image (off + 1) ++ image off
def word (image : Image) (off : Word) : BitVec 32 := image.half (off + 2) ++ image.half off
def xword (image : Image) (off : Word) : Word := image.word (off + 4) ++ image.word off

end Image

/-- The fields of the ELF header that are read. -/
structure Elf64Ehdr where
  magic : List Byte
  elfClass : Byte
  type : BitVec 16
  entry : Word
  phoff : Word
  phentsize : BitVec 16
  phnum : BitVec 16

def Image.ehdr (image : Image) : Elf64Ehdr where
  magic := [image 0, image 1, image 2, image 3]
  elfClass := image 4
  type := image.half 16
  entry := image.xword 24
  phoff := image.xword 32
  phentsize := image.half 54
  phnum := image.half 56

/-- The fields of a program header that are read. -/
structure Elf64Phdr where
  type : BitVec 32
  flags : BitVec 32
  offset : Word
  vaddr : Word
  filesz : Word
  memsz : Word
  deriving DecidableEq

/-- Where the program header `i` starts. The product with the entry size is an `int`. -/
def Image.phdrOffset (image : Image) (i : ℕ) : Word :=
  image.ehdr.phoff + (BitVec.ofNat 32 (i * image.ehdr.phentsize.toNat)).signExtend 64

def Image.phdr (image : Image) (i : ℕ) : Elf64Phdr :=
  let off := image.phdrOffset i
  { type := image.word off
    flags := image.word (off + 4)
    offset := image.xword (off + 8)
    vaddr := image.xword (off + 16)
    filesz := image.xword (off + 32)
    memsz := image.xword (off + 40) }

/-- `PT_LOAD`, `PF_X` and `PF_W`. -/
def ptLoad : BitVec 32 := 1
def pfX : BitVec 32 := 1
def pfW : BitVec 32 := 2

/-- `elf_load_result_t`. -/
structure LoadResult where
  entryPoint : Word
  programBreak : Word

/-- The checks of the header: the magic number, `ELFCLASS64` and `ET_EXEC`. -/
def Elf64Ehdr.Accepted (h : Elf64Ehdr) : Prop :=
  h.magic = [0x7f, 0x45, 0x4c, 0x46] ∧ h.elfClass = 2 ∧ h.type = 2

instance (h : Elf64Ehdr) : Decidable h.Accepted := inferInstanceAs (Decidable (_ ∧ _ ∧ _))

/-- The flags of the pages of a segment. -/
def pageFlags (ph : Elf64Phdr) : Word :=
  let flags := pagePresent ||| pageUser
  let flags := if ph.flags &&& pfW ≠ 0 then flags ||| pageWrite else flags
  if ph.flags &&& pfX = 0 then flags ||| pageNoExec else flags

/-- The bytes that are copied into the page at the offset `j` of a segment. -/
def pageData (image : Image) (ph : Elf64Phdr) (j : Word) : List Byte :=
  let offsetInFile := ph.offset + j
  if offsetInFile < ph.offset + ph.filesz then
    let toCopy := min pageSize (ph.offset + ph.filesz - offsetInFile).toNat
    (List.range toCopy).map fun i => image (offsetInFile + BitVec.ofNat 64 i)
  else []

/-- One turn of the loop over the pages of a segment. -/
def loadPage (v : Vmm) (pml4 virt flags : Word) (data : List Byte) : Outcome Vmm := do
  let (pmm, page) := pmmAllocPage v.pmm
  if page = 0 then throw (.panic "ELF: Out of physical memory to load segment.")
  let v := { v with pmm, mem := memsetZero v.mem (v.physToVirt page) pageSize }
  let v ← vmmMapPage v pml4 virt page flags
  return { v with mem := memcpy v.mem (v.physToVirt page) data }

/-- The offsets of the pages of a segment. -/
def pageOffsets (ph : Elf64Phdr) : List Word :=
  (List.range ((ph.memsz.toNat + (pageSize - 1)) / pageSize)).map fun i =>
    BitVec.ofNat 64 (i * pageSize)

/-- The pages of a segment. -/
def loadSegment (image : Image) (ph : Elf64Phdr) (pml4 : Word) (v : Vmm) : Outcome Vmm :=
  (pageOffsets ph).foldlM (fun v j =>
    loadPage v pml4 (ph.vaddr + j) (pageFlags ph) (pageData image ph j)) v

/-- One turn of the loop over the program headers, with `max_vaddr`. -/
def loadHeader (image : Image) (pml4 : Word) (s : Vmm × Word) (i : ℕ) : Outcome (Vmm × Word) :=
  let ph := image.phdr i
  if ph.type = ptLoad then do
    let v ← loadSegment image ph pml4 s.1
    return (v, if s.2 < ph.vaddr + ph.memsz then ph.vaddr + ph.memsz else s.2)
  else return s

/-- `elf_load` of a buffer that is not `NULL`. -/
def elfLoad (v : Vmm) (pml4 : Word) (image : Image) : Outcome (Vmm × LoadResult) :=
  let h := image.ehdr
  if h.Accepted then do
    let (v, maxVaddr) ← (List.range h.phnum.toNat).foldlM (loadHeader image pml4) (v, 0)
    return (v, ⟨h.entry, maxVaddr⟩)
  else return (v, ⟨0, 0⟩)

/-- `elf_exec_as_thread`, with the contents of the file, `none` when there is no such file,
and the calls of `kmalloc` for the buffer and for the thread. The result is 0 or -1. -/
def elfExecAsThread (sym : Symbols) (k : Kernel) (file : Option Image)
    (argv : List (List Byte)) (console : Word) (buffer record kstack : Kmalloc) :
    Outcome (Kernel × ℤ) :=
  match file with
  | none => return (k, -1)
  | some image => do
    let k := k.kmalloc buffer
    if buffer.block = 0 then return (k, -1)
    let (vmm, pml4) := vmmCreateAddressSpace k.vmm
    let k := { k with vmm }
    if pml4 = 0 then return (k, -1)
    let (vmm, result) ← elfLoad k.vmm pml4 image
    let k := { k with vmm }
    if result.entryPoint ≠ 0 then
      let (k, _) ← threadCreateUserspace sym k result.entryPoint pml4 result.programBreak argv
        console record kstack
      return (k, 0)
    else return ({ k with vmm := vmmDestroyAddressSpace k.vmm pml4 }, -1)

end KyroOS.Elf

import KyroOS.Lib.CircularList
import KyroOS.Memory.Vmm

/-!
# The kernel heap

`heap.c` keeps the free blocks in a circular list, ordered by address. A block starts with a
header of two words, the link and the size in units of a header. `kmalloc` takes the first
block that fits from the tail of the list's free block on; `kfree` puts a block back where it
belongs and merges it with its neighbours; `morecore` takes pages and frees them as one block.

Pointers are compared and added as words. `pmm_alloc_pages` is a parameter: the address it
returns for a number of pages, 0 for `NULL`.

## Main definitions

* `Layout` — where the static header and the direct map are
* `Heap`, `Heap.next`, `Heap.size` — memory, the roving pointer and the fields of a header
* `heapInit`, `kfree`, `morecore`, `kmalloc`, `krealloc`
-/

namespace KyroOS

open KyroOS.Memory CircularList

/-- What the heap works on. -/
structure Heap where
  /-- Memory in 8-byte cells. -/
  mem : Word → Word
  freelist : Word
  /-- The pages that `morecore` got so far. -/
  pages : Finset ℕ

namespace Heap

/-- The size of a header, `sizeof(header_t)`. -/
def headerSize : ℕ := 16

/-- Where things are: the kernel's image with the static header `base` lies above the direct
map of physical memory. -/
structure Layout where
  base : Word
  hhdm : Word
  totalPages : ℕ
  base_aligned : base.toNat % 8 = 0
  hhdm_aligned : hhdm.toNat % pageSize = 0
  hhdm_pos : 0 < hhdm.toNat
  below : hhdm.toNat + totalPages * pageSize < base.toNat
  top : base.toNat + headerSize ≤ 2 ^ 64

/-- `p->next`. -/
def next (h : Heap) (p : Word) : Word := h.mem p

/-- `p->size`. -/
def size (h : Heap) (p : Word) : Word := h.mem (p + 8)

def setNext (h : Heap) (p next : Word) : Heap := { h with mem := Function.update h.mem p next }

def setSize (h : Heap) (p size : Word) : Heap :=
  { h with mem := Function.update h.mem (p + 8) size }

/-- The address behind the block at `p`, `p + p->size`. -/
def behind (h : Heap) (p : Word) : Word := p + 16 * h.size p

/-- The test of the loop of `kfree`: the block at `bp` belongs behind `p`, between two blocks
or at the start or end of the arena. -/
def Belongs (h : Heap) (bp p : Word) : Prop :=
  (p < bp ∧ bp < h.next p) ∨ (h.next p ≤ p ∧ (p < bp ∨ bp < h.next p))

instance (h : Heap) (bp : Word) : DecidablePred (h.Belongs bp) := fun _ =>
  inferInstanceAs (Decidable (_ ∨ _))

/-- The block at `bp` is linked to the one behind `p`, or merged with it. -/
def mergeUpper (h : Heap) (bp p : Word) : Heap :=
  if h.behind bp = h.next p then
    let h := h.setSize bp (h.size bp + h.size (h.next p))
    h.setNext bp (h.next (h.next p))
  else h.setNext bp (h.next p)

/-- The block at `p` is linked to the one at `bp`, or merged with it. -/
def mergeLower (h : Heap) (bp p : Word) : Heap :=
  if h.behind p = bp then
    let h := h.setSize p (h.size p + h.size bp)
    h.setNext p (h.next bp)
  else h.setNext p bp

/-- The part of `kfree` after the loop. -/
def release (h : Heap) (bp p : Word) : Heap :=
  { (h.mergeUpper bp p).mergeLower bp p with freelist := p }

/-- The part of `kmalloc` for a block that is big enough: the whole block, or its tail. -/
def carve (h : Heap) (nunits prevp p : Word) : Heap × Word :=
  if h.size p = nunits then
    ({ h.setNext prevp (h.next p) with freelist := prevp }, p + 16)
  else
    let h := h.setSize p (h.size p - nunits)
    let p := h.behind p
    ({ h.setSize p nunits with freelist := prevp }, p + 16)

/-- `heap_init`. -/
def heapInit (L : Layout) (mem : Word → Word) : Heap :=
  let h : Heap := { mem, freelist := 0, pages := ∅ }
  { (h.setNext L.base L.base).setSize L.base 0 with freelist := L.base }

/-- `kfree`, with a number of turns for its loop. -/
def kfree (turns : ℕ) (h : Heap) (ap : Word) : Outcome Heap :=
  if ap = 0 then return h
  else
    let bp := ap - 16
    match seek h.next (h.Belongs bp) turns h.freelist with
    | some p => return h.release bp p
    | none => throw .outOfFuel

/-- The pages that `morecore` asks for. -/
def pagesFor (nunits : Word) : Word :=
  ((if nunits < 1024 then 1024 else nunits) * 16 + (4096 - 1)) / 4096

/-- `morecore`, with the pages it acquires recorded. -/
def morecore (L : Layout) (pmmAllocPages : Word → Word) (turns : ℕ) (h : Heap) (nunits : Word) :
    Outcome (Heap × Word) := do
  let npages := pagesFor nunits
  let page := pmmAllocPages npages
  if page = 0 then return (h, 0)
  else
    let up := page + L.hhdm
    let h := h.setSize up (npages * 4096 / 16)
    let run := Finset.Ico (pageIndex page) (pageIndex page + npages.toNat)
    let h ← kfree turns { h with pages := h.pages ∪ run } (up + 16)
    return (h, h.freelist)

/-- The loop of `kmalloc`, with a number of turns; `p` is always `prevp->next`. -/
def kmallocLoop (L : Layout) (pmmAllocPages : Word → Word) (nunits : Word) :
    ℕ → Heap → Word → Outcome (Heap × Word)
  | 0, _, _ => throw .outOfFuel
  | turns + 1, h, prevp =>
    let p := h.next prevp
    if nunits ≤ h.size p then return h.carve nunits prevp p
    else if p = h.freelist then do
      let (h, p) ← morecore L pmmAllocPages turns h nunits
      if p = 0 then return (h, 0) else kmallocLoop L pmmAllocPages nunits turns h p
    else kmallocLoop L pmmAllocPages nunits turns h p

/-- The units for a request, with one for the header. -/
def unitsFor (nbytes : Word) : Word := (nbytes + 16 - 1) / 16 + 1

/-- `kmalloc`: the new block, 0 for `NULL`. -/
def kmalloc (L : Layout) (pmmAllocPages : Word → Word) (turns : ℕ) (h : Heap) (nbytes : Word) :
    Outcome (Heap × Word) :=
  if nbytes = 0 then return (h, 0)
  else kmallocLoop L pmmAllocPages (unitsFor nbytes) turns h h.freelist

/-- The loop of `krealloc` over the bytes of the old block. -/
def copyBytes (mem : Word → Word) (dst src : Word) (n : ℕ) : Word → Word :=
  (List.range n).foldl
    (fun mem i => storeByte mem (dst + BitVec.ofNat 64 i) (loadByte mem (src + BitVec.ofNat 64 i)))
    mem

/-- `krealloc`. -/
def krealloc (L : Layout) (pmmAllocPages : Word → Word) (turns : ℕ) (h : Heap)
    (ptr newSize : Word) : Outcome (Heap × Word) :=
  if ptr = 0 then kmalloc L pmmAllocPages turns h newSize
  else if newSize = 0 then do
    let h ← kfree turns h ptr
    return (h, 0)
  else
    let oldSize := (h.size (ptr - 16) - 1) * 16
    if newSize ≤ oldSize then return (h, ptr)
    else do
      let (h, newPtr) ← kmalloc L pmmAllocPages turns h newSize
      if newPtr = 0 then return (h, 0)
      else
        let h ← kfree turns { h with mem := copyBytes h.mem newPtr ptr oldSize.toNat } ptr
        return (h, newPtr)

end Heap

end KyroOS

import KyroOS.Elf.Load

/-!
# What the loader reads of a file

`elf_load` is given the address of the image and not its length. The offsets that it reads
are listed along its run, and they lie in the file exactly when the header, the program
headers and the parts of the segments that are copied do.

## Main definitions

* `elfLoadReads` — the offsets that `elf_load` reads, up to where it comes back or panics
* `InFile` — a file that contains what its headers describe

## Main results

* `reads_lt_length_iff` — every offset is below the length for exactly these files
-/

namespace KyroOS.Elf

open KyroOS.Memory

/-! ### The offsets that are read -/

/-- A field of `n` bytes. -/
def fieldReads (off : Word) (n : ℕ) : List Word :=
  (List.range n).map fun k => off + BitVec.ofNat 64 k

namespace Image

/-- The checks of the header, up to the first that fails. -/
def checkReads (image : Image) : List Word :=
  0 :: if image 0 ≠ 0x7f then [] else
  1 :: if image 1 ≠ 0x45 then [] else
  2 :: if image 2 ≠ 0x4c then [] else
  3 :: if image 3 ≠ 0x46 then [] else
  4 :: if image 4 ≠ 2 then [] else fieldReads 16 2

/-- A turn of the loop over the program headers: `e_phoff`, `e_phentsize`, and the fields of
the program header, of which `p_paddr` is not used. -/
def phdrReads (image : Image) (i : ℕ) : List Word :=
  fieldReads 32 8 ++ fieldReads 54 2 ++
    if (image.phdr i).type = ptLoad then
      fieldReads (image.phdrOffset i) 24 ++ fieldReads (image.phdrOffset i + 32) 16
    else fieldReads (image.phdrOffset i) 4

end Image

/-- What is copied into the page at the offset `j` of a segment. -/
def pageReads (ph : Elf64Phdr) (j : Word) : List Word :=
  let offsetInFile := ph.offset + j
  if offsetInFile < ph.offset + ph.filesz then
    fieldReads offsetInFile (min pageSize (ph.offset + ph.filesz - offsetInFile).toNat)
  else []

/-- The loop over the pages of a segment. A page is copied to after it was mapped. -/
def segmentReads (image : Image) (ph : Elf64Phdr) (pml4 : Word) : Vmm → List Word → List Word
  | _, [] => []
  | v, j :: js =>
    match loadPage v pml4 (ph.vaddr + j) (pageFlags ph) (pageData image ph j) with
    | .ok v => pageReads ph j ++ segmentReads image ph pml4 v js
    | .error _ => []

/-- The loop over the program headers, with the test of `e_phnum`. -/
def headersReads (image : Image) (pml4 : Word) : Vmm × Word → List ℕ → List Word
  | _, [] => fieldReads 56 2
  | s, i :: is =>
    fieldReads 56 2 ++ image.phdrReads i ++
      (if (image.phdr i).type = ptLoad then
        segmentReads image (image.phdr i) pml4 s.1 (pageOffsets (image.phdr i))
      else []) ++
      match loadHeader image pml4 s i with
      | .ok s => headersReads image pml4 s is
      | .error _ => []

/-- The offsets that `elf_load` reads. The entry point is read at the end. -/
def elfLoadReads (v : Vmm) (pml4 : Word) (image : Image) : List Word :=
  image.checkReads ++
    if image.ehdr.Accepted then
      headersReads image pml4 (v, 0) (List.range image.ehdr.phnum.toNat) ++
        match elfLoad v pml4 image with
        | .ok _ => fieldReads 24 8
        | .error _ => []
    else []

/-- The bytes that are copied are the ones at these offsets. -/
theorem pageData_eq_map (image : Image) (ph : Elf64Phdr) (j : Word) :
    pageData image ph j = (pageReads ph j).map image := by
  unfold pageData pageReads fieldReads
  dsimp only
  split_ifs
  · rw [List.map_map]
    rfl
  · rfl

/-! ### Files that contain what they describe -/

/-- How far the header is read. -/
def Image.headerEnd (image : Image) : ℕ :=
  if image 0 ≠ 0x7f then 1
  else if image 1 ≠ 0x45 then 2
  else if image 2 ≠ 0x4c then 3
  else if image 3 ≠ 0x46 then 4
  else if image 4 ≠ 2 then 5
  else if image.half 16 ≠ 2 then 18
  else 58

/-- The part of a segment that is copied into its page at `j` ends in the file. The sums are
those of 64-bit words. -/
def PageInFile (length : ℕ) (ph : Elf64Phdr) (j : Word) : Prop :=
  ph.offset + j < ph.offset + ph.filesz →
    min ((ph.offset + j).toNat + pageSize) (ph.offset + ph.filesz).toNat ≤ length

/-- The program header `i` lies in the file, and with it what is copied for it. -/
def HeaderInFile (length : ℕ) (image : Image) (i : ℕ) : Prop :=
  (image.phdrOffset i).toNat + (if (image.phdr i).type = ptLoad then 48 else 4) ≤ length ∧
    ((image.phdr i).type = ptLoad →
      ∀ j ∈ pageOffsets (image.phdr i), PageInFile length (image.phdr i) j)

/-- The header, the program headers, and the parts of the segments that are copied lie in
the first `length` bytes. -/
structure InFile (length : ℕ) (image : Image) : Prop where
  header : image.headerEnd ≤ length
  programHeaders : image.ehdr.Accepted →
    ∀ i ∈ List.range image.ehdr.phnum.toNat, HeaderInFile length image i

/-- Every offset is below the length. -/
def Below (length : ℕ) (reads : List Word) : Prop := ∀ a ∈ reads, a.toNat < length

section Below

variable {length n : ℕ} {off : Word} {image : Image} {reads reads' : List Word}

theorem below_nil : Below length [] := by simp [Below]

theorem below_cons {a : Word} : Below length (a :: reads) ↔ a.toNat < length ∧ Below length reads := by
  simp [Below]

theorem below_append : Below length (reads ++ reads') ↔ Below length reads ∧ Below length reads' := by
  simp only [Below, List.mem_append, or_imp, forall_and]

/-- A field that is not empty lies in the file from its first byte to its last. -/
theorem below_fieldReads (hlength : length < 2 ^ 32) (hn : 0 < n) (hn' : n ≤ 2 ^ 32) :
    Below length (fieldReads off n) ↔ off.toNat + n ≤ length := by
  have hmem : Below length (fieldReads off n) ↔
      ∀ k < n, (off + BitVec.ofNat 64 k).toNat < length := by
    simp [Below, fieldReads]
  have hsum : ∀ k < n, (off + BitVec.ofNat 64 k).toNat = (off.toNat + k) % 2 ^ 64 := by
    intro k hk
    rw [BitVec.toNat_add, BitVec.toNat_ofNat, Nat.mod_eq_of_lt (by omega : k < 2 ^ 64)]
  rw [hmem]
  constructor
  · intro h
    -- the first byte is in the file, so there is no overflow
    have hfirst := h 0 hn
    have hlast := h (n - 1) (by omega)
    rw [hsum _ (by omega)] at hfirst hlast
    have := off.isLt
    omega
  · intro h k hk
    rw [hsum k hk, Nat.mod_eq_of_lt (by omega)]
    omega

/-- A page. -/
theorem below_pageReads (hlength : length < 2 ^ 32) (ph : Elf64Phdr) (j : Word) :
    Below length (pageReads ph j) ↔ PageInFile length ph j := by
  unfold pageReads PageInFile
  dsimp only
  split_ifs with hlt
  · have hlt' : (ph.offset + j).toNat < (ph.offset + ph.filesz).toNat := hlt
    have hsub : (ph.offset + ph.filesz - (ph.offset + j)).toNat =
        (ph.offset + ph.filesz).toNat - (ph.offset + j).toNat :=
      BitVec.toNat_sub_of_le (Nat.le_of_lt hlt')
    rw [hsub, below_fieldReads hlength (by unfold pageSize; omega) (by unfold pageSize; omega)]
    constructor
    · intro h _
      omega
    · intro h
      have := h hlt
      omega
  · exact iff_of_true below_nil fun hlt' => absurd hlt' hlt

/-- A program header, once the header is in the file. -/
theorem below_phdrReads (hlength : length < 2 ^ 32) (hheader : 58 ≤ length) (i : ℕ) :
    Below length (image.phdrReads i) ↔
      (image.phdrOffset i).toNat + (if (image.phdr i).type = ptLoad then 48 else 4) ≤ length := by
  have hfields : Below length (fieldReads 32 8 ++ fieldReads 54 2) := by
    rw [below_append, below_fieldReads hlength (by decide) (by decide),
      below_fieldReads hlength (by decide) (by decide)]
    exact ⟨Nat.le_trans (by decide) hheader, Nat.le_trans (by decide) hheader⟩
  rw [Image.phdrReads, below_append, and_iff_right hfields]
  split_ifs with htype
  · rw [below_append, below_fieldReads hlength (by decide) (by decide),
      below_fieldReads hlength (by decide) (by decide), BitVec.toNat_add,
      show (32 : Word).toNat = 32 from rfl]
    have := (image.phdrOffset i).isLt
    omega
  · exact below_fieldReads hlength (by decide) (by decide)

/-! ### Along the run -/

variable {pml4 : Word} {ph : Elf64Phdr} {i : ℕ}

theorem below_segmentReads (hlength : length < 2 ^ 32) (js : List Word) (v : Vmm)
    (h : ∀ j ∈ js, PageInFile length ph j) : Below length (segmentReads image ph pml4 v js) := by
  induction js generalizing v with
  | nil => exact below_nil
  | cons j js ih =>
    rw [segmentReads]
    cases loadPage v pml4 (ph.vaddr + j) (pageFlags ph) (pageData image ph j) with
    | error e => exact below_nil
    | ok v' =>
      rw [below_append, below_pageReads hlength]
      exact ⟨h j List.mem_cons_self, ih v' fun j' hj' => h j' (List.mem_cons_of_mem j hj')⟩

/-- When the loop comes to its end, all its pages were copied. -/
theorem pageInFile_of_below (hlength : length < 2 ^ 32) (js : List Word) (v : Vmm) {v' : Vmm}
    (hok : js.foldlM (fun v j =>
      loadPage v pml4 (ph.vaddr + j) (pageFlags ph) (pageData image ph j)) v = .ok v')
    (h : Below length (segmentReads image ph pml4 v js)) : ∀ j ∈ js, PageInFile length ph j := by
  induction js generalizing v with
  | nil => simp
  | cons j js ih =>
    rw [List.foldlM_cons] at hok
    obtain ⟨v₁, hpage, hrest⟩ := Outcome.bind_eq_ok.mp hok
    rw [segmentReads, hpage, below_append, below_pageReads hlength] at h
    intro j' hj'
    rcases List.mem_cons.mp hj' with rfl | hj'
    · exact h.1
    · exact ih v₁ hrest h.2 j' hj'

/-- What a turn of the loop over the program headers reads. -/
theorem below_turn (pml4 : Word) (hlength : length < 2 ^ 32) (hheader : 58 ≤ length)
    (s : Vmm × Word)
    (h : HeaderInFile length image i) : Below length (image.phdrReads i) ∧
      Below length (if (image.phdr i).type = ptLoad then
        segmentReads image (image.phdr i) pml4 s.1 (pageOffsets (image.phdr i)) else []) := by
  refine ⟨(below_phdrReads hlength hheader i).mpr h.1, ?_⟩
  split_ifs with htype
  · exact below_segmentReads hlength _ s.1 (h.2 htype)
  · exact below_nil

theorem headerInFile_of_below (hlength : length < 2 ^ 32) (hheader : 58 ≤ length)
    {s s' : Vmm × Word} (hok : loadHeader image pml4 s i = .ok s')
    (hphdr : Below length (image.phdrReads i))
    (hsegment : Below length (if (image.phdr i).type = ptLoad then
      segmentReads image (image.phdr i) pml4 s.1 (pageOffsets (image.phdr i)) else [])) :
    HeaderInFile length image i := by
  refine ⟨(below_phdrReads hlength hheader i).mp hphdr, fun htype => ?_⟩
  rw [loadHeader, if_pos htype] at hok
  obtain ⟨v', hload, -⟩ := Outcome.bind_eq_ok.mp hok
  rw [if_pos htype] at hsegment
  exact pageInFile_of_below hlength _ s.1 hload hsegment

theorem below_headersReads (hlength : length < 2 ^ 32) (hheader : 58 ≤ length) (is : List ℕ)
    (s : Vmm × Word) (h : ∀ i ∈ is, HeaderInFile length image i) :
    Below length (headersReads image pml4 s is) := by
  have hphnum : Below length (fieldReads 56 2) :=
    (below_fieldReads hlength (by decide) (by decide)).mpr hheader
  induction is generalizing s with
  | nil => exact hphnum
  | cons i is ih =>
    obtain ⟨hphdr, hsegment⟩ := below_turn pml4 hlength hheader s (h i List.mem_cons_self)
    rw [headersReads, below_append, below_append, below_append]
    refine ⟨⟨⟨hphnum, hphdr⟩, hsegment⟩, ?_⟩
    cases loadHeader image pml4 s i with
    | error e => exact below_nil
    | ok s' => exact ih s' fun i' hi' => h i' (List.mem_cons_of_mem i hi')

theorem headersInFile_of_below (hlength : length < 2 ^ 32) (is : List ℕ) (s : Vmm × Word)
    {s' : Vmm × Word} (hok : is.foldlM (loadHeader image pml4) s = .ok s')
    (h : Below length (headersReads image pml4 s is)) :
    58 ≤ length ∧ ∀ i ∈ is, HeaderInFile length image i := by
  induction is generalizing s with
  | nil => exact ⟨(below_fieldReads hlength (by decide) (by decide)).mp h, by simp⟩
  | cons i is ih =>
    rw [List.foldlM_cons] at hok
    obtain ⟨s₁, hturn, hrest⟩ := Outcome.bind_eq_ok.mp hok
    rw [headersReads, hturn, below_append, below_append, below_append] at h
    obtain ⟨⟨⟨-, hphdr⟩, hsegment⟩, hreads⟩ := h
    obtain ⟨hheader, hall⟩ := ih s₁ hrest hreads
    refine ⟨hheader, fun i' hi' => ?_⟩
    rcases List.mem_cons.mp hi' with rfl | hi'
    · exact headerInFile_of_below hlength hheader hturn hphdr hsegment
    · exact hall i' hi'

theorem accepted_iff : image.ehdr.Accepted ↔ image 0 = 0x7f ∧ image 1 = 0x45 ∧ image 2 = 0x4c ∧
    image 3 = 0x46 ∧ image 4 = 2 ∧ image.half 16 = 2 := by
  simp only [Elf64Ehdr.Accepted, Image.ehdr, List.cons.injEq, and_true, and_assoc]

/-- An accepted header is read to the end of `e_phnum`. -/
theorem headerEnd_of_accepted (h : image.ehdr.Accepted) : image.headerEnd = 58 := by
  obtain ⟨h0, h1, h2, h3, h4, h5⟩ := accepted_iff.mp h
  rw [Image.headerEnd, if_neg (not_not.mpr h0), if_neg (not_not.mpr h1), if_neg (not_not.mpr h2),
    if_neg (not_not.mpr h3), if_neg (not_not.mpr h4), if_neg (not_not.mpr h5)]

/-- The checks of the header are read up to the one that fails. -/
theorem below_checkReads (hlength : length < 2 ^ 32) :
    Below length image.checkReads ↔ min image.headerEnd 18 ≤ length := by
  have htype : Below length (fieldReads 16 2) ↔ 18 ≤ length :=
    below_fieldReads hlength (by decide) (by decide)
  have hbyte : (0 : Word).toNat = 0 ∧ (1 : Word).toNat = 1 ∧ (2 : Word).toNat = 2 ∧
      (3 : Word).toNat = 3 ∧ (4 : Word).toNat = 4 := by decide
  unfold Image.checkReads Image.headerEnd
  -- one case for each check that can fail
  split_ifs <;> simp only [below_cons, below_nil, htype, hbyte, and_true] <;> omega

/-- The offsets that `elf_load` reads lie in the file, whatever the memory of the machine, when
the file contains what it describes; and for a file that is loaded only then. -/
theorem reads_lt_length_iff (v : Vmm) (pml4 : Word) (image : Image) (length : BitVec 32) :
    (InFile length.toNat image → ∀ a ∈ elfLoadReads v pml4 image, a.toNat < length.toNat) ∧
      ∀ result, elfLoad v pml4 image = .ok result →
        (∀ a ∈ elfLoadReads v pml4 image, a.toNat < length.toNat) → InFile length.toNat image := by
  have hlength := length.isLt
  constructor
  · intro h
    change Below _ _
    rw [elfLoadReads, below_append, below_checkReads hlength]
    refine ⟨(min_le_left _ _).trans h.header, ?_⟩
    split_ifs with hacc
    · have hheader := h.header
      rw [headerEnd_of_accepted hacc] at hheader
      rw [below_append]
      refine ⟨below_headersReads hlength hheader _ _ (h.programHeaders hacc), ?_⟩
      cases elfLoad v pml4 image with
      | error e => exact below_nil
      | ok result =>
        rw [below_fieldReads hlength (by decide) (by decide)]
        exact Nat.le_trans (by decide) hheader
    · exact below_nil
  · intro result hok h
    change Below _ _ at h
    rw [elfLoadReads, below_append, below_checkReads hlength] at h
    obtain ⟨hchecks, hrest⟩ := h
    by_cases hacc : image.ehdr.Accepted
    · rw [if_pos hacc, below_append] at hrest
      rw [elfLoad, if_pos hacc] at hok
      obtain ⟨s, hloop, -⟩ := Outcome.bind_eq_ok.mp hok
      obtain ⟨hheader, hall⟩ := headersInFile_of_below hlength _ _ hloop hrest.1
      exact ⟨(headerEnd_of_accepted hacc).trans_le hheader, fun _ => hall⟩
    · -- the file was rejected for a check within the first 18 bytes
      refine ⟨?_, fun hacc' => absurd hacc' hacc⟩
      have hend : image.headerEnd ≤ 18 := by
        rw [accepted_iff] at hacc
        unfold Image.headerEnd
        split_ifs <;> simp_all
      omega

end Below

/-- A file that ends behind the magic number. -/
def truncatedImage : Image := fun off =>
  if off = 0 then 0x7f else if off = 1 then 0x45 else if off = 2 then 0x4c
  else if off = 3 then 0x46 else 0

/-- Of four bytes the loader reads a fifth. -/
theorem not_reads_lt_length : ¬ ∀ (v : Vmm) (pml4 : Word) (image : Image) (length : BitVec 32),
    ∀ a ∈ elfLoadReads v pml4 image, a.toNat < length.toNat := by
  intro h
  have hread : (4 : Word) ∈ truncatedImage.checkReads := by decide
  have hlt := h ⟨⟨fun _ => 0, 0, 0, 0⟩, fun _ => 0, 0, 0⟩ 0 truncatedImage 4 4
    (List.mem_append_left _ hread)
  exact absurd hlt (by decide)

end KyroOS.Elf

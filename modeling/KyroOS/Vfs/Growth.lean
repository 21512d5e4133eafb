import KyroOS.Vfs.Content

/-!
# The growth of a file

`kyrofs_write` compares the end of a write with the capacity in 64 bits, and keeps twice that end
as the new capacity in 32 bits. The buffer is long enough exactly for the ends that survive both.

## Main definitions

* `Allocated` — the buffer is as long as the capacity says
* `newCap`, `kmallocFor` — the size of a new buffer, and what `kmalloc` returns for it
* `GrowsExactly` — a write stays within the buffer and keeps exact books
* `EndFits` — the ends for which it does

## Main results

* `growsExactly_iff` — a write grows a file exactly when its end fits
* `not_growsExactly` — a write of `2^31 + 1` bytes
* `allocated_of_reachable` — the files that small writes lead to have the buffers they say
-/

namespace KyroOS.Vfs

open Splice Transition

/-! ### Files and blocks -/

/-- A file whose buffer, when there is one, has `capacity` bytes. -/
structure Allocated (file : FileContent) : Prop where
  size_le : file.size.toNat ≤ file.capacity.toNat
  buffer : ∀ bytes, file.content = some bytes → bytes.length = file.capacity.toNat

/-- `new_cap` -/
def newCap (offset : Word) (data : List Byte) : BitVec 32 :=
  ((offset + (BitVec.ofNat 32 data.length).setWidth 64) * 2).setWidth 32

/-- What `kmalloc` returns for a number of bytes, where `room` is the block it has, if any: no
bytes are never allocated. -/
def kmallocFor (room : Option (ℕ → Byte)) (nbytes : BitVec 32) : Option (ℕ → Byte) :=
  if nbytes = 0 then none else room

/-- The kernel stops before the file changes, or writes within the buffer and counts without
wrapping around. -/
def GrowsExactly (node : Dirent) (offset : Word) (data : List Byte)
    (block : Option (ℕ → Byte)) : Prop :=
  (∃ message, kyrofsWrite node offset data block = .error (.panic message)) ∨
  ∃ node' file file', kyrofsWrite node offset data block =
      .ok (node', BitVec.ofNat 32 data.length) ∧
    node.ptr = .content file ∧ node'.ptr = .content file' ∧
    offset.toNat + data.length ≤ file'.capacity.toNat ∧
    file'.size.toNat = max file.size.toNat (offset.toNat + data.length) ∧
    node'.length = file'.size

/-- The write ends within a capacity that has a buffer, unless there is nothing to copy; it ends
behind the capacity and below `2^31`; or the end that the code sees is behind the capacity and
`kmalloc` has no block for it. -/
def EndFits (file : FileContent) (offset : Word) (data : List Byte)
    (room : Option (ℕ → Byte)) : Prop :=
  (offset.toNat + data.length ≤ file.capacity.toNat ∧ (file.content.isSome ∨ data = [])) ∨
  (file.capacity.toNat < offset.toNat + data.length ∧ offset.toNat + data.length < 2 ^ 31) ∨
  (file.capacity.toNat < (offset.toNat + data.length) % 2 ^ 64 ∧
    (room = none ∨ (offset.toNat + data.length) % 2 ^ 31 = 0))

section Growth

variable {node : Dirent} {file : FileContent} {offset : Word} {data bytes : List Byte}
  {block room : Option (ℕ → Byte)} {off : ℕ} {cap : BitVec 32}

/-! ### Words -/

/-- The end of a write, as the code computes it. -/
theorem toNat_stop (offset : Word) (hdata : data.length < 2 ^ 32) :
    (offset + (BitVec.ofNat 32 data.length).setWidth 64).toNat =
      (offset.toNat + data.length) % 2 ^ 64 := by
  rw [BitVec.toNat_add, BitVec.toNat_setWidth, BitVec.toNat_ofNat, Nat.mod_eq_of_lt hdata,
    Nat.mod_eq_of_lt (a := data.length) (by omega)]

theorem toNat_newCap (offset : Word) (hdata : data.length < 2 ^ 32) :
    (newCap offset data).toNat = 2 * (offset.toNat + data.length) % 2 ^ 32 := by
  rw [newCap, BitVec.toNat_setWidth, BitVec.toNat_mul, toNat_stop offset hdata]
  show (offset.toNat + data.length) % 2 ^ 64 * 2 % 2 ^ 64 % 2 ^ 32 = _
  omega

/-- No block is asked for exactly when the end is a multiple of `2^31`. -/
theorem newCap_eq_zero (offset : Word) (hdata : data.length < 2 ^ 32) :
    newCap offset data = 0 ↔ (offset.toNat + data.length) % 2 ^ 31 = 0 := by
  rw [← BitVec.toNat_inj, toNat_newCap offset hdata]
  show 2 * (offset.toNat + data.length) % 2 ^ 32 = 0 ↔ _
  omega

theorem capacity_lt_stop (file : FileContent) (offset : Word) (hdata : data.length < 2 ^ 32) :
    file.capacity.setWidth 64 < offset + (BitVec.ofNat 32 data.length).setWidth 64 ↔
      file.capacity.toNat < (offset.toNat + data.length) % 2 ^ 64 := by
  have hcap := file.capacity.isLt
  rw [BitVec.lt_def, BitVec.toNat_setWidth, toNat_stop offset hdata, Nat.mod_eq_of_lt (by omega)]

/-! ### Buffers -/

/-- A copy into a buffer stays within it, or faults. -/
theorem copyIn_cases (content : Option (List Byte)) (off : ℕ) (data : List Byte) :
    (∃ content', copyIn content off data = .ok content' ∧
      (data = [] ∧ content' = content ∨
        ∃ bytes bytes', content = some bytes ∧ content' = some bytes' ∧
          bytes'.length = bytes.length ∧ off + data.length ≤ bytes.length)) ∨
    copyIn content off data = .error .fault ∧ data ≠ [] ∧
      ∀ bytes, content = some bytes → bytes.length < off + data.length := by
  cases data with
  | nil => exact .inl ⟨content, by cases content <;> rfl, .inl ⟨rfl, rfl⟩⟩
  | cons b rest =>
    cases content with
    | none => exact .inr ⟨rfl, List.cons_ne_nil _ _, fun bytes hnone => (by cases hnone)⟩
    | some bytes =>
      by_cases hroom : off + (b :: rest).length ≤ bytes.length
      · refine .inl ⟨_, if_pos hroom, .inr ⟨bytes, _, rfl, rfl, ?_, hroom⟩⟩
        simp only [List.length_append, List.length_take, List.length_drop]
        omega
      · refine .inr ⟨if_neg hroom, List.cons_ne_nil _ _, fun bytes' hsome => ?_⟩
        obtain rfl := Option.some.inj hsome
        omega

/-- A copy that comes back keeps the length of the buffer. -/
theorem length_of_copyIn {content content' : Option (List Byte)}
    (hok : copyIn content off data = .ok content') {bytes' : List Byte}
    (hbytes' : content' = some bytes') :
    ∃ bytes, content = some bytes ∧ bytes'.length = bytes.length := by
  rcases copyIn_cases content off data with ⟨c, hok', hc⟩ | ⟨hfault, -⟩
  · obtain rfl : c = content' := Except.ok.inj (hok'.symm.trans hok)
    rcases hc with ⟨-, rfl⟩ | ⟨bytes, b', hbytes, hb', hlen, -⟩
    · exact ⟨bytes', hbytes', rfl⟩
    · obtain rfl := Option.some.inj (hb'.symm.trans hbytes')
      exact ⟨bytes, hbytes, hlen⟩
  · rw [hfault] at hok
    cases hok

/-- A new buffer has its new capacity, and takes the old text if it is long enough. -/
theorem grow_cases (hfile : Allocated file) (cap : BitVec 32) (junk : ℕ → Byte) :
    (∃ bytes', file.grow cap (some junk) =
        .ok { file with content := some bytes', capacity := cap } ∧
      bytes'.length = cap.toNat) ∨
    file.grow cap (some junk) = .error .fault ∧ cap.toNat < file.size.toNat := by
  have hfresh : ((List.range cap.toNat).map junk).length = cap.toNat := by
    rw [List.length_map, List.length_range]
  cases hcontent : file.content with
  | none =>
    refine .inl ⟨_, ?_, hfresh⟩
    rw [FileContent.grow, hcontent]
  | some bytes =>
    have hbytes := hfile.buffer bytes hcontent
    have hle := hfile.size_le
    have hcopy : file.grow cap (some junk) = (do
        let content ← copyIn (some ((List.range cap.toNat).map junk)) 0
          (bytes.take file.size.toNat)
        .ok { file with content, capacity := cap }) := by
      rw [FileContent.grow, hcontent]
      dsimp only
      rw [copyOut_eq (by omega), List.drop_zero]
      rfl
    have hold : (bytes.take file.size.toNat).length = file.size.toNat := by
      rw [List.length_take]
      omega
    by_cases hroom : file.size.toNat ≤ cap.toNat
    · rw [copyIn_eq_splice (f := junk) (by omega)] at hcopy
      refine .inl ⟨_, hcopy, ?_⟩
      rw [length_splice]
      omega
    · refine .inr ⟨?_, by omega⟩
      rcases copyIn_cases (some ((List.range cap.toNat).map junk)) 0
        (bytes.take file.size.toNat) with ⟨content', -, hnil | ⟨b, b', hb, -, -, hlen⟩⟩ | ⟨hfault, -⟩
      · rw [hnil.1, List.length_nil] at hold
        omega
      · obtain rfl := Option.some.inj hb
        omega
      · rw [hcopy, hfault]
        rfl

/-! ### One write -/

/-- What `kyrofs_write` does once it has its buffer. -/
theorem kyrofsWrite_of_reserve {file₁ : FileContent} (hptr : node.ptr = .content file)
    (hreserve : file.reserve (offset + (BitVec.ofNat 32 data.length).setWidth 64) block =
      .ok file₁) :
    kyrofsWrite node offset data block = (do
      let content ← copyIn file₁.content offset.toNat data
      let newSize := if file₁.size.setWidth 64 <
          offset + (BitVec.ofNat 32 data.length).setWidth 64
        then (offset + (BitVec.ofNat 32 data.length).setWidth 64).setWidth 32 else file₁.size
      .ok ({ node with
        ptr := .content { file₁ with content, size := newSize }
        length := newSize }, BitVec.ofNat 32 data.length)) := by
  rw [kyrofsWrite, hptr]
  dsimp only
  rw [hreserve]
  rfl

/-- A write that fails to get its buffer fails so. -/
theorem kyrofsWrite_of_error {e : Halt} (hptr : node.ptr = .content file)
    (hreserve : file.reserve (offset + (BitVec.ofNat 32 data.length).setWidth 64) block =
      .error e) :
    kyrofsWrite node offset data block = .error e := by
  rw [kyrofsWrite, hptr]
  dsimp only
  rw [hreserve]
  rfl

/-- With a buffer for its whole range, a write below `2^32` keeps exact books. -/
theorem growsExactly_of_reserve {file₁ : FileContent} {content : Option (List Byte)}
    (hptr : node.ptr = .content file) (hdata : data.length < 2 ^ 32)
    (hreserve : file.reserve (offset + (BitVec.ofNat 32 data.length).setWidth 64) block =
      .ok file₁)
    (hsize : file₁.size = file.size)
    (hend : offset.toNat + data.length ≤ file₁.capacity.toNat)
    (hcopy : copyIn file₁.content offset.toNat data = .ok content) :
    GrowsExactly node offset data block := by
  have hcap := file₁.capacity.isLt
  have hstop := toNat_stop offset hdata
  rw [Nat.mod_eq_of_lt (by omega)] at hstop
  have hwrite := kyrofsWrite_of_reserve hptr hreserve
  rw [hcopy] at hwrite
  refine .inr ⟨_, file, _, hwrite, hptr, rfl, hend, ?_, rfl⟩
  have hlt : file₁.size.setWidth 64 < offset + (BitVec.ofNat 32 data.length).setWidth 64 ↔
      file.size.toNat < offset.toNat + data.length := by
    rw [BitVec.lt_def, BitVec.toNat_setWidth, hstop, hsize,
      Nat.mod_eq_of_lt (by have := file.size.isLt; omega)]
  dsimp only
  by_cases hext : file.size.toNat < offset.toNat + data.length
  · rw [if_pos (hlt.mpr hext), BitVec.toNat_setWidth, hstop]
    omega
  · rw [if_neg (mt hlt.mp hext), hsize]
    omega

/-- A write that does not reach its buffer's end in exact terms keeps none. -/
theorem not_growsExactly_of_reserve {file₁ : FileContent} (hptr : node.ptr = .content file)
    (hreserve : file.reserve (offset + (BitVec.ofNat 32 data.length).setWidth 64) block =
      .ok file₁)
    (hshort : file₁.capacity.toNat < offset.toNat + data.length ∨
      copyIn file₁.content offset.toNat data = .error .fault) :
    ¬ GrowsExactly node offset data block := by
  have hwrite := kyrofsWrite_of_reserve hptr hreserve
  rcases copyIn_cases file₁.content offset.toNat data with ⟨content, hcopy, -⟩ | ⟨hfault, -⟩
  · have hcap : file₁.capacity.toNat < offset.toNat + data.length := by
      refine hshort.resolve_right fun hfault => ?_
      rw [hcopy] at hfault
      cases hfault
    rw [hcopy] at hwrite
    rintro (⟨message, hpanic⟩ | ⟨node', file₀, file', hok, -, hptr', hend, -⟩)
    · rw [hpanic] at hwrite
      cases hwrite
    · obtain ⟨rfl, -⟩ := Prod.mk.inj (Except.ok.inj (hok.symm.trans hwrite))
      obtain rfl := Ptr.content.inj hptr'
      exact absurd hend (Nat.not_le.mpr hcap)
  · rw [hfault] at hwrite
    rintro (⟨message, hpanic⟩ | ⟨node', file₀, file', hok, -⟩)
    · rw [hpanic] at hwrite
      cases hwrite
    · rw [hok] at hwrite
      cases hwrite

/-- A write grows a file exactly when its end fits. -/
theorem growsExactly_iff (hptr : node.ptr = .content file) (hfile : Allocated file)
    (hdata : data.length < 2 ^ 32) :
    GrowsExactly node offset data (kmallocFor room (newCap offset data)) ↔
      EndFits file offset data room := by
  have hcapLt := file.capacity.isLt
  have hoffset := offset.isLt
  by_cases hgrow : file.capacity.toNat < (offset.toNat + data.length) % 2 ^ 64
  · have hreserve : file.reserve (offset + (BitVec.ofNat 32 data.length).setWidth 64)
        (kmallocFor room (newCap offset data)) =
        file.grow (newCap offset data) (kmallocFor room (newCap offset data)) :=
      if_pos ((capacity_lt_stop file offset hdata).mpr hgrow)
    cases hblock : kmallocFor room (newCap offset data) with
    | none =>
      -- the kernel panics, and it was no block that `kmalloc` had
      rw [hblock] at hreserve
      refine iff_of_true (.inl ⟨_, kyrofsWrite_of_error hptr (hreserve.trans rfl)⟩)
        (.inr (.inr ⟨hgrow, ?_⟩))
      rw [kmallocFor] at hblock
      split_ifs at hblock with hzero
      · exact .inr ((newCap_eq_zero offset hdata).mp hzero)
      · exact .inl hblock
    | some junk =>
      have hnot : ¬ (room = none ∨ (offset.toNat + data.length) % 2 ^ 31 = 0) := by
        rw [← newCap_eq_zero offset hdata]
        rw [kmallocFor] at hblock
        split_ifs at hblock with hzero
        rintro (rfl | hzero')
        · cases hblock
        · exact hzero hzero'
      have hcap := toNat_newCap offset hdata
      rw [hblock] at hreserve
      by_cases hsmall : offset.toNat + data.length < 2 ^ 31
      · refine iff_of_true ?_ (.inr (.inl ⟨by omega, hsmall⟩))
        have hsize := hfile.size_le
        rcases grow_cases hfile (newCap offset data) junk with ⟨bytes', hok, hlen⟩ | ⟨-, hlt⟩
        · rw [hok] at hreserve
          rcases copyIn_cases (some bytes') offset.toNat data with ⟨content, hcopy, -⟩ | ⟨-, -, hno⟩
          · exact growsExactly_of_reserve hptr hdata hreserve rfl (by dsimp only; omega) hcopy
          · have := hno bytes' rfl
            omega
        · omega
      · refine iff_of_false ?_ ?_
        · rcases grow_cases hfile (newCap offset data) junk with ⟨bytes', hok, -⟩ | ⟨hfault, -⟩
          · rw [hok] at hreserve
            exact not_growsExactly_of_reserve hptr hreserve (.inl (by dsimp only; omega))
          · have hwrite := kyrofsWrite_of_error hptr (hreserve.trans hfault)
            rintro (⟨message, hpanic⟩ | ⟨node', file₀, file', hok, -⟩)
            · rw [hpanic] at hwrite
              cases hwrite
            · rw [hok] at hwrite
              cases hwrite
        · rintro (⟨hle, -⟩ | ⟨-, hlt⟩ | ⟨-, hnone⟩)
          · omega
          · exact hsmall hlt
          · exact hnot hnone
  · have hreserve : file.reserve (offset + (BitVec.ofNat 32 data.length).setWidth 64)
        (kmallocFor room (newCap offset data)) = .ok file :=
      if_neg (mt (capacity_lt_stop file offset hdata).mp hgrow)
    rcases copyIn_cases file.content offset.toNat data with
      ⟨content, hcopy, hnil | ⟨bytes, -, hbytes, -, -, hroom⟩⟩ | ⟨hfault, hne, hno⟩
    · have hend : offset.toNat + data.length ≤ file.capacity.toNat := by
        rw [hnil.1, List.length_nil] at hgrow ⊢
        omega
      exact iff_of_true (growsExactly_of_reserve hptr hdata hreserve rfl hend hcopy)
        (.inl ⟨hend, .inr hnil.1⟩)
    · have hend : offset.toNat + data.length ≤ file.capacity.toNat :=
        hfile.buffer bytes hbytes ▸ hroom
      exact iff_of_true (growsExactly_of_reserve hptr hdata hreserve rfl hend hcopy)
        (.inl ⟨hend, .inl (by rw [hbytes]; rfl)⟩)
    · refine iff_of_false (not_growsExactly_of_reserve hptr hreserve (.inr hfault)) ?_
      rintro (⟨hle, hsome | hnil⟩ | ⟨hlt, hsmall⟩ | ⟨hlt, -⟩)
      · obtain ⟨bytes, hbytes⟩ := Option.isSome_iff_exists.mp hsome
        have hshort := hno bytes hbytes
        rw [hfile.buffer bytes hbytes] at hshort
        omega
      · exact hne hnil
      · omega
      · exact hgrow hlt

/-! ### Files in runs -/

/-- A small write gets a buffer for its range that is as long as its capacity says. -/
theorem Allocated.reserve {file₁ : FileContent} (hfile : Allocated file)
    (hsmall : Small offset.toNat data.length)
    (hok : file.reserve (offset + (BitVec.ofNat 32 data.length).setWidth 64) block = .ok file₁) :
    Allocated file₁ ∧ file₁.size = file.size ∧
      offset.toNat + data.length ≤ file₁.capacity.toNat := by
  unfold Small at hsmall
  have hdata : data.length < 2 ^ 32 := by omega
  have hsize := hfile.size_le
  have hstop := capacity_lt_stop file offset hdata
  rw [Nat.mod_eq_of_lt (by omega)] at hstop
  rw [FileContent.reserve] at hok
  split_ifs at hok with hgrow
  · have hlt := hstop.mp hgrow
    have hcap := toNat_newCap offset hdata
    cases block with
    | none => cases hok
    | some junk =>
      rcases grow_cases hfile (newCap offset data) junk with ⟨bytes', hgrown, hlen⟩ | ⟨hfault, -⟩
      · obtain rfl := Except.ok.inj (hgrown.symm.trans hok)
        refine ⟨⟨by dsimp only; omega, fun bytes hbytes => ?_⟩, rfl, by dsimp only; omega⟩
        obtain rfl := Option.some.inj hbytes
        exact hlen
      · cases hfault.symm.trans hok
  · obtain rfl := Except.ok.inj hok
    exact ⟨hfile, rfl, Nat.not_lt.mp (mt hstop.mpr hgrow)⟩

/-- A small write leaves a buffer as long as its capacity says. -/
theorem Allocated.write {res : Dirent × BitVec 32} (hptr : node.ptr = .content file)
    (hfile : Allocated file) (hsmall : Small offset.toNat data.length)
    (hok : kyrofsWrite node offset data block = .ok res) :
    ∃ file', res.1.ptr = .content file' ∧ Allocated file' := by
  cases hreserve : file.reserve (offset + (BitVec.ofNat 32 data.length).setWidth 64) block with
  | error e =>
    rw [kyrofsWrite_of_error hptr hreserve] at hok
    cases hok
  | ok file₁ =>
    obtain ⟨halloc, -, hend⟩ := hfile.reserve hsmall hreserve
    have hsize := halloc.size_le
    rw [kyrofsWrite_of_reserve hptr hreserve] at hok
    obtain ⟨content, hcopy, hok⟩ := Outcome.bind_eq_ok.mp hok
    obtain rfl := Except.ok.inj hok
    refine ⟨_, rfl, ?_, fun bytes hbytes => ?_⟩
    · dsimp only
      split_ifs
      · rw [BitVec.toNat_setWidth, hsmall.toNat_stop, Nat.mod_eq_of_lt]
        · exact hend
        · unfold Small at hsmall
          omega
      · exact hsize
    · obtain ⟨bytes₁, hbytes₁, hlen⟩ := length_of_copyIn hcopy hbytes
      exact hlen.trans (halloc.buffer bytes₁ hbytes₁)

end Growth

/-- The files that opens, reads and small writes lead to have the buffers they say. -/
theorem allocated_of_reachable {s : FileState} (h : fileSystem.Reachable s) :
    ∃ file, s.node.ptr = .content file ∧ Allocated file := by
  refine h.invariant (I := fun s => ∃ file, s.node.ptr = .content file ∧ Allocated file) ?_ ?_
  · rintro s ⟨hfile, hlength, -, new, hptr⟩
    obtain ⟨file, bytes, hholds⟩ := holds_init hfile hlength hptr
    rw [newPtr, if_pos (of_decide_eq_true hfile)] at hptr
    split_ifs at hptr with hcontent
    cases hbuffer : new.buffer with
    | none =>
      rw [hbuffer] at hptr
      cases hptr
    | some junk =>
      rw [hbuffer] at hptr
      refine ⟨_, (Except.ok.inj hptr).symm, Nat.zero_le _, fun bytes hbytes => ?_⟩
      obtain rfl := Option.some.inj hbytes
      rw [List.length_map, List.length_range]
      rfl
  · rintro s e t ⟨file, hptr, halloc⟩ - hstep
    cases hstep with
    | @«open» node node' text flags hok =>
      rw [kyrofsOpen] at hok
      split_ifs at hok
      · rw [hptr] at hok
        obtain rfl := Except.ok.inj hok
        exact ⟨_, rfl, Nat.zero_le _, fun bytes hnone => (by cases hnone)⟩
      · obtain rfl := Except.ok.inj hok
        exact ⟨file, hptr, halloc⟩
    | write hsmall hok => exact halloc.write hptr hsmall hok
    | read hsmall hok => exact ⟨file, hptr, halloc⟩

/-! ### Writes to a new file -/

theorem emptyFile_allocated : Allocated ⟨some ((List.range 128).map fun _ => 0xFF), 0, 128⟩ where
  size_le := Nat.zero_le _
  buffer := fun bytes hbytes => by
    obtain rfl := Option.some.inj hbytes
    rw [List.length_map, List.length_range]
    rfl

/-- Two bytes at offset 200 grow the file. -/
theorem growsExactly_emptyFile :
    GrowsExactly emptyFile 200 [1, 2] (kmallocFor (some fun _ => 0) (newCap 200 [1, 2])) :=
  (growsExactly_iff rfl emptyFile_allocated (by decide)).mpr (.inr (.inl (by decide)))

/-- For `2^31 + 1` bytes, a buffer of two bytes is allocated. -/
theorem not_growsExactly : ¬ ∀ node file offset data room,
    node.ptr = .content file → Allocated file → data.length < 2 ^ 32 →
      GrowsExactly node offset data (kmallocFor room (newCap offset data)) := by
  intro hall
  obtain ⟨data, hdata⟩ : ∃ data : List Byte, data.length = 2 ^ 31 + 1 :=
    ⟨List.replicate (2 ^ 31 + 1) 0, List.length_replicate⟩
  have hlen : data.length < 2 ^ 32 := by omega
  have hgrows := hall emptyFile _ 0 data (some fun _ => 0) rfl emptyFile_allocated hlen
  have hzero : (0 : Word).toNat = 0 := rfl
  have hcap : (128 : BitVec 32).toNat = 128 := rfl
  rcases (growsExactly_iff rfl emptyFile_allocated hlen).mp hgrows with
    ⟨hle, -⟩ | ⟨-, hlt⟩ | ⟨-, hnone | hmod⟩
  · dsimp only at hle
    omega
  · omega
  · cases hnone
  · omega

end KyroOS.Vfs

import KyroOS.Lib.Splice
import KyroOS.Lib.Transition
import KyroOS.Vfs.Kyrofs

/-!
# The content of a file

A regular file stands for a byte string, which its opens, writes and reads are compared with. A
descriptor only chooses the offset of its reads and writes, so they are taken at any offset.

## Main definitions

* `textAfter` — the effect of an event on the string
* `FileState`, `fileSystem` — the runs of one file beside its string
* `Faithful` — every read returns the string, the buffer is there, and every write comes back
* `FillsGaps` — no open truncates, and a gap is found filled with zeros

## Main results

* `faithful_of_reachable` — the file is faithful as long as its events fill gaps, and the first
  event that does not ends it
* `not_faithful` — a truncated file has no buffer
-/

namespace KyroOS.Vfs

open Splice Transition

/-! ### The string -/

/-- An open, a write or a read of a file; a write comes with the bytes of the block `kmalloc`
returns in it. -/
inductive FileEvent
  | open (flags : BitVec 32)
  | write (offset : Word) (data : List Byte) (block : Option (ℕ → Byte))
  | read (offset : Word) (size : BitVec 32)

/-- The string after an event. -/
def textAfter (text : List Byte) : FileEvent → List Byte
  | .open flags => if flags &&& oTrunc ≠ 0 then [] else text
  | .write offset data _ => splice (fun _ => 0) text offset.toNat data
  | .read _ _ => text

/-- A file and the string it stands for. -/
structure FileState where
  node : Dirent
  text : List Byte

/-- The offset and the size of a request stay below `2^31`. -/
def Small (offset size : ℕ) : Prop := offset + size < 2 ^ 31

instance (offset size : ℕ) : Decidable (Small offset size) := Nat.decLt _ _

/-- One step. -/
inductive FileStep : FileState → FileEvent → FileState → Prop
  | open {node node' : Dirent} {text : List Byte} {flags : BitVec 32}
    (hok : kyrofsOpen node flags = .ok node') :
    FileStep ⟨node, text⟩ (.open flags) ⟨node', textAfter text (.open flags)⟩
  | write {node node' : Dirent} {text data : List Byte} {offset : Word} {size : BitVec 32}
    {block : Option (ℕ → Byte)} (hsmall : Small offset.toNat data.length)
    (hok : kyrofsWrite node offset data block = .ok (node', size)) :
    FileStep ⟨node, text⟩ (.write offset data block)
      ⟨node', textAfter text (.write offset data block)⟩
  | read {node : Dirent} {text bytes : List Byte} {offset : Word} {size : BitVec 32}
    (hsmall : Small offset.toNat size.toNat) (hok : kyrofsRead node offset size = .ok bytes) :
    FileStep ⟨node, text⟩ (.read offset size) ⟨node, textAfter text (.read offset size)⟩

/-- The runs of a file from its creation on. -/
def fileSystem : System FileState FileEvent where
  init := fun s => s.node.has vfsFile ∧ s.node.length = 0 ∧ s.text = [] ∧
    ∃ new, newPtr new s.node.flags = .ok s.node.ptr
  step := FileStep

/-- Every read returns the string, the buffer is there when there is a capacity, and every write
comes back. -/
structure Faithful (s : FileState) : Prop where
  read : ∀ (offset : Word) (size : BitVec 32), Small offset.toNat size.toNat →
    kyrofsRead s.node offset size = .ok ((s.text.drop offset.toNat).take size.toNat)
  buffer : ∀ file, s.node.ptr = .content file → 0 < file.capacity.toNat →
    file.size.toNat ≤ file.capacity.toNat ∧
      ∃ bytes, file.content = some bytes ∧ file.capacity.toNat ≤ bytes.length
  write : ∀ (offset : Word) (data : List Byte) (block : ℕ → Byte),
    Small offset.toNat data.length → ∃ r, kyrofsWrite s.node offset data (some block) = .ok r

/-- The byte behind the end of the file that the buffer of a write up to `stop` has at `i`. -/
def gapByte (file : FileContent) (stop : ℕ) (block : Option (ℕ → Byte)) (i : ℕ) : Byte :=
  if file.capacity.toNat < stop then block.elim 0 (· i) else file.content.elim 0 (·.getD i 0)

/-- No open truncates the file, and a write that starts behind the end finds zeros there. -/
def FillsGaps (s : FileState) : FileEvent → Prop
  | .open flags => flags &&& oTrunc = 0
  | .write offset data block => ∀ file, s.node.ptr = .content file →
      ∀ i, file.size.toNat ≤ i → i < offset.toNat →
        gapByte file (offset.toNat + data.length) block i = 0
  | .read _ _ => True

/-! ### The buffer -/

/-- The file holds `text` at the start of a buffer of at least its capacity. -/
structure Holds (node : Dirent) (text : List Byte) (file : FileContent) (bytes : List Byte) :
    Prop where
  isFile : node.has vfsFile
  ptr : node.ptr = .content file
  content : file.content = some bytes
  capacity_pos : 0 < file.capacity.toNat
  capacity_le : file.capacity.toNat ≤ bytes.length
  size_le : file.size.toNat ≤ file.capacity.toNat
  size_lt : file.size.toNat < 2 ^ 31
  text_eq : text = bytes.take file.size.toNat
  length_eq : node.length = file.size

section Buffer

variable {node : Dirent} {text bytes data : List Byte} {file : FileContent} {offset : Word}
  {size : BitVec 32} {block : Option (ℕ → Byte)} {f : ℕ → Byte} {off : ℕ}

theorem copyIn_eq_splice (h : off + data.length ≤ bytes.length) :
    copyIn (some bytes) off data = .ok (some (splice f bytes off data)) := by
  rw [splice_of_le (by omega)]
  cases data with
  | nil => simp [copyIn]
  | cons b rest => exact if_pos h

theorem copyOut_eq (h : off + n ≤ bytes.length) :
    copyOut bytes off n = .ok ((bytes.drop off).take n) := if_pos h

theorem Holds.length_text (h : Holds node text file bytes) : text.length = file.size.toNat := by
  have hle := h.size_le
  have hcap := h.capacity_le
  rw [h.text_eq, List.length_take]
  omega

/-- The sum of an offset and a size does not wrap around. -/
theorem Small.toNat_add {m : BitVec 32} (h : Small offset.toNat m.toNat) :
    (offset + m.setWidth 64).toNat = offset.toNat + m.toNat := by
  unfold Small at h
  rw [BitVec.toNat_add, BitVec.toNat_setWidth]
  omega

/-- A file reads what its buffer holds. -/
theorem Holds.read (h : Holds node text file bytes) (hsmall : Small offset.toNat size.toNat) :
    kyrofsRead node offset size = .ok ((text.drop offset.toNat).take size.toNat) := by
  have hlen := h.length_text
  have hle := h.size_le
  have hcap := h.capacity_le
  have hlt := h.size_lt
  have hsize : (file.size.setWidth 64).toNat = file.size.toNat := by
    rw [BitVec.toNat_setWidth]
    omega
  rw [kyrofsRead, h.ptr]
  dsimp only
  rw [h.content]
  dsimp only
  by_cases hend : file.size.setWidth 64 ≤ offset
  · have hend' : file.size.toNat ≤ offset.toNat := by
      rw [BitVec.le_def, hsize] at hend
      exact hend
    rw [if_pos hend, List.drop_eq_nil_of_le (by omega), List.take_nil]
  · have hbefore : offset.toNat < file.size.toNat := by
      rw [BitVec.le_def, hsize] at hend
      omega
    rw [if_neg hend]
    split_ifs with hmore
    · have hmore' : file.size.toNat < offset.toNat + size.toNat := by
        rw [BitVec.lt_def, hsize, hsmall.toNat_add] at hmore
        exact hmore
      have hrest : ((file.size.setWidth 64 - offset).setWidth 32).toNat =
          file.size.toNat - offset.toNat := by
        rw [BitVec.toNat_setWidth, BitVec.toNat_sub_of_le, hsize]
        · omega
        · rw [BitVec.le_def, hsize]
          omega
      rw [hrest, copyOut_eq (by omega), h.text_eq, List.drop_take, List.take_take,
        Nat.min_eq_right (by omega)]
    · have hmore' : offset.toNat + size.toNat ≤ file.size.toNat := by
        rw [BitVec.lt_def, hsize, hsmall.toNat_add] at hmore
        omega
      rw [copyOut_eq (by omega), h.text_eq, List.drop_take, List.take_take,
        Nat.min_eq_left (by omega)]

/-- A write gets a buffer with room up to `stop`, which starts with the old text and has the
bytes of the gap behind it. -/
theorem Holds.reserve {wide : Word} (h : Holds node text file bytes) (hstop : wide.toNat < 2 ^ 31)
    (hblock : file.capacity.toNat < wide.toNat → block.isSome) : ∃ buf cap,
      file.reserve wide block = .ok { file with content := some buf, capacity := cap } ∧
      wide.toNat ≤ cap.toNat ∧ file.capacity.toNat ≤ cap.toNat ∧ cap.toNat ≤ buf.length ∧
      buf.take file.size.toNat = text ∧ ∀ i, file.size.toNat ≤ i → i < wide.toNat →
        buf[i]? = some (gapByte file wide.toNat block i) := by
  have hlen := h.length_text
  have hle := h.size_le
  have hcap := h.capacity_le
  have hgrow_iff : file.capacity.setWidth 64 < wide ↔ file.capacity.toNat < wide.toNat := by
    rw [BitVec.lt_def, BitVec.toNat_setWidth, Nat.mod_eq_of_lt (by omega)]
  rw [FileContent.reserve]
  by_cases hgrow : file.capacity.toNat < wide.toNat
  · obtain ⟨junk, rfl⟩ := Option.isSome_iff_exists.mp (hblock hgrow)
    have hnewCap : ((wide * 2).setWidth 32).toNat = 2 * wide.toNat := by
      rw [BitVec.toNat_setWidth, BitVec.toNat_mul]
      show wide.toNat * 2 % 2 ^ 64 % 2 ^ 32 = 2 * wide.toNat
      omega
    have hcopy : file.grow ((wide * 2).setWidth 32) (some junk) =
        .ok { file with
          content := some (splice junk ((List.range (2 * wide.toNat)).map junk) 0 text)
          capacity := (wide * 2).setWidth 32 } := by
      rw [FileContent.grow, h.content]
      dsimp only
      rw [copyOut_eq (by omega), List.drop_zero, hnewCap, ← h.text_eq]
      show (copyIn _ 0 text >>= _) = _
      rw [copyIn_eq_splice (by rw [List.length_map, List.length_range]; omega)]
      rfl
    rw [if_pos (hgrow_iff.mpr hgrow)]
    refine ⟨_, _, hcopy, by omega, by omega, ?_, ?_, ?_⟩
    · rw [length_splice, List.length_map, List.length_range]
      omega
    · rw [splice_of_le (Nat.zero_le _), List.take_zero, List.nil_append]
      exact List.take_left' hlen
    · intro i hi hlt
      rw [getElem?_splice, if_neg (by omega), if_neg (by omega), List.getElem?_map,
        List.getElem?_range (by omega), gapByte, if_pos hgrow]
      rfl
  · rw [if_neg (mt hgrow_iff.mp hgrow)]
    refine ⟨bytes, file.capacity, ?_, by omega, le_rfl, hcap, h.text_eq.symm, ?_⟩
    · rw [← h.content]
    · intro i hi hlt
      rw [gapByte, if_neg hgrow, h.content]
      show bytes[i]? = some (bytes.getD i 0)
      rw [List.getD_eq_getElem?_getD, List.getElem?_eq_getElem (by omega)]
      rfl

/-- The end of a small write does not wrap around. -/
theorem Small.toNat_stop (hsmall : Small offset.toNat data.length) :
    (offset + (BitVec.ofNat 32 data.length).setWidth 64).toNat = offset.toNat + data.length := by
  have hdata : (BitVec.ofNat 32 data.length).toNat = data.length :=
    BitVec.toNat_ofNat .. ▸ Nat.mod_eq_of_lt (by unfold Small at hsmall; omega)
  rw [Small.toNat_add (by rwa [hdata]), hdata]

/-- A write goes to its buffer, and the gap keeps the bytes the buffer has there. -/
theorem Holds.write (h : Holds node text file bytes) (hsmall : Small offset.toNat data.length)
    (block : Option (ℕ → Byte))
    (hblock : file.capacity.toNat < offset.toNat + data.length → block.isSome) :
    ∃ node' file' bytes',
      kyrofsWrite node offset data block = .ok (node', BitVec.ofNat 32 data.length) ∧
      Holds node' (splice (gapByte file (offset.toNat + data.length) block) text offset.toNat data)
        file' bytes' := by
  have hlen := h.length_text
  have hle := h.size_le
  have hpos := h.capacity_pos
  have hlt := h.size_lt
  obtain ⟨wide, hwide⟩ : ∃ wide, wide = offset + (BitVec.ofNat 32 data.length).setWidth 64 :=
    ⟨_, rfl⟩
  have hstop : wide.toNat = offset.toNat + data.length := by rw [hwide, hsmall.toNat_stop]
  have hbound : wide.toNat < 2 ^ 31 := hstop ▸ hsmall
  rw [← hstop] at hblock ⊢
  obtain ⟨buf, cap, hreserve, hwide_cap, hcap_le, hcap_buf, htext, hgap⟩ :=
    h.reserve hbound hblock
  have hroom : offset.toNat + data.length ≤ buf.length := by omega
  obtain ⟨size, hsize⟩ : ∃ size : BitVec 32,
      size = if file.size.setWidth 64 < wide then wide.setWidth 32 else file.size := ⟨_, rfl⟩
  have hsize_nat : size.toNat = max file.size.toNat (offset.toNat + data.length) := by
    have hiff : file.size.setWidth 64 < wide ↔ file.size.toNat < wide.toNat := by
      rw [BitVec.lt_def, BitVec.toNat_setWidth, Nat.mod_eq_of_lt (by omega)]
    rw [hsize]
    by_cases hext : file.size.toNat < wide.toNat
    · rw [if_pos (hiff.mpr hext), BitVec.toNat_setWidth]
      omega
    · rw [if_neg (mt hiff.mp hext)]
      omega
  refine ⟨{ node with
      ptr := .content ⟨some (splice (gapByte file wide.toNat block) buf offset.toNat data),
        size, cap⟩
      length := size }, _, _, ?_, ⟨h.isFile, rfl, rfl, ?_, ?_, ?_, ?_, ?_, rfl⟩⟩
  · rw [kyrofsWrite, h.ptr]
    dsimp only
    rw [← hwide, hreserve]
    show (copyIn (some buf) offset.toNat data >>= _) = _
    rw [copyIn_eq_splice (f := gapByte file wide.toNat block) hroom, hsize]
    rfl
  · show 0 < cap.toNat
    omega
  · show cap.toNat ≤ _
    rw [length_splice]
    omega
  · show size.toNat ≤ cap.toNat
    omega
  · show size.toNat < _
    omega
  · show _ = List.take size.toNat _
    rw [hsize_nat, take_splice_of_le (by omega) hroom, htext]
    intro i hi hi'
    exact hgap i hi (by omega)

/-- A write that came back got a block where it needed one. -/
theorem Holds.block_of_write (h : Holds node text file bytes)
    (hsmall : Small offset.toNat data.length) {r : Dirent × BitVec 32}
    (hok : kyrofsWrite node offset data block = .ok r) :
    file.capacity.toNat < offset.toNat + data.length → block.isSome := by
  intro hgrow
  have hwide : file.capacity.setWidth 64 <
      offset + (BitVec.ofNat 32 data.length).setWidth 64 := by
    rw [BitVec.lt_def, hsmall.toNat_stop, BitVec.toNat_setWidth, Nat.mod_eq_of_lt (by omega)]
    exact hgrow
  cases block with
  | none =>
    rw [kyrofsWrite, h.ptr] at hok
    dsimp only at hok
    rw [FileContent.reserve, if_pos hwide, FileContent.grow] at hok
    cases hok
  | some junk => rfl

/-- A new file is empty. -/
theorem holds_init {new : NewNode} (hfile : node.has vfsFile) (hlength : node.length = 0)
    (hptr : newPtr new node.flags = .ok node.ptr) : ∃ file bytes, Holds node [] file bytes := by
  have hflag : node.flags &&& vfsFile ≠ 0 := of_decide_eq_true hfile
  rw [newPtr, if_pos hflag] at hptr
  split_ifs at hptr with hcontent
  cases hbuffer : new.buffer with
  | none =>
    rw [hbuffer] at hptr
    cases hptr
  | some junk =>
    rw [hbuffer] at hptr
    have hptr' := (Except.ok.inj hptr).symm
    refine ⟨⟨some ((List.range 128).map junk), 0, 128⟩, _, hfile, hptr', rfl, ?_, ?_, ?_, ?_, rfl,
      hlength⟩
    · exact Nat.zero_lt_succ _
    · simp
    · exact Nat.zero_le _
    · exact Nat.two_pow_pos 31

end Buffer

/-! ### Runs of a file -/

section Runs

variable {s t : FileState} {e : FileEvent} {file : FileContent} {bytes : List Byte}

/-- What the reads of a file determine. -/
theorem Holds.text_eq_of_read {node : Dirent} {text text' : List Byte}
    (h : Holds node text file bytes) (htext' : text'.length < 2 ^ 31)
    (hread : ∀ (offset : Word) (size : BitVec 32), Small offset.toNat size.toNat →
      kyrofsRead node offset size = .ok ((text'.drop offset.toNat).take size.toNat)) :
    text = text' := by
  have hlen := h.length_text
  have hlt := h.size_lt
  have hall : Small (0 : Word).toNat (BitVec.ofNat 32 (2 ^ 31 - 1)).toNat := by decide
  have heq := Except.ok.inj ((h.read hall).symm.trans (hread _ _ hall))
  rw [show (0 : Word).toNat = 0 from rfl, List.drop_zero, List.drop_zero,
    show (BitVec.ofNat 32 (2 ^ 31 - 1)).toNat = 2 ^ 31 - 1 from rfl,
    List.take_of_length_le (by omega), List.take_of_length_le (by omega)] at heq
  exact heq

theorem Holds.faithful (h : Holds s.node s.text file bytes) : Faithful s where
  read := fun _ _ hsmall => h.read hsmall
  buffer := by
    intro file' hfile' _
    obtain rfl : file = file' := Ptr.content.inj (h.ptr.symm.trans hfile')
    exact ⟨h.size_le, bytes, h.content, h.capacity_le⟩
  write := fun _ _ block hsmall => by
    obtain ⟨node', file', bytes', hok, -⟩ := h.write hsmall (some block) fun _ => rfl
    exact ⟨_, hok⟩

/-- The step lemma: an event that fills gaps keeps the text, and one that does not loses it. -/
theorem Holds.step (h : Holds s.node s.text file bytes) (hstep : FileStep s e t) :
    (FillsGaps s e → ∃ file' bytes', Holds t.node t.text file' bytes') ∧
      (Faithful t → FillsGaps s e) := by
  cases hstep with
  | @«open» node node' text flags hok =>
    rw [kyrofsOpen] at hok
    by_cases htrunc : flags &&& oTrunc = 0
    · rw [if_neg (fun hboth => hboth.2 htrunc)] at hok
      obtain rfl := Except.ok.inj hok
      refine ⟨fun _ => ⟨file, bytes, ?_⟩, fun _ => htrunc⟩
      show Holds node (if flags &&& oTrunc ≠ 0 then [] else text) file bytes
      rw [if_neg (not_not.mpr htrunc)]
      exact h
    · rw [if_pos ⟨h.isFile, htrunc⟩, h.ptr] at hok
      obtain rfl := Except.ok.inj hok
      refine ⟨fun hfills => absurd hfills htrunc, fun hfaithful => ?_⟩
      -- the buffer is gone, and the capacity is left
      obtain ⟨-, bytes', hnone, -⟩ := hfaithful.buffer _ rfl h.capacity_pos
      cases hnone
  | @write node node' text data offset size block hsmall hok =>
    obtain ⟨node'', file', bytes', hok', hholds⟩ := h.write hsmall block (h.block_of_write hsmall hok)
    obtain ⟨rfl, rfl⟩ := Prod.mk.inj (Except.ok.inj (hok'.symm.trans hok))
    have hiff : splice (gapByte file (offset.toNat + data.length) block) text offset.toNat data =
        splice (fun _ => 0) text offset.toNat data ↔ _ := splice_eq_splice_iff
    rw [h.length_text] at hiff
    constructor
    · intro hfills
      refine ⟨file', bytes', ?_⟩
      show Holds _ (splice (fun _ => 0) text offset.toNat data) file' bytes'
      rw [← hiff.mpr (hfills file h.ptr)]
      exact hholds
    · intro hfaithful file₁ hfile₁
      obtain rfl : file = file₁ := Ptr.content.inj (h.ptr.symm.trans hfile₁)
      refine hiff.mp (hholds.text_eq_of_read ?_ hfaithful.read)
      have hlt := h.size_lt
      have hlen : text.length = file.size.toNat := h.length_text
      unfold Small at hsmall
      show (splice (fun _ => 0) text offset.toNat data).length < _
      rw [length_splice]
      omega
  | read hsmall hok => exact ⟨fun _ => ⟨file, bytes, h⟩, fun _ => trivial⟩

/-- The run lemma. -/
theorem holds_of_reachable (h : fileSystem.ReachableUnder FillsGaps s) :
    ∃ file bytes, Holds s.node s.text file bytes := by
  refine h.invariant (I := fun s => ∃ file bytes, Holds s.node s.text file bytes) ?_ ?_
  · rintro s ⟨hfile, hlength, htext, new, hptr⟩
    rw [htext]
    exact holds_init hfile hlength hptr
  · rintro s e t ⟨file, bytes, hholds⟩ hfills hstep
    exact (hholds.step hstep).1 hfills

/-- A file is faithful to its string in every state of a run whose events fill gaps, and the first
event that does not ends it. -/
theorem faithful_of_reachable (h : fileSystem.ReachableUnder FillsGaps s) :
    Faithful s ∧ ∀ e t, fileSystem.step s e t → (Faithful t ↔ FillsGaps s e) := by
  obtain ⟨file, bytes, hholds⟩ := holds_of_reachable h
  refine ⟨hholds.faithful, fun e t hstep => ⟨(hholds.step hstep).2, fun hfills => ?_⟩⟩
  obtain ⟨file', bytes', hholds'⟩ := (hholds.step hstep).1 hfills
  exact hholds'.faithful

end Runs

/-! ### A small file -/

section Small

/-- A new file, and the file after three bytes are written to it. -/
def emptyFile : Dirent :=
  ⟨cstring ['a'], vfsFile, 0, .content ⟨some ((List.range 128).map fun _ => 0xFF), 0, 128⟩, 0⟩

theorem emptyFile_init : fileSystem.init ⟨emptyFile, []⟩ :=
  ⟨rfl, rfl, rfl, ⟨0, 1, some fun _ => 0xFF⟩, rfl⟩

/-- Three bytes are written, and read back. -/
theorem faithful_threeBytes : ∃ s : FileState, s.text = [1, 2, 3] ∧ Faithful s := by
  obtain ⟨new, hptr⟩ : ∃ new, newPtr new emptyFile.flags = .ok emptyFile.ptr :=
    ⟨⟨0, 1, some fun _ => 0xFF⟩, rfl⟩
  obtain ⟨file, bytes, hholds⟩ := holds_init rfl rfl hptr
  have hsmall : Small (0 : Word).toNat [(1 : Byte), 2, 3].length := by decide
  obtain ⟨node, -, -, hnode, -⟩ := hholds.write hsmall (some fun _ => 0) fun _ => rfl
  have hreach : fileSystem.ReachableUnder FillsGaps ⟨node, [1, 2, 3]⟩ :=
    (System.ReachableUnder.init emptyFile_init).step (a := .write 0 [1, 2, 3] (some fun _ => 0))
      (fun _ _ i _ hi => absurd hi (Nat.not_lt_zero i)) (.write hsmall hnode)
  exact ⟨_, rfl, (faithful_of_reachable hreach).1⟩

/-- An open with `O_TRUNC` leaves a capacity without a buffer. -/
theorem not_faithful : ¬ ∀ s, fileSystem.Reachable s → Faithful s := by
  intro hall
  obtain ⟨node, hnode⟩ : ∃ node, kyrofsOpen emptyFile oTrunc = .ok node := ⟨_, rfl⟩
  have hreach : fileSystem.Reachable ⟨node, []⟩ :=
    (System.ReachableUnder.init emptyFile_init).step (a := .open oTrunc) trivial (.open hnode)
  have hfaithful := hall _ hreach
  obtain rfl := Except.ok.inj hnode
  obtain ⟨-, bytes, hnone, -⟩ := hfaithful.buffer _ rfl (by decide)
  cases hnone

end Small

end KyroOS.Vfs

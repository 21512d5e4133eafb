import KyroOS.Coreutils.Calls
import KyroOS.Vfs.Growth

/-!
# The text of a file that is copied

`cp` and `mv` truncate the destination, read the source block by block and write each block at the
end of what they have written. A write that stores less than its block is taken for a success, and
the next block follows behind what was stored.

## Main definitions

* `RegularFile` — the file that a path leads to is one of `kyrofs_create`
* `Stores` — a node holds a text, in a buffer or, when the text is empty, without one
* `WritesAll` — the writes to come store their blocks whole

## Main results

* `kyrofsRead_text`, `Stores.write` — a read, and a write at the end
* `copyBytes_text` — what the loop has written when it returns 0
-/

namespace KyroOS.Coreutils

open Vfs

/-- A regular file, with the operations of one. -/
structure RegularFile (fs : Kyrofs) (n : Word) : Prop where
  flags : (fs.node n).flags = vfsFile
  ops : ¬ (fs.node n).hasDirectoryOps

/-- The node is a file that holds the text; an empty one may be without a buffer. -/
def Stores (node : Dirent) (text : List Byte) : Prop :=
  ∃ file, node.ptr = .content file ∧ file.size.toNat = text.length ∧
    (file.content.getD []).take text.length = text

/-- The size of a file. -/
def fileSize (node : Dirent) : ℕ :=
  match node.ptr with
  | .content file => file.size.toNat
  | .dirents _ => 0

/-- The writes to come store every block of a text of the given length. -/
def WritesAll (writes : ℕ → WriteCall) (length : ℕ) : Prop :=
  ∀ k, 1024 * k < length →
    ∃ stored, (writes k).stored = some stored ∧ min 1024 (length - 1024 * k) ≤ stored

/-! ### Nodes -/

section Nodes

variable {fs fs' : Kyrofs} {n : Word} {node node' : Dirent} {text data bytes : List Byte}
  {r : BitVec 32}

theorem RegularFile.same (h : RegularFile fs n) (hsame : Kyrofs.Same (fs.node n) (fs'.node n)) :
    RegularFile fs' n where
  flags := hsame.flags.trans h.flags
  ops := by
    rw [hsame.ops]
    exact h.ops

theorem Stores.text_eq (h : Stores node text) : node.text = text := by
  obtain ⟨file, hptr, hsize, htext⟩ := h
  rw [Dirent.text, hptr]
  dsimp only
  rw [hsize, htext]

/-- A file that is truncated stores nothing. -/
theorem stores_truncated {flags : BitVec 32} (hflags : node.flags = vfsFile)
    (htrunc : flags &&& oTrunc ≠ 0) (hok : kyrofsOpen node flags = .ok node') :
    Stores node' [] := by
  have hfile : node.has vfsFile := by
    rw [Dirent.has, hflags]
    decide
  rw [kyrofsOpen, if_pos ⟨hfile, htrunc⟩] at hok
  cases hptr : node.ptr with
  | dirents children =>
    rw [hptr] at hok
    cases hok
  | content file =>
    rw [hptr] at hok
    obtain rfl := Except.ok.inj hok
    exact ⟨_, rfl, rfl, rfl⟩

/-- A read returns what the text has behind its offset. -/
theorem kyrofsRead_text {offset : Word} {size : BitVec 32}
    (hfits : offset.toNat + size.toNat < 2 ^ 64) (hok : kyrofsRead node offset size = .ok bytes) :
    bytes = (node.text.drop offset.toNat).take size.toNat := by
  rw [kyrofsRead] at hok
  rw [Dirent.text]
  cases hptr : node.ptr with
  | dirents children =>
    rw [hptr] at hok
    cases hok
  | content file =>
    rw [hptr] at hok
    dsimp only at hok ⊢
    cases hcontent : file.content with
    | none =>
      rw [hcontent] at hok
      obtain rfl := Except.ok.inj hok
      simp
    | some buffer =>
      rw [hcontent] at hok
      dsimp only at hok
      rw [Option.getD_some]
      have hsize : (file.size.setWidth 64 : Word).toNat = file.size.toNat := by
        rw [BitVec.toNat_setWidth]
        exact Nat.mod_eq_of_lt (file.size.isLt.trans (by decide))
      have hstop : (offset + size.setWidth 64).toNat = offset.toNat + size.toNat := by
        rw [BitVec.toNat_add, BitVec.toNat_setWidth, Nat.mod_eq_of_lt (a := size.toNat)
          (size.isLt.trans (by decide))]
        exact Nat.mod_eq_of_lt hfits
      split_ifs at hok with hend hpart
      · obtain rfl := Except.ok.inj hok
        rw [BitVec.le_def, hsize] at hend
        rw [List.drop_eq_nil_of_le, List.take_nil]
        exact (List.length_take_le _ _).trans hend
      · rw [BitVec.le_def, hsize, not_le] at hend
        rw [BitVec.lt_def, hsize, hstop] at hpart
        have hrest : ((file.size.setWidth 64 - offset).setWidth 32).toNat =
            file.size.toNat - offset.toNat := by
          rw [BitVec.toNat_setWidth, BitVec.toNat_sub_of_le, hsize]
          · have hlt := file.size.isLt
            exact Nat.mod_eq_of_lt (by omega)
          · rw [BitVec.le_def, hsize]
            omega
        rw [hrest, copyOut] at hok
        split_ifs at hok with hbuffer
        obtain rfl := Except.ok.inj hok
        rw [List.drop_take, List.take_take]
        congr 1
        omega
      · rw [BitVec.lt_def, hsize, hstop, not_lt] at hpart
        rw [copyOut] at hok
        split_ifs at hok with hbuffer
        obtain rfl := Except.ok.inj hok
        rw [List.drop_take, List.take_take]
        congr 1
        omega

/-- A copy behind a text leaves the text and appends to it. -/
theorem copyIn_behind {content content' : Option (List Byte)}
    (htext : (content.getD []).take text.length = text)
    (hok : copyIn content text.length data = .ok content') :
    (content'.getD []).take (text ++ data).length = text ++ data := by
  cases data with
  | nil =>
    have hsame : copyIn content text.length [] = .ok content := by
      cases content <;> rfl
    obtain rfl := Except.ok.inj (hsame.symm.trans hok)
    rw [List.append_nil]
    exact htext
  | cons b rest =>
    cases content with
    | none => cases hok
    | some buffer =>
      rw [copyIn] at hok
      split_ifs at hok
      obtain rfl := Except.ok.inj hok
      rw [Option.getD_some] at htext ⊢
      rw [htext]
      exact List.take_left
      · simp

/-- The buffer of a write: the one there was, the first one, or a copy of the text. -/
theorem reserve_eq_ok {file file' : FileContent} {stop : Word} {block : Option (ℕ → Byte)}
    (hok : file.reserve stop block = .ok file') : file'.size = file.size ∧
      (file' = file ∨ file.content = none ∨ ∃ buffer fresh, file.content = some buffer ∧
        copyIn (some fresh) 0 (buffer.take file.size.toNat) = .ok file'.content) := by
  rw [FileContent.reserve] at hok
  split_ifs at hok
  · cases block with
    | none => cases hok
    | some junk =>
      rw [FileContent.grow] at hok
      cases hcontent : file.content with
      | none =>
        rw [hcontent] at hok
        obtain rfl := Except.ok.inj hok
        exact ⟨rfl, .inr (.inl rfl)⟩
      | some buffer =>
        rw [hcontent] at hok
        obtain ⟨old, hold, hcopy⟩ := Outcome.bind_eq_ok.mp hok
        obtain ⟨content, hcopyIn, hret⟩ := Outcome.bind_eq_ok.mp hcopy
        obtain rfl := Except.ok.inj hret
        rw [copyOut] at hold
        split_ifs at hold
        obtain rfl := Except.ok.inj hold
        exact ⟨rfl, .inr (.inr ⟨buffer, _, rfl, hcopyIn⟩)⟩
  · obtain rfl := Except.ok.inj hok
    exact ⟨rfl, .inl rfl⟩

/-- The buffer of a write holds the text there was. -/
theorem reserve_text {file file' : FileContent} {stop : Word} {block : Option (ℕ → Byte)}
    (hsize : file.size.toNat = text.length) (htext : (file.content.getD []).take text.length = text)
    (hok : file.reserve stop block = .ok file') :
    (file'.content.getD []).take text.length = text := by
  obtain ⟨-, rfl | hnone | ⟨buffer, fresh, hcontent, hcopy⟩⟩ := reserve_eq_ok hok
  · exact htext
  · -- there was no text
    rw [hnone, Option.getD_none, List.take_nil] at htext
    subst htext
    rfl
  · rw [hcontent, Option.getD_some] at htext
    rw [hsize, htext] at hcopy
    have hstart : ((some fresh).getD []).take ([] : List Byte).length = [] := rfl
    exact copyIn_behind hstart hcopy

/-- A write at the end of the text appends to it. -/
theorem Stores.write {offset : Word} {block : Option (ℕ → Byte)} (h : Stores node text)
    (hoffset : offset.toNat = text.length) (hsum : text.length + data.length < 2 ^ 32)
    (hok : kyrofsWrite node offset data block = .ok (node', r)) :
    Stores node' (text ++ data) ∧ r.toNat = data.length := by
  obtain ⟨file, hptr, hsize, htext⟩ := h
  have hdata : data.length < 2 ^ 32 := by omega
  have hstop := toNat_stop offset hdata
  rw [hoffset, Nat.mod_eq_of_lt (by omega)] at hstop
  rw [kyrofsWrite, hptr] at hok
  dsimp only at hok
  obtain ⟨file', hreserve, hok'⟩ := Outcome.bind_eq_ok.mp hok
  obtain ⟨content, hcopy, hret⟩ := Outcome.bind_eq_ok.mp hok'
  obtain ⟨rfl, rfl⟩ := Prod.mk.inj (Except.ok.inj hret)
  have hsize' := (reserve_eq_ok hreserve).1
  have htext' := reserve_text hsize htext hreserve
  rw [hoffset] at hcopy
  refine ⟨⟨_, rfl, ?_, copyIn_behind htext' hcopy⟩, ?_⟩
  · dsimp only
    have hwide : (file'.size.setWidth 64 : Word).toNat = text.length := by
      rw [BitVec.toNat_setWidth, hsize', hsize]
      omega
    rw [List.length_append]
    split_ifs with hgrows
    · rw [BitVec.toNat_setWidth, hstop]
      exact Nat.mod_eq_of_lt hsum
    · rw [BitVec.lt_def, hwide, hstop] at hgrows
      rw [hsize', hsize]
      omega
  · rw [BitVec.toNat_ofNat]
    exact Nat.mod_eq_of_lt hdata

end Nodes

/-! ### The loop -/

/-- The loop has the source `n` open at `i` with `rest` still to be read, and the destination `m` at
`j`, where it has written. -/
structure Copying (t : Word) (i j : Fin maxFiles) (n m : Word) (sh : Shell)
    (written rest : List Byte) : Prop where
  source : ∃ offset flags, sh.files.fds t i = some ⟨n, offset, flags⟩ ∧
    offset.toNat ≤ (sh.files.fs.node n).text.length ∧
    rest = (sh.files.fs.node n).text.drop offset.toNat
  dest : ∃ offset flags, sh.files.fds t j = some ⟨m, offset, flags⟩ ∧ flags &&& oAppend = 0 ∧
    offset.toNat = written.length
  reads : ¬ (sh.files.fs.node n).hasDirectoryOps
  stores : Stores (sh.files.fs.node m) written
  room : written.length + rest.length < 2 ^ 32
  fds : i ≠ j
  nodes : n ≠ m

section Loop

variable {t : Word} {i j : Fin maxFiles} {n m : Word} {sh sh' : Shell} {written rest : List Byte}
  {fs fs' : Kyrofs} {node : Dirent} {text : List Byte}

theorem fileSize_lt (node : Dirent) : fileSize node < 2 ^ 32 := by
  rw [fileSize]
  cases node.ptr with
  | content file => exact file.size.isLt
  | dirents children => exact Nat.two_pow_pos 32

theorem text_length_le (node : Dirent) : node.text.length ≤ fileSize node := by
  rw [Dirent.text, fileSize]
  cases node.ptr with
  | content file => exact List.length_take_le _ _
  | dirents children => exact Nat.zero_le _

theorem text_length_lt (node : Dirent) : node.text.length < 2 ^ 32 :=
  (text_length_le node).trans_lt (fileSize_lt node)

theorem Stores.ops (h : Stores node text) : ¬ node.hasDirectoryOps := by
  obtain ⟨file, hptr, -⟩ := h
  rw [Dirent.hasDirectoryOps, hptr]
  exact Bool.false_ne_true

/-- One block is read. -/
theorem Copying.read {r : BitVec 32} {bytes : List Byte}
    (h : Copying t i j n m sh written rest)
    (hok : sh.read t (BitVec.ofNat 32 (i : ℕ)) = .ok (sh', r, bytes)) :
    bytes = rest.take 1024 ∧ r.toInt = bytes.length ∧ sh'.writes = sh.writes ∧
      Copying t i j n m sh' written (rest.drop 1024) := by
  obtain ⟨offset, flags, hentry, hoffset, rfl⟩ := h.source
  obtain ⟨hwrites, hread, hfiles⟩ := read_eq_ok hentry hok
  have hlt := text_length_lt (sh.files.fs.node n)
  rw [vfsRead, if_neg h.reads] at hread
  obtain ⟨bytes', hbytes, hret⟩ := map_eq_ok hread
  obtain ⟨rfl, rfl⟩ := Prod.mk.inj hret
  have htext := kyrofsRead_text (by simp; omega) hbytes
  have hlen : bytes'.length ≤ 1024 := by
    rw [htext]
    exact List.length_take_le _ _
  have hcount : (BitVec.ofNat 32 bytes'.length).toNat = bytes'.length := by
    rw [BitVec.toNat_ofNat]
    omega
  refine ⟨htext, ?_, hwrites, ?_⟩
  · rw [BitVec.toInt_eq_toNat_cond, hcount, if_pos (by omega)]
  · have hnext : (offset + ((BitVec.ofNat 32 bytes'.length).setWidth 64 : Word)).toNat =
        offset.toNat + bytes'.length := by
      rw [BitVec.toNat_add, BitVec.toNat_setWidth, hcount]
      omega
    have hafter : (sh.files.fs.node n).text.drop (offset.toNat + bytes'.length) =
        ((sh.files.fs.node n).text.drop offset.toNat).drop 1024 := by
      rw [List.drop_drop]
      by_cases hend : offset.toNat + 1024 ≤ (sh.files.fs.node n).text.length
      · have hfull : bytes'.length = 1024 := by
          rw [htext, List.length_take, List.length_drop]
          simp
          omega
        rw [hfull]
      · have hpart : bytes'.length = (sh.files.fs.node n).text.length - offset.toNat := by
          rw [htext, List.length_take, List.length_drop]
          simp
          omega
        rw [List.drop_eq_nil_of_le (by omega), List.drop_eq_nil_of_le (by omega)]
    have hle : bytes'.length ≤ (sh.files.fs.node n).text.length - offset.toNat := by
      rw [htext, List.length_take, List.length_drop]
      exact Nat.min_le_right _ _
    obtain ⟨offset', flags', hentry', happend, hoffset'⟩ := h.dest
    refine ⟨⟨offset + (BitVec.ofNat 32 bytes'.length).setWidth 64, flags, ?_, ?_, ?_⟩,
      ⟨offset', flags', ?_, happend, hoffset'⟩, ?_, ?_, ?_, h.fds, h.nodes⟩
    · rw [hfiles]
      exact setEntry_self ..
    · rw [hfiles, hnext]
      show offset.toNat + bytes'.length ≤ (sh.files.fs.node n).text.length
      omega
    · rw [hfiles, hnext]
      exact hafter.symm
    · rw [hfiles, setEntry_of_ne h.fds.symm]
      exact hentry'
    · rw [hfiles]
      exact h.reads
    · rw [hfiles]
      exact h.stores
    · have hroom := h.room
      rw [List.length_drop]
      omega

/-- One block is written, or the first bytes of it. -/
theorem Copying.write {r : BitVec 32} {bytes : List Byte}
    (h : Copying t i j n m sh written rest) (hbytes : bytes.length ≤ 1024)
    (hroom : written.length + bytes.length + rest.length < 2 ^ 32)
    (hok : sh.write t (BitVec.ofNat 32 (j : ℕ)) bytes = .ok (sh', r)) (hr : ¬ r.toInt < 0) :
    ∃ k, (sh.writes 0).stored = some k ∧ sh'.writes = (fun k => sh.writes (k + 1)) ∧
      Copying t i j n m sh' (written ++ bytes.take k) rest := by
  obtain ⟨offset, flags, hentry, happend, hoffset⟩ := h.dest
  obtain ⟨hwrites, ⟨-, hneg, -⟩ | ⟨k, hstored, hwrite, hfiles⟩⟩ := write_cases hentry happend hok
  · exact absurd hneg hr
  have htake : (bytes.take k).length ≤ bytes.length := List.length_take_le' _ _
  rw [vfsWrite, if_neg h.stores.ops] at hwrite
  obtain ⟨⟨node, r'⟩, hkyrofs, hret⟩ := Outcome.bind_eq_ok.mp hwrite
  obtain ⟨hfs, rfl⟩ := Prod.mk.inj (Except.ok.inj hret)
  obtain ⟨hstores, hcount⟩ := h.stores.write hoffset (by omega) hkyrofs
  have hsource : sh'.files.fs.node n = sh.files.fs.node n := by
    rw [← hfs, Kyrofs.node_setNode, if_neg h.nodes]
  obtain ⟨offset', flags', hentry', hoffset', hrest⟩ := h.source
  refine ⟨k, hstored, hwrites, ⟨offset', flags', ?_, ?_, ?_⟩,
    ⟨offset + r'.setWidth 64, flags, ?_, happend, ?_⟩, ?_, ?_, ?_, h.fds, h.nodes⟩
  · rw [hfiles, setEntry_of_ne h.fds]
    exact hentry'
  · rw [hsource]
    exact hoffset'
  · rw [hsource]
    exact hrest
  · rw [hfiles]
    exact setEntry_self ..
  · rw [BitVec.toNat_add, BitVec.toNat_setWidth, hcount, hoffset, List.length_append]
    omega
  · rw [hsource]
    exact h.reads
  · rw [← hfs, Kyrofs.node_setNode, if_pos rfl]
    exact hstores
  · rw [List.length_append]
    omega

/-- The writes of a text are that of its first block and those of the rest. -/
theorem writesAll_iff {writes : ℕ → WriteCall} {length : ℕ} (hlength : 0 < length) :
    WritesAll writes length ↔
      (∃ stored, (writes 0).stored = some stored ∧ min 1024 length ≤ stored) ∧
        WritesAll (fun k => writes (k + 1)) (length - 1024) := by
  constructor
  · intro h
    refine ⟨h 0 hlength, fun k hk => ?_⟩
    obtain ⟨stored, hstored, hle⟩ := h (k + 1) (by omega)
    exact ⟨stored, hstored, by omega⟩
  · rintro ⟨hfirst, hrest⟩ k hk
    cases k with
    | zero => exact hfirst
    | succ k =>
      obtain ⟨stored, hstored, hle⟩ := hrest k (by omega)
      exact ⟨stored, hstored, by omega⟩

/-- A loop that returns 0 has written what its writes have stored of each block, which is the rest
of the source exactly when each is stored whole. -/
theorem copyBytes_text {turns : ℕ} (h : Copying t i j n m sh written rest)
    (hok : copyBytes (kernel t) t (BitVec.ofNat 32 (i : ℕ)) (BitVec.ofNat 32 (j : ℕ)) turns sh =
      .ok (sh', 0)) :
    ∃ more, Stores (sh'.files.fs.node m) (written ++ more) ∧ more.length ≤ rest.length ∧
      (more = rest ↔ WritesAll sh.writes rest.length) := by
  induction turns generalizing sh written rest with
  | zero => cases hok
  | succ turns ih =>
    obtain ⟨⟨sh₁, r, bytes⟩, hread, hturn⟩ := Outcome.bind_eq_ok.mp hok
    dsimp only at hturn
    obtain ⟨hbytes, hr, hwrites, h₁⟩ := h.read hread
    have hlen : bytes.length = min 1024 rest.length := by
      rw [hbytes, List.length_take]
    split_ifs at hturn with hsome
    · obtain ⟨⟨sh₂, r'⟩, hwrite, hloop⟩ := Outcome.bind_eq_ok.mp hturn
      dsimp only at hloop
      split_ifs at hloop with hfail
      · cases Prod.mk.inj (Except.ok.inj hloop)
        contradiction
      · have hroom := h.room
        obtain ⟨k, hstored, hwrites', h₂⟩ := h₁.write (by omega)
          (by rw [List.length_drop]; omega) hwrite hfail
        obtain ⟨more, hstores, hle, hall⟩ := ih h₂ hloop
        have hsplit : rest = bytes ++ rest.drop 1024 := by
          rw [hbytes, List.take_append_drop]
        rw [List.append_assoc] at hstores
        rw [List.length_drop, hwrites', hwrites] at hall
        rw [List.length_drop] at hle
        have htake := List.length_take_le' k bytes
        rw [hwrites] at hstored
        refine ⟨bytes.take k ++ more, hstores, by rw [List.length_append]; omega, ?_⟩
        rw [writesAll_iff (by omega), ← hall, ← hlen, hstored]
        constructor
        · intro heq
          -- neither part is longer than what it is a part of
          have hsum := congrArg List.length heq
          rw [List.length_append, List.length_take] at hsum
          have hwhole : bytes.length ≤ k := by omega
          rw [List.take_of_length_le hwhole] at heq
          exact ⟨⟨k, rfl, hwhole⟩, List.append_cancel_left (heq.trans hsplit)⟩
        · rintro ⟨⟨stored, hk, hle'⟩, rfl⟩
          obtain rfl := Option.some.inj hk
          rw [List.take_of_length_le hle']
          exact hsplit.symm
    · -- the source is at its end
      obtain ⟨rfl, -⟩ := Prod.mk.inj (Except.ok.inj hturn)
      have hend : rest = [] := List.length_eq_zero_iff.mp (by omega)
      refine ⟨[], ?_, Nat.zero_le _, ?_⟩
      · rw [List.append_nil]
        exact h₁.stores
      · rw [hend]
        exact iff_of_true rfl fun k hk => absurd hk (Nat.not_lt_zero _)

/-- A source at its end is not copied. -/
theorem copyBytes_of_empty {entry : FdEntry} {turns : ℕ} {destFd : BitVec 32} {res : Int}
    (hentry : sh.files.fds t i = some entry) (hoffset : entry.offset = 0)
    (hstores : Stores (sh.files.fs.node entry.node) [])
    (hok : copyBytes (kernel t) t (BitVec.ofNat 32 (i : ℕ)) destFd turns sh = .ok (sh', res)) :
    sh'.files.fs = sh.files.fs := by
  cases turns with
  | zero => cases hok
  | succ turns =>
    obtain ⟨⟨sh₁, r, bytes⟩, hread, hturn⟩ := Outcome.bind_eq_ok.mp hok
    dsimp only at hturn
    obtain ⟨-, hvfs, hfiles⟩ := read_eq_ok hentry hread
    rw [vfsRead, if_neg hstores.ops, hoffset] at hvfs
    obtain ⟨bytes', hbytes, hret⟩ := map_eq_ok hvfs
    obtain ⟨rfl, rfl⟩ := Prod.mk.inj hret
    have htext := kyrofsRead_text (by decide) hbytes
    rw [hstores.text_eq] at htext
    obtain rfl : bytes' = [] := by
      rw [htext, List.drop_nil, List.take_nil]
    rw [if_neg (by decide)] at hturn
    obtain ⟨rfl, -⟩ := Prod.mk.inj (Except.ok.inj hturn)
    rw [hfiles]
    rfl

/-! ### What is left alone -/

/-- The destination is not opened for appending. -/
theorem dest_not_append : (oCreat ||| oTrunc ||| oWronly) &&& oAppend = 0 := by decide

theorem touch_trans {fs₁ fs₂ : Kyrofs} (h : fs.Touch fs₁) (h' : fs₁.Touch fs₂) : fs.Touch fs₂ where
  root := h'.root.trans h.root
  live := h'.live.trans h.live
  same n := {
    name := (h'.same n).name.trans (h.same n).name
    flags := (h'.same n).flags.trans (h.same n).flags
    parent := (h'.same n).parent.trans (h.same n).parent
    ops := (h'.same n).ops.trans (h.same n).ops }
  children n := (h'.children n).trans (h.children n)

/-- The descriptors but for two of a thread. -/
def SameFds (t : Word) (i j : Fin maxFiles) (s s' : FdState) : Prop :=
  ∀ t' k, ¬(t' = t ∧ (k = i ∨ k = j)) → s'.fds t' k = s.fds t' k

theorem sameFds_setEntry {s : FdState} {k : Fin maxFiles} {entry : Option FdEntry}
    (hk : k = i ∨ k = j) : SameFds t i j s (s.setEntry t k entry) := by
  intro t' k' hnot
  show Function.update s.fds t (Function.update (s.fds t) k entry) t' k' = s.fds t' k'
  by_cases ht : t' = t
  · have hne : k' ≠ k := by
      rintro rfl
      exact hnot ⟨ht, hk⟩
    rw [ht, Function.update_self, Function.update_of_ne hne]
  · rw [Function.update_of_ne ht]

/-- The loop changes the content of files and its two descriptors. -/
theorem copyBytes_frame {entry entry' : FdEntry} {turns : ℕ} {res : Int}
    (hi : sh.files.fds t i = some entry) (hj : sh.files.fds t j = some entry')
    (happend : entry'.flags &&& oAppend = 0) (hne : i ≠ j)
    (hok : copyBytes (kernel t) t (BitVec.ofNat 32 (i : ℕ)) (BitVec.ofNat 32 (j : ℕ)) turns sh =
      .ok (sh', res)) :
    sh.files.fs.Touch sh'.files.fs ∧ SameFds t i j sh.files sh'.files := by
  induction turns generalizing sh entry entry' with
  | zero => cases hok
  | succ turns ih =>
    obtain ⟨⟨sh₁, r, bytes⟩, hread, hturn⟩ := Outcome.bind_eq_ok.mp hok
    dsimp only at hturn
    obtain ⟨-, -, hfiles⟩ := read_eq_ok hi hread
    have hfds : SameFds t i j sh.files sh₁.files := hfiles ▸ sameFds_setEntry (.inl rfl)
    have hfs : sh₁.files.fs = sh.files.fs := by
      rw [hfiles]
      rfl
    split_ifs at hturn
    · obtain ⟨⟨sh₂, r'⟩, hwrite, hloop⟩ := Outcome.bind_eq_ok.mp hturn
      dsimp only at hloop
      have hi₁ : sh₁.files.fds t i = some { entry with offset := entry.offset + r.setWidth 64 } := by
        rw [hfiles]
        exact setEntry_self ..
      have hj₁ : sh₁.files.fds t j = some entry' := by
        rw [hfiles, setEntry_of_ne hne.symm]
        exact hj
      obtain ⟨-, ⟨-, hneg, hsame⟩ | ⟨k, -, hvfs, hfiles'⟩⟩ := write_cases hj₁ happend hwrite
      · rw [if_pos hneg] at hloop
        obtain ⟨rfl, -⟩ := Prod.mk.inj (Except.ok.inj hloop)
        rw [hsame, hfs]
        exact ⟨.refl, hfds⟩
      · have htouch : sh.files.fs.Touch sh₂.files.fs := hfs ▸ vfsWrite_touch hvfs
        have hfds₂ : SameFds t i j sh.files sh₂.files := by
          intro t' k' hnot
          rw [← hfds t' k' hnot, hfiles']
          exact sameFds_setEntry (s := { sh₁.files with fs := sh₂.files.fs }) (.inr rfl) t' k' hnot
        split_ifs at hloop
        · obtain ⟨rfl, -⟩ := Prod.mk.inj (Except.ok.inj hloop)
          exact ⟨htouch, hfds₂⟩
        · have hi₂ : sh₂.files.fds t i =
              some { entry with offset := entry.offset + r.setWidth 64 } := by
            rw [hfiles', setEntry_of_ne hne]
            exact hi₁
          have hj₂ : sh₂.files.fds t j =
              some { entry' with offset := entry'.offset + r'.setWidth 64 } := by
            rw [hfiles']
            exact setEntry_self ..
          obtain ⟨htouch', hfds'⟩ := ih hi₂ hj₂ happend hloop
          refine ⟨touch_trans htouch htouch', fun t' k' hnot => ?_⟩
          exact (hfds' t' k' hnot).trans (hfds₂ t' k' hnot)
    · obtain ⟨rfl, -⟩ := Prod.mk.inj (Except.ok.inj hturn)
      rw [hfs]
      exact ⟨.refl, hfds⟩

end Loop

end KyroOS.Coreutils

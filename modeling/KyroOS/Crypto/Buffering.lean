import KyroOS.Crypto.Sha256

/-!
# The buffer of `sha256_context`

The message is the blocks that were compressed and the bytes that the buffer holds. A block is
compressed when the next byte arrives, so that the buffer of a message of whole blocks is full at
its end: `sha256_final_ctx` then writes the first byte of the padding behind it. Every other message
is padded in the buffer, in one block or in two.

## Main definitions

* `Absorbed` — what the context says about the bytes that arrived

## Main results

* `sha256UpdateCtx_absorbs` — the loop returns, and has taken all bytes
* `sha256FinalCtx_pads` — the padding of a buffer that is not full
* `sha256Run_eq` — what is compressed, when the message is no sequence of whole blocks
* `blocksPassed_iff` — the blocks are those of the padded message exactly then
-/

namespace KyroOS.Crypto

open Net (store16 store32 bswap16 bswap32)
open Sha256 (blocks padded padding zeros bigEndian32 bigEndian64)

/-! ### Writes to the buffer -/

namespace Buffer

variable {b : Buffer} {i n : ℕ} {bytes front : List Byte}

/-- What is written behind the bytes in front. -/
theorem memcpy_prefix (hfront : front <+: b.bytes) (hi : front.length = i)
    (hroom : i + bytes.length ≤ 64) :
    ∃ b' : Buffer, b.memcpy i bytes = .ok b' ∧ front ++ bytes <+: b'.bytes := by
  refine ⟨_, dif_pos hroom, ?_⟩
  have htake : b.bytes.take i = front := by
    rw [← hi]
    exact (List.prefix_iff_eq_take.mp hfront).symm
  show front ++ bytes <+: b.bytes.take i ++ bytes ++ b.bytes.drop (i + bytes.length)
  rw [htake]
  exact List.prefix_append _ _

theorem memset_prefix (hfront : front <+: b.bytes) (hi : front.length = i) (hroom : i + n ≤ 64) :
    ∃ b' : Buffer, b.memset i n = .ok b' ∧ front ++ List.replicate n 0 <+: b'.bytes := by
  rw [memset, if_pos hroom]
  exact memcpy_prefix hfront hi (by rwa [List.length_replicate])

/-- The whole buffer. -/
theorem eq_of_prefix (hfront : front <+: b.bytes) (hlen : front.length = 64) : b.bytes = front :=
  (hfront.eq_of_length (hlen.trans b.length_eq.symm)).symm

end Buffer

/-! ### Big-endian words -/

theorem extract_extract {n k : ℕ} (w : BitVec n) (i : ℕ) {j : ℕ} (h : j + 8 ≤ k) :
    (w.extractLsb' i k).extractLsb' j 8 = w.extractLsb' (i + j) 8 := by
  apply BitVec.eq_of_getLsbD_eq
  intro l hl
  have hlt : j + l < k := by omega
  simp [hl, hlt, Nat.add_assoc]

theorem store32_bswap32 (w : BitVec 32) : store32 (bswap32 w) = bigEndian32 w := by
  simp only [store32, store16, bswap32, bswap16, Net.extract_append_low, Net.extract_append_high,
    List.cons_append, List.nil_append]
  simp (disch := decide) only [extract_extract, bigEndian32, Nat.reduceAdd]

/-- The message length is written with its highest byte first. -/
theorem store32_bswap32_length (n : Word) :
    store32 (bswap32 ((n >>> 32).setWidth 32)) ++
      store32 (bswap32 ((n &&& 0xFFFFFFFF).setWidth 32)) = bigEndian64 n := by
  have hhigh : (n >>> 32).setWidth 32 = n.extractLsb' 32 32 := by
    apply BitVec.eq_of_getLsbD_eq
    intro l hl
    simp [hl]
  have hlow : (n &&& 0xFFFFFFFF).setWidth 32 = n.extractLsb' 0 32 := by
    apply BitVec.eq_of_getLsbD_eq
    intro l hl
    have hmask : ∀ l < 32, (0xFFFFFFFF : Word).getLsbD l = true := by decide
    rw [BitVec.getLsbD_setWidth, BitVec.getLsbD_and, hmask l hl, BitVec.getLsbD_extractLsb']
    simp [hl]
  rw [store32_bswap32, store32_bswap32, hhigh, hlow]
  simp (disch := decide) only [bigEndian32, bigEndian64, extract_extract, List.cons_append,
    List.nil_append, Nat.reduceAdd, Nat.zero_add]

section Context

variable {η : Type} {transform : η → List Byte → η} {h₀ : η} {garbage : Buffer}
  {ctx ctx' : Sha256Context η} {full rest data m : List Byte}

/-! ### The bytes that arrived -/

/-- The bytes of `full` were compressed, and the buffer holds those of `rest`. -/
structure Absorbed (transform : η → List Byte → η) (h₀ : η) (full rest : List Byte)
    (ctx : Sha256Context η) : Prop where
  whole : full.length % 64 = 0
  len : rest.length = ctx.bufferLen.toNat
  le : rest.length ≤ 64
  buffer : rest <+: ctx.buffer.bytes
  hash : ctx.hash = (blocks full).foldl transform h₀

/-- A full buffer is compressed, and there is room behind. -/
theorem Absorbed.flushFull (h : Absorbed transform h₀ full rest ctx) :
    ∃ full' rest', Absorbed transform h₀ full' rest' (flushFull transform ctx) ∧
      full' ++ rest' = full ++ rest ∧ rest'.length < 64 ∧
      (Crypto.flushFull transform ctx).bitLen = ctx.bitLen := by
  unfold Crypto.flushFull
  split_ifs with hfull
  · have hlen : rest.length = 64 := by
      rw [h.len, hfull]
      rfl
    refine ⟨full ++ rest, [], ⟨?_, rfl, Nat.zero_le 64, List.nil_prefix, ?_⟩, List.append_nil _,
      Nat.zero_lt_succ 63, rfl⟩
    · rw [List.length_append, hlen, Nat.add_mod_right, h.whole]
    · rw [Sha256.blocks_append h.whole, Sha256.blocks_of_length hlen, List.foldl_append, ← h.hash,
        Buffer.eq_of_prefix h.buffer hlen]
      rfl
  · refine ⟨full, rest, h, rfl, ?_, rfl⟩
    refine lt_of_le_of_ne h.le fun hlen => hfull (BitVec.eq_of_toNat_eq ?_)
    rw [← h.len, hlen]
    rfl

/-- The loop returns, and has taken all bytes. The buffer is empty when there were none. -/
theorem updateLoop_absorbs (turns : ℕ) : ∀ {ctx : Sha256Context η} {full rest data : List Byte},
    Absorbed transform h₀ full rest ctx → data.length ≤ turns →
    (rest = [] → full = []) →
    ∃ ctx' full' rest', updateLoop transform turns ctx data = .ok ctx' ∧
      Absorbed transform h₀ full' rest' ctx' ∧ full' ++ rest' = full ++ rest ++ data ∧
      (rest' = [] → full' = []) ∧ ctx'.bitLen = ctx.bitLen := by
  induction turns with
  | zero =>
    intro ctx full rest data h hturns hlazy
    obtain rfl := List.length_eq_zero_iff.mp (Nat.le_zero.mp hturns)
    exact ⟨ctx, full, rest, if_pos rfl, h, (List.append_nil _).symm, hlazy, rfl⟩
  | succ turns ih =>
    intro ctx full rest data h hturns hlazy
    rw [updateLoop]
    by_cases hdata : data = []
    · rw [if_pos hdata, hdata]
      exact ⟨ctx, full, rest, rfl, h, (List.append_nil _).symm, hlazy, rfl⟩
    rw [if_neg hdata]
    obtain ⟨full₁, rest₁, h₁, hbytes, hroom, hbits⟩ := h.flushFull
    generalize Crypto.flushFull transform ctx = ctx₁ at h₁ hbits ⊢
    dsimp only
    -- the number of bytes of this turn
    have hspace : (64 - ctx₁.bufferLen).toNat = 64 - rest₁.length := by
      have hlen := h₁.len
      rw [BitVec.toNat_sub, show (64 : BitVec 32).toNat = 64 from rfl]
      omega
    obtain ⟨i, hi⟩ : ∃ i, i = if data.length < (64 - ctx₁.bufferLen).toNat then data.length
      else (64 - ctx₁.bufferLen).toNat := ⟨_, rfl⟩
    rw [← hi]
    have hpos : 0 < data.length := List.length_pos_iff.mpr hdata
    have hbounds : 0 < i ∧ i ≤ data.length ∧ rest₁.length + i ≤ 64 := by
      rw [hi, hspace]
      split_ifs <;> omega
    have htake : (data.take i).length = i := List.length_take_of_le hbounds.2.1
    obtain ⟨buffer, hcopy, hprefix⟩ := Buffer.memcpy_prefix h₁.buffer h₁.len
      (show ctx₁.bufferLen.toNat + (data.take i).length ≤ 64 by rw [htake, ← h₁.len]; omega)
    rw [hcopy]
    have h₂ : Absorbed transform h₀ full₁ (rest₁ ++ data.take i)
        { ctx₁ with buffer, bufferLen := ctx₁.bufferLen + BitVec.ofNat 32 i } := by
      refine ⟨h₁.whole, ?_, ?_, hprefix, h₁.hash⟩
      · have hlen := h₁.len
        rw [List.length_append, htake, BitVec.toNat_add, BitVec.toNat_ofNat]
        omega
      · rw [List.length_append, htake]
        exact hbounds.2.2
    have hleft : (data.drop i).length ≤ turns := by
      rw [List.length_drop]
      omega
    have hlazy₂ : rest₁ ++ data.take i = [] → full₁ = [] := by
      intro hnil
      have hzero := congrArg List.length hnil
      rw [List.length_append, htake, List.length_nil] at hzero
      omega
    obtain ⟨ctx', full', rest', hloop, h', hall, hlazy', hbits'⟩ := ih h₂ hleft hlazy₂
    refine ⟨ctx', full', rest', hloop, h', ?_, hlazy', hbits'.trans hbits⟩
    rw [hall, ← hbytes]
    simp only [List.append_assoc, List.take_append_drop]

/-! ### The padding -/

/-- The last block, where there is room for the length. -/
theorem lastBlock_eq (transform : η → List Byte → η) (hrest : rest <+: ctx.buffer.bytes) (hlen : rest.length = ctx.bufferLen.toNat)
    (hroom : rest.length ≤ 56) : ∃ ctx', lastBlock transform ctx = .ok ctx' ∧
      ctx'.hash = transform ctx.hash
        (rest ++ List.replicate (56 - rest.length) 0 ++ bigEndian64 ctx.bitLen) := by
  have hzeros : (56 - ctx.bufferLen).toNat = 56 - rest.length := by
    rw [BitVec.toNat_sub, show (56 : BitVec 32).toNat = 56 from rfl]
    omega
  obtain ⟨b₁, hset, hfront₁⟩ := Buffer.memset_prefix (n := 56 - rest.length) hrest hlen (by omega)
  have hlen₁ : (rest ++ List.replicate (56 - rest.length) 0).length = 56 := by
    rw [List.length_append, List.length_replicate]
    omega
  obtain ⟨b₂, hhigh, hfront₂⟩ := Buffer.memcpy_prefix hfront₁ hlen₁
    (show 56 + (store32 (bswap32 ((ctx.bitLen >>> 32).setWidth 32))).length ≤ 64 by
      rw [Net.length_store32]
      omega)
  obtain ⟨b₃, hlow, hfront₃⟩ := Buffer.memcpy_prefix (i := 60) hfront₂
    (by rw [List.length_append, hlen₁]; rfl)
    (show 60 + (store32 (bswap32 ((ctx.bitLen &&& 0xFFFFFFFF).setWidth 32))).length ≤ 64 by
      rw [Net.length_store32])
  refine ⟨{ ctx with buffer := b₃, hash := transform ctx.hash b₃.bytes }, ?_, ?_⟩
  · rw [lastBlock, hzeros]
    refine Outcome.bind_eq_ok.mpr ⟨b₁, hset, ?_⟩
    refine Outcome.bind_eq_ok.mpr ⟨b₂, hhigh, ?_⟩
    exact Outcome.bind_eq_ok.mpr ⟨b₃, hlow, rfl⟩
  · rw [List.append_assoc (rest ++ _), store32_bswap32_length] at hfront₃
    rw [Buffer.eq_of_prefix hfront₃]
    rw [List.length_append, hlen₁]
    rfl

/-- A buffer that is not full is padded in one block or in two. -/
theorem sha256FinalCtx_pads (h : Absorbed transform h₀ full rest ctx) (hroom : rest.length < 64)
    (hbits : ctx.bitLen = BitVec.ofNat 64 (8 * (full ++ rest).length)) :
    ∃ ctx', sha256FinalCtx transform ctx = .ok ctx' ∧
      ctx'.hash = (blocks (padded (full ++ rest))).foldl transform h₀ := by
  obtain ⟨b₁, hcopy, hfront₁⟩ : ∃ b' : Buffer, ctx.buffer.memcpy ctx.bufferLen.toNat [0x80] =
      .ok b' ∧ rest ++ [0x80] <+: b'.bytes :=
    Buffer.memcpy_prefix h.buffer h.len (by rw [← h.len]; exact hroom)
  have hlen := h.len
  have hnext : (rest ++ [0x80]).length = (ctx.bufferLen + 1).toNat := by
    rw [List.length_append, BitVec.toNat_add, h.len, List.length_singleton]
    show _ = (ctx.bufferLen.toNat + 1) % 2 ^ 32
    omega
  -- the blocks behind those that were compressed
  have hmod : (full ++ rest).length % 64 = rest.length := by
    have hwhole := h.whole
    rw [List.length_append]
    omega
  have hblocks : (blocks (padded (full ++ rest))).foldl transform h₀ =
      (blocks (rest ++ padding (full ++ rest).length)).foldl transform ctx.hash := by
    rw [padded, List.append_assoc, Sha256.blocks_append h.whole, List.foldl_append, h.hash]
  have hpadding : padding (full ++ rest).length =
      0x80 :: (List.replicate ((119 - rest.length) % 64) 0 ++ bigEndian64 ctx.bitLen) := by
    rw [padding, zeros, hmod, hbits]
  rw [hblocks, hpadding]
  rw [List.length_append, List.length_singleton] at hnext
  by_cases htwo : 56 ≤ rest.length
  · -- the padding is cut in two
    have hover : 56 < ctx.bufferLen + 1 := by
      rw [BitVec.lt_def, ← hnext]
      show 56 < rest.length + 1
      omega
    have hzeros : (64 - (ctx.bufferLen + 1)).toNat = 63 - rest.length := by
      rw [BitVec.toNat_sub, ← hnext, show (64 : BitVec 32).toNat = 64 from rfl]
      omega
    obtain ⟨b₂, hset, hfront₂⟩ := Buffer.memset_prefix (i := (ctx.bufferLen + 1).toNat)
      (n := 63 - rest.length) hfront₁ (by rw [← hnext, List.length_append]; rfl) (by omega)
    have hfirst : (rest ++ [0x80] ++ List.replicate (63 - rest.length) 0).length = 64 := by
      simp only [List.length_append, List.length_singleton, List.length_replicate]
      omega
    obtain ⟨ctx', hlast, hhash⟩ := lastBlock_eq transform
      (show [] <+: ({ ctx with
        buffer := b₂, hash := transform ctx.hash b₂.bytes, bufferLen := 0 } :
          Sha256Context η).buffer.bytes from List.nil_prefix) rfl (by decide)
    refine ⟨ctx', ?_, ?_⟩
    · refine Outcome.bind_eq_ok.mpr ⟨b₁, hcopy, ?_⟩
      dsimp only
      rw [if_pos hover, hzeros]
      exact Outcome.bind_eq_ok.mpr ⟨b₂, hset, hlast⟩
    · have hcut : rest ++ 0x80 :: (List.replicate ((119 - rest.length) % 64) 0 ++
          bigEndian64 ctx.bitLen) = (rest ++ [0x80] ++ List.replicate (63 - rest.length) 0) ++
            (List.replicate 56 0 ++ bigEndian64 ctx.bitLen) := by
        have hsum : (119 - rest.length) % 64 = 63 - rest.length + 56 := by omega
        rw [hsum, List.replicate_add]
        simp only [List.append_assoc, List.cons_append, List.nil_append]
      rw [hhash, hcut, Sha256.blocks_append (by rw [hfirst]), Sha256.blocks_of_length hfirst,
        Sha256.blocks_of_length rfl, Buffer.eq_of_prefix hfront₂ hfirst]
      rfl
  · have hunder : ¬ 56 < ctx.bufferLen + 1 := by
      rw [BitVec.lt_def, ← hnext]
      show ¬ 56 < rest.length + 1
      omega
    obtain ⟨ctx', hlast, hhash⟩ := lastBlock_eq transform
      (show rest ++ [0x80] <+: ({ ctx with
        buffer := b₁, bufferLen := ctx.bufferLen + 1 } : Sha256Context η).buffer.bytes from hfront₁)
      (by rw [List.length_append]; exact hnext)
      (by rw [List.length_append, List.length_singleton]; omega)
    refine ⟨ctx', ?_, ?_⟩
    · refine Outcome.bind_eq_ok.mpr ⟨b₁, hcopy, ?_⟩
      dsimp only
      rw [if_neg hunder]
      exact hlast
    · have hone : rest ++ 0x80 :: (List.replicate ((119 - rest.length) % 64) 0 ++
          bigEndian64 ctx.bitLen) = rest ++ [0x80] ++
            List.replicate (56 - (rest ++ [0x80]).length) 0 ++ bigEndian64 ctx.bitLen := by
        have hzeros : (119 - rest.length) % 64 = 56 - (rest ++ [(0x80 : Byte)]).length := by
          rw [List.length_append, List.length_singleton]
          omega
        rw [hzeros]
        simp only [List.append_assoc, List.cons_append, List.nil_append]
      have hlength : (rest ++ 0x80 :: (List.replicate ((119 - rest.length) % 64) 0 ++
          bigEndian64 ctx.bitLen)).length = 64 := by
        have hbytes : (bigEndian64 ctx.bitLen).length = 8 := rfl
        simp only [List.length_append, List.length_cons, List.length_replicate, hbytes]
        omega
      rw [hhash, Sha256.blocks_of_length hlength, hone]
      rfl

/-- The first byte of the padding of a full buffer is written behind it. -/
theorem sha256FinalCtx_fault (h : Absorbed transform h₀ full rest ctx) (hfull : rest.length = 64) :
    sha256FinalCtx transform ctx = .error .fault := by
  have hout : ctx.buffer.memcpy ctx.bufferLen.toNat [0x80] = .error .fault := by
    refine dif_neg ?_
    rw [← h.len, hfull]
    decide
  rw [sha256FinalCtx, hout]
  rfl

/-! ### The whole message -/

/-- The loop takes the message. Its buffer is full at the end of a message of whole blocks. -/
theorem sha256UpdateCtx_absorbs (transform : η → List Byte → η) (h₀ : η) (garbage : Buffer)
    (m : List Byte) :
    ∃ ctx full rest, sha256UpdateCtx transform (sha256InitCtx h₀ garbage) m = .ok ctx ∧
      Absorbed transform h₀ full rest ctx ∧ full ++ rest = m ∧
      ctx.bitLen = BitVec.ofNat 64 (8 * m.length) ∧
      (rest.length = 64 ↔ m ≠ [] ∧ m.length % 64 = 0) := by
  have hinit : Absorbed transform h₀ [] [] { sha256InitCtx h₀ garbage with
      bitLen := (sha256InitCtx h₀ garbage).bitLen + BitVec.ofNat 64 m.length * 8 } :=
    ⟨rfl, rfl, Nat.zero_le 64, List.nil_prefix, rfl⟩
  obtain ⟨ctx, full, rest, hloop, h, hall, hlazy, hbits⟩ :=
    updateLoop_absorbs m.length hinit (le_refl m.length) fun _ => rfl
  rw [List.nil_append, List.nil_append] at hall
  refine ⟨ctx, full, rest, hloop, h, hall, ?_, ?_⟩
  · rw [hbits, Nat.mul_comm, BitVec.ofNat_mul]
    exact BitVec.zero_add _
  · have hwhole := h.whole
    have hle := h.le
    have hlen := congrArg List.length hall
    rw [List.length_append] at hlen
    constructor
    · intro hfull
      refine ⟨?_, by omega⟩
      rintro rfl
      rw [List.length_nil] at hlen
      omega
    · rintro ⟨hne, hmod⟩
      by_contra hnot
      have hnil : rest = [] := List.length_eq_zero_iff.mp (by omega)
      rw [hnil, hlazy hnil] at hall
      exact hne hall.symm

/-- What is compressed, for a message that leaves room in the buffer. -/
theorem sha256Run_eq (transform : η → List Byte → η) (h₀ : η) (garbage : Buffer)
    (hm : m = [] ∨ m.length % 64 ≠ 0) :
    ∃ ctx, sha256Run transform h₀ garbage m = .ok ctx ∧
      ctx.hash = (blocks (padded m)).foldl transform h₀ := by
  obtain ⟨ctx, full, rest, hupdate, h, rfl, hbits, hfull⟩ :=
    sha256UpdateCtx_absorbs transform h₀ garbage m
  have hroom : rest.length < 64 := by
    refine lt_of_le_of_ne h.le fun hlen => ?_
    obtain ⟨hne, hmod⟩ := hfull.mp hlen
    exact hm.elim hne fun hmod' => hmod' hmod
  obtain ⟨ctx', hfinal, hhash⟩ := sha256FinalCtx_pads h hroom hbits
  exact ⟨ctx', Outcome.bind_eq_ok.mpr ⟨ctx, hupdate, hfinal⟩, hhash⟩

/-- A message of whole blocks. -/
theorem sha256Run_fault (transform : η → List Byte → η) (h₀ : η) (garbage : Buffer)
    (hne : m ≠ []) (hmod : m.length % 64 = 0) :
    sha256Run transform h₀ garbage m = .error .fault := by
  obtain ⟨ctx, full, rest, hupdate, h, rfl, -, hfull⟩ :=
    sha256UpdateCtx_absorbs transform h₀ garbage m
  rw [sha256Run, hupdate]
  exact sha256FinalCtx_fault h (hfull.mpr ⟨hne, hmod⟩)

end Context

/-! ### The blocks -/

/-- The blocks that are passed to `sha256_transform`, one after the other. A write outside of the
buffer, and a `memset` whose length has wrapped around, are faults. -/
def blocksPassed (garbage : Buffer) (m : List Byte) : Outcome (List (List Byte)) := do
  let ctx ← sha256Run (fun passed block => passed ++ [block]) [] garbage m
  pure ctx.hash

theorem blocksPassed_fault (garbage : Buffer) {m : List Byte} (hne : m ≠ [])
    (hmod : m.length % 64 = 0) : blocksPassed garbage m = .error .fault := by
  rw [blocksPassed, sha256Run_fault _ _ _ hne hmod]
  rfl

/-- The blocks are those of the padded message, unless it is a sequence of whole blocks. -/
theorem blocksPassed_iff (garbage : Buffer) (m : List Byte) :
    blocksPassed garbage m = .ok (blocks (padded m)) ↔ m = [] ∨ m.length % 64 ≠ 0 := by
  constructor
  · intro hpassed
    by_contra hnot
    obtain ⟨hne, hmod⟩ := not_or.mp hnot
    rw [blocksPassed_fault garbage hne (not_not.mp hmod)] at hpassed
    cases hpassed
  · intro hm
    obtain ⟨ctx, hrun, hhash⟩ :=
      sha256Run_eq (fun passed block => passed ++ [block]) [] garbage hm
    refine Outcome.bind_eq_ok.mpr ⟨ctx, hrun, ?_⟩
    rw [hhash, List.foldl_append_eq_append, List.nil_append, ← List.flatMap_def,
      List.flatMap_singleton']
    rfl

/-- A buffer of zeros. -/
def zeroBuffer : Buffer := ⟨List.replicate 64 0, rfl⟩

/-- A message of one block. -/
theorem not_blocksPassed : blocksPassed zeroBuffer (List.replicate 64 0) ≠
    .ok (blocks (padded (List.replicate 64 0))) := by
  rw [blocksPassed_fault zeroBuffer (by decide) rfl]
  exact fun h => (by cases h)

end KyroOS.Crypto

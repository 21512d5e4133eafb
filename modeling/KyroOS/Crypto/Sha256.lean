import KyroOS.Net.Bytes
import KyroOS.Lib.Sha256

/-!
# SHA-256

`sha256_hash` collects the message in a buffer of one block. A full buffer is compressed when the
next byte arrives, and the padding is written behind what is left in it. The functions that handle
the buffer do not look at what the compression does, so it is a parameter here.

## Main definitions

* `sha256Transform` — the compression of one block
* `Sha256Context` — the buffer, the counters and the hash value
* `sha256UpdateCtx`, `sha256FinalCtx`, `sha256Hash`
-/

namespace KyroOS.Crypto

open Net (store32 bswap32)
open Sha256 (Working)

/-! ### Compression -/

/-- `K_SHA256` -/
def kSha256 : List (BitVec 32) := [
  0x428a2f98, 0x71374491, 0xb5c0fbcf, 0xe9b5dba5, 0x3956c25b, 0x59f111f1, 0x923f82a4, 0xab1c5ed5,
  0xd807aa98, 0x12835b01, 0x243185be, 0x550c7dc3, 0x72be5d74, 0x80deb1fe, 0x9bdc06a7, 0xc19bf174,
  0xe49b69c1, 0xefbe4786, 0x0fc19dc6, 0x240ca1cc, 0x2de92c6f, 0x4a7484aa, 0x5cb0a9dc, 0x76f988da,
  0x983e5152, 0xa831c66d, 0xb00327c8, 0xbf597fc7, 0xc6e00bf3, 0xd5a79147, 0x06ca6351, 0x14292967,
  0x27b70a85, 0x2e1b2138, 0x4d2c6dfc, 0x53380d13, 0x650a7354, 0x766a0abb, 0x81c2c92e, 0x92722c85,
  0xa2bfe8a1, 0xa81a664b, 0xc24b8b70, 0xc76c51a3, 0xd192e819, 0xd6990624, 0xf40e3585, 0x106aa070,
  0x19a4c116, 0x1db71064, 0x2c61692f, 0x4a74a4b8, 0x5c60f198, 0x76a980bb, 0x81c2c92e, 0x92722c85,
  0xa2bfe8a1, 0xa81a664b, 0xc24b8b70, 0xc76c51a3, 0xd192e819, 0xd6990624, 0xf40e3585, 0x106aa070]

/-- The words of `H_SHA256`. -/
def hWords : Array (BitVec 32) :=
  #[0x6a09e667, 0xbb67ae85, 0x3c6ef372, 0xa54ff53a, 0x510e527f, 0x9b05688c, 0x1f83d9ab, 0x5be0cd19]

theorem size_hWords : hWords.size = 8 := rfl

/-- `H_SHA256` -/
def hSha256 : Vector (BitVec 32) 8 := ⟨hWords, size_hWords⟩

/-- `ROTR` -/
def rotr (x : BitVec 32) (n : ℕ) : BitVec 32 := x >>> n ||| x <<< (32 - n)

/-- `SHR` -/
def shr (x : BitVec 32) (n : ℕ) : BitVec 32 := x >>> n

/-- `CH` -/
def ch (x y z : BitVec 32) : BitVec 32 := (x &&& y) ^^^ (~~~ x &&& z)

/-- `MAJ` -/
def maj (x y z : BitVec 32) : BitVec 32 := (x &&& y) ^^^ (x &&& z) ^^^ (y &&& z)

/-- `SIGMA0` -/
def bigSigma0 (x : BitVec 32) : BitVec 32 := rotr x 2 ^^^ rotr x 13 ^^^ rotr x 22

/-- `SIGMA1` -/
def bigSigma1 (x : BitVec 32) : BitVec 32 := rotr x 6 ^^^ rotr x 11 ^^^ rotr x 25

/-- `sigma0` -/
def sigma0 (x : BitVec 32) : BitVec 32 := rotr x 7 ^^^ rotr x 18 ^^^ shr x 3

/-- `sigma1` -/
def sigma1 (x : BitVec 32) : BitVec 32 := rotr x 17 ^^^ rotr x 19 ^^^ shr x 10

/-- `W[i]` for the first 16 words, from the bytes of the block. -/
def blockWord (block : List Byte) (i : ℕ) : BitVec 32 :=
  (block.getD (i * 4 + 0) 0).setWidth 32 <<< 24 ||| (block.getD (i * 4 + 1) 0).setWidth 32 <<< 16 |||
    (block.getD (i * 4 + 2) 0).setWidth 32 <<< 8 ||| (block.getD (i * 4 + 3) 0).setWidth 32

/-- The loop that fills the other words of `W`, one a turn. -/
def scheduleLoop : ℕ → List (BitVec 32) → List (BitVec 32)
  | 0, w => w
  | n + 1, w =>
    let i := w.length
    scheduleLoop n (w ++ [sigma1 (w.getD (i - 2) 0) + w.getD (i - 7) 0 +
      sigma0 (w.getD (i - 15) 0) + w.getD (i - 16) 0])

/-- The words `W` of a block. -/
def messageSchedule (block : List Byte) : List (BitVec 32) :=
  scheduleLoop 48 ((List.range 16).map (blockWord block))

/-- One turn of the main loop, with the local variables `a` to `h`. -/
def mainLoopTurn (k w : BitVec 32) (v : Working) : Working :=
  let t1 := v.h + bigSigma1 v.e + ch v.e v.f v.g + k + w
  let t2 := bigSigma0 v.a + maj v.a v.b v.c
  let h := v.g
  let g := v.f
  let f := v.e
  let e := v.d + t1
  let d := v.c
  let c := v.b
  let b := v.a
  let a := t1 + t2
  ⟨a, b, c, d, e, f, g, h⟩

/-- The main loop. -/
def mainLoop (k w : List (BitVec 32)) (v : Working) : Working :=
  (List.range 64).foldl (fun v i => mainLoopTurn (k.getD i 0) (w.getD i 0) v) v

local instance neZero_hash : NeZero 8 := ⟨by decide⟩

/-- `sha256_transform`, for a table of constants. -/
def sha256Transform (k : List (BitVec 32)) (hash : Vector (BitVec 32) 8) (block : List Byte) :
    Vector (BitVec 32) 8 :=
  let v := mainLoop k (messageSchedule block)
    ⟨hash.get 0, hash.get 1, hash.get 2, hash.get 3, hash.get 4, hash.get 5, hash.get 6, hash.get 7⟩
  #v[hash.get 0 + v.a, hash.get 1 + v.b, hash.get 2 + v.c, hash.get 3 + v.d, hash.get 4 + v.e,
    hash.get 5 + v.f, hash.get 6 + v.g, hash.get 7 + v.h]

/-! ### The buffer -/

/-- `ctx->buffer` -/
structure Buffer where
  bytes : List Byte
  length_eq : bytes.length = 64

namespace Buffer

variable {b : Buffer} {i n : ℕ} {bytes front : List Byte}

/-- `memcpy(ctx->buffer + i, bytes, n)`. A byte outside of the buffer is a fault. -/
def memcpy (b : Buffer) (i : ℕ) (bytes : List Byte) : Outcome Buffer :=
  if h : i + bytes.length ≤ 64 then
    .ok ⟨b.bytes.take i ++ bytes ++ b.bytes.drop (i + bytes.length), by
      simp only [List.length_append, List.length_take, List.length_drop, b.length_eq]
      omega⟩
  else .error .fault

/-- `memset(ctx->buffer + i, 0, n)` -/
def memset (b : Buffer) (i n : ℕ) : Outcome Buffer :=
  if i + n ≤ 64 then b.memcpy i (List.replicate n 0) else .error .fault

end Buffer

/-- `sha256_context`, with hash values of type `η`. -/
structure Sha256Context (η : Type) where
  buffer : Buffer
  bufferLen : BitVec 32
  bitLen : Word
  hash : η

section Context

variable {η : Type} (transform : η → List Byte → η)

/-- `sha256_init_ctx`: what the buffer holds is not set. -/
def sha256InitCtx (hash : η) (garbage : Buffer) : Sha256Context η := ⟨garbage, 0, 0, hash⟩

/-- A full buffer is compressed. -/
def flushFull (ctx : Sha256Context η) : Sha256Context η :=
  if ctx.bufferLen = 64 then
    { ctx with hash := transform ctx.hash ctx.buffer.bytes, bufferLen := 0 }
  else ctx

/-- The loop of `sha256_update_ctx`, with at most `turns` turns. -/
def updateLoop : ℕ → Sha256Context η → List Byte → Outcome (Sha256Context η)
  | 0, ctx, data => if data = [] then .ok ctx else .error .outOfFuel
  | turns + 1, ctx, data =>
    if data = [] then .ok ctx
    else do
      let ctx := flushFull transform ctx
      let room := (64 - ctx.bufferLen).toNat
      let i := if data.length < room then data.length else room
      let buffer ← ctx.buffer.memcpy ctx.bufferLen.toNat (data.take i)
      updateLoop turns { ctx with buffer, bufferLen := ctx.bufferLen + BitVec.ofNat 32 i }
        (data.drop i)

/-- `sha256_update_ctx`. Every turn takes a byte at least. -/
def sha256UpdateCtx (ctx : Sha256Context η) (data : List Byte) : Outcome (Sha256Context η) :=
  updateLoop transform data.length
    { ctx with bitLen := ctx.bitLen + BitVec.ofNat 64 data.length * 8 } data

/-- The last block: zeros up to the length of the message in bits, which is big-endian. -/
def lastBlock (ctx : Sha256Context η) : Outcome (Sha256Context η) := do
  let buffer ← ctx.buffer.memset ctx.bufferLen.toNat (56 - ctx.bufferLen).toNat
  let msgLenHi := bswap32 ((ctx.bitLen >>> 32).setWidth 32)
  let msgLenLo := bswap32 ((ctx.bitLen &&& 0xFFFFFFFF).setWidth 32)
  let buffer ← buffer.memcpy 56 (store32 msgLenHi)
  let buffer ← buffer.memcpy 60 (store32 msgLenLo)
  pure { ctx with buffer, hash := transform ctx.hash buffer.bytes }

/-- `sha256_final_ctx`, up to the last block. The index of the first byte is not compared with the
length of the buffer. -/
def sha256FinalCtx (ctx : Sha256Context η) : Outcome (Sha256Context η) := do
  let buffer ← ctx.buffer.memcpy ctx.bufferLen.toNat [0x80]
  let ctx : Sha256Context η := { ctx with buffer, bufferLen := ctx.bufferLen + 1 }
  -- there is not enough room for the length
  if 56 < ctx.bufferLen then do
    let buffer ← ctx.buffer.memset ctx.bufferLen.toNat (64 - ctx.bufferLen).toNat
    lastBlock transform
      { ctx with buffer, hash := transform ctx.hash buffer.bytes, bufferLen := 0 }
  else lastBlock transform ctx

/-- The context after the whole message, for any compression. -/
def sha256Run (hash : η) (garbage : Buffer) (data : List Byte) :
    Outcome (Sha256Context η) := do
  let ctx ← sha256UpdateCtx transform (sha256InitCtx hash garbage) data
  sha256FinalCtx transform ctx

end Context

/-- `sha256_hash`: what is written to `hash_out`. -/
def sha256Hash (garbage : Buffer) (data : List Byte) : Outcome (List Byte) := do
  let ctx ← sha256Run (sha256Transform kSha256) hSha256 garbage data
  pure (ctx.hash.toList.flatMap fun word => store32 (bswap32 word))

end KyroOS.Crypto

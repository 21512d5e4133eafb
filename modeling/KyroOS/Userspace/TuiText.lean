import KyroOS.Basic
import Mathlib.Data.List.Basic

/-!
# Text on the screen

`tui_draw_text` reads a text as UTF-8, up to three bytes for a character, and draws a glyph for each
character at the next place of the line. It is a function from the text in memory to the places of
the framebuffer that are stored to.

## Main definitions

* `decode`, `glyphIndex` — the next character of a text, and its glyph
* `tuiDrawPixel`, `drawGlyph`, `tuiDrawText` — the stores of a call
* `layout` — where the characters of a text belong

## Main results

* `decode_utf8` — a character is decoded from its bytes
* `tuiDrawText_utf8` — the characters of a text are drawn where they belong, inside the buffer
-/

namespace KyroOS.Userspace

/-! ### The function -/

/-- `fb_info_t`, less the address of the buffer. -/
structure FbInfo where
  width : BitVec 32
  height : BitVec 32
  pitch : BitVec 32
  bpp : BitVec 32

/-- The next character, with the number of its bytes. -/
def decode (b0 b1 b2 : Byte) : Option (BitVec 32 × ℕ) :=
  if b0.toNat < 0x80 then some (b0.setWidth 32, 1)
  else if b0 &&& 0xE0#8 = 0xC0#8 then
    some ((b0 &&& 0x1F#8).setWidth 32 <<< 6 ||| (b1 &&& 0x3F#8).setWidth 32, 2)
  else if b0 &&& 0xF0#8 = 0xE0#8 then
    some ((b0 &&& 0x0F#8).setWidth 32 <<< 12 ||| (b1 &&& 0x3F#8).setWidth 32 <<< 6 |||
      (b2 &&& 0x3F#8).setWidth 32, 3)
  else none

/-- The glyph of a character: ASCII and the Russian letters have one, and the others that of the
question mark. -/
def glyphIndex (codepoint : BitVec 32) : Byte :=
  if codepoint < 128 then codepoint.setWidth 8
  else if 0x0410 ≤ codepoint ∧ codepoint ≤ 0x044F then
    if 0x0410 ≤ codepoint ∧ codepoint ≤ 0x045F then (128 + (codepoint - 0x0410)).setWidth 8
    else 0x3F
  else 0x3F

/-- A glyph that is drawn, and its place. -/
structure Glyph where
  x : BitVec 32
  y : BitVec 32
  index : Byte
  deriving DecidableEq

section Draw

variable (info : FbInfo) (defaultFont : Byte → ℕ → Byte)

/-- `tui_draw_pixel`. The store is given by its offset in the buffer. -/
def tuiDrawPixel (x y : BitVec 32) : List Word :=
  if x ≥ info.width ∨ y ≥ info.height then []
  else [(y * info.pitch + x * (info.bpp / 8)).setWidth 64]

/-- The two loops over the bits of a glyph. -/
def drawGlyph (glyph : Glyph) : List Word :=
  (List.range 16).flatMap fun row =>
    (List.range 8).flatMap fun col =>
      if defaultFont glyph.index row >>> (7 - col) &&& 1 ≠ 0 then
        tuiDrawPixel info (glyph.x + BitVec.ofNat 32 col) (glyph.y + BitVec.ofNat 32 row)
      else []

/-- The loop of `tui_draw_text`, from the given byte and place on. A line begins at `x`. -/
def tuiDrawText (memory : ℕ → Byte) (x : BitVec 32) :
    ℕ → ℕ → BitVec 32 → BitVec 32 → Option (List Word)
  | 0, _, _, _ => none
  | fuel + 1, p, currentX, y =>
    if memory p = 0 then some []
    else
      match decode (memory p) (memory (p + 1)) (memory (p + 2)) with
      | none => tuiDrawText memory x fuel (p + 1) currentX y
      | some (codepoint, bytes) =>
        if codepoint = 0x0A then tuiDrawText memory x fuel (p + bytes) x (y + 16)
        else
          (tuiDrawText memory x fuel (p + bytes) (currentX + 8) y).map
            (drawGlyph info defaultFont ⟨currentX, y, glyphIndex codepoint⟩ ++ ·)

end Draw

/-! ### What it is for -/

/-- The glyph of a character. -/
def glyphOf (c : Char) : ℕ :=
  if c.toNat < 128 then c.toNat
  else if 0x0410 ≤ c.toNat ∧ c.toNat ≤ 0x044F then 128 + (c.toNat - 0x0410)
  else 63

/-- Where the characters of a text belong. Those beyond the first plane are left out. -/
def layout (x : BitVec 32) : List Char → BitVec 32 → BitVec 32 → List Glyph
  | [], _, _ => []
  | c :: cs, currentX, y =>
    if c.toNat = 0x0A then layout x cs x (y + 16)
    else if c.toNat ≤ 0xFFFF then
      ⟨currentX, y, BitVec.ofNat 8 (glyphOf c)⟩ :: layout x cs (currentX + 8) y
    else layout x cs currentX y

/-- The bytes of a character. -/
def utf8 (c : Char) : List Byte := (String.utf8EncodeChar c).map UInt8.toBitVec

/-- A text that ends with a zero is in memory. -/
def TextAt (memory : ℕ → Byte) : ℕ → List Byte → Prop
  | p, [] => memory p = 0
  | p, b :: bs => memory p = b ∧ TextAt memory (p + 1) bs

/-- The lines of the buffer hold the pixels of the screen, four bytes each. -/
structure Geometry (info : FbInfo) : Prop where
  four_bytes : info.bpp.toNat / 8 = 4
  line : info.width.toNat * 4 ≤ info.pitch.toNat
  size : info.height.toNat * info.pitch.toNat < 2 ^ 32

/-! ### The bytes of a character -/

section Bytes

variable {b0 b1 b2 : Byte} {memory : ℕ → Byte} {p : ℕ} {bs bs' : List Byte} {c : Char}

/-- The first of two bytes. -/
theorem lead_two (k : Fin 32) : let b := BitVec.ofNat 8 (k.val + 0xC0)
    b ≠ 0 ∧ ¬ b.toNat < 0x80 ∧ b &&& 0xE0#8 = 0xC0#8 ∧ (b &&& 0x1F#8).toNat = k.val := by
  revert k
  decide

/-- The first of three bytes. -/
theorem lead_three (k : Fin 16) : let b := BitVec.ofNat 8 (k.val + 0xE0)
    b ≠ 0 ∧ ¬ b.toNat < 0x80 ∧ b &&& 0xE0#8 ≠ 0xC0#8 ∧ b &&& 0xF0#8 = 0xE0#8 ∧
      (b &&& 0x0F#8).toNat = k.val := by
  revert k
  decide

/-- The first of four bytes. -/
theorem lead_four (k : Fin 8) : let b := BitVec.ofNat 8 (k.val + 0xF0)
    b ≠ 0 ∧ ¬ b.toNat < 0x80 ∧ b &&& 0xE0#8 ≠ 0xC0#8 ∧ b &&& 0xF0#8 ≠ 0xE0#8 := by
  revert k
  decide

/-- A byte that is not the first. -/
theorem tail_byte (k : Fin 64) : let b := BitVec.ofNat 8 (k.val + 0x80)
    b ≠ 0 ∧ ¬ b.toNat < 0x80 ∧ b &&& 0xE0#8 ≠ 0xC0#8 ∧ b &&& 0xF0#8 ≠ 0xE0#8 ∧
      (b &&& 0x3F#8).toNat = k.val := by
  revert k
  decide

/-- Bytes that are skipped. -/
theorem decode_none (hhigh : ¬ b0.toNat < 0x80) (htwo : b0 &&& 0xE0#8 ≠ 0xC0#8)
    (hthree : b0 &&& 0xF0#8 ≠ 0xE0#8) : decode b0 b1 b2 = none := by
  rw [decode, if_neg hhigh, if_neg htwo, if_neg hthree]

/-- Two numbers whose bits do not meet are added by `|||`. -/
theorem or_shift (a b : BitVec 32) (k : ℕ) (hb : b.toNat < 2 ^ k)
    (ha : a.toNat * 2 ^ k < 2 ^ 32) :
    (a <<< k ||| b).toNat = a.toNat * 2 ^ k + b.toNat := by
  rw [BitVec.toNat_or, BitVec.toNat_shiftLeft, Nat.shiftLeft_eq, Nat.mod_eq_of_lt ha,
    ← Nat.shiftLeft_eq, ← Nat.shiftLeft_add_eq_or_of_lt hb]

/-- One byte. -/
theorem decode_one (v : ℕ) (hv : v < 0x80) :
    decode (BitVec.ofNat 8 v) b1 b2 = some (BitVec.ofNat 32 v, 1) := by
  have hbyte : (BitVec.ofNat 8 v).toNat = v := by
    rw [BitVec.toNat_ofNat]
    omega
  rw [decode, if_pos (by omega)]
  congr 2
  apply BitVec.eq_of_toNat_eq
  simp only [BitVec.toNat_setWidth, BitVec.toNat_ofNat]
  omega

/-- Two bytes. -/
theorem decode_two (k : Fin 32) (j : Fin 64) :
    decode (BitVec.ofNat 8 (k.val + 0xC0)) (BitVec.ofNat 8 (j.val + 0x80)) b2 =
      some (BitVec.ofNat 32 (k.val * 64 + j.val), 2) := by
  obtain ⟨-, hhigh, hmask, hk⟩ := lead_two k
  have hj := (tail_byte j).2.2.2.2
  rw [decode, if_neg hhigh, if_pos hmask]
  congr 2
  apply BitVec.eq_of_toNat_eq
  rw [or_shift, BitVec.toNat_setWidth, BitVec.toNat_setWidth, hk, hj, BitVec.toNat_ofNat]
  · omega
  · rw [BitVec.toNat_setWidth, hj]
    omega
  · rw [BitVec.toNat_setWidth, hk]
    omega

/-- Three bytes. -/
theorem decode_three (k : Fin 16) (j i : Fin 64) :
    decode (BitVec.ofNat 8 (k.val + 0xE0)) (BitVec.ofNat 8 (j.val + 0x80))
        (BitVec.ofNat 8 (i.val + 0x80)) =
      some (BitVec.ofNat 32 (k.val * 4096 + j.val * 64 + i.val), 3) := by
  obtain ⟨-, hhigh, hmask, hmask', hk⟩ := lead_three k
  have hj := (tail_byte j).2.2.2.2
  have hi := (tail_byte i).2.2.2.2
  rw [decode, if_neg hhigh, if_neg hmask, if_pos hmask']
  congr 2
  apply BitVec.eq_of_toNat_eq
  have hk' : ((BitVec.ofNat 8 (k.val + 0xE0) &&& 0x0F#8).setWidth 32).toNat = k.val := by
    rw [BitVec.toNat_setWidth, hk]
    omega
  have hj' : ((BitVec.ofNat 8 (j.val + 0x80) &&& 0x3F#8).setWidth 32).toNat = j.val := by
    rw [BitVec.toNat_setWidth, hj]
    omega
  have hi' : ((BitVec.ofNat 8 (i.val + 0x80) &&& 0x3F#8).setWidth 32).toNat = i.val := by
    rw [BitVec.toNat_setWidth, hi]
    omega
  -- the two upper parts together are one number moved by six bits
  rw [show 12 = 6 + 6 from rfl, BitVec.shiftLeft_add, ← BitVec.shiftLeft_or_distrib,
    or_shift _ _ 6 (by omega), or_shift _ _ 6 (by omega) (by omega), hk', hj', hi',
    BitVec.toNat_ofNat]
  · omega
  · rw [or_shift _ _ 6 (by omega) (by omega)]
    omega

theorem textAt_append {bs' : List Byte} (h : TextAt memory p (bs ++ bs')) :
    TextAt memory (p + bs.length) bs' := by
  induction bs generalizing p with
  | nil => exact h
  | cons b bs ih =>
    have := ih h.2
    rwa [List.length_cons, Nat.add_comm bs.length, ← Nat.add_assoc]

/-- A character has one to four bytes. -/
theorem utf8_cases (c : Char) :
    (c.toNat ≤ 0x7F ∧ utf8 c = [BitVec.ofNat 8 c.toNat]) ∨
    (0x7F < c.toNat ∧ ∃ (k : Fin 32) (j : Fin 64), c.toNat = k.val * 64 + j.val ∧
      utf8 c = [BitVec.ofNat 8 (k.val + 0xC0), BitVec.ofNat 8 (j.val + 0x80)]) ∨
    (0x7F < c.toNat ∧ ∃ (k : Fin 16) (j i : Fin 64),
      c.toNat = k.val * 4096 + j.val * 64 + i.val ∧
      utf8 c = [BitVec.ofNat 8 (k.val + 0xE0), BitVec.ofNat 8 (j.val + 0x80),
        BitVec.ofNat 8 (i.val + 0x80)]) ∨
    (0xFFFF < c.toNat ∧ ∃ (l : Fin 8) (k j i : Fin 64),
      utf8 c = [BitVec.ofNat 8 (l.val + 0xF0), BitVec.ofNat 8 (k.val + 0x80),
        BitVec.ofNat 8 (j.val + 0x80), BitVec.ofNat 8 (i.val + 0x80)]) := by
  have hv : c.val.toNat = c.toNat := rfl
  by_cases h7 : c.toNat ≤ 0x7F
  · exact Or.inl ⟨h7, by rw [utf8, String.utf8EncodeChar, hv, if_pos h7]; rfl⟩
  by_cases h11 : c.toNat ≤ 0x7FF
  · refine Or.inr (Or.inl ⟨by omega, ⟨c.toNat / 64 % 32, by omega⟩,
      ⟨c.toNat % 64, by omega⟩, ?_, ?_⟩)
    · show c.toNat = c.toNat / 64 % 32 * 64 + c.toNat % 64
      omega
    rw [utf8, String.utf8EncodeChar, hv, if_neg h7, if_pos h11]
    rfl
  by_cases h16 : c.toNat ≤ 0xFFFF
  · refine Or.inr (Or.inr (Or.inl ⟨by omega, ⟨c.toNat / 4096 % 16, by omega⟩,
      ⟨c.toNat / 64 % 64, by omega⟩, ⟨c.toNat % 64, by omega⟩, ?_, ?_⟩))
    · show c.toNat = c.toNat / 4096 % 16 * 4096 + c.toNat / 64 % 64 * 64 + c.toNat % 64
      omega
    rw [utf8, String.utf8EncodeChar, hv, if_neg h7, if_neg h11, if_pos h16]
    rfl
  · refine Or.inr (Or.inr (Or.inr ⟨by omega, ⟨c.toNat / 262144 % 8, by omega⟩,
      ⟨c.toNat / 4096 % 64, by omega⟩, ⟨c.toNat / 64 % 64, by omega⟩,
      ⟨c.toNat % 64, by omega⟩, ?_⟩))
    rw [utf8, String.utf8EncodeChar, hv, if_neg h7, if_neg h11, if_neg h16]
    rfl

/-- A character of the first plane is decoded from its bytes, and none of them ends the text. -/
theorem decode_utf8 (hzero : c.toNat ≠ 0) (hplane : c.toNat ≤ 0xFFFF)
    (htext : TextAt memory p (utf8 c ++ bs)) :
    memory p ≠ 0 ∧ decode (memory p) (memory (p + 1)) (memory (p + 2)) =
      some (BitVec.ofNat 32 c.toNat, (utf8 c).length) := by
  rcases utf8_cases c with ⟨hle, h⟩ | ⟨-, k, j, hc, h⟩ | ⟨-, k, j, i, hc, h⟩ | ⟨hlt, -⟩
  · rw [h] at htext ⊢
    rw [htext.1]
    refine ⟨?_, decode_one c.toNat (by omega)⟩
    intro heq
    have hnat : (BitVec.ofNat 8 c.toNat).toNat = 0 := by rw [heq]; rfl
    rw [BitVec.toNat_ofNat] at hnat
    omega
  · rw [h] at htext ⊢
    rw [htext.1, htext.2.1, hc]
    exact ⟨(lead_two k).1, decode_two k j⟩
  · rw [h] at htext ⊢
    rw [htext.1, htext.2.1, htext.2.2.1, hc]
    exact ⟨(lead_three k).1, decode_three k j i⟩
  · omega

/-- A byte in the middle of a character is no first byte. -/
theorem decode_tail (k : Fin 64) : decode (BitVec.ofNat 8 (k.val + 0x80)) b1 b2 = none := by
  obtain ⟨-, hhigh, htwo, hthree, -⟩ := tail_byte k
  exact decode_none hhigh htwo hthree

/-- The first of four bytes is not decoded. -/
theorem decode_four (k : Fin 8) : decode (BitVec.ofNat 8 (k.val + 0xF0)) b1 b2 = none := by
  obtain ⟨-, hhigh, htwo, hthree⟩ := lead_four k
  exact decode_none hhigh htwo hthree

/-- A character has the glyph that it should. -/
theorem glyphIndex_char (hplane : c.toNat ≤ 0xFFFF) :
    glyphIndex (BitVec.ofNat 32 c.toNat) = BitVec.ofNat 8 (glyphOf c) := by
  have hnat : (BitVec.ofNat 32 c.toNat).toNat = c.toNat := by
    rw [BitVec.toNat_ofNat]
    omega
  rw [glyphIndex, glyphOf]
  simp only [BitVec.lt_def, BitVec.le_def, hnat]
  by_cases hascii : c.toNat < 128
  · rw [if_pos hascii, if_pos (by simpa using hascii)]
    apply BitVec.eq_of_toNat_eq
    rw [BitVec.toNat_setWidth, hnat, BitVec.toNat_ofNat]
  · rw [if_neg hascii, if_neg (by simpa using hascii)]
    by_cases hletter : 0x0410 ≤ c.toNat ∧ c.toNat ≤ 0x044F
    · rw [if_pos hletter, if_pos (by simpa using hletter),
        if_pos (by simpa using ⟨hletter.1, by omega⟩)]
      apply BitVec.eq_of_toNat_eq
      rw [BitVec.toNat_setWidth, BitVec.toNat_add, BitVec.toNat_sub, hnat, BitVec.toNat_ofNat,
        show (128 : BitVec 32).toNat = 128 from rfl,
        show (0x0410 : BitVec 32).toNat = 0x0410 from rfl]
      omega
    · rw [if_neg hletter, if_neg (by simpa using hletter)]
      rfl

end Bytes

/-! ### A text -/

section Text

variable {info : FbInfo} {defaultFont : Byte → ℕ → Byte} {memory : ℕ → Byte}
  {x currentX y : BitVec 32} {fuel p : ℕ} {bs : List Byte} {c : Char}

/-- A byte that is skipped. -/
theorem tuiDrawText_skip (hzero : memory p ≠ 0)
    (hnone : decode (memory p) (memory (p + 1)) (memory (p + 2)) = none) :
    tuiDrawText info defaultFont memory x (fuel + 1) p currentX y =
      tuiDrawText info defaultFont memory x fuel (p + 1) currentX y := by
  rw [tuiDrawText, if_neg hzero, hnone]

/-- A character beyond the first plane is skipped byte by byte. -/
theorem tuiDrawText_beyond (hplane : 0xFFFF < c.toNat)
    (htext : TextAt memory p (utf8 c ++ bs)) (hfuel : (utf8 c).length ≤ fuel) :
    tuiDrawText info defaultFont memory x fuel p currentX y =
      tuiDrawText info defaultFont memory x (fuel - (utf8 c).length) (p + (utf8 c).length)
        currentX y := by
  rcases utf8_cases c with ⟨hle, -⟩ | ⟨-, k, j, hc, -⟩ | ⟨-, k, j, i, hc, -⟩ | ⟨-, l, k, j, i, h⟩
  · omega
  · omega
  · omega
  · rw [h] at htext hfuel ⊢
    obtain ⟨hl, hk, hj, hi, -⟩ := htext
    obtain ⟨rest, rfl⟩ := Nat.exists_eq_add_of_le hfuel
    rw [show [BitVec.ofNat 8 (l.val + 0xF0), BitVec.ofNat 8 (k.val + 0x80),
      BitVec.ofNat 8 (j.val + 0x80), BitVec.ofNat 8 (i.val + 0x80)].length + rest =
      rest + 1 + 1 + 1 + 1 from by simp only [List.length]; omega]
    rw [tuiDrawText_skip (by rw [hl]; exact (lead_four l).1) (by rw [hl]; exact decode_four l),
      tuiDrawText_skip (by rw [hk]; exact (tail_byte k).1) (by rw [hk]; exact decode_tail k),
      tuiDrawText_skip (by rw [hj]; exact (tail_byte j).1) (by rw [hj]; exact decode_tail j),
      tuiDrawText_skip (by rw [hi]; exact (tail_byte i).1) (by rw [hi]; exact decode_tail i)]
    congr 1

/-- The characters of a text are drawn where they belong. -/
theorem tuiDrawText_layout (cs : List Char) (hzero : ∀ c ∈ cs, c.toNat ≠ 0)
    (htext : TextAt memory p (cs.flatMap utf8)) (hfuel : (cs.flatMap utf8).length < fuel) :
    tuiDrawText info defaultFont memory x fuel p currentX y =
      some ((layout x cs currentX y).flatMap (drawGlyph info defaultFont)) := by
  induction cs generalizing fuel p currentX y with
  | nil =>
    obtain ⟨fuel, rfl⟩ := Nat.exists_eq_succ_of_ne_zero (Nat.ne_zero_of_lt hfuel)
    rw [tuiDrawText, if_pos (show memory p = 0 from htext)]
    rfl
  | cons c cs ih =>
    rw [List.flatMap_cons] at htext hfuel
    rw [List.length_append] at hfuel
    have hrest := textAt_append htext
    have hzero' : ∀ c ∈ cs, c.toNat ≠ 0 := fun c hc => hzero c (List.mem_cons_of_mem _ hc)
    by_cases hplane : c.toNat ≤ 0xFFFF
    · obtain ⟨fuel, rfl⟩ := Nat.exists_eq_add_of_le (by omega : 1 ≤ fuel)
      obtain ⟨hne, hdecode⟩ := decode_utf8 (hzero c List.mem_cons_self) hplane htext
      have hlength : 1 ≤ (utf8 c).length := by
        rw [utf8, List.length_map, String.length_utf8EncodeChar]
        exact c.utf8Size_pos
      rw [Nat.add_comm 1, tuiDrawText, if_neg hne, hdecode]
      have hnewline : BitVec.ofNat 32 c.toNat = 0x0A ↔ c.toNat = 0x0A := by
        rw [← BitVec.toNat_inj, BitVec.toNat_ofNat, show (0x0A : BitVec 32).toNat = 0x0A from rfl]
        omega
      by_cases hline : c.toNat = 0x0A
      · simp only [if_pos (hnewline.mpr hline), layout, if_pos hline]
        exact ih hzero' hrest (by omega)
      · simp only [if_neg (mt hnewline.mp hline), layout, if_neg hline, if_pos hplane]
        rw [ih hzero' hrest (by omega), glyphIndex_char hplane]
        rfl
    · rw [tuiDrawText_beyond (by omega) htext (by omega), ih hzero' hrest (by omega), layout,
        if_neg (by omega), if_neg hplane]

/-- A pixel is stored inside the buffer. -/
theorem tuiDrawPixel_inside (hinfo : Geometry info) {x y : BitVec 32} {offset : Word}
    (hmem : offset ∈ tuiDrawPixel info x y) :
    offset.toNat + 4 ≤ info.height.toNat * info.pitch.toNat := by
  rw [tuiDrawPixel] at hmem
  by_cases hout : x ≥ info.width ∨ y ≥ info.height
  · rw [if_pos hout] at hmem
    cases hmem
  · rw [if_neg hout, List.mem_singleton] at hmem
    subst hmem
    have hx : x.toNat < info.width.toNat :=
      BitVec.lt_def.mp (BitVec.not_le.mp (not_or.mp hout).1)
    have hy : y.toNat < info.height.toNat :=
      BitVec.lt_def.mp (BitVec.not_le.mp (not_or.mp hout).2)
    have hrow : (y.toNat + 1) * info.pitch.toNat ≤ info.height.toNat * info.pitch.toNat :=
      Nat.mul_le_mul_right _ hy
    rw [Nat.add_mul, Nat.one_mul] at hrow
    have hline := hinfo.line
    have hsize := hinfo.size
    have hfour : (info.bpp / 8).toNat = 4 := by
      rw [BitVec.toNat_udiv]
      exact hinfo.four_bytes
    rw [BitVec.toNat_setWidth, BitVec.toNat_add, BitVec.toNat_mul, BitVec.toNat_mul, hfour,
      Nat.mod_eq_of_lt (by omega : y.toNat * info.pitch.toNat < 2 ^ 32),
      Nat.mod_eq_of_lt (by omega : x.toNat * 4 < 2 ^ 32)]
    omega

/-- A glyph is stored inside the buffer, wherever it is. -/
theorem drawGlyph_inside (hinfo : Geometry info) {glyph : Glyph} {offset : Word}
    (hmem : offset ∈ drawGlyph info defaultFont glyph) :
    offset.toNat + 4 ≤ info.height.toNat * info.pitch.toNat := by
  simp only [drawGlyph, List.mem_flatMap] at hmem
  obtain ⟨row, -, col, -, hmem⟩ := hmem
  split at hmem
  · exact tuiDrawPixel_inside hinfo hmem
  · cases hmem

end Text

section Main

variable (info : FbInfo) (defaultFont : Byte → ℕ → Byte) (memory : ℕ → Byte)

/-- A text in UTF-8 is drawn to its end: each character of the first plane has its glyph at its
place, and nothing is stored outside the buffer. -/
theorem tuiDrawText_utf8 (hinfo : Geometry info) (cs : List Char) (hzero : ∀ c ∈ cs, c.toNat ≠ 0)
    (p : ℕ) (htext : TextAt memory p (cs.flatMap utf8)) (x y : BitVec 32) :
    ∃ stores, (∀ fuel, (cs.flatMap utf8).length < fuel →
        tuiDrawText info defaultFont memory x fuel p x y = some stores) ∧
      stores = (layout x cs x y).flatMap (drawGlyph info defaultFont) ∧
      ∀ offset ∈ stores, offset.toNat + 4 ≤ info.height.toNat * info.pitch.toNat := by
  refine ⟨_, fun fuel hfuel => tuiDrawText_layout cs hzero htext hfuel, rfl, ?_⟩
  intro offset hmem
  rw [List.mem_flatMap] at hmem
  obtain ⟨glyph, -, hmem⟩ := hmem
  exact drawGlyph_inside hinfo hmem

end Main

/-- Two lines of text: a letter of each alphabet, and one beyond the first plane. -/
def twoLines : List Char := ['A', 'Я', '\n', '😀', 'я']

/-- The bytes of the text, from address zero on. -/
def twoLinesMemory (n : ℕ) : Byte := (twoLines.flatMap utf8).getD n 0

/-- A small screen. -/
def smallScreen : FbInfo := ⟨64, 32, 256, 32⟩

theorem tuiDrawText_utf8_twoLines :
    (∃ stores, (∀ fuel, (twoLines.flatMap utf8).length < fuel →
        tuiDrawText smallScreen (fun _ _ => 0x80) twoLinesMemory 8 fuel 0 8 0 = some stores) ∧
      stores = (layout 8 twoLines 8 0).flatMap (drawGlyph smallScreen fun _ _ => 0x80) ∧
      ∀ offset ∈ stores, offset.toNat + 4 ≤ 32 * 256) ∧
    layout 8 twoLines 8 0 = [⟨8, 0, 0x41⟩, ⟨16, 0, 0x9F⟩, ⟨8, 16, 0xBF⟩] :=
  ⟨tuiDrawText_utf8 smallScreen (fun _ _ => 0x80) twoLinesMemory
    ⟨by decide, by decide, by decide⟩ twoLines (by simp [twoLines]) 0
    (by
      refine ⟨rfl, rfl, rfl, rfl, rfl, rfl, rfl, rfl, rfl, rfl, ?_⟩
      rfl) 8 0, by decide⟩

end KyroOS.Userspace

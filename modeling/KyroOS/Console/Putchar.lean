import KyroOS.Console.Bounds
import KyroOS.Lib.Terminal
import KyroOS.Net.Bytes
import KyroOS.Strings.Memmove

/-!
# The console

The console draws characters in cells of 8 by 16 pixels. When the cursor leaves the last row it
moves the lines of pixels up by 16 and fills the last 16 of them.

## Main definitions

* `ConsoleState`, `klogPutchar`, `klogPrintStr`, `consoleClear` — the console and its functions
* `fbCopyRegion` — lines of the back buffer are moved, byte by byte
* `Screen32` — a framebuffer with 32 bits per pixel and room for a character
* `Draws` — the pixels of the grid are those of a terminal

## Main results

* `fbCopyRegion_apply` — what moving lines does to a cell
* `Draws.klogPutchar` — a character does to the pixels what it does to the terminal
* `klogPrintStr_draws` — so does each character of a string on a cleared console
-/

namespace KyroOS.Console

open Strings

/-- `FB_DEFAULT_FG_COLOR` -/
def fgColor : Color := 0xFFFFFFFF

/-- `FB_DEFAULT_BG_COLOR` -/
def bgColor : Color := 0xFF00004A

/-! ### The functions -/

/-- The bytes of the back buffer. -/
def toBytes (buffer : Word → Color) (k : ℕ) : Byte :=
  (Net.store32 (buffer (BitVec.ofNat 64 (k / 4)))).getD (k % 4) 0

/-- The cells that bytes make up. -/
def ofBytes (m : ℕ → Byte) (index : Word) : Color := Net.load32 m (4 * index.toNat)

/-- `fb_copy_region` -/
def fbCopyRegion (fb : Framebuffer) (buffer : Word → Color) (srcY destY rows : BitVec 32) :
    Word → Color :=
  if fb.backbuffer then
    let pitchInDwords := fb.info.pitch / 4
    let dst := destY.signExtend 64 * pitchInDwords
    let src := srcY.signExtend 64 * pitchInDwords
    let sizeInDwords := rows.signExtend 64 * pitchInDwords
    ofBytes (memmove (toBytes buffer) (4 * dst.toNat) (4 * src.toNat) (sizeInDwords * 4).toNat)
  else buffer

/-- `console_x`, `console_y` and the back buffer. -/
structure ConsoleState where
  consoleX : BitVec 32
  consoleY : BitVec 32
  buffer : Word → Color

section

variable (fb : Framebuffer) (con : ConsoleState)

/-- `max_console_x` -/
def maxConsoleX : BitVec 32 := (fb.info.width / 8).setWidth 32

/-- `max_console_y` -/
def maxConsoleY : BitVec 32 := (fb.info.height / 16).setWidth 32

/-- The first part of `klog_putchar`: what it does for the character. -/
def place (c : Byte) : ConsoleState :=
  if c = 0x0A then { con with consoleX := 0, consoleY := con.consoleY + 1 }
  else if c = 0x08 then
    if con.consoleX > 0 then
      let consoleX := con.consoleX - 1
      { con with
        consoleX
        buffer := paint con.buffer
          (fbDrawChar fb 0x20 (consoleX * 8) (con.consoleY * 16) fgColor bgColor) }
    else con
  else
    { con with
      consoleX := con.consoleX + 1
      buffer := paint con.buffer
        (fbDrawChar fb c (con.consoleX * 8) (con.consoleY * 16) fgColor bgColor) }

/-- The second part: the end of a line. -/
def wrap : ConsoleState :=
  if con.consoleX ≥ maxConsoleX fb then { con with consoleX := 0, consoleY := con.consoleY + 1 }
  else con

/-- The third part: the end of the screen. -/
def scroll : ConsoleState :=
  if con.consoleY ≥ maxConsoleY fb then
    let lastRow := (maxConsoleY fb - 1) * 16
    let moved := fbCopyRegion fb con.buffer 16 0 lastRow
    { con with
      consoleY := maxConsoleY fb - 1
      buffer := paint moved
        (fbDrawRect fb 0 lastRow (fb.info.width.setWidth 32) 16 bgColor) }
  else con

/-- `klog_putchar` -/
def klogPutchar (c : Byte) : ConsoleState := scroll fb (wrap fb (place fb con c))

/-- `console_clear` -/
def consoleClear : ConsoleState := ⟨0, 0, paint con.buffer (fbClear fb bgColor)⟩

end

/-- `klog_print_str` of the string with these characters in front of the NUL. -/
def klogPrintStr (fb : Framebuffer) : ConsoleState → List Byte → ConsoleState
  | con, [] => con
  | con, c :: s => klogPrintStr fb (klogPutchar fb con c) s

/-! ### The terminal -/

/-- A framebuffer with 32 bits per pixel and a back buffer, with room for a character. Its lines have
room for their pixels, `int` holds its sizes, and 64 bits hold the size of all of it. -/
structure Screen32 (fb : Framebuffer) : Prop where
  present : fb.backbuffer = true
  bpp : fb.info.bpp = 32
  pitch : fb.info.width.toNat * fb.info.bpp.toNat / 8 ≤ fb.info.pitch.toNat
  width : 8 ≤ fb.info.width.toNat ∧ fb.info.width.toNat < 2 ^ 31
  height : 16 ≤ fb.info.height.toNat ∧ fb.info.height.toNat < 2 ^ 31
  size : fb.info.height.toNat * fb.info.pitch.toNat < 2 ^ 64

/-- The columns and the rows of the grid. -/
def columns (fb : Framebuffer) : ℕ := fb.info.width.toNat / 8

def rows (fb : Framebuffer) : ℕ := fb.info.height.toNat / 16

/-- A pixel of a character. -/
def pixel (c : Byte) (cx cy : ℕ) : Color :=
  if (defaultFont c cy).getLsbD (7 - cx) then fgColor else bgColor

/-- A pixel of the terminal. -/
def render (t : Terminal Byte) (i j : ℕ) : Color := pixel (t.cell (j / 16) (i / 8)) (i % 8) (j % 16)

/-- What a character means to a terminal. -/
def input (c : Byte) : Terminal.Input Byte :=
  if c = 0x0A then .newline else if c = 0x08 then .backspace else .char c

/-- The pixels of the grid are those of the terminal. -/
def Pixels (fb : Framebuffer) (buffer : Word → Color) (t : Terminal Byte) : Prop :=
  ∀ i < columns fb * 8, ∀ j < rows fb * 16, buffer (cell fb i j) = render t i j

/-- The cursor and the pixels of the grid are those of the terminal, and the cursor is inside the
grid. -/
structure Draws (fb : Framebuffer) (con : ConsoleState) (t : Terminal Byte) : Prop where
  column : con.consoleX.toNat = t.column
  row : con.consoleY.toNat = t.row
  inside : t.Inside (rows fb) (columns fb)
  pixels : Pixels fb con.buffer t

/-! ### Cells -/

variable {fb : Framebuffer} {con : ConsoleState} {buffer : Word → Color} {t : Terminal Byte}

namespace Screen32

/-- The sizes are small enough when the back buffer, which is in memory, has less than 2 ^ 36
bytes. -/
theorem of_size (hpresent : fb.backbuffer = true) (hbpp : fb.info.bpp = 32)
    (hpitch : fb.info.width.toNat * fb.info.bpp.toNat / 8 ≤ fb.info.pitch.toNat)
    (hwidth : 8 ≤ fb.info.width.toNat) (hheight : 16 ≤ fb.info.height.toNat)
    (hsize : fb.info.height.toNat * fb.info.pitch.toNat < 2 ^ 36) : Screen32 fb := by
  have hline := hpitch
  have hbits : (32 : BitVec 16).toNat = 32 := rfl
  rw [hbpp, hbits] at hline
  have hrows : 16 * fb.info.pitch.toNat ≤ fb.info.height.toNat * fb.info.pitch.toNat :=
    Nat.mul_le_mul_right _ hheight
  have hcolumns : fb.info.height.toNat * 32 ≤ fb.info.height.toNat * fb.info.pitch.toNat :=
    Nat.mul_le_mul_left _ (by omega)
  exact ⟨hpresent, hbpp, hpitch, ⟨hwidth, by omega⟩, ⟨hheight, by omega⟩, hsize.trans (by decide)⟩

/-- A line of cells has room for the pixels of a line. -/
theorem width_le (h : Screen32 fb) : fb.info.width.toNat ≤ fb.info.pitch.toNat / 4 := by
  have hpitch := h.pitch
  rw [h.bpp] at hpitch
  have hbpp : (32 : BitVec 16).toNat = 32 := rfl
  rw [hbpp] at hpitch
  omega

/-- The first cell behind some lines of the screen. -/
theorem line_lt (h : Screen32 fb) {j : ℕ} (hj : j ≤ fb.info.height.toNat) :
    j * (fb.info.pitch.toNat / 4) < 2 ^ 62 := by
  have hsize := h.size
  have hmul : j * (fb.info.pitch.toNat / 4) ≤ fb.info.height.toNat * (fb.info.pitch.toNat / 4) :=
    Nat.mul_le_mul_right _ hj
  have hdiv : fb.info.height.toNat * (fb.info.pitch.toNat / 4) ≤
      fb.info.height.toNat * fb.info.pitch.toNat / 4 := Nat.mul_div_le_mul_div_assoc ..
  omega

theorem toNat_cell (h : Screen32 fb) {i j : ℕ} (hi : i < fb.info.width.toNat)
    (hj : j < fb.info.height.toNat) :
    (cell fb i j).toNat = j * (fb.info.pitch.toNat / 4) + i := by
  have hline := h.line_lt hj
  have hwidth := h.width_le
  rw [Nat.succ_mul] at hline
  rw [Console.toNat_cell]
  exact Nat.mod_eq_of_lt (by omega)

/-- Pixels of the screen have cells of their own. -/
theorem cell_inj (h : Screen32 fb) {i j i' j' : ℕ} (hi : i < fb.info.width.toNat)
    (hj : j < fb.info.height.toNat) (hi' : i' < fb.info.width.toNat)
    (hj' : j' < fb.info.height.toNat) (hcell : cell fb i j = cell fb i' j') : i = i' ∧ j = j' := by
  have hnat := congrArg BitVec.toNat hcell
  rw [h.toNat_cell hi hj, h.toNat_cell hi' hj'] at hnat
  have hwidth := h.width_le
  have hpos : 0 < fb.info.pitch.toNat / 4 := by omega
  have hdiv : ∀ i j : ℕ, i < fb.info.pitch.toNat / 4 →
      (j * (fb.info.pitch.toNat / 4) + i) / (fb.info.pitch.toNat / 4) = j := by
    intro i j hlt
    rw [Nat.mul_comm, Nat.mul_add_div hpos, Nat.div_eq_of_lt hlt, Nat.add_zero]
  have hj : j = j' := by
    rw [← hdiv i j (by omega), hnat, hdiv i' j' (by omega)]
  subst hj
  omega

theorem width_eq (h : Screen32 fb) : toInt32 fb.info.width = fb.info.width.toNat :=
  toInt32_of_lt h.width.2

theorem height_eq (h : Screen32 fb) : toInt32 fb.info.height = fb.info.height.toNat :=
  toInt32_of_lt h.height.2

/-- A pixel of the grid is on the screen. -/
theorem lt_width {i : ℕ} (hi : i < columns fb * 8) : i < fb.info.width.toNat := by
  unfold columns at hi
  omega

theorem lt_height {j : ℕ} (hj : j < rows fb * 16) : j < fb.info.height.toNat := by
  unfold rows at hj
  omega

theorem columns_pos (h : Screen32 fb) : 0 < columns fb := by
  have hwidth := h.width.1
  unfold columns
  omega

theorem rows_pos (h : Screen32 fb) : 0 < rows fb := by
  have hheight := h.height.1
  unfold rows
  omega

theorem toNat_maxConsoleX (h : Screen32 fb) : (maxConsoleX fb).toNat = columns fb := by
  have hwidth := h.width.2
  rw [maxConsoleX, BitVec.toNat_setWidth, BitVec.toNat_udiv]
  exact Nat.mod_eq_of_lt (by show fb.info.width.toNat / 8 < _; omega)

theorem toNat_maxConsoleY (h : Screen32 fb) : (maxConsoleY fb).toNat = rows fb := by
  have hheight := h.height.2
  rw [maxConsoleY, BitVec.toNat_setWidth, BitVec.toNat_udiv]
  exact Nat.mod_eq_of_lt (by show fb.info.height.toNat / 16 < _; omega)

end Screen32

/-- A coordinate that `int` holds. -/
theorem toInt_ofNat_of_lt {n : ℕ} (hn : n < 2 ^ 31) : (BitVec.ofNat 32 n).toInt = n := by
  have hnat : (BitVec.ofNat 32 n).toNat = n := Nat.mod_eq_of_lt (by omega)
  rw [BitVec.toInt_eq_toNat_of_lt (by omega), hnat]

/-! ### Drawing a character -/

/-- The stores for a character that is on the screen. -/
theorem mem_fbDrawChar_iff (h : Screen32 fb) {c : Byte} {x y : ℕ} {s : Store}
    (hx : x + 8 ≤ fb.info.width.toNat) (hy : y + 16 ≤ fb.info.height.toNat) :
    s ∈ fbDrawChar fb c (BitVec.ofNat 32 x) (BitVec.ofNat 32 y) fgColor bgColor ↔
      ∃ cx < 8, ∃ cy < 16, s = ⟨cell fb ↑(x + cx) ↑(y + cy), pixel c cx cy⟩ := by
  have hwidth := h.width.2
  have hheight := h.height.2
  have hadd : ∀ n k : ℕ, BitVec.ofNat 32 n + BitVec.ofNat 32 k = BitVec.ofNat 32 (n + k) :=
    fun n k => (BitVec.ofNat_add n k).symm
  have hcell : ∀ n < 2 ^ 31, (BitVec.ofNat 32 n).setWidth 64 = BitVec.ofInt 64 (n : ℤ) := by
    intro n hn
    have hint := toInt_ofNat_of_lt hn
    rw [setWidth_eq_ofInt (by omega), hint]
  simp only [fbDrawChar, h.present, if_true, List.mem_flatMap, List.mem_range, hadd, h.width_eq,
    h.height_eq, fontHeight, fontWidth]
  constructor
  · rintro ⟨cy, hcy, hs⟩
    rw [toInt_ofNat_of_lt (by omega), if_neg (by omega)] at hs
    obtain ⟨cx, hcx, hs⟩ := List.mem_flatMap.mp hs
    rw [List.mem_range] at hcx
    rw [toInt_ofNat_of_lt (by omega), if_neg (by omega), hcell _ (by omega),
      hcell _ (by omega)] at hs
    exact ⟨cx, hcx, cy, hcy, List.mem_singleton.mp hs⟩
  · rintro ⟨cx, hcx, cy, hcy, rfl⟩
    refine ⟨cy, hcy, ?_⟩
    rw [toInt_ofNat_of_lt (by omega), if_neg (by omega)]
    refine List.mem_flatMap.mpr ⟨cx, List.mem_range.mpr hcx, ?_⟩
    rw [toInt_ofNat_of_lt (by omega), if_neg (by omega), hcell _ (by omega), hcell _ (by omega)]
    exact List.mem_singleton.mpr rfl

/-- The terminal with a character in a cell, and the back buffer with the character drawn. -/
theorem Pixels.write (h : Screen32 fb) (hpixels : Pixels fb buffer t) {r k : ℕ} (hr : r < rows fb)
    (hk : k < columns fb) (c : Byte) :
    Pixels fb
      (paint buffer
        (fbDrawChar fb c (BitVec.ofNat 32 (k * 8)) (BitVec.ofNat 32 (r * 16)) fgColor bgColor))
      (t.write r k c) := by
  intro i hi j hj
  have hwidth := h.width.2
  have hx : k * 8 + 8 ≤ fb.info.width.toNat := by
    unfold columns at hk
    omega
  have hy : r * 16 + 16 ≤ fb.info.height.toNat := by
    unfold rows at hr
    omega
  have hin := Screen32.lt_width hi
  have hjn := Screen32.lt_height hj
  have hmem := fun s => mem_fbDrawChar_iff h (c := c) (s := s) hx hy
  have hcolor : ∀ s ∈ fbDrawChar fb c (BitVec.ofNat 32 (k * 8)) (BitVec.ofNat 32 (r * 16)) fgColor
      bgColor, s.index = cell fb i j → s.color = pixel c (i % 8) (j % 16) := by
    intro s hs hindex
    obtain ⟨cx, hcx, cy, hcy, rfl⟩ := (hmem s).mp hs
    obtain ⟨rfl, rfl⟩ := h.cell_inj (by omega) (by omega) hin hjn hindex
    show pixel c cx cy = _
    rw [show (k * 8 + cx) % 8 = cx by omega, show (r * 16 + cy) % 16 = cy by omega]
  rw [paint_apply_of _ _ _ hcolor]
  by_cases hhere : i / 8 = k ∧ j / 16 = r
  · obtain ⟨rfl, rfl⟩ := hhere
    rw [if_pos]
    · simp [render, Terminal.write]
    · refine ⟨_, (hmem _).mpr ⟨i % 8, Nat.mod_lt i (by decide), j % 16,
        Nat.mod_lt j (by decide), rfl⟩, ?_⟩
      rw [show i / 8 * 8 + i % 8 = i by omega, show j / 16 * 16 + j % 16 = j by omega]
  · rw [if_neg]
    · rw [hpixels i hi j hj, render, render, Terminal.write]
      by_cases hrow : j / 16 = r
      · have hcolumn : i / 8 ≠ k := fun heq => hhere ⟨heq, hrow⟩
        simp [hrow, hcolumn]
      · simp [hrow]
    · rintro ⟨s, hs, hindex⟩
      obtain ⟨cx, hcx, cy, hcy, rfl⟩ := (hmem s).mp hs
      obtain ⟨rfl, rfl⟩ := h.cell_inj (by omega) (by omega) hin hjn hindex
      exact hhere ⟨by omega, by omega⟩

/-! ### Moving the lines up -/

/-- A cell of the back buffer in its bytes. -/
theorem contains_toBytes (buffer : Word → Color) (k : ℕ) :
    Net.Contains (toBytes buffer) (4 * k) (Net.store32 (buffer (BitVec.ofNat 64 k))) := by
  intro i hi
  rw [Net.length_store32] at hi
  rw [toBytes, show (4 * k + i) / 4 = k by omega, show (4 * k + i) % 4 = i by omega]
  exact List.getD_eq_getElem _ _ hi

/-- Cells are moved as a whole. -/
theorem ofBytes_memmove (buffer : Word → Color) (d s n : ℕ) (index : Word) :
    ofBytes (memmove (toBytes buffer) (4 * d) (4 * s) (4 * n)) index =
      if d ≤ index.toNat ∧ index.toNat < d + n then
        buffer (BitVec.ofNat 64 (s + (index.toNat - d)))
      else buffer index := by
  by_cases hin : d ≤ index.toNat ∧ index.toNat < d + n
  · rw [if_pos hin]
    refine Net.Contains.load32 fun b hb => ?_
    rw [← contains_toBytes buffer _ b hb]
    rw [Net.length_store32] at hb
    rw [memmove_apply, if_pos (by omega)]
    congr 1
    omega
  · rw [if_neg hin]
    have hsame := contains_toBytes buffer index.toNat
    rw [BitVec.ofNat_toNat, BitVec.setWidth_eq] at hsame
    refine Net.Contains.load32 fun b hb => ?_
    rw [← hsame b hb]
    rw [Net.length_store32] at hb
    rw [memmove_apply, if_neg (by omega)]

/-- The first cell of a line. -/
theorem toNat_line (fb : Framebuffer) {n : ℕ} {y : BitVec 32} (hy : y.toNat = n) (hn : n < 2 ^ 31)
    (hline : n * (fb.info.pitch.toNat / 4) < 2 ^ 62) :
    (y.signExtend 64 * (fb.info.pitch / 4)).toNat = n * (fb.info.pitch.toNat / 4) := by
  have hint : y.toInt = (n : ℤ) := by
    rw [BitVec.toInt_eq_toNat_of_lt (by omega), hy]
  have hcell := toNat_cell fb 0 n
  rw [BitVec.signExtend, hint]
  rw [cell, Nat.cast_zero, BitVec.ofInt_ofNat, BitVec.add_zero, Nat.add_zero] at hcell
  rw [hcell]
  exact Nat.mod_eq_of_lt (by omega)

/-- The row of characters below the first one that are moved, in lines of pixels. -/
theorem toNat_lastRow (h : Screen32 fb) :
    ((maxConsoleY fb - 1) * 16).toNat = (rows fb - 1) * 16 := by
  have hpos := h.rows_pos
  have hheight := h.height.2
  have hrows := h.toNat_maxConsoleY
  have hle : rows fb * 16 ≤ fb.info.height.toNat := Nat.div_mul_le_self _ 16
  have hone : (1 : BitVec 32).toNat = 1 := rfl
  have hsub : (maxConsoleY fb - 1).toNat = rows fb - 1 := by
    rw [BitVec.toNat_sub, hrows, hone]
    omega
  have hsixteen : (16 : BitVec 32).toNat = 16 := rfl
  rw [BitVec.toNat_mul, hsub, hsixteen]
  exact Nat.mod_eq_of_lt (by omega)

/-- The lines below the first row of characters are moved up by 16. -/
theorem fbCopyRegion_apply (h : Screen32 fb) (buffer : Word → Color) {i j : ℕ}
    (hi : i < fb.info.width.toNat) (hj : j < (rows fb - 1) * 16) :
    fbCopyRegion fb buffer 16 0 ((maxConsoleY fb - 1) * 16) (cell fb i j) =
      buffer (cell fb i ↑(j + 16)) := by
  have hheight := h.height
  have hle : rows fb * 16 ≤ fb.info.height.toNat := Nat.div_mul_le_self _ 16
  have hsrc := toNat_line fb (show (16 : BitVec 32).toNat = 16 from rfl) (by decide)
    (h.line_lt hheight.1)
  have hdst := toNat_line fb (show (0 : BitVec 32).toNat = 0 from rfl) (by decide)
    (h.line_lt (Nat.zero_le _))
  have hend := h.line_lt (show (rows fb - 1) * 16 ≤ fb.info.height.toNat by omega)
  have hsize := toNat_line fb (toNat_lastRow h) (by omega) hend
  have hbytes : (((maxConsoleY fb - 1) * 16).signExtend 64 * (fb.info.pitch / 4) * 4).toNat =
      4 * ((rows fb - 1) * 16 * (fb.info.pitch.toNat / 4)) := by
    have hfour : (4 : Word).toNat = 4 := rfl
    rw [BitVec.toNat_mul, hsize, hfour, Nat.mul_comm _ 4]
    exact Nat.mod_eq_of_lt (by omega)
  have hjn : j < fb.info.height.toNat := by omega
  have hjs : j + 16 < fb.info.height.toNat := by omega
  have hcell := h.toNat_cell hi hjn
  have hwidth := h.width_le
  -- the cell is in front of the end of the last line that is moved
  have hlines : (j + 1) * (fb.info.pitch.toNat / 4) ≤
      (rows fb - 1) * 16 * (fb.info.pitch.toNat / 4) := Nat.mul_le_mul_right _ hj
  rw [Nat.succ_mul] at hlines
  rw [fbCopyRegion, if_pos h.present]
  rw [hsrc, hdst, hbytes, ofBytes_memmove, hcell, if_pos (by omega)]
  congr 1
  apply BitVec.eq_of_toNat_eq
  rw [h.toNat_cell hi hjs, BitVec.toNat_ofNat, Nat.add_mul]
  have hsum := h.line_lt (show j + 16 ≤ fb.info.height.toNat by omega)
  rw [Nat.add_mul] at hsum
  rw [Nat.mod_eq_of_lt (by omega)]
  omega

/-- The space is drawn as the background. -/
theorem pixel_space (cx cy : ℕ) : pixel 0x20 cx cy = bgColor := by
  rw [pixel, defaultFont_space]
  simp

/-- The lines of pixels move up as the rows of the terminal do. -/
theorem Pixels.scroll (h : Screen32 fb) (hpixels : Pixels fb buffer t) :
    Pixels fb
      (paint (fbCopyRegion fb buffer 16 0 ((maxConsoleY fb - 1) * 16))
        (fbDrawRect fb 0 ((maxConsoleY fb - 1) * 16) (fb.info.width.setWidth 32) 16 bgColor))
      (t.scroll (rows fb) 0x20) := by
  intro i hi j hj
  have hpos := h.rows_pos
  have hheight := h.height
  have hle : rows fb * 16 ≤ fb.info.height.toNat := Nat.div_mul_le_self _ 16
  have hin := Screen32.lt_width hi
  have hjn := Screen32.lt_height hj
  have hrow := toNat_lastRow h
  have hy : ((maxConsoleY fb - 1) * 16).toInt = ((rows fb - 1) * 16 : ℕ) := by
    rw [BitVec.toInt_eq_toNat_of_lt (by omega), hrow]
  have hyh : ((maxConsoleY fb - 1) * 16 + 16).toInt = (rows fb * 16 : ℕ) := by
    have hsixteen : (16 : BitVec 32).toNat = 16 := rfl
    have hsum : ((maxConsoleY fb - 1) * 16 + 16).toNat = rows fb * 16 := by
      rw [BitVec.toNat_add, hrow, hsixteen]
      omega
    rw [BitVec.toInt_eq_toNat_of_lt (by omega), hsum]
  have hxw : ((0 : BitVec 32) + fb.info.width.setWidth 32).toInt = fb.info.width.toNat := by
    have hsum : (0 : BitVec 32) + fb.info.width.setWidth 32 = fb.info.width.setWidth 32 :=
      BitVec.zero_add _
    rw [hsum]
    exact h.width_eq
  have hcolor : ∀ s ∈ fbDrawRect fb 0 ((maxConsoleY fb - 1) * 16) (fb.info.width.setWidth 32) 16
      bgColor, s.color = bgColor := by
    intro s hs
    obtain ⟨-, i, j, -, -, -, -, -, rfl⟩ := mem_fbDrawRect.mp hs
    rfl
  rw [paint_apply _ _ hcolor, render]
  by_cases hlast : j < (rows fb - 1) * 16
  · rw [if_neg, fbCopyRegion_apply h _ hin hlast, hpixels i hi (j + 16) (by omega), render]
    · have hmore : j / 16 + 1 < rows fb := by omega
      simp [Terminal.scroll, hmore, show (j + 16) / 16 = j / 16 + 1 by omega]
    · rintro ⟨s, hs, hindex⟩
      obtain ⟨-, i', j', -, -, hylo, -, hon, rfl⟩ := mem_fbDrawRect.mp hs
      obtain ⟨hi', hiwidth, hj', hjheight⟩ := hon
      rw [h.width_eq] at hiwidth
      rw [h.height_eq] at hjheight
      obtain ⟨i', rfl⟩ := Int.eq_ofNat_of_zero_le hi'
      obtain ⟨j', rfl⟩ := Int.eq_ofNat_of_zero_le hj'
      obtain ⟨-, rfl⟩ := h.cell_inj (by omega) (by omega) hin hjn hindex
      rw [hy] at hylo
      omega
  · rw [if_pos]
    · have hblank : (t.scroll (rows fb) 0x20).cell (j / 16) (i / 8) = 0x20 := if_neg (by omega)
      rw [hblank, pixel_space]
    · refine ⟨_, mem_fbDrawRect.mpr ⟨h.present, i, j, Int.natCast_nonneg i, ?_, ?_, ?_, ?_, rfl⟩,
        rfl⟩
      · rw [hxw]
        omega
      · rw [hy]
        omega
      · rw [hyh]
        omega
      · refine ⟨Int.natCast_nonneg i, ?_, Int.natCast_nonneg j, ?_⟩
        · rw [h.width_eq]
          omega
        · rw [h.height_eq]
          omega

/-! ### A character -/

/-- A coordinate in characters becomes one in pixels. -/
theorem mul_eq_ofNat {x : BitVec 32} {n : ℕ} (hx : x.toNat = n) (k : ℕ) :
    x * BitVec.ofNat 32 k = BitVec.ofNat 32 (n * k) := by
  rw [← hx, BitVec.ofNat_mul, BitVec.ofNat_toNat, BitVec.setWidth_eq]

theorem toNat_add_one {x : BitVec 32} {n : ℕ} (hx : x.toNat = n) (hn : n < 2 ^ 31) :
    (x + 1).toNat = n + 1 := by
  have hone : (1 : BitVec 32).toNat = 1 := rfl
  rw [BitVec.toNat_add, hx, hone]
  exact Nat.mod_eq_of_lt (by omega)

theorem toNat_sub_one {x : BitVec 32} {n : ℕ} (hx : x.toNat = n) (hn : 0 < n) :
    (x - 1).toNat = n - 1 := by
  have hone : (1 : BitVec 32).toNat = 1 := rfl
  have hlt := x.isLt
  rw [BitVec.toNat_sub, hx, hone]
  omega

namespace Screen32

theorem rows_lt (h : Screen32 fb) : rows fb < 2 ^ 31 :=
  (Nat.div_le_self _ 16).trans_lt h.height.2

theorem columns_lt (h : Screen32 fb) : columns fb < 2 ^ 31 :=
  (Nat.div_le_self _ 8).trans_lt h.width.2

/-- A cursor in front of the end of a line stays. -/
theorem wrap_of_lt (h : Screen32 fb) (hx : con.consoleX.toNat < columns fb) : wrap fb con = con := by
  refine if_neg fun hge => ?_
  have hle : (maxConsoleX fb).toNat ≤ con.consoleX.toNat := hge
  rw [h.toNat_maxConsoleX] at hle
  omega

/-- A cursor on the screen stays. -/
theorem scroll_of_lt (h : Screen32 fb) (hy : con.consoleY.toNat < rows fb) :
    scroll fb con = con := by
  refine if_neg fun hge => ?_
  have hle : (maxConsoleY fb).toNat ≤ con.consoleY.toNat := hge
  rw [h.toNat_maxConsoleY] at hle
  omega

end Screen32

/-- The cursor at the start of the next row, and what follows when there is none. -/
theorem draws_newline (h : Screen32 fb) (hx : con.consoleX = 0)
    (hy : con.consoleY.toNat = t.row + 1) (hrow : t.row < rows fb)
    (hpixels : Pixels fb con.buffer t) :
    Draws fb (scroll fb con) (t.newline (rows fb) 0x20) := by
  have hcolumns := h.columns_pos
  have hcolumn : con.consoleX.toNat = 0 := by rw [hx]; rfl
  unfold Terminal.newline
  by_cases hroom : t.row + 1 < rows fb
  · rw [if_pos hroom, h.scroll_of_lt (by omega)]
    exact ⟨hcolumn, hy, ⟨hroom, hcolumns⟩, hpixels⟩
  · have hend : con.consoleY ≥ maxConsoleY fb := by
      show (maxConsoleY fb).toNat ≤ con.consoleY.toNat
      rw [h.toNat_maxConsoleY]
      omega
    rw [if_neg hroom, scroll, if_pos hend]
    have hlast := toNat_sub_one h.toNat_maxConsoleY h.rows_pos
    exact ⟨hcolumn, hlast, ⟨by show rows fb - 1 < rows fb; omega, hcolumns⟩, hpixels.scroll h⟩

/-- A character does to the cursor and the pixels what it does to the terminal. -/
theorem Draws.klogPutchar (h : Screen32 fb) (hdraws : Draws fb con t) (c : Byte) :
    Draws fb (Console.klogPutchar fb con c) (t.put (rows fb) (columns fb) 0x20 (input c)) := by
  obtain ⟨hcolumn, hrow, ⟨hrows, hcolumns⟩, hpixels⟩ := hdraws
  have hrowsLt := h.rows_lt
  have hcolumnsLt := h.columns_lt
  have hypixel := mul_eq_ofNat hrow 16
  unfold Console.klogPutchar input place
  by_cases hnewline : c = 0x0A
  · have hstay : wrap fb { con with consoleX := 0, consoleY := con.consoleY + 1 } = _ :=
      h.wrap_of_lt h.columns_pos
    rw [if_pos hnewline, if_pos hnewline, hstay]
    exact draws_newline h rfl (toNat_add_one hrow (by omega)) hrows hpixels
  rw [if_neg hnewline, if_neg hnewline]
  by_cases hbackspace : c = 0x08
  · rw [if_pos hbackspace, if_pos hbackspace, Terminal.put]
    by_cases hstart : 0 < t.column
    · have hpos : con.consoleX > 0 := by
        show 0 < con.consoleX.toNat
        omega
      have hleft := toNat_sub_one hcolumn hstart
      have hxpixel := mul_eq_ofNat hleft 8
      have hinside : (con.consoleX - 1).toNat < columns fb := by omega
      rw [if_pos hpos, if_pos hstart, h.wrap_of_lt hinside, h.scroll_of_lt (by rwa [hrow])]
      refine ⟨hleft, hrow, ⟨hrows, by show t.column - 1 < columns fb; omega⟩, ?_⟩
      have hwrite := hpixels.write h hrows (show t.column - 1 < columns fb by omega) 0x20
      rw [← hxpixel, ← hypixel] at hwrite
      exact hwrite
    · have hzero : ¬ con.consoleX > 0 := by
        show ¬ 0 < con.consoleX.toNat
        omega
      rw [if_neg hzero, if_neg hstart, h.wrap_of_lt (by omega), h.scroll_of_lt (by omega)]
      exact ⟨hcolumn, hrow, ⟨hrows, hcolumns⟩, hpixels⟩
  · rw [if_neg hbackspace, if_neg hbackspace, Terminal.put]
    have hwrite := hpixels.write h hrows hcolumns c
    rw [← mul_eq_ofNat hcolumn 8, ← hypixel] at hwrite
    have hright := toNat_add_one hcolumn (by omega)
    by_cases hroom : (t.write t.row t.column c).column + 1 < columns fb
    · have hinside : (con.consoleX + 1).toNat < columns fb := by rwa [hright]
      rw [if_pos hroom, h.wrap_of_lt hinside, h.scroll_of_lt (by rwa [hrow])]
      exact ⟨hright, hrow, ⟨hrows, hroom⟩, hwrite⟩
    · have hend : con.consoleX + 1 ≥ maxConsoleX fb := by
        show (maxConsoleX fb).toNat ≤ (con.consoleX + 1).toNat
        rw [h.toNat_maxConsoleX, hright]
        exact not_lt.mp hroom
      have hdown := toNat_add_one hrow (hrows.trans hrowsLt)
      rw [if_neg hroom, wrap, if_pos hend]
      exact draws_newline h rfl hdown hrows hwrite

/-- A cleared console has no characters. -/
theorem consoleClear_draws (h : Screen32 fb) (con : ConsoleState) :
    Draws fb (consoleClear fb con) (Terminal.empty 0x20) := by
  refine ⟨rfl, rfl, ⟨h.rows_pos, h.columns_pos⟩, fun i hi j hj => ?_⟩
  have hin := Screen32.lt_width hi
  have hjn := Screen32.lt_height hj
  have hsum : ∀ n : Word, (0 : BitVec 32) + n.setWidth 32 = n.setWidth 32 :=
    fun n => BitVec.zero_add _
  have hcolor : ∀ s ∈ fbClear fb bgColor, s.color = bgColor := by
    intro s hs
    obtain ⟨-, i, j, -, -, -, -, -, rfl⟩ := mem_fbDrawRect.mp hs
    rfl
  have hwidth := h.width_eq
  have hheight := h.height_eq
  show paint con.buffer (fbClear fb bgColor) (cell fb i j) = pixel 0x20 _ _
  rw [paint_apply _ _ hcolor, pixel_space, if_pos]
  refine ⟨_, mem_fbDrawRect.mpr ⟨h.present, i, j, Int.natCast_nonneg i, ?_, Int.natCast_nonneg j,
    ?_, ⟨Int.natCast_nonneg i, ?_, Int.natCast_nonneg j, ?_⟩, rfl⟩, rfl⟩
  · rw [hsum, ← toInt32, hwidth]
    omega
  · rw [hsum, ← toInt32, hheight]
    omega
  · rw [hwidth]
    omega
  · rw [hheight]
    omega

/-- A string does to the cursor and the pixels what its characters do to the terminal. -/
theorem Draws.klogPrintStr (h : Screen32 fb) (s : List Byte) (hdraws : Draws fb con t) :
    Draws fb (Console.klogPrintStr fb con s)
      ((s.map input).foldl (Terminal.put (rows fb) (columns fb) 0x20) t) := by
  induction s generalizing con t with
  | nil => exact hdraws
  | cons c s ih => exact ih (hdraws.klogPutchar h c)

/-- After each character of a string that is printed on a cleared console, the cursor is inside the
grid and the pixels of the grid are those of a terminal that was given the characters. -/
theorem klogPrintStr_draws (fb : Framebuffer) (h : Screen32 fb) (con : ConsoleState)
    (s : List Byte) (n : ℕ) :
    Draws fb (klogPrintStr fb (consoleClear fb con) (s.take n))
      (((s.take n).map input).foldl (Terminal.put (rows fb) (columns fb) 0x20)
        (Terminal.empty 0x20)) :=
  (consoleClear_draws h con).klogPrintStr h (s.take n)

/-- A screen of 20 by 40 pixels, which are two characters in each of two rows. -/
def twoByTwo : Framebuffer := fbInitBackbuffer ⟨0x1000, 20, 40, 80, 32⟩ true

theorem twoByTwo_screen32 : Screen32 twoByTwo :=
  .of_size rfl rfl (by decide) (by decide) (by decide) (by decide)

/-- The second line break moves the first row off the screen. -/
theorem klogPrintStr_draws_twoByTwo :
    ∃ t, Draws twoByTwo
      (klogPrintStr twoByTwo (consoleClear twoByTwo ⟨7, 9, fun _ => 0⟩) [0x41, 0x0A, 0x42, 0x0A])
      t ∧ t.cell 0 0 = 0x42 ∧ t.cell 1 0 = 0x20 ∧ t.row = 1 ∧ t.column = 0 :=
  ⟨_, klogPrintStr_draws twoByTwo twoByTwo_screen32 ⟨7, 9, fun _ => 0⟩ [0x41, 0x0A, 0x42, 0x0A] 4,
    by decide, by decide, by decide, by decide⟩

end KyroOS.Console

import KyroOS.Console.Font
import Mathlib.Data.Int.Interval
import Mathlib.Tactic

/-!
# Drawing to the framebuffer

The drawing functions store pixels in a back buffer of 32-bit cells. A function is written as the
list of its stores. Coordinates are 32-bit integers, the description of the framebuffer has 64-bit
fields, and the two meet in conversions that wrap around.

## Main definitions

* `FbInfo`, `Framebuffer`, `fbInitBackbuffer` — the description and the back buffer
* `fbPutPixel`, `fbDrawRect`, `fbDrawChar`, `fbDrawImage`, `guiDrawRect` — the stores of a call
* `paint` — the back buffer after some stores

## Main results

* `mem_fbDrawRect` — the pixels of a rectangle that are drawn
* `fbDrawRect_paint` — the two ways to fill a rectangle agree
-/

namespace KyroOS.Console

/-- A colour, or a cell of the back buffer. -/
abbrev Color := BitVec 32

/-- The fields of `struct limine_framebuffer` that are used. -/
structure FbInfo where
  address : Word
  width : Word
  height : Word
  pitch : Word
  bpp : BitVec 16

/-- `fb_tag_global_ptr`, and whether there is a back buffer, with its `backbuffer_size`. -/
structure Framebuffer where
  info : FbInfo
  backbuffer : Bool
  backbufferSize : Word

/-- A store to a cell of the back buffer. -/
structure Store where
  index : Word
  color : Color

/-- `fb_init_backbuffer`. The heap may have no block of that size. -/
def fbInitBackbuffer (info : FbInfo) (allocated : Bool) : Framebuffer :=
  ⟨info, allocated, info.height * info.pitch⟩

/-- `(int)n` for a 64-bit value. -/
def toInt32 (n : Word) : ℤ := (n.setWidth 32).toInt

/-- The values of the loop `for (int i = a; i < b; i++)`. -/
def ints (a b : ℤ) : List ℤ := (List.range (b - a).toNat).map fun i : ℕ => a + i

theorem mem_ints {a b i : ℤ} : i ∈ ints a b ↔ a ≤ i ∧ i < b := by
  rw [ints, List.mem_map]
  constructor
  · rintro ⟨n, hn, rfl⟩
    rw [List.mem_range] at hn
    omega
  · rintro ⟨hle, hlt⟩
    exact ⟨(i - a).toNat, List.mem_range.mpr (by omega), by omega⟩

section Draw

variable (fb : Framebuffer)

/-- `fb_put_pixel` -/
def fbPutPixel (x y : BitVec 32) (color : Color) : List Store :=
  if fb.backbuffer then
    if x.toInt ≥ 0 ∧ x.toInt < toInt32 fb.info.width ∧ y.toInt ≥ 0 ∧
        y.toInt < toInt32 fb.info.height then
      [⟨y.signExtend 64 * (fb.info.pitch / 4) + x.signExtend 64, color⟩]
    else []
  else []

/-- `fb_draw_rect` -/
def fbDrawRect (x y w h : BitVec 32) (color : Color) : List Store :=
  if fb.backbuffer then
    (ints y.toInt (y + h).toInt).flatMap fun currY =>
      if currY < 0 ∨ currY ≥ toInt32 fb.info.height then []
      else
        let line := BitVec.ofInt 64 currY * (fb.info.pitch / 4)
        let startX := if x.toInt < 0 then 0 else x.toInt
        let endX :=
          if (x + w).toInt > toInt32 fb.info.width then toInt32 fb.info.width else (x + w).toInt
        (ints startX endX).map fun currX => ⟨line + BitVec.ofInt 64 currX, color⟩
  else []

/-- `fb_draw_char`. The counters of the loops are unsigned. -/
def fbDrawChar (c : Byte) (x y : BitVec 32) (fg bg : Color) : List Store :=
  if fb.backbuffer then
    (List.range fontHeight).flatMap fun n =>
      let cy := BitVec.ofNat 32 n
      if (y + cy).toInt < 0 ∨ (y + cy).toInt ≥ toInt32 fb.info.height then []
      else
        let row := defaultFont c n
        let line := (y + cy).setWidth 64 * (fb.info.pitch / 4)
        (List.range fontWidth).flatMap fun n =>
          let cx := BitVec.ofNat 32 n
          if (x + cx).toInt < 0 ∨ (x + cx).toInt ≥ toInt32 fb.info.width then []
          else
            let color := if row.getLsbD (7 - n) then fg else bg
            [⟨line + (x + cx).setWidth 64, color⟩]
  else []

/-- `fb_draw_image`. The colours are read at `pixels`, when that is not null. -/
def fbDrawImage (pixels : Option (BitVec 32 → Color)) (width height x y : BitVec 32) :
    List Store :=
  match pixels with
  | none => []
  | some pixels =>
    if fb.info.address = 0 then []
    else
      (List.range height.toNat).flatMap fun n =>
        let imgY := BitVec.ofNat 32 n
        (List.range width.toNat).flatMap fun n =>
          let imgX := BitVec.ofNat 32 n
          let color := pixels (imgY * width + imgX)
          let screenX := x + imgX
          let screenY := y + imgY
          if screenX.toInt ≥ 0 ∧ screenX.toInt < toInt32 fb.info.width ∧ screenY.toInt ≥ 0 ∧
              screenY.toInt < toInt32 fb.info.height then
            fbPutPixel fb screenX screenY color
          else []

/-- `fb_clear` -/
def fbClear (color : Color) : List Store :=
  fbDrawRect fb 0 0 (fb.info.width.setWidth 32) (fb.info.height.setWidth 32) color

/-- `gui_draw_rect` -/
def guiDrawRect (x y width height : BitVec 32) (color : Color) : List Store :=
  (ints 0 width.toInt).flatMap fun i =>
    (ints 0 height.toInt).flatMap fun j =>
      fbPutPixel fb (x + BitVec.ofInt 32 i) (y + BitVec.ofInt 32 j) color

end Draw

/-- The back buffer after some stores. -/
def paint (buffer : Word → Color) (stores : List Store) : Word → Color :=
  stores.foldl (fun buffer s => Function.update buffer s.index s.color) buffer

/-! ### Pixels -/

variable {fb : Framebuffer} {x y w h : BitVec 32} {color : Color} {s : Store}

/-- The cell of a pixel. -/
def cell (fb : Framebuffer) (x y : ℤ) : Word :=
  BitVec.ofInt 64 y * (fb.info.pitch / 4) + BitVec.ofInt 64 x

/-- The pixel is on the screen. -/
def OnScreen (fb : Framebuffer) (x y : ℤ) : Prop :=
  0 ≤ x ∧ x < toInt32 fb.info.width ∧ 0 ≤ y ∧ y < toInt32 fb.info.height

/-- A pixel that is put on the screen is stored in its cell. -/
theorem mem_fbPutPixel : s ∈ fbPutPixel fb x y color ↔
    fb.backbuffer = true ∧ OnScreen fb x.toInt y.toInt ∧ s = ⟨cell fb x.toInt y.toInt, color⟩ := by
  unfold fbPutPixel
  split
  · next hpresent =>
    split
    · next hon =>
      have hcell : (⟨y.signExtend 64 * (fb.info.pitch / 4) + x.signExtend 64, color⟩ : Store) =
          ⟨cell fb x.toInt y.toInt, color⟩ := rfl
      rw [List.mem_singleton, hcell]
      exact ⟨fun hs => ⟨hpresent, ⟨hon.1, hon.2.1, hon.2.2⟩, hs⟩, fun hs => hs.2.2⟩
    · next hoff => exact ⟨nofun, fun hs => absurd ⟨hs.2.1.1, hs.2.1.2.1, hs.2.1.2.2⟩ hoff⟩
  · next hnone => exact ⟨nofun, fun hs => absurd hs.1 hnone⟩

/-- The pixels of a rectangle that are on the screen are stored. -/
theorem mem_fbDrawRect : s ∈ fbDrawRect fb x y w h color ↔
    fb.backbuffer = true ∧ ∃ i j : ℤ, x.toInt ≤ i ∧ i < (x + w).toInt ∧ y.toInt ≤ j ∧
      j < (y + h).toInt ∧ OnScreen fb i j ∧ s = ⟨cell fb i j, color⟩ := by
  unfold fbDrawRect
  split
  · next hpresent =>
    simp only [List.mem_flatMap, mem_ints]
    constructor
    · rintro ⟨j, hj, hs⟩
      split at hs
      · cases hs
      · next hin =>
        obtain ⟨i, hi, rfl⟩ := List.mem_map.mp hs
        rw [mem_ints] at hi
        refine ⟨hpresent, i, j, ?_, ?_, hj.1, hj.2, ⟨?_, ?_, ?_, ?_⟩, rfl⟩
        all_goals
          split at hi <;> omega
    · rintro ⟨-, i, j, hxi, hiw, hyj, hjh, ⟨hi, hiwidth, hj, hjheight⟩, rfl⟩
      refine ⟨j, ⟨hyj, hjh⟩, ?_⟩
      rw [if_neg (by omega)]
      refine List.mem_map.mpr ⟨i, mem_ints.mpr ⟨?_, ?_⟩, rfl⟩
      · split <;> omega
      · split <;> omega
  · next hnone => exact ⟨nofun, fun hs => absurd hs.1 hnone⟩

/-! ### The two ways to fill a rectangle -/

/-- A sum that fits in `int`. -/
theorem toInt_add_of_fits {z : ℤ} (hlo : -2 ^ 31 ≤ x.toInt + z) (hhi : x.toInt + z < 2 ^ 31) :
    (x + BitVec.ofInt 32 z).toInt = x.toInt + z := by
  rw [BitVec.toInt_add, BitVec.toInt_ofInt, Int.add_bmod_bmod]
  exact Int.bmod_eq_of_le (by omega) (by omega)

/-- The pixels that `gui_draw_rect` puts. -/
theorem mem_guiDrawRect (hx : x.toInt + w.toInt < 2 ^ 31) (hy : y.toInt + h.toInt < 2 ^ 31) :
    s ∈ guiDrawRect fb x y w h color ↔
      fb.backbuffer = true ∧ ∃ i j : ℤ, x.toInt ≤ i ∧ i < x.toInt + w.toInt ∧ y.toInt ≤ j ∧
        j < y.toInt + h.toInt ∧ OnScreen fb i j ∧ s = ⟨cell fb i j, color⟩ := by
  have hxlo := BitVec.le_toInt x
  have hylo := BitVec.le_toInt y
  simp only [guiDrawRect, List.mem_flatMap, mem_ints, mem_fbPutPixel]
  constructor
  · rintro ⟨i, hi, j, hj, hpresent, hon, hs⟩
    rw [toInt_add_of_fits (by omega) (by omega), toInt_add_of_fits (by omega) (by omega)] at hon hs
    exact ⟨hpresent, _, _, by omega, by omega, by omega, by omega, hon, hs⟩
  · rintro ⟨hpresent, i, j, hxi, hiw, hyj, hjh, hon, hs⟩
    refine ⟨i - x.toInt, by omega, j - y.toInt, by omega, hpresent, ?_⟩
    rw [toInt_add_of_fits (by omega) (by omega), toInt_add_of_fits (by omega) (by omega),
      add_sub_cancel, add_sub_cancel]
    exact ⟨hon, hs⟩

/-- A cell after stores that all agree on it. -/
theorem paint_apply_of (buffer : Word → Color) (stores : List Store) (index : Word)
    (hcolor : ∀ s ∈ stores, s.index = index → s.color = color) :
    paint buffer stores index = if ∃ s ∈ stores, s.index = index then color else buffer index := by
  induction stores generalizing buffer with
  | nil => simp [paint]
  | cons s stores ih =>
    have hrest := ih (Function.update buffer s.index s.color)
      fun s' hs' => hcolor s' (List.mem_cons_of_mem _ hs')
    have hfirst := hcolor s List.mem_cons_self
    show paint (Function.update buffer s.index s.color) stores index = _
    rw [hrest, Function.update_apply]
    by_cases hlater : ∃ s ∈ stores, s.index = index
    · obtain ⟨s', hs', hindex⟩ := hlater
      rw [if_pos ⟨s', hs', hindex⟩, if_pos ⟨s', List.mem_cons_of_mem _ hs', hindex⟩]
    · rw [if_neg hlater]
      by_cases hnow : index = s.index
      · rw [if_pos hnow, if_pos ⟨s, List.mem_cons_self, hnow.symm⟩, hfirst hnow.symm]
      · rw [if_neg hnow, if_neg]
        rintro ⟨s', hs', hindex⟩
        rcases List.mem_cons.mp hs' with rfl | htail
        · exact hnow hindex.symm
        · exact hlater ⟨s', htail, hindex⟩

/-- Stores of one colour. -/
theorem paint_apply (buffer : Word → Color) (stores : List Store)
    (hcolor : ∀ s ∈ stores, s.color = color) (index : Word) :
    paint buffer stores index = if ∃ s ∈ stores, s.index = index then color else buffer index :=
  paint_apply_of buffer stores index fun s hs _ => hcolor s hs

/-- Stores of one colour to the same cells leave the same back buffer. -/
theorem paint_congr (buffer : Word → Color) {stores stores' : List Store}
    (hcolor : ∀ s ∈ stores, s.color = color) (hsame : ∀ s, s ∈ stores ↔ s ∈ stores') :
    paint buffer stores = paint buffer stores' := by
  funext index
  rw [paint_apply buffer stores hcolor,
    paint_apply buffer stores' fun s hs => hcolor s ((hsame s).mpr hs)]
  simp only [hsame]

/-- The fill by lines and the fill by pixels leave the same back buffer, when the sums of the
coordinates and the sizes fit in `int`. -/
theorem fbDrawRect_paint (fb : Framebuffer) (buffer : Word → Color) (x y w h : BitVec 32)
    (color : Color) (hx : -2 ^ 31 ≤ x.toInt + w.toInt ∧ x.toInt + w.toInt < 2 ^ 31)
    (hy : -2 ^ 31 ≤ y.toInt + h.toInt ∧ y.toInt + h.toInt < 2 ^ 31) :
    paint buffer (fbDrawRect fb x y w h color) = paint buffer (guiDrawRect fb x y w h color) := by
  have hxw : (x + w).toInt = x.toInt + w.toInt := by
    simpa using toInt_add_of_fits hx.1 hx.2
  have hyh : (y + h).toInt = y.toInt + h.toInt := by
    simpa using toInt_add_of_fits hy.1 hy.2
  have hsame : ∀ s, s ∈ fbDrawRect fb x y w h color ↔ s ∈ guiDrawRect fb x y w h color := by
    intro s
    rw [mem_fbDrawRect, mem_guiDrawRect hx.2 hy.2, hxw, hyh]
  refine paint_congr buffer (fun s hs => (?_ : s.color = color)) hsame
  obtain ⟨-, i, j, -, -, -, -, -, rfl⟩ := mem_fbDrawRect.mp hs
  rfl

/-- A small screen with 32 bits per pixel. -/
def smallScreen : Framebuffer := fbInitBackbuffer ⟨0x1000, 4, 2, 16, 32⟩ true

theorem fbDrawRect_paint_small : paint (fun _ => 0) (fbDrawRect smallScreen (-1) 1 3 1 7) =
    paint (fun _ => 0) (guiDrawRect smallScreen (-1) 1 3 1 7) :=
  fbDrawRect_paint smallScreen (fun _ => 0) (-1) 1 3 1 7 (by decide) (by decide)

end KyroOS.Console

import KyroOS.Console.Framebuffer

/-!
# The bounds of the back buffer

The drawing functions stay on the screen. The back buffer has as many bytes as the framebuffer, and
its cells are counted as if a pixel had 32 bits, so that with fewer bits the end of the last line is
behind its end.

## Main definitions

* `Accepted` — a description that `fb_init` goes on with
* `Draw` — a call of a drawing function
* `InBounds` — a call stores only to cells of the back buffer
* `LastLineFits` — the last line ends in the back buffer

## Main results

* `stores_onScreen` — every call stores to cells of pixels on the screen
* `inBounds_iff` — all calls stay in the back buffer if and only if the last line does
* `lastLineFits_of_32` — it does with 32 bits per pixel
-/

namespace KyroOS.Console

/-- A description that `fb_init` goes on with, for a screen of a size that there is. -/
structure Accepted (info : FbInfo) : Prop where
  bpp : 24 ≤ info.bpp.toNat
  pitch : info.width.toNat * info.bpp.toNat / 8 ≤ info.pitch.toNat
  width : info.width.toNat < 2 ^ 15
  height : info.height.toNat < 2 ^ 15

/-- A call of a drawing function. -/
inductive Draw
  | putPixel (x y : BitVec 32) (color : Color)
  | rect (x y w h : BitVec 32) (color : Color)
  | char (c : Byte) (x y : BitVec 32) (fg bg : Color)
  | image (pixels : Option (BitVec 32 → Color)) (width height x y : BitVec 32)

/-- The stores of a call. -/
def Draw.stores (fb : Framebuffer) : Draw → List Store
  | putPixel x y color => fbPutPixel fb x y color
  | rect x y w h color => fbDrawRect fb x y w h color
  | char c x y fg bg => fbDrawChar fb c x y fg bg
  | image pixels width height x y => fbDrawImage fb pixels width height x y

/-- Every store of every call is to a cell of the back buffer. -/
def InBounds (fb : Framebuffer) : Prop :=
  ∀ draw : Draw, ∀ s ∈ draw.stores fb, s.index.toNat < fb.backbufferSize.toNat / 4

/-- There is nothing to draw on, or the size of the framebuffer is no more than 64 bits long and the
last line ends in the back buffer. -/
def LastLineFits (info : FbInfo) : Prop :=
  info.width = 0 ∨ info.height = 0 ∨
    (info.height.toNat * info.pitch.toNat < 2 ^ 64 ∧
      (info.height.toNat - 1) * (info.pitch.toNat / 4) + info.width.toNat ≤
        info.height.toNat * info.pitch.toNat / 4)

instance (info : FbInfo) : Decidable (LastLineFits info) := inferInstanceAs (Decidable (_ ∨ _))

variable {fb : Framebuffer} {info : FbInfo} {x y w h fg bg : BitVec 32} {color : Color} {s : Store}

/-! ### Where the calls store -/

/-- A coordinate on the screen is the same as a signed and as an unsigned number. -/
theorem setWidth_eq_ofInt (hx : 0 ≤ x.toInt) : x.setWidth 64 = BitVec.ofInt 64 x.toInt := by
  apply BitVec.eq_of_toInt_eq
  have hlt := BitVec.toInt_lt (x := x)
  have hnat : x.toInt = x.toNat := by
    rw [BitVec.toInt_eq_toNat_cond] at hx ⊢
    have := x.isLt
    split at hx
    · next hsmall => rw [if_pos hsmall]
    · omega
  rw [BitVec.toInt_ofInt, Int.bmod_eq_of_le (by omega) (by omega), hnat]
  have hsmall : (x.setWidth 64).toNat = x.toNat := by
    rw [BitVec.toNat_setWidth]
    exact Nat.mod_eq_of_lt (by have := x.isLt; omega)
  rw [BitVec.toInt_eq_toNat_of_lt (by have := x.isLt; omega), hsmall]

theorem mem_fbDrawChar {c : Byte} (hs : s ∈ fbDrawChar fb c x y fg bg) :
    fb.backbuffer = true ∧ ∃ i j : ℤ, OnScreen fb i j ∧ s.index = cell fb i j := by
  unfold fbDrawChar at hs
  split at hs
  · next hpresent =>
    obtain ⟨cy, -, hrow⟩ := List.mem_flatMap.mp hs
    dsimp only at hrow
    split at hrow
    · cases hrow
    · next hy =>
      obtain ⟨cx, -, hcolumn⟩ := List.mem_flatMap.mp hrow
      split at hcolumn
      · cases hcolumn
      · next hx =>
        rw [List.mem_singleton.mp hcolumn]
        refine ⟨hpresent, (x + BitVec.ofNat 32 cx).toInt, (y + BitVec.ofNat 32 cy).toInt,
          ⟨by omega, by omega, by omega, by omega⟩, ?_⟩
        rw [cell, ← setWidth_eq_ofInt (by omega), ← setWidth_eq_ofInt (by omega)]
  · cases hs

theorem mem_fbDrawImage {pixels : Option (BitVec 32 → Color)}
    (hs : s ∈ fbDrawImage fb pixels w h x y) :
    fb.backbuffer = true ∧ ∃ i j : ℤ, OnScreen fb i j ∧ s.index = cell fb i j := by
  unfold fbDrawImage at hs
  cases pixels with
  | none => cases hs
  | some pixels =>
    dsimp only at hs
    split at hs
    · cases hs
    · obtain ⟨imgY, -, hrow⟩ := List.mem_flatMap.mp hs
      obtain ⟨imgX, -, hpixel⟩ := List.mem_flatMap.mp hrow
      split at hpixel
      · obtain ⟨hpresent, hon, rfl⟩ := mem_fbPutPixel.mp hpixel
        exact ⟨hpresent, _, _, hon, rfl⟩
      · cases hpixel

/-- Every call stores to cells of pixels on the screen. -/
theorem stores_onScreen {draw : Draw} (hs : s ∈ draw.stores fb) :
    fb.backbuffer = true ∧ ∃ i j : ℤ, OnScreen fb i j ∧ s.index = cell fb i j := by
  cases draw with
  | putPixel x y color =>
    obtain ⟨hpresent, hon, rfl⟩ := mem_fbPutPixel.mp hs
    exact ⟨hpresent, _, _, hon, rfl⟩
  | rect x y w h color =>
    obtain ⟨hpresent, i, j, -, -, -, -, hon, rfl⟩ := mem_fbDrawRect.mp hs
    exact ⟨hpresent, i, j, hon, rfl⟩
  | char c x y fg bg => exact mem_fbDrawChar hs
  | image pixels width height x y => exact mem_fbDrawImage hs

/-! ### The cells of the screen -/

theorem toInt32_of_lt {n : Word} (hn : n.toNat < 2 ^ 31) : toInt32 n = n.toNat := by
  have hmod : (n.setWidth 32).toNat = n.toNat := by
    rw [BitVec.toNat_setWidth]
    exact Nat.mod_eq_of_lt (by omega)
  rw [toInt32, BitVec.toInt_eq_toNat_of_lt (by omega), hmod]

/-- The cell of a pixel, for coordinates that are not negative. -/
theorem toNat_cell (fb : Framebuffer) (i j : ℕ) :
    (cell fb i j).toNat = (j * (fb.info.pitch.toNat / 4) + i) % 2 ^ 64 := by
  rw [cell, BitVec.ofInt_natCast, BitVec.ofInt_natCast, BitVec.toNat_add, BitVec.toNat_mul,
    BitVec.toNat_udiv, BitVec.toNat_ofNat, BitVec.toNat_ofNat]
  show (j % 2 ^ 64 * (fb.info.pitch.toNat / 4) % 2 ^ 64 + i % 2 ^ 64) % 2 ^ 64 = _
  rw [← Nat.add_mod, Nat.add_mod, Nat.mod_mul_mod, ← Nat.add_mod]

/-- All calls stay in the back buffer if and only if all cells of the screen are in it: each of
them can be stored to. -/
theorem inBounds_iff_cells (hinfo : Accepted fb.info) : InBounds fb ↔
    (fb.backbuffer = true → ∀ i < fb.info.width.toNat, ∀ j < fb.info.height.toNat,
      (j * (fb.info.pitch.toNat / 4) + i) % 2 ^ 64 < fb.backbufferSize.toNat / 4) := by
  have hwidth := toInt32_of_lt (hinfo.width.trans (by decide))
  have hheight := toInt32_of_lt (hinfo.height.trans (by decide))
  constructor
  · intro hall hpresent i hi j hj
    have hsmall : ∀ n < 2 ^ 15, (BitVec.ofNat 32 n).toInt = (n : ℤ) := by
      intro n hn
      have hnat : (BitVec.ofNat 32 n).toNat = n := Nat.mod_eq_of_lt (by omega)
      rw [BitVec.toInt_eq_toNat_of_lt (by omega), hnat]
    have hx := hsmall i (hi.trans hinfo.width)
    have hy := hsmall j (hj.trans hinfo.height)
    have hstore := hall (.putPixel (BitVec.ofNat 32 i) (BitVec.ofNat 32 j) 0)
      ⟨cell fb i j, 0⟩ (mem_fbPutPixel.mpr ⟨hpresent, ?_, by rw [hx, hy]⟩)
    · rwa [toNat_cell] at hstore
    · rw [hx, hy]
      refine ⟨by omega, ?_, by omega, ?_⟩
      · omega
      · omega
  · intro hcells draw s hs
    obtain ⟨hpresent, i, j, ⟨hi, hiwidth, hj, hjheight⟩, hindex⟩ := stores_onScreen hs
    obtain ⟨i, rfl⟩ := Int.eq_ofNat_of_zero_le hi
    obtain ⟨j, rfl⟩ := Int.eq_ofNat_of_zero_le hj
    rw [hindex, toNat_cell]
    exact hcells hpresent i (by omega) j (by omega)

/-! ### The last line -/

section Arithmetic

variable {width height pitch : ℕ}

/-- A size of more than 64 bits is cut, to less than where the last line starts. -/
theorem cut_size_le (hheight : height < 2 ^ 15) (hpitch : pitch < 2 ^ 64)
    (hwrap : 2 ^ 64 ≤ height * pitch) :
    0 < pitch / 4 ∧ height * pitch % 2 ^ 64 / 4 ≤ (height - 1) * (pitch / 4) := by
  obtain ⟨lines, hlines⟩ : ∃ lines, lines = pitch / 4 := ⟨_, rfl⟩
  obtain ⟨rest, hrest⟩ : ∃ rest, rest = pitch % 4 := ⟨_, rfl⟩
  have hsplit : pitch = 4 * lines + rest := by omega
  have hproduct : height * pitch = 4 * (height * lines) + height * rest := by
    rw [hsplit]
    ring
  have hsmall : height * rest ≤ height * 3 := Nat.mul_le_mul_left height (by omega)
  have hprev : (height - 1) * lines = height * lines - lines := Nat.sub_one_mul height lines
  have htwo : 2 ≤ height := by
    by_contra hone
    have hle : height * pitch ≤ 1 * pitch := Nat.mul_le_mul_right pitch (by omega)
    omega
  have hpos : 0 < lines := by
    by_contra hnone
    have hzero : lines = 0 := by omega
    rw [hproduct, hzero, Nat.mul_zero] at hwrap
    omega
  rw [← hlines, hprev]
  refine ⟨hpos, ?_⟩
  obtain ⟨product, hproduct'⟩ : ∃ product, product = height * pitch := ⟨_, rfl⟩
  rw [← hproduct'] at hproduct hwrap ⊢
  rcases Nat.eq_or_lt_of_le htwo with rfl | hthree
  · omega
  · have hmany : 3 * lines ≤ height * lines := Nat.mul_le_mul_right lines hthree
    omega

/-- The first cell of some line is behind any cell up to the start of the last line. -/
theorem exists_line_ge {size lines : ℕ} (hpos : 0 < lines) (hsize : size ≤ (height - 1) * lines)
    (hheight : 0 < height) : ∃ j < height, size ≤ j * lines ∧ j * lines < size + lines := by
  refine ⟨(size + lines - 1) / lines, ?_, ?_, ?_⟩
  · rw [Nat.div_lt_iff_lt_mul hpos]
    have hprev : (height - 1) * lines = height * lines - lines := Nat.sub_one_mul height lines
    have hle : 1 * lines ≤ height * lines := Nat.mul_le_mul_right lines hheight
    omega
  · have hdiv := Nat.div_add_mod (size + lines - 1) lines
    have hmod := Nat.mod_lt (size + lines - 1) hpos
    rw [Nat.mul_comm] at hdiv
    omega
  · have hle := Nat.div_mul_le_self (size + lines - 1) lines
    omega

/-- All cells of the screen are in the back buffer if and only if the last line ends in it. -/
theorem cells_iff (hwidth : width < 2 ^ 15) (hheight : height < 2 ^ 15) (hpitch : pitch < 2 ^ 64) :
    (∀ i < width, ∀ j < height,
      (j * (pitch / 4) + i) % 2 ^ 64 < height * pitch % 2 ^ 64 / 4) ↔
      width = 0 ∨ height = 0 ∨
        (height * pitch < 2 ^ 64 ∧ (height - 1) * (pitch / 4) + width ≤ height * pitch / 4) := by
  have hlines : height * (pitch / 4) ≤ height * pitch / 4 := Nat.mul_div_le_mul_div_assoc ..
  have hprev : (height - 1) * (pitch / 4) = height * (pitch / 4) - pitch / 4 :=
    Nat.sub_one_mul height (pitch / 4)
  constructor
  · intro hall
    rcases Nat.eq_zero_or_pos width with hzero | hw
    · exact .inl hzero
    rcases Nat.eq_zero_or_pos height with hzero | hh
    · exact .inr (.inl hzero)
    have hsize : height * pitch < 2 ^ 64 := by
      by_contra hwrap
      obtain ⟨hpos, hcut⟩ := cut_size_le hheight hpitch (not_lt.mp hwrap)
      obtain ⟨j, hj, hge, hlt⟩ := exists_line_ge hpos hcut hh
      have hin := hall 0 hw j hj
      have hmod := Nat.mod_lt (height * pitch) (show 2 ^ 64 > 0 by decide)
      rw [Nat.add_zero, Nat.mod_eq_of_lt (by omega)] at hin
      omega
    have hlast := hall (width - 1) (by omega) (height - 1) (by omega)
    rw [Nat.mod_eq_of_lt (by omega), Nat.mod_eq_of_lt hsize] at hlast
    exact .inr (.inr ⟨hsize, by omega⟩)
  · rintro (rfl | rfl | ⟨hsize, hlast⟩) i hi j hj
    · exact absurd hi (Nat.not_lt_zero i)
    · exact absurd hj (Nat.not_lt_zero j)
    · have hline : j * (pitch / 4) ≤ (height - 1) * (pitch / 4) :=
        Nat.mul_le_mul_right _ (by omega)
      rw [Nat.mod_eq_of_lt (by omega), Nat.mod_eq_of_lt hsize]
      omega

end Arithmetic

/-- With a back buffer all calls stay in it if and only if the last line does. -/
theorem inBounds_iff (hinfo : Accepted info) (allocated : Bool) :
    InBounds (fbInitBackbuffer info allocated) ↔ (allocated = false ∨ LastLineFits info) := by
  have hsize : (fbInitBackbuffer info allocated).backbufferSize.toNat =
      info.height.toNat * info.pitch.toNat % 2 ^ 64 := BitVec.toNat_mul _ _
  have hcells := cells_iff hinfo.width hinfo.height info.pitch.isLt
  have hzero : ∀ n : Word, n.toNat = 0 ↔ n = 0 := fun n => by
    rw [BitVec.toNat_eq]
    rfl
  rw [inBounds_iff_cells hinfo, hsize]
  show (allocated = true → _) ↔ _
  rw [LastLineFits, ← hzero, ← hzero, ← hcells]
  cases allocated with
  | false => simp
  | true => simp [fbInitBackbuffer]

/-- With 32 bits per pixel and less than 64 bits for the size, the last line ends in the back
buffer. -/
theorem lastLineFits_of_32 (hbpp : 32 ≤ info.bpp.toNat) (hinfo : Accepted info)
    (hsize : info.height.toNat * info.pitch.toNat < 2 ^ 64) : LastLineFits info := by
  by_cases hheight : info.height = 0
  · exact .inr (.inl hheight)
  refine .inr (.inr ⟨hsize, ?_⟩)
  have hpos : 0 < info.height.toNat := by
    rw [Nat.pos_iff_ne_zero]
    exact fun hzero => hheight (BitVec.eq_of_toNat_eq hzero)
  have hpitch := hinfo.pitch
  have hmul : info.width.toNat * 32 ≤ info.width.toNat * info.bpp.toNat :=
    Nat.mul_le_mul_left _ hbpp
  have hlines : info.height.toNat * (info.pitch.toNat / 4) ≤
      info.height.toNat * info.pitch.toNat / 4 := Nat.mul_div_le_mul_div_assoc ..
  have hprev : (info.height.toNat - 1) * (info.pitch.toNat / 4) =
      info.height.toNat * (info.pitch.toNat / 4) - info.pitch.toNat / 4 := Nat.sub_one_mul _ _
  have hone : 1 * (info.pitch.toNat / 4) ≤ info.height.toNat * (info.pitch.toNat / 4) :=
    Nat.mul_le_mul_right _ hpos
  omega

/-- A screen of one line of four pixels with 24 bits each. -/
def packedScreen : FbInfo := ⟨0x1000, 4, 1, 12, 24⟩

theorem packedScreen_accepted : Accepted packedScreen := by
  constructor <;> decide

theorem inBounds_small : InBounds smallScreen :=
  (inBounds_iff (show Accepted smallScreen.info by constructor <;> decide) true).mpr
    (.inr (by decide))

/-- The last pixel of the line is stored behind the three cells of the back buffer. -/
theorem not_inBounds : ¬ ∀ (info : FbInfo) (allocated : Bool), Accepted info →
    InBounds (fbInitBackbuffer info allocated) := by
  intro hall
  have hin := hall packedScreen true packedScreen_accepted (.putPixel 3 0 0)
    ⟨3, 0⟩ (List.mem_singleton.mpr rfl)
  exact absurd hin (by decide)

end KyroOS.Console

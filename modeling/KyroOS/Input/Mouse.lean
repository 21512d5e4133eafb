import KyroOS.Basic
import KyroOS.Input.EventQueue
import Mathlib.Tactic

/-!
# The mouse

The mouse sends packets of three bytes, one byte with each interrupt. The first byte holds the
buttons and the signs of the two movements, whose low bytes follow.

## Main definitions

* `Mouse`, `mouseHandler` — the variables of the driver, and its interrupt handler
* `Packet`, `Mouse.packet` — a packet, and the three interrupts that bring it
* `Packet.delta` — a movement with its sign
* `Tracks` — every packet moves the position by its movements, within the screen
* `RightX`, `RightY` — a movement that the handler gets right

## Main results

* `packet_position` — where the position is after a packet
* `tracks_iff` — the position follows the packets if and only if all their movements are got right
* `not_tracks` — a movement to the left is taken for one to the right
-/

namespace KyroOS.Input

/-- `mouse_x`, `mouse_y`, `mouse_cycle`, `mouse_byte` and `last_button_state`. -/
structure Mouse where
  mouseX : BitVec 32
  mouseY : BitVec 32
  mouseCycle : Byte
  mouseByte : ℕ → Byte
  lastButtonState : Byte

/-- The width and the height that `fb_get_info` gives: at least one pixel, and such that 32-bit
integers hold a position behind the edge. -/
structure Screen where
  width : Word
  height : Word
  width_pos : 0 < width.toNat
  width_le : width.toNat ≤ 2 ^ 31 - 128
  height_pos : 0 < height.toNat
  height_le : height.toNat ≤ 2 ^ 31 - 128

/-- `(int32_t)n` -/
def int32 (n : Word) : BitVec 32 := n.setWidth 32

/-- The two tests of a coordinate against the edges of a screen with `side` pixels. -/
def clampLow (c : BitVec 32) : BitVec 32 := if c.toInt < 0 then 0 else c

def clampHigh (side : Word) (c : BitVec 32) : BitVec 32 :=
  if c.toInt ≥ (int32 side).toInt then int32 (side - 1) else c

/-- The event for a change of the left button. The other buttons are not looked at. -/
def buttonEvent (current last : Byte) (stale : Event) : List Event :=
  if current = last then []
  else if current &&& 1 ≠ 0 ∧ ¬ last &&& 1 ≠ 0 then [{ stale with type := .mouseDown, data1 := 1 }]
  else if ¬ current &&& 1 ≠ 0 ∧ last &&& 1 ≠ 0 then [{ stale with type := .mouseUp, data1 := 1 }]
  else []

/-- `mouse_handler`, with the events that it pushes. The ports give `status` and then `data`; the
fields of an event that are not set are those of `stale`. -/
def mouseHandler (screen : Screen) (m : Mouse) (status data : Byte) (stale : Event) :
    Mouse × List Event :=
  if status &&& 0x20 = 0 then (m, [])
  else if m.mouseCycle = 0 then
    ({ m with
        mouseByte := Function.update m.mouseByte 0 data
        mouseCycle := if data &&& 0x08 ≠ 0 then m.mouseCycle + 1 else m.mouseCycle }, [])
  else if m.mouseCycle = 1 then
    ({ m with
        mouseByte := Function.update m.mouseByte 1 data
        mouseCycle := m.mouseCycle + 1 }, [])
  else if m.mouseCycle = 2 then
    let mouseByte := Function.update m.mouseByte 2 data
    let deltaX := mouseByte 1
    let deltaY := mouseByte 2
    let deltaY := if mouseByte 0 &&& 0x20 ≠ 0 then -deltaY else deltaY
    let deltaX := if mouseByte 0 &&& 0x10 ≠ 0 then -deltaX else deltaX
    let mouseX := m.mouseX + deltaX.signExtend 32
    let mouseY := m.mouseY - deltaY.signExtend 32
    let mouseX := clampHigh screen.width (clampLow mouseX)
    let mouseY := clampHigh screen.height (clampLow mouseY)
    let current := mouseByte 0 &&& 0x07
    (⟨mouseX, mouseY, 0, mouseByte, current⟩,
      { stale with type := .mouseMove, data1 := mouseX, data2 := mouseY } ::
        buttonEvent current m.lastButtonState stale)
  else (m, [])

/-! ### Packets -/

/-- A packet: the three bytes, and the status that is read with each of them. -/
structure Packet where
  byte : Fin 3 → Byte
  status : Fin 3 → Byte

namespace Packet

variable (p : Packet)

/-- Bit 3 of the first byte is set and its overflow bits are clear, and the status says that the
bytes are from the mouse. -/
structure WellFormed : Prop where
  always : p.byte 0 &&& 0x08 ≠ 0
  overflow : p.byte 0 &&& 0xC0 = 0
  status : ∀ i, p.status i &&& 0x20 ≠ 0

/-- A movement of nine bits: the sign in the first byte, the other bits in a byte of their own. -/
def delta (sign : Byte) (low : Byte) : ℤ :=
  if p.byte 0 &&& sign ≠ 0 then low.toNat - 256 else low.toNat

def deltaX : ℤ := p.delta 0x10 (p.byte 1)

def deltaY : ℤ := p.delta 0x20 (p.byte 2)

end Packet

/-- The interrupts that bring a packet. -/
def Mouse.packet (screen : Screen) (stale : Event) (m : Mouse) (p : Packet) : Mouse :=
  let m := (mouseHandler screen m (p.status 0) (p.byte 0) stale).1
  let m := (mouseHandler screen m (p.status 1) (p.byte 1) stale).1
  (mouseHandler screen m (p.status 2) (p.byte 2) stale).1

/-- The coordinate nearest to `c` on a screen with `side` pixels. -/
def clamp (side c : ℤ) : ℤ := max 0 (min c (side - 1))

/-- Every packet moves the position by its movements, upwards for a positive second one, within the
screen. -/
def Tracks (screen : Screen) (stale : Event) : Mouse → List Packet → Prop
  | _, [] => True
  | m, p :: packets =>
    (m.packet screen stale p).mouseX.toInt =
        clamp screen.width.toNat (m.mouseX.toInt + p.deltaX) ∧
      (m.packet screen stale p).mouseY.toInt =
        clamp screen.height.toNat (m.mouseY.toInt - p.deltaY) ∧
      Tracks screen stale (m.packet screen stale p) packets

/-- The movement is from 0 to 127 or -128; or the screen has one column; or both the movement, of
-256 to -129, and what the handler takes for it lead to the left edge. -/
def RightX (screen : Screen) (m : Mouse) (p : Packet) : Prop :=
  (0 ≤ p.deltaX ∧ p.deltaX < 128) ∨ p.deltaX = -128 ∨ screen.width.toNat = 1 ∨
    (p.deltaX < -128 ∧ m.mouseX.toInt ≤ p.deltaX + 256)

/-- The same for the second movement and the lower edge. -/
def RightY (screen : Screen) (m : Mouse) (p : Packet) : Prop :=
  (0 ≤ p.deltaY ∧ p.deltaY < 128) ∨ p.deltaY = -128 ∨ screen.height.toNat = 1 ∨
    (p.deltaY < -128 ∧ (screen.height.toNat : ℤ) - 1 ≤ m.mouseY.toInt + (p.deltaY + 256))

/-- Both movements of every packet are got right, where the position is when it comes. -/
def Right (screen : Screen) (stale : Event) : Mouse → List Packet → Prop
  | _, [] => True
  | m, p :: packets =>
    RightX screen m p ∧ RightY screen m p ∧ Right screen stale (m.packet screen stale p) packets

/-! ### Coordinates -/

variable {screen : Screen} {stale : Event} {m : Mouse} {p : Packet}

/-- What the handler takes for a movement. -/
def taken (negative : Prop) [Decidable negative] (low : Byte) : BitVec 8 :=
  if negative then -low else low

/-- What that is, by the movement that is meant. -/
theorem toInt_taken (p : Packet) (sign low : Byte) :
    let d := p.delta sign low
    (taken (p.byte 0 &&& sign ≠ 0) low).toInt =
      if 128 ≤ d then d - 256 else if 0 ≤ d ∨ d = -128 then d else if d < -128 then -(d + 256) else -d := by
  have hlow := low.isLt
  have hint := BitVec.toInt_eq_toNat_cond low
  rw [Packet.delta, taken]
  by_cases hsign : p.byte 0 &&& sign ≠ 0
  · simp only [if_pos hsign]
    rw [BitVec.toInt_neg, hint, Int.bmod_def]
    split_ifs <;> omega
  · simp only [if_neg hsign]
    rw [hint]
    split_ifs <;> omega

/-- The tests against the edges move a coordinate to the nearest one on the screen. -/
theorem toInt_clampHigh {side : Word} (hpos : 0 < side.toNat) (hle : side.toNat ≤ 2 ^ 31 - 128)
    (c : BitVec 32) : (clampHigh side (clampLow c)).toInt = clamp side.toNat c.toInt := by
  have hside : (int32 side).toInt = side.toNat := by
    have hnat : (int32 side).toNat = side.toNat := by
      rw [int32, BitVec.toNat_setWidth]
      exact Nat.mod_eq_of_lt (by omega)
    rw [BitVec.toInt_eq_toNat_of_lt (by omega), hnat]
  have hlast : (int32 (side - 1)).toInt = side.toNat - 1 := by
    have hone : (1 : Word).toNat = 1 := rfl
    have hsub : (side - 1).toNat = side.toNat - 1 := by
      rw [BitVec.toNat_sub, hone]
      omega
    have hnat : (int32 (side - 1)).toNat = side.toNat - 1 := by
      rw [int32, BitVec.toNat_setWidth, hsub]
      exact Nat.mod_eq_of_lt (by omega)
    rw [BitVec.toInt_eq_toNat_of_lt (by omega), hnat]
    omega
  have hzero : (0 : BitVec 32).toInt = 0 := rfl
  unfold clampHigh clampLow clamp
  rw [hside]
  split_ifs with hneg hhigh hhigh
  · rw [hzero] at hhigh
    omega
  · rw [hzero]
    omega
  · rw [hlast]
    omega
  · omega

/-- The position is on the screen, and the next byte is the first one of a packet. -/
structure Ready (screen : Screen) (m : Mouse) : Prop where
  cycle : m.mouseCycle = 0
  x : 0 ≤ m.mouseX.toInt ∧ m.mouseX.toInt < screen.width.toNat
  y : 0 ≤ m.mouseY.toInt ∧ m.mouseY.toInt < screen.height.toNat

/-! ### The interrupts of a packet -/

/-- What the three interrupts do. -/
theorem packet_eq (screen : Screen) (stale : Event) (hcycle : m.mouseCycle = 0) (hp : p.WellFormed) :
    (m.packet screen stale p).mouseCycle = 0 ∧
      (m.packet screen stale p).mouseX = clampHigh screen.width
        (clampLow (m.mouseX + (taken (p.byte 0 &&& 0x10 ≠ 0) (p.byte 1)).signExtend 32)) ∧
      (m.packet screen stale p).mouseY = clampHigh screen.height
        (clampLow (m.mouseY - (taken (p.byte 0 &&& 0x20 ≠ 0) (p.byte 2)).signExtend 32)) := by
  have hfirst : (mouseHandler screen m (p.status 0) (p.byte 0) stale).1 =
      { m with mouseByte := Function.update m.mouseByte 0 (p.byte 0), mouseCycle := 1 } := by
    rw [mouseHandler, if_neg (hp.status 0), if_pos hcycle, if_pos hp.always, hcycle]
    rfl
  have hsecond : ∀ bytes : ℕ → Byte, (mouseHandler screen
      { m with mouseByte := bytes, mouseCycle := 1 } (p.status 1) (p.byte 1) stale).1 =
      { m with mouseByte := Function.update bytes 1 (p.byte 1), mouseCycle := 2 } := by
    intro bytes
    rw [mouseHandler, if_neg (hp.status 1)]
    rfl
  rw [Mouse.packet, hfirst, hsecond, mouseHandler, if_neg (hp.status 2)]
  -- the third byte ends the packet
  dsimp only
  rw [if_neg (by decide), if_neg (by decide), if_pos rfl]
  exact ⟨rfl, rfl, rfl⟩

/-- Where the position is after a packet: it has moved by what the handler takes for its
movements, within the screen. -/
theorem packet_position (stale : Event) (h : Ready screen m) (hp : p.WellFormed) :
    (m.packet screen stale p).mouseX.toInt = clamp screen.width.toNat
        (m.mouseX.toInt + (taken (p.byte 0 &&& 0x10 ≠ 0) (p.byte 1)).toInt) ∧
      (m.packet screen stale p).mouseY.toInt = clamp screen.height.toNat
        (m.mouseY.toInt - (taken (p.byte 0 &&& 0x20 ≠ 0) (p.byte 2)).toInt) := by
  obtain ⟨-, hx, hy⟩ := packet_eq screen stale h.cycle hp
  have hbyte : ∀ d : BitVec 8, (d.signExtend 32).toInt = d.toInt :=
    fun d => BitVec.toInt_signExtend_of_le (by decide)
  have hrange : ∀ d : BitVec 8, -128 ≤ d.toInt ∧ d.toInt ≤ 127 := fun d =>
    ⟨BitVec.le_toInt d, Int.le_of_lt_add_one (BitVec.toInt_lt (x := d))⟩
  have hwidth := screen.width_le
  have hheight := screen.height_le
  have hinx := h.x
  have hiny := h.y
  constructor
  · have hd := hrange (taken (p.byte 0 &&& 0x10 ≠ 0) (p.byte 1))
    rw [hx, toInt_clampHigh screen.width_pos hwidth, BitVec.toInt_add, hbyte,
      Int.bmod_eq_of_le (by omega) (by omega)]
  · have hd := hrange (taken (p.byte 0 &&& 0x20 ≠ 0) (p.byte 2))
    rw [hy, toInt_clampHigh screen.height_pos hheight, BitVec.toInt_sub, hbyte,
      Int.bmod_eq_of_le (by omega) (by omega)]

theorem Ready.packet (stale : Event) (h : Ready screen m) (hp : p.WellFormed) :
    Ready screen (m.packet screen stale p) := by
  obtain ⟨hx, hy⟩ := packet_position stale h hp
  have hwidth := screen.width_pos
  have hheight := screen.height_pos
  refine ⟨(packet_eq screen stale h.cycle hp).1, ?_, ?_⟩
  · rw [hx, clamp]
    omega
  · rw [hy, clamp]
    omega

/-! ### Movements that are got right -/

/-- One packet moves the position by its movements if and only if they are got right. -/
theorem packet_tracks_iff (stale : Event) (h : Ready screen m) (hp : p.WellFormed) :
    (m.packet screen stale p).mouseX.toInt =
        clamp screen.width.toNat (m.mouseX.toInt + p.deltaX) ∧
      (m.packet screen stale p).mouseY.toInt =
        clamp screen.height.toNat (m.mouseY.toInt - p.deltaY) ↔
      RightX screen m p ∧ RightY screen m p := by
  obtain ⟨hx, hy⟩ := packet_position stale h hp
  have hinx := h.x
  have hiny := h.y
  have hrange : ∀ sign low, -256 ≤ p.delta sign low ∧ p.delta sign low < 256 := by
    intro sign low
    have hlow := low.isLt
    unfold Packet.delta
    split <;> omega
  rw [hx, hy, toInt_taken, toInt_taken]
  apply and_congr
  · have hd := hrange 0x10 (p.byte 1)
    unfold RightX Packet.deltaX clamp
    generalize p.delta 0x10 (p.byte 1) = d at hd ⊢
    split_ifs <;> omega
  · have hd := hrange 0x20 (p.byte 2)
    unfold RightY Packet.deltaY clamp
    generalize p.delta 0x20 (p.byte 2) = d at hd ⊢
    split_ifs <;> omega

/-- The position follows the packets if and only if all their movements are got right. -/
theorem tracks_iff (stale : Event) (h : Ready screen m) (packets : List Packet)
    (hp : ∀ p ∈ packets, p.WellFormed) :
    Tracks screen stale m packets ↔ Right screen stale m packets := by
  induction packets generalizing m with
  | nil => exact Iff.rfl
  | cons p packets ih =>
    have hfirst := hp p List.mem_cons_self
    have hrest := ih (h.packet stale hfirst) fun q hq => hp q (List.mem_cons_of_mem _ hq)
    rw [Tracks, Right, hrest, ← and_assoc, ← and_assoc, packet_tracks_iff stale h hfirst]

/-- A mouse before its first packet, on a screen of 100 by 100 pixels. -/
def restingMouse : Mouse := ⟨0, 0, 0, fun _ => 0, 0⟩

def smallScreen : Screen := ⟨100, 100, by decide, by decide, by decide, by decide⟩

/-- 50 to the right, and 5 to the left. -/
def rightThenLeft : List Packet :=
  [⟨![0x08, 50, 0], fun _ => 0x20⟩, ⟨![0x18, 0xFB, 0], fun _ => 0x20⟩]

theorem restingMouse_ready : Ready smallScreen restingMouse := by
  constructor <;> decide

theorem rightThenLeft_wellFormed : ∀ p ∈ rightThenLeft, p.WellFormed := by
  intro p hp
  rcases List.mem_cons.mp hp with rfl | hp
  · constructor <;> decide
  · rcases List.mem_cons.mp hp with rfl | hp
    · constructor <;> decide
    · cases hp

/-- Only the first of the two packets is got right. -/
theorem tracks_right_only :
    Tracks smallScreen keyA restingMouse (rightThenLeft.take 1) ∧
      ¬ Tracks smallScreen keyA restingMouse rightThenLeft := by
  have hfirst := tracks_iff keyA restingMouse_ready (rightThenLeft.take 1) fun p hp =>
    rightThenLeft_wellFormed p (List.mem_of_mem_take hp)
  have hboth := tracks_iff keyA restingMouse_ready rightThenLeft rightThenLeft_wellFormed
  refine ⟨hfirst.mpr ⟨.inl (by decide), .inl (by decide), trivial⟩, fun htracks => ?_⟩
  obtain ⟨-, -, hleft, -⟩ := hboth.mp htracks
  exact absurd hleft (by unfold RightX; decide)

/-- The movement to the left is taken for one to the right. -/
theorem not_tracks : ¬ ∀ (screen : Screen) (stale : Event) (m : Mouse) (packets : List Packet),
    Ready screen m → (∀ p ∈ packets, p.WellFormed) → Tracks screen stale m packets := by
  intro hall
  obtain ⟨-, -, hx, -⟩ := hall smallScreen keyA restingMouse rightThenLeft restingMouse_ready
    rightThenLeft_wellFormed
  exact absurd hx (by decide)

end KyroOS.Input

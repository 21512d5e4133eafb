import KyroOS.Input.EventQueue
import KyroOS.Basic

/-!
# From keys to text

The handler of the keyboard follows the modifier keys and turns the codes of the other keys into
events. A reader of the terminal takes events from the queue that the mouse writes to as well, and
keeps the characters.

## Main definitions

* `Keyboard`, `keyboardHandler` — the modifier keys, and what the handler makes of a code
* `ttyRead`, `keyboardGetChar` — a turn of a reader
* `Console`, `Console.run` — codes, mouse events and readers in any order
* `typed` — the text that codes stand for, in terms of what was pressed before

## Main results

* `modifiers_eq` — the modifiers are what the codes say
* `console_text` — what is read is what was typed
-/

namespace KyroOS.Input

/-! ### The handler -/

/-- `kbd_us`, without the zeros at its end. -/
def kbdUs : List Byte := [
  0x00, 0x1B, 0x31, 0x32, 0x33, 0x34, 0x35, 0x36, 0x37, 0x38, 0x39, 0x30, 0x2D, 0x3D,
  0x08, 0x09, 0x71, 0x77, 0x65, 0x72, 0x74, 0x79, 0x75, 0x69, 0x6F, 0x70, 0x5B, 0x5D,
  0x0A, 0x00, 0x61, 0x73, 0x64, 0x66, 0x67, 0x68, 0x6A, 0x6B, 0x6C, 0x3B, 0x27, 0x60,
  0x00, 0x5C, 0x7A, 0x78, 0x63, 0x76, 0x62, 0x6E, 0x6D, 0x2C, 0x2E, 0x2F, 0x00, 0x2A,
  0x00, 0x20, 0x00, 0x00, 0x00, 0x00, 0x00, 0x00, 0x00, 0x00, 0x00, 0x00, 0x00, 0x00,
  0x00, 0x00, 0x00, 0x00, 0x00, 0x00, 0x00, 0x2D, 0x00, 0x00, 0x00, 0x2B, 0x00, 0x00]

/-- `kbd_us_shift`, without the zeros at its end. -/
def kbdUsShift : List Byte := [
  0x00, 0x00, 0x21, 0x40, 0x23, 0x24, 0x25, 0x5E, 0x26, 0x2A, 0x28, 0x29, 0x5F, 0x2B,
  0x08, 0x09, 0x51, 0x57, 0x45, 0x52, 0x54, 0x59, 0x55, 0x49, 0x4F, 0x50, 0x7B, 0x7D,
  0x0A, 0x00, 0x41, 0x53, 0x44, 0x46, 0x47, 0x48, 0x4A, 0x4B, 0x4C, 0x3A, 0x22, 0x7E,
  0x00, 0x7C, 0x5A, 0x58, 0x43, 0x56, 0x42, 0x4E, 0x4D, 0x3C, 0x3E, 0x3F, 0x00, 0x2A,
  0x00, 0x20, 0x00, 0x00, 0x00, 0x00, 0x00, 0x00, 0x00, 0x00, 0x00, 0x00, 0x00, 0x00,
  0x00, 0x00, 0x00, 0x00, 0x00, 0x00, 0x00, 0x5F, 0x00, 0x00, 0x00, 0x2B, 0x00, 0x00]

/-- An entry of one of the tables. -/
def entry (table : List Byte) (scancode : Byte) : Byte := table.getD scancode.toNat 0

/-- `ctrl_pressed`, `shift_pressed` and `caps_lock_on`. -/
structure Keyboard where
  ctrlPressed : Bool
  shiftPressed : Bool
  capsLockOn : Bool

/-- The character of a key that is pressed. -/
def keyChar (shiftPressed capsLockOn : Bool) (scancode : Byte) : Byte :=
  let c := entry kbdUs scancode
  if 0x61 ≤ c ∧ c ≤ 0x7A then
    if shiftPressed ^^ capsLockOn then entry kbdUsShift scancode else c
  else if shiftPressed then entry kbdUsShift scancode
  else c

/-- `keyboard_handler`, for the byte at port 0x60, with the event that it pushes. What `data3` holds
is what was on the stack. -/
def keyboardHandler (k : Keyboard) (scancode : Byte) (data3 : BitVec 32) : Keyboard × Option Event :=
  if scancode = 0x1D#8 then ({ k with ctrlPressed := true }, none)
  else if scancode = 0x9D#8 then ({ k with ctrlPressed := false }, none)
  else if scancode = 0x2A#8 ∨ scancode = 0x36#8 then ({ k with shiftPressed := true }, none)
  else if scancode = 0xAA#8 ∨ scancode = 0xB6#8 then ({ k with shiftPressed := false }, none)
  else if scancode = 0x3A#8 then ({ k with capsLockOn := !k.capsLockOn }, none)
  else if scancode &&& 0x80 ≠ 0 then
    (k, some ⟨.keyUp, (entry kbdUs (scancode &&& 0x7F)).setWidth 32, scancode.setWidth 32, data3⟩)
  else
    (k, some ⟨.keyDown, (keyChar k.shiftPressed k.capsLockOn scancode).setWidth 32,
      scancode.setWidth 32, data3⟩)

/-! ### The readers -/

/-- A turn of the loop of `tty_read`, with the character if it returns one. -/
def ttyRead (q : EventQueue) : EventQueue × Option Byte :=
  match q.eventPop with
  | (q, none) => (q, none)
  | (q, some ev) =>
    if ev.type = .keyDown then
      let c : Byte := ev.data1.setWidth 8
      if c ≠ 0 then (q, some c) else (q, none)
    else (q, none)

/-- A turn of the loop of `keyboard_get_char`, with what it returns if it returns: 0 stands for the
end of the loop as well as for a key without a character. -/
def keyboardGetChar (q : EventQueue) : EventQueue × Option Byte :=
  match q.eventPop with
  | (q, none) => (q, some 0)
  | (q, some ev) => if ev.type = .keyDown then (q, some (ev.data1.setWidth 8)) else (q, none)

/-! ### Codes and readers in any order -/

/-- The keyboard, the queue, the codes so far with the latest first, the characters that were read,
and how many events found no room. -/
structure Console where
  keyboard : Keyboard
  queue : EventQueue
  codes : List Byte
  read : List Byte
  dropped : ℕ

/-- What happens next. The mouse pushes events of its own. -/
inductive Console.Label
  | key (scancode : Byte) (data3 : BitVec 32)
  | mouse (event : Event) (h : event.type ≠ .keyDown)
  | ttyRead
  | keyboardGetChar

namespace Console

variable (s : Console)

/-- An event is pushed, if there is one. -/
def push : Option Event → Console
  | none => s
  | some event =>
    { s with
      queue := (s.queue.eventPush event).1
      dropped := s.dropped + (s.queue.eventPush event).2.toList.length }

/-- A reader has got a character; 0 is none. -/
def got (r : EventQueue × Option Byte) : Console :=
  { s with
    queue := r.1
    read := s.read ++ r.2.toList.filter (· ≠ 0) }

/-- One step. -/
def step : Label → Console
  | .key scancode data3 =>
    let r := keyboardHandler s.keyboard scancode data3
    { s with keyboard := r.1, codes := scancode :: s.codes }.push r.2
  | .mouse event _ => s.push (some event)
  | .ttyRead => s.got (Input.ttyRead s.queue)
  | .keyboardGetChar => s.got (Input.keyboardGetChar s.queue)

/-- Steps one after the other. -/
def run : Console → List Label → Console := List.foldl step

/-- Nothing was pressed yet, and the queue is empty. -/
structure Fresh : Prop where
  keyboard : s.keyboard = ⟨false, false, false⟩
  queue : s.queue.Fresh
  codes : s.codes = []
  read : s.read = []
  dropped : s.dropped = 0

end Console

/-! ### What was typed -/

/-- Whether a key is held: the latest of its codes is that of a press. The codes come with the
latest first. -/
def held (press release : List Byte) (codes : List Byte) : Bool :=
  (codes.find? fun c => press.contains c || release.contains c).any press.contains

/-- Shift is held. Either key counts, and the release of one is that of both. -/
def shiftHeld (codes : List Byte) : Bool := held [0x2A#8, 0x36#8] [0xAA#8, 0xB6#8] codes

/-- Ctrl is held. -/
def ctrlHeld (codes : List Byte) : Bool := held [0x1D#8] [0x9D#8] codes

/-- Caps Lock is on after it was pressed an odd number of times. -/
def capsOn (codes : List Byte) : Bool := codes.count 0x3A#8 % 2 = 1

/-- The keys that stand for no character. -/
def modifiers : List Byte := [0x1D#8, 0x9D#8, 0x2A#8, 0x36#8, 0xAA#8, 0xB6#8, 0x3A#8]

/-- The character that a code stands for after the given ones. -/
def typedBy (codes : List Byte) (scancode : Byte) : Option Byte :=
  if modifiers.contains scancode ∨ scancode.getLsbD 7 ∨
    keyChar (shiftHeld codes) (capsOn codes) scancode = 0 then none
  else some (keyChar (shiftHeld codes) (capsOn codes) scancode)

/-- The text that codes stand for. -/
def typed : List Byte → List Byte
  | [] => []
  | c :: codes => typed codes ++ (typedBy codes c).toList

/-- The character of an event. -/
def Event.char (e : Event) : Option Byte :=
  if e.type = .keyDown ∧ e.data1.setWidth 8 ≠ (0 : Byte) then some (e.data1.setWidth 8) else none

section Modifiers

variable {codes : List Byte} {k : Keyboard} {scancode : Byte} {data3 : BitVec 32}

theorem held_cons (press release : List Byte) (c : Byte) : held press release (c :: codes) =
    if c ∈ press then true else if c ∈ release then false else held press release codes := by
  rw [held, List.find?_cons]
  by_cases hpress : c ∈ press
  · simp [hpress]
  · by_cases hrelease : c ∈ release
    · simp [hpress, hrelease]
    · simp [hpress, hrelease, held]

theorem capsOn_cons (c : Byte) :
    capsOn (c :: codes) = if c = 0x3A#8 then !capsOn codes else capsOn codes := by
  rw [capsOn, capsOn, List.count_cons]
  by_cases hc : c = 0x3A#8
  · rw [if_pos hc, hc, beq_self_eq_true, if_pos rfl]
    generalize codes.count 0x3A#8 = n
    obtain heven | hodd := Nat.mod_two_eq_zero_or_one n
    · simp [Nat.add_mod, heven]
    · simp [Nat.add_mod, hodd]
  · rw [if_neg hc, beq_false_of_ne hc, if_neg Bool.false_ne_true, Nat.add_zero]

/-- The keyboard after the given codes. -/
def after (codes : List Byte) : Keyboard := ⟨ctrlHeld codes, shiftHeld codes, capsOn codes⟩

/-- What a code that is not that of a modifier pushes. -/
def keyEvent (codes : List Byte) (scancode : Byte) (data3 : BitVec 32) : Event :=
  if scancode &&& 0x80 ≠ 0 then
    ⟨.keyUp, (entry kbdUs (scancode &&& 0x7F)).setWidth 32, scancode.setWidth 32, data3⟩
  else
    ⟨.keyDown, (keyChar (shiftHeld codes) (capsOn codes) scancode).setWidth 32,
      scancode.setWidth 32, data3⟩

/-- The handler follows the modifiers, and pushes an event for every other code. -/
theorem keyboardHandler_after (codes : List Byte) (scancode : Byte) (data3 : BitVec 32) :
    keyboardHandler (after codes) scancode data3 =
      (after (scancode :: codes),
        if scancode ∈ modifiers then none else some (keyEvent codes scancode data3)) := by
  by_cases hmodifier : scancode ∈ modifiers
  · rw [if_pos hmodifier]
    simp only [modifiers, List.mem_cons, List.not_mem_nil, or_false] at hmodifier
    obtain rfl | rfl | rfl | rfl | rfl | rfl | rfl := hmodifier <;>
      simp [keyboardHandler, after, ctrlHeld, shiftHeld, held_cons, capsOn_cons]
  · rw [if_neg hmodifier]
    simp only [modifiers, List.mem_cons, List.not_mem_nil, or_false, not_or] at hmodifier
    obtain ⟨h1D, h9D, h2A, h36, hAA, hB6, h3A⟩ := hmodifier
    have hafter : after (scancode :: codes) = after codes := by
      simp [after, ctrlHeld, shiftHeld, held_cons, capsOn_cons, h1D, h9D, h2A, h36, hAA, hB6, h3A]
    rw [hafter, keyboardHandler, if_neg h1D, if_neg h9D, if_neg (by tauto), if_neg (by tauto),
      if_neg h3A, keyEvent]
    split_ifs <;> rfl

/-- The character of the event is that of the key. -/
theorem char_keyEvent (hmodifier : scancode ∉ modifiers) :
    (keyEvent codes scancode data3).char = typedBy codes scancode := by
  have hhigh : scancode &&& 0x80 ≠ 0 ↔ scancode.getLsbD 7 = true := by
    revert scancode
    decide
  have hwidth (c : Byte) : (c.setWidth 32).setWidth 8 = c := by simp
  rw [← List.contains_iff_mem] at hmodifier
  rw [keyEvent, typedBy]
  by_cases hup : scancode.getLsbD 7 = true
  · rw [if_pos (hhigh.mpr hup), if_pos (.inr (.inl hup))]
    rfl
  · rw [if_neg (mt hhigh.mp hup), Event.char, hwidth]
    by_cases hzero : keyChar (shiftHeld codes) (capsOn codes) scancode = 0
    · rw [if_neg fun h => h.2 hzero, if_pos (.inr (.inr hzero))]
    · rw [if_pos ⟨rfl, hzero⟩, if_neg (by tauto)]

theorem typedBy_modifier (hmodifier : scancode ∈ modifiers) : typedBy codes scancode = none :=
  if_pos (.inl (List.contains_iff_mem.mpr hmodifier))

end Modifiers

/-! ### Codes and readers -/

namespace Console

variable {s : Console} {waiting : List Event}

/-- What is read and what waits is what was typed, unless an event found no room. -/
structure Reads (s : Console) (waiting : List Event) : Prop where
  waits : Waits s.queue waiting
  keyboard : s.keyboard = after s.codes
  part : (s.read ++ waiting.filterMap Event.char).Sublist (typed s.codes)
  all : s.dropped = 0 → s.read ++ waiting.filterMap Event.char = typed s.codes

theorem Fresh.reads (h : s.Fresh) : Reads s [] where
  waits := h.queue.waits
  keyboard := by rw [h.keyboard, h.codes]; rfl
  part := by rw [h.read, h.codes]; exact .refl _
  all _ := by rw [h.read, h.codes]; rfl

/-- An event is pushed. -/
theorem push_spec (h : Waits s.queue waiting) (event : Event) :
    ∃ waiting', Waits (s.push (some event)).queue waiting' ∧
      (waiting' = waiting ++ [event] ∧ (s.push (some event)).dropped = s.dropped ∨
        waiting' = waiting ∧ (s.push (some event)).dropped = s.dropped + 1) := by
  by_cases hroom : waiting.length < eventQueueSize
  · have hcall : (s.queue.eventPush event).2 = none := by
      rw [EventQueue.eventPush, if_pos (by rw [h.count]; exact_mod_cast hroom)]
    refine ⟨_, h.push event hroom, .inl ⟨rfl, ?_⟩⟩
    rw [push, hcall]
    rfl
  · have hcall : s.queue.eventPush event = (s.queue, some "Event queue full, event dropped.") :=
      if_neg (by rw [h.count]; exact_mod_cast hroom)
    rw [push, hcall]
    exact ⟨_, h, .inr ⟨rfl, rfl⟩⟩

/-- An event without a character is pushed. -/
theorem Reads.push_other (h : Reads s waiting) {event : Event} (hevent : event.char = none) :
    ∃ waiting', Reads (s.push (some event)) waiting' := by
  obtain ⟨waiting', hwaits, ⟨rfl, hdropped⟩ | ⟨rfl, hdropped⟩⟩ := push_spec h.waits event
  · have hchars : (waiting ++ [event]).filterMap Event.char = waiting.filterMap Event.char := by
      simp [hevent]
    refine ⟨_, hwaits, h.keyboard, ?_, fun hzero => ?_⟩
    · rw [hchars]
      exact h.part
    · rw [hchars]
      exact h.all (hdropped.symm.trans hzero)
  · refine ⟨_, hwaits, h.keyboard, h.part, fun hzero => ?_⟩
    omega

/-- The keyboard sends a code. -/
theorem Reads.key (h : Reads s waiting) (scancode : Byte) (data3 : BitVec 32) :
    ∃ waiting', Reads (s.step (.key scancode data3)) waiting' := by
  rw [step, h.keyboard, keyboardHandler_after]
  dsimp only
  by_cases hmodifier : scancode ∈ modifiers
  · have htyped : typed (scancode :: s.codes) = typed s.codes := by
      rw [typed, typedBy_modifier hmodifier]
      exact List.append_nil _
    rw [if_pos hmodifier]
    exact ⟨waiting, h.waits, rfl, htyped ▸ h.part, fun hzero => htyped ▸ h.all hzero⟩
  · have hchar : (keyEvent s.codes scancode data3).char = _ := char_keyEvent hmodifier
    rw [if_neg hmodifier]
    obtain ⟨waiting', hwaits, hcases⟩ := push_spec
      (s := { s with keyboard := after (scancode :: s.codes), codes := scancode :: s.codes })
      h.waits (keyEvent s.codes scancode data3)
    refine ⟨waiting', hwaits, rfl, ?_, fun hzero => ?_⟩
    · show (s.read ++ _).Sublist (typed s.codes ++ (typedBy s.codes scancode).toList)
      obtain ⟨rfl, -⟩ | ⟨rfl, -⟩ := hcases
      · rw [List.filterMap_append, ← List.append_assoc, List.filterMap_cons, hchar]
        refine h.part.append ?_
        cases typedBy s.codes scancode <;> exact .refl _
      · exact h.part.trans (List.sublist_append_left _ _)
    · show s.read ++ _ = typed s.codes ++ (typedBy s.codes scancode).toList
      obtain ⟨rfl, hdropped⟩ | ⟨rfl, hdropped⟩ := hcases
      · rw [List.filterMap_append, ← List.append_assoc, h.all (hdropped.symm.trans hzero),
          List.filterMap_cons, hchar]
        cases typedBy s.codes scancode <;> rfl
      · omega

/-- A reader takes an event, and keeps its character if it has one. -/
theorem Reads.got (h : Reads s waiting) {r : EventQueue × Option Byte}
    (hqueue : r.1 = s.queue.eventPop.1)
    (hread : r.2.toList.filter (· ≠ 0) = (s.queue.eventPop.2.bind Event.char).toList) :
    ∃ waiting', Reads (s.got r) waiting' := by
  cases waiting with
  | nil =>
    have hpop : s.queue.eventPop = (s.queue, none) := if_neg (by simp [h.waits.count])
    rw [hpop] at hqueue hread
    have hsame : s.got r = s := by
      rw [Console.got, hqueue, hread]
      simp
    exact ⟨[], hsame.symm ▸ h⟩
  | cons event waiting =>
    obtain ⟨hevent, hwaits⟩ := h.waits.pop
    rw [hevent] at hread
    have hmove : (s.got r).read ++ waiting.filterMap Event.char =
        s.read ++ (event :: waiting).filterMap Event.char := by
      rw [Console.got, hread, List.filterMap_cons, List.append_assoc]
      show s.read ++ (event.char.toList ++ _) = _
      cases event.char <;> rfl
    have hgot : Waits (s.got r).queue waiting := by
      show Waits r.1 waiting
      rw [hqueue]
      exact hwaits
    refine ⟨waiting, hgot, h.keyboard, ?_, fun hzero => ?_⟩
    · rw [hmove]
      exact h.part
    · rw [hmove]
      exact h.all hzero

theorem ttyRead_spec (q : EventQueue) : (Input.ttyRead q).1 = q.eventPop.1 ∧
    (Input.ttyRead q).2.toList.filter (· ≠ 0) = (q.eventPop.2.bind Event.char).toList := by
  rw [Input.ttyRead]
  rcases q.eventPop with ⟨q', none | ev⟩
  · exact ⟨rfl, rfl⟩
  · simp only [Option.bind_some, Event.char]
    split_ifs <;> simp_all

theorem keyboardGetChar_spec (q : EventQueue) : (Input.keyboardGetChar q).1 = q.eventPop.1 ∧
    (Input.keyboardGetChar q).2.toList.filter (· ≠ 0) =
      (q.eventPop.2.bind Event.char).toList := by
  rw [Input.keyboardGetChar]
  rcases q.eventPop with ⟨q', none | ev⟩
  · exact ⟨rfl, rfl⟩
  · simp only [Option.bind_some, Event.char]
    split_ifs <;> simp_all

theorem Reads.step (h : Reads s waiting) (l : Label) : ∃ waiting', Reads (s.step l) waiting' := by
  cases l with
  | key scancode data3 => exact h.key scancode data3
  | mouse event hevent => exact h.push_other (if_neg fun hc => hevent hc.1)
  | ttyRead => exact h.got (ttyRead_spec _).1 (ttyRead_spec _).2
  | keyboardGetChar => exact h.got (keyboardGetChar_spec _).1 (keyboardGetChar_spec _).2

/-- What readers get, and what waits for them, is what was typed, in order and nothing twice. An
event that finds no room is lost; when none is, no character is. The modifiers are what the codes
say in any case. -/
theorem console_text (h : s.Fresh) (labels : List Label) :
    let t := s.run labels
    t.keyboard = ⟨ctrlHeld t.codes, shiftHeld t.codes, capsOn t.codes⟩ ∧
    ∃ waiting, Waits t.queue waiting ∧
      (t.read ++ waiting.filterMap Event.char).Sublist (typed t.codes) ∧
      (t.dropped = 0 → t.read ++ waiting.filterMap Event.char = typed t.codes) := by
  have hrun : ∃ waiting, Reads (s.run labels) waiting := by
    induction labels using List.reverseRecOn with
    | nil => exact ⟨[], h.reads⟩
    | append_singleton labels l ih =>
      obtain ⟨waiting, hreads⟩ := ih
      rw [run, List.foldl_append]
      exact hreads.step l
  obtain ⟨waiting, hreads⟩ := hrun
  exact ⟨hreads.keyboard, waiting, hreads.waits, hreads.part, hreads.all⟩

/-- Shift and a, then Caps Lock and a again, and a reader that got the first of them. -/
theorem console_text_shift :
    let s : Console := ⟨⟨false, false, false⟩, emptyQueue, [], [], 0⟩
    let t := s.run [.key 0x2A 0, .key 0x1E 0, .ttyRead, .key 0xAA 0, .key 0x3A 0, .key 0x1E 0]
    t.read = [0x41] ∧ ∃ waiting, Waits t.queue waiting ∧
      t.read ++ waiting.filterMap Event.char = [0x41, 0x41] := by
  intro s t
  obtain ⟨-, waiting, hwaits, -, hall⟩ := console_text (s := s) ⟨rfl, ⟨rfl, rfl, rfl⟩, rfl, rfl, rfl⟩
    [.key 0x2A 0, .key 0x1E 0, .ttyRead, .key 0xAA 0, .key 0x3A 0, .key 0x1E 0]
  exact ⟨rfl, waiting, hwaits, hall rfl⟩

end Console

end KyroOS.Input

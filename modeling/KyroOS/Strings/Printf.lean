import KyroOS.Basic
import KyroOS.Vfs.Path
import Mathlib.Data.Nat.Digits.Lemmas
import Mathlib.Tactic.Common

/-!
# Formatted output

`vksprintf` walks a format and writes to a buffer. A conversion starts at a `%` and goes on with a
padding, with up to two `l` and with the character that selects it. Every read through `format` is
kept with the state, so that one can say how far the walk goes.

## Main definitions

* `Sprintf` — the state of a call
* `scanPadding`, `scanLength`, `convert` — the parts of a conversion
* `turn`, `vksprintf` — one turn of the loop, and the call
* `Spells` — the format that a string of characters is, up to its NUL

## Main results

* `loopDigits_eq_digits` — the loop over the digits of a number finds them all
* `length_hex_le`, `length_dec_le` — the digits fit their array
* `reads_subset_turn`, `reads_subset_loop` — what has been read stays read
-/

namespace KyroOS.Strings

open Vfs (CString cstring)

/-- The character constant of C. -/
def byte (c : Char) : Byte := BitVec.ofNat 8 c.toNat

/-- The arguments: their 64-bit slots, and the characters in front of the NUL at an address. -/
structure VaList where
  slot : ℕ → Word
  string : Word → CString

/-- `va_arg(args, int)` and `va_arg(args, uint32_t)` — the low half of a slot. -/
def VaList.low (args : VaList) (arg : ℕ) : BitVec 32 := (args.slot arg).setWidth 32

/-- The state of a call: how far `format` has been moved, what has been read through it, what has
been written through `buf_ptr` and the next argument. -/
structure Sprintf where
  format : ℕ
  reads : List ℕ
  written : List Byte
  arg : ℕ

namespace Sprintf

/-- `*format` -/
def read (s : Sprintf) : Sprintf := { s with reads := s.format :: s.reads }

/-- `format++` -/
def next (s : Sprintf) : Sprintf := { s with format := s.format + 1 }

/-- `*buf_ptr++ = c` for one character after the other -/
def put (s : Sprintf) (text : List Byte) : Sprintf := { s with written := s.written ++ text }

/-- `va_arg` moves on to the next argument. -/
def nextArg (s : Sprintf) : Sprintf := { s with arg := s.arg + 1 }

section Fields

variable (s : Sprintf) (text : List Byte)

@[simp] theorem read_format : s.read.format = s.format := rfl
@[simp] theorem read_reads : s.read.reads = s.format :: s.reads := rfl
@[simp] theorem read_written : s.read.written = s.written := rfl
@[simp] theorem read_arg : s.read.arg = s.arg := rfl
@[simp] theorem next_format : s.next.format = s.format + 1 := rfl
@[simp] theorem next_reads : s.next.reads = s.reads := rfl
@[simp] theorem next_written : s.next.written = s.written := rfl
@[simp] theorem next_arg : s.next.arg = s.arg := rfl
@[simp] theorem put_format : (s.put text).format = s.format := rfl
@[simp] theorem put_reads : (s.put text).reads = s.reads := rfl
@[simp] theorem put_written : (s.put text).written = s.written ++ text := rfl
@[simp] theorem nextArg_format : s.nextArg.format = s.format := rfl
@[simp] theorem nextArg_reads : s.nextArg.reads = s.reads := rfl
@[simp] theorem nextArg_written : s.nextArg.written = s.written := rfl

end Fields

end Sprintf

/-- `c >= '0' && c <= '9'` -/
def IsDigit (c : Byte) : Prop := byte '0' ≤ c ∧ c ≤ byte '9'

instance (c : Byte) : Decidable (IsDigit c) := inferInstanceAs (Decidable (_ ∧ _))

/-- `c - '0'` -/
def digitOf (c : Byte) : ℕ := c.toNat - (byte '0').toNat

/-- `padding` and `pad_char` -/
structure Padding where
  padding : ℕ
  padChar : Byte

/-- The padding at the start of a conversion, like `%02d` or `%04d`. -/
def scanPadding (fmt : ℕ → Byte) (s : Sprintf) : Padding × Sprintf :=
  if fmt s.format = byte '0' then
    let s := s.read.next
    if IsDigit (fmt s.format) then
      let padding := digitOf (fmt s.format)
      let s := s.read.next
      if IsDigit (fmt s.format) then
        (⟨padding * 10 + digitOf (fmt s.format), byte '0'⟩, s.read.next)
      else (⟨padding, byte '0'⟩, s.read)
    else (⟨0, byte ' '⟩, s.read)
  else (⟨0, byte ' '⟩, s.read)

/-- The length modifiers: whether one of them is there. -/
def scanLength (fmt : ℕ → Byte) (s : Sprintf) : Bool × Sprintf :=
  if fmt s.format = byte 'l' then
    let s := s.read.next
    if fmt s.format = byte 'l' then (true, s.read.next) else (true, s.read)
  else (false, s.read)

/-- `while (val > 0)`, which stores the digits of a number, the lowest first. -/
def loopDigits (base : Word) (char : Word → Byte) (val : Word) : ℕ → List Byte
  | 0 => []
  | turns + 1 =>
    if 0 < val then char (val % base) :: loopDigits base char (val / base) turns else []

/-- The digits of a number in `hex_buf` or `num_str`. -/
def digitsOf (base : Word) (char : Word → Byte) (val : Word) : List Byte :=
  -- a number of 64 bits has no more digits than bits
  if val = 0 then [byte '0'] else loopDigits base char val 64

/-- `hex_chars` -/
def hexChars : CString :=
  cstring ['0', '1', '2', '3', '4', '5', '6', '7', '8', '9', 'a', 'b', 'c', 'd', 'e', 'f']

/-- `hex_chars[d]` -/
def hexChar (d : Word) : Byte := hexChars.getD d.toNat 0

/-- `d + '0'` -/
def decChar (d : Word) : Byte := d.setWidth 8 + byte '0'

/-- The padding, and the digits in the order opposite to that of their array. -/
def Sprintf.putNumber (s : Sprintf) (pad : Padding) (digits : List Byte) : Sprintf :=
  s.put (List.replicate (max pad.padding digits.length - digits.length) pad.padChar ++
    digits.reverse)

/-- The argument of `%u` and `%d`. -/
def decArg (args : VaList) (long : Bool) (arg : ℕ) : Word :=
  if long then args.slot arg else (args.low arg).signExtend 64

/-- The argument of `%x`. -/
def hexArg (args : VaList) (long : Bool) (arg : ℕ) : Word :=
  if long then args.slot arg else (args.low arg).setWidth 64

/-- What the default case writes for a padding. -/
def putPadding (s : Sprintf) (pad : Padding) : Sprintf :=
  if pad.padChar = byte '0' ∧ 0 < pad.padding then
    let s := s.put [byte '%', byte '0']
    let s := if 10 ≤ pad.padding then s.put [decChar (BitVec.ofNat 64 (pad.padding / 10))] else s
    s.put [decChar (BitVec.ofNat 64 (pad.padding % 10))]
  else s.put [byte '%']

/-- The `switch` of a conversion. -/
def convert (fmt : ℕ → Byte) (args : VaList) (pad : Padding) (long : Bool) (s : Sprintf) :
    Sprintf :=
  let c := fmt s.format
  let s := s.read
  if c = byte 's' then
    if args.slot s.arg = 0 then (s.put (cstring ['(', 'n', 'u', 'l', 'l', ')'])).nextArg
    else (s.put (args.string (args.slot s.arg))).nextArg
  else if c = byte 'c' then (s.put [(args.low s.arg).setWidth 8]).nextArg
  else if c = byte 'p' then
    ((s.put [byte '0', byte 'x']).putNumber pad (digitsOf 16 hexChar (args.slot s.arg))).nextArg
  else if c = byte 'x' then
    (s.putNumber pad (digitsOf 16 hexChar (hexArg args long s.arg))).nextArg
  else if c = byte 'u' ∨ c = byte 'd' then
    let val := decArg args long s.arg
    if c = byte 'd' ∧ val.toInt < 0 then
      ((s.put [byte '-']).putNumber pad (digitsOf 10 decChar (-val))).nextArg
    else (s.putNumber pad (digitsOf 10 decChar val)).nextArg
  else (putPadding s pad).put [c]

/-- One turn of `while (*format)`. -/
def turn (fmt : ℕ → Byte) (args : VaList) (s : Sprintf) : Sprintf :=
  if fmt s.format = byte '%' then
    let padding := scanPadding fmt s.read.next
    let length := scanLength fmt padding.2
    (convert fmt args padding.1 length.1 length.2).next
  else (s.read.put [fmt s.format]).next

/-- `while (*format)` -/
def loop (fmt : ℕ → Byte) (args : VaList) (s : Sprintf) : ℕ → Outcome Sprintf
  | 0 => .error .outOfFuel
  | turns + 1 =>
    if fmt s.format = 0 then .ok s.read else loop fmt args (turn fmt args s.read) turns

/-- `vksprintf`: the state at its end with the NUL written, and `buf_ptr - buffer`. -/
def vksprintf (fmt : ℕ → Byte) (args : VaList) (turns : ℕ) : Outcome (Sprintf × BitVec 32) := do
  let s ← loop fmt args ⟨0, [], [], 0⟩ turns
  pure (s.put [0], BitVec.ofNat 32 s.written.length)

/-- The characters of a format from a position on, up to its NUL. -/
def Spells (fmt : ℕ → Byte) (pos : ℕ) : List Byte → Prop
  | [] => fmt pos = 0
  | c :: rest => fmt pos = c ∧ c ≠ 0 ∧ Spells fmt (pos + 1) rest

instance decidableSpells (fmt : ℕ → Byte) (pos : ℕ) :
    (text : List Byte) → Decidable (Spells fmt pos text)
  | [] => inferInstanceAs (Decidable (fmt pos = 0))
  | c :: rest =>
    have := decidableSpells fmt (pos + 1) rest
    inferInstanceAs (Decidable (fmt pos = c ∧ c ≠ 0 ∧ Spells fmt (pos + 1) rest))

section Digits

variable {base val : Word} (char : Word → Byte)

/-- The loop over the digits of a number finds them all. -/
theorem loopDigits_eq_digits (hbase : 2 ≤ base.toNat) {turns : ℕ}
    (hval : val.toNat < 2 ^ turns) :
    loopDigits base char val turns =
      (base.toNat.digits val.toNat).map fun d => char (BitVec.ofNat 64 d) := by
  induction turns generalizing val with
  | zero =>
    have hzero : val.toNat = 0 := by omega
    rw [loopDigits, hzero, Nat.digits_zero, List.map_nil]
  | succ turns ih =>
    rw [loopDigits]
    by_cases hpos : 0 < val
    · have hnat : 0 < val.toNat := BitVec.lt_def.mp hpos
      -- what is left has lost a factor of at least two
      have hquot : (val / base).toNat < 2 ^ turns := by
        rw [BitVec.toNat_udiv]
        refine lt_of_le_of_lt (Nat.div_le_div_left hbase (by omega)) ?_
        rw [Nat.div_lt_iff_lt_mul (by omega)]
        omega
      have hdigit : val % base = BitVec.ofNat 64 (val.toNat % base.toNat) := by
        rw [← BitVec.toNat_umod, BitVec.ofNat_toNat, BitVec.setWidth_eq]
      rw [if_pos hpos, ih hquot, Nat.digits_def' (by omega) hnat, List.map_cons, hdigit,
        BitVec.toNat_udiv]
    · have hzero : val.toNat = 0 := by
        rw [BitVec.lt_def] at hpos
        exact Nat.eq_zero_of_not_pos hpos
      rw [if_neg hpos, hzero, Nat.digits_zero, List.map_nil]

/-- A number below a power of the base has no more digits than the exponent says. -/
theorem length_digitsOf_le (hbase : 2 ≤ base.toNat) {k : ℕ} (hk : 0 < k)
    (hval : val.toNat < base.toNat ^ k) : (digitsOf base char val).length ≤ k := by
  unfold digitsOf
  split_ifs with hzero
  · exact hk
  · rw [loopDigits_eq_digits char hbase val.isLt, List.length_map]
    exact (Nat.digits_length_le_iff hbase val.toNat).mpr hval

/-- The digits of every number fit `hex_buf`. -/
theorem length_hex_le (val : Word) : (digitsOf 16 hexChar val).length ≤ 20 :=
  length_digitsOf_le hexChar (by decide) (by decide) (lt_of_lt_of_le val.isLt (by decide))

/-- They fit `num_str` too. -/
theorem length_dec_le (val : Word) : (digitsOf 10 decChar val).length ≤ 21 :=
  length_digitsOf_le decChar (by decide) (by decide) (lt_of_lt_of_le val.isLt (by decide))

end Digits

section Turns

variable (fmt : ℕ → Byte) (args : VaList)

@[simp] theorem Sprintf.putNumber_format (s : Sprintf) (pad : Padding) (digits : List Byte) :
    (s.putNumber pad digits).format = s.format := rfl

@[simp] theorem Sprintf.putNumber_reads (s : Sprintf) (pad : Padding) (digits : List Byte) :
    (s.putNumber pad digits).reads = s.reads := rfl

@[simp] theorem putPadding_format (s : Sprintf) (pad : Padding) :
    (putPadding s pad).format = s.format := by
  unfold putPadding
  split_ifs <;> rfl

@[simp] theorem putPadding_reads (s : Sprintf) (pad : Padding) :
    (putPadding s pad).reads = s.reads := by
  unfold putPadding
  split_ifs <;> rfl

/-- The `switch` leaves the format at its character. -/
@[simp] theorem convert_format (pad : Padding) (long : Bool) (s : Sprintf) :
    (convert fmt args pad long s).format = s.format := by
  unfold convert
  dsimp only
  split_ifs <;> simp

/-- It has read nothing else. -/
@[simp] theorem convert_reads (pad : Padding) (long : Bool) (s : Sprintf) :
    (convert fmt args pad long s).reads = s.format :: s.reads := by
  unfold convert
  dsimp only
  split_ifs <;> simp

theorem reads_subset_scanPadding (s : Sprintf) : s.reads ⊆ (scanPadding fmt s).2.reads := by
  unfold scanPadding
  dsimp only
  split_ifs <;> simp +contextual [List.subset_def]

theorem reads_subset_scanLength (s : Sprintf) : s.reads ⊆ (scanLength fmt s).2.reads := by
  unfold scanLength
  dsimp only
  split_ifs <;> simp +contextual [List.subset_def]

/-- What has been read stays read. -/
theorem reads_subset_turn (s : Sprintf) : s.reads ⊆ (turn fmt args s).reads := by
  unfold turn
  split_ifs
  · have hpadding := reads_subset_scanPadding fmt s.read.next
    have hlength := reads_subset_scanLength fmt (scanPadding fmt s.read.next).2
    intro k hk
    have hafter := hlength (hpadding (List.mem_cons_of_mem _ hk))
    simp [hafter]
  · exact List.subset_cons_self s.format s.reads

/-- The position that the loop starts from has been read at its end. -/
theorem reads_subset_loop {s r : Sprintf} {turns : ℕ} (h : loop fmt args s turns = .ok r) :
    s.format :: s.reads ⊆ r.reads := by
  induction turns generalizing s with
  | zero => cases h
  | succ turns ih =>
    rw [loop] at h
    by_cases hend : fmt s.format = 0
    · rw [if_pos hend] at h
      cases h
      exact fun k hk => hk
    · rw [if_neg hend] at h
      intro k hk
      exact ih h (List.mem_cons_of_mem _ (reads_subset_turn fmt args s.read hk))

end Turns

/-- A number prints as "%05ld" asks for it. -/
example :
    ((vksprintf (fun i => (cstring ['%', '0', '5', 'l', 'd']).getD i 0) ⟨fun _ => -42, fun _ => []⟩
      2).toOption.map fun r => r.1.written) =
      some (cstring ['-', '0', '0', '0', '4', '2'] ++ [0]) := by
  decide

end KyroOS.Strings

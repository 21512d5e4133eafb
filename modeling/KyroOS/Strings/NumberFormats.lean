import KyroOS.Lib.Numerals
import KyroOS.Strings.Printf

/-!
# Numbers that are printed

The conversions `%u`, `%d` and `%x` share their loops over the digits. An argument without a length
is 32 bits wide, and `%u` takes it through `int` as `%d` does.

## Main definitions

* `NumberFormat` — a conversion of a number, with its padding and its length
* `NumberFormat.RoundTrips` — a text is read back as the argument, and has the digits asked for

## Main results

* `turn_written` — what a turn writes for the conversion of a number
* `roundTrips_iff` — it is read back, unless `%u` is given a number whose highest bit of 32 is set
-/

namespace KyroOS.Strings

open Numerals

/-- The conversions of numbers. -/
inductive Number
  | unsigned
  | signed
  | hex
  deriving DecidableEq, Repr

/-- The character that selects a conversion. -/
def Number.char : Number → Byte
  | .unsigned => byte 'u'
  | .signed => byte 'd'
  | .hex => byte 'x'

/-- A conversion of a number: the digits of its padding, of which there are at most two, and how
many `l` it has. -/
structure NumberFormat where
  digits : List (Fin 10)
  atMostTwo : digits.length ≤ 2
  longs : Fin 3
  number : Number

/-- The character of a digit. -/
def digitChar (d : Fin 10) : Byte := BitVec.ofNat 8 d + byte '0'

/-- A padding as it is written in a format. -/
def paddingChars (digits : List (Fin 10)) : List Byte :=
  if digits = [] then [] else byte '0' :: digits.map digitChar

namespace NumberFormat

variable (f : NumberFormat)

/-- The conversion as it is written in a format. -/
def chars : List Byte :=
  byte '%' :: (paddingChars f.digits ++ (List.replicate f.longs (byte 'l') ++ [f.number.char]))

/-- The number of digits asked for. -/
def width : ℕ := f.digits.foldl (fun n (d : Fin 10) => n * 10 + (d : ℕ)) 0

/-- Whether the argument has 64 bits. -/
def long : Bool := decide (0 < (f.longs : ℕ))

end NumberFormat

/-- The format goes on with these characters. -/
def StartsWith (fmt : ℕ → Byte) (pos : ℕ) : List Byte → Prop
  | [] => True
  | c :: rest => fmt pos = c ∧ StartsWith fmt (pos + 1) rest

instance decidableStartsWith (fmt : ℕ → Byte) (pos : ℕ) :
    (text : List Byte) → Decidable (StartsWith fmt pos text)
  | [] => inferInstanceAs (Decidable True)
  | c :: rest =>
    have := decidableStartsWith fmt (pos + 1) rest
    inferInstanceAs (Decidable (fmt pos = c ∧ StartsWith fmt (pos + 1) rest))

section Alphabets

/-- The decimal digits. -/
def decimal : Alphabet Byte 10 where
  char d := decChar (BitVec.ofNat 64 d)
  digit c := if IsDigit c then some (digitOf c) else none
  one_lt := by decide
  digit_char := by decide

/-- The hexadecimal digits. -/
def hexadecimal : Alphabet Byte 16 where
  char d := hexChar (BitVec.ofNat 64 d)
  digit c :=
    if IsDigit c then some (digitOf c)
    else if byte 'a' ≤ c ∧ c ≤ byte 'f' then some (10 + c.toNat - (byte 'a').toNat)
    else none
  one_lt := by decide
  digit_char := by decide

/-- The array of the digits holds the numeral from its end. -/
theorem digitsOf_reverse {base : ℕ} (alphabet : Alphabet Byte base) {baseWord : Word}
    {char : Word → Byte} (hbase : baseWord.toNat = base)
    (hchar : ∀ d, alphabet.char d = char (BitVec.ofNat 64 d)) (hzero : char 0 = byte '0')
    (val : Word) : (digitsOf baseWord char val).reverse = alphabet.spell val.toNat := by
  have hone := alphabet.one_lt
  unfold digitsOf Alphabet.spell
  by_cases hval : val = 0
  · have hnat : val.toNat = 0 := congrArg BitVec.toNat hval
    rw [if_pos hval, if_pos hnat, hchar, ← hzero]
    rfl
  · have hnat : val.toNat ≠ 0 := fun h => hval (BitVec.eq_of_toNat_eq h)
    rw [if_neg hval, if_neg hnat, loopDigits_eq_digits char (by omega) val.isLt, hbase]
    exact congrArg List.reverse (List.map_congr_left fun d _ => (hchar d).symm)

theorem dec_reverse (val : Word) :
    (digitsOf 10 decChar val).reverse = decimal.spell val.toNat :=
  digitsOf_reverse decimal rfl (fun _ => rfl) rfl val

theorem hex_reverse (val : Word) :
    (digitsOf 16 hexChar val).reverse = hexadecimal.spell val.toNat :=
  digitsOf_reverse hexadecimal rfl (fun _ => rfl) rfl val

end Alphabets

namespace NumberFormat

variable (f : NumberFormat) (args : VaList) (arg : ℕ)

/-- The argument as the number that the conversion stands for. -/
def value : ℤ :=
  match f.number, f.long with
  | .signed, true => (args.slot arg).toInt
  | .signed, false => (args.low arg).toInt
  | _, true => (args.slot arg).toNat
  | _, false => (args.low arg).toNat

/-- The number of a text: hexadecimal, or decimal with an optional sign. -/
def parse (text : List Byte) : Option ℤ :=
  match f.number with
  | .hex => (hexadecimal.read text).map fun n => (n : ℤ)
  | _ => decimal.readSigned (byte '-') text

/-- How many digits a text has. -/
def digitCount (text : List Byte) : ℕ :=
  match f.number with
  | .hex => hexadecimal.digitCount text
  | _ => decimal.digitCount text

/-- The text is read back as the argument, and it has at least the digits asked for. -/
def RoundTrips (text : List Byte) : Prop :=
  f.parse text = some (f.value args arg) ∧ f.width ≤ f.digitCount text

end NumberFormat

/-- What a turn writes. -/
def printed (fmt : ℕ → Byte) (args : VaList) (s : Sprintf) : List Byte :=
  (turn fmt args s).written.drop s.written.length

section Scanning

variable {fmt : ℕ → Byte} {s : Sprintf} {c : Byte} {rest : List Byte}

theorem digitChar_isDigit (d : Fin 10) : IsDigit (digitChar d) ∧ digitOf (digitChar d) = d := by
  revert d
  decide

@[simp] theorem scanPadding_written (s : Sprintf) :
    (scanPadding fmt s).2.written = s.written ∧ (scanPadding fmt s).2.arg = s.arg := by
  unfold scanPadding
  dsimp only
  split_ifs <;> exact ⟨rfl, rfl⟩

@[simp] theorem scanLength_written (s : Sprintf) :
    (scanLength fmt s).2.written = s.written ∧ (scanLength fmt s).2.arg = s.arg := by
  unfold scanLength
  dsimp only
  split_ifs <;> exact ⟨rfl, rfl⟩

theorem StartsWith.append_right {pos : ℕ} {text text' : List Byte}
    (h : StartsWith fmt pos (text ++ text')) : StartsWith fmt (pos + text.length) text' := by
  induction text generalizing pos with
  | nil => exact h
  | cons c rest ih =>
    rw [List.length_cons, Nat.add_comm rest.length, ← Nat.add_assoc]
    exact ih h.2

/-- The padding of a conversion. -/
def paddingOf (digits : List (Fin 10)) : Padding :=
  ⟨digits.foldl (fun n (d : Fin 10) => n * 10 + (d : ℕ)) 0,
    if digits = [] then byte ' ' else byte '0'⟩

/-- A padding in front of a character that is no digit is scanned. -/
theorem scanPadding_of_startsWith {digits : List (Fin 10)} (htwo : digits.length ≤ 2)
    (hc : ¬IsDigit c) (h : StartsWith fmt s.format (paddingChars digits ++ c :: rest)) :
    (scanPadding fmt s).1 = paddingOf digits ∧
      (scanPadding fmt s).2.format = s.format + (paddingChars digits).length := by
  have hzero : c ≠ byte '0' := fun heq => hc (heq ▸ by decide)
  match digits, htwo with
  | [], _ =>
    have hfmt : fmt s.format = c := h.1
    rw [scanPadding, if_neg (hfmt.trans_ne hzero)]
    exact ⟨rfl, rfl⟩
  | [d], _ =>
    obtain ⟨hfirst, hd, hnext, -⟩ := h
    obtain ⟨hdigit, hvalue⟩ := digitChar_isDigit d
    simp [scanPadding, hfirst, hd, hdigit, hnext, hc, hvalue, paddingOf, paddingChars]
  | [d, e], _ =>
    obtain ⟨hfirst, hd, he, -⟩ := h
    obtain ⟨hdigit, hvalue⟩ := digitChar_isDigit d
    obtain ⟨hdigit', hvalue'⟩ := digitChar_isDigit e
    simp [scanPadding, hfirst, hd, hdigit, he, hdigit', hvalue, hvalue', paddingOf, paddingChars]

/-- Up to two `l` in front of another character are scanned. -/
theorem scanLength_of_startsWith (longs : Fin 3) (hc : c ≠ byte 'l')
    (h : StartsWith fmt s.format (List.replicate longs (byte 'l') ++ c :: rest)) :
    (scanLength fmt s).1 = decide (0 < (longs : ℕ)) ∧
      (scanLength fmt s).2.format = s.format + longs := by
  match longs with
  | 0 =>
    have hfmt : fmt s.format = c := h.1
    rw [scanLength, if_neg (hfmt.trans_ne hc)]
    exact ⟨rfl, rfl⟩
  | 1 =>
    obtain ⟨hfirst, hnext, -⟩ := h
    simp [scanLength, hfirst, hnext, hc]
  | 2 =>
    obtain ⟨hfirst, hsecond, -⟩ := h
    simp [scanLength, hfirst, hsecond]

end Scanning

namespace NumberFormat

/-- The numeral of an argument, padded with zeros. -/
def numeral (f : NumberFormat) {base : ℕ} (alphabet : Alphabet Byte base) (val : Word) :
    List Byte :=
  List.replicate (f.width - (alphabet.spell val.toNat).length) (alphabet.char 0) ++
    alphabet.spell val.toNat

/-- The text of an argument. -/
def text (f : NumberFormat) (args : VaList) (arg : ℕ) : List Byte :=
  match f.number with
  | .hex => f.numeral hexadecimal (hexArg args f.long arg)
  | .unsigned => f.numeral decimal (decArg args f.long arg)
  | .signed =>
    if (decArg args f.long arg).toInt < 0 then
      byte '-' :: f.numeral decimal (-decArg args f.long arg)
    else f.numeral decimal (decArg args f.long arg)

variable (f : NumberFormat)

theorem putNumber_written (s : Sprintf) {base : ℕ} (alphabet : Alphabet Byte base)
    (hzero : alphabet.char 0 = byte '0') {digits : List Byte} {val : Word}
    (hdigits : digits.reverse = alphabet.spell val.toNat) :
    (s.putNumber (paddingOf f.digits) digits).written = s.written ++ f.numeral alphabet val := by
  have hlength : (alphabet.spell val.toNat).length = digits.length := by
    rw [← hdigits, List.length_reverse]
  have hcount : max f.width digits.length - digits.length = f.width - digits.length := by omega
  rw [Sprintf.putNumber, Sprintf.put_written, numeral, hlength, hdigits]
  change s.written ++ (List.replicate (max f.width digits.length - digits.length)
    (if f.digits = [] then byte ' ' else byte '0') ++ _) = _
  rw [hcount]
  by_cases hnone : f.digits = []
  · have hwidth : f.width = 0 := by rw [width, hnone, List.foldl_nil]
    rw [hwidth, Nat.zero_sub, List.replicate_zero, List.replicate_zero]
  · rw [if_neg hnone, hzero]

/-- The `switch` writes the text of the argument. -/
theorem convert_written {fmt : ℕ → Byte} {s : Sprintf} (args : VaList)
    (hfmt : fmt s.format = f.number.char) :
    (convert fmt args (paddingOf f.digits) f.long s).written =
      s.written ++ f.text args s.arg := by
  have hdec (s : Sprintf) (val : Word) := f.putNumber_written s decimal rfl (dec_reverse val)
  have hhex (s : Sprintf) (val : Word) := f.putNumber_written s hexadecimal rfl (hex_reverse val)
  cases hnumber : f.number with
  | unsigned =>
    have hfmt : fmt s.format = byte 'u' := hfmt.trans (congrArg Number.char hnumber)
    simp only [text, hnumber]
    simpa [convert, hfmt, byte] using hdec s.read (decArg args f.long s.arg)
  | signed =>
    have hfmt : fmt s.format = byte 'd' := hfmt.trans (congrArg Number.char hnumber)
    simp only [text, hnumber]
    by_cases hneg : (decArg args f.long s.arg).toInt < 0
    · rw [if_pos hneg]
      have hminus := hdec (s.read.put [byte '-']) (-decArg args f.long s.arg)
      simpa [convert, hfmt, byte, hneg] using hminus
    · rw [if_neg hneg]
      simpa [convert, hfmt, byte, hneg] using hdec s.read (decArg args f.long s.arg)
  | hex =>
    have hfmt : fmt s.format = byte 'x' := hfmt.trans (congrArg Number.char hnumber)
    simp only [text, hnumber]
    simpa [convert, hfmt, byte] using hhex s.read (hexArg args f.long s.arg)

/-- A turn over the conversion of a number writes the text of its argument. -/
theorem turn_written {fmt : ℕ → Byte} {s : Sprintf} (args : VaList)
    (h : StartsWith fmt s.format f.chars) :
    (turn fmt args s).written = s.written ++ f.text args s.arg := by
  obtain ⟨hpercent, hflags⟩ := h
  -- what comes behind the padding is no digit, and what comes behind the length is no `l`
  have hnumber : ¬IsDigit f.number.char ∧ f.number.char ≠ byte 'l' := by
    cases f.number <;> decide
  obtain ⟨c, rest, hc, hrest⟩ : ∃ c rest, ¬IsDigit c ∧
      List.replicate f.longs (byte 'l') ++ [f.number.char] = c :: rest := by
    match f.longs with
    | 0 => exact ⟨_, _, hnumber.1, rfl⟩
    | 1 => exact ⟨byte 'l', _, by decide, rfl⟩
    | 2 => exact ⟨byte 'l', _, by decide, rfl⟩
  have hscanned := hflags
  rw [hrest] at hscanned
  obtain ⟨hpadding, hbehind⟩ := scanPadding_of_startsWith (s := s.read.next) f.atMostTwo hc hscanned
  have hlength : StartsWith fmt (scanPadding fmt s.read.next).2.format
      (List.replicate f.longs (byte 'l') ++ [f.number.char]) := by
    rw [hbehind]
    exact hflags.append_right
  obtain ⟨hlong, hend⟩ := scanLength_of_startsWith f.longs hnumber.2 hlength
  have hchar : fmt (scanLength fmt (scanPadding fmt s.read.next).2).2.format = f.number.char := by
    have hlast := hlength.append_right.1
    rwa [List.length_replicate, ← hend] at hlast
  have hwritten := f.convert_written args hchar
  rw [turn, if_pos hpercent, Sprintf.next_written, hpadding, hlong]
  refine hwritten.trans ?_
  simp

/-- The text can be taken off from what had been written. -/
theorem printed_eq {fmt : ℕ → Byte} {s : Sprintf} (args : VaList)
    (h : StartsWith fmt s.format f.chars) : printed fmt args s = f.text args s.arg := by
  rw [printed, f.turn_written args h, List.drop_left]

section RoundTrip

variable {f} {val : Word} (args : VaList) (arg : ℕ)

/-- A numeral is read back, and it has the digits asked for. -/
theorem numeral_spec {base : ℕ} (alphabet : Alphabet Byte base) (f : NumberFormat) (val : Word) :
    alphabet.read (f.numeral alphabet val) = some val.toNat ∧
      f.width ≤ alphabet.digitCount (f.numeral alphabet val) := by
  refine ⟨Alphabet.read_pad_spell _ _, ?_⟩
  rw [numeral, Alphabet.digitCount_pad_spell]
  omega

/-- Behind a sign the digits still count. -/
theorem digitCount_minus (text : List Byte) :
    decimal.digitCount text ≤ decimal.digitCount (byte '-' :: text) := by
  rw [Alphabet.digitCount, Alphabet.digitCount, List.countP_cons]
  omega

/-- The magnitude of a negative number. -/
theorem toNat_neg_of_neg (hneg : val.toInt < 0) : ((-val).toNat : ℤ) = -val.toInt := by
  rw [BitVec.toInt_eq_toNat_cond] at hneg ⊢
  rw [BitVec.toNat_neg]
  have := val.isLt
  split_ifs at hneg ⊢ <;> omega

theorem toInt_of_nonneg (hneg : ¬val.toInt < 0) : (val.toNat : ℤ) = val.toInt := by
  rw [BitVec.toInt_eq_toNat_cond] at hneg ⊢
  have := val.isLt
  split_ifs at hneg ⊢ <;> omega

/-- The text of `%x` is read back. -/
theorem roundTrips_hex (hnumber : f.number = .hex) : f.RoundTrips args arg (f.text args arg) := by
  obtain ⟨hread, hcount⟩ := numeral_spec hexadecimal f (hexArg args f.long arg)
  have hvalue : (hexArg args f.long arg).toNat = f.value args arg := by
    cases hlong : f.long with
    | true => simp [value, hnumber, hlong, hexArg]
    | false =>
      have := (args.low arg).isLt
      simp [value, hnumber, hlong, hexArg]
      omega
  constructor
  · simp [parse, text, hnumber, hread, hvalue]
  · simpa [digitCount, text, hnumber] using hcount

/-- The text of `%d` is read back. -/
theorem roundTrips_signed (hnumber : f.number = .signed) :
    f.RoundTrips args arg (f.text args arg) := by
  have hvalue : (decArg args f.long arg).toInt = f.value args arg := by
    cases hlong : f.long with
    | true => simp [value, hnumber, hlong, decArg]
    | false => simp [value, hnumber, hlong, decArg, BitVec.toInt_signExtend_of_le]
  by_cases hneg : (decArg args f.long arg).toInt < 0
  · obtain ⟨hread, hcount⟩ := numeral_spec decimal f (-decArg args f.long arg)
    constructor
    · have hminus := Alphabet.readSigned_minus (byte '-') hread
      rw [toNat_neg_of_neg hneg, hvalue, neg_neg] at hminus
      simpa [parse, text, hnumber, hneg] using hminus
    · simpa [digitCount, text, hnumber, hneg] using hcount.trans (digitCount_minus _)
  · obtain ⟨hread, hcount⟩ := numeral_spec decimal f (decArg args f.long arg)
    constructor
    · have hplain := Alphabet.readSigned_of_read (byte '-') (by decide) hread
      rw [toInt_of_nonneg hneg, hvalue] at hplain
      simpa [parse, text, hnumber, hneg] using hplain
    · simpa [digitCount, text, hnumber, hneg] using hcount

/-- The text of `%u` is read back as the number that the argument has become. -/
theorem roundTrips_unsigned_iff (hnumber : f.number = .unsigned) :
    f.RoundTrips args arg (f.text args arg) ↔
      ((decArg args f.long arg).toNat : ℤ) = f.value args arg := by
  obtain ⟨hread, hcount⟩ := numeral_spec decimal f (decArg args f.long arg)
  have hplain := Alphabet.readSigned_of_read (byte '-') (by decide) hread
  have hparse : f.parse (f.text args arg) = some ((decArg args f.long arg).toNat : ℤ) := by
    simpa [parse, text, hnumber] using hplain
  have hdigits : f.width ≤ f.digitCount (f.text args arg) := by
    simpa [digitCount, text, hnumber] using hcount
  rw [RoundTrips, hparse, Option.some.injEq, and_iff_left hdigits]

/-- Through `int` a number of 32 bits keeps its value if its highest bit is clear. -/
theorem toNat_decArg_iff (hlong : f.long = false) (hnumber : f.number = .unsigned) :
    ((decArg args f.long arg).toNat : ℤ) = f.value args arg ↔ (args.low arg).toNat < 2 ^ 31 := by
  have hlow := (args.low arg).isLt
  simp only [value, hnumber, hlong, decArg]
  rw [if_neg Bool.false_ne_true, BitVec.toNat_signExtend, BitVec.toNat_setWidth,
    BitVec.msb_eq_decide]
  by_cases hhigh : 2 ^ (32 - 1) ≤ (args.low arg).toNat
  · rw [if_pos (by simpa using hhigh)]
    omega
  · rw [if_neg (by simpa using hhigh)]
    omega

end RoundTrip

/-- What a turn writes for the conversion of a number is read back as the argument with at least
the digits asked for, if and only if it is not `%u` of a number whose highest bit of 32 is set. -/
theorem roundTrips_iff (f : NumberFormat) (fmt : ℕ → Byte) (args : VaList) (s : Sprintf)
    (h : StartsWith fmt s.format f.chars) :
    f.RoundTrips args s.arg (printed fmt args s) ↔
      ¬(f.number = .unsigned ∧ f.longs = 0 ∧ 2 ^ 31 ≤ (args.low s.arg).toNat) := by
  rw [f.printed_eq args h]
  cases hnumber : f.number with
  | unsigned =>
    rw [roundTrips_unsigned_iff args s.arg hnumber]
    by_cases hlong : f.long
    · have hlongs : f.longs ≠ 0 := by
        intro hzero
        rw [long, hzero] at hlong
        exact absurd hlong (by decide)
      simp [value, hnumber, hlong, decArg, hlongs]
    · have hlongs : f.longs = 0 := by
        rw [long, decide_eq_true_iff] at hlong
        exact Fin.ext (Nat.eq_zero_of_not_pos hlong)
      rw [toNat_decArg_iff args s.arg (by simpa using hlong) hnumber]
      simp [hlongs]
  | signed => simpa using roundTrips_signed args s.arg hnumber
  | hex => simpa using roundTrips_hex args s.arg hnumber

local instance neZero_longs : NeZero 3 := ⟨by decide⟩

/-- `%05ld` -/
def paddedLong : NumberFormat := ⟨[5], by decide, 1, .signed⟩

/-- `%u` -/
def plainUnsigned : NumberFormat := ⟨[], by decide, 0, .unsigned⟩

/-- The smallest number of 64 bits. -/
theorem roundTrips_paddedLong :
    paddedLong.RoundTrips ⟨fun _ => 1#64 <<< 63, fun _ => []⟩ 0
        (printed (fun i => paddedLong.chars.getD i 0) ⟨fun _ => 1#64 <<< 63, fun _ => []⟩
          ⟨0, [], [], 0⟩) ↔
      ¬(paddedLong.number = .unsigned ∧ paddedLong.longs = 0 ∧
        2 ^ 31 ≤ (VaList.low ⟨fun _ => 1#64 <<< 63, fun _ => []⟩ 0).toNat) :=
  roundTrips_iff paddedLong _ _ ⟨0, [], [], 0⟩ (by decide)

/-- The number 2 ^ 31 is printed as a number of 64 bits. -/
theorem not_roundTrips_plainUnsigned :
    ¬plainUnsigned.RoundTrips ⟨fun _ => 0x80000000, fun _ => []⟩ 0
      (printed (fun i => plainUnsigned.chars.getD i 0) ⟨fun _ => 0x80000000, fun _ => []⟩
        ⟨0, [], [], 0⟩) := by
  rw [plainUnsigned.printed_eq (s := ⟨0, [], [], 0⟩) _ (by decide), roundTrips_unsigned_iff _ _ rfl]
  decide

end NumberFormat

end KyroOS.Strings

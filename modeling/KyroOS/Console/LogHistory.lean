import KyroOS.Basic
import KyroOS.Lib.CharArray
import Mathlib.Data.List.TakeDrop
import Mathlib.Tactic

/-!
# The log history

The last messages are kept in a ring of ten rows of 256 bytes, and are read out from the oldest one
that is asked for on.

## Main definitions

* `LogHistory`, `klog` — the rows, and what a call stores in them
* `logGetEntries` — the copy to the buffer of a caller
* `message`, `entry` — the part of a text that a row keeps, and an entry of the buffer
* `Keeps` — which message a row holds

## Main results

* `Keeps.klog` — a further message takes the row of the oldest one
* `logGetEntries_eq` — the last messages are returned in order
-/

namespace KyroOS.Console

open CharArray

/-- `LOG_HISTORY_SIZE` -/
def logHistorySize : ℕ := 10

/-- `LOG_MESSAGE_MAX_LEN` -/
def logMessageMaxLen : ℕ := 256

/-- `log_history`, `log_history_idx` and `log_history_full`. -/
structure LogHistory where
  logHistory : ℕ → ℕ → Byte
  logHistoryIdx : BitVec 32
  logHistoryFull : Bool

/-- The text that a call of `klog` formats, and what its buffer held before. -/
structure LogCall where
  text : List Byte
  stale : ℕ → Byte

namespace LogHistory

variable (s : LogHistory)

/-- `log_buffer`, once `vksprintf` has written the text and the NUL behind it, and `klog` has made
sure that it ends. -/
def logBuffer (call : LogCall) : ℕ → Byte :=
  let written := fun i => (call.text ++ [0]).getD i (call.stale i)
  let len := call.text.length
  Function.update written (if len ≥ 2 * logMessageMaxLen then 2 * logMessageMaxLen - 1 else len) 0

/-- `klog`, as far as the history goes. -/
def klog (call : LogCall) : LogHistory :=
  let row := s.logHistoryIdx.toNat
  let copied := strncpy (s.logHistory row) 0 (logBuffer call) (logMessageMaxLen - 1)
  let logHistory :=
    Function.update s.logHistory row (Function.update copied (logMessageMaxLen - 1) 0)
  let next := s.logHistoryIdx + 1
  if next.toNat ≥ logHistorySize then ⟨logHistory, 0, true⟩
  else ⟨logHistory, next, s.logHistoryFull⟩

/-- The copies of the first `n` entries, from the row `start` on. -/
def copyEntries (start : ℕ) (entries : ℕ → Byte) : ℕ → ℕ → Byte
  | 0 => entries
  | n + 1 =>
    let dest := n * logMessageMaxLen
    let row := s.logHistory ((start + n) % logHistorySize)
    Function.update
      (strncpy (copyEntries start entries n) dest row (logMessageMaxLen - 1))
      (dest + (logMessageMaxLen - 1)) 0

/-- `log_get_entries`: the buffer of the caller and `*count`. The start is computed with unsigned
operands. -/
def logGetEntries (entries : ℕ → Byte) (numToGet : ℤ) : (ℕ → Byte) × ℤ :=
  if numToGet ≤ 0 then (entries, 0)
  else
    let numAvailable : ℤ := if s.logHistoryFull then logHistorySize else s.logHistoryIdx.toInt
    let numToCopy : ℤ := if numToGet > numAvailable then numAvailable else numToGet
    let startIndex := (s.logHistoryIdx - BitVec.ofInt 32 numToCopy + 10) % 10
    (s.copyEntries startIndex.toNat entries numToCopy.toNat, numToCopy)

/-- The history before the first call. -/
def Fresh : Prop := s.logHistoryIdx = 0 ∧ s.logHistoryFull = false

end LogHistory

/-- The part of a text that a row keeps. -/
def message (text : List Byte) : List Byte :=
  (text.takeWhile (· ≠ 0)).take (logMessageMaxLen - 1)

/-- The entry of a buffer, as a string. -/
def entry (entries : ℕ → Byte) (i : ℕ) : List Byte :=
  chars (fun j => entries (i * logMessageMaxLen + j)) logMessageMaxLen

/-! ### Messages -/

theorem length_message_lt (text : List Byte) : (message text).length < logMessageMaxLen := by
  have hle := List.length_take_le (logMessageMaxLen - 1) (text.takeWhile (· ≠ 0))
  rw [message]
  exact lt_of_le_of_lt hle (by decide)

theorem ne_zero_of_mem_message {text : List Byte} {c : Byte} (h : c ∈ message text) : c ≠ 0 := by
  have hmem := List.mem_takeWhile_imp (List.mem_of_mem_take h)
  simpa using hmem

/-- The string in the buffer, cut to the size of a row. -/
theorem chars_logBuffer {call : LogCall} (hlen : call.text.length < 2 * logMessageMaxLen) :
    chars (LogHistory.logBuffer call) (logMessageMaxLen - 1) = message call.text := by
  apply chars_eq_take
  intro i _ hi
  rw [LogHistory.logBuffer, if_neg (not_le.mpr hlen), Function.update_apply]
  split
  · next hend => rw [hend, List.getD_eq_getElem?_getD, List.getElem?_eq_none le_rfl, Option.getD_none]
  · next hne =>
    have hlt : i < call.text.length := lt_of_le_of_ne hi hne
    rw [List.getD_eq_getElem?_getD, List.getD_eq_getElem?_getD, List.getElem?_append_left hlt,
      List.getElem?_eq_getElem hlt, Option.getD_some, Option.getD_some]

/-- The string of an array with the characters of a message and zeros. -/
theorem chars_message {a : ℕ → Byte} {n : ℕ} {text : List Byte} (hn : logMessageMaxLen ≤ n + 1)
    (ha : ∀ j < n, a j = (message text).getD j 0) : chars a n = message text := by
  have hchars := chars_eq_take (a := a) (n := n) fun j hj _ => ha j hj
  have hall : (message text).takeWhile (· ≠ 0) = message text :=
    List.takeWhile_eq_self_iff.mpr fun c hc => by simpa using ne_zero_of_mem_message hc
  have hlen := length_message_lt text
  rw [hchars, hall, List.take_of_length_le (by omega)]

/-! ### The rows -/

variable {s : LogHistory} {texts : List (List Byte)}

/-- The last ten messages are in their rows, and the index says where the next one goes. -/
structure Keeps (s : LogHistory) (texts : List (List Byte)) : Prop where
  idx : s.logHistoryIdx.toNat = texts.length % logHistorySize
  full : s.logHistoryFull = true ↔ logHistorySize ≤ texts.length
  row : ∀ k (hk : k < texts.length), texts.length ≤ k + logHistorySize →
    ∀ j < logMessageMaxLen,
      s.logHistory (k % logHistorySize) j = (message (texts.get ⟨k, hk⟩)).getD j 0

theorem LogHistory.Fresh.keeps (h : s.Fresh) : Keeps s [] := by
  refine ⟨by rw [h.1]; rfl, by rw [h.2]; decide, fun k hk => absurd hk (Nat.not_lt_zero k)⟩

/-- What a copy of 255 characters and the NUL behind them leave in a field. -/
theorem copied_getD {src d : ℕ → Byte} {p j : ℕ} {text : List Byte}
    (hsrc : chars src (logMessageMaxLen - 1) = message text) (hj : j < logMessageMaxLen) :
    Function.update (strncpy d p src (logMessageMaxLen - 1)) (p + (logMessageMaxLen - 1)) 0
      (p + j) = (message text).getD j 0 := by
  rw [Function.update_apply]
  split
  · next hlast =>
    have hle := length_message_lt text
    rw [List.getD_eq_getElem?_getD, List.getElem?_eq_none (by omega), Option.getD_none]
  · next hne => rw [strncpy_of_lt (by omega), hsrc]

/-- A further message takes the row of the oldest one. -/
theorem Keeps.klog (h : Keeps s texts) {call : LogCall}
    (hlen : call.text.length < 2 * logMessageMaxLen) :
    Keeps (s.klog call) (texts ++ [call.text]) := by
  have hidx : s.logHistoryIdx.toNat = texts.length % 10 := h.idx
  have hfull : s.logHistoryFull = true ↔ 10 ≤ texts.length := h.full
  have hnext : (s.logHistoryIdx + 1).toNat = s.logHistoryIdx.toNat + 1 := by
    have hone : (1 : BitVec 32).toNat = 1 := rfl
    rw [BitVec.toNat_add, hone]
    exact Nat.mod_eq_of_lt (by omega)
  have hrows : (s.klog call).logHistory = Function.update s.logHistory s.logHistoryIdx.toNat
      (Function.update (strncpy (s.logHistory s.logHistoryIdx.toNat) 0 (LogHistory.logBuffer call)
        (logMessageMaxLen - 1)) (logMessageMaxLen - 1) 0) := by
    unfold LogHistory.klog
    dsimp only
    split <;> rfl
  have hlength : (texts ++ [call.text]).length = texts.length + 1 := by simp
  have hcall : (s.klog call).logHistoryIdx.toNat = (texts.length + 1) % 10 ∧
      ((s.klog call).logHistoryFull = true ↔ 10 ≤ texts.length + 1) := by
    unfold LogHistory.klog
    by_cases hwrap : (s.logHistoryIdx + 1).toNat ≥ 10
    · simp only [logHistorySize, hwrap, if_true, true_iff]
      exact ⟨by show 0 = _; omega, by omega⟩
    · simp only [logHistorySize, hwrap, if_false, hfull]
      omega
  refine ⟨hlength ▸ hcall.1, hlength ▸ hcall.2, fun k hk hlast j hj => ?_⟩
  rw [hlength] at hk hlast
  have hlast' : texts.length + 1 ≤ k + 10 := hlast
  rw [hrows, Function.update_apply]
  by_cases hnew : k = texts.length
  · have hcopied := copied_getD (d := s.logHistory s.logHistoryIdx.toNat) (p := 0)
      (chars_logBuffer hlen) hj
    rw [Nat.zero_add, Nat.zero_add] at hcopied
    subst hnew
    rw [if_pos h.idx.symm, hcopied]
    simp
  · have hold : k < texts.length := by omega
    have hrow : k % logHistorySize ≠ s.logHistoryIdx.toNat := by
      show k % 10 ≠ _
      omega
    rw [if_neg hrow]
    simpa [hold] using h.row k hold (Nat.le_of_succ_le hlast) j hj

/-- The calls of `klog`, one after the other. -/
theorem Keeps.foldl {calls : List LogCall} (h : Keeps s texts)
    (hlen : ∀ call ∈ calls, call.text.length < 2 * logMessageMaxLen) :
    Keeps (calls.foldl LogHistory.klog s) (texts ++ calls.map LogCall.text) := by
  induction calls generalizing s texts with
  | nil => simpa using h
  | cons call calls ih =>
    have hfirst := h.klog (hlen call List.mem_cons_self)
    have hrest := ih hfirst fun c hc => hlen c (List.mem_cons_of_mem _ hc)
    simpa using hrest

/-! ### Reading -/

/-- The entries that were copied, and nothing behind them. -/
theorem Keeps.copyEntries (h : Keeps s texts) {start first : ℕ} (entries : ℕ → Byte)
    (hstart : start = first % logHistorySize) (hfirst : texts.length ≤ first + logHistorySize)
    (n i : ℕ) (hn : first + n ≤ texts.length) (hi : i < n) (hlt : first + i < texts.length)
    (j : ℕ) (hj : j < logMessageMaxLen) :
    s.copyEntries start entries n (i * logMessageMaxLen + j) =
      (message (texts.get ⟨first + i, hlt⟩)).getD j 0 := by
  induction n with
  | zero => exact absurd hi (Nat.not_lt_zero i)
  | succ n ih =>
    have hmax : logMessageMaxLen = 256 := rfl
    rw [LogHistory.copyEntries]
    by_cases hlast : i = n
    · subst hlast
      have hrow : chars (s.logHistory ((start + i) % logHistorySize)) (logMessageMaxLen - 1) =
          message (texts.get ⟨first + i, hlt⟩) := by
        have hmod : (start + i) % logHistorySize = (first + i) % logHistorySize := by
          rw [hstart, Nat.mod_add_mod]
        rw [hmod]
        exact chars_message (by omega) fun j hj => h.row (first + i) (by omega) (by omega) j (by omega)
      exact copied_getD hrow hj
    · have hbefore : i * logMessageMaxLen + j < n * logMessageMaxLen := by
        have hlt : i + 1 ≤ n := by omega
        have hmul := Nat.mul_le_mul_right logMessageMaxLen hlt
        rw [Nat.succ_mul] at hmul
        omega
      rw [Function.update_of_ne (by omega), strncpy_of_outside (.inl hbefore)]
      exact ih (by omega) (by omega)

/-- The start of the copies, also where the unsigned difference is negative. -/
theorem Keeps.startIndex (h : Keeps s texts) {n : ℕ} (hn : n ≤ logHistorySize)
    (hle : n ≤ texts.length) :
    ((s.logHistoryIdx - BitVec.ofInt 32 n + 10) % 10).toNat =
      (texts.length - n) % logHistorySize := by
  have hidx : s.logHistoryIdx.toNat = texts.length % 10 := h.idx
  have hn' : n ≤ 10 := hn
  have hten : (10 : BitVec 32).toNat = 10 := rfl
  rw [BitVec.toNat_umod, BitVec.toNat_add, BitVec.toNat_sub, BitVec.ofInt_natCast,
    BitVec.toNat_ofNat, hten]
  show _ = (texts.length - n) % 10
  omega

/-- After any calls of `klog`, the last messages are returned in order, as many as are asked for
and there are, each cut to the size of a row. -/
theorem logGetEntries_eq (hs : s.Fresh) (calls : List LogCall)
    (hlen : ∀ call ∈ calls, call.text.length < 512) (entries : ℕ → Byte) (k : ℤ) (hk : 1 ≤ k) :
    let (entries, count) := (calls.foldl LogHistory.klog s).logGetEntries entries k
    count = min k (min calls.length 10) ∧
      (List.range count.toNat).map (entry entries) =
        (calls.map fun call => message call.text).drop (calls.length - count.toNat) := by
  have h := hs.keeps.foldl hlen
  rw [List.nil_append] at h
  generalize calls.foldl LogHistory.klog s = s at h ⊢
  have hlength : (calls.map LogCall.text).length = calls.length := List.length_map _
  have hidx : s.logHistoryIdx.toNat = calls.length % 10 := hlength ▸ h.idx
  have hfull : s.logHistoryFull = true ↔ 10 ≤ calls.length := hlength ▸ h.full
  have havailable : (if s.logHistoryFull then (logHistorySize : ℤ) else s.logHistoryIdx.toInt) =
      ((min calls.length 10 : ℕ) : ℤ) := by
    have hint : s.logHistoryIdx.toInt = s.logHistoryIdx.toNat :=
      BitVec.toInt_eq_toNat_of_lt (by omega)
    rw [hint, hidx]
    split
    · next hyes =>
      have hge := hfull.mp hyes
      show (10 : ℤ) = _
      omega
    · next hno =>
      have hlt := mt hfull.mpr hno
      omega
  obtain ⟨n, hn⟩ : ∃ n : ℕ, min k (min (calls.length : ℤ) 10) = n :=
    ⟨(min k (min (calls.length : ℤ) 10)).toNat, by omega⟩
  have hcopy : (if k > ((min calls.length 10 : ℕ) : ℤ) then ((min calls.length 10 : ℕ) : ℤ) else k) =
      n := by
    rw [← hn]
    split <;> omega
  have hn10 : n ≤ logHistorySize := by
    show n ≤ 10
    omega
  have hnlen : n ≤ calls.length := by omega
  have hstart := h.startIndex hn10 (hlength.symm ▸ hnlen)
  rw [hlength] at hstart
  rw [LogHistory.logGetEntries, if_neg (by omega)]
  simp only [havailable, hcopy, Int.toNat_natCast, hn]
  refine ⟨trivial, List.ext_getElem (by simp; omega) fun i hi _ => ?_⟩
  have hin : i < n := by simpa using hi
  have hfirst : (calls.map LogCall.text).length ≤ calls.length - n + logHistorySize := by
    rw [hlength]
    exact Nat.le_add_of_sub_le (by omega)
  have hcopied := h.copyEntries entries hstart hfirst n i (by omega) hin (by omega)
  have hentry : entry (s.copyEntries _ entries n) i = message _ :=
    chars_message (Nat.le_succ _) hcopied
  simpa using hentry

/-- A history that has not been used, and a text for it. -/
def emptyHistory : LogHistory := ⟨fun _ _ => 0, 0, false⟩

def bootText : LogCall := ⟨[0x6F, 0x6B], fun _ => 0⟩

theorem logGetEntries_boot :
    ((List.range 1).map (entry
      ((([bootText, bootText].foldl LogHistory.klog emptyHistory).logGetEntries
        (fun _ => 0) 1).1))) = [[0x6F, 0x6B]] :=
  (logGetEntries_eq (s := emptyHistory) ⟨rfl, rfl⟩ [bootText, bootText] (by decide) (fun _ => 0) 1
    le_rfl).2

end KyroOS.Console

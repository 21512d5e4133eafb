import KyroOS.Net.Bytes
import KyroOS.Packages.Info

/-!
# Package archives

A `.kpkg` file is a row of headers, each with the data of its entry behind it. The data is read in
pieces of at most 1024 bytes.

## Main definitions

* `KpkgEntry`, `readEntry` — a header, and the one at the beginning of some bytes
* `readData` — the loops that read the data of an entry
* `entries` — the headers of an archive, each with what is behind it

## Main results

* `readEntry_bytes` — a header that was written is read
* `readData_eq` — the loop ends behind the data, or at the end of the file
* `entries_bytes` — the entries of an archive that was written
-/

namespace KyroOS.Packages

open Vfs BoundedArray Net

/-- `kpkg_entry_t` -/
structure KpkgEntry where
  filename : Vector Byte 256
  size : BitVec 32
  isMeta : Byte

/-- `sizeof(kpkg_entry_t)`, with three bytes that fill it up. -/
def kpkgEntrySize : ℕ := 264

/-- The size of `discard_buf` and `file_buf`. -/
def bufSize : ℕ := 1024

/-- The header that is read first, and the bytes behind it. -/
def readEntry (data : List Byte) : Option (KpkgEntry × List Byte) :=
  if h : kpkgEntrySize ≤ data.length then
    some (⟨⟨(data.take 256).toArray, by
      rw [List.size_toArray, List.length_take]
      exact Nat.min_eq_left (le_trans (by decide) h)⟩,
      load32 (ofBytes data) 256, ofBytes data 260⟩, data.drop kpkgEntrySize)
  else none

/-- A loop that reads the data of an entry, for a number of turns, and gives the pieces to a
function. What is returned is what the function has made, and what is left of the archive. -/
def readData {σ : Type} (write : σ → List Byte → σ) :
    ℕ → Vector Byte bufSize → Int → List Byte → σ → Outcome (σ × List Byte)
  | 0, _, _, _, _ => .error .outOfFuel
  | turns + 1, buf, toRead, data, s =>
    if toRead ≤ 0 then .ok (s, data)
    else do
      let bytes := data.take (if bufSize < toRead then bufSize else toRead.toNat)
      let buf ← checked (storeAt buf 0 bytes)
      if bytes = [] then .ok (s, data)
      else readData write turns buf (toRead - bytes.length) (data.drop bytes.length) (write s bytes)

/-- The bytes of a header. -/
def KpkgEntry.bytes (e : KpkgEntry) : List Byte :=
  e.filename.toList ++ (store32 e.size ++ [e.isMeta, 0, 0, 0])

section Archive

variable {data rest : List Byte} {e : KpkgEntry} {σ : Type} {turns : ℕ}

/-! ### Headers -/

theorem readEntry_eq_none (h : data.length < kpkgEntrySize) : readEntry data = none :=
  dif_neg (Nat.not_le.mpr h)

theorem length_of_readEntry (h : readEntry data = some (e, rest)) :
    rest.length + kpkgEntrySize = data.length := by
  unfold readEntry at h
  split at h
  · next hle =>
    obtain ⟨-, rfl⟩ := Prod.mk.inj (Option.some.inj h)
    rw [List.length_drop, Nat.sub_add_cancel hle]
  · exact nomatch h

theorem KpkgEntry.length_bytes : e.bytes.length = kpkgEntrySize := by
  rw [KpkgEntry.bytes, List.length_append, List.length_append, Vector.length_toList, length_store32]
  rfl

/-- A header that was written is read. -/
theorem readEntry_bytes : readEntry (e.bytes ++ rest) = some (e, rest) := by
  have hlength : (e.bytes ++ rest).length = kpkgEntrySize + rest.length := by
    rw [List.length_append, KpkgEntry.length_bytes]
  have hstands : Contains (ofBytes (e.bytes ++ rest)) 0 (e.bytes ++ rest) := contains_ofBytes
  rw [contains_append, KpkgEntry.bytes, contains_append, contains_append, Vector.length_toList,
    length_store32, contains_cons] at hstands
  obtain ⟨⟨-, hsize, hmeta, -⟩, -⟩ := hstands
  have hname : (e.bytes ++ rest).take 256 = e.filename.toList := by
    rw [KpkgEntry.bytes, List.append_assoc, List.take_left' (Vector.length_toList)]
  have hfilename : ∀ h, (⟨((e.bytes ++ rest).take 256).toArray, h⟩ : Vector Byte 256) = e.filename :=
    fun h => Vector.toList_inj.mp hname
  rw [readEntry, dif_pos (by omega), hfilename, List.drop_left' KpkgEntry.length_bytes]
  exact congrArg some (Prod.ext (congrArg₂ (KpkgEntry.mk e.filename) hsize.load32 hmeta) rfl)

/-! ### Data -/

/-- The loop ends behind the data, or at the end of the file. -/
theorem readData_eq (write : σ → List Byte → σ) (hturns : data.length < turns)
    (buf : Vector Byte bufSize) (toRead : Int) (s : σ) :
    ∃ s', readData write turns buf toRead data s = .ok (s', data.drop toRead.toNat) := by
  induction turns generalizing data buf toRead s with
  | zero => exact absurd hturns (Nat.not_lt_zero _)
  | succ turns ih =>
    rw [readData]
    by_cases hdone : toRead ≤ 0
    · rw [if_pos hdone, Int.toNat_of_nonpos hdone]
      exact ⟨s, rfl⟩
    · rw [if_neg hdone]
      generalize hn : (if (bufSize : Int) < toRead then bufSize else toRead.toNat) = n
      have hpiece : 0 < n ∧ n ≤ bufSize ∧ n ≤ toRead.toNat := by
        have hpos : 0 < bufSize := by decide
        split at hn
        all_goals omega
      have hlength : (data.take n).length = min n data.length := List.length_take
      obtain ⟨buf', hbuf⟩ := storeAt_of_le buf 0 (data.take n) (by omega)
      dsimp only
      rw [hbuf]
      show ∃ s', (if data.take n = [] then _ else _) = _
      by_cases hend : data.take n = []
      · have hnil : data = [] := (List.take_eq_nil_iff.mp hend).resolve_left (by omega)
        rw [if_pos hend, hnil, List.drop_nil]
        exact ⟨s, rfl⟩
      · have hpos : 0 < (data.take n).length := List.length_pos_of_ne_nil hend
        -- the next turn has less to read
        have hless : (data.drop (data.take n).length).length < turns := by
          rw [List.length_drop]
          omega
        obtain ⟨s', hs'⟩ := ih hless buf' (toRead - (data.take n).length) (write s (data.take n))
        rw [if_neg hend, hs', List.drop_drop]
        refine ⟨s', ?_⟩
        congr 3
        omega

/-! ### Entries -/

/-- The headers of an archive, each with the bytes behind it. The next header is behind the data; a
size from `2 ^ 31` on is negative, and no data is skipped. -/
def entries (data : List Byte) : List (KpkgEntry × List Byte) :=
  match _h : readEntry data with
  | none => []
  | some (e, rest) => (e, rest) :: entries (rest.drop e.size.toInt.toNat)
termination_by data.length
decreasing_by
  have hlength := length_of_readEntry _h
  have hsize : 0 < kpkgEntrySize := by decide
  rw [List.length_drop]
  omega

theorem entries_of_none (h : readEntry data = none) : entries data = [] := by
  rw [entries]
  split
  · rfl
  · next h' => exact nomatch h.symm.trans h'

theorem entries_of_some (h : readEntry data = some (e, rest)) :
    entries data = (e, rest) :: entries (rest.drop e.size.toInt.toNat) := by
  rw [entries]
  split
  · next h' => exact nomatch h.symm.trans h'
  · next h' =>
    obtain ⟨rfl, rfl⟩ := Prod.mk.inj (Option.some.inj (h.symm.trans h'))
    rfl

theorem entries_nil : entries [] = [] := entries_of_none (readEntry_eq_none (by decide))

/-- The entries of an archive that was written. -/
theorem entries_bytes {body : List Byte} (hbody : e.size.toInt = body.length) :
    entries (e.bytes ++ (body ++ rest)) = (e, body ++ rest) :: entries rest := by
  rw [entries_of_some readEntry_bytes, hbody, Int.toNat_natCast, List.drop_left]

end Archive

end KyroOS.Packages

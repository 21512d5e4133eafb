import Mathlib.Data.List.GetD
import Mathlib.Order.Interval.Finset.Nat

/-!
# Blocks of bytes in a map of addresses

The addresses are the words of `w` bits, and the bytes of a block stand at consecutive addresses.
Blocks that have no address in common are written in any order, and all of them are read back.

## Main definitions

* `Block`, `Block.Covers` — some bytes and where they stand
* `write`, `writeAll` — a map after blocks are written to it
* `Holds` — the bytes of a block are where they should be

## Main results

* `write_write` — blocks that follow each other are one block
* `holds_writeAll` — blocks without common addresses are read back
-/

namespace ByteMap

variable {w : ℕ} {β : Type*}

/-- Bytes at `addr` and behind it. -/
structure Block (w : ℕ) (β : Type*) where
  addr : BitVec w
  bytes : List β

namespace Block

/-- The address is one of those of the block. -/
def Covers (b : Block w β) (x : BitVec w) : Prop := (x - b.addr).toNat < b.bytes.length

/-- The blocks have no address in common. -/
def Apart (b c : Block w β) : Prop := ∀ x, b.Covers x → ¬ c.Covers x

/-- The block lies between two addresses. -/
def Within (lo hi : ℕ) (b : Block w β) : Prop :=
  lo ≤ b.addr.toNat ∧ b.addr.toNat + b.bytes.length ≤ hi

end Block

/-- The map after a block is written. -/
def write (m : BitVec w → β) (b : Block w β) : BitVec w → β :=
  fun x => b.bytes.getD (x - b.addr).toNat (m x)

/-- The map after blocks are written, one after the other. -/
def writeAll (m : BitVec w → β) (blocks : List (Block w β)) : BitVec w → β := blocks.foldl write m

/-- The bytes of the block are found at its addresses. -/
def Holds (m : BitVec w → β) (b : Block w β) : Prop :=
  ∀ k (hk : k < b.bytes.length), m (b.addr + BitVec.ofNat w k) = b.bytes.get ⟨k, hk⟩

variable {m m' : BitVec w → β} {b c : Block w β} {blocks : List (Block w β)} {x a : BitVec w}
  {lo mid hi : ℕ}

theorem Block.Apart.symm (h : b.Apart c) : c.Apart b := fun x hc hb => h x hb hc

theorem Block.Within.mono {lo' hi' : ℕ} (h : b.Within lo hi) (hlo : lo' ≤ lo) (hhi : hi ≤ hi') :
    b.Within lo' hi' :=
  ⟨hlo.trans h.1, h.2.trans hhi⟩

/-- The addresses of a block that does not wrap around. -/
theorem Block.Within.covers_iff (h : b.Within lo hi) (hhi : hi ≤ 2 ^ w) :
    b.Covers x ↔ b.addr.toNat ≤ x.toNat ∧ x.toNat < b.addr.toNat + b.bytes.length := by
  obtain ⟨-, hend⟩ := h
  have hx := x.isLt
  have hb := b.addr.isLt
  rw [Block.Covers, BitVec.toNat_sub]
  constructor
  · intro hlt
    by_cases hle : b.addr.toNat ≤ x.toNat
    · refine ⟨hle, ?_⟩
      rw [show 2 ^ w - b.addr.toNat + x.toNat = x.toNat - b.addr.toNat + 2 ^ w by omega,
        Nat.add_mod_right, Nat.mod_eq_of_lt (by omega)] at hlt
      omega
    · rw [Nat.mod_eq_of_lt (by omega)] at hlt
      omega
  · rintro ⟨hle, hlt⟩
    rw [show 2 ^ w - b.addr.toNat + x.toNat = x.toNat - b.addr.toNat + 2 ^ w by omega,
      Nat.add_mod_right, Nat.mod_eq_of_lt (by omega)]
    omega

/-- A block below another one. -/
theorem Block.Within.apart (hb : b.Within mid hi) (hc : c.Within lo mid) (hhi : hi ≤ 2 ^ w) :
    b.Apart c := by
  have hmid : mid ≤ 2 ^ w := (Nat.le_add_right_of_le hb.1).trans (hb.2.trans hhi)
  intro x hx hx'
  have hle := ((hb.covers_iff hhi).mp hx).1
  have hlt := ((hc.covers_iff hmid).mp hx').2
  have hmid' := hb.1
  have hend := hc.2
  omega

theorem write_of_not_covers (h : ¬ b.Covers x) : write m b x = m x :=
  List.getD_eq_default _ _ (not_lt.mp h)

theorem write_of_covers (h : b.Covers x) :
    write m b x = b.bytes.get ⟨(x - b.addr).toNat, h⟩ := by
  rw [write, List.getD_eq_getElem _ _ h]
  rfl

theorem write_congr (h : m x = m' x) : write m b x = write m' b x := by
  rw [write, write, h]

theorem writeAll_congr (h : m x = m' x) : writeAll m blocks x = writeAll m' blocks x := by
  induction blocks generalizing m m' with
  | nil => exact h
  | cons b blocks ih => exact ih (write_congr h)

theorem writeAll_of_not_covers (h : ∀ b ∈ blocks, ¬ b.Covers x) : writeAll m blocks x = m x := by
  induction blocks generalizing m with
  | nil => rfl
  | cons b blocks ih =>
    have hrest : writeAll (write m b) blocks x = write m b x :=
      ih fun c hc => h c (List.mem_cons_of_mem b hc)
    exact hrest.trans (write_of_not_covers (h b List.mem_cons_self))

theorem writeAll_append (blocks blocks' : List (Block w β)) :
    writeAll m (blocks ++ blocks') = writeAll (writeAll m blocks) blocks' := List.foldl_append

/-- Blocks that follow each other are one block. -/
theorem write_write {bs cs : List β} (hlen : bs.length + cs.length ≤ 2 ^ w) :
    write (write m ⟨a, bs⟩) ⟨a + BitVec.ofNat w bs.length, cs⟩ x = write m ⟨a, bs ++ cs⟩ x := by
  have hx := (x - a).isLt
  have hsub : (x - (a + BitVec.ofNat w bs.length)).toNat =
      (2 ^ w - bs.length % 2 ^ w + (x - a).toNat) % 2 ^ w := by
    rw [← BitVec.sub_sub, BitVec.toNat_sub, BitVec.toNat_ofNat]
  simp only [write, List.getD_eq_getElem?_getD]
  rw [hsub]
  generalize 2 ^ w = n at *
  by_cases hlt : (x - a).toNat < bs.length
  · -- an address of the first block
    have hbehind : cs[(n - bs.length % n + (x - a).toNat) % n]? = none := by
      refine List.getElem?_eq_none ?_
      rcases Nat.lt_or_ge bs.length n with hshort | hfull
      · rw [Nat.mod_eq_of_lt hshort, Nat.mod_eq_of_lt (by omega)]
        omega
      · omega
    rw [hbehind, Option.getD_none, List.getElem?_append_left hlt]
  · have hmod : bs.length % n = bs.length := Nat.mod_eq_of_lt (by omega)
    have hoff : (n - bs.length % n + (x - a).toNat) % n = (x - a).toNat - bs.length := by
      rw [hmod, show n - bs.length + (x - a).toNat = (x - a).toNat - bs.length + n by omega,
        Nat.add_mod_right, Nat.mod_eq_of_lt (by omega)]
    have hfirst : bs[(x - a).toNat]? = none := List.getElem?_eq_none (by omega)
    rw [hoff, List.getElem?_append_right (by omega), hfirst, Option.getD_none]

/-- A map that agrees on the addresses of a block. -/
theorem Holds.congr (h : Holds m b) (hsame : ∀ k < b.bytes.length,
    m' (b.addr + BitVec.ofNat w k) = m (b.addr + BitVec.ofNat w k)) : Holds m' b :=
  fun k hk => (hsame k hk).trans (h k hk)

/-- The two parts of a block. -/
theorem holds_append {bs cs : List β} : Holds m ⟨a, bs ++ cs⟩ ↔
    Holds m ⟨a, bs⟩ ∧ Holds m ⟨a + BitVec.ofNat w bs.length, cs⟩ := by
  constructor
  · intro h
    constructor
    · intro k hk
      have hboth := h k (by simp only [List.length_append] at hk ⊢; omega)
      simpa [List.getElem_append_left hk] using hboth
    · intro k hk
      have hboth := h (bs.length + k) (by simp only [List.length_append] at hk ⊢; omega)
      rw [BitVec.ofNat_add, ← BitVec.add_assoc] at hboth
      simpa using hboth
  · rintro ⟨hfirst, hsecond⟩ k hk
    by_cases hlt : k < bs.length
    · have hpart := hfirst k hlt
      simpa [List.getElem_append_left hlt] using hpart
    · obtain ⟨j, rfl⟩ := Nat.exists_eq_add_of_le (not_lt.mp hlt)
      have hpart := hsecond j (by simp only [List.length_append] at hk ⊢; omega)
      rw [BitVec.add_assoc, ← BitVec.ofNat_add] at hpart
      simpa using hpart

/-- Blocks without common addresses are read back. -/
theorem holds_writeAll (hapart : blocks.Pairwise Block.Apart)
    (hlen : ∀ b ∈ blocks, b.bytes.length ≤ 2 ^ w) (hb : b ∈ blocks) :
    Holds (writeAll m blocks) b := by
  intro k hk
  have hcovers : b.Covers (b.addr + BitVec.ofNat w k) := by
    have hle := hlen b hb
    rw [Block.Covers, BitVec.add_comm, BitVec.add_sub_cancel, BitVec.toNat_ofNat,
      Nat.mod_eq_of_lt (by omega)]
    exact hk
  have hread : ∀ m : BitVec w → β, write m b (b.addr + BitVec.ofNat w k) = b.bytes.get ⟨k, hk⟩ := by
    intro m
    have hoff : (b.addr + BitVec.ofNat w k - b.addr).toNat = k := by
      have hle := hlen b hb
      rw [BitVec.add_comm, BitVec.add_sub_cancel, BitVec.toNat_ofNat, Nat.mod_eq_of_lt (by omega)]
    rw [write_of_covers hcovers]
    exact congrArg b.bytes.get (Fin.ext hoff)
  clear hlen
  -- the blocks that are written behind it do not cover its addresses
  induction blocks generalizing m with
  | nil => exact absurd hb List.not_mem_nil
  | cons c blocks ih =>
    obtain ⟨hhead, htail⟩ := List.pairwise_cons.mp hapart
    rcases List.mem_cons.mp hb with rfl | hb
    · have hrest : writeAll (write m b) blocks (b.addr + BitVec.ofNat w k) =
          write m b (b.addr + BitVec.ofNat w k) :=
        writeAll_of_not_covers fun c hc => hhead c hc _ hcovers
      exact hrest.trans (hread m)
    · exact ih htail hb

end ByteMap

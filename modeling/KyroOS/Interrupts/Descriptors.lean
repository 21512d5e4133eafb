import KyroOS.Basic
import Mathlib.Tactic.IntervalCases

/-!
# Segments and gates

The processor finds its segments and the entry points of interrupts in two tables. The kernel takes
what it writes there to pieces; the processor puts the pieces together again.

## Main definitions

* `gdtSetEntry`, `gdtSetTss`, `gdtInit` — the table of the segments
* `Segment.ofEntry`, `Segment.ofSystem` — what the processor reads there
* `idtSetGate`, `idtInit` — the table of the gates
* `IdtEntry.target` — where the processor enters the kernel

## Main results

* `segments_spec` — the processor reads the segments that the kernel means
* `idtInit_spec` — each interrupt enters the kernel at its own stub, and one of them from user code
-/

namespace KyroOS.Interrupts

/-! ### Segments -/

/-- What the processor knows about a segment. -/
structure Segment where
  base : Word
  limit : BitVec 20
  access : BitVec 8
  flags : BitVec 4

/-- The value that `gdt_set_entry` writes. -/
def gdtEntry (base limit : BitVec 32) (access gran : BitVec 8) : Word :=
  (limit &&& 0xFFFF#32).setWidth 64 ||| (base.setWidth 64 &&& 0xFFFFFF#64) <<< 16 |||
    access.setWidth 64 <<< 40 ||| ((limit >>> 16).setWidth 64 &&& 0x0F#64) <<< 48 |||
    (gran &&& 0xF0#8).setWidth 64 <<< 48 ||| ((base >>> 24).setWidth 64 &&& 0xFF#64) <<< 56

/-- The table of the segments. -/
abbrev Gdt := Fin 7 → Word

/-- `gdt_set_entry` -/
def gdtSetEntry (gdt : Gdt) (index : Fin 7) (base limit : BitVec 32) (access gran : BitVec 8) : Gdt :=
  Function.update gdt index (gdtEntry base limit access gran)

/-- `struct gdt_system_entry_bits` -/
structure GdtSystemEntry where
  limitLow : BitVec 16
  baseLow : BitVec 16
  baseMiddle : BitVec 8
  access : BitVec 8
  granularity : BitVec 8
  baseHigh : BitVec 8
  baseUpper : BitVec 32
  reserved : BitVec 32

namespace GdtSystemEntry

variable (e : GdtSystemEntry)

/-- The first of the two words that the structure lies on. -/
def lower : Word :=
  e.baseHigh ++ e.granularity ++ e.access ++ e.baseMiddle ++ e.baseLow ++ e.limitLow

/-- The second word. -/
def upper : Word := e.reserved ++ e.baseUpper

end GdtSystemEntry

/-- `sizeof(struct tss_entry_struct)` -/
def tssSize : BitVec 32 := 104

/-- What `gdt_set_tss` puts into the structure. -/
def tssEntry (base : Word) : GdtSystemEntry where
  limitLow := (tssSize &&& 0xFFFF#32).setWidth 16
  baseLow := (base &&& 0xFFFF#64).setWidth 16
  baseMiddle := ((base >>> 16) &&& 0xFF#64).setWidth 8
  access := 0x89
  granularity := ((tssSize >>> 16) &&& 0x0F#32).setWidth 8
  baseHigh := ((base >>> 24) &&& 0xFF#64).setWidth 8
  baseUpper := ((base >>> 32) &&& 0xFFFFFFFF#64).setWidth 32
  reserved := 0

/-- `gdt_set_tss` -/
def gdtSetTss (gdt : Gdt) (tssBase : Word) : Gdt :=
  Function.update (Function.update gdt 5 (tssEntry tssBase).lower) 6 (tssEntry tssBase).upper

/-- `gdt_init` -/
def gdtInit (gdt : Gdt) : Gdt :=
  let gdt := gdtSetEntry gdt 0 0 0 0 0
  let gdt := gdtSetEntry gdt 1 0 0xFFFFFFFF 0x9A 0xA0
  let gdt := gdtSetEntry gdt 2 0 0xFFFFFFFF 0x92 0x80
  let gdt := gdtSetEntry gdt 3 0 0xFFFFFFFF 0xFA 0xA0
  gdtSetEntry gdt 4 0 0xFFFFFFFF 0xF2 0x80

/-- A code or data segment, as the processor reads it. -/
def Segment.ofEntry (d : Word) : Segment where
  base := (d.extractLsb' 56 8 ++ d.extractLsb' 16 24 : BitVec 32).setWidth 64
  limit := d.extractLsb' 48 4 ++ d.extractLsb' 0 16
  access := d.extractLsb' 40 8
  flags := d.extractLsb' 52 4

/-- A system segment, of two words. -/
def Segment.ofSystem (lower upper : Word) : Segment :=
  { Segment.ofEntry lower with
    base := upper.extractLsb' 0 32 ++ (lower.extractLsb' 56 8 ++ lower.extractLsb' 16 24 : BitVec 32) }

section Segments

variable {gdt : Gdt} {index : Fin 7} {base limit : BitVec 32} {access gran : BitVec 8} {d : Word}
  {i : ℕ}

/-- Where the bits of a base are. -/
theorem getLsbD_base (hi : i < 32) :
    (d.extractLsb' 56 8 ++ d.extractLsb' 16 24 : BitVec 32).getLsbD i =
      d.getLsbD (if i < 24 then i + 16 else i + 32) := by
  rw [BitVec.getLsbD_append]
  by_cases hlow : i < 24
  · simp [hlow, Nat.add_comm]
  · simp [hlow, show i - 24 < 8 by omega, show 56 + (i - 24) = i + 32 by omega]

/-- Where the bits of a limit are. -/
theorem getLsbD_limit (hi : i < 20) :
    (d.extractLsb' 48 4 ++ d.extractLsb' 0 16 : BitVec 20).getLsbD i =
      d.getLsbD (if i < 16 then i else i + 32) := by
  rw [BitVec.getLsbD_append]
  by_cases hlow : i < 16
  · simp [hlow]
  · simp [hlow, show i - 16 < 4 by omega, show 48 + (i - 16) = i + 32 by omega]

theorem base_gdtEntry : ((gdtEntry base limit access gran).extractLsb' 56 8 ++
    (gdtEntry base limit access gran).extractLsb' 16 24 : BitVec 32) = base := by
  apply BitVec.eq_of_getLsbD_eq
  intro i hi
  rw [getLsbD_base hi]
  interval_cases i <;> simp [gdtEntry]

theorem limit_gdtEntry : ((gdtEntry base limit access gran).extractLsb' 48 4 ++
    (gdtEntry base limit access gran).extractLsb' 0 16 : BitVec 20) = limit.setWidth 20 := by
  apply BitVec.eq_of_getLsbD_eq
  intro i hi
  rw [getLsbD_limit hi]
  interval_cases i <;> simp [gdtEntry]

theorem access_gdtEntry : (gdtEntry base limit access gran).extractLsb' 40 8 = access := by
  apply BitVec.eq_of_getLsbD_eq
  intro i hi
  interval_cases i <;> simp [gdtEntry]

theorem flags_gdtEntry :
    (gdtEntry base limit access gran).extractLsb' 52 4 = gran.extractLsb' 4 4 := by
  apply BitVec.eq_of_getLsbD_eq
  intro i hi
  interval_cases i <;> simp [gdtEntry]

/-- The processor reads the segment that was written. -/
theorem ofEntry_gdtEntry : Segment.ofEntry (gdtEntry base limit access gran) =
    ⟨base.setWidth 64, limit.setWidth 20, access, gran.extractLsb' 4 4⟩ := by
  rw [Segment.ofEntry, base_gdtEntry, limit_gdtEntry, access_gdtEntry, flags_gdtEntry]

/-- Where the bits of the first word of a system segment come from. -/
theorem getLsbD_lower (e : GdtSystemEntry) : e.lower.getLsbD i =
    if i < 16 then e.limitLow.getLsbD i
    else if i < 32 then e.baseLow.getLsbD (i - 16)
    else if i < 40 then e.baseMiddle.getLsbD (i - 32)
    else if i < 48 then e.access.getLsbD (i - 40)
    else if i < 56 then e.granularity.getLsbD (i - 48)
    else e.baseHigh.getLsbD (i - 56) := by
  simp only [GdtSystemEntry.lower, BitVec.getLsbD_append]
  split_ifs <;> first | rfl | omega

theorem upper_extract (e : GdtSystemEntry) : e.upper.extractLsb' 0 32 = e.baseUpper := by
  apply BitVec.eq_of_getLsbD_eq
  intro i hi
  rw [BitVec.getLsbD_extractLsb', GdtSystemEntry.upper, BitVec.getLsbD_append, Nat.zero_add,
    if_pos hi, decide_eq_true hi, Bool.true_and]

theorem limit_lower (e : GdtSystemEntry) :
    (e.lower.extractLsb' 48 4 ++ e.lower.extractLsb' 0 16 : BitVec 20) =
      e.granularity.setWidth 4 ++ e.limitLow := by
  apply BitVec.eq_of_getLsbD_eq
  intro i hi
  rw [getLsbD_limit hi, getLsbD_lower, BitVec.getLsbD_append]
  interval_cases i <;> simp

theorem access_lower (e : GdtSystemEntry) : e.lower.extractLsb' 40 8 = e.access := by
  apply BitVec.eq_of_getLsbD_eq
  intro i hi
  rw [BitVec.getLsbD_extractLsb', getLsbD_lower]
  interval_cases i <;> simp

theorem flags_lower (e : GdtSystemEntry) :
    e.lower.extractLsb' 52 4 = e.granularity.extractLsb' 4 4 := by
  apply BitVec.eq_of_getLsbD_eq
  intro i hi
  rw [BitVec.getLsbD_extractLsb', getLsbD_lower]
  interval_cases i <;> simp

/-- The lower half of the address of the TSS. -/
theorem base_lower_tssEntry (tss : Word) : ((tssEntry tss).lower.extractLsb' 56 8 ++
    (tssEntry tss).lower.extractLsb' 16 24 : BitVec 32) = tss.setWidth 32 := by
  apply BitVec.eq_of_getLsbD_eq
  intro i hi
  rw [getLsbD_base hi, getLsbD_lower]
  interval_cases i <;> simp [tssEntry]

theorem base_tssEntry (tss : Word) :
    ((tssEntry tss).baseUpper ++ tss.setWidth 32 : Word) = tss := by
  apply BitVec.eq_of_getLsbD_eq
  intro i hi
  rw [BitVec.getLsbD_append]
  by_cases hlow : i < 32
  · simp [hlow]
  · rw [if_neg hlow]
    obtain ⟨j, rfl⟩ : ∃ j, i = j + 32 := ⟨i - 32, by omega⟩
    have hj : j < 32 := by omega
    rw [Nat.add_sub_cancel]
    interval_cases j <;> simp [tssEntry]

/-- The processor finds the TSS where it is. -/
theorem ofSystem_tssEntry (tss : Word) :
    Segment.ofSystem (tssEntry tss).lower (tssEntry tss).upper = ⟨tss, 104, 0x89, 0⟩ := by
  rw [Segment.ofSystem, Segment.ofEntry, upper_extract, base_lower_tssEntry, base_tssEntry,
    limit_lower, access_lower, flags_lower, Segment.mk.injEq]
  refine ⟨rfl, ?_, rfl, ?_⟩ <;> simp [tssEntry, tssSize]

/-- The processor reads the segments that the kernel means: an entry has the base, the limit, the
rights and the flags it was given, and the TSS is found at its address. No other entry changes. -/
theorem segments_spec (gdt : Gdt) :
    (∀ index base limit access gran,
      let gdt' := gdtSetEntry gdt index base limit access gran
      Segment.ofEntry (gdt' index) =
          ⟨base.setWidth 64, limit.setWidth 20, access, gran.extractLsb' 4 4⟩ ∧
        ∀ j ≠ index, gdt' j = gdt j) ∧
    ∀ tss, let gdt' := gdtSetTss (gdtInit gdt) tss
      Segment.ofSystem (gdt' 5) (gdt' 6) = ⟨tss, 104, 0x89, 0⟩ ∧
        [1, 2, 3, 4].map (fun j => (Segment.ofEntry (gdt' j)).access) = [0x9A, 0x92, 0xFA, 0xF2] ∧
        ∀ j, j ≠ 5 → j ≠ 6 → gdt' j = gdtInit gdt j := by
  refine ⟨fun index base limit access gran => ⟨?_, fun j hj => Function.update_of_ne hj _ _⟩,
    fun tss => ⟨?_, ?_, fun j hlower hupper => ?_⟩⟩
  · rw [gdtSetEntry, Function.update_self, ofEntry_gdtEntry]
  · have hlower : gdtSetTss (gdtInit gdt) tss 5 = (tssEntry tss).lower := rfl
    have hupper : gdtSetTss (gdtInit gdt) tss 6 = (tssEntry tss).upper := rfl
    rw [hlower, hupper, ofSystem_tssEntry]
  · have hentry : [1, 2, 3, 4].map (gdtSetTss (gdtInit gdt) tss) =
        [(0x9A, 0xA0), (0x92, 0x80), (0xFA, 0xA0), (0xF2, 0x80)].map
          fun e => gdtEntry 0 0xFFFFFFFF e.1 e.2 := rfl
    have haccess := congrArg (List.map fun d => (Segment.ofEntry d).access) hentry
    simp only [List.map_map, Function.comp_def, ofEntry_gdtEntry] at haccess
    exact haccess
  · rw [gdtSetTss, Function.update_of_ne hupper, Function.update_of_ne hlower]

end Segments

/-! ### Gates -/

/-- The stubs of `isr_stubs.asm`. -/
inductive Stub
  | isr (n : Fin 32)
  | irq (n : Fin 16)
  | isr128
  deriving DecidableEq

/-- The number that a stub pushes, `regs->int_no`. -/
def Stub.number : Stub → ℕ
  | isr n => n
  | irq n => 32 + n
  | isr128 => 128

/-- `struct idt_entry_struct` -/
structure IdtEntry where
  baseLow : BitVec 16
  selector : BitVec 16
  ist : BitVec 8
  flags : BitVec 8
  baseMid : BitVec 16
  baseHigh : BitVec 32
  reserved : BitVec 32

/-- The table of the gates. -/
abbrev Idt := BitVec 8 → IdtEntry

/-- What `idt_set_gate` writes. -/
def idtGate (base : Word) (sel : BitVec 16) (flags : BitVec 8) : IdtEntry where
  baseLow := (base &&& 0xFFFF#64).setWidth 16
  baseMid := ((base >>> 16) &&& 0xFFFF#64).setWidth 16
  baseHigh := ((base >>> 32) &&& 0xFFFFFFFF#64).setWidth 32
  selector := sel
  ist := 0
  flags := flags
  reserved := 0

/-- `idt_set_gate` -/
def idtSetGate (idt : Idt) (num : BitVec 8) (base : Word) (sel : BitVec 16) (flags : BitVec 8) : Idt :=
  Function.update idt num (idtGate base sel flags)

/-- The stubs, each with the number of its gate and with the flags, in the order of `idt_init`. -/
def gates : List (BitVec 8 × Stub × BitVec 8) :=
  (List.finRange 32).map (fun n : Fin 32 => (BitVec.ofNat 8 n, .isr n, 0x8E)) ++
    (List.finRange 16).map (fun n : Fin 16 => (BitVec.ofNat 8 (32 + n), .irq n, 0x8E)) ++
    [(128, .isr128, 0xEE)]

/-- The table that `idt_init` writes, for stubs at the given addresses. -/
def idtInit (address : Stub → Word) : Idt :=
  gates.foldl (fun idt g => idtSetGate idt g.1 (address g.2.1) 0x08 g.2.2) fun _ => idtGate 0 0 0

/-- Where and how the processor goes on after an interrupt. -/
structure Target where
  offset : Word
  selector : BitVec 16
  ist : BitVec 3
  type : BitVec 4
  dpl : BitVec 2
  deriving DecidableEq

/-- What the processor reads in a gate that is present. -/
def IdtEntry.target (e : IdtEntry) : Option Target :=
  if e.flags.getLsbD 7 then
    some {
      offset := e.baseHigh ++ e.baseMid ++ e.baseLow
      selector := e.selector
      ist := e.ist.extractLsb' 0 3
      type := e.flags.extractLsb' 0 4
      dpl := e.flags.extractLsb' 5 2 }
  else none

section Gates

variable {address : Stub → Word} {base : Word} {sel : BitVec 16} {flags : BitVec 8} {i : ℕ}

/-- The processor puts the address together again. -/
theorem offset_idtGate : ((idtGate base sel flags).baseHigh ++ (idtGate base sel flags).baseMid ++
    (idtGate base sel flags).baseLow : Word) = base := by
  apply BitVec.eq_of_getLsbD_eq
  intro i hi
  rw [BitVec.getLsbD_append, BitVec.getLsbD_append]
  interval_cases i <;> simp [idtGate]

theorem target_idtGate : (idtGate base sel flags).target =
    if flags.getLsbD 7 then
      some ⟨base, sel, 0, flags.extractLsb' 0 4, flags.extractLsb' 5 2⟩
    else none := by
  rw [IdtEntry.target, offset_idtGate]
  rfl

variable (address) in
/-- Gates that are set one after the other. -/
theorem foldl_idtSetGate (l : List (BitVec 8 × Stub × BitVec 8)) (idt : Idt)
    (hl : (l.map Prod.fst).Nodup) (v : BitVec 8) :
    (∀ g ∈ l, g.1 = v →
      l.foldl (fun idt g => idtSetGate idt g.1 (address g.2.1) 0x08 g.2.2) idt v =
        idtGate (address g.2.1) 0x08 g.2.2) ∧
    (v ∉ l.map Prod.fst →
      l.foldl (fun idt g => idtSetGate idt g.1 (address g.2.1) 0x08 g.2.2) idt v = idt v) := by
  induction l generalizing idt with
  | nil => exact ⟨by simp, fun _ => rfl⟩
  | cons g l ih =>
    rw [List.map_cons, List.nodup_cons] at hl
    obtain ⟨hin, hout⟩ := ih (idtSetGate idt g.1 (address g.2.1) 0x08 g.2.2) hl.2
    refine ⟨fun g' hg' hv => ?_, fun hv => ?_⟩
    · obtain rfl | hg' := List.mem_cons.mp hg'
      · subst hv
        rw [List.foldl_cons, hout hl.1]
        exact Function.update_self _ _ _
      · exact hin g' hg' hv
    · rw [List.map_cons, List.mem_cons, not_or] at hv
      rw [List.foldl_cons, hout hv.2]
      exact Function.update_of_ne hv.1 _ _

theorem nodup_gates : (gates.map Prod.fst).Nodup := by decide +kernel

/-- The flags of the gate of a stub. -/
def Stub.gateFlags : Stub → BitVec 8
  | isr _ => 0x8E
  | irq _ => 0x8E
  | isr128 => 0xEE

/-- Who may enter the kernel at a stub on its own account. -/
def Stub.dpl : Stub → BitVec 2
  | isr _ => 0
  | irq _ => 0
  | isr128 => 3

theorem mem_gates (stub : Stub) : (BitVec.ofNat 8 stub.number, stub, stub.gateFlags) ∈ gates := by
  cases stub with
  | isr n => simp [gates, Stub.number, Stub.gateFlags]
  | irq n => simp [gates, Stub.number, Stub.gateFlags]
  | isr128 => simp [gates, Stub.number, Stub.gateFlags]

theorem exists_of_mem_gates {g : BitVec 8 × Stub × BitVec 8} (hg : g ∈ gates) :
    g.1.toNat = g.2.1.number ∧ g.2.2 = g.2.1.gateFlags := by
  revert g
  decide +kernel

/-- What the flags of a gate say. -/
theorem gateFlags_spec (stub : Stub) : stub.gateFlags.getLsbD 7 = true ∧
    stub.gateFlags.extractLsb' 0 4 = 0xE ∧ stub.gateFlags.extractLsb' 5 2 = stub.dpl := by
  cases stub <;> simp [Stub.gateFlags, Stub.dpl]

theorem dpl_eq_three (stub : Stub) : stub.dpl = 3 ↔ stub.number = 128 := by
  cases stub with
  | isr n => simp [Stub.dpl, Stub.number, show n.val ≠ 128 by omega]
  | irq n => simp [Stub.dpl, Stub.number, show 32 + n.val ≠ 128 by omega]
  | isr128 => simp [Stub.dpl, Stub.number]

/-- Each interrupt that has a stub enters the kernel there, with interrupts disabled, and no other
interrupt does. User code can do it by number 128 only. -/
theorem idtInit_spec (address : Stub → Word) :
    (∀ stub, (idtInit address (BitVec.ofNat 8 stub.number)).target =
      some ⟨address stub, 0x08, 0, 0xE, stub.dpl⟩) ∧
    ∀ v t, (idtInit address v).target = some t →
      (∃ stub, v.toNat = stub.number ∧ t.offset = address stub) ∧ (t.dpl = 3 ↔ v = 128) := by
  have hlookup := foldl_idtSetGate address gates (fun _ => idtGate 0 0 0) nodup_gates
  refine ⟨fun stub => ?_, fun v t ht => ?_⟩
  · have hgate : idtInit address (BitVec.ofNat 8 stub.number) = _ :=
      (hlookup _).1 _ (mem_gates stub) rfl
    obtain ⟨hpresent, htype, hdpl⟩ := gateFlags_spec stub
    rw [hgate, target_idtGate, if_pos hpresent, htype, hdpl]
  · by_cases hv : v ∈ gates.map Prod.fst
    · obtain ⟨g, hg, rfl⟩ := List.mem_map.mp hv
      obtain ⟨hnumber, hflags⟩ := exists_of_mem_gates hg
      have hgate : idtInit address g.1 = _ := (hlookup _).1 g hg rfl
      obtain ⟨hpresent, -, hdpl⟩ := gateFlags_spec g.2.1
      rw [hgate, target_idtGate, hflags, if_pos hpresent, hdpl] at ht
      obtain rfl := Option.some.inj ht
      refine ⟨⟨g.2.1, hnumber, rfl⟩, ?_⟩
      rw [dpl_eq_three, ← hnumber, ← BitVec.toNat_inj]
      rfl
    · have hgate : idtInit address v = _ := (hlookup v).2 hv
      rw [hgate, target_idtGate] at ht
      cases ht

end Gates

end KyroOS.Interrupts

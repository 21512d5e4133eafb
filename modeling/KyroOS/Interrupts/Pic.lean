import KyroOS.Basic
import KyroOS.Lib.NestedService

/-!
# The interrupt controllers

Two controllers with eight lines each; the second one is connected to line 2 of the first. A
controller passes on the first of its requests, as long as it comes before all that are in service. A
request stays in service until the processor says that its interrupt has ended, without saying which
one it means.

## Main definitions

* `Pic`, `Pics` — a controller, and the two of them at their ports
* `picRemap` — how the kernel sets them up
* `Pics.acknowledge` — the processor takes an interrupt

## Main results

* `picRemap_spec` — the controllers afterwards
* `acknowledge_spec` — the number of the interrupt, and what goes into service
-/

namespace KyroOS.Interrupts

open NestedService

/-- A controller has eight lines. -/
local instance neZero_lines : NeZero 8 := ⟨by decide⟩

/-- There are sixteen lines. -/
local instance neZero_irqs : NeZero 16 := ⟨by decide⟩

/-- What a controller takes the next byte at its data port for. -/
inductive Awaits
  | icw2
  | icw3
  | icw4
  | ready
  deriving DecidableEq

/-- A controller. -/
structure Pic where
  awaits : Awaits
  /-- The number of the interrupt of line 0. -/
  base : BitVec 8
  mask : BitVec 8
  requests : Finset (Fin 8)
  inService : Finset (Fin 8)

namespace Pic

variable (p : Pic)

/-- A byte at the command port: the start of the initialization, or the end of an interrupt. The
kernel does not use the other commands. -/
def command (val : BitVec 8) : Pic :=
  if val = 0x11 then { p with awaits := .icw2, mask := 0, requests := ∅, inService := ∅ }
  else if val = 0x20 then { p with inService := finish p.inService }
  else p

/-- A byte at the data port. -/
def data (val : BitVec 8) : Pic :=
  match p.awaits with
  | .icw2 => { p with awaits := .icw3, base := val &&& 0xF8 }
  | .icw3 => { p with awaits := .icw4 }
  | .icw4 => { p with awaits := .ready }
  | .ready => { p with mask := val }

/-- A request that is passed on. -/
def Eligible (i : Fin 8) : Prop :=
  i ∈ p.requests ∧ p.mask.getLsbD i = false ∧ Open p.inService i

instance (i : Fin 8) : Decidable (p.Eligible i) := inferInstanceAs (Decidable (_ ∧ _ ∧ _))

/-- The first request that is passed on. -/
def first : Option (Fin 8) := (List.finRange 8).find? fun i => p.Eligible i

/-- A request goes into service. -/
def accept (i : Fin 8) : Pic :=
  { p with requests := p.requests.erase i, inService := serve p.inService i }

end Pic

/-- The two controllers. -/
structure Pics where
  master : Pic
  slave : Pic

namespace Pics

variable (p : Pics)

/-- `outb`, at the ports of the controllers. -/
def outb (port val : BitVec 8) : Pics :=
  if port = 0x20 then { p with master := p.master.command val }
  else if port = 0x21 then { p with master := p.master.data val }
  else if port = 0xA0 then { p with slave := p.slave.command val }
  else if port = 0xA1 then { p with slave := p.slave.data val }
  else p

/-- A device requests an interrupt. Line 2 is that of the second controller. -/
def raise (irq : Fin 16) : Pics :=
  if irq = 2 then p
  else if h : irq.val < 8 then
    { p with master := { p.master with requests := insert ⟨irq, h⟩ p.master.requests } }
  else
    { p with slave := { p.slave with requests := insert (Fin.ofNat 8 (irq - 8)) p.slave.requests } }

/-- The first controller, with the request of the second one. -/
def cascaded : Pic :=
  if p.slave.first = none then p.master
  else { p.master with requests := insert 2 p.master.requests }

/-- The processor takes an interrupt: its number, and the controllers afterwards. -/
def acknowledge : Option (Pics × BitVec 8) :=
  match p.cascaded.first, p.slave.first with
  | none, _ => none
  | some i, some j =>
    if i = 2 then
      some ({ master := p.cascaded.accept 2, slave := p.slave.accept j },
        p.slave.base + BitVec.ofNat 8 j)
    else some ({ p with master := p.master.accept i }, p.master.base + BitVec.ofNat 8 i)
  | some i, none =>
    if i = 2 then some ({ p with master := p.master.accept 2 }, p.slave.base + 7)
    else some ({ p with master := p.master.accept i }, p.master.base + BitVec.ofNat 8 i)

/-- The request has gone before the processor takes the interrupt; then the number is that of the
last line, and nothing goes into service. -/
def spuriousMaster : Pics × BitVec 8 := (p, p.master.base + 7)

/-- The request has gone from the second controller, and the first one does not know. -/
def spuriousSlave : Option (Pics × BitVec 8) :=
  if p.master.mask.getLsbD 2 = false ∧ Open p.master.inService 2 then
    some ({ p with master := p.master.accept 2 }, p.slave.base + 7)
  else none

end Pics

/-- `pic_remap` -/
def picRemap (p : Pics) : Pics :=
  let p := p.outb 0x20 0x11
  let p := p.outb 0xA0 0x11
  let p := p.outb 0x21 0x20
  let p := p.outb 0xA1 0x28
  let p := p.outb 0x21 0x04
  let p := p.outb 0xA1 0x02
  let p := p.outb 0x21 0x01
  let p := p.outb 0xA1 0x01
  let p := p.outb 0x21 0x0
  p.outb 0xA1 0x0

/-- The controllers after `pic_remap`, whatever they were before. -/
theorem picRemap_spec (p : Pics) : picRemap p =
    { master := ⟨.ready, 0x20, 0, ∅, ∅⟩, slave := ⟨.ready, 0x28, 0, ∅, ∅⟩ } := rfl

/-- The controllers are set up, and no device is at line 2. -/
structure Pics.Ready (p : Pics) : Prop where
  masterAwaits : p.master.awaits = .ready
  slaveAwaits : p.slave.awaits = .ready
  masterBase : p.master.base = 0x20
  slaveBase : p.slave.base = 0x28
  masterMask : p.master.mask = 0
  slaveMask : p.slave.mask = 0
  cascade : 2 ∉ p.master.requests

/-- The line of the first controller that an interrupt is requested at. -/
def level (irq : Fin 16) : Fin 8 := if irq.val < 8 then Fin.ofNat 8 irq else 2

section Acknowledge

variable {p q : Pics} {pic : Pic} {v : BitVec 8} {i j : Fin 8} {irq : Fin 16}

theorem eligible_of_first (h : pic.first = some i) : pic.Eligible i := by
  rw [Pic.first] at h
  have hi := List.find?_some h
  exact of_decide_eq_true hi

/-- Something is passed on if a request may be. -/
theorem first_ne_none (h : pic.Eligible i) : pic.first ≠ none := by
  intro hnone
  have hall := List.find?_eq_none.mp hnone i (List.mem_finRange i)
  exact hall (decide_eq_true h)

theorem ready_picRemap (p : Pics) : (picRemap p).Ready := by
  rw [picRemap_spec]
  exact ⟨rfl, rfl, rfl, rfl, rfl, rfl, by simp⟩

theorem Pics.Ready.raise (hp : p.Ready) (irq : Fin 16) :
    (p.raise irq).Ready ∧ (p.raise irq).master.inService = p.master.inService ∧
      (p.raise irq).slave.inService = p.slave.inService := by
  rw [Pics.raise]
  by_cases h2 : irq = 2
  · rw [if_pos h2]
    exact ⟨hp, rfl, rfl⟩
  · rw [if_neg h2]
    split
    · next h8 =>
      have hcascade : (2 : Fin 8) ∉ insert ⟨irq, h8⟩ p.master.requests := by
        rw [Finset.mem_insert, not_or]
        refine ⟨fun h => h2 (Fin.ext ?_), hp.cascade⟩
        exact (congrArg Fin.val h).symm
      exact ⟨{ hp with cascade := hcascade }, rfl, rfl⟩
    · exact ⟨{ hp with }, rfl, rfl⟩

/-- What goes into service when an interrupt is taken. -/
structure Accepts (p : Pics) (irq : Fin 16) (q : Pics) : Prop where
  masterOpen : Open p.master.inService (level irq)
  master : q.master.inService = serve p.master.inService (level irq)
  slaveOpen : 8 ≤ irq.val → Open p.slave.inService (Fin.ofNat 8 (irq - 8))
  slave : 8 ≤ irq.val → q.slave.inService = serve p.slave.inService (Fin.ofNat 8 (irq - 8))
  alone : irq.val < 8 → q.slave.inService = p.slave.inService

theorem inService_cascaded (p : Pics) : p.cascaded.inService = p.master.inService := by
  rw [Pics.cascaded]
  split <;> rfl

theorem level_lower (i : Fin 8) : level (Fin.ofNat 16 i) = i := by
  revert i
  decide

theorem level_upper (j : Fin 8) : level (Fin.ofNat 16 (8 + j)) = 2 := by
  revert j
  decide

theorem val_lower (i : Fin 8) : (Fin.ofNat 16 i).val = i := by
  revert i
  decide

theorem val_upper (j : Fin 8) :
    (Fin.ofNat 16 (8 + j)).val = 8 + j ∧ Fin.ofNat 8 ((Fin.ofNat 16 (8 + j)).val - 8) = j := by
  revert j
  decide

theorem number_line (i : Fin 8) : ((0x20 : BitVec 8) + BitVec.ofNat 8 i).toNat = 32 + i.val ∧
    ((0x28 : BitVec 8) + BitVec.ofNat 8 i).toNat = 32 + 8 + i.val := by
  revert i
  decide

/-- The first controller takes one of its own interrupts. -/
theorem accepts_master (hp : p.Ready) (hi : Open p.master.inService i) :
    let q : Pics := { p with master := p.master.accept i }
    Accepts p (Fin.ofNat 16 i) q ∧ q.Ready ∧
      (p.master.base + BitVec.ofNat 8 i).toNat = 32 + (Fin.ofNat 16 i).val := by
  have hlow : ¬ 8 ≤ (Fin.ofNat 16 i).val := by
    rw [val_lower]
    omega
  refine ⟨?_, ?_, ?_⟩
  · exact {
      masterOpen := by rw [level_lower]; exact hi
      master := by rw [level_lower]; rfl
      slaveOpen := fun h => absurd h hlow
      slave := fun h => absurd h hlow
      alone := fun _ => rfl }
  · exact { hp with cascade := fun h => hp.cascade (Finset.mem_of_mem_erase h) }
  · rw [hp.masterBase, val_lower]
    exact (number_line i).1

/-- The second controller takes an interrupt. -/
theorem accepts_slave (hp : p.Ready) (hi : Open p.master.inService 2)
    (hj : Open p.slave.inService j) :
    let q : Pics := { master := p.cascaded.accept 2, slave := p.slave.accept j }
    Accepts p (Fin.ofNat 16 (8 + j)) q ∧ q.Ready ∧
      (p.slave.base + BitVec.ofNat 8 j).toNat = 32 + (Fin.ofNat 16 (8 + j)).val := by
  obtain ⟨hval, hback⟩ := val_upper j
  refine ⟨?_, ?_, ?_⟩
  · exact {
      masterOpen := by rw [level_upper]; exact hi
      master := (congrArg (serve · 2) (inService_cascaded p)).trans (by rw [level_upper])
      slaveOpen := fun _ => by rw [hback]; exact hj
      slave := fun _ => by rw [hback]; rfl
      alone := fun h => by omega }
  · have hother : p.cascaded.awaits = .ready ∧ p.cascaded.base = 0x20 ∧ p.cascaded.mask = 0 := by
      rw [Pics.cascaded]
      split <;> exact ⟨hp.masterAwaits, hp.masterBase, hp.masterMask⟩
    exact { hp with
      masterAwaits := hother.1
      masterBase := hother.2.1
      masterMask := hother.2.2
      cascade := Finset.notMem_erase 2 _ }
  · rw [hp.slaveBase, hval, ← Nat.add_assoc]
    exact (number_line j).2

/-- An interrupt that the processor takes is one of a device, and goes into service. -/
theorem acknowledge_spec (hp : p.Ready) (h : p.acknowledge = some (q, v)) :
    ∃ irq : Fin 16, v.toNat = 32 + irq ∧ Accepts p irq q ∧ q.Ready := by
  rw [Pics.acknowledge] at h
  cases hfirst : p.cascaded.first with
  | none =>
    rw [hfirst] at h
    cases h
  | some i =>
    obtain ⟨hrequest, -, hopen⟩ := eligible_of_first hfirst
    rw [inService_cascaded] at hopen
    rw [hfirst] at h
    cases hslave : p.slave.first with
    | none =>
      have hne : i ≠ 2 := by
        rintro rfl
        rw [Pics.cascaded, if_pos hslave] at hrequest
        exact hp.cascade hrequest
      rw [hslave] at h
      dsimp only at h
      rw [if_neg hne] at h
      cases h
      obtain ⟨haccepts, hready, hnumber⟩ := accepts_master hp hopen
      exact ⟨_, hnumber, haccepts, hready⟩
    | some j =>
      rw [hslave] at h
      dsimp only at h
      by_cases hi : i = 2
      · subst hi
        rw [if_pos rfl] at h
        cases h
        obtain ⟨haccepts, hready, hnumber⟩ :=
          accepts_slave hp hopen (eligible_of_first hslave).2.2
        exact ⟨_, hnumber, haccepts, hready⟩
      · rw [if_neg hi] at h
        cases h
        obtain ⟨haccepts, hready, hnumber⟩ := accepts_master hp hopen
        exact ⟨_, hnumber, haccepts, hready⟩

/-- The processor takes an interrupt if the first controller passes one on. -/
theorem acknowledge_ne_none (h : p.cascaded.first ≠ none) : p.acknowledge ≠ none := by
  rw [Pics.acknowledge]
  cases hfirst : p.cascaded.first with
  | none => exact absurd hfirst h
  | some i =>
    cases p.slave.first with
    | none =>
      dsimp only
      split <;> exact Option.some_ne_none _
    | some j =>
      dsimp only
      split <;> exact Option.some_ne_none _

/-- When nothing is in service, a request is passed on at once. -/
theorem acknowledge_raise (hp : p.Ready) (hmaster : p.master.inService = ∅)
    (hslave : p.slave.inService = ∅) (hirq : irq ≠ 2) : (p.raise irq).acknowledge ≠ none := by
  apply acknowledge_ne_none
  obtain ⟨hready, hmaster', hslave'⟩ := hp.raise irq
  rw [hmaster] at hmaster'
  rw [hslave] at hslave'
  have hmask : ∀ i : Fin 8, (0 : BitVec 8).getLsbD i = false := by decide
  have hcascaded : ∀ i, (i ∈ (p.raise irq).cascaded.requests) →
      (p.raise irq).cascaded.first ≠ none := by
    intro i hi
    refine first_ne_none (i := i) ⟨hi, ?_, ?_⟩
    · have hsame : (p.raise irq).cascaded.mask = (p.raise irq).master.mask := by
        rw [Pics.cascaded]
        split <;> rfl
      rw [hsame, hready.masterMask]
      exact hmask i
    · rw [inService_cascaded, hmaster']
      exact open_empty i
  by_cases h8 : irq.val < 8
  · apply hcascaded ⟨irq, h8⟩
    have hin : (⟨irq, h8⟩ : Fin 8) ∈ (p.raise irq).master.requests := by
      rw [Pics.raise, if_neg hirq, dif_pos h8]
      exact Finset.mem_insert_self _ _
    rw [Pics.cascaded]
    split
    · exact hin
    · exact Finset.mem_insert_of_mem hin
  · apply hcascaded 2
    have hfirst : (p.raise irq).slave.first ≠ none := by
      refine first_ne_none (i := Fin.ofNat 8 (irq - 8)) ⟨?_, ?_, ?_⟩
      · rw [Pics.raise, if_neg hirq, dif_neg h8]
        exact Finset.mem_insert_self _ _
      · rw [hready.slaveMask]
        exact hmask _
      · rw [hslave']
        exact open_empty _
    rw [Pics.cascaded, if_neg hfirst]
    exact Finset.mem_insert_self _ _

end Acknowledge

end KyroOS.Interrupts

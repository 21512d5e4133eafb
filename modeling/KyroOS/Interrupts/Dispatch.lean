import KyroOS.Interrupts.Pic
import KyroOS.Lib.Transition

/-!
# Interrupts in progress

A handler may enable interrupts before it has told the controllers that its interrupt has ended, and
the timer may switch to another thread then. So several calls of `isr_handler` are in progress at
once, and they go on in any order.

## Main definitions

* `isrHandler` — what `isr_handler` does
* `State`, `exec` — the calls in progress, and what they do to the controllers
* `Accounted` — what the controllers and the calls have to do with each other

## Main results

* `interrupts_accounted` — no interrupt is lost, and none stays in service
* `interrupts_nested` — calls that end in the opposite order of their beginning
-/

namespace KyroOS.Interrupts

open NestedService Transition

attribute [local instance] neZero_lines neZero_irqs

/-- What `isr_handler` does, one after the other. -/
inductive Action
  | tick
  | handle (irq : Fin 16)
  | outb (port val : BitVec 8)
  | schedule
  | panic (number : ℕ)
  | syscall
  deriving DecidableEq

theorem irq_lt {n : ℕ} (h : 32 ≤ n ∧ n ≤ 47) : n - 32 < 16 := by omega

/-- `isr_handler` -/
def isrHandler (intNo : ℕ) : List Action :=
  if intNo < 32 then [.panic intNo]
  else if h : 32 ≤ intNo ∧ intNo ≤ 47 then
    let irqNum : Fin 16 := ⟨intNo - 32, irq_lt h⟩
    (if irqNum = 0 then [.tick] else []) ++ [.handle irqNum] ++
      (if 8 ≤ irqNum.val then [.outb 0xA0 0x20] else []) ++ [.outb 0x20 0x20] ++
      (if irqNum = 0 then [.schedule] else [])
  else if intNo = 128 then [.syscall]
  else []

/-- A call of `isr_handler` in progress: its interrupt, and what it has still to do. -/
structure Call where
  intNo : ℕ
  rest : List Action

/-- The controllers, the calls in progress with the latest first, and what has become of the
interrupts. -/
structure State (H : Type) where
  pics : Pics
  irqHandlers : Fin 16 → Option H
  ticks : Word
  calls : List Call
  /-- The interrupts that the processor has taken. -/
  taken : List ℕ
  /-- The handlers that have been called. -/
  handled : List (Fin 16 × Option H)

/-- What happens next: a device requests an interrupt, the processor takes one, the request of one
has gone when it does, a call in progress goes on, or `register_irq_handler` is called. -/
inductive Label (H : Type)
  | raise (irq : Fin 16)
  | take
  | spuriousMaster
  | spuriousSlave
  | advance (i : ℕ)
  | register (irq : BitVec 8) (handler : Option H)

namespace State

variable {H : Type} (s : State H)

/-- The stub of the interrupt calls `isr_handler`. -/
def enter (pics : Pics) (number : BitVec 8) : State H :=
  { s with
    pics := pics
    calls := ⟨number.toNat, isrHandler number.toNat⟩ :: s.calls
    taken := number.toNat :: s.taken }

/-- A call in progress does the next thing. What a handler does is left open; it does not write to
the ports of the controllers. -/
def perform : Action → State H
  | .tick => { s with ticks := s.ticks + 1 }
  | .handle irq => { s with handled := (irq, s.irqHandlers irq) :: s.handled }
  | .outb port val => { s with pics := s.pics.outb port val }
  | _ => s

/-- `register_irq_handler` -/
def registerIrqHandler (irq : BitVec 8) (handler : Option H) : State H :=
  if irq.toNat < 16 then
    { s with irqHandlers := Function.update s.irqHandlers (Fin.ofNat 16 irq.toNat) handler }
  else s

/-- One step. -/
def exec : Label H → Option (State H)
  | .raise irq => some { s with pics := s.pics.raise irq }
  | .take =>
    match s.pics.acknowledge with
    | some (pics, number) => some (s.enter pics number)
    | none => none
  | .spuriousMaster => some (s.enter s.pics.spuriousMaster.1 s.pics.spuriousMaster.2)
  | .spuriousSlave =>
    match s.pics.spuriousSlave with
    | some (pics, number) => some (s.enter pics number)
    | none => none
  | .advance i =>
    match s.calls[i]? with
    | none => none
    | some ⟨_, []⟩ => some { s with calls := s.calls.eraseIdx i }
    | some ⟨intNo, a :: rest⟩ => some { s.perform a with calls := s.calls.set i ⟨intNo, rest⟩ }
  | .register irq handler => some (s.registerIrqHandler irq handler)

/-- How many of the calls in progress have still to do something. -/
def pending (a : Action) : ℕ := (s.calls.map fun c => c.rest.count a).sum

end State

/-- The kernel after `pic_remap`, without any call in progress. -/
def system (H : Type) : System (State H) (Label H) where
  init s := (∃ p, s.pics = picRemap p) ∧ s.ticks = 0 ∧ s.calls = [] ∧ s.taken = [] ∧ s.handled = []
  step s a t := s.exec a = some t

/-- The end of an interrupt, for the first and for the second controller. -/
def endMaster : Action := .outb 0x20 0x20

def endSlave : Action := .outb 0xA0 0x20

/-- A step without an interrupt whose request has gone. -/
def Genuine {H : Type} (_ : State H) : Label H → Prop
  | .spuriousMaster => False
  | .spuriousSlave => False
  | _ => True

/-- A step that goes on with the latest call, if it goes on with one. -/
def Innermost {H : Type} (_ : State H) : Label H → Prop
  | .spuriousMaster => False
  | .spuriousSlave => False
  | .advance i => i = 0
  | _ => True

instance {H : Type} (s : State H) (l : Label H) : Decidable (Innermost s l) :=
  match l with
  | .raise _ => isTrue trivial
  | .take => isTrue trivial
  | .spuriousMaster => isFalse id
  | .spuriousSlave => isFalse id
  | .advance i => inferInstanceAs (Decidable (i = 0))
  | .register _ _ => isTrue trivial

/-- The line of the first controller that a call is at. -/
def masterLevel (intNo : ℕ) : Fin 8 := level (Fin.ofNat 16 (intNo - 32))

/-- The line of the second controller. -/
def slaveLevel (intNo : ℕ) : Fin 8 := Fin.ofNat 8 (intNo - 40)

/-- The interrupts of the calls that have still to do something, the latest first. -/
def State.owing {H : Type} (s : State H) (a : Action) : List ℕ :=
  (s.calls.filter fun c => a ∈ c.rest).map Call.intNo

/-! ### What a call has to do -/

section Handler

variable {irq : Fin 16} {a : Action} {l : List Action}

theorem isrHandler_irq (irq : Fin 16) : isrHandler (32 + irq) =
    (if irq = 0 then [.tick] else []) ++ [.handle irq] ++
      (if 8 ≤ irq.val then [endSlave] else []) ++ [endMaster] ++
      (if irq = 0 then [.schedule] else []) := by
  have hback : (⟨32 + irq.val - 32, irq_lt (by omega)⟩ : Fin 16) = irq := Fin.ext (by simp)
  rw [isrHandler, if_neg (by omega), dif_pos (by omega), hback]
  rfl

/-- Everything that a call has to do, it has to do once. -/
theorem count_isrHandler (irq : Fin 16) :
    (isrHandler (32 + irq)).count endMaster = 1 ∧
    (isrHandler (32 + irq)).count endSlave = (if 8 ≤ irq.val then 1 else 0) ∧
    (isrHandler (32 + irq)).count .tick = (if irq = 0 then 1 else 0) ∧
    ∀ irq', (isrHandler (32 + irq)).count (.handle irq') = if irq = irq' then 1 else 0 := by
  rw [isrHandler_irq]
  refine ⟨?_, ?_, ?_, fun irq' => ?_⟩
  · split_ifs <;> simp [endMaster, endSlave]
  · split_ifs <;> simp [endMaster, endSlave]
  · split_ifs <;> simp [endMaster, endSlave]
  · simp only [List.count_append, List.count_singleton]
    split_ifs <;> simp_all [endMaster, endSlave]

theorem mem_isrHandler (h : a ∈ isrHandler (32 + irq)) :
    a = .tick ∨ a = .handle irq ∨ a = endSlave ∨ a = endMaster ∨ a = .schedule := by
  rw [isrHandler_irq] at h
  split_ifs at h <;> simp at h <;> tauto

end Handler

/-! ### What is pending -/

section Pending

variable {α : Type*} {l : List α} {x y : α} {i : ℕ} {H : Type} {s : State H} {a b : Action}
  {n : ℕ} {rest : List Action}

theorem sum_map_set (f : α → ℕ) (h : l[i]? = some x) :
    ((l.set i y).map f).sum + f x = (l.map f).sum + f y := by
  induction l generalizing i with
  | nil => cases h
  | cons z l ih =>
    cases i with
    | zero =>
      obtain rfl := Option.some.inj h
      simp only [List.set_cons_zero, List.map_cons, List.sum_cons]
      omega
    | succ i =>
      have htail := ih (i := i) h
      simp only [List.set_cons_succ, List.map_cons, List.sum_cons]
      omega

theorem sum_map_eraseIdx (f : α → ℕ) (h : l[i]? = some x) :
    ((l.eraseIdx i).map f).sum + f x = (l.map f).sum := by
  induction l generalizing i with
  | nil => cases h
  | cons z l ih =>
    cases i with
    | zero =>
      obtain rfl := Option.some.inj h
      simp only [List.eraseIdx_cons_zero, List.map_cons, List.sum_cons]
      omega
    | succ i =>
      have htail := ih (i := i) h
      simp only [List.eraseIdx_cons_succ, List.map_cons, List.sum_cons]
      omega

theorem pending_enter (p : Pics) (v : BitVec 8) :
    (s.enter p v).pending b = (isrHandler v.toNat).count b + s.pending b := by
  simp [State.pending, State.enter]

theorem calls_perform : (s.perform a).calls = s.calls := by cases a <;> rfl

/-- A call that goes on has one thing less to do. -/
theorem pending_advance (h : s.calls[i]? = some ⟨n, a :: rest⟩) :
    s.pending b = ({ s.perform a with calls := s.calls.set i ⟨n, rest⟩ } : State H).pending b +
      if a = b then 1 else 0 := by
  have hsum := sum_map_set (y := ⟨n, rest⟩) (fun c : Call => c.rest.count b) h
  simp only [List.count_cons, beq_iff_eq] at hsum
  rw [State.pending, State.pending]
  dsimp only
  omega

/-- A call that returns has nothing to do any more. -/
theorem pending_return (h : s.calls[i]? = some ⟨n, []⟩) :
    ({ s with calls := s.calls.eraseIdx i } : State H).pending b = s.pending b := by
  have hsum := sum_map_eraseIdx (fun c : Call => c.rest.count b) h
  rw [List.count_nil, Nat.add_zero] at hsum
  exact hsum

end Pending

/-! ### Accounting -/

/-- A relation between what is in service and what has still to be ended. -/
structure Kept (R : ℕ → ℕ → Prop) : Prop where
  zero : R 0 0
  up : ∀ {m n}, R m n → R (m + 1) (n + 1)
  down : ∀ {m n}, R m (n + 1) → R (m - 1) n

theorem kept_le : Kept (· ≤ ·) := ⟨Nat.le_refl 0, Nat.succ_le_succ, by omega⟩

theorem kept_eq : Kept (· = ·) := ⟨rfl, congrArg (· + 1), by omega⟩

/-- The controllers and the calls agree: each call is one of an interrupt of a device, what is in
service will be ended, and each interrupt that was taken has been handled or will be. -/
structure Accounted {H : Type} (R : ℕ → ℕ → Prop) (s : State H) : Prop where
  ready : s.pics.Ready
  programs : ∀ c ∈ s.calls, ∃ irq : Fin 16, c.intNo = 32 + irq ∧ c.rest <:+ isrHandler (32 + irq)
  master : R s.pics.master.inService.card (s.pending endMaster)
  slave : R s.pics.slave.inService.card (s.pending endSlave)
  handled : ∀ irq : Fin 16, s.taken.count (32 + irq.val) =
    (s.handled.map Prod.fst).count irq + s.pending (.handle irq)
  ticks : s.ticks + BitVec.ofNat 64 (s.pending .tick) = BitVec.ofNat 64 (s.taken.count 32)

section Accounting

variable {H : Type} {R : ℕ → ℕ → Prop} {s t : State H} {p : Pics} {v : BitVec 8} {irq : Fin 16}
  {a : Action} {n i : ℕ} {rest : List Action}

/-- An interrupt is taken, and what goes into service is accounted for. -/
theorem Accounted.enter (h : Accounted R s) (hready : p.Ready) (hv : v.toNat = 32 + irq)
    (hmaster : R p.master.inService.card (s.pending endMaster + 1))
    (hslave : R p.slave.inService.card (s.pending endSlave + if 8 ≤ irq.val then 1 else 0)) :
    Accounted R (s.enter p v) := by
  obtain ⟨hm, hs, htick, hhandle⟩ := count_isrHandler irq
  refine ⟨hready, fun c hc => ?_, ?_, ?_, fun irq' => ?_, ?_⟩
  · obtain rfl | hc := List.mem_cons.mp hc
    · exact ⟨irq, hv, by rw [hv]⟩
    · exact h.programs c hc
  · rw [pending_enter, hv, hm, Nat.add_comm]
    exact hmaster
  · rw [pending_enter, hv, hs, Nat.add_comm]
    exact hslave
  · have hold := h.handled irq'
    have hcount : (s.enter p v).taken.count (32 + irq'.val) =
        s.taken.count (32 + irq'.val) + if irq = irq' then 1 else 0 := by
      simp only [State.enter, hv, List.count_cons, beq_iff_eq, Nat.add_right_inj, Fin.val_inj]
    rw [pending_enter, hv, hhandle, hcount, hold]
    show _ = (s.handled.map Prod.fst).count irq' + _
    omega
  · have hold := h.ticks
    have hcount : (s.enter p v).taken.count 32 =
        s.taken.count 32 + if irq = 0 then 1 else 0 := by
      simp only [State.enter, hv, List.count_cons, beq_iff_eq, Nat.add_eq_left, Fin.val_eq_zero_iff]
    rw [pending_enter, hv, htick, hcount, Nat.add_comm, BitVec.ofNat_add, BitVec.ofNat_add, ← hold,
      BitVec.add_assoc]
    rfl

/-- The processor takes an interrupt of a device. -/
theorem Accounted.accepts (hR : Kept R) (h : Accounted R s) (haccepts : Accepts s.pics irq p)
    (hready : p.Ready) (hv : v.toNat = 32 + irq) : Accounted R (s.enter p v) := by
  refine h.enter hready hv ?_ ?_
  · rw [haccepts.master, card_serve haccepts.masterOpen]
    exact hR.up h.master
  · by_cases h8 : 8 ≤ irq.val
    · rw [haccepts.slave h8, card_serve (haccepts.slaveOpen h8), if_pos h8]
      exact hR.up h.slave
    · rw [haccepts.alone (by omega), if_neg h8]
      exact h.slave

/-- What a call does to the controllers. -/
theorem pics_perform (hready : s.pics.Ready) (ha : a ∈ isrHandler (32 + irq)) :
    (s.perform a).pics.Ready ∧
    (s.perform a).pics.master.inService =
      (if a = endMaster then finish s.pics.master.inService else s.pics.master.inService) ∧
    (s.perform a).pics.slave.inService =
      if a = endSlave then finish s.pics.slave.inService else s.pics.slave.inService := by
  obtain rfl | rfl | rfl | rfl | rfl := mem_isrHandler ha
  · exact ⟨hready, rfl, rfl⟩
  · exact ⟨hready, rfl, rfl⟩
  · exact ⟨{ hready with }, rfl, rfl⟩
  · exact ⟨{ hready with }, rfl, rfl⟩
  · exact ⟨hready, rfl, rfl⟩

/-- A controller after a call went on. -/
theorem Kept.perform (hR : Kept R) {S : Finset (Fin 8)} {b : Action} {k k' : ℕ} (h : R S.card k)
    (hk : k = k' + if a = b then 1 else 0) : R (if a = b then finish S else S).card k' := by
  subst hk
  split_ifs at h ⊢
  · rw [card_finish]
    exact hR.down h
  · exact h

theorem handled_perform (irq' : Fin 16) : ((s.perform a).handled.map Prod.fst).count irq' =
    (s.handled.map Prod.fst).count irq' + if a = .handle irq' then 1 else 0 := by
  cases a with
  | handle irq =>
    simp only [State.perform, List.map_cons, List.count_cons, beq_iff_eq, Action.handle.injEq]
  | _ => rfl

theorem ticks_perform : (s.perform a).ticks = s.ticks + if a = .tick then 1 else 0 := by
  cases a with
  | tick => rfl
  | _ => exact (BitVec.add_zero s.ticks).symm

theorem taken_perform : (s.perform a).taken = s.taken := by cases a <;> rfl

/-- A call in progress goes on. -/
theorem Accounted.advance (hR : Kept R) (h : Accounted R s)
    (hcall : s.calls[i]? = some ⟨n, a :: rest⟩) :
    Accounted R { s.perform a with calls := s.calls.set i ⟨n, rest⟩ } := by
  obtain ⟨irq, hirq, hsuffix⟩ := h.programs _ (List.mem_of_getElem? hcall)
  dsimp only at hirq hsuffix
  obtain ⟨hready, hmaster, hslave⟩ :=
    pics_perform h.ready (hsuffix.subset (List.mem_cons_self (a := a)))
  refine ⟨hready, fun c hc => ?_, ?_, ?_, fun irq' => ?_, ?_⟩
  · obtain hc | rfl := List.mem_or_eq_of_mem_set hc
    · exact h.programs c hc
    · exact ⟨irq, hirq, (List.suffix_cons a rest).trans hsuffix⟩
  · rw [hmaster]
    exact hR.perform h.master (pending_advance hcall)
  · rw [hslave]
    exact hR.perform h.slave (pending_advance hcall)
  · have hold := h.handled irq'
    rw [pending_advance hcall] at hold
    show (s.perform a).taken.count _ = ((s.perform a).handled.map Prod.fst).count irq' + _
    rw [taken_perform, handled_perform, hold]
    omega
  · have hold := h.ticks
    rw [pending_advance hcall, BitVec.ofNat_add] at hold
    show (s.perform a).ticks + _ = BitVec.ofNat 64 ((s.perform a).taken.count 32)
    rw [taken_perform, ticks_perform, ← hold, BitVec.add_assoc]
    congr 1
    rw [BitVec.add_comm]
    congr 1
    split_ifs <;> rfl

theorem spuriousSlave_spec {q : Pics} (hready : p.Ready) (h : p.spuriousSlave = some (q, v)) :
    v.toNat = 32 + (15 : Fin 16).val ∧ q.Ready ∧ Open p.master.inService 2 ∧
      q.master.inService = serve p.master.inService 2 ∧ q.slave = p.slave := by
  rw [Pics.spuriousSlave] at h
  split_ifs at h with hopen
  cases h
  refine ⟨?_, { hready with cascade := Finset.notMem_erase 2 _ }, hopen.2, rfl, rfl⟩
  rw [hready.slaveBase]
  rfl

/-- Every step keeps the account. -/
theorem Accounted.step {l : Label H} (hR : Kept R) (h : Accounted R s)
    (hskip : Genuine s l ∨ ∀ {m n}, R m n → R m (n + 1)) (hstep : s.exec l = some t) :
    Accounted R t := by
  cases l with
  | raise irq =>
    obtain rfl := Option.some.inj hstep
    obtain ⟨hready, hmaster, hslave⟩ := h.ready.raise irq
    refine ⟨hready, h.programs, ?_, ?_, h.handled, h.ticks⟩
    · rw [hmaster]
      exact h.master
    · rw [hslave]
      exact h.slave
  | take =>
    rw [State.exec] at hstep
    cases hpics : s.pics.acknowledge with
    | none =>
      rw [hpics] at hstep
      cases hstep
    | some r =>
      obtain ⟨p, v⟩ := r
      rw [hpics] at hstep
      obtain rfl := Option.some.inj hstep
      obtain ⟨irq, hv, haccepts, hready⟩ := acknowledge_spec h.ready hpics
      exact h.accepts hR haccepts hready hv
  | spuriousMaster =>
    obtain hgenuine | hskip := hskip
    · exact absurd hgenuine id
    · obtain rfl := Option.some.inj hstep
      have hv : (s.pics.master.base + 7).toNat = 32 + (7 : Fin 16).val := by
        rw [h.ready.masterBase]
        rfl
      exact h.enter h.ready hv (hskip h.master) h.slave
  | spuriousSlave =>
    obtain hgenuine | hskip := hskip
    · exact absurd hgenuine id
    · rw [State.exec] at hstep
      cases hpics : s.pics.spuriousSlave with
      | none =>
        rw [hpics] at hstep
        cases hstep
      | some r =>
        obtain ⟨p, v⟩ := r
        rw [hpics] at hstep
        obtain rfl := Option.some.inj hstep
        obtain ⟨hv, hready, hopen, hmaster, hslave⟩ := spuriousSlave_spec h.ready hpics
        refine h.enter hready hv ?_ ?_
        · rw [hmaster, card_serve hopen]
          exact hR.up h.master
        · rw [hslave]
          exact hskip h.slave
  | advance i =>
    rw [State.exec] at hstep
    cases hcall : s.calls[i]? with
    | none =>
      rw [hcall] at hstep
      cases hstep
    | some c =>
      obtain ⟨n, rest⟩ := c
      rw [hcall] at hstep
      cases rest with
      | nil =>
        obtain rfl := Option.some.inj hstep
        have hpending {b : Action} := pending_return (b := b) hcall
        refine ⟨h.ready, fun c hc => h.programs c (List.mem_of_mem_eraseIdx hc), ?_, ?_, fun irq => ?_, ?_⟩
        · rw [hpending]
          exact h.master
        · rw [hpending]
          exact h.slave
        · rw [hpending]
          exact h.handled irq
        · rw [hpending]
          exact h.ticks
      | cons a rest =>
        obtain rfl := Option.some.inj hstep
        exact h.advance hR hcall
  | register irq handler =>
    obtain rfl := Option.some.inj hstep
    rw [State.registerIrqHandler]
    split_ifs
    · exact { h with }
    · exact h

/-- The account at the start. -/
theorem accounted_init (hR : Kept R) (h : (system H).init s) : Accounted R s := by
  obtain ⟨⟨p, hpics⟩, hticks, hcalls, htaken, hhandled⟩ := h
  have hpending (b : Action) : s.pending b = 0 := by rw [State.pending, hcalls]; rfl
  refine ⟨hpics ▸ ready_picRemap p, ?_, ?_, ?_, fun irq => ?_, ?_⟩
  · rw [hcalls]
    intro c hc
    cases hc
  · rw [hpending, hpics, picRemap_spec]
    exact hR.zero
  · rw [hpending, hpics, picRemap_spec]
    exact hR.zero
  · rw [hpending, htaken, hhandled]
    rfl
  · rw [hpending, hticks, htaken]
    rfl

theorem reachable_accounted (hR : Kept R) {C : State H → Label H → Prop}
    (hskip : ∀ s l, C s l → Genuine s l ∨ ∀ {m n}, R m n → R m (n + 1))
    (h : (system H).ReachableUnder C s) : Accounted R s :=
  h.invariant (fun _ => accounted_init hR) fun s l _ hs hC hstep => hs.step hR (hskip s l hC) hstep

/-- Whatever interrupts are taken, and in whatever order the calls go on: at each controller no more
is in service than will be ended, and just as much unless a request has gone when its interrupt was
taken. Each interrupt that was taken has been handled or will be, once, and the timer counts its
interrupts. When no call is in progress, nothing is in service, and the next request is taken. -/
theorem interrupts_accounted (h : (system H).Reachable s) :
    s.pics.master.inService.card ≤ s.pending endMaster ∧
    s.pics.slave.inService.card ≤ s.pending endSlave ∧
    ((system H).ReachableUnder Genuine s →
      s.pics.master.inService.card = s.pending endMaster ∧
      s.pics.slave.inService.card = s.pending endSlave) ∧
    (∀ irq : Fin 16, s.taken.count (32 + irq.val) =
      (s.handled.map Prod.fst).count irq + s.pending (.handle irq)) ∧
    s.ticks + BitVec.ofNat 64 (s.pending .tick) = BitVec.ofNat 64 (s.taken.count 32) ∧
    (s.calls = [] → s.pics.master.inService = ∅ ∧ s.pics.slave.inService = ∅ ∧
      ∀ irq, irq ≠ 2 → (s.pics.raise irq).acknowledge ≠ none) := by
  have haccount : Accounted (· ≤ ·) s :=
    reachable_accounted kept_le (fun _ _ _ => .inr Nat.le_succ_of_le) h
  refine ⟨haccount.master, haccount.slave, fun hgenuine => ?_, haccount.handled, haccount.ticks,
    fun hcalls => ?_⟩
  · have hexact : Accounted (· = ·) s := reachable_accounted kept_eq (fun _ _ => .inl) hgenuine
    exact ⟨hexact.master, hexact.slave⟩
  · have hpending (b : Action) : s.pending b = 0 := by rw [State.pending, hcalls]; rfl
    have hmaster := haccount.master
    have hslave := haccount.slave
    rw [hpending, Nat.le_zero, Finset.card_eq_zero] at hmaster hslave
    exact ⟨hmaster, hslave, fun irq => acknowledge_raise haccount.ready hmaster hslave⟩

/-- The keyboard interrupts the mouse, and both come to their end. -/
theorem interrupts_accounted_mouse : ∃ s : State Unit,
    s.taken = [33, 44] ∧ s.pics.master.inService = ∅ ∧ s.pics.slave.inService = ∅ := by
  have hrun := System.exists_reachableUnder (S := system Unit) (C := fun _ _ => True)
    (s := ⟨picRemap ⟨⟨.ready, 0, 0, ∅, ∅⟩, ⟨.ready, 0, 0, ∅, ∅⟩⟩, fun _ => none, 0, [], [], []⟩)
    (P := fun s => s.taken = [33, 44] ∧ s.calls.length = 0)
    State.exec [.raise 12, .take, .raise 1, .take, .advance 1, .advance 0, .advance 0, .advance 0,
      .advance 0, .advance 0, .advance 0] (fun _ l _ h => ⟨l, trivial, h⟩)
    ⟨⟨_, rfl⟩, rfl, rfl, rfl, rfl⟩
    (by decide)
  obtain ⟨s, hs, htaken, hcalls⟩ := hrun
  obtain ⟨-, -, -, -, -, hidle⟩ := interrupts_accounted hs
  obtain ⟨hmaster, hslave, -⟩ := hidle (List.eq_nil_of_length_eq_zero hcalls)
  exact ⟨s, htaken, hmaster, hslave⟩

end Accounting

/-! ### Calls inside each other -/

section Nesting

variable {H : Type} {R : ℕ → ℕ → Prop} {s t : State H} {p : Pics} {v : BitVec 8} {irq : Fin 16}
  {a b : Action} {n : ℕ} {rest : List Action} {cs : List Call}

theorem owing_enter : (s.enter p v).owing b =
    if b ∈ isrHandler v.toNat then v.toNat :: s.owing b else s.owing b := by
  simp only [State.owing, State.enter, List.filter_cons]
  split_ifs <;> simp_all

/-- The latest call goes on. -/
theorem owing_advance (h : s.calls = ⟨n, a :: rest⟩ :: cs) (hcount : (a :: rest).count b ≤ 1) :
    s.owing b =
      if a = b then n :: ({ s.perform a with calls := s.calls.set 0 ⟨n, rest⟩ } : State H).owing b
      else ({ s.perform a with calls := s.calls.set 0 ⟨n, rest⟩ } : State H).owing b := by
  simp only [State.owing, h, List.set_cons_zero, List.filter_cons]
  by_cases hab : a = b
  · subst hab
    have hnot : a ∉ rest := by
      rw [List.count_cons_self] at hcount
      exact List.count_eq_zero.mp (by omega)
    simp [hnot]
  · by_cases hin : b ∈ rest
    · simp [hab, hin]
    · simp [hab, hin, Ne.symm hab]

/-- The latest call returns. -/
theorem owing_return (h : s.calls = ⟨n, []⟩ :: cs) :
    ({ s with calls := s.calls.eraseIdx 0 } : State H).owing b = s.owing b := by
  simp [State.owing, h]

/-- What is in service is what the calls will end, the latest of them first. -/
structure Ordered {H : Type} (s : State H) : Prop where
  master : Nested s.pics.master.inService ((s.owing endMaster).map masterLevel)
  slave : Nested s.pics.slave.inService ((s.owing endSlave).map slaveLevel)

theorem masterLevel_irq (irq : Fin 16) : masterLevel (32 + irq) = level irq := by
  revert irq
  decide

theorem slaveLevel_irq (irq : Fin 16) : slaveLevel (32 + irq) = Fin.ofNat 8 (irq - 8) := by
  revert irq
  decide

theorem Ordered.accepts (h : Ordered s) (haccepts : Accepts s.pics irq p)
    (hv : v.toNat = 32 + irq) : Ordered (s.enter p v) := by
  obtain ⟨hm, hs, -, -⟩ := count_isrHandler irq
  constructor
  · have hin : endMaster ∈ isrHandler (32 + irq) := List.count_pos_iff.mp (by omega)
    rw [owing_enter, hv, if_pos hin, List.map_cons, masterLevel_irq]
    show Nested p.master.inService _
    rw [haccepts.master]
    exact h.master.serve haccepts.masterOpen
  · rw [owing_enter, hv]
    show Nested p.slave.inService _
    by_cases h8 : 8 ≤ irq.val
    · rw [if_pos h8] at hs
      have hin : endSlave ∈ isrHandler (32 + irq) := List.count_pos_iff.mp (by omega)
      rw [if_pos hin, List.map_cons, slaveLevel_irq, haccepts.slave h8]
      exact h.slave.serve (haccepts.slaveOpen h8)
    · rw [if_neg h8] at hs
      rw [if_neg (List.count_eq_zero.mp hs), haccepts.alone (by omega)]
      exact h.slave

/-- A controller after the latest call went on. -/
theorem Nested.perform {S : Finset (Fin 8)} {f : ℕ → Fin 8} {l l' : List ℕ}
    (h : Nested S (l.map f)) (hl : l = if a = b then n :: l' else l') :
    Nested (if a = b then finish S else S) (l'.map f) := by
  subst hl
  split_ifs at h ⊢
  · exact h.finish
  · exact h

/-- The latest call goes on. -/
theorem Ordered.advance (haccount : Accounted R s) (h : Ordered s)
    (hcalls : s.calls = ⟨n, a :: rest⟩ :: cs) :
    Ordered { s.perform a with calls := s.calls.set 0 ⟨n, rest⟩ } := by
  obtain ⟨irq, -, hsuffix⟩ :=
    haccount.programs ⟨n, a :: rest⟩ (hcalls ▸ List.mem_cons_self)
  dsimp only at hsuffix
  obtain ⟨-, hmaster, hslave⟩ :=
    pics_perform haccount.ready (hsuffix.subset (List.mem_cons_self (a := a)))
  obtain ⟨hm, hs, -, -⟩ := count_isrHandler irq
  constructor
  · have hcount : (a :: rest).count endMaster ≤ 1 := hm ▸ hsuffix.sublist.count_le endMaster
    show Nested (s.perform a).pics.master.inService _
    rw [hmaster]
    exact Nested.perform h.master (owing_advance hcalls hcount)
  · have hcount : (a :: rest).count endSlave ≤ 1 := by
      have hle := hsuffix.sublist.count_le endSlave
      split_ifs at hs <;> omega
    show Nested (s.perform a).pics.slave.inService _
    rw [hslave]
    exact Nested.perform h.slave (owing_advance hcalls hcount)

theorem Ordered.step {l : Label H} (haccount : Accounted R s) (h : Ordered s) (hl : Innermost s l)
    (hstep : s.exec l = some t) : Ordered t := by
  cases l with
  | raise irq =>
    obtain rfl := Option.some.inj hstep
    obtain ⟨-, hmaster, hslave⟩ := haccount.ready.raise irq
    constructor
    · rw [hmaster]
      exact h.master
    · rw [hslave]
      exact h.slave
  | take =>
    rw [State.exec] at hstep
    cases hpics : s.pics.acknowledge with
    | none =>
      rw [hpics] at hstep
      cases hstep
    | some r =>
      obtain ⟨p, v⟩ := r
      rw [hpics] at hstep
      obtain rfl := Option.some.inj hstep
      obtain ⟨irq, hv, haccepts, -⟩ := acknowledge_spec haccount.ready hpics
      exact h.accepts haccepts hv
  | spuriousMaster => exact absurd hl id
  | spuriousSlave => exact absurd hl id
  | advance i =>
    obtain rfl : i = 0 := hl
    rw [State.exec] at hstep
    cases hcalls : s.calls with
    | nil =>
      rw [hcalls] at hstep
      cases hstep
    | cons c cs =>
      obtain ⟨n, rest⟩ := c
      have hcall : s.calls[0]? = some ⟨n, rest⟩ := by rw [hcalls]; rfl
      rw [hcall] at hstep
      cases rest with
      | nil =>
        obtain rfl := Option.some.inj hstep
        constructor
        · rw [owing_return hcalls]
          exact h.master
        · rw [owing_return hcalls]
          exact h.slave
      | cons a rest =>
        obtain rfl := Option.some.inj hstep
        exact h.advance haccount hcalls
  | register irq handler =>
    obtain rfl := Option.some.inj hstep
    rw [State.registerIrqHandler]
    split_ifs
    · exact ⟨h.master, h.slave⟩
    · exact h

/-- When no request goes before its interrupt is taken and calls end in the opposite order of their
beginning, what is in service is what the calls will end: every call is at a line before those of
the earlier ones, no interrupt is handled a second time before its end, and the end of an interrupt
takes the line out of service that it was requested at. -/
theorem interrupts_nested (h : (system H).ReachableUnder Innermost s) :
    Nested s.pics.master.inService ((s.owing endMaster).map masterLevel) ∧
    Nested s.pics.slave.inService ((s.owing endSlave).map slaveLevel) ∧
    (s.owing endMaster).Nodup ∧
    (∀ n rest cs, s.calls = ⟨n, endMaster :: rest⟩ :: cs →
      finish s.pics.master.inService = s.pics.master.inService.erase (masterLevel n)) ∧
    ∀ n rest cs, s.calls = ⟨n, endSlave :: rest⟩ :: cs →
      finish s.pics.slave.inService = s.pics.slave.inService.erase (slaveLevel n) := by
  have hgenuine : ∀ s l, Innermost s l → Genuine (H := H) s l := by
    intro s l hl
    cases l <;> first | exact hl | trivial
  have hordered : Ordered s := by
    refine h.invariant₂ (J := Accounted (· = ·)) (fun t ht => ?_) (fun t ht => ?_)
      fun t l u haccount hordered hl hstep => hordered.step haccount hl hstep
    · exact reachable_accounted kept_eq (fun s l hl => .inl (hgenuine s l hl)) ht
    · obtain ⟨⟨p, hpics⟩, -, hcalls, -, -⟩ := ht
      have howing (a : Action) : t.owing a = [] := by rw [State.owing, hcalls]; rfl
      constructor
      · rw [howing, hpics, picRemap_spec]
        exact .nil
      · rw [howing, hpics, picRemap_spec]
        exact .nil
  have hnodup := (hordered.master.sorted.imp ne_of_lt).of_map masterLevel fun _ _ hne heq =>
    hne (congrArg masterLevel heq)
  refine ⟨hordered.master, hordered.slave, hnodup, fun n rest cs hcalls => ?_,
    fun n rest cs hcalls => ?_⟩
  · have hmaster := hordered.master
    have howing : s.owing endMaster = n :: (cs.filter fun c => endMaster ∈ c.rest).map Call.intNo := by
      simp [State.owing, hcalls]
    rw [howing, List.map_cons] at hmaster
    exact hmaster.finish_eq
  · have hslave := hordered.slave
    have howing : s.owing endSlave = n :: (cs.filter fun c => endSlave ∈ c.rest).map Call.intNo := by
      simp [State.owing, hcalls]
    rw [howing, List.map_cons] at hslave
    exact hslave.finish_eq

theorem allowed_of_innermost {l : Label H}
    (h : (if Innermost s l then s.exec l else none) = some t) :
    (system H).Allowed Innermost s t := by
  split_ifs at h with hl
  exact ⟨l, hl, h⟩

/-- The keyboard interrupts the handler of the mouse. -/
theorem interrupts_nested_mouse : ∃ s : State Unit,
    s.owing endMaster = [33, 44] ∧ s.pics.master.inService = {1, 2} := by
  have hrun := System.exists_reachableUnder (S := system Unit) (C := Innermost)
    (s := ⟨picRemap ⟨⟨.ready, 0, 0, ∅, ∅⟩, ⟨.ready, 0, 0, ∅, ∅⟩⟩, fun _ => none, 0, [], [], []⟩)
    (P := fun s => s.owing endMaster = [33, 44])
    (fun s l => if Innermost s l then s.exec l else none)
    [.raise 12, .take, .advance 0, .raise 1, .take] (fun _ _ _ => allowed_of_innermost)
    ⟨⟨_, rfl⟩, rfl, rfl, rfl, rfl⟩ (by decide)
  obtain ⟨s, hs, howing⟩ := hrun
  obtain ⟨hmaster, -⟩ := interrupts_nested hs
  refine ⟨s, howing, ?_⟩
  ext i
  rw [hmaster.mem, howing]
  revert i
  decide

end Nesting

end KyroOS.Interrupts

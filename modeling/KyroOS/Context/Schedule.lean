import KyroOS.Context.Asm
import KyroOS.Threads.Reaper

/-!
# What a call of `schedule` leaves

The search of `schedule` takes DEAD threads off the ring and frees them. It writes to links only,
and what it frees is neither the current thread nor one that is not DEAD. The stacks and the
processor are left alone until `thread_switch` is called.

## Main definitions

* `Searched` — a search has gone over the threads

## Main results

* `schedule_none`, `schedule_some` — how a call without a switch and one with a switch end
-/

namespace KyroOS.Context

open KyroOS.Memory KyroOS.Threads

/-! ### The direct map stays where it is -/

section DirectMap

theorem vmmUnmapPage_hhdm (v : Vmm) (pml4 virt : Word) :
    (vmmUnmapPage v pml4 virt).1.hhdm = v.hhdm := by
  unfold vmmUnmapPage
  split
  · rfl
  · dsimp only
    split_ifs <;> rfl

theorem unmapAndFree_hhdm (v : Vmm) (pml4 : Word) (virts : List Word) :
    (unmapAndFree v pml4 virts).hhdm = v.hhdm := by
  induction virts generalizing v with
  | nil => rfl
  | cons virt virts ih =>
    refine (ih _).trans ?_
    rw [← vmmUnmapPage_hhdm v pml4 virt, unmapTurn]
    dsimp only
    split_ifs <;> rfl

theorem vmmDestroyAddressSpace_hhdm (v : Vmm) (pml4 : Word) :
    (vmmDestroyAddressSpace v pml4).hhdm = v.hhdm := by
  unfold vmmDestroyAddressSpace
  split_ifs <;> rfl

theorem reap_hhdm (k : Kernel) (p : Word) : (reap k p).vmm.hhdm = k.vmm.hhdm := by
  have hunmap : ∀ v : Vmm, (if (k.thread p).pml4 ≠ 0 ∧ (k.thread p).id ≠ 0 then
      vmmDestroyAddressSpace v (k.thread p).pml4 else v).hhdm = v.hhdm := by
    intro v
    split_ifs
    · exact vmmDestroyAddressSpace_hhdm v _
    · rfl
  refine (hunmap _).trans ?_
  split_ifs
  · rfl
  · exact unmapAndFree_hhdm _ _ _

end DirectMap

/-- From `k` to `k'` DEAD threads were taken off the ring and freed. -/
structure Searched (k k' : Kernel) : Prop where
  hhdm : k'.vmm.hhdm = k.vmm.hhdm
  cr3 : k'.cr3 = k.cr3
  tssRsp0 : k'.tssRsp0 = k.tssRsp0
  kstack : k'.kstack = k.kstack
  currentThread : k'.currentThread = k.currentThread
  thread : ∀ p, ∃ next, k'.thread p = { k.thread p with next }
  subset : k'.live ⊆ k.live
  live : ∀ p ∈ k.live, (k.thread p).state ≠ .dead ∨ p = k.currentThread → p ∈ k'.live

section Searched

variable {k k' k'' : Kernel} {p old new : Word} {s s' : Search} {e : TurnEnd} {turns : ℕ}

theorem Searched.refl (k : Kernel) : Searched k k :=
  ⟨rfl, rfl, rfl, rfl, rfl, fun p => ⟨(k.thread p).next, rfl⟩, subset_rfl, fun _ hp _ => hp⟩

/-- A field other than the link. -/
theorem Searched.field (h : Searched k k') {α : Type} (g : Thread → α)
    (hg : ∀ t next, g { t with next } = g t) (p : Word) : g (k'.thread p) = g (k.thread p) := by
  obtain ⟨next, hnext⟩ := h.thread p
  rw [hnext, hg]

theorem Searched.trans (h : Searched k k') (h' : Searched k' k'') : Searched k k'' where
  hhdm := h'.hhdm.trans h.hhdm
  cr3 := h'.cr3.trans h.cr3
  tssRsp0 := h'.tssRsp0.trans h.tssRsp0
  kstack := h'.kstack.trans h.kstack
  currentThread := h'.currentThread.trans h.currentThread
  thread := by
    intro p
    obtain ⟨next, hnext⟩ := h.thread p
    obtain ⟨next', hnext'⟩ := h'.thread p
    exact ⟨next', by rw [hnext', hnext]⟩
  subset := h'.subset.trans h.subset
  live := by
    intro p hp hkeep
    refine h'.live p (h.live p hp hkeep) ?_
    rwa [h.field Thread.state fun _ _ => rfl, h.currentThread]

/-- Freeing a thread that is DEAD and not the current one. -/
theorem searched_free (h : Frees s.kernel.currentThread s) : Searched s.kernel s.free.kernel where
  hhdm := reap_hhdm _ s.curr
  cr3 := rfl
  tssRsp0 := rfl
  kstack := rfl
  currentThread := rfl
  thread := by
    intro p
    have hfree : s.free.kernel.thread =
        (s.kernel.setNext s.prev (s.kernel.next s.curr)).thread := rfl
    rw [hfree, Kernel.setNext]
    by_cases hp : p = s.prev
    · rw [hp, setThread_self]
      exact ⟨_, rfl⟩
    · rw [setThread_of_ne s.kernel _ hp]
      exact ⟨(s.kernel.thread p).next, rfl⟩
  subset := by
    intro p hp
    rw [free_live] at hp
    exact Finset.mem_of_mem_erase hp
  live := by
    intro p hp hkeep
    rw [free_live]
    refine Finset.mem_erase.mpr ⟨?_, hp⟩
    rintro rfl
    rcases hkeep with halive | hcurrent
    · exact halive h.dead.dead
    · exact h.ne hcurrent

theorem searched_turn (h : turn s.kernel.currentThread s = (s', e)) :
    Searched s.kernel s'.kernel := by
  rcases turn_kernel h with hsame | ⟨hfrees, rfl⟩
  · rw [hsame]
    exact .refl _
  · exact searched_free hfrees

theorem searched_search {start : Word} {r : SearchEnd} :
    ∀ {s}, s.kernel.currentThread = old → search old start turns s = (s', r) →
      Searched s.kernel s'.kernel := by
  induction turns with
  | zero =>
    intro s _ h
    exact (Prod.mk.inj h).1 ▸ .refl _
  | succ turns ih =>
    intro s hold h
    rw [search] at h
    cases hturn : turn old s with
    | mk t e =>
      have ht : Searched s.kernel t.kernel := searched_turn (hold.symm ▸ hturn)
      simp only [hturn] at h
      cases e with
      | test =>
        dsimp only at h
        split_ifs at h
        · exact (Prod.mk.inj h).1 ▸ ht
        · exact ht.trans (ih (ht.currentThread.trans hold) h)
      | done => exact (Prod.mk.inj h).1 ▸ ht
      | fault => exact (Prod.mk.inj h).1 ▸ ht

/-- A call comes back at once, or goes on after a search. -/
theorem schedule_searched {switch : Option (Word × Word)}
    (hok : schedule turns k = .ok (k', switch)) : k' = k ∧ switch = none ∨
      ∃ s : Search, Searched k s.kernel ∧
        dispatch s.kernel k.currentThread s.chosen = .ok (k', switch) := by
  unfold schedule at hok
  split_ifs at hok
  · obtain ⟨rfl, rfl⟩ := Prod.mk.inj (Except.ok.inj hok)
    exact .inl ⟨rfl, rfl⟩
  · cases hsearch : searchFrom k turns with
    | mk s r =>
      rw [hsearch] at hok
      cases r with
      | running => cases hok
      | fault => cases hok
      | ended => exact .inr ⟨s, searched_search (s := searchStart k) rfl hsearch, hok⟩

/-- Without a switch, a thread is selected at most to go on running. -/
theorem schedule_none (hok : schedule turns k = .ok (k', none)) :
    ∃ k₁, Searched k k₁ ∧ (k' = k₁ ∨ k' = select k₁ k.currentThread k.currentThread) := by
  rcases schedule_searched hok with ⟨rfl, -⟩ | ⟨s, hsearched, hdispatch⟩
  · exact ⟨k', .refl k', .inl rfl⟩
  · refine ⟨s.kernel, hsearched, ?_⟩
    unfold dispatch at hdispatch
    split_ifs at hdispatch with _ _ _ hsame
    · exact .inl (Prod.mk.inj (Except.ok.inj hdispatch)).1.symm
    · cases (Prod.mk.inj (Except.ok.inj hdispatch)).2
    · have hk := (Prod.mk.inj (Except.ok.inj hdispatch)).1.symm
      rw [← not_not.mp hsame] at hk
      exact .inr hk

/-- A call with a switch has selected a READY thread, which is not the current one. -/
theorem schedule_some (hok : schedule turns k = .ok (k', some (old, new))) :
    old = k.currentThread ∧ new ≠ k.currentThread ∧ ∃ k₁, Searched k k₁ ∧ new ∈ k₁.live ∧
      k.currentThread ∈ k₁.live ∧ (k₁.thread new).state = .ready ∧
      k' = setTssStack (select k₁ k.currentThread new) new := by
  rcases schedule_searched hok with ⟨-, hnone⟩ | ⟨s, hsearched, hdispatch⟩
  · cases hnone
  · unfold dispatch at hdispatch
    split_ifs at hdispatch with hlive hready hrunning hne
    · cases (Prod.mk.inj (Except.ok.inj hdispatch)).2
    · obtain ⟨rfl, hpair⟩ := Prod.mk.inj (Except.ok.inj hdispatch)
      obtain ⟨rfl, rfl⟩ := Prod.mk.inj (Option.some.inj hpair)
      rw [not_or, not_not, not_not] at hlive
      exact ⟨rfl, Ne.symm hne, s.kernel, hsearched, hlive.1, hlive.2, not_not.mp hready, rfl⟩
    · cases (Prod.mk.inj (Except.ok.inj hdispatch)).2

/-- A field of a record that `schedule` does not write to. -/
theorem scheduleAndSwitch_field {α : Type} {rsp : Word} (g : Thread → α)
    (hnext : ∀ t next, g { t with next } = g t) (hstate : ∀ t state, g { t with state } = g t)
    (hrsp : ∀ t rsp, g { t with rsp } = g t) (hok : scheduleAndSwitch turns k rsp = .ok k') :
    g (k'.thread p) = g (k.thread p) := by
  rw [scheduleAndSwitch, Outcome.bind_eq_ok] at hok
  obtain ⟨⟨k₁, switch⟩, hschedule, hswitch⟩ := hok
  have hk₁ : g (k₁.thread p) = g (k.thread p) := by
    rcases schedule_searched hschedule with ⟨rfl, -⟩ | ⟨s, hsearched, hdispatch⟩
    · rfl
    rw [← hsearched.field g hnext p]
    unfold dispatch at hdispatch
    split_ifs at hdispatch
    · rw [← (Prod.mk.inj (Except.ok.inj hdispatch)).1]
    · rw [← (Prod.mk.inj (Except.ok.inj hdispatch)).1, setTssStack_thread, select_fields _ _ _ _ g hstate]
    · rw [← (Prod.mk.inj (Except.ok.inj hdispatch)).1, select_fields _ _ _ _ g hstate]
  cases switch with
  | none => rw [← Except.ok.inj hswitch, hk₁]
  | some pair => rw [← Except.ok.inj hswitch, threadSwitch_fields k₁ _ _ _ rsp g hrsp, hk₁]

/-- `thread_switch` writes to the record of the old thread only. -/
theorem threadSwitch_thread_of_ne (k : Kernel) (new rsp : Word) (hne : p ≠ old) :
    (threadSwitch k old new rsp).thread p = k.thread p := by
  have hset : (threadSwitch k old new rsp).thread =
      (k.setThread old fun t => { t with rsp }).thread := by
    unfold threadSwitch
    dsimp only
    split_ifs <;> rfl
  rw [hset, setThread_of_ne _ _ hne]

end Searched

end KyroOS.Context

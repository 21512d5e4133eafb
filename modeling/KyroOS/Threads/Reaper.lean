import KyroOS.Threads.RunQueue

/-!
# What a call of `schedule` reaps

Seen from the address spaces, a call of `schedule` reaps some DEAD threads, one after the
other, and shuffles links and states.

## Main definitions

* `Shuffles` — links and states change, and no thread dies
* `Searches`, `Frees` — the states of the search, and those in which it frees a thread

## Main results

* `Searches.preserves`, `scheduleAndSwitch_preserves` — what shuffling and reaping preserve
  holds during and after a call of `schedule`
* `Triangle.switch`, `Triangle.reap` — a call on a ring of three threads switches to the next
  one, or reaps it
-/

namespace KyroOS.Threads

open KyroOS.Memory

/-- From `k` to `k'` at most links, states, saved stack pointers and the current thread
changed, and no thread died. -/
structure Shuffles (k k' : Kernel) : Prop where
  vmm : k'.vmm = k.vmm
  live : k'.live = k.live
  heapPages : k'.heapPages = k.heapPages
  pml4 : ∀ p, (k'.thread p).pml4 = (k.thread p).pml4
  userStackBase : ∀ p, (k'.thread p).userStackBase = (k.thread p).userStackBase
  id : ∀ p, (k'.thread p).id = (k.thread p).id
  dead : ∀ p, (k'.thread p).state = .dead → (k.thread p).state = .dead

section Shuffles

variable {k k' k'' : Kernel} {p q : Word} {state : ThreadState}

theorem Shuffles.refl (k : Kernel) : Shuffles k k :=
  ⟨rfl, rfl, rfl, fun _ => rfl, fun _ => rfl, fun _ => rfl, fun _ h => h⟩

theorem Shuffles.trans (h : Shuffles k k') (h' : Shuffles k' k'') : Shuffles k k'' where
  vmm := h'.vmm.trans h.vmm
  live := h'.live.trans h.live
  heapPages := h'.heapPages.trans h.heapPages
  pml4 := fun p => (h'.pml4 p).trans (h.pml4 p)
  userStackBase := fun p => (h'.userStackBase p).trans (h.userStackBase p)
  id := fun p => (h'.id p).trans (h.id p)
  dead := fun p hp => h.dead p (h'.dead p hp)

theorem shuffles_setNext (k : Kernel) (p q : Word) : Shuffles k (k.setNext p q) where
  vmm := rfl
  live := rfl
  heapPages := rfl
  pml4 := fun _ => setNext_fields k p _ q Thread.pml4 fun _ _ => rfl
  userStackBase := fun _ => setNext_fields k p _ q Thread.userStackBase fun _ _ => rfl
  id := fun _ => setNext_fields k p _ q Thread.id fun _ _ => rfl
  dead := fun _ h => (setNext_fields k p _ q Thread.state fun _ _ => rfl) ▸ h

theorem shuffles_setState (k : Kernel) (p : Word) (hstate : state ≠ .dead) :
    Shuffles k (k.setState p state) where
  vmm := rfl
  live := rfl
  heapPages := rfl
  pml4 := fun q => setState_fields k p q state Thread.pml4 fun _ _ => rfl
  userStackBase := fun q => setState_fields k p q state Thread.userStackBase fun _ _ => rfl
  id := fun q => setState_fields k p q state Thread.id fun _ _ => rfl
  dead := by
    intro q hq
    by_cases hqp : q = p
    · rw [hqp, Kernel.setState, setThread_self] at hq
      exact absurd hq hstate
    · rwa [Kernel.setState, setThread_of_ne _ _ hqp] at hq

theorem shuffles_select (k : Kernel) (old new : Word) : Shuffles k (select k old new) := by
  unfold select
  dsimp only
  split_ifs
  · obtain ⟨h₁, h₂, h₃, h₄, h₅, h₆, h₇⟩ :=
      (shuffles_setState k old (by decide : ThreadState.ready ≠ .dead)).trans
        (shuffles_setState _ new (by decide : ThreadState.running ≠ .dead))
    exact ⟨h₁, h₂, h₃, h₄, h₅, h₆, h₇⟩
  · obtain ⟨h₁, h₂, h₃, h₄, h₅, h₆, h₇⟩ :=
      shuffles_setState k new (by decide : ThreadState.running ≠ .dead)
    exact ⟨h₁, h₂, h₃, h₄, h₅, h₆, h₇⟩

theorem shuffles_setTssStack (k : Kernel) (new : Word) : Shuffles k (setTssStack k new) := by
  unfold setTssStack
  split_ifs
  · exact .refl k
  · obtain ⟨h₁, h₂, h₃, h₄, h₅, h₆, h₇⟩ := Shuffles.refl k
    exact ⟨h₁, h₂, h₃, h₄, h₅, h₆, h₇⟩

theorem shuffles_threadSwitch (k : Kernel) (old new rsp : Word) :
    Shuffles k (threadSwitch k old new rsp) where
  vmm := by
    unfold threadSwitch
    dsimp only
    split_ifs <;> rfl
  live := threadSwitch_live k old new rsp
  heapPages := by
    unfold threadSwitch
    dsimp only
    split_ifs <;> rfl
  pml4 := fun q => threadSwitch_fields k old new q rsp Thread.pml4 fun _ _ => rfl
  userStackBase := fun q => threadSwitch_fields k old new q rsp Thread.userStackBase fun _ _ => rfl
  id := fun q => threadSwitch_fields k old new q rsp Thread.id fun _ _ => rfl
  dead := fun q h => (threadSwitch_fields k old new q rsp Thread.state fun _ _ => rfl) ▸ h

/-- The part of `schedule` after the search. -/
theorem shuffles_dispatch {old new : Word} {switch : Option (Word × Word)}
    (hok : dispatch k old new = .ok (k', switch)) : Shuffles k k' := by
  unfold dispatch at hok
  split_ifs at hok
  · obtain ⟨rfl, -⟩ := Prod.mk.inj (Except.ok.inj hok)
    exact .refl k
  · obtain ⟨rfl, -⟩ := Prod.mk.inj (Except.ok.inj hok)
    exact (shuffles_select k old new).trans (shuffles_setTssStack _ new)
  · obtain ⟨rfl, -⟩ := Prod.mk.inj (Except.ok.inj hok)
    exact shuffles_select k old new

end Shuffles

/-! ### The search -/

/-- The thread at `p` is DEAD and not the first one. -/
structure Kernel.Dead (k : Kernel) (p : Word) : Prop where
  live : p ∈ k.live
  dead : (k.thread p).state = .dead
  id : (k.thread p).id ≠ 0

/-- A thread that is found DEAD was DEAD before. -/
theorem Shuffles.dead_back {k k' : Kernel} (h : Shuffles k k') {p : Word} (hp : k'.Dead p) :
    k.Dead p :=
  ⟨h.live ▸ hp.live, h.dead p hp.dead, h.id p ▸ hp.id⟩

/-- In the state `s` the search frees the thread at `curr`. -/
structure Frees (old : Word) (s : Search) : Prop where
  dead : s.kernel.Dead s.curr
  ne : s.curr ≠ old
  prev : s.prev ∈ s.kernel.live

/-- The states that the search of a call of `schedule` is in before its turns. -/
inductive Searches (k : Kernel) : Search → Prop
  | start : Searches k (searchStart k)
  | turn {s s' : Search} (h : Searches k s) (hturn : turn k.currentThread s = (s', .test))
    (hne : s'.curr ≠ k.next k.readyQueue) : Searches k s'

section Search

variable {k k' : Kernel} {s s' : Search} {old start : Word} {e : TurnEnd} {I : Kernel → Prop}
  {turns : ℕ}

/-- A turn frees the thread at `curr`, or leaves the kernel's data alone. -/
theorem turn_kernel (h : turn old s = (s', e)) :
    s'.kernel = s.kernel ∨ Frees old s ∧ s' = s.free := by
  unfold turn at h
  dsimp only at h
  by_cases hlive : s.curr ∉ s.kernel.live
  · rw [if_pos hlive] at h
    exact .inl ((Prod.mk.inj h).1 ▸ rfl)
  rw [if_neg hlive] at h
  by_cases hdead : (s.kernel.thread s.curr).state = .dead ∧ (s.kernel.thread s.curr).id ≠ 0
  · rw [if_pos hdead] at h
    by_cases hold : s.curr = old
    · rw [if_pos hold] at h
      exact .inl ((Prod.mk.inj h).1 ▸ rfl)
    rw [if_neg hold] at h
    by_cases hprev : s.prev ∉ s.kernel.live
    · rw [if_pos hprev] at h
      exact .inl ((Prod.mk.inj h).1 ▸ rfl)
    rw [if_neg hprev] at h
    have hfrees : Frees old s :=
      ⟨⟨not_not.mp hlive, hdead.1, hdead.2⟩, hold, not_not.mp hprev⟩
    split_ifs at h <;> exact .inr ⟨hfrees, (Prod.mk.inj h).1.symm⟩
  · rw [if_neg hdead] at h
    split_ifs at h <;> exact .inl ((Prod.mk.inj h).1 ▸ rfl)

/-- Freeing a thread takes it off the ring and reaps it. -/
theorem free_kernel (h : s.kernel.Dead s.curr) :
    ∃ k, Shuffles s.kernel k ∧ k.Dead s.curr ∧ s.free.kernel = reap k s.curr := by
  obtain ⟨h₁, h₂, h₃, h₄, h₅, h₆, h₇⟩ := shuffles_setNext s.kernel s.prev (s.kernel.next s.curr)
  have hstate : ((s.kernel.setNext s.prev (s.kernel.next s.curr)).thread s.curr).state = .dead :=
    (setNext_fields s.kernel s.prev s.curr _ Thread.state fun _ _ => rfl).trans h.dead
  refine ⟨{ s.kernel.setNext s.prev (s.kernel.next s.curr) with
      readyQueue := if s.kernel.readyQueue = s.curr then s.prev else s.kernel.readyQueue },
    ⟨h₁, h₂, h₃, h₄, h₅, h₆, h₇⟩, ⟨h.live, hstate, ?_⟩, rfl⟩
  exact (h₆ s.curr).trans_ne h.id

/-- What shuffling and reaping preserve, a turn preserves. -/
theorem turn_preserves (hshuffles : ∀ k k', I k → Shuffles k k' → I k')
    (hreap : ∀ k p, I k → k.Dead p → I (reap k p)) (h : turn old s = (s', e)) (hI : I s.kernel) :
    I s'.kernel := by
  rcases turn_kernel h with hsame | ⟨hfrees, rfl⟩
  · exact hsame ▸ hI
  · -- the thread is taken off the ring first
    obtain ⟨k₁, hshuffle, hdead, hfree⟩ := free_kernel hfrees.dead
    rw [hfree]
    exact hreap k₁ s.curr (hshuffles _ _ hI hshuffle) hdead

/-- What shuffling and reaping preserve holds during the search. -/
theorem Searches.preserves (hshuffles : ∀ k k', I k → Shuffles k k' → I k')
    (hreap : ∀ k p, I k → k.Dead p → I (reap k p)) (h : Searches k s) (hI : I k) :
    I s.kernel := by
  induction h with
  | start => exact hI
  | turn _ hturn _ ih => exact turn_preserves hshuffles hreap hturn ih

theorem search_preserves (hshuffles : ∀ k k', I k → Shuffles k k' → I k')
    (hreap : ∀ k p, I k → k.Dead p → I (reap k p)) {r : SearchEnd} :
    ∀ {s}, search old start turns s = (s', r) → I s.kernel → I s'.kernel := by
  induction turns with
  | zero =>
    intro s h hI
    exact (Prod.mk.inj h).1 ▸ hI
  | succ turns ih =>
    intro s h hI
    rw [search] at h
    cases hturn : turn old s with
    | mk t e =>
      have ht := turn_preserves hshuffles hreap hturn hI
      simp only [hturn] at h
      cases e with
      | test =>
        dsimp only at h
        split_ifs at h
        · exact (Prod.mk.inj h).1 ▸ ht
        · exact ih h ht
      | done => exact (Prod.mk.inj h).1 ▸ ht
      | fault => exact (Prod.mk.inj h).1 ▸ ht

/-- What shuffling and reaping preserve, a call of `schedule` preserves. -/
theorem scheduleAndSwitch_preserves (hshuffles : ∀ k k', I k → Shuffles k k' → I k')
    (hreap : ∀ k p, I k → k.Dead p → I (reap k p)) {rsp : Word}
    (hok : scheduleAndSwitch turns k rsp = .ok k') (hI : I k) : I k' := by
  rw [scheduleAndSwitch, Outcome.bind_eq_ok] at hok
  obtain ⟨⟨k₁, switch⟩, hschedule, hswitch⟩ := hok
  have hI₁ : I k₁ := by
    unfold schedule at hschedule
    split_ifs at hschedule with hnone
    · obtain ⟨rfl, -⟩ := Prod.mk.inj (Except.ok.inj hschedule)
      exact hI
    · cases hsearch : searchFrom k turns with
      | mk s r =>
        rw [hsearch] at hschedule
        cases r with
        | running => cases hschedule
        | fault => cases hschedule
        | ended =>
          exact hshuffles _ _ (search_preserves hshuffles hreap hsearch hI)
            (shuffles_dispatch hschedule)
  cases switch with
  | none => exact Except.ok.inj hswitch ▸ hI₁
  | some pair => exact Except.ok.inj hswitch ▸ hshuffles _ _ hI₁ (shuffles_threadSwitch k₁ _ _ rsp)

/-- A call of `schedule` frees the thread at `p`. -/
def Reaps (k : Kernel) (p : Word) : Prop :=
  k.currentThread ≠ 0 ∧ k.readyQueue ≠ 0 ∧
    ∃ s, Searches k s ∧ Frees k.currentThread s ∧ s.curr = p

/-- A turn at a thread that can be freed frees it. -/
theorem turn_of_frees (h : Frees old s) : ∃ e, turn old s = (s.free, e) := by
  unfold turn
  dsimp only
  rw [if_neg (not_not.mpr h.dead.live), if_pos ⟨h.dead.dead, h.dead.id⟩, if_neg h.ne,
    if_neg (not_not.mpr h.prev)]
  split_ifs
  · exact ⟨_, rfl⟩
  · exact ⟨_, rfl⟩

theorem mem_live_turn {p : Word} (h : turn old s = (s', e)) :
    p ∈ s'.kernel.live ↔ p ∈ s.kernel.live ∧ ¬ (Frees old s ∧ s.curr = p) := by
  by_cases hfrees : Frees old s
  · obtain ⟨e', hturn⟩ := turn_of_frees hfrees
    have hs' : s' = s.free := (Prod.mk.inj (h.symm.trans hturn)).1
    rw [hs', free_live, Finset.mem_erase, and_comm, and_iff_right hfrees, eq_comm]
  · have hsame := (turn_kernel h).resolve_right fun hfree => hfrees hfree.1
    rw [hsame, iff_self_and]
    exact fun _ hfree => hfrees hfree.1

/-- One turn of a search that goes on. -/
def Continues (old start : Word) (s s' : Search) : Prop :=
  turn old s = (s', .test) ∧ s'.curr ≠ start

theorem searches_iff : Searches k s ↔
    Relation.ReflTransGen (Continues k.currentThread (k.next k.readyQueue)) (searchStart k) s := by
  constructor
  · intro h
    induction h with
    | start => exact .refl
    | turn _ hturn hne ih => exact ih.tail ⟨hturn, hne⟩
  · intro h
    induction h with
    | refl => exact .start
    | tail _ hlast ih => exact .turn ih hlast.1 hlast.2

/-- A search that comes to its end has freed what its turns free. -/
theorem mem_live_search {p : Word} : ∀ {s}, search old start turns s = (s', .ended) →
    (p ∈ s'.kernel.live ↔ p ∈ s.kernel.live ∧
      ¬ ∃ t, Relation.ReflTransGen (Continues old start) s t ∧ Frees old t ∧ t.curr = p) := by
  induction turns with
  | zero => exact fun h => absurd (Prod.mk.inj h).2 (by decide)
  | succ turns ih =>
    intro s h
    rw [search] at h
    cases hturn : turn old s with
    | mk t e =>
      have hlive := mem_live_turn (p := p) hturn
      simp only [hturn] at h
      -- the last turn
      have hlast : (∀ t', ¬ Continues old start s t') → s' = t →
          (p ∈ s'.kernel.live ↔ p ∈ s.kernel.live ∧ ¬ ∃ t,
            Relation.ReflTransGen (Continues old start) s t ∧ Frees old t ∧ t.curr = p) := by
        rintro hstop rfl
        rw [hlive]
        refine and_congr_right fun _ => not_congr ⟨fun hfree => ⟨s, .refl, hfree⟩, ?_⟩
        rintro ⟨t', hrun, hfree⟩
        rcases hrun.cases_head with rfl | ⟨t'', hnext, -⟩
        · exact hfree
        · exact absurd hnext (hstop t'')
      cases e with
      | fault => exact absurd (Prod.mk.inj h).2 (by decide)
      | done =>
        refine hlast (fun t' hnext => ?_) (Prod.mk.inj h).1.symm
        exact absurd (Prod.mk.inj (hturn.symm.trans hnext.1)).2 (by decide)
      | test =>
        dsimp only at h
        by_cases hstart : t.curr = start
        · rw [if_pos hstart] at h
          refine hlast (fun t' hnext => hnext.2 ?_) (Prod.mk.inj h).1.symm
          rw [← (Prod.mk.inj (hturn.symm.trans hnext.1)).1, hstart]
        · rw [if_neg hstart] at h
          rw [ih h, hlive, and_assoc, ← not_or]
          refine and_congr_right fun _ => not_congr ⟨?_, ?_⟩
          · rintro (hfree | ⟨t', hrun, hfree⟩)
            · exact ⟨s, .refl, hfree⟩
            · exact ⟨t', .head ⟨hturn, hstart⟩ hrun, hfree⟩
          · rintro ⟨t', hrun, hfree⟩
            rcases hrun.cases_head with rfl | ⟨t'', hnext, hrest⟩
            · exact .inl hfree
            · rw [← (Prod.mk.inj (hturn.symm.trans hnext.1)).1] at hrest
              exact .inr ⟨t', hrest, hfree⟩

/-- The threads after a call of `schedule` are those that it did not free. -/
theorem mem_live_scheduleAndSwitch {p rsp : Word} (hok : scheduleAndSwitch turns k rsp = .ok k') :
    p ∈ k'.live ↔ p ∈ k.live ∧ ¬ Reaps k p := by
  rw [scheduleAndSwitch, Outcome.bind_eq_ok] at hok
  obtain ⟨⟨k₁, switch⟩, hschedule, hswitch⟩ := hok
  have hlive : k'.live = k₁.live := by
    cases switch with
    | none => rw [← Except.ok.inj hswitch]
    | some pair => rw [← Except.ok.inj hswitch, threadSwitch_live]
  rw [hlive]
  unfold schedule at hschedule
  split_ifs at hschedule with hnone hqueue
  · rw [← (Prod.mk.inj (Except.ok.inj hschedule)).1, iff_self_and]
    rintro - ⟨hcurrent, hqueue, -⟩
    exact hnone.elim hcurrent hqueue
  · rw [not_or] at hnone
    cases hsearch : searchFrom k turns with
    | mk s r =>
      rw [hsearch] at hschedule
      cases r with
      | running => cases hschedule
      | fault => cases hschedule
      | ended =>
        rw [(shuffles_dispatch hschedule).live, mem_live_search hsearch, Reaps,
          and_iff_right hnone.1, and_iff_right hnone.2]
        simp only [searches_iff]
        rfl

/-- What is done to the page tables for a thread depends on its record. -/
theorem Shuffles.reap_vmm (h : Shuffles k k') (p : Word) : (reap k' p).vmm = (reap k p).vmm := by
  unfold reap
  dsimp only [Kernel.kfree]
  rw [h.userStackBase p, h.pml4 p, h.id p, h.vmm]

/-- A call of `schedule` that frees no thread shuffles links and states. -/
theorem shuffles_of_live_eq {rsp : Word} (hok : scheduleAndSwitch turns k rsp = .ok k')
    (hlive : k'.live = k.live) : Shuffles k k' := by
  have hI : (∃ p ∈ k.live, p ∉ k'.live) ∨ Shuffles k k' := by
    refine scheduleAndSwitch_preserves (I := fun k' => (∃ p ∈ k.live, p ∉ k'.live) ∨ Shuffles k k')
      (fun k₁ k₂ hI hs => ?_) (fun k₁ p hI hdead => ?_) hok (.inr (.refl k))
    · rcases hI with ⟨q, hq, hnot⟩ | hI
      · exact .inl ⟨q, hq, hs.live ▸ hnot⟩
      · exact .inr (hI.trans hs)
    · rcases hI with ⟨q, hq, hnot⟩ | hI
      · exact .inl ⟨q, hq, fun hmem => hnot (Finset.mem_of_mem_erase hmem)⟩
      · exact .inl ⟨p, hI.live ▸ hdead.live, Finset.notMem_erase p _⟩
  refine hI.resolve_left ?_
  rintro ⟨p, hp, hnot⟩
  exact hnot (hlive ▸ hp)

/-- A call of `schedule` that frees one thread reaps it, and does no more to the page tables. -/
theorem reaps_of_live_eq {t rsp : Word} (hok : scheduleAndSwitch turns k rsp = .ok k')
    (ht : t ∈ k.live) (hlive : k'.live = k.live.erase t) :
    k.Dead t ∧ k'.vmm = (reap k t).vmm ∧ k'.heapPages = k.heapPages := by
  have hI : (∃ p ∈ k.live, p ≠ t ∧ p ∉ k'.live) ∨ Shuffles k k' ∨
      k.Dead t ∧ k'.vmm = (reap k t).vmm ∧ k'.heapPages = k.heapPages ∧
        k'.live = k.live.erase t := by
    refine scheduleAndSwitch_preserves (I := fun k' => (∃ p ∈ k.live, p ≠ t ∧ p ∉ k'.live) ∨
      Shuffles k k' ∨ k.Dead t ∧ k'.vmm = (reap k t).vmm ∧ k'.heapPages = k.heapPages ∧
        k'.live = k.live.erase t)
      (fun k₁ k₂ hI hs => ?_) (fun k₁ p hI hdead => ?_) hok (.inr (.inl (.refl k)))
    · rcases hI with ⟨q, hq, hne, hnot⟩ | hI | ⟨hdead, hvmm, hheap, hlive'⟩
      · exact .inl ⟨q, hq, hne, hs.live ▸ hnot⟩
      · exact .inr (.inl (hI.trans hs))
      · exact .inr (.inr ⟨hdead, hs.vmm.trans hvmm, hs.heapPages.trans hheap, hs.live.trans hlive'⟩)
    · rcases hI with ⟨q, hq, hne, hnot⟩ | hI | ⟨hdead', hvmm, hheap, hlive'⟩
      · exact .inl ⟨q, hq, hne, fun hmem => hnot (Finset.mem_of_mem_erase hmem)⟩
      · by_cases hpt : p = t
        · subst hpt
          exact .inr (.inr ⟨hI.dead_back hdead, hI.reap_vmm p, hI.heapPages,
            congrArg (Finset.erase · p) hI.live⟩)
        · exact .inl ⟨p, hI.live ▸ hdead.live, hpt, Finset.notMem_erase p _⟩
      · -- another thread is freed behind `t`
        obtain ⟨hne, hp⟩ := Finset.mem_erase.mp (hlive' ▸ hdead.live)
        exact .inl ⟨p, hp, hne, Finset.notMem_erase p _⟩
  rcases hI with ⟨q, hq, hne, hnot⟩ | hI | ⟨hdead, hvmm, hheap, -⟩
  · exact absurd (hlive ▸ Finset.mem_erase.mpr ⟨hne, hq⟩) hnot
  · exact absurd (hlive ▸ hI.live.symm ▸ ht) (Finset.notMem_erase t k.live)
  · exact ⟨hdead, hvmm, hheap⟩

end Search

/-! ### Three threads -/

/-- The ring of the threads `x`, `y` and `z`, with `x` the last. -/
structure Triangle (k : Kernel) (x y z : Word) : Prop where
  queue : k.readyQueue = x
  nextX : k.next x = y
  nextY : k.next y = z
  nextZ : k.next z = x
  liveX : x ∈ k.live
  liveY : y ∈ k.live
  liveZ : z ∈ k.live
  current : k.currentThread ∈ k.live
  zero : 0 ∉ k.live

section Triangle

variable {k k' : Kernel} {x y z : Word}

theorem select_state (k : Kernel) (old new p : Word) : ((select k old new).thread p).state =
    if p = new then .running
    else if p = old ∧ (k.thread p).state = .running then .ready else (k.thread p).state := by
  have hset : ∀ (k : Kernel) (q : Word) (s : ThreadState), ((k.setState q s).thread p).state =
      if p = q then s else (k.thread p).state := by
    intro k q s
    split_ifs with hpq
    · rw [hpq, Kernel.setState, setThread_self]
    · rw [Kernel.setState, setThread_of_ne _ _ hpq]
  unfold select
  dsimp only
  split_ifs with hold hnew hboth hnew hboth
  · rw [hset, if_pos hnew]
  · rw [hset, if_neg hnew, hset, if_pos hboth.1]
  · rw [hset, if_neg hnew, hset, if_neg fun hp => hboth ⟨hp, hp ▸ hold⟩]
  · rw [hset, if_pos hnew]
  · exact absurd (hboth.1 ▸ hboth.2) hold
  · rw [hset, if_neg hnew]

theorem dispatch_switch {old new : Word} (hnew : new ∈ k.live) (hold : old ∈ k.live)
    (hready : (k.thread new).state = .ready) (hne : old ≠ new) :
    dispatch k old new = .ok (setTssStack (select k old new) new, some (old, new)) := by
  unfold dispatch
  rw [if_neg (not_or.mpr ⟨not_not.mpr hnew, not_not.mpr hold⟩), if_neg (not_not.mpr hready),
    if_pos hne]
  rfl

theorem Triangle.schedule (h : Triangle k x y z) {turns : ℕ} {s : Search}
    (hsearch : searchFrom k turns = (s, .ended)) (hchosen : s.chosen ∈ s.kernel.live)
    (hcurrent : k.currentThread ∈ s.kernel.live)
    (hready : (s.kernel.thread s.chosen).state = .ready) (hne : k.currentThread ≠ s.chosen) :
    scheduleAndSwitch turns k 0 = .ok (threadSwitch
      (setTssStack (select s.kernel k.currentThread s.chosen) s.chosen) k.currentThread s.chosen 0) := by
  have hcurrent₀ : k.currentThread ≠ 0 := fun h0 => h.zero (h0 ▸ h.current)
  have hlive : k.readyQueue ∈ k.live := h.queue ▸ h.liveX
  have hqueue : k.readyQueue ≠ 0 := fun h0 => h.zero (h0 ▸ hlive)
  refine Outcome.bind_eq_ok.mpr
    ⟨(setTssStack (select s.kernel k.currentThread s.chosen) s.chosen, some (k.currentThread, s.chosen)),
      ?_, rfl⟩
  unfold Threads.schedule
  rw [if_neg (not_or.mpr ⟨hcurrent₀, hqueue⟩), if_neg (not_not.mpr hlive), hsearch]
  exact dispatch_switch hchosen hcurrent hready hne

/-- From `k` to `k'` the current thread was preempted by `y`. -/
structure Preempted (k k' : Kernel) (y : Word) : Prop where
  schedule : scheduleAndSwitch 1 k 0 = .ok k'
  current : k'.currentThread = y
  live : k'.live = k.live
  running : (k'.thread y).state = .running
  ready : (k.thread k.currentThread).state = .running → (k'.thread k.currentThread).state = .ready
  same : ∀ p, p ≠ y → (k.thread p).state ≠ .running → (k'.thread p).state = (k.thread p).state

/-- No record but links, states and stack pointers changes. -/
theorem Preempted.id {p : Word} (h : Preempted k k' y) :
    (k'.thread p).id = (k.thread p).id :=
  (shuffles_of_live_eq h.schedule h.live).id p

/-- The next thread is READY and is switched to. -/
theorem Triangle.switch (h : Triangle k x y z) (hready : (k.thread y).state = .ready)
    (hne : k.currentThread ≠ y) : ∃ k', Triangle k' y z x ∧ Preempted k k' y := by
  have hstart : (searchStart k).curr = y := by
    rw [searchStart, h.queue]
    exact h.nextX
  have hsearch : searchFrom k 1 = ({ searchStart k with curr := y, chosen := y }, .ended) := by
    have hturn := turn_ready (s := searchStart k) k.currentThread (hstart.symm ▸ h.liveY)
      (hstart.symm ▸ hready)
    have hdone : searchFrom k 1 = _ := search_done hturn
    rw [hstart] at hdone
    exact hdone
  have hzero : (0#64 : Word) ∉ k.live := h.zero
  have hschedule := h.schedule hsearch h.liveY h.current hready hne
  have hstate : ∀ p, ((threadSwitch (setTssStack (select k k.currentThread y) y)
      k.currentThread y 0).thread p).state = if p = y then .running
        else if p = k.currentThread ∧ (k.thread p).state = .running then .ready
        else (k.thread p).state := by
    intro p
    rw [threadSwitch_fields _ _ _ _ _ Thread.state fun _ _ => rfl, setTssStack_thread, select_state]
  refine ⟨_, ?_, hschedule, ?_, ?_, ?_, fun hrunning => ?_, fun p hp hrunning => ?_⟩
  · refine ⟨?_, ?_, ?_, ?_, ?_, ?_, ?_, ?_, ?_⟩ <;> simp [h.nextX, h.nextY, h.nextZ, h.liveX, h.liveY,
      h.liveZ, hzero, searchStart]
  · simp
  · simp [searchStart]
  · exact (hstate y).trans (if_pos rfl)
  · exact (hstate _).trans ((if_neg hne).trans (if_pos ⟨rfl, hrunning⟩))
  · exact (hstate p).trans ((if_neg hp).trans (if_neg fun hboth => hrunning hboth.2))

/-- The next thread is DEAD and is reaped. -/
theorem Triangle.reap (h : Triangle k x y z) (hxy : x ≠ y) (hyz : y ≠ z)
    (hcurrent : k.currentThread = x) (hdead : (k.thread y).state = .dead)
    (hid : (k.thread y).id ≠ 0) (hready : (k.thread z).state = .ready) (hxz : x ≠ z) :
    ∃ k', scheduleAndSwitch 2 k 0 = .ok k' ∧ k'.live = k.live.erase y := by
  have hprev : (searchStart k).prev = x := h.queue
  have hstart : (searchStart k).curr = y := by
    rw [searchStart, h.queue]
    exact h.nextX
  have hlive : (searchStart k).free.kernel.live = k.live.erase y := by
    rw [free_live, hstart]
    rfl
  have hcurr : (searchStart k).free.curr = z := by
    rw [free_curr _ (by rw [hstart, hprev]; exact hxy.symm), hstart]
    exact h.nextY
  have hqueue : (searchStart k).free.kernel.readyQueue = x := by
    rw [free_readyQueue, hstart, hprev]
    show (if k.readyQueue = y then x else k.readyQueue) = x
    rw [h.queue, if_neg hxy]
  have hstate : ∀ p, ((searchStart k).free.kernel.thread p).state = (k.thread p).state :=
    free_fields (searchStart k) Thread.state fun _ _ => rfl
  have hzlive : z ∈ (searchStart k).free.kernel.live := hlive ▸ Finset.mem_erase.mpr ⟨hyz.symm, h.liveZ⟩
  have hsearch : searchFrom k 2 =
      ({ (searchStart k).free with chosen := (searchStart k).free.curr }, .ended) := by
    have hturn := turn_free (s := searchStart k) k.currentThread (hstart.symm ▸ h.liveY)
      (hprev.symm ▸ h.liveX) (hstart.symm ▸ hdead) (hstart.symm ▸ hid)
      (hstart.trans_ne (hcurrent ▸ hxy.symm))
      (hqueue.trans_ne fun h0 => h.zero (h0 ▸ h.liveX))
    have hturn' := turn_ready (s := (searchStart k).free) k.currentThread (hcurr.symm ▸ hzlive)
      ((hstate _).trans (hcurr.symm ▸ hready))
    have hne : (searchStart k).free.curr ≠ k.next k.readyQueue := by
      rw [hcurr, h.queue, h.nextX]
      exact hyz.symm
    exact (search_test hturn hne).trans (search_done hturn')
  refine ⟨_, h.schedule hsearch (hcurr.symm ▸ hzlive) ?_ ((hstate _).trans (hcurr.symm ▸ hready)) ?_, ?_⟩
  · rw [hlive, hcurrent]
    exact Finset.mem_erase.mpr ⟨hxy, h.liveX⟩
  · exact hcurrent.trans_ne (hcurr.symm ▸ hxz)
  · simp [hlive]

/-- The current thread exits. -/
theorem Triangle.exit (h : Triangle k x y z) : Triangle (threadExit k) x y z := by
  have hnext : (threadExit k).next = k.next := setState_next _ _ _
  exact ⟨h.queue, by rw [hnext, h.nextX], by rw [hnext, h.nextY], by rw [hnext, h.nextZ], h.liveX,
    h.liveY, h.liveZ, h.current, h.zero⟩

end Triangle

end KyroOS.Threads

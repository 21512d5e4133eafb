import KyroOS.Lib.CircularList
import KyroOS.Lib.Transition
import KyroOS.Threads.Scheduler

/-!
# The ring of threads and the search of `schedule`

The search frees DEAD threads from the ring it walks, while its test compares with the
thread it started at. If that thread is freed itself and no thread is READY, the test never
succeeds.

## Main definitions

* `OnRing` — the list reachable from `ready_queue`
* `Settles` — a call of `schedule` ends, and the ring is the one before less the threads
  it freed
* `Kernel.SearchEnds` — the search does not start at a thread it frees, or finds a READY one
* `Walk` — the loop, after it passed a part of the ring

## Main results

* `Walk.turn` — one turn passes one thread
* `settles_iff_searchEnds` — a call of `schedule` goes well exactly when the search ends
-/

namespace KyroOS.Threads

open KyroOS.Memory CircularList

/-! ### The ring -/

namespace Kernel

/-- Following the links from `ready_queue` leads to `p`. -/
def Reaches (k : Kernel) (p : Word) : Prop :=
  Relation.ReflTransGen (fun a b => k.next a = b) k.readyQueue p

/-- A thread that `schedule` frees when it passes it. -/
def Reapable (k : Kernel) (p : Word) : Prop :=
  (k.thread p).state = .dead ∧ (k.thread p).id ≠ 0 ∧ p ≠ k.currentThread

instance (k : Kernel) (p : Word) : Decidable (k.Reapable p) :=
  inferInstanceAs (Decidable (_ ∧ _ ∧ _))

/-- The search does not start at a thread that it frees, or there is a READY one. -/
def SearchEnds (k : Kernel) : Prop :=
  k.readyQueue = 0 ∨ ¬ k.Reapable (k.next k.readyQueue) ∨
    ∃ p, k.Reaches p ∧ (k.thread p).state = .ready

end Kernel

/-- The threads on the ring behind `ready_queue`; none of them was freed. -/
structure OnRing (k : Kernel) (l : List Word) : Prop where
  ring : Ring k.next l
  entry : k.readyQueue ∈ l
  live : ∀ p ∈ l, p ∈ k.live

/-- From `k` to `k'` the ring lost the threads that were freed, which were DEAD, and nothing
else happened to it. -/
structure Settled (k k' : Kernel) : Prop where
  ring : k.readyQueue = 0 ∧ k' = k ∨
    ∃ l l', OnRing k l ∧ OnRing k' l' ∧ l' ~r l.filter (fun p => p ∈ k'.live)
  live : k'.live ⊆ k.live
  freed : ∀ p ∈ k.live, p ∉ k'.live → k.Reaches p ∧ k.Reapable p
  current : k'.currentThread ∈ k'.live

/-- The result of a call of `schedule` that comes to an end and does not follow a pointer to
a freed thread. -/
def Settles (k : Kernel) : Outcome (Kernel × Option (Word × Word)) → Prop
  | .ok (k', _) => Settled k k'
  | .error (.panic _) => True
  | .error _ => False

/-- What the search relies on. -/
structure RingInv (k : Kernel) : Prop where
  current : k.currentThread ∈ k.live
  zero : 0 ∉ k.live
  ring : k.readyQueue = 0 ∨ ∃ l, OnRing k l

/-! ### The loop -/

section Loop

variable {k : Kernel} {s s' : Search} {l done todo : List Word} {x start old : Word}

/-- The threads of a list that `schedule` does not free. -/
def keep (k : Kernel) (l : List Word) : List Word := l.filter fun p => ¬ k.Reapable p

/-- The loop has passed `done` and not yet `todo`: the ring starts with what is ahead and
ends with what was kept. -/
structure Walk (k : Kernel) (l : List Word) (s : Search) (done todo : List Word) : Prop where
  split : l = done ++ todo
  nodup : l.Nodup
  ring : Ring s.kernel.next (todo ++ keep k done)
  curr : (todo ++ keep k done).head? = some s.curr
  prev : (todo ++ keep k done).getLast? = some s.prev
  tail : (keep k done ++ todo).getLast? = some s.kernel.readyQueue
  live : ∀ p, p ∈ s.kernel.live ↔ p ∈ k.live ∧ ¬ (p ∈ done ∧ k.Reapable p)
  onRing : ∀ p ∈ l, p ∈ k.live
  zero : 0 ∉ k.live
  state : ∀ p, (s.kernel.thread p).state = (k.thread p).state
  id : ∀ p, (s.kernel.thread p).id = (k.thread p).id
  current : s.kernel.currentThread = k.currentThread

/-- With enough turns, the number of turns does not matter. -/
theorem search_mono {turns : ℕ} {e : SearchEnd} (he : e ≠ .running) :
    ∀ {s}, search old start turns s = (s', e) → ∀ m, search old start (turns + m) s = (s', e) := by
  induction turns with
  | zero =>
    intro s h
    exact absurd (congrArg Prod.snd h).symm he
  | succ turns ih =>
    intro s h m
    rw [Nat.add_right_comm, search]
    rw [search] at h
    cases hturn : turn old s with
    | mk t e' =>
      simp only [hturn] at h ⊢
      cases e' with
      | test =>
        by_cases hcurr : t.curr = start
        · simpa only [if_pos hcurr] using h
        · simp only [if_neg hcurr] at h ⊢
          exact ih h m
      | done => exact h
      | fault => exact h

theorem search_test {turns : ℕ} (h : turn old s = (s', .test)) (hne : s'.curr ≠ start) :
    search old start (turns + 1) s = search old start turns s' := by
  simp only [search, h, if_neg hne]

theorem search_start {turns : ℕ} (h : turn old s = (s', .test)) (heq : s'.curr = start) :
    search old start (turns + 1) s = (s', .ended) := by
  simp only [search, h, if_pos heq]

theorem search_done {turns : ℕ} (h : turn old s = (s', .done)) :
    search old start (turns + 1) s = (s', .ended) := by
  simp only [search, h]

/-! The three kinds of turns. -/

theorem turn_skip (old : Word) (hlive : s.curr ∈ s.kernel.live)
    (hready : (s.kernel.thread s.curr).state ≠ .ready)
    (hkeep : ¬ ((s.kernel.thread s.curr).state = .dead ∧ (s.kernel.thread s.curr).id ≠ 0 ∧
      s.curr ≠ old)) :
    turn old s = ({ s with prev := s.curr, curr := s.kernel.next s.curr }, .test) := by
  simp only [turn, not_not.mpr hlive, if_false, hready]
  by_cases hdead : (s.kernel.thread s.curr).state = .dead ∧ (s.kernel.thread s.curr).id ≠ 0
  · have hold : s.curr = old := by
      by_contra hne
      exact hkeep ⟨hdead.1, hdead.2, hne⟩
    rw [if_pos hdead, if_pos hold]
    rfl
  · rw [if_neg hdead]
    rfl

theorem turn_ready (old : Word) (hlive : s.curr ∈ s.kernel.live)
    (hready : (s.kernel.thread s.curr).state = .ready) :
    turn old s = ({ s with chosen := s.curr }, .done) := by
  simp [turn, hlive, hready]

theorem turn_free (old : Word) (hlive : s.curr ∈ s.kernel.live) (hprev : s.prev ∈ s.kernel.live)
    (hdead : (s.kernel.thread s.curr).state = .dead) (hid : (s.kernel.thread s.curr).id ≠ 0)
    (hold : s.curr ≠ old) (hqueue : s.free.kernel.readyQueue ≠ 0) :
    turn old s = (s.free, .test) := by
  simp only [turn, not_not.mpr hlive, not_not.mpr hprev, if_false]
  rw [if_pos ⟨hdead, hid⟩, if_neg hold, if_neg hqueue]

/-! What freeing the thread at `curr` does. -/

theorem free_readyQueue (s : Search) : s.free.kernel.readyQueue =
    if s.kernel.readyQueue = s.curr then s.prev else s.kernel.readyQueue := rfl

theorem free_live (s : Search) : s.free.kernel.live = s.kernel.live.erase s.curr := rfl

theorem free_next (s : Search) : s.free.kernel.next =
    Function.update s.kernel.next s.prev (s.kernel.next s.curr) :=
  setNext_next s.kernel s.prev (s.kernel.next s.curr)

theorem free_curr (s : Search) (hne : s.curr ≠ s.prev) : s.free.curr = s.kernel.next s.curr := by
  have hcurr : s.free.curr =
      (s.kernel.setNext s.prev (s.kernel.next s.curr)).next s.curr := rfl
  rw [hcurr, setNext_next, Function.update_of_ne hne]

theorem free_fields {β : Type} (s : Search) (g : Thread → β)
    (hg : ∀ t w, g { t with next := w } = g t) (p : Word) :
    g (s.free.kernel.thread p) = g (s.kernel.thread p) :=
  setNext_fields s.kernel s.prev p (s.kernel.next s.curr) g hg

namespace Walk

/-- Before the first turn. -/
theorem begin (hring : Ring k.next l) (hlive : ∀ p ∈ l, p ∈ k.live) (hzero : 0 ∉ k.live)
    (hlast : l.getLast? = some k.readyQueue) (hhead : l.head? = some (k.next k.readyQueue)) :
    Walk k l (searchStart k) [] l where
  split := rfl
  nodup := hring.nodup
  ring := (List.append_nil l).symm ▸ hring
  curr := (List.append_nil l).symm ▸ hhead
  prev := (List.append_nil l).symm ▸ hlast
  tail := hlast
  live := by simp [searchStart]
  onRing := hlive
  zero := hzero
  state := fun _ => rfl
  id := fun _ => rfl
  current := rfl

theorem keep_sublist : (keep k done).Sublist done := List.filter_sublist

/-- The threads of the ring are not freed. -/
theorem mem_live (h : Walk k l s done todo) {p : Word} (hp : p ∈ todo ++ keep k done) :
    p ∈ s.kernel.live := by
  rw [h.live]
  rcases List.mem_append.mp hp with hp | hp
  · refine ⟨h.onRing p (by rw [h.split]; simp [hp]), fun hdone => ?_⟩
    have hnodup := h.nodup
    rw [h.split] at hnodup
    exact (List.nodup_append.mp hnodup).2.2 p hdone.1 p hp rfl
  · obtain ⟨hdone, hkeep⟩ := List.mem_filter.mp hp
    refine ⟨h.onRing p (by rw [h.split]; simp [hdone]), fun hreap => ?_⟩
    simp [hreap.2] at hkeep

/-- What is left of the ring, in its old order. -/
theorem filter_eq (h : Walk k l s done todo) :
    l.filter (fun p => p ∈ s.kernel.live) = keep k done ++ todo := by
  rw [h.split, List.filter_append]
  congr 1
  · refine List.filter_congr fun p hp => ?_
    have hk := h.onRing p (by rw [h.split]; simp [hp])
    simp [h.live, hk, hp]
  · refine List.filter_eq_self.mpr fun p hp => ?_
    simpa using h.mem_live (p := p) (by simp [hp])

theorem curr_eq (h : Walk k l s done (x :: todo)) : s.curr = x := by
  simpa [eq_comm] using h.curr

theorem keep_concat_of_reapable (hx : k.Reapable x) : keep k (done ++ [x]) = keep k done := by
  simp [keep, hx]

theorem keep_concat_of_not (hx : ¬ k.Reapable x) :
    keep k (done ++ [x]) = keep k done ++ [x] := by
  simp [keep, hx]

/-- In a ring the front is what the last one links to. -/
theorem next_last (h : Ring s.kernel.next (x :: l)) (hne : l ≠ []) :
    l.head? = some (s.kernel.next x) := by
  cases l with
  | nil => exact absurd rfl hne
  | cons y l => rw [h.next_cons]; rfl

/-- One turn passes one thread, which is kept or freed. -/
theorem turn (h : Walk k l s done (x :: todo)) (hready : (k.thread x).state ≠ .ready)
    (hne : todo ++ keep k (done ++ [x]) ≠ []) :
    ∃ s', Threads.turn k.currentThread s = (s', .test) ∧ Walk k l s' (done ++ [x]) todo ∧
      s'.chosen = s.chosen := by
  have hx := h.curr_eq
  have hlive : s.curr ∈ s.kernel.live := h.mem_live (by simp [hx])
  have hsplit : l = done ++ [x] ++ todo := by simpa using h.split
  by_cases hreap : k.Reapable x
  · -- the thread is taken off the ring
    rw [keep_concat_of_reapable hreap] at hne
    obtain ⟨m, hm⟩ : ∃ m, todo ++ keep k done = m ++ [s.prev] := by
      obtain ⟨m, p, hmp⟩ := (List.eq_nil_or_concat (todo ++ keep k done)).resolve_left hne
      have hprev := h.prev
      rw [List.concat_eq_append] at hmp
      rw [List.cons_append, hmp, ← List.cons_append, List.getLast?_concat] at hprev
      exact ⟨m, by rw [hmp, Option.some.inj hprev]⟩
    have hring := h.ring
    rw [List.cons_append, hm] at hring
    have hprevmem : s.prev ∈ todo ++ keep k done := by rw [hm]; simp
    have hprev : s.prev ∈ s.kernel.live := h.mem_live (List.mem_cons_of_mem x hprevmem)
    have hxprev : s.curr ≠ s.prev := by
      rw [hx]
      rintro rfl
      exact (List.nodup_cons.mp hring.nodup).1 (by simp)
    have hxkeep : x ∉ keep k done := by
      have hnodup := (List.nodup_cons.mp h.ring.nodup).1
      exact fun hmem => hnodup (by simp [hmem])
    have htail : (keep k done ++ todo).getLast? = some s.free.kernel.readyQueue := by
      rw [free_readyQueue]
      have htail := h.tail
      rcases List.eq_nil_or_concat todo with rfl | ⟨todo', p, rfl⟩
      · have hqueue : s.kernel.readyQueue = s.curr := by simpa [hx, eq_comm] using htail
        rw [if_pos hqueue, List.append_nil]
        simpa using congrArg List.getLast? hm
      · rw [List.concat_eq_append] at htail ⊢
        rw [← List.cons_append, ← List.append_assoc, List.getLast?_concat] at htail
        have hp : s.kernel.readyQueue = p := (Option.some.inj htail).symm
        have hpx : p ≠ x := by
          rintro rfl
          exact (List.nodup_cons.mp h.ring.nodup).1 (by simp)
        rw [hx, hp, if_neg hpx]
        simp
    have hqueue : s.free.kernel.readyQueue ≠ 0 := by
      intro hzero
      rw [hzero] at htail
      have hmem : (0 : Word) ∈ x :: todo ++ keep k done := by
        have := List.mem_of_getLast? htail
        simp only [List.mem_append, List.mem_cons] at this ⊢
        tauto
      exact h.zero ((h.live 0).mp (h.mem_live hmem)).1
    refine ⟨s.free, turn_free _ hlive hprev ?_ ?_ ?_ hqueue, ?_, rfl⟩
    · rw [h.state, hx]
      exact hreap.1
    · rw [h.id, hx]
      exact hreap.2.1
    · rw [hx]
      exact hreap.2.2
    · refine ⟨hsplit, h.nodup, ?_, ?_, ?_, ?_, ?_, h.onRing, h.zero, ?_, ?_, h.current⟩
      · rw [keep_concat_of_reapable hreap, free_next, hx, hm]
        exact hring.unlink
      · rw [keep_concat_of_reapable hreap, free_curr s hxprev, hx]
        exact next_last (s := s) (h.ring) hne
      · rw [keep_concat_of_reapable hreap, hm]
        simp [Search.free]
      · rw [keep_concat_of_reapable hreap]
        exact htail
      · intro p
        rw [free_live, Finset.mem_erase, h.live, hx, List.mem_append, List.mem_singleton]
        constructor
        · rintro ⟨hpx, hpk, hpd⟩
          exact ⟨hpk, fun hboth => hboth.1.elim (fun hp => hpd ⟨hp, hboth.2⟩) hpx⟩
        · rintro ⟨hpk, hpd⟩
          refine ⟨?_, hpk, fun hboth => hpd ⟨.inl hboth.1, hboth.2⟩⟩
          rintro rfl
          exact hpd ⟨.inr rfl, hreap⟩
      · exact fun p => (free_fields s Thread.state (fun _ _ => rfl) p).trans (h.state p)
      · exact fun p => (free_fields s Thread.id (fun _ _ => rfl) p).trans (h.id p)
  · -- the thread is kept
    refine ⟨_, turn_skip _ hlive ?_ ?_, ?_, rfl⟩
    · rw [h.state, hx]
      exact hready
    · rw [h.state, h.id, hx]
      exact hreap
    · have hrot : Ring s.kernel.next (todo ++ (keep k done ++ [x])) := by
        have hring := Ring.rotate (l := [x]) (m := todo ++ keep k done) h.ring
        rwa [List.append_assoc] at hring
      refine ⟨hsplit, h.nodup, ?_, ?_, ?_, ?_, ?_, h.onRing, h.zero, h.state, h.id, h.current⟩
      · rw [keep_concat_of_not hreap]
        exact hrot
      · rw [keep_concat_of_not hreap, hx]
        have hring := h.ring
        rw [List.cons_append] at hring
        cases hm : todo ++ keep k done with
        | nil =>
          rw [hm] at hring
          rw [← List.append_assoc, hm, ring_singleton.mp hring]
          rfl
        | cons y m =>
          rw [hm] at hring
          rw [← List.append_assoc, hm, hring.next_cons]
          rfl
      · rw [keep_concat_of_not hreap, hx, ← List.append_assoc]
        simp
      · rw [keep_concat_of_not hreap, List.append_assoc]
        exact h.tail
      · intro p
        rw [h.live, List.mem_append, List.mem_singleton]
        refine and_congr_right fun _ => not_congr ⟨fun hp => ⟨.inl hp.1, hp.2⟩, ?_⟩
        rintro ⟨hp | rfl, hpr⟩
        · exact ⟨hp, hpr⟩
        · exact absurd hpr hreap

/-- The loop passes the threads that are not READY, as long as there are more. -/
theorem search_passes {before : List Word} (hstart : l.head? = some start) (htodo : todo ≠ [])
    (hready : ∀ p ∈ before, (k.thread p).state ≠ .ready) :
    ∀ {s done}, Walk k l s done (before ++ todo) → ∃ s', Walk k l s' (done ++ before) todo ∧
      s'.chosen = s.chosen ∧ ∀ n, search k.currentThread start (before.length + n) s =
        search k.currentThread start n s' := by
  induction before with
  | nil =>
    intro s done h
    exact ⟨s, by simpa using h, rfl, by simp⟩
  | cons x before ih =>
    intro s done h
    rw [List.cons_append] at h
    obtain ⟨s₁, hturn, hwalk, hchosen⟩ := h.turn (hready x (by simp)) (by simp [htodo])
    obtain ⟨s', hwalk', hchosen', hsearch⟩ := ih (fun p hp => hready p (by simp [hp])) hwalk
    refine ⟨s', by simpa using hwalk', hchosen'.trans hchosen, fun n => ?_⟩
    -- the thread it started at is behind
    have hne : s₁.curr ≠ start := by
      rintro rfl
      have hcurr : s₁.curr ∈ before ++ todo := by
        obtain ⟨y, rest, hrest⟩ := List.exists_cons_of_ne_nil
          (l := before ++ todo) (by simp [htodo])
        have hhead := hwalk.curr
        rw [hrest, List.cons_append, List.head?_cons] at hhead
        rw [hrest, ← Option.some.inj hhead]
        exact List.mem_cons_self
      have hdone : s₁.curr ∈ done ++ [x] := by
        have hhead := hstart
        rw [hwalk.split, List.head?_append_of_ne_nil _ (by simp)] at hhead
        exact List.mem_of_head? hhead
      have hnodup := hwalk.nodup
      rw [hwalk.split] at hnodup
      exact (List.nodup_append.mp hnodup).2.2 _ hdone _ hcurr rfl
    rw [List.length_cons, Nat.add_right_comm, search_test hturn hne, hsearch n]

/-- The loop stops at the first READY thread. -/
theorem search_finds {before after : List Word} (h : Walk k l s done (before ++ x :: after))
    (hstart : l.head? = some start) (hbefore : ∀ p ∈ before, (k.thread p).state ≠ .ready)
    (hx : (k.thread x).state = .ready) :
    ∃ s', Walk k l s' (done ++ before) (x :: after) ∧ s'.chosen = x ∧
      search k.currentThread start (before.length + 1) s = (s', .ended) := by
  obtain ⟨s₁, hwalk, -, hsearch⟩ := search_passes hstart (by simp) hbefore h
  have hcurr := hwalk.curr_eq
  have hturn := turn_ready k.currentThread (hwalk.mem_live (by simp [hcurr]))
    (by rw [hwalk.state, hcurr, hx])
  refine ⟨{ s₁ with chosen := s₁.curr }, ?_, hcurr, ?_⟩
  · exact ⟨hwalk.split, hwalk.nodup, hwalk.ring, hwalk.curr, hwalk.prev, hwalk.tail, hwalk.live,
      hwalk.onRing, hwalk.zero, hwalk.state, hwalk.id, hwalk.current⟩
  · rw [hsearch 1, search_done hturn]

/-- Without a READY thread the loop comes around, if it keeps a thread at all. -/
theorem search_around (h : Walk k l s [] l) (hstart : l.head? = some start)
    (hready : ∀ p ∈ l, (k.thread p).state ≠ .ready) (hkeep : keep k l ≠ []) :
    ∃ s', Walk k l s' l [] ∧ s'.chosen = s.chosen ∧ ∀ n,
      search k.currentThread start (l.length + n) s =
        if s'.curr = start then (s', .ended) else search k.currentThread start n s' := by
  obtain ⟨m, x, hl⟩ := (List.eq_nil_or_concat l).resolve_left (by
    rintro rfl
    simp at hstart)
  rw [List.concat_eq_append] at hl
  have hm : ∀ p ∈ m, (k.thread p).state ≠ .ready := fun p hp => hready p (by simp [hl, hp])
  rw [hl] at h hkeep hstart hready
  obtain ⟨s₁, hwalk, hchosen, hsearch⟩ := search_passes hstart (by simp) hm h
  obtain ⟨s', hturn, hwalk', hchosen'⟩ := hwalk.turn (hready x (by simp)) (by simpa using hkeep)
  rw [hl]
  refine ⟨s', by simpa using hwalk', hchosen'.trans hchosen, fun n => ?_⟩
  have hlen : (m ++ [x]).length + n = m.length + (n + 1) := by
    rw [List.length_append, List.length_singleton]
    omega
  rw [hlen, hsearch]
  split_ifs with hcurr
  · exact search_start hturn hcurr
  · exact search_test hturn hcurr

/-- With no thread READY and none to free, the loop goes round and round, unless it meets
the thread it started at. -/
theorem search_spins (h : Walk k l s l []) (hready : ∀ p ∈ l, (k.thread p).state ≠ .ready)
    (hstart : start ∉ keep k l) (n : ℕ) :
    ∀ {t : Search}, t.kernel = s.kernel → t.curr ∈ keep k l →
      ∃ s', search k.currentThread start n t = (s', .running) := by
  induction n with
  | zero => exact fun {t} _ _ => ⟨t, rfl⟩
  | succ n ih =>
    intro t hkernel hcurr
    have hring : Ring s.kernel.next (keep k l) := h.ring
    obtain ⟨hmem, hkeep⟩ := List.mem_filter.mp hcurr
    have hkeep : ¬ k.Reapable t.curr := by simpa using hkeep
    have hturn := turn_skip (s := t) k.currentThread
      (by rw [hkernel]; exact h.mem_live (by simpa using hcurr))
      (by rw [hkernel, h.state]; exact hready _ hmem)
      (by rw [hkernel, h.state, h.id]; exact hkeep)
    have hnext : t.kernel.next t.curr ∈ keep k l := hkernel ▸ hring.next_mem hcurr
    have hne : t.kernel.next t.curr ≠ start := fun heq => hstart (heq ▸ hnext)
    rw [search_test hturn hne]
    exact ih hkernel hnext

/-- When every thread of the ring is freed, the loop is left with a pointer to the last
of them. -/
theorem search_dangles (h : Walk k l s [] l) (hstart : l.head? = some start)
    (hchosen : s.chosen = start) (hkeep : keep k l = [])
    (hready : ∀ p ∈ l, (k.thread p).state ≠ .ready) (n : ℕ) :
    ∃ s', search k.currentThread start (l.length + (n + 1)) s = (s', .fault) ∨
      search k.currentThread start (l.length + (n + 1)) s = (s', .ended) ∧
        s'.chosen ∉ s'.kernel.live := by
  obtain ⟨m, x, hl⟩ := (List.eq_nil_or_concat l).resolve_left (by
    rintro rfl
    simp at hstart)
  rw [List.concat_eq_append] at hl
  have hm : ∀ p ∈ m, (k.thread p).state ≠ .ready := fun p hp => hready p (by simp [hl, hp])
  rw [hl] at h hkeep hstart hready
  obtain ⟨s₁, hwalk, hchosen₁, hsearch⟩ := search_passes hstart (by simp) hm h
  have hreap : k.Reapable x := by
    by_contra hnot
    rw [keep_concat_of_not hnot] at hkeep
    simp at hkeep
  have hnil : keep k m = [] := by rwa [keep_concat_of_reapable hreap] at hkeep
  -- one thread is left, its own successor
  have hring := hwalk.ring
  have hprev := hwalk.prev
  have htail := hwalk.tail
  have hcurr := hwalk.curr_eq
  simp only [List.nil_append, hnil, List.append_nil, List.getLast?_singleton,
    Option.some.injEq] at hring hprev htail
  have hself := ring_singleton.mp hring
  have hlive : s₁.curr ∈ s₁.kernel.live := hwalk.mem_live (by simp [hcurr])
  have hx0 : x ≠ 0 := by
    rintro rfl
    exact hwalk.zero ((hwalk.live 0).mp (hcurr ▸ hlive)).1
  have hturn := turn_free k.currentThread hlive (by rw [← hprev, ← hcurr]; exact hlive)
    (by rw [hwalk.state, hcurr]; exact hreap.1) (by rw [hwalk.id, hcurr]; exact hreap.2.1)
    (by rw [hcurr]; exact hreap.2.2)
    (by rw [free_readyQueue, if_pos (by rw [← htail, hcurr]), ← hprev]; exact hx0)
  have hfree : s₁.free.curr = x := by
    have hcurr' : s₁.free.curr =
        (s₁.kernel.setNext s₁.prev (s₁.kernel.next s₁.curr)).next s₁.curr := rfl
    rw [hcurr', setNext_next, ← hprev, hcurr, Function.update_self, hself]
  have hgone : x ∉ s₁.free.kernel.live := by
    rw [free_live, hcurr]
    exact Finset.notMem_erase x _
  have hlen : (m ++ [x]).length + (n + 1) = m.length + (n + 1 + 1) := by
    rw [List.length_append, List.length_singleton]
    omega
  rw [hl, hlen, hsearch]
  by_cases hxs : x = start
  · refine ⟨s₁.free, .inr ⟨search_start hturn (hfree.trans hxs), ?_⟩⟩
    have hch : s₁.free.chosen = x := (hchosen₁.trans hchosen).trans hxs.symm
    rwa [hch]
  · refine ⟨s₁.free, .inl ?_⟩
    rw [search_test hturn (by rw [hfree]; exact hxs), search]
    simp only [Threads.turn, hfree, hgone, not_false_eq_true, if_true]

/-- What the ring is after a part of it was passed. -/
theorem settled (h : Walk k l s done todo) (hl : OnRing k l) {k' : Kernel}
    (hnext : k'.next = s.kernel.next) (hlive : k'.live = s.kernel.live)
    (hqueue : k'.readyQueue ∈ todo ++ keep k done) (hcurrent : k'.currentThread ∈ s.kernel.live) :
    Settled k k' := by
  refine ⟨.inr ⟨l, todo ++ keep k done, hl, ⟨?_, hqueue, ?_⟩, ?_⟩, ?_, ?_, ?_⟩
  · rw [hnext]
    exact h.ring
  · intro p hp
    rw [hlive]
    exact h.mem_live hp
  · rw [hlive, h.filter_eq]
    exact List.isRotated_append
  · intro p hp
    rw [hlive] at hp
    exact ((h.live p).mp hp).1
  · intro p hp hgone
    have hfreed : p ∈ done ∧ k.Reapable p := by
      by_contra hnot
      exact hgone (hlive ▸ (h.live p).mpr ⟨hp, hnot⟩)
    refine ⟨(hl.ring.reaches_iff hl.entry).mpr ?_, hfreed.2⟩
    rw [h.split]
    exact List.mem_append_left _ hfreed.1
  · rwa [hlive]

/-- The part after the loop, when the chosen thread is on the ring. -/
theorem dispatch_settles (h : Walk k l s done todo) (hl : OnRing k l)
    (hchosen : s.chosen ∈ todo ++ keep k done) (hcurrent : k.currentThread ∈ k.live) :
    Settles k (dispatch s.kernel k.currentThread s.chosen) := by
  have hold : k.currentThread ∈ s.kernel.live :=
    (h.live _).mpr ⟨hcurrent, fun hboth => hboth.2.2.2 rfl⟩
  have hnew := h.mem_live hchosen
  unfold dispatch
  rw [if_neg (by simp [hold, hnew])]
  by_cases hready : (s.kernel.thread s.chosen).state = .ready
  · -- the switch leaves the links and the blocks alone
    rw [if_neg (not_not.mpr hready)]
    split_ifs
    · refine h.settled hl ?_ ?_ ?_ ?_
      · rw [setTssStack_next, select_next]
      · rw [setTssStack_live, select_live]
      · rw [setTssStack_readyQueue, select_readyQueue]
        exact hchosen
      · rw [setTssStack_currentThread, select_currentThread]
        exact hnew
    · refine h.settled hl (select_next _ _ _) (select_live _ _ _) ?_ hnew
      rw [select_readyQueue]
      exact hchosen
  · rw [if_pos hready]
    by_cases hrunning : (s.kernel.thread k.currentThread).state = .running
    · rw [if_pos hrunning]
      refine h.settled hl rfl rfl ?_ ?_
      · have hmem := List.mem_of_getLast? h.tail
        simp only [List.mem_append] at hmem ⊢
        exact hmem.symm
      · rwa [h.current]
    · rw [if_neg hrunning]
      trivial

end Walk

end Loop

/-! ### A call of `schedule` -/

section Call

variable {k : Kernel} {l : List Word}

/-- The ring, from the thread the search starts at to the one at its end. -/
theorem OnRing.normal (h : OnRing k l) : ∃ l, OnRing k l ∧ l.getLast? = some k.readyQueue ∧
    l.head? = some (k.next k.readyQueue) := by
  obtain ⟨l₁, l₂, rfl⟩ := List.append_of_mem h.entry
  have hring : Ring k.next (l₂ ++ (l₁ ++ [k.readyQueue])) := by
    refine Ring.rotate ?_
    simpa using h.ring
  have hmem : ∀ p, p ∈ l₂ ++ (l₁ ++ [k.readyQueue]) ↔ p ∈ l₁ ++ k.readyQueue :: l₂ := by
    intro p
    simp only [List.mem_append, List.mem_cons, List.not_mem_nil, or_false]
    tauto
  refine ⟨_, ⟨hring, (hmem _).mpr h.entry, fun p hp => h.live p ((hmem p).mp hp)⟩, ?_, ?_⟩
  · rw [← List.append_assoc, List.getLast?_concat]
  · rw [← List.append_assoc] at hring ⊢
    obtain ⟨-, hchain⟩ := ring_concat_iff.mp hring
    rw [List.isChain_cons] at hchain
    cases hhead : (l₂ ++ l₁ ++ [k.readyQueue]).head? with
    | none => simp at hhead
    | some b => rw [hchain.1 b hhead]

/-- With the search over, the call goes on after the loop. -/
theorem schedule_of_over {turns : ℕ} {s : Search} (hinv : RingInv k) (hqueue : k.readyQueue ≠ 0)
    (hlive : k.readyQueue ∈ k.live) (h : searchFrom k turns = (s, .ended)) :
    schedule turns k = dispatch s.kernel k.currentThread s.chosen := by
  have hcurrent : k.currentThread ≠ 0 := fun hzero => hinv.zero (hzero ▸ hinv.current)
  rw [schedule, if_neg (not_or.mpr ⟨hcurrent, hqueue⟩), if_neg (not_not.mpr hlive), h]

/-- The first READY thread of a list that has one. -/
theorem exists_first_ready (h : ∃ p ∈ l, (k.thread p).state = .ready) :
    ∃ before x after, l = before ++ x :: after ∧ (k.thread x).state = .ready ∧
      ∀ p ∈ before, (k.thread p).state ≠ .ready := by
  obtain ⟨p, hp, hpready⟩ := h
  have hfind : l.find? (fun p => (k.thread p).state = .ready) ≠ none := by
    rw [ne_eq, List.find?_eq_none]
    exact fun hnone => hnone p hp (by simpa using hpready)
  obtain ⟨x, hx⟩ := Option.ne_none_iff_exists'.mp hfind
  obtain ⟨hxready, before, after, hl, hbefore⟩ := List.find?_eq_some_iff_append.mp hx
  exact ⟨before, x, after, hl, by simpa using hxready, fun p hp => by simpa using hbefore p hp⟩

/-- The search ends at the first READY thread of the ring, or comes around to the thread it started
at without one. -/
theorem exists_searchFrom (hinv : RingInv k) (hends : k.SearchEnds) (hqueue : k.readyQueue ≠ 0) :
    ∃ l turns s done todo, OnRing k l ∧ Walk k l s done todo ∧ s.chosen ∈ todo ++ keep k done ∧
      ((k.thread s.chosen).state = .ready ∨ ∀ p ∈ l, (k.thread p).state ≠ .ready) ∧
      searchFrom k turns = (s, .ended) := by
  obtain ⟨l₀, hl₀⟩ := hinv.ring.resolve_left hqueue
  obtain ⟨l, hl, hlast, hhead⟩ := hl₀.normal
  have hwalk := Walk.begin hl.ring hl.live hinv.zero hlast hhead
  by_cases hready : ∃ p ∈ l, (k.thread p).state = .ready
  · -- the search stops at the first READY thread
    obtain ⟨before, x, after, rfl, hx, hbefore⟩ := exists_first_ready hready
    obtain ⟨s, hwalk', hchosen, hsearch⟩ := hwalk.search_finds hhead hbefore hx
    exact ⟨_, before.length + 1, s, _, _, hl, hwalk', by simp [hchosen], .inl (hchosen ▸ hx),
      hsearch⟩
  · -- the search comes around to the thread it started at
    have hnot : ∀ p ∈ l, (k.thread p).state ≠ .ready := fun p hp hpr => hready ⟨p, hp, hpr⟩
    have hstart : ¬ k.Reapable (k.next k.readyQueue) := by
      rcases hends with hzero | hstart | ⟨p, hp, hpready⟩
      · exact absurd hzero hqueue
      · exact hstart
      · exact absurd hpready (hnot p ((hl.ring.reaches_iff hl.entry).mp hp))
    have hkeep : (keep k l).head? = some (k.next k.readyQueue) := by
      obtain ⟨rest, rfl⟩ : ∃ rest, l = k.next k.readyQueue :: rest := by
        cases l with
        | nil => simp at hhead
        | cons y rest => exact ⟨rest, by rw [Option.some.inj hhead]⟩
      simp [keep, hstart]
    obtain ⟨s, hwalk', hchosen, hsearch⟩ := hwalk.search_around hhead hnot (by
      rintro hnil
      simp [hnil] at hkeep)
    have hcurr : s.curr = k.next k.readyQueue := by
      have hcurr := hwalk'.curr
      rw [List.nil_append, hkeep] at hcurr
      exact (Option.some.inj hcurr).symm
    have hover := hsearch 0
    rw [if_pos hcurr] at hover
    refine ⟨l, l.length + 0, s, _, _, hl, hwalk', ?_, .inr hnot, hover⟩
    rw [hchosen, List.nil_append]
    exact List.mem_of_head? hkeep

/-- When the search ends, the call does, and the ring is in order. -/
theorem settles_of_searchEnds (hinv : RingInv k) (hends : k.SearchEnds) :
    ∃ turns, Settles k (schedule turns k) := by
  by_cases hqueue : k.readyQueue = 0
  · refine ⟨0, ?_⟩
    rw [schedule, if_pos (.inr hqueue)]
    exact ⟨.inl ⟨hqueue, rfl⟩, subset_rfl, fun p hp hnot => absurd hp hnot, hinv.current⟩
  · obtain ⟨l, turns, s, done, todo, hl, hwalk, hchosen, -, hsearch⟩ :=
      exists_searchFrom hinv hends hqueue
    refine ⟨turns, ?_⟩
    rw [schedule_of_over hinv hqueue (hl.live _ hl.entry) hsearch]
    exact hwalk.dispatch_settles hl hchosen hinv.current

/-- When the search does not end, the call never comes back, or follows a pointer to a freed
thread. -/
theorem schedule_of_not_searchEnds (hinv : RingInv k) (hends : ¬ k.SearchEnds) (turns : ℕ) :
    schedule turns k = .error .outOfFuel ∨ schedule turns k = .error .fault := by
  simp only [Kernel.SearchEnds, not_or, not_not] at hends
  obtain ⟨hqueue, hstart, hnone⟩ := hends
  obtain ⟨l₀, hl₀⟩ := hinv.ring.resolve_left hqueue
  obtain ⟨l, hl, hlast, hhead⟩ := hl₀.normal
  have hlive := hl.live _ hl.entry
  have hwalk := Walk.begin hl.ring hl.live hinv.zero hlast hhead
  have hnot : ∀ p ∈ l, (k.thread p).state ≠ .ready := by
    intro p hp hready
    exact hnone ⟨p, (hl.ring.reaches_iff hl.entry).mpr hp, hready⟩
  have hnotkept : k.next k.readyQueue ∉ keep k l := by
    intro hmem
    simpa [hstart] using (List.mem_filter.mp hmem).2
  -- with more turns the search is not over, or is left with a freed thread
  have hmore : ∃ m s, search k.currentThread (k.next k.readyQueue) (turns + m) (searchStart k) =
        (s, .running) ∨
      search k.currentThread (k.next k.readyQueue) (turns + m) (searchStart k) = (s, .fault) ∨
      search k.currentThread (k.next k.readyQueue) (turns + m) (searchStart k) = (s, .ended) ∧
        s.chosen ∉ s.kernel.live := by
    by_cases hkeep : keep k l = []
    · obtain ⟨s, hs⟩ := hwalk.search_dangles hhead rfl hkeep hnot turns
      refine ⟨l.length + 1, s, .inr ?_⟩
      rwa [show turns + (l.length + 1) = l.length + (turns + 1) by omega]
    · obtain ⟨s, hwalk', -, hsearch⟩ := hwalk.search_around hhead hnot hkeep
      have hcurr : s.curr ∈ keep k l := by
        have hcurr := hwalk'.curr
        rw [List.nil_append] at hcurr
        exact List.mem_of_head? hcurr
      obtain ⟨s', hs'⟩ := hwalk'.search_spins hnot hnotkept turns rfl hcurr
      refine ⟨l.length, s', .inl ?_⟩
      rw [Nat.add_comm, hsearch turns, if_neg (fun heq => hnotkept (by rwa [← heq])), hs']
  obtain ⟨m, s, hs⟩ := hmore
  cases hsearch : searchFrom k turns with
  | mk s' e =>
    have hcurrent : k.currentThread ≠ 0 := fun hzero => hinv.zero (hzero ▸ hinv.current)
    rw [schedule, if_neg (not_or.mpr ⟨hcurrent, hqueue⟩), if_neg (not_not.mpr hlive), hsearch]
    cases e with
    | running => exact .inl rfl
    | fault => exact .inr rfl
    | ended =>
      have hmono := search_mono (by simp) hsearch m
      rcases hs with hs | hs | ⟨hs, hgone⟩
      · cases hmono.symm.trans hs
      · cases hmono.symm.trans hs
      · obtain rfl : s' = s := congrArg Prod.fst (hmono.symm.trans hs)
        dsimp only
        rw [dispatch, if_pos (.inl hgone)]
        exact .inr rfl

/-- When the search does not end, the call does not go well with any number of turns. -/
theorem not_settles_of_not_searchEnds (hinv : RingInv k) (hends : ¬ k.SearchEnds) (turns : ℕ) :
    ¬ Settles k (schedule turns k) := by
  rcases schedule_of_not_searchEnds hinv hends turns with hfuel | hfault
  · rw [hfuel]
    exact id
  · rw [hfault]
    exact id

/-- A call of `schedule` that comes to an end does so with any larger number of turns. -/
theorem schedule_mono {turns : ℕ} {r : Outcome (Kernel × Option (Word × Word))}
    (h : schedule turns k = r) (hr : r ≠ .error .outOfFuel) (m : ℕ) :
    schedule (turns + m) k = r := by
  unfold schedule at h ⊢
  split_ifs at h ⊢ with hnull hlive
  · exact h
  · cases hsearch : searchFrom k turns with
    | mk s e =>
      rw [hsearch] at h
      by_cases he : e = .running
      · subst he
        exact absurd h.symm hr
      · have hmono : searchFrom k (turns + m) = (s, e) := search_mono he hsearch m
        rw [hmono]
        exact h
  · exact h

/-- Calls that come to an end do so alike. -/
theorem schedule_unique {n m : ℕ} (hn : schedule n k ≠ .error .outOfFuel)
    (hm : schedule m k ≠ .error .outOfFuel) : schedule n k = schedule m k := by
  have hmore := schedule_mono rfl hm n
  rw [Nat.add_comm, schedule_mono rfl hn m] at hmore
  exact hmore

/-- When the search ends, every call that comes back went well. -/
theorem settled_of_ok (hinv : RingInv k) (hends : k.SearchEnds) {turns : ℕ}
    {k' : Kernel} {switch : Option (Word × Word)} (hok : schedule turns k = .ok (k', switch)) :
    Settled k k' := by
  obtain ⟨n, hn⟩ := settles_of_searchEnds hinv hends
  have hnot : schedule n k ≠ .error .outOfFuel := by
    intro hfuel
    rw [hfuel] at hn
    exact hn
  have hcame : schedule turns k ≠ .error .outOfFuel := by simp [hok]
  rw [← schedule_unique hcame hnot, hok] at hn
  exact hn

/-- A call of `schedule` goes well exactly when its search ends. -/
theorem settles_iff_searchEnds (hinv : RingInv k) :
    (∃ turns, Settles k (schedule turns k)) ↔ k.SearchEnds := by
  refine ⟨?_, settles_of_searchEnds hinv⟩
  rintro ⟨turns, h⟩
  by_contra hends
  exact not_settles_of_not_searchEnds hinv hends turns h

end Call

end KyroOS.Threads

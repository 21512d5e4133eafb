import Mathlib.Logic.Relation

/-!
# Labelled transition systems and runs that keep a condition

A system is given by its initial states and its labelled steps. A run may be
required to meet a condition at every step; the condition reads the state before
the step and the label, so it can exclude the steps that take a bad branch.
The unconditional runs are those that meet the condition that always holds.

## Main definitions

* `System` — initial states and labelled steps
* `System.RunsTo C` — a run all of whose steps meet `C`
* `System.ReachableUnder C` — what such runs reach from the initial states
* `System.Outputs out` — a run with what its steps put out
* `execAll` — the run of a partial step function along a list of choices

## Main results

* `System.ReachableUnder.invariant` — what holds initially and is preserved by
  every step that meets `C` holds of every state reached under `C`
* `System.ReachableUnder.invariant₂` — the same, with another invariant at hand
* `System.Outputs.simulate` — a system puts out what one that simulates it does
* `System.runsTo_of_execAll` — an executed list of choices is a run
-/

namespace Transition

variable {σ α : Type*}

/-- A labelled transition system. -/
structure System (σ α : Type*) where
  /-- The states a run may start from. -/
  init : σ → Prop
  /-- The labelled steps. -/
  step : σ → α → σ → Prop

namespace System

variable {S : System σ α} {C D : σ → α → Prop} {s t u : σ}

/-- One step of `S` whose source and label meet `C`. -/
def Allowed (S : System σ α) (C : σ → α → Prop) (s t : σ) : Prop :=
  ∃ a, C s a ∧ S.step s a t

/-- A run of `S` all of whose steps meet `C`. -/
def RunsTo (S : System σ α) (C : σ → α → Prop) : σ → σ → Prop :=
  Relation.ReflTransGen (S.Allowed C)

/-- The states reached from an initial state by steps that all meet `C`. -/
def ReachableUnder (S : System σ α) (C : σ → α → Prop) (t : σ) : Prop :=
  ∃ s, S.init s ∧ S.RunsTo C s t

/-- The states reached from an initial state. -/
def Reachable (S : System σ α) (t : σ) : Prop :=
  S.ReachableUnder (fun _ _ => True) t

theorem RunsTo.refl : S.RunsTo C s s := Relation.ReflTransGen.refl

theorem RunsTo.trans (h : S.RunsTo C s t) (h' : S.RunsTo C t u) : S.RunsTo C s u :=
  Relation.ReflTransGen.trans h h'

theorem RunsTo.tail (h : S.RunsTo C s t) (hstep : S.Allowed C t u) : S.RunsTo C s u :=
  Relation.ReflTransGen.tail h hstep

theorem RunsTo.head (hstep : S.Allowed C s t) (h : S.RunsTo C t u) : S.RunsTo C s u :=
  Relation.ReflTransGen.head hstep h

theorem RunsTo.mono (h : S.RunsTo C s t) (hCD : ∀ s a, C s a → D s a) : S.RunsTo D s t :=
  Relation.ReflTransGen.mono (fun _ _ ⟨a, hC, hstep⟩ => ⟨a, hCD _ a hC, hstep⟩) _ _ h

/-- What every step that meets `C` preserves, a whole run preserves. -/
theorem RunsTo.preserves {I : σ → Prop}
    (hstep : ∀ s a t, I s → C s a → S.step s a t → I t)
    (h : S.RunsTo C s t) (hs : I s) : I t := by
  induction h with
  | refl => exact hs
  | tail _ hlast ih =>
    obtain ⟨a, hC, ha⟩ := hlast
    exact hstep _ a _ ih hC ha

theorem ReachableUnder.init (h : S.init s) : S.ReachableUnder C s := ⟨s, h, .refl⟩

theorem ReachableUnder.runsTo (h : S.ReachableUnder C s) (h' : S.RunsTo C s t) :
    S.ReachableUnder C t := by
  obtain ⟨r, hr, hrun⟩ := h
  exact ⟨r, hr, hrun.trans h'⟩

theorem ReachableUnder.step {a : α} (h : S.ReachableUnder C s) (hC : C s a)
    (hstep : S.step s a t) : S.ReachableUnder C t :=
  h.runsTo (RunsTo.refl.tail ⟨a, hC, hstep⟩)

theorem ReachableUnder.mono (h : S.ReachableUnder C s) (hCD : ∀ s a, C s a → D s a) :
    S.ReachableUnder D s := by
  obtain ⟨r, hr, hrun⟩ := h
  exact ⟨r, hr, hrun.mono hCD⟩

theorem ReachableUnder.reachable (h : S.ReachableUnder C s) : S.Reachable s :=
  h.mono fun _ _ _ => trivial

/-- The invariant rule. -/
theorem ReachableUnder.invariant {I : σ → Prop} (hinit : ∀ s, S.init s → I s)
    (hstep : ∀ s a t, I s → C s a → S.step s a t → I t)
    (h : S.ReachableUnder C t) : I t := by
  obtain ⟨s, hs, hrun⟩ := h
  exact hrun.preserves hstep (hinit s hs)

/-- The invariant rule for an invariant `I` whose steps rely on an invariant `J`
established before. -/
theorem ReachableUnder.invariant₂ {I J : σ → Prop}
    (hJ : ∀ s, S.ReachableUnder C s → J s) (hinit : ∀ s, S.init s → I s)
    (hstep : ∀ s a t, J s → I s → C s a → S.step s a t → I t)
    (h : S.ReachableUnder C t) : I t := by
  obtain ⟨s, hs, hrun⟩ := h
  induction hrun with
  | refl => exact hinit s hs
  | tail hbefore hlast ih =>
    obtain ⟨a, hC, ha⟩ := hlast
    exact hstep _ a _ (hJ _ ⟨s, hs, hbefore⟩) ih hC ha

/-! ### Outputs -/

section Outputs

variable {τ α' β : Type*} {T : System τ α'} {out : σ → α → Option β} {out' : τ → α' → Option β}
  {R : σ → τ → Prop} {bs : List β} {x : τ}

/-- A run with what its steps put out, in order. -/
inductive Outputs (S : System σ α) (out : σ → α → Option β) (s : σ) : List β → σ → Prop
  | refl : Outputs S out s [] s
  | tail {bs : List β} {t u : σ} {a : α} (h : Outputs S out s bs t) (hstep : S.step t a u) :
    Outputs S out s (bs ++ (out t a).toList) u

/-- What every step preserves, together with the outputs so far. -/
theorem Outputs.preserves {I : List β → σ → Prop} (h : S.Outputs out s bs t) (hs : I [] s)
    (hstep : ∀ bs t a u, I bs t → S.step t a u → I (bs ++ (out t a).toList) u) : I bs t := by
  induction h with
  | refl => exact hs
  | tail _ hlast ih => exact hstep _ _ _ _ ih hlast

/-- A system whose steps another one can follow puts out what the other one does. -/
theorem Outputs.simulate (h : S.Outputs out s bs t) (hR : R s x)
    (hstep : ∀ s x a s', R s x → S.step s a s' →
      ∃ a' x', T.step x a' x' ∧ R s' x' ∧ out s a = out' x a') :
    ∃ y, T.Outputs out' x bs y ∧ R t y := by
  induction h with
  | refl => exact ⟨x, .refl, hR⟩
  | @tail _ t u a _ hlast ih =>
    obtain ⟨y, hrun, hy⟩ := ih
    obtain ⟨a', y', hfollow, hy', hout⟩ := hstep _ _ _ _ hy hlast
    exact ⟨y', hout ▸ hrun.tail hfollow, hy'⟩

end Outputs

end System

/-- The state a partial step function reaches along a list of choices, if it takes
every one of them. -/
def execAll {β : Type*} (next : σ → β → Option σ) : σ → List β → Option σ
  | s, [] => some s
  | s, b :: rest => (next s b).bind fun t => execAll next t rest

/-- A run executed choice by choice is a run of any system that has those steps. -/
theorem System.runsTo_of_execAll {β : Type*} {S : System σ α} {C : σ → α → Prop}
    {next : σ → β → Option σ} {t : σ}
    (hnext : ∀ s b t, next s b = some t → S.Allowed C s t) {choices : List β} {s : σ}
    (h : execAll next s choices = some t) : S.RunsTo C s t := by
  induction choices generalizing s with
  | nil =>
    obtain rfl : s = t := Option.some.inj h
    exact .refl
  | cons b rest ih =>
    obtain ⟨u, hu, hrest⟩ := Option.bind_eq_some_iff.mp h
    exact .head (hnext s b u hu) (ih hrest)

/-- A test of the state at the end of an executed run tells of a reached state. -/
theorem System.exists_reachableUnder {β : Type*} {S : System σ α} {C : σ → α → Prop} {s : σ}
    {P : σ → Prop} [DecidablePred P] (next : σ → β → Option σ) (choices : List β)
    (hnext : ∀ s b t, next s b = some t → S.Allowed C s t) (hs : S.init s)
    (h : (execAll next s choices).any (fun t => P t) = true) :
    ∃ t, S.ReachableUnder C t ∧ P t := by
  cases hrun : execAll next s choices with
  | none => simp [hrun] at h
  | some t => exact ⟨t, ⟨s, hs, S.runsTo_of_execAll hnext hrun⟩, by simpa [hrun] using h⟩

end Transition

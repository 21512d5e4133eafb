import KyroOS.Lib.Transition
import Mathlib.Data.List.Basic

/-!
# Taking turns

Some have turns around a ring, and others join it behind the one whose turn it is. Between two
turns of the same one, every other one of the ring has exactly one.

## Main definitions

* `Round` — a ring from the one whose turn it is, with those that have just joined set apart
* `Round.turn`, `Round.join` — the steps, and `roundSystem` — their runs

## Main results

* `outputs_between` — the turns between two turns of the same one
-/

namespace RoundRobin

open Transition

variable {α : Type*}

/-- A ring, from the one whose turn it is: next on it are those that have joined during this turn,
and then those that were on it before. -/
structure Round (α : Type*) where
  current : α
  joined : List α
  waiting : List α

namespace Round

/-- The ring as a list. -/
def ring (r : Round α) : List α := r.current :: (r.joined ++ r.waiting)

/-- The turn passes to the first one behind those that have joined. Alone with those, it passes to
the first of them, and alone altogether to no one. -/
def turn (r : Round α) : Option (Round α) :=
  match r.waiting, r.joined with
  | d :: waiting, joined => some ⟨d, [], waiting ++ r.current :: joined⟩
  | [], d :: joined => some ⟨d, [], joined ++ [r.current]⟩
  | [], [] => none

/-- Another one joins. -/
def join (r : Round α) (x : α) : Round α := { r with joined := r.joined ++ [x] }

end Round

/-- What happens to a ring. -/
inductive RoundEvent (α : Type*)
  | turn
  | join (x : α)
  | idle

/-- Turns, with others that join in between. -/
def roundSystem : System (Round α) (RoundEvent α) where
  init _ := True
  step r e r' :=
    match e with
    | .turn => r.turn = some r'
    | .join x => r' = r.join x
    | .idle => r' = r

/-- Who gets the turn. -/
def turnOf (r : Round α) : RoundEvent α → Option α
  | .turn => r.turn.map Round.current
  | .join _ | .idle => none

section Between

variable {t u : α} {others ds : List α} {r r' : Round α}

/-- After a turn of `t`, and turns of `ds` behind it: those of the others that are left come before
`t`. -/
structure Pending (t : α) (others ds : List α) (r : Round α) : Prop where
  left : ∃ left, others = ds ++ left ∧
    (ds = [] ∧ r.current = t ∧ r.waiting = left ∨ ∃ rest, r.waiting = left ++ t :: rest)

/-- The next turn is that of one of the others, as long as there are any left. -/
theorem Pending.turn (h : Pending t others ds r) (hothers : others ≠ []) (hturn : r.turn = some r')
    (hne : r'.current ≠ t) : Pending t others (ds ++ [r'.current]) r' := by
  obtain ⟨left, rfl, hleft⟩ := h.left
  cases left with
  | nil =>
    -- the next turn is that of `t`
    rcases hleft with ⟨rfl, -, -⟩ | ⟨rest, hwaiting⟩
    · exact absurd rfl hothers
    · rw [Round.turn, hwaiting] at hturn
      exact absurd (congrArg Round.current (Option.some.inj hturn)).symm hne
  | cons d left =>
    refine ⟨left, ?_, .inr ?_⟩
    · have hd : r'.current = d := by
        rcases hleft with ⟨-, -, hwaiting⟩ | ⟨rest, hwaiting⟩ <;>
          · rw [Round.turn, hwaiting] at hturn
            exact (congrArg Round.current (Option.some.inj hturn)).symm
      rw [hd, List.append_assoc]
      rfl
    · rcases hleft with ⟨-, hcurrent, hwaiting⟩ | ⟨rest, hwaiting⟩
      · rw [Round.turn, hwaiting] at hturn
        exact ⟨r.joined, by rw [← Option.some.inj hturn, hcurrent]⟩
      · rw [Round.turn, hwaiting] at hturn
        refine ⟨rest ++ r.current :: r.joined, ?_⟩
        rw [← Option.some.inj hturn]
        simp

/-- Those that join do so behind the ones that are pending. -/
theorem Pending.join (h : Pending t others ds r) (x : α) : Pending t others ds (r.join x) :=
  ⟨h.left⟩

/-- The turns between two turns of the same one are those of the others, in the order of the
ring. -/
theorem outputs_between (hrun : roundSystem.Outputs turnOf ⟨t, [], others⟩ ds r) (hds : t ∉ ds)
    (hturn : r.turn = some r') (hagain : r'.current = t) (ht : t ∉ others) (hothers : others ≠ []) :
    ds = others := by
  have hpending : t ∉ ds → Pending t others ds r := by
    refine hrun.preserves (I := fun ds r => t ∉ ds → Pending t others ds r)
      (fun _ => ⟨others, rfl, .inl ⟨rfl, rfl, rfl⟩⟩) ?_
    intro ds r e r' hr hstep hds
    rw [List.mem_append, not_or] at hds
    cases e with
    | turn =>
      have hout : turnOf r .turn = some r'.current := congrArg (Option.map Round.current) hstep
      rw [hout, Option.toList_some] at hds ⊢
      exact (hr hds.1).turn hothers hstep fun heq => hds.2 (heq ▸ List.mem_singleton_self _)
    | join x =>
      obtain rfl : r' = r.join x := hstep
      rw [show turnOf r (.join x) = none from rfl, Option.toList_none, List.append_nil]
      exact (hr hds.1).join x
    | idle =>
      obtain rfl : r' = r := hstep
      rw [show turnOf r' .idle = none from rfl, Option.toList_none, List.append_nil]
      exact hr hds.1
  obtain ⟨left, rfl, hleft⟩ := (hpending hds).left
  cases left with
  | nil => exact (List.append_nil ds).symm
  | cons d left =>
    -- the turn would be one of the others'
    have hd : r'.current = d := by
      rcases hleft with ⟨-, -, hwaiting⟩ | ⟨rest, hwaiting⟩ <;>
        · rw [Round.turn, hwaiting] at hturn
          exact (congrArg Round.current (Option.some.inj hturn)).symm
    refine absurd ?_ ht
    rw [← hagain, hd]
    exact List.mem_append_right ds List.mem_cons_self

end Between

end RoundRobin

import KyroOS.Net.DhcpSafety

/-!
# The option scans of the DHCP client

`dhcp_handle_packet` has three loops over the options of a packet. All of them take every option for
one with a length: a PAD too, and one whose length or value lies behind the end of the packet.

## Main definitions

* `OptionScan`, `OptionScan.loop` — the three loops, with the positions they read and what they find
* `rfcOptions`, `OptionScan.select` — the options of a packet as RFC 2132 has them
* `OptionScan.Right` — a loop ends, reads inside the packet, and finds the options it looks for
* `OptionScan.InStep` — what the options that the loop comes to have to be like

## Main results

* `loop_terminates` — the loops end
* `handler_scans` — the handler computes what the loops find
* `right_iff_inStep` — when a loop is right
* `not_right` — an OFFER with a PAD before the type of the message
-/

namespace KyroOS.Net

/-- The option that is a single byte, and the one behind the last. -/
def optionPad : Byte := 0#8
def optionEnd : Byte := 255#8

/-- The loops over the options: for the type of the message, for the identifier of the server, and
for the subnet mask and the router. -/
inductive OptionScan
  | messageType
  | serverId
  | addresses
  deriving DecidableEq, Repr

/-- What a loop has read, and the options that it has found, by their positions. -/
structure OptionTrace where
  reads : List ℕ
  found : List ℕ
  deriving DecidableEq

/-- `opt_ptr + *(opt_ptr + 1) + 2` -/
def nextOption (m : Memory) (opt : ℕ) : ℕ := opt + ((m (opt + 1)).toNat + 2)

/-- The options of the bytes before `stop` for a reader that follows RFC 2132. The reader goes on
behind a PAD at the next byte, ends at END, and leaves out an option that does not fit. -/
def rfcOptions (m : Memory) (stop opt : ℕ) : List ℕ :=
  if opt < stop ∧ m opt ≠ optionEnd then
    if m opt = optionPad then rfcOptions m stop (opt + 1)
    else if nextOption m opt ≤ stop then opt :: rfcOptions m stop (nextOption m opt)
    else []
  else []
termination_by stop - opt
decreasing_by
  · omega
  · unfold nextOption
    omega

namespace OptionScan

/-- The codes that a loop looks for. -/
def Wants : OptionScan → Byte → Prop
  | messageType, code => code = 53#8
  | serverId, code => code = 54#8
  | addresses, code => code = 1#8 ∨ code = 3#8

instance : ∀ s : OptionScan, DecidablePred s.Wants
  | messageType => fun _ => inferInstanceAs (Decidable (_ = _))
  | serverId => fun _ => inferInstanceAs (Decidable (_ = _))
  | addresses => fun _ => inferInstanceAs (Decidable (_ ∨ _))

/-- The bytes of a value that a loop reads. -/
def width : OptionScan → ℕ
  | messageType => 1
  | serverId => 4
  | addresses => 4

/-- The loop ends with the first option that it finds. -/
def Breaks : OptionScan → Prop
  | messageType => True
  | serverId => True
  | addresses => False

instance : DecidablePred Breaks
  | messageType => inferInstanceAs (Decidable True)
  | serverId => inferInstanceAs (Decidable True)
  | addresses => inferInstanceAs (Decidable False)

variable (s : OptionScan) (m : Memory) (stop : ℕ)

/-- The loop, for a number of turns. -/
def loop : ℕ → ℕ → Option OptionTrace
  | 0, _ => none
  | turns + 1, opt =>
    if opt < stop then
      if m opt = optionEnd then some ⟨[opt], []⟩
      else if s.Wants (m opt) then
        let value := List.range' (opt + 2) s.width
        if s.Breaks then some ⟨opt :: value, [opt]⟩
        else (loop turns (nextOption m opt)).map fun t =>
          ⟨opt :: (value ++ (opt + 1) :: t.reads), opt :: t.found⟩
      else (loop turns (nextOption m opt)).map fun t => ⟨opt :: (opt + 1) :: t.reads, t.found⟩
    else some ⟨[], []⟩

/-- The options among these that a loop looks for. -/
def select (opts : List ℕ) : List ℕ :=
  let wanted := opts.filter fun opt => s.Wants (m opt)
  if s.Breaks then wanted.take 1 else wanted

/-- The loop over the options of a packet at `p` ends, reads bytes of the packet only, and finds what
a reader that follows RFC 2132 does. -/
def Right (p : ℕ) (len : Word) : Prop :=
  ∃ turns t, s.loop m (endOfData p len) turns (p + 240) = some t ∧
    (∀ q ∈ t.reads, p ≤ q ∧ q < endOfData p len) ∧
    t.found = s.select m (rfcOptions m (endOfData p len) (p + 240))

/-- From `opt` on, the bytes have these options when each option has a length. What is read of them
lies before `stop`. -/
inductive Finds : ℕ → List ℕ → Prop
  | stop {opt : ℕ} (hend : ¬ (opt < stop ∧ m opt ≠ optionEnd)) : Finds opt []
  | first {opt : ℕ} (hopt : opt < stop ∧ m opt ≠ optionEnd) (hwants : s.Wants (m opt))
      (hbreaks : s.Breaks) (hvalue : opt + 2 + s.width ≤ stop) : Finds opt [opt]
  | wanted {opt : ℕ} {opts : List ℕ} (hopt : opt < stop ∧ m opt ≠ optionEnd)
      (hwants : s.Wants (m opt)) (hbreaks : ¬ s.Breaks) (hvalue : opt + 2 + s.width ≤ stop)
      (hrest : Finds (nextOption m opt) opts) : Finds opt (opt :: opts)
  | other {opt : ℕ} {opts : List ℕ} (hopt : opt < stop ∧ m opt ≠ optionEnd)
      (hwants : ¬ s.Wants (m opt)) (hlength : opt + 1 < stop)
      (hrest : Finds (nextOption m opt) opts) : Finds opt opts

/-- The options from `opt` on do not mislead the loop. The length of each option that it comes to
lies in the packet, and so does all of each option that it looks for, with the bytes that it reads.
At the first PAD the bytes that the loop takes for a length and a value hide nothing: behind them it
comes to the same options as a reader that goes on behind the PAD. -/
inductive InStep : ℕ → Prop
  | stop {opt : ℕ} (hend : ¬ (opt < stop ∧ m opt ≠ optionEnd)) : InStep opt
  | first {opt : ℕ} (hopt : opt < stop ∧ m opt ≠ optionEnd) (hwants : s.Wants (m opt))
      (hbreaks : s.Breaks) (hvalue : opt + 2 + s.width ≤ stop) (hfits : nextOption m opt ≤ stop) :
      InStep opt
  | wanted {opt : ℕ} (hopt : opt < stop ∧ m opt ≠ optionEnd) (hwants : s.Wants (m opt))
      (hbreaks : ¬ s.Breaks) (hvalue : opt + 2 + s.width ≤ stop) (hfits : nextOption m opt ≤ stop)
      (hrest : InStep (nextOption m opt)) : InStep opt
  | other {opt : ℕ} (hopt : opt < stop ∧ m opt ≠ optionEnd) (hpad : m opt ≠ optionPad)
      (hwants : ¬ s.Wants (m opt)) (hlength : opt + 1 < stop)
      (hrest : InStep (nextOption m opt)) : InStep opt
  | pad {opt : ℕ} (hopt : opt < stop) (hpad : m opt = optionPad) (hlength : opt + 1 < stop)
      (hrest : Finds s m stop (nextOption m opt) (s.select m (rfcOptions m stop (opt + 1)))) :
      InStep opt

end OptionScan

/-! ### The loops -/

section

variable {s : OptionScan} {m : Memory} {stop turns opt : ℕ} {t : OptionTrace} {opts : List ℕ}

theorem OptionScan.not_wants_pad : ¬ s.Wants optionPad := by
  cases s <;> decide

/-- Every turn comes nearer to the end of the packet. -/
theorem loop_terminates : ∀ {opt : ℕ}, stop ≤ opt + turns →
    ∃ t, s.loop m stop (turns + 1) opt = some t := by
  induction turns with
  | zero =>
    intro opt hopt
    exact ⟨_, if_neg (Nat.not_lt.mpr hopt)⟩
  | succ turns ih =>
    intro opt hopt
    have hnext : stop ≤ nextOption m opt + turns := by
      unfold nextOption
      omega
    obtain ⟨t, ht⟩ := ih hnext
    rw [OptionScan.loop, ht]
    dsimp only [Option.map_some]
    split
    · split
      · exact ⟨_, rfl⟩
      · split
        · split <;> exact ⟨_, rfl⟩
        · exact ⟨_, rfl⟩
    · exact ⟨_, rfl⟩

/-- No byte before the first option is read. -/
theorem le_of_mem_reads {q : ℕ} : ∀ {opt : ℕ} {t : OptionTrace}, s.loop m stop turns opt = some t →
    q ∈ t.reads → opt ≤ q := by
  induction turns with
  | zero => exact fun hloop => nomatch hloop
  | succ turns ih =>
    intro opt t hloop hq
    have hnext : opt ≤ nextOption m opt := Nat.le_add_right _ _
    unfold OptionScan.loop at hloop
    split at hloop
    · split at hloop
      · cases hloop
        exact (List.mem_singleton.mp hq).ge
      · split at hloop
        · dsimp only at hloop
          split at hloop
          · cases hloop
            simp only [List.mem_cons, List.mem_range'_1] at hq
            omega
          · obtain ⟨t', ht', rfl⟩ := Option.map_eq_some_iff.mp hloop
            simp only [List.mem_cons, List.mem_append, List.mem_range'_1] at hq
            rcases hq with hq | hq | hq | hq
            · omega
            · omega
            · omega
            · exact hnext.trans (ih ht' hq)
        · obtain ⟨t', ht', rfl⟩ := Option.map_eq_some_iff.mp hloop
          simp only [List.mem_cons] at hq
          rcases hq with hq | hq | hq
          · omega
          · omega
          · exact hnext.trans (ih ht' hq)
    · cases hloop
      exact absurd hq List.not_mem_nil

/-- When the bytes of a value lie before `stop`, so does its end. -/
theorem value_inside (hread : ∀ q ∈ List.range' (opt + 2) s.width, q < stop) :
    opt + 2 + s.width ≤ stop := by
  have hwidth : 0 < s.width := by cases s <;> decide
  have hlast := hread (opt + 2 + (s.width - 1)) (by rw [List.mem_range'_1]; omega)
  omega

/-- What a loop finds when it reads inside the packet. -/
theorem finds_of_loop : ∀ {opt : ℕ} {t : OptionTrace}, s.loop m stop turns opt = some t →
    (∀ q ∈ t.reads, q < stop) → s.Finds m stop opt t.found := by
  induction turns with
  | zero => exact fun hloop => nomatch hloop
  | succ turns ih =>
    intro opt t hloop hreads
    unfold OptionScan.loop at hloop
    split at hloop
    · next hopt =>
      split at hloop
      · next hend =>
        cases hloop
        exact .stop fun hmore => hmore.2 hend
      · next hend =>
        split at hloop
        · next hwants =>
          dsimp only at hloop
          split at hloop
          · next hbreaks =>
            cases hloop
            have hvalue := value_inside fun q hq => hreads q (List.mem_cons_of_mem _ hq)
            exact .first ⟨hopt, hend⟩ hwants hbreaks hvalue
          · next hbreaks =>
            obtain ⟨t', ht', rfl⟩ := Option.map_eq_some_iff.mp hloop
            have hvalue := value_inside fun q hq =>
              hreads q (List.mem_cons_of_mem _ (List.mem_append_left _ hq))
            have hrest := ih ht' fun q hq => hreads q (by simp [hq])
            exact .wanted ⟨hopt, hend⟩ hwants hbreaks hvalue hrest
        · next hwants =>
          obtain ⟨t', ht', rfl⟩ := Option.map_eq_some_iff.mp hloop
          have hlength := hreads (opt + 1) (by simp)
          have hrest := ih ht' fun q hq => hreads q (by simp [hq])
          exact .other ⟨hopt, hend⟩ hwants hlength hrest
    · next hopt =>
      cases hloop
      exact .stop fun hmore => hopt hmore.1

/-- A loop comes to those options. -/
theorem loop_of_finds (hfinds : s.Finds m stop opt opts) :
    ∃ turns t, s.loop m stop turns opt = some t ∧ (∀ q ∈ t.reads, q < stop) ∧ t.found = opts := by
  induction hfinds with
  | @stop opt hend =>
    by_cases hopt : opt < stop
    · have hcode : m opt = optionEnd := not_not.mp fun hne => hend ⟨hopt, hne⟩
      refine ⟨1, ⟨[opt], []⟩, ?_, ?_, rfl⟩
      · rw [OptionScan.loop, if_pos hopt, if_pos hcode]
      · exact fun q hq => (List.mem_singleton.mp hq).trans_lt hopt
    · exact ⟨1, ⟨[], []⟩, if_neg hopt, fun q hq => absurd hq List.not_mem_nil, rfl⟩
  | @first opt hopt hwants hbreaks hvalue =>
    refine ⟨1, ⟨opt :: List.range' (opt + 2) s.width, [opt]⟩, ?_, ?_, rfl⟩
    · rw [OptionScan.loop, if_pos hopt.1, if_neg hopt.2, if_pos hwants]
      exact if_pos hbreaks
    · intro q hq
      simp only [List.mem_cons, List.mem_range'_1] at hq
      omega
  | @wanted opt opts hopt hwants hbreaks hvalue _ ih =>
    obtain ⟨turns, t, hloop, hreads, rfl⟩ := ih
    refine ⟨turns + 1, ⟨opt :: (List.range' (opt + 2) s.width ++ (opt + 1) :: t.reads),
      opt :: t.found⟩, ?_, ?_, rfl⟩
    · rw [OptionScan.loop, if_pos hopt.1, if_neg hopt.2, if_pos hwants, hloop]
      exact if_neg hbreaks
    · intro q hq
      simp only [List.mem_cons, List.mem_append, List.mem_range'_1] at hq
      rcases hq with hq | hq | hq | hq
      · omega
      · omega
      · omega
      · exact hreads q hq
  | @other opt opts hopt hwants hlength _ ih =>
    obtain ⟨turns, t, hloop, hreads, rfl⟩ := ih
    refine ⟨turns + 1, ⟨opt :: (opt + 1) :: t.reads, t.found⟩, ?_, ?_, rfl⟩
    · rw [OptionScan.loop, if_pos hopt.1, if_neg hopt.2, if_neg hwants, hloop]
      rfl
    · intro q hq
      simp only [List.mem_cons] at hq
      rcases hq with hq | hq | hq
      · omega
      · omega
      · exact hreads q hq

/-- A loop is right when the options with a length are those of RFC 2132. -/
theorem right_iff_finds {p : ℕ} {len : Word} : s.Right m p len ↔
    s.Finds m (endOfData p len) (p + 240)
      (s.select m (rfcOptions m (endOfData p len) (p + 240))) := by
  constructor
  · rintro ⟨turns, t, hloop, hreads, hfound⟩
    have hfinds := finds_of_loop hloop fun q hq => (hreads q hq).2
    rwa [hfound] at hfinds
  · intro hfinds
    obtain ⟨turns, t, hloop, hreads, hfound⟩ := loop_of_finds hfinds
    refine ⟨turns, t, hloop, fun q hq => ⟨?_, hreads q hq⟩, hfound⟩
    exact (Nat.le_add_right p 240).trans (le_of_mem_reads hloop hq)

end

/-! ### The handler -/

/-- What the handler does with an address among the options. -/
def applyOption (m : Memory) (h : Host) (opt : ℕ) : Host :=
  let address := load32 m (opt + 2)
  if m opt = 1#8 then
    { h with dhcp := { h.dhcp with subnetMask := address }, subnetMask := address }
  else if m opt = 3#8 then
    { h with dhcp := { h.dhcp with gatewayIp := address }, defaultGateway := address }
  else h

section

variable {s : OptionScan} {m : Memory} {stop turns : ℕ} {code : Byte}

/-- The loops that break find the first option with their code. -/
theorem findOption_of_loop (hcode : ∀ c, s.Wants c ↔ c = code) (hbreaks : s.Breaks) :
    ∀ {opt : ℕ} {t : OptionTrace}, s.loop m stop turns opt = some t →
      findOption m stop code turns opt = t.found.head? := by
  induction turns with
  | zero => exact fun hloop => nomatch hloop
  | succ turns ih =>
    intro opt t hloop
    unfold OptionScan.loop at hloop
    unfold findOption
    split at hloop
    · next hopt =>
      split at hloop
      · next hend =>
        cases hloop
        exact if_neg fun hmore => hmore.2 hend
      · next hend =>
        rw [if_pos ⟨hopt, hend⟩]
        split at hloop
        · next hwants =>
          cases hloop
          exact if_pos ((hcode _).mp hwants)
        · next hwants =>
          obtain ⟨t', ht', rfl⟩ := Option.map_eq_some_iff.mp hloop
          have hrest := ih ht'
          rw [if_neg fun heq => hwants ((hcode _).mpr heq)]
          exact hrest
    · next hopt =>
      cases hloop
      exact if_neg fun hmore => hopt hmore.1

/-- The loop over the addresses applies them in the order of the options. -/
theorem applyOptions_of_loop : ∀ {opt : ℕ} {t : OptionTrace} {h : Host},
    OptionScan.addresses.loop m stop turns opt = some t →
      applyOptions m stop turns opt h = t.found.foldl (applyOption m) h := by
  induction turns with
  | zero => exact fun hloop => nomatch hloop
  | succ turns ih =>
    intro opt t h hloop
    unfold OptionScan.loop at hloop
    unfold applyOptions
    split at hloop
    · next hopt =>
      split at hloop
      · next hend =>
        cases hloop
        exact if_neg fun hmore => hmore.2 hend
      · next hend =>
        rw [if_pos ⟨hopt, hend⟩]
        have hturn : applyOptions m stop turns (nextOption m opt) (applyOption m h opt) =
            t.found.foldl (applyOption m) h := by
          split at hloop
          · have hbreaks : ¬ OptionScan.addresses.Breaks := not_false
            dsimp only at hloop
            rw [if_neg hbreaks] at hloop
            obtain ⟨t', ht', rfl⟩ := Option.map_eq_some_iff.mp hloop
            exact @ih _ _ (applyOption m h opt) ht'
          · next hwants =>
            obtain ⟨t', ht', rfl⟩ := Option.map_eq_some_iff.mp hloop
            obtain ⟨hmask, hrouter⟩ := not_or.mp hwants
            have hsame : applyOption m h opt = h := (if_neg hmask).trans (if_neg hrouter)
            have hrest := @ih _ _ h ht'
            rw [hsame]
            exact hrest
        exact hturn
    · next hopt =>
      cases hloop
      exact if_neg fun hmore => hopt hmore.1

/-- The handler computes the type of the message, the server and the configuration from what the
loops find. -/
theorem handler_scans (m : Memory) (p : ℕ) (len : Word) : ∃ type server addresses : OptionTrace,
    (∃ turns, OptionScan.messageType.loop m (endOfData p len) turns (p + 240) = some type) ∧
    (∃ turns, OptionScan.serverId.loop m (endOfData p len) turns (p + 240) = some server) ∧
    (∃ turns, OptionScan.addresses.loop m (endOfData p len) turns (p + 240) = some addresses) ∧
    messageType m p len = (type.found.head?.map fun opt => m (opt + 2)).getD 0 ∧
    serverId m p len = server.found.head?.map (fun opt => load32 m (opt + 2)) ∧
    ∀ h, applyOptions m (endOfData p len) (endOfData p len) (p + 240) h =
      addresses.found.foldl (applyOption m) h := by
  have hturns : endOfData p len ≤ p + 240 + endOfData p len := Nat.le_add_left _ _
  obtain ⟨type, htype⟩ := @loop_terminates .messageType m _ _ _ hturns
  obtain ⟨server, hserver⟩ := @loop_terminates .serverId m _ _ _ hturns
  obtain ⟨addresses, haddresses⟩ := @loop_terminates .addresses m _ _ _ hturns
  refine ⟨type, server, addresses, ⟨_, htype⟩, ⟨_, hserver⟩, ⟨_, haddresses⟩, ?_, ?_, fun h => ?_⟩
  · rw [messageType, ← findOption_succ hturns, @findOption_of_loop
      .messageType m _ _ _ (fun _ => Iff.rfl) trivial _ _ htype]
    cases type.found.head? with
    | none => rfl
    | some opt => rfl
  · rw [serverId, ← findOption_succ hturns, @findOption_of_loop
      .serverId m _ _ _ (fun _ => Iff.rfl) trivial _ _ hserver]
  · rw [← applyOptions_succ hturns]
    exact applyOptions_of_loop haddresses

end

/-! ### The options of RFC 2132 -/

section

variable {s : OptionScan} {m : Memory} {stop opt : ℕ} {opts : List ℕ}

theorem rfcOptions_end (hend : ¬ (opt < stop ∧ m opt ≠ optionEnd)) :
    rfcOptions m stop opt = [] := by
  rw [rfcOptions, if_neg hend]

theorem rfcOptions_pad (hopt : opt < stop) (hpad : m opt = optionPad) :
    rfcOptions m stop opt = rfcOptions m stop (opt + 1) := by
  have hend : m opt ≠ optionEnd := by
    rw [hpad]
    decide
  rw [rfcOptions, if_pos ⟨hopt, hend⟩, if_pos hpad]

theorem rfcOptions_fits (hopt : opt < stop ∧ m opt ≠ optionEnd) (hpad : m opt ≠ optionPad)
    (hfits : nextOption m opt ≤ stop) :
    rfcOptions m stop opt = opt :: rfcOptions m stop (nextOption m opt) := by
  rw [rfcOptions, if_pos hopt, if_neg hpad, if_pos hfits]

/-- Behind an option that does not fit there is none. -/
theorem rfcOptions_exceeds (hpad : m opt ≠ optionPad) (hfits : ¬ nextOption m opt ≤ stop) :
    rfcOptions m stop opt = [] ∧ rfcOptions m stop (nextOption m opt) = [] := by
  constructor
  · by_cases hmore : opt < stop ∧ m opt ≠ optionEnd
    · rw [rfcOptions, if_pos hmore, if_neg hpad, if_neg hfits]
    · exact rfcOptions_end hmore
  · exact rfcOptions_end fun hmore => hfits hmore.1.le

theorem select_nil : s.select m [] = [] := by
  cases s <;> rfl

theorem select_cons_of_not_wants (hwants : ¬ s.Wants (m opt)) :
    s.select m (opt :: opts) = s.select m opts := by
  unfold OptionScan.select
  rw [List.filter_cons_of_neg (by simpa using hwants)]

theorem select_cons_of_wants (hwants : s.Wants (m opt)) :
    s.select m (opt :: opts) = if s.Breaks then [opt] else opt :: s.select m opts := by
  unfold OptionScan.select
  rw [List.filter_cons_of_pos (by simpa using hwants)]
  split <;> rfl

/-- An option that a loop does not look for can be left out. -/
theorem select_rfcOptions_of_not_wants (hopt : opt < stop ∧ m opt ≠ optionEnd)
    (hpad : m opt ≠ optionPad) (hwants : ¬ s.Wants (m opt)) :
    s.select m (rfcOptions m stop opt) =
      s.select m (rfcOptions m stop (nextOption m opt)) := by
  by_cases hfits : nextOption m opt ≤ stop
  · rw [rfcOptions_fits hopt hpad hfits, select_cons_of_not_wants hwants]
  · obtain ⟨hhere, hbehind⟩ := rfcOptions_exceeds hpad hfits
    rw [hhere, hbehind]

theorem ne_pad_of_wants (hwants : s.Wants (m opt)) : m opt ≠ optionPad := fun hpad =>
  OptionScan.not_wants_pad (hpad ▸ hwants)

/-- An option that is found with the rest fits. -/
theorem fits_of_select {l : List ℕ} (hwants : s.Wants (m opt))
    (hselect : s.select m (rfcOptions m stop opt) = opt :: l) : nextOption m opt ≤ stop := by
  by_contra hfits
  rw [(rfcOptions_exceeds (ne_pad_of_wants hwants) hfits).1, select_nil] at hselect
  exact List.cons_ne_nil _ _ hselect.symm

/-- What the options up to a place have to be like, so that a loop finds those of RFC 2132. -/
theorem inStep_of_finds (n : ℕ) : ∀ {opt : ℕ}, stop ≤ opt + n →
    s.Finds m stop opt (s.select m (rfcOptions m stop opt)) → s.InStep m stop opt := by
  induction n with
  | zero => exact fun hopt _ => .stop fun hmore => absurd hmore.1 (Nat.not_lt.mpr hopt)
  | succ n ih =>
    intro opt hopt hfinds
    have hnext : stop ≤ nextOption m opt + n := by
      unfold nextOption
      omega
    generalize hselect : s.select m (rfcOptions m stop opt) = opts at hfinds
    cases hfinds with
    | stop hend => exact .stop hend
    | first hmore hwants hbreaks hvalue =>
      exact .first hmore hwants hbreaks hvalue (fits_of_select hwants hselect)
    | @wanted _ rest hmore hwants hbreaks hvalue hrest =>
      have hfits := fits_of_select hwants hselect
      rw [rfcOptions_fits hmore (ne_pad_of_wants hwants) hfits, select_cons_of_wants hwants,
        if_neg hbreaks] at hselect
      rw [← (List.cons.inj hselect).2] at hrest
      exact .wanted hmore hwants hbreaks hvalue hfits (ih hnext hrest)
    | other hmore hwants hlength hrest =>
      rw [← hselect] at hrest
      by_cases hpad : m opt = optionPad
      · rw [rfcOptions_pad hmore.1 hpad] at hrest
        exact .pad hmore.1 hpad hlength hrest
      · rw [select_rfcOptions_of_not_wants hmore hpad hwants] at hrest
        exact .other hmore hpad hwants hlength (ih hnext hrest)

theorem finds_of_inStep (h : s.InStep m stop opt) :
    s.Finds m stop opt (s.select m (rfcOptions m stop opt)) := by
  induction h with
  | stop hend =>
    rw [rfcOptions_end hend, select_nil]
    exact .stop hend
  | first hmore hwants hbreaks hvalue hfits =>
    rw [rfcOptions_fits hmore (ne_pad_of_wants hwants) hfits, select_cons_of_wants hwants,
      if_pos hbreaks]
    exact .first hmore hwants hbreaks hvalue
  | wanted hmore hwants hbreaks hvalue hfits _ ih =>
    rw [rfcOptions_fits hmore (ne_pad_of_wants hwants) hfits, select_cons_of_wants hwants,
      if_neg hbreaks]
    exact .wanted hmore hwants hbreaks hvalue ih
  | other hmore hpad hwants hlength _ ih =>
    rw [select_rfcOptions_of_not_wants hmore hpad hwants]
    exact .other hmore hwants hlength ih
  | @pad opt hopt hpad hlength hrest =>
    have hend : m opt ≠ optionEnd := by
      rw [hpad]
      decide
    have hwants : ¬ s.Wants (m opt) := fun hwants => ne_pad_of_wants hwants hpad
    rw [rfcOptions_pad hopt hpad]
    exact .other ⟨hopt, hend⟩ hwants hlength hrest

/-- A loop is right exactly when the options that it comes to do not mislead it. -/
theorem right_iff_inStep (s : OptionScan) (m : Memory) (p : ℕ) (len : Word) :
    s.Right m p len ↔ s.InStep m (endOfData p len) (p + 240) := by
  rw [right_iff_finds]
  exact ⟨inStep_of_finds (endOfData p len) (Nat.le_add_left _ _), finds_of_inStep⟩

end

/-! ### A PAD before the type -/

/-- An OFFER whose options begin with a PAD. -/
def paddedOffer : List Byte :=
  [2#8, 1#8, 6#8, 0#8] ++ store32 (bswap32 dhcpXid) ++ List.replicate 232 0#8 ++
    [0#8, 53#8, 1#8, 2#8, 255#8]

/-- The bytes of its options. -/
theorem paddedOffer_options : ofBytes paddedOffer 240 = optionPad ∧
    ofBytes paddedOffer 241 = 53#8 ∧ ofBytes paddedOffer 242 = 1#8 ∧
      ofBytes paddedOffer 244 = optionEnd := by
  have hbytes := @contains_ofBytes paddedOffer
  rw [paddedOffer] at hbytes ⊢
  obtain ⟨-, hoptions⟩ := contains_append.mp hbytes
  simp only [contains_cons, List.length_append, List.length_cons, List.length_nil,
    length_store32, List.length_replicate, Nat.reduceAdd] at hoptions
  obtain ⟨hpad, hcode, hlength, -, hend, -⟩ := hoptions
  exact ⟨hpad, hcode, hlength, hend⟩

/-- The loop takes the code of the type for the length of the PAD, and goes behind the packet. -/
theorem not_right : ¬ ∀ (s : OptionScan) (m : Memory) (p : ℕ) (len : Word), s.Right m p len := by
  intro hall
  obtain ⟨hpad, hcode, hlength, hend⟩ := paddedOffer_options
  have hskipped : nextOption (ofBytes paddedOffer) 240 = 295 := by
    rw [nextOption, hcode]
    rfl
  have hnext : nextOption (ofBytes paddedOffer) 241 = 244 := by
    rw [nextOption, hlength]
    rfl
  have hoffer : rfcOptions (ofBytes paddedOffer) 245 241 = [241] := by
    rw [rfcOptions_fits ⟨by decide, by rw [hcode]; decide⟩ (by rw [hcode]; decide)
      (by rw [hnext]; decide), hnext, rfcOptions_end fun hmore => hmore.2 hend]
  have hselect : OptionScan.messageType.select (ofBytes paddedOffer) [241] = [241] :=
    select_cons_of_wants hcode
  have hstop : endOfData 0 245#64 = 245 := rfl
  have hfinds := right_iff_finds.mp (hall .messageType (ofBytes paddedOffer) 0 245#64)
  rw [hstop, Nat.zero_add, rfcOptions_pad (by decide) hpad, hoffer, hselect] at hfinds
  cases hfinds with
  | other _ _ _ hrest =>
    -- the next option is behind the packet, where nothing is found
    rw [hskipped] at hrest
    cases hrest with
    | other hmore _ _ _ => exact absurd hmore.1 (by decide)

end KyroOS.Net

import KyroOS.Lib.FifoCache
import KyroOS.Lib.Transition
import KyroOS.Net.Arp

/-!
# The ARP cache over its history

The cache is one of 16 places with first-in first-out replacement. A place that was never filled is
not marked, and looks like an entry for the address 0.0.0.0.

## Main definitions

* `arpInit` — the cache after `arp_init`
* `arpSystem` — the runs of `arp_update_cache`, with what was announced
* `Holds` — where the keys of the abstract cache lie
* `LookupRight`, `OnePlace` — what a lookup answers, and that an address has one place

## Main results

* `Holds.announce` — an update of another address than 0.0.0.0, or of a full cache
* `lookupRight_iff` — the lookups that answer right
* `not_lookupRight` — 0.0.0.0 is found in the empty cache
-/

namespace KyroOS.Net

open FifoCache Transition

/-! ### Runs -/

/-- What `arp_update_cache` was called with, from the last call on. -/
abbrev Announcements := List (BitVec 32 × Mac)

/-- The entry of cleared memory. -/
def clearedEntry : ArpCacheEntry := ⟨0, fun _ => 0⟩

/-- `arp_init`. The index is 0 since the start of the kernel. -/
def arpInit : ArpCache := ⟨fun _ => clearedEntry, 0⟩

/-- The cache, and what was announced to it. -/
structure ArpRun where
  cache : ArpCache
  history : Announcements

/-- The calls of `arp_update_cache` after `arp_init`. -/
def arpSystem : System ArpRun (BitVec 32 × Mac) where
  init s := s = ⟨arpInit, []⟩
  step s a s' := s' = ⟨arpUpdateCache s.cache a.1 a.2, a :: s.history⟩

/-- All places of the cache were filled. -/
def Filled (history : Announcements) : Prop := 16 ≤ (entered 16 history).length

/-- The address is not that of an empty place. -/
def Marked (history : Announcements) (ip : BitVec 32) : Prop := ip ≠ 0 ∨ Filled history

/-- The condition on an announcement. -/
def AnnouncesMarked (s : ArpRun) (a : BitVec 32 × Mac) : Prop := Marked s.history a.1

/-- A lookup answers as the abstract cache does. -/
def LookupRight (s : ArpRun) (ip : BitVec 32) : Prop :=
  arpLookupMac s.cache ip = lookup 16 s.history ip

/-- An address that was announced is in one entry at most. -/
def OnePlace (s : ArpRun) : Prop :=
  ∀ ip ∈ s.history.map Prod.fst, ∀ i j,
    (s.cache.entry i).ipAddr = ip → (s.cache.entry j).ipAddr = ip → i = j

/-! ### Where the addresses lie -/

/-- The place of the key before which `p` of `count` keys were entered later. -/
def place (count p : ℕ) : Fin 16 := ⟨(count - 1 - p) % 16, Nat.mod_lt _ (by decide)⟩

/-- The cache holds what the abstract one does. -/
structure Holds (c : ArpCache) (history : Announcements) : Prop where
  next : (c.nextIdx : ℕ) = (entered 16 history).length % 16
  entry : ∀ p ip, p < 16 → (entered 16 history)[p]? = some ip → ∃ mac,
    latest history ip = some mac ∧ c.entry (place (entered 16 history).length p) = ⟨ip, mac⟩
  empty : ∀ i : Fin 16, (entered 16 history).length ≤ i → c.entry i = clearedEntry
  nonzero : ¬ Filled history → 0 ∉ entered 16 history

section Holds

variable {c : ArpCache} {history : Announcements} {ip : BitVec 32} {mac : Mac} {i : Fin 16} {p : ℕ}

theorem holds_arpInit : Holds arpInit [] where
  next := rfl
  entry := by simp
  empty := fun _ _ => rfl
  nonzero := by simp

/-- An entry with a marked address is that of a key. -/
theorem Holds.of_entry (h : Holds c history) (hip : Marked history ip)
    (hi : (c.entry i).ipAddr = ip) : ∃ p < 16, (entered 16 history)[p]? = some ip ∧
      i = place (entered 16 history).length p := by
  have hlt := i.isLt
  by_cases hempty : (entered 16 history).length ≤ i
  · -- the place is not filled
    have hzero : ip = 0 := by
      rw [← hi, h.empty i hempty]
      rfl
    rcases hip with hne | hfilled
    · exact absurd hzero hne
    · unfold Filled at hfilled
      omega
  · obtain ⟨p, hp⟩ : ∃ p, p = ((entered 16 history).length - 1 - i) % 16 := ⟨_, rfl⟩
    have hp' : p < (entered 16 history).length := by omega
    have hplace : i = place (entered 16 history).length p := Fin.ext (by
      show (i : ℕ) = ((entered 16 history).length - 1 - p) % 16
      omega)
    obtain ⟨mac, -, hentry⟩ := h.entry p _ (by omega) (List.getElem?_eq_getElem hp')
    refine ⟨p, by omega, ?_, hplace⟩
    rw [← hplace] at hentry
    rw [List.getElem?_eq_getElem hp', ← hi, hentry]

/-- The lookup of a marked address. -/
theorem Holds.lookup (h : Holds c history) (hip : Marked history ip) :
    arpLookupMac c ip = FifoCache.lookup 16 history ip := by
  rw [arpLookupMac, FifoCache.lookup]
  cases hfind : c.find ip with
  | none =>
    rw [if_neg]
    · rfl
    · intro hmem
      obtain ⟨p, hp, hkey⟩ := mem_present_iff.mp hmem
      obtain ⟨mac, -, hentry⟩ := h.entry p ip hp hkey
      exact ArpCache.ipAddr_ne_of_find hfind _ (congrArg ArpCacheEntry.ipAddr hentry)
  | some i =>
    obtain ⟨p, hp, hkey, rfl⟩ := h.of_entry hip (ArpCache.ipAddr_of_find hfind)
    obtain ⟨mac, hlatest, hentry⟩ := h.entry p ip hp hkey
    rw [if_pos (mem_present_iff.mpr ⟨p, hp, hkey⟩), hlatest, Option.map_some, hentry]

/-- An update of an address that has a place. -/
theorem Holds.update (h : Holds c history) (hip : Marked history ip)
    (hfind : c.find ip = some i) : Holds (arpUpdateCache c ip mac) ((ip, mac) :: history) := by
  obtain ⟨p, hp, hkey, hi⟩ := h.of_entry hip (ArpCache.ipAddr_of_find hfind)
  have hsame : entered 16 ((ip, mac) :: history) = entered 16 history :=
    entered_of_mem (mem_present_iff.mpr ⟨p, hp, hkey⟩)
  have hp' : p < (entered 16 history).length := (List.getElem?_eq_some_iff.mp hkey).1
  have hentry : (arpUpdateCache c ip mac).entry =
      Function.update c.entry i { c.entry i with macAddr := mac } := by
    rw [arpUpdateCache, hfind]
  constructor
  · rw [hsame, arpUpdateCache, hfind]
    exact h.next
  · intro q key hq hkey'
    rw [hsame] at hkey' ⊢
    obtain ⟨mac', hlatest, hold⟩ := h.entry q key hq hkey'
    by_cases hkeys : key = ip
    · subst hkeys
      obtain rfl : q = p := pos_unique hq hp hkey' hkey
      rw [← hi] at hold ⊢
      exact ⟨mac, latest_cons_self, by rw [hentry, Function.update_self, hold]⟩
    · refine ⟨mac', by rw [latest_cons_of_ne hkeys, hlatest], ?_⟩
      rw [hentry, Function.update_of_ne, hold]
      intro heq
      refine hkeys ?_
      rw [← ArpCache.ipAddr_of_find hfind, ← heq, hold]
  · intro j hj
    rw [hsame] at hj
    rw [hentry, Function.update_of_ne, h.empty j hj]
    rintro rfl
    have hval : (j : ℕ) = ((entered 16 history).length - 1 - p) % 16 := congrArg Fin.val hi
    omega
  · rw [Filled, hsame]
    exact h.nonzero

/-- An update of an address that has none. -/
theorem Holds.enter (h : Holds c history) (hip : Marked history ip) (hfind : c.find ip = none) :
    Holds (arpUpdateCache c ip mac) ((ip, mac) :: history) := by
  have habsent : ip ∉ present 16 history := by
    intro hmem
    obtain ⟨p, hp, hkey⟩ := mem_present_iff.mp hmem
    obtain ⟨mac, -, hentry⟩ := h.entry p ip hp hkey
    exact ArpCache.ipAddr_ne_of_find hfind _ (congrArg ArpCacheEntry.ipAddr hentry)
  have hnew : entered 16 ((ip, mac) :: history) = ip :: entered 16 history :=
    entered_of_notMem habsent
  have hupdate : arpUpdateCache c ip mac =
      ⟨Function.update c.entry c.nextIdx ⟨ip, mac⟩, c.nextIdx + 1⟩ := by
    rw [arpUpdateCache, hfind]
  have hnext := h.next
  constructor
  · rw [hnew, hupdate, List.length_cons, Fin.val_add, hnext]
    show ((entered 16 history).length % 16 + 1) % 16 = _
    omega
  · intro q key hq hkey
    rw [hnew] at hkey ⊢
    rw [hupdate, List.length_cons]
    cases q with
    | zero =>
      obtain rfl : ip = key := Option.some.inj hkey
      have hplace : place ((entered 16 history).length + 1) 0 = c.nextIdx := Fin.ext hnext.symm
      exact ⟨mac, latest_cons_self, by rw [hplace]; exact Function.update_self ..⟩
    | succ q =>
      rw [List.getElem?_cons_succ] at hkey
      obtain ⟨mac', hlatest, hold⟩ := h.entry q key (by omega) hkey
      have hlt : q < (entered 16 history).length := (List.getElem?_eq_some_iff.mp hkey).1
      have hplace : place ((entered 16 history).length + 1) (q + 1) =
          place (entered 16 history).length q := Fin.ext (by
        show ((entered 16 history).length + 1 - 1 - (q + 1)) % 16 =
          ((entered 16 history).length - 1 - q) % 16
        omega)
      have hkeys : key ≠ ip := by
        rintro rfl
        exact habsent (mem_present_iff.mpr ⟨q, by omega, hkey⟩)
      refine ⟨mac', by rw [latest_cons_of_ne hkeys, hlatest], ?_⟩
      rw [hplace]
      refine (Function.update_of_ne ?_ ..).trans hold
      intro heq
      have hval : ((entered 16 history).length - 1 - q) % 16 = c.nextIdx := congrArg Fin.val heq
      omega
  · intro i hi
    rw [hnew, List.length_cons] at hi
    rw [hupdate]
    refine (Function.update_of_ne ?_ ..).trans (h.empty i (by omega))
    rintro rfl
    omega
  · intro hfilled hmem
    rw [Filled, hnew, List.length_cons] at hfilled
    rw [hnew] at hmem
    have hnot : ¬ Filled history := fun hfull => by unfold Filled at hfull; omega
    rcases List.mem_cons.mp hmem with rfl | hold
    · exact (hip.resolve_right hnot) rfl
    · exact h.nonzero hnot hold

/-- The step lemma. -/
theorem Holds.announce (h : Holds c history) (hip : Marked history ip) (mac : Mac) :
    Holds (arpUpdateCache c ip mac) ((ip, mac) :: history) := by
  cases hfind : c.find ip with
  | none => exact h.enter hip hfind
  | some i => exact h.update hip hfind

/-- The run lemma. -/
theorem holds_of_reachable {s : ArpRun} (h : arpSystem.ReachableUnder AnnouncesMarked s) :
    Holds s.cache s.history := by
  apply h.invariant (I := fun s => Holds s.cache s.history)
  · rintro s rfl
    exact holds_arpInit
  · rintro s a s' hs hip rfl
    exact hs.announce hip a.2

end Holds

/-! ### Lookups -/

section Lookups

variable {s : ArpRun} {ip : BitVec 32}

/-- What was announced stays marked. -/
theorem Marked.cons {history : Announcements} (h : Marked history ip) (a : BitVec 32 × Mac) :
    Marked (a :: history) ip := by
  apply h.imp_right
  intro hfilled
  unfold Filled at *
  rw [entered]
  split_ifs
  · exact hfilled
  · exact hfilled.trans (Nat.le_succ _)

theorem marked_of_reachable (h : arpSystem.ReachableUnder AnnouncesMarked s) :
    ∀ ip ∈ s.history.map Prod.fst, Marked s.history ip := by
  apply h.invariant (I := fun s => ∀ ip ∈ s.history.map Prod.fst, Marked s.history ip)
  · rintro s rfl ip hip
    cases hip
  · rintro s a s' hs ha rfl ip hip
    rw [List.map_cons, List.mem_cons] at hip
    rcases hip with rfl | hip
    · exact Marked.cons ha a
    · exact (hs ip hip).cons a

/-- After announcements of marked addresses every one of these has one place, and the lookups of
marked addresses are the ones that answer right. -/
theorem lookupRight_iff (h : arpSystem.ReachableUnder AnnouncesMarked s) :
    OnePlace s ∧ ∀ ip, LookupRight s ip ↔ Marked s.history ip := by
  have hholds := holds_of_reachable h
  constructor
  · intro ip hip i j hi hj
    have hmarked := marked_of_reachable h ip hip
    obtain ⟨p, hp, hkey, rfl⟩ := hholds.of_entry hmarked hi
    obtain ⟨q, hq, hkey', rfl⟩ := hholds.of_entry hmarked hj
    rw [pos_unique hp hq hkey hkey']
  · refine fun ip => ⟨fun hright => ?_, hholds.lookup⟩
    by_contra hnot
    obtain ⟨rfl, hfilled⟩ : ip = 0 ∧ ¬ Filled s.history := by
      rw [Marked, not_or, not_not] at hnot
      exact hnot
    -- an empty place is found, and the address is not a key
    have hlookup : FifoCache.lookup 16 s.history 0 = none :=
      if_neg fun hmem => hholds.nonzero hfilled (List.mem_of_mem_take hmem)
    rw [LookupRight, hlookup, arpLookupMac, Option.map_eq_none_iff] at hright
    have hlast := hholds.empty 15 (by
      show (entered 16 s.history).length ≤ 15
      unfold Filled at hfilled
      omega)
    exact ArpCache.ipAddr_ne_of_find hright 15 (congrArg ArpCacheEntry.ipAddr hlast)

/-- The next announcement of a run. -/
def ArpRun.announce (s : ArpRun) (ip : BitVec 32) (mac : Mac) : ArpRun :=
  ⟨arpUpdateCache s.cache ip mac, (ip, mac) :: s.history⟩

theorem reachable_announce (ip : BitVec 32) (h : arpSystem.ReachableUnder AnnouncesMarked s)
    (hip : ip ≠ 0) (mac : Mac) : arpSystem.ReachableUnder AnnouncesMarked (s.announce ip mac) :=
  h.step (a := (ip, mac)) (.inl hip) rfl

/-- Two addresses are announced, the first one twice. -/
theorem lookupRight_two : ∃ s, s.history.map Prod.fst = [0x0A000001, 0x0A000002, 0x0A000001] ∧
    OnePlace s ∧ ∀ ip, LookupRight s ip ↔ Marked s.history ip := by
  have hinit : arpSystem.ReachableUnder AnnouncesMarked ⟨arpInit, []⟩ := .init rfl
  have hone := reachable_announce 0x0A000001 hinit (by decide) fun _ => 1
  have htwo := reachable_announce 0x0A000002 hone (by decide) fun _ => 2
  have hagain := reachable_announce 0x0A000001 htwo (by decide) fun _ => 3
  exact ⟨_, rfl, lookupRight_iff hagain⟩

/-- In the empty cache 0.0.0.0 is found. -/
theorem not_lookupRight : ¬ ∀ s ip, arpSystem.Reachable s → LookupRight s ip := by
  intro hall
  have hright := hall ⟨arpInit, []⟩ 0 (System.ReachableUnder.init rfl)
  have hfound : arpLookupMac arpInit 0 = some fun _ => 0 := by decide
  rw [LookupRight, hfound] at hright
  cases hright

end Lookups

end KyroOS.Net

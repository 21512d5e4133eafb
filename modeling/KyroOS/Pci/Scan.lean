import KyroOS.Pci.Bars
import Mathlib.Data.List.Nodup
import Mathlib.Data.List.Range

/-!
# The scan of the buses

The kernel looks at every device of every bus. A device is there when its function 0 has a vendor,
and its other functions are looked at when the header of function 0 says that there are several.
Each function that is found is registered with the device manager, if memory can be allocated for
it.

## Main definitions

* `pciCheckFunction`, `pciCheckDevice`, `pciCheckAllBuses` — the scan
* `Found` — the functions that the scan is to find
* `functions` — all functions, in the order of the scan
* `allocated` — those for which memory is allocated

## Main results

* `pciCheckAllBuses_spec` — every function is registered once, with its identifiers
-/

namespace KyroOS.Pci

/-- `device_t`, with the name of its driver. -/
structure Device where
  name : String
  bus : BitVec 8
  device : BitVec 8
  func : BitVec 8
  vendorId : BitVec 16
  deviceId : BitVec 16
  driver : Option String
  deriving DecidableEq, Repr

/-- The ports, `discovered_devices`, and the number of allocations so far. -/
structure Discovery (σ : Type) where
  ports : Ports σ
  discovered : List Device
  allocations : ℕ

section Driver

variable {σ : Type} (B : Bus σ) (kmalloc : ℕ → Bool) (p : Ports σ) (s : Discovery σ)
  (bus device func : BitVec 8)

/-- `pci_get_vendor_id` -/
def pciGetVendorId : Ports σ × BitVec 16 := pciReadConfigWord B p bus device func 0x00

/-- `pci_get_device_id` -/
def pciGetDeviceId : Ports σ × BitVec 16 := pciReadConfigWord B p bus device func 0x02

/-- `pci_get_class` -/
def pciGetClass : Ports σ × BitVec 8 := pciReadConfigByte B p bus device func 0x0B

/-- `pci_get_subclass` -/
def pciGetSubclass : Ports σ × BitVec 8 := pciReadConfigByte B p bus device func 0x0A

/-- `deviceman_register_device` -/
def devicemanRegisterDevice (dev : Device) : Discovery σ :=
  { s with discovered := dev :: s.discovered }

/-- `pci_check_function` -/
def pciCheckFunction : Discovery σ :=
  let (p, vendorID) := pciGetVendorId B s.ports bus device func
  if vendorID = 0xFFFF then { s with ports := p }
  else
    let (p, deviceID) := pciGetDeviceId B p bus device func
    let (p, _) := pciGetClass B p bus device func
    let (p, _) := pciGetSubclass B p bus device func
    if kmalloc s.allocations then
      devicemanRegisterDevice { s with ports := p, allocations := s.allocations + 1 }
        ⟨"PCI Device", bus, device, func, vendorID, deviceID, none⟩
    else { s with ports := p, allocations := s.allocations + 1 }

/-- The turn of the loop over the functions of a device. -/
def checkTurn : Discovery σ :=
  let (p, vendorID) := pciGetVendorId B s.ports bus device func
  if vendorID ≠ 0xFFFF then pciCheckFunction B kmalloc { s with ports := p } bus device func
  else { s with ports := p }

/-- `pci_check_device` -/
def pciCheckDevice : Discovery σ :=
  let (p, headerType) := pciReadConfigByte B s.ports bus device 0 0x0E
  let (p, vendorID) := pciGetVendorId B p bus device 0
  if vendorID = 0xFFFF then { s with ports := p }
  else if headerType &&& 0x80 ≠ 0 then
    (List.range 8).foldl (fun s func => checkTurn B kmalloc s bus device (BitVec.ofNat 8 func))
      { s with ports := p }
  else pciCheckFunction B kmalloc { s with ports := p } bus device 0

/-- `pci_check_all_buses` -/
def pciCheckAllBuses : Discovery σ :=
  (List.range 256).foldl (fun s bus =>
    (List.range 32).foldl (fun s device =>
      pciCheckDevice B kmalloc s (BitVec.ofNat 8 bus) (BitVec.ofNat 8 device)) s) s

end Driver

/-! ### What there is to find -/

section Spec

variable {σ : Type} (B : Bus σ) (regs : σ)

/-- The vendor of a function. -/
def vendorOf (loc : Location) : BitVec 16 := (B.read regs loc 0).setWidth 16

/-- The function answers. -/
def Present (loc : Location) : Prop := vendorOf B regs loc ≠ 0xFFFF

instance (loc : Location) : Decidable (Present B regs loc) := inferInstanceAs (Decidable (_ ≠ _))

/-- The header of the function says that the device has several. -/
def MultiFunction (loc : Location) : Prop := (B.read regs loc 3).getLsbD 23 = true

instance (loc : Location) : Decidable (MultiFunction B regs loc) :=
  inferInstanceAs (Decidable (_ = _))

/-- The function 0 of a device. -/
def Location.first (loc : Location) : Location := { loc with func := 0 }

/-- The functions that there are: those of a device whose function 0 answers; the other ones only
when there are several. -/
def Found (loc : Location) : Prop :=
  Present B regs loc ∧ Present B regs loc.first ∧ (loc.func = 0 ∨ MultiFunction B regs loc.first)

instance (loc : Location) : Decidable (Found B regs loc) :=
  inferInstanceAs (Decidable (_ ∧ _ ∧ _))

/-- The device that is registered for a function. -/
def deviceAt (loc : Location) : Device where
  name := "PCI Device"
  bus := loc.bus
  device := loc.device8
  func := loc.func8
  vendorId := vendorOf B regs loc
  deviceId := (B.read regs loc 0 >>> 16).setWidth 16
  driver := none

/-- All functions of a device. -/
def functionsOf (bus : BitVec 8) (device : BitVec 5) : List Location :=
  (List.range 8).map fun func => ⟨bus, device, BitVec.ofNat 3 func⟩

/-- All functions, in the order of the scan. -/
def functions : List Location :=
  (List.range 256).flatMap fun bus =>
    (List.range 32).flatMap fun device => functionsOf (BitVec.ofNat 8 bus) (BitVec.ofNat 5 device)

/-- The functions for which memory is allocated, when the first one asks for the `n`-th time. -/
def allocated (kmalloc : ℕ → Bool) : ℕ → List Location → List Location
  | _, [] => []
  | n, loc :: locs =>
    if kmalloc n then loc :: allocated kmalloc (n + 1) locs else allocated kmalloc (n + 1) locs

end Spec

/-! ### One function, one device -/

section Registered

variable {σ : Type} (B : Bus σ) (kmalloc : ℕ → Bool)

theorem allocated_append (n : ℕ) (locs locs' : List Location) :
    allocated kmalloc n (locs ++ locs') =
      allocated kmalloc n locs ++ allocated kmalloc (n + locs.length) locs' := by
  induction locs generalizing n with
  | nil => rfl
  | cons loc locs ih =>
    have hrest := ih (n + 1)
    rw [List.cons_append, allocated, allocated, hrest, List.length_cons,
      show n + 1 + locs.length = n + (locs.length + 1) by omega]
    split
    · rfl
    · rfl

/-- The functions were registered, one after the other; nothing else has changed but the address
that is latched. -/
structure Registered (s : Discovery σ) (locs : List Location) (s' : Discovery σ) : Prop where
  regs : s'.ports.regs = s.ports.regs
  discovered : s'.discovered =
    ((allocated kmalloc s.allocations locs).map (deviceAt B s.ports.regs)).reverse ++ s.discovered
  allocations : s'.allocations = s.allocations + locs.length

variable {B kmalloc} {s s' s'' : Discovery σ} {locs locs' : List Location} {loc : Location}

theorem Registered.trans (h : Registered B kmalloc s locs s')
    (h' : Registered B kmalloc s' locs' s'') : Registered B kmalloc s (locs ++ locs') s'' where
  regs := h'.regs.trans h.regs
  discovered := by
    rw [h'.discovered, h.discovered, h.regs, h.allocations, allocated_append, List.map_append,
      List.reverse_append, List.append_assoc]
  allocations := by
    rw [h'.allocations, h.allocations, List.length_append, Nat.add_assoc]

/-- A scan that only latched an address has registered nothing. -/
theorem Registered.nil (hregs : s'.ports.regs = s.ports.regs)
    (hdiscovered : s'.discovered = s.discovered) (hallocations : s'.allocations = s.allocations) :
    Registered B kmalloc s [] s' :=
  ⟨hregs, hdiscovered, hallocations⟩

/-- The address that was latched before does not matter. -/
theorem Registered.of_ports {p : Ports σ} (h : Registered B kmalloc { s with ports := p } locs s')
    (hp : p.regs = s.ports.regs) : Registered B kmalloc s locs s' where
  regs := h.regs.trans hp
  discovered := by
    rw [h.discovered, hp]
  allocations := h.allocations

/-- A loop registers what its turns register. -/
theorem Registered.foldl {ι : Type} {step : Discovery σ → ι → Discovery σ}
    {found : ι → List Location} (regs : σ) (xs : List ι)
    (hstep : ∀ s, s.ports.regs = regs → ∀ x ∈ xs, Registered B kmalloc s (found x) (step s x))
    (hs : s.ports.regs = regs) :
    Registered B kmalloc s (xs.flatMap found) (xs.foldl step s) := by
  induction xs generalizing s with
  | nil => exact .nil rfl rfl rfl
  | cons x xs ih =>
    have hfirst := hstep s hs x List.mem_cons_self
    have hrest := ih (fun s hs y hy => hstep s hs y (List.mem_cons_of_mem x hy))
      (hfirst.regs.trans hs)
    rw [List.flatMap_cons]
    exact hfirst.trans hrest

theorem pciReadConfigWord_eq (p : Ports σ) (loc : Location) (offset : BitVec 8) :
    pciReadConfigWord B p loc.bus loc.device8 loc.func8 offset = (⟨loc.addr offset, p.regs⟩,
      ((B.read p.regs loc (offset.extractLsb' 2 6) >>> shift offset) &&& 0xFFFF#32).setWidth 16) := by
  have hdata := inData_addr B p loc offset
  refine Prod.ext rfl ?_
  rw [← hdata]
  rfl

theorem pciReadConfigByte_eq (p : Ports σ) (loc : Location) (offset : BitVec 8) :
    pciReadConfigByte B p loc.bus loc.device8 loc.func8 offset = (⟨loc.addr offset, p.regs⟩,
      ((B.read p.regs loc (offset.extractLsb' 2 6) >>> shift offset) &&& 0xFF#32).setWidth 8) := by
  have hdata := inData_addr B p loc offset
  refine Prod.ext rfl ?_
  rw [← hdata]
  rfl

theorem setWidth_and_word (w : BitVec 32) : (w &&& 0xFFFF#32).setWidth 16 = w.setWidth 16 := by
  apply BitVec.eq_of_getLsbD_eq
  intro i hi
  have hmask := getLsbD_wordMask i (by omega)
  rw [BitVec.getLsbD_setWidth, BitVec.getLsbD_setWidth, BitVec.getLsbD_and, hmask]
  simp [hi]

theorem pciGetVendorId_eq (p : Ports σ) (loc : Location) :
    pciGetVendorId B p loc.bus loc.device8 loc.func8 =
      (⟨loc.addr 0x00, p.regs⟩, vendorOf B p.regs loc) := by
  rw [pciGetVendorId, pciReadConfigWord_eq, setWidth_and_word]
  rfl

theorem pciGetDeviceId_eq (p : Ports σ) (loc : Location) :
    pciGetDeviceId B p loc.bus loc.device8 loc.func8 =
      (⟨loc.addr 0x02, p.regs⟩, (B.read p.regs loc 0 >>> 16).setWidth 16) := by
  rw [pciGetDeviceId, pciReadConfigWord_eq, setWidth_and_word]
  rfl

/-- A function is registered when it answers. -/
theorem pciCheckFunction_registered (s : Discovery σ) (loc : Location) :
    Registered B kmalloc s (if Present B s.ports.regs loc then [loc] else [])
      (pciCheckFunction B kmalloc s loc.bus loc.device8 loc.func8) := by
  simp only [pciCheckFunction, pciGetVendorId_eq, pciGetDeviceId_eq]
  by_cases hpresent : Present B s.ports.regs loc
  · rw [if_pos hpresent]
    have hvendor : ¬ vendorOf B s.ports.regs loc = 0xFFFF := hpresent
    simp only [hvendor, if_false, pciGetClass, pciGetSubclass, pciReadConfigByte_eq]
    by_cases halloc : kmalloc s.allocations
    · simp only [halloc, if_true, devicemanRegisterDevice]
      exact ⟨rfl, by simp [allocated, halloc, deviceAt], rfl⟩
    · simp only [halloc]
      exact ⟨rfl, by simp [allocated, halloc], rfl⟩
  · rw [if_neg hpresent]
    have hvendor : vendorOf B s.ports.regs loc = 0xFFFF := not_not.mp hpresent
    simp only [hvendor, if_true]
    exact .nil rfl rfl rfl

/-! ### Devices and buses -/

/-- The bit of the header type that is looked at. -/
theorem headerType_and (w : BitVec 32) :
    ((w >>> 16) &&& 0xFF#32).setWidth 8 &&& 0x80 ≠ 0 ↔ w.getLsbD 23 = true := by
  have hbit : ((w >>> 16) &&& 0xFF#32).setWidth 8 &&& 0x80 = if w.getLsbD 23 then 0x80#8 else 0 := by
    apply BitVec.eq_of_getLsbD_eq
    intro i hi
    rw [BitVec.getLsbD_eq_getElem (by decide : 23 < 32)]
    interval_cases i <;> cases hw : w[23] <;> simp [hw]
  rw [hbit]
  cases w.getLsbD 23 <;> decide

/-- A turn of the loop over the functions of a device. -/
theorem checkTurn_registered (s : Discovery σ) (loc : Location) :
    Registered B kmalloc s (if Present B s.ports.regs loc then [loc] else [])
      (checkTurn B kmalloc s loc.bus loc.device8 loc.func8) := by
  simp only [checkTurn, pciGetVendorId_eq]
  by_cases hpresent : Present B s.ports.regs loc
  · have hvendor : vendorOf B s.ports.regs loc ≠ 0xFFFF := hpresent
    rw [if_pos hvendor]
    exact (pciCheckFunction_registered
      { s with ports := ⟨loc.addr 0x00, s.ports.regs⟩ } loc).of_ports rfl
  · have hvendor : ¬ vendorOf B s.ports.regs loc ≠ 0xFFFF := hpresent
    rw [if_neg hvendor, if_neg hpresent]
    exact .nil rfl rfl rfl

theorem setWidth_ofNat_device {device : ℕ} (h : device < 32) :
    (BitVec.ofNat 5 device).setWidth 8 = BitVec.ofNat 8 device := by
  apply BitVec.eq_of_toNat_eq
  simp only [BitVec.toNat_setWidth, BitVec.toNat_ofNat]
  omega

theorem func8_ofNat {bus : BitVec 8} {device : BitVec 5} {func : ℕ} (h : func < 8) :
    (Location.mk bus device (BitVec.ofNat 3 func)).func8 = BitVec.ofNat 8 func := by
  apply BitVec.eq_of_toNat_eq
  simp only [Location.func8, BitVec.toNat_setWidth, BitVec.toNat_ofNat]
  omega

/-- The functions of a device come behind function 0. -/
theorem functionsOf_eq (bus : BitVec 8) (device : BitVec 5) :
    functionsOf bus device = ⟨bus, device, 0⟩ ::
      (List.range' 1 7).map fun func => ⟨bus, device, BitVec.ofNat 3 func⟩ := rfl

theorem first_of_mem_functionsOf {bus : BitVec 8} {device : BitVec 5}
    (h : loc ∈ functionsOf bus device) : loc.first = ⟨bus, device, 0⟩ := by
  obtain ⟨func, -, rfl⟩ := List.mem_map.mp h
  rfl

/-- A device none of whose functions is found. -/
theorem filter_functionsOf_absent {regs : σ} {bus : BitVec 8} {device : BitVec 5}
    (h : ¬ Present B regs ⟨bus, device, 0⟩) :
    (functionsOf bus device).filter (Found B regs) = [] := by
  rw [List.filter_eq_nil_iff]
  intro loc hloc hfound
  have hfirst := (of_decide_eq_true hfound).2.1
  rw [first_of_mem_functionsOf hloc] at hfirst
  exact h hfirst

/-- A device of which all functions that answer are found. -/
theorem filter_functionsOf_multi {regs : σ} {bus : BitVec 8} {device : BitVec 5}
    (h : Present B regs ⟨bus, device, 0⟩) (hmulti : MultiFunction B regs ⟨bus, device, 0⟩) :
    (functionsOf bus device).filter (Found B regs) =
      (List.range 8).flatMap fun func =>
        if Present B regs ⟨bus, device, BitVec.ofNat 3 func⟩ then
          [⟨bus, device, BitVec.ofNat 3 func⟩]
        else [] := by
  have hfound : ∀ loc ∈ functionsOf bus device,
      decide (Found B regs loc) = decide (Present B regs loc) := by
    intro loc hloc
    have hfirst := first_of_mem_functionsOf hloc
    rw [decide_eq_decide, Found, hfirst]
    exact ⟨fun hloc => hloc.1, fun hloc => ⟨hloc, h, .inr hmulti⟩⟩
  rw [List.filter_congr hfound, functionsOf, List.filter_map]
  induction List.range 8 with
  | nil => rfl
  | cons func funcs ih =>
    rw [List.flatMap_cons, ← ih, List.filter_cons]
    by_cases hpresent : Present B regs ⟨bus, device, BitVec.ofNat 3 func⟩
    · simp [hpresent]
    · simp [hpresent]

/-- A device of which only function 0 is found. -/
theorem filter_functionsOf_single {regs : σ} {bus : BitVec 8} {device : BitVec 5}
    (h : Present B regs ⟨bus, device, 0⟩) (hsingle : ¬ MultiFunction B regs ⟨bus, device, 0⟩) :
    (functionsOf bus device).filter (Found B regs) = [⟨bus, device, 0⟩] := by
  have hfirst : Found B regs ⟨bus, device, 0⟩ := ⟨h, h, .inl rfl⟩
  rw [functionsOf_eq, List.filter_cons, if_pos (decide_eq_true hfirst), List.cons.injEq]
  refine ⟨rfl, List.filter_eq_nil_iff.mpr fun loc hloc hfound => ?_⟩
  obtain ⟨func, hfunc, rfl⟩ := List.mem_map.mp hloc
  obtain ⟨-, -, hzero | hmulti⟩ := of_decide_eq_true hfound
  · have hnat : func % 8 = 0 := by simpa using congrArg BitVec.toNat hzero
    rw [List.mem_range'_1] at hfunc
    omega
  · exact hsingle hmulti

/-- The functions of a device that are found are registered. -/
theorem pciCheckDevice_registered (s : Discovery σ) (bus : BitVec 8) (device : BitVec 5) :
    Registered B kmalloc s ((functionsOf bus device).filter (Found B s.ports.regs))
      (pciCheckDevice B kmalloc s bus (device.setWidth 8)) := by
  have hheader : pciReadConfigByte B s.ports bus (device.setWidth 8) 0 0x0E =
      (⟨_, s.ports.regs⟩, ((B.read s.ports.regs ⟨bus, device, 0⟩ 3 >>> 16) &&& 0xFF#32).setWidth 8) :=
    pciReadConfigByte_eq s.ports ⟨bus, device, 0⟩ 0x0E
  have hvendor : ∀ p : Ports σ, pciGetVendorId B p bus (device.setWidth 8) 0 =
      (⟨_, p.regs⟩, vendorOf B p.regs ⟨bus, device, 0⟩) :=
    fun p => pciGetVendorId_eq p ⟨bus, device, 0⟩
  simp only [pciCheckDevice, hheader, hvendor]
  by_cases hpresent : Present B s.ports.regs ⟨bus, device, 0⟩
  · have hthere : ¬ vendorOf B s.ports.regs ⟨bus, device, 0⟩ = 0xFFFF := hpresent
    rw [if_neg hthere]
    by_cases hmulti : MultiFunction B s.ports.regs ⟨bus, device, 0⟩
    · rw [if_pos ((headerType_and _).mpr hmulti), filter_functionsOf_multi hpresent hmulti]
      refine (Registered.foldl s.ports.regs (List.range 8) (fun s' hs' func hfunc => ?_)
        rfl).of_ports rfl
      have hturn : Registered B kmalloc s' _ _ :=
        checkTurn_registered s' ⟨bus, device, BitVec.ofNat 3 func⟩
      rw [hs', func8_ofNat (List.mem_range.mp hfunc)] at hturn
      exact hturn
    · rw [if_neg (mt (headerType_and _).mp hmulti), filter_functionsOf_single hpresent hmulti]
      have hcheck : Registered B kmalloc s _ _ := (pciCheckFunction_registered
        { s with ports := ⟨_, s.ports.regs⟩ } ⟨bus, device, 0⟩).of_ports rfl
      rw [if_pos hpresent] at hcheck
      exact hcheck
  · have hgone : vendorOf B s.ports.regs ⟨bus, device, 0⟩ = 0xFFFF := not_not.mp hpresent
    rw [if_pos hgone, filter_functionsOf_absent hpresent]
    exact .nil rfl rfl rfl

/-- The functions that are found are registered. -/
theorem pciCheckAllBuses_registered (s : Discovery σ) :
    Registered B kmalloc s (functions.filter (Found B s.ports.regs))
      (pciCheckAllBuses B kmalloc s) := by
  rw [functions, List.filter_flatMap]
  refine Registered.foldl s.ports.regs (List.range 256) (fun s' hs' bus _ => ?_) rfl
  rw [List.filter_flatMap]
  refine Registered.foldl s.ports.regs (List.range 32) (fun s'' hs'' device hdevice => ?_) hs'
  have hcheck : Registered B kmalloc s'' _ _ :=
    pciCheckDevice_registered s'' (BitVec.ofNat 8 bus) (BitVec.ofNat 5 device)
  rw [hs'', setWidth_ofNat_device (List.mem_range.mp hdevice)] at hcheck
  exact hcheck

/-! ### All functions -/

theorem mem_functions (loc : Location) : loc ∈ functions := by
  obtain ⟨bus, device, func⟩ := loc
  refine List.mem_flatMap.mpr ⟨bus.toNat, List.mem_range.mpr bus.isLt, ?_⟩
  refine List.mem_flatMap.mpr ⟨device.toNat, List.mem_range.mpr device.isLt, ?_⟩
  refine List.mem_map.mpr ⟨func.toNat, List.mem_range.mpr func.isLt, ?_⟩
  simp

/-- A number that fits is told from its word. -/
theorem ofNat_inj {n a b : ℕ} (ha : a < 2 ^ n) (hb : b < 2 ^ n)
    (h : BitVec.ofNat n a = BitVec.ofNat n b) : a = b := by
  have hnat := congrArg BitVec.toNat h
  rwa [BitVec.toNat_ofNat, BitVec.toNat_ofNat, Nat.mod_eq_of_lt ha, Nat.mod_eq_of_lt hb] at hnat

/-- Lists that belong to different keys have no element twice when each of them has none. -/
theorem nodup_flatMap_range {β : Type} {n : ℕ} {f : ℕ → List β} (key : β → ℕ)
    (hnodup : ∀ i < n, (f i).Nodup) (hkey : ∀ i < n, ∀ b ∈ f i, key b = i) :
    ((List.range n).flatMap f).Nodup := by
  rw [List.nodup_flatMap]
  refine ⟨fun i hi => hnodup i (List.mem_range.mp hi), ?_⟩
  refine List.nodup_range.imp_of_mem fun {i j} hi hj hne => ?_
  intro b hbi hbj
  exact hne ((hkey i (List.mem_range.mp hi) b hbi).symm.trans (hkey j (List.mem_range.mp hj) b hbj))

/-- No function comes twice. -/
theorem nodup_functions : functions.Nodup := by
  refine nodup_flatMap_range (fun loc => loc.bus.toNat) (fun bus hbus => ?_)
    fun bus hbus loc hloc => ?_
  · refine nodup_flatMap_range (fun loc => loc.device.toNat) (fun device hdevice => ?_)
      fun device hdevice loc hloc => ?_
    · refine List.nodup_range.map_on fun a ha b hb hab => ?_
      exact ofNat_inj (List.mem_range.mp ha) (List.mem_range.mp hb) (Location.mk.inj hab).2.2
    · obtain ⟨func, -, rfl⟩ := List.mem_map.mp hloc
      exact Nat.mod_eq_of_lt hdevice
  · obtain ⟨device, -, hloc⟩ := List.mem_flatMap.mp hloc
    obtain ⟨func, -, rfl⟩ := List.mem_map.mp hloc
    exact Nat.mod_eq_of_lt hbus

/-- The scan registers every function that there is, once, with its identifiers and in the order of
the buses, as far as memory is allocated for it; it registers nothing else and changes no
register. -/
theorem pciCheckAllBuses_spec (B : Bus σ) (kmalloc : ℕ → Bool) (s : Discovery σ) :
    let found := functions.filter (Found B s.ports.regs)
    found.Nodup ∧ (∀ loc, loc ∈ found ↔ Found B s.ports.regs loc) ∧
      Registered B kmalloc s found (pciCheckAllBuses B kmalloc s) := by
  intro found
  refine ⟨nodup_functions.filter _, fun loc => ?_, pciCheckAllBuses_registered s⟩
  rw [List.mem_filter, decide_eq_true_iff]
  exact and_iff_right (mem_functions loc)

end Registered

end KyroOS.Pci

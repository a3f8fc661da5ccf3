import HolyOs.Drivers.Pci

/-!
# Enumeration of a bridge tree

Which functions there are, which of them are bridges and what lies behind a bridge, read off the
registers. If the bridges that are reached from a bus form a tree, the scan of the bus visits each
function of the tree once and nothing else.

## Main definitions

* `FunctionPresent`, `BridgeTo`: the functions of a bus and the buses behind its bridges.
* `BridgeTree`: the bridges that are reached from a bus form a tree.
-/
namespace HolyOs.Drivers

open Recursion Relation

/-! ## The registers -/

/-- There is a function at an address: the low half of register 0 is not all ones. -/
def HasVendor (config : PciConfig) (bus device function : UInt8) : Prop :=
  (config bus device function 0x00).toUInt16 ≠ 0xFFFF

/-- Function 0 is there when it has a vendor, the others when also bit 7 of the header type of
function 0 is set. -/
def FunctionPresent (config : PciConfig) (bus device function : UInt8) : Prop :=
  device < 32 ∧ HasVendor config bus device 0 ∧
    (function = 0 ∨ (config bus device 0 0x0C >>> 16).toUInt8 &&& 0x80 ≠ 0 ∧ function < 8 ∧
      HasVendor config bus device function)

/-- The function has the class of a PCI-to-PCI bridge, and `secondary` is the bus behind it. -/
def IsBridgeTo (config : PciConfig) (bus device function secondary : UInt8) : Prop :=
  (config bus device function 0x08 >>> 16).toUInt16 = 0x0604 ∧
    (config bus device function 0x18 >>> 8).toUInt8 = secondary

instance (config : PciConfig) (bus device function : UInt8) :
    Decidable (HasVendor config bus device function) := inferInstanceAs (Decidable (_ ≠ _))

instance (config : PciConfig) (bus device function : UInt8) :
    Decidable (FunctionPresent config bus device function) := inferInstanceAs (Decidable (_ ∧ _))

instance (config : PciConfig) (bus device function secondary : UInt8) :
    Decidable (IsBridgeTo config bus device function secondary) :=
  inferInstanceAs (Decidable (_ ∧ _))

/-- A bridge on `bus` leads to `secondary`. -/
def BridgeTo (config : PciConfig) (bus secondary : UInt8) : Prop :=
  ∃ device function, FunctionPresent config bus device function ∧
    IsBridgeTo config bus device function secondary

/-- The secondary bus numbers of the bridges that are reached from `root` are distinct, and none
of them is `root`. -/
structure BridgeTree (config : PciConfig) (root : UInt8) : Prop where
  rootless : ∀ {bus}, ReflTransGen (BridgeTo config) root bus → ¬ BridgeTo config bus root
  distinct : ∀ {bus device function bus' device' function' secondary},
    ReflTransGen (BridgeTo config) root bus → ReflTransGen (BridgeTo config) root bus' →
    FunctionPresent config bus device function → FunctionPresent config bus' device' function' →
    IsBridgeTo config bus device function secondary →
    IsBridgeTo config bus' device' function' secondary →
    bus = bus' ∧ device = device' ∧ function = function'

section Registers

variable {config : PciConfig} {bus device function : UInt8}

theorem vendorId_eq (word : UInt32) : (word &&& 0xFFFF).toUInt16 = word.toUInt16 := by
  apply UInt16.toBitVec_inj.mp
  ext i hi
  interval_cases i <;> simp

theorem byteOf_eq (word : UInt32) : (word &&& 0xFF).toUInt8 = word.toUInt8 := by
  apply UInt8.toBitVec_inj.mp
  ext i hi
  interval_cases i <;> simp

/-- The class and the subclass are the upper half of a register. -/
theorem class_and_subclass_iff (word : UInt32) :
    (word >>> 24).toUInt8 = 0x06 ∧ (word >>> 16).toUInt8 = 0x04 ↔
      (word >>> 16).toUInt16 = 0x0604 := by
  simp only [← UInt8.toNat_inj, ← UInt16.toNat_inj, UInt32.toNat_toUInt8, UInt32.toNat_toUInt16,
    UInt32.toNat_shiftRight, Nat.shiftRight_eq_div_pow]
  have hword := word.toNat_lt
  simp
  omega

theorem pciGetVendorId_eq (hdevice : device < 32) (hfunction : function < 8) :
    pciGetVendorId config bus device function = (config bus device function 0x00).toUInt16 := by
  rw [pciGetVendorId, pciReadConfig_eq config bus _ hdevice hfunction, vendorId_eq]
  rfl

theorem pciPresent_iff :
    device < 32 ∧ PciPresent config bus device function ↔
      FunctionPresent config bus device function := by
  unfold PciPresent FunctionPresent HasVendor
  refine and_congr_right fun hdevice => ?_
  rw [pciGetVendorId_eq hdevice (by decide),
    pciReadConfig_eq config bus pciHeaderType hdevice (by decide), byteOf_eq]
  refine and_congr_right fun _ => or_congr_right <| and_congr_right fun _ =>
    and_congr_right fun hfunction => ?_
  rw [pciGetVendorId_eq hdevice hfunction]

theorem FunctionPresent.lt (h : FunctionPresent config bus device function) :
    device < 32 ∧ function < 8 := by
  obtain ⟨hdevice, -, rfl | ⟨-, hfunction, -⟩⟩ := h
  · exact ⟨hdevice, by decide⟩
  · exact ⟨hdevice, hfunction⟩

theorem pciIsBridge_iff (hdevice : device < 32) (hfunction : function < 8) {secondary : UInt8} :
    PciIsBridge config bus device function ∧
        pciSecondaryBus config bus device function = secondary ↔
      IsBridgeTo config bus device function secondary := by
  unfold PciIsBridge pciSecondaryBus IsBridgeTo
  rw [pciReadConfig_eq config bus pciClass hdevice hfunction,
    pciReadConfig_eq config bus 0x18 hdevice hfunction, byteOf_eq, byteOf_eq, byteOf_eq,
    ← class_and_subclass_iff]
  rfl

theorem pciBridged_eq : PciBridged config = BridgeTo config := by
  funext bus secondary
  refine propext ⟨?_, ?_⟩
  · rintro ⟨device, function, hdevice, hpresent, hbridge⟩
    have hfound := pciPresent_iff.mp ⟨hdevice, hpresent⟩
    exact ⟨device, function, hfound, (pciIsBridge_iff hdevice hfound.lt.2).mp hbridge⟩
  · rintro ⟨device, function, hfound, hbridge⟩
    obtain ⟨hdevice, hpresent⟩ := pciPresent_iff.mpr hfound
    exact ⟨device, function, hdevice, hpresent, (pciIsBridge_iff hdevice hfound.lt.2).mpr hbridge⟩

end Registers

/-! ## The scan of a tree -/

section Tree

variable {config : PciConfig} {root bus : UInt8}

theorem pciForest_call_eq : (pciForest config).Call = BridgeTo config := by
  rw [← pciBridged_eq]
  funext bus secondary
  exact propext pciForest_call

theorem mem_pciForest_items_iff {visit : PciVisit} :
    visit ∈ (pciForest config).items bus ↔
      ∃ device function, FunctionPresent config bus device function ∧
        visit = pciVisit config bus device function := by
  simp only [mem_pciForest_items, ← pciPresent_iff, and_assoc]

theorem FunctionPresent.below_iff {device function secondary : UInt8}
    (h : FunctionPresent config bus device function) :
    (pciForest config).below (pciVisit config bus device function) = some secondary ↔
      IsBridgeTo config bus device function secondary := by
  rw [pciForest_below_eq_some, pciIsBridge_iff h.lt.1 h.lt.2]

theorem BridgeTree.isTree (h : BridgeTree config root) : (pciForest config).IsTree root where
  rootless {bus visit} hbus hvisit hbelow := by
    rw [pciForest_call_eq] at hbus
    obtain ⟨device, function, hfound, rfl⟩ := mem_pciForest_items_iff.mp hvisit
    exact h.rootless hbus ⟨device, function, hfound, hfound.below_iff.mp hbelow⟩
  parent {bus bus' visit visit' secondary} hbus hbus' hvisit hvisit' hbelow hbelow' := by
    rw [pciForest_call_eq] at hbus hbus'
    obtain ⟨device, function, hfound, rfl⟩ := mem_pciForest_items_iff.mp hvisit
    obtain ⟨device', function', hfound', rfl⟩ := mem_pciForest_items_iff.mp hvisit'
    obtain ⟨rfl, rfl, rfl⟩ := h.distinct hbus hbus' hfound hfound' (hfound.below_iff.mp hbelow)
      (hfound'.below_iff.mp hbelow')
    rfl

/-- The scan returns, and its visits are those of the functions of the tree. -/
theorem BridgeTree.exists_scan (h : BridgeTree config root) :
    ∃ visits, (∃ depth, ∀ depth' ≥ depth, pciScanBus config depth' root = some visits) ∧
      visits.Nodup ∧ ∀ visit, visit ∈ visits ↔ ∃ bus, ReflTransGen (BridgeTo config) root bus ∧
        ∃ device function, FunctionPresent config bus device function ∧
          visit = pciVisit config bus device function := by
  simpa only [pciForest_call_eq, mem_pciForest_items_iff, pciScanBus_eq_preorder] using
    h.isTree.exists_preorder

/-- The address of the function that a call of `pci_scan_function` is for. -/
def PciVisit.location (visit : PciVisit) : UInt8 × UInt8 × UInt8 :=
  (visit.bus, visit.device, visit.function)

end Tree

/-- If the bridges that are reached from a bus form a tree, the scan of the bus returns. It has
then called `pci_scan_function` once for each function of the buses of the tree, with what the
registers of the function say, and for nothing else. -/
theorem pci_scan_bus_tree {config : PciConfig} {root : UInt8} (htree : BridgeTree config root) :
    ∃ visits, (∃ depth, ∀ depth' ≥ depth, pciScanBus config depth' root = some visits) ∧
      (visits.map PciVisit.location).Nodup ∧
      (∀ bus device function, (bus, device, function) ∈ visits.map PciVisit.location ↔
        ReflTransGen (BridgeTo config) root bus ∧ FunctionPresent config bus device function) ∧
      ∀ visit ∈ visits, visit = pciVisit config visit.bus visit.device visit.function := by
  obtain ⟨visits, hscan, hnodup, hmem⟩ := htree.exists_scan
  have hlogged : ∀ visit ∈ visits,
      visit = pciVisit config visit.bus visit.device visit.function := by
    intro visit hvisit
    obtain ⟨bus, -, device, function, -, rfl⟩ := (hmem visit).mp hvisit
    rfl
  refine ⟨visits, hscan, ?_, fun bus device function => ?_, hlogged⟩
  · refine hnodup.map_on fun visit hvisit visit' hvisit' heq => ?_
    obtain ⟨hbus, hdevice, hfunction⟩ : visit.bus = visit'.bus ∧ visit.device = visit'.device ∧
        visit.function = visit'.function := by simpa [PciVisit.location] using heq
    rw [hlogged visit hvisit, hlogged visit' hvisit', hbus, hdevice, hfunction]
  · rw [List.mem_map]
    constructor
    · rintro ⟨visit, hvisit, heq⟩
      obtain ⟨bus', hbus, device', function', hfound, rfl⟩ := (hmem visit).mp hvisit
      obtain ⟨rfl, rfl, rfl⟩ : bus' = bus ∧ device' = device ∧ function' = function := by
        simpa [PciVisit.location, pciVisit] using heq
      exact ⟨hbus, hfound⟩
    · rintro ⟨hbus, hfound⟩
      exact ⟨pciVisit config bus device function,
        (hmem _).mpr ⟨bus, hbus, device, function, hfound, rfl⟩, rfl⟩

/-- A bridge at 0:1.0 with bus 1 behind it, and one device on that bus. -/
def bridgedDevice : PciConfig := fun bus slot func register =>
  if bus = 0 ∧ slot = 1 ∧ func = 0 then
    match register with
    | 0x00 => 0x244E8086
    | 0x08 => 0x06040100
    | 0x0C => 0x00010000
    | 0x18 => 0x00010100
    | _ => 0
  else if bus = 1 ∧ slot = 0 ∧ func = 0 then
    match register with
    | 0x00 => 0x100E8086
    | 0x08 => 0x02000003
    | _ => 0
  else 0xFFFFFFFF

theorem eq_of_isBridgeTo_bridgedDevice {bus device function secondary : UInt8}
    (h : IsBridgeTo bridgedDevice bus device function secondary) :
    bus = 0 ∧ device = 1 ∧ function = 0 ∧ secondary = 1 := by
  obtain ⟨hclass, hsecondary⟩ := h
  unfold bridgedDevice at hclass hsecondary
  split_ifs at hclass hsecondary with hbridge hdevice
  · exact ⟨hbridge.1, hbridge.2.1, hbridge.2.2, hsecondary.symm⟩
  · exact absurd hclass (by decide)
  · exact absurd hclass (by decide)

theorem bridgedDevice_tree : BridgeTree bridgedDevice 0 where
  rootless _ hcall := by
    obtain ⟨device, function, -, hbridge⟩ := hcall
    exact absurd (eq_of_isBridgeTo_bridgedDevice hbridge).2.2.2 (by decide)
  distinct _ _ _ _ hbridge hbridge' := by
    obtain ⟨rfl, rfl, rfl, -⟩ := eq_of_isBridgeTo_bridgedDevice hbridge
    obtain ⟨rfl, rfl, rfl, -⟩ := eq_of_isBridgeTo_bridgedDevice hbridge'
    exact ⟨rfl, rfl, rfl⟩

theorem pci_scan_bus_bridgedDevice : ∃ visits depth,
    pciScanBus bridgedDevice depth 0 = some visits ∧ (visits.map PciVisit.location).Nodup ∧
      (0, 1, 0) ∈ visits.map PciVisit.location ∧ (1, 0, 0) ∈ visits.map PciVisit.location := by
  obtain ⟨visits, ⟨depth, hscan⟩, hnodup, hmem, -⟩ := pci_scan_bus_tree bridgedDevice_tree
  have hbridge : FunctionPresent bridgedDevice 0 1 0 := by decide
  have hdevice : FunctionPresent bridgedDevice 1 0 0 := by decide
  have hcall : BridgeTo bridgedDevice 0 1 := ⟨1, 0, hbridge, by decide⟩
  exact ⟨visits, depth, hscan depth le_rfl, hnodup, (hmem 0 1 0).mpr ⟨.refl, hbridge⟩,
    (hmem 1 0 0).mpr ⟨.single hcall, hdevice⟩⟩

end HolyOs.Drivers

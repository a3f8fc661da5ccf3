import HolyOs.Drivers.PciTree

/-!
# The probe of the VGA driver

`is_vga_pci_present` of `drivers/video/vga.c` looks at function 0 of every slot, and `pci_init`
visits all functions of the devices it reaches. They can disagree about a display controller at
another function, and about a slot whose vendor is all ones while its device is not.

## Main definitions

* `vgaProbe`: the flat scan of the driver.
* `InitVisitsDisplay`: the enumeration meets a display controller.
-/
namespace HolyOs.Drivers

open Recursion Relation

/-- What is logged about a slot with a VGA controller. -/
def vgaController (config : PciConfig) (bus slot : UInt8) : Option (UInt16 × UInt16) :=
  let id := pciReadConfig config bus slot 0 0x00
  if id = 0xFFFFFFFF then none
  else
    let vendorId := (id &&& 0xFFFF).toUInt16
    let deviceId := ((id >>> 16) &&& 0xFFFF).toUInt16
    let classWord := pciReadConfig config bus slot 0 0x08
    if classWord >>> 16 = 0x0300 then some (vendorId, deviceId) else none

/-- The `int` that is returned, and the vendor and the device that are logged. -/
def isVgaPciPresent (config : PciConfig) : Int × Option (UInt16 × UInt16) :=
  match (loopTo 256).findSome? fun bus => (loopTo 32).findSome? (vgaController config bus) with
  | some found => (1, some found)
  | none => (0, none)

def vgaProbe (config : PciConfig) : Int := (isVgaPciPresent config).1

/-! ## The two scans -/

/-- The class code and the subclass of a VGA controller. -/
def IsDisplay (config : PciConfig) (bus device function : UInt8) : Prop :=
  (config bus device function 0x08 >>> 24).toUInt8 = 0x03 ∧
    (config bus device function 0x08 >>> 16).toUInt8 = 0x00

instance (config : PciConfig) (bus device function : UInt8) :
    Decidable (IsDisplay config bus device function) := inferInstanceAs (Decidable (_ ∧ _))

/-- `pci_init` calls `pci_scan_function` for a display controller. -/
def InitVisitsDisplay (config : PciConfig) : Prop :=
  ∃ depth visits, pciInit config depth = some visits ∧
    ∃ visit ∈ visits, IsDisplay config visit.bus visit.device visit.function

/-- A display controller is function 0 of its device. -/
def DisplayAtZero (config : PciConfig) : Prop :=
  ∃ bus device, FunctionPresent config bus device 0 ∧ IsDisplay config bus device 0

/-- A display controller is another function of its device. -/
def DisplayElsewhere (config : PciConfig) : Prop :=
  ∃ bus device function, function ≠ 0 ∧ FunctionPresent config bus device function ∧
    IsDisplay config bus device function

/-- A slot without a vendor answers with a device and the class of a display controller. -/
def PhantomDisplay (config : PciConfig) : Prop :=
  ∃ bus device, device < 32 ∧ ¬ HasVendor config bus device 0 ∧
    config bus device 0 0x00 ≠ 0xFFFFFFFF ∧ IsDisplay config bus device 0

section Probe

variable {config : PciConfig}

/-- The class and the subclass in the comparison of the probe. -/
theorem displayClass_iff (word : UInt32) :
    word >>> 16 = 0x0300 ↔ (word >>> 24).toUInt8 = 0x03 ∧ (word >>> 16).toUInt8 = 0x00 := by
  simp only [← UInt8.toNat_inj, ← UInt32.toNat_inj, UInt32.toNat_toUInt8,
    UInt32.toNat_shiftRight, Nat.shiftRight_eq_div_pow]
  have hword := word.toNat_lt
  simp
  omega

theorem vgaController_isSome_iff {bus slot : UInt8} (hslot : slot < 32) :
    (vgaController config bus slot).isSome ↔
      config bus slot 0 0x00 ≠ 0xFFFFFFFF ∧ IsDisplay config bus slot 0 := by
  have hid : pciReadConfig config bus slot 0 0x00 = config bus slot 0 0x00 :=
    pciReadConfig_eq config bus 0x00 hslot (by decide)
  have hclass : pciReadConfig config bus slot 0 0x08 = config bus slot 0 0x08 :=
    pciReadConfig_eq config bus 0x08 hslot (by decide)
  unfold vgaController IsDisplay
  rw [hid, hclass, ← displayClass_iff]
  grind

theorem functionPresent_zero_iff {bus device : UInt8} :
    FunctionPresent config bus device 0 ↔ device < 32 ∧ HasVendor config bus device 0 := by
  simp [FunctionPresent]

/-- A vendor is enough for the probe. -/
theorem HasVendor.id_ne {bus device : UInt8} (h : HasVendor config bus device 0) :
    config bus device 0 0x00 ≠ 0xFFFFFFFF := by
  intro hid
  rw [HasVendor, hid] at h
  exact h rfl

theorem vgaProbe_eq_one_iff :
    vgaProbe config = 1 ↔ DisplayAtZero config ∨ PhantomDisplay config := by
  have hfound : vgaProbe config = 1 ↔ ∃ bus device, device < 32 ∧
      config bus device 0 0x00 ≠ 0xFFFFFFFF ∧ IsDisplay config bus device 0 := by
    have hsome : vgaProbe config = 1 ↔ ((loopTo 256).findSome? fun bus =>
        (loopTo 32).findSome? (vgaController config bus)).isSome := by
      unfold vgaProbe isVgaPciPresent
      split <;> simp_all
    simp only [hsome, List.findSome?_isSome_iff, mem_loopTo (show 256 ≤ 256 by omega),
      mem_loopTo (show 32 ≤ 256 by omega)]
    constructor
    · rintro ⟨bus, -, device, hdevice, hcontroller⟩
      exact ⟨bus, device, hdevice, (vgaController_isSome_iff hdevice).mp hcontroller⟩
    · rintro ⟨bus, device, hdevice, hcontroller⟩
      exact ⟨bus, bus.toNat_lt, device, hdevice, (vgaController_isSome_iff hdevice).mpr hcontroller⟩
  rw [hfound]
  constructor
  · rintro ⟨bus, device, hdevice, hid, hdisplay⟩
    by_cases hvendor : HasVendor config bus device 0
    · exact .inl ⟨bus, device, functionPresent_zero_iff.mpr ⟨hdevice, hvendor⟩, hdisplay⟩
    · exact .inr ⟨bus, device, hdevice, hvendor, hid, hdisplay⟩
  · rintro (⟨bus, device, hpresent, hdisplay⟩ | ⟨bus, device, hdevice, -, hid, hdisplay⟩)
    · obtain ⟨hdevice, hvendor⟩ := functionPresent_zero_iff.mp hpresent
      exact ⟨bus, device, hdevice, hvendor.id_ne, hdisplay⟩
    · exact ⟨bus, device, hdevice, hid, hdisplay⟩

end Probe

section Enumeration

variable {config : PciConfig}

/-- With one host controller, `pci_init` is the scan of bus 0. -/
theorem pciInit_eq_scan (hsingle : (config 0 0 0 0x0C >>> 16).toUInt8 &&& 0x80 = 0) (depth : Nat) :
    pciInit config depth = pciScanBus config depth 0 := by
  have hcontrollers : pciControllers config = [0] := by
    unfold pciControllers
    rw [pciReadConfig_eq config 0 pciHeaderType (by decide) (by decide), byteOf_eq]
    exact if_pos hsingle
  rw [pciInit, hcontrollers]
  cases hscan : pciScanBus config depth 0 <;> simp [inOrder, hscan]

theorem initVisitsDisplay_iff (htree : BridgeTree config 0)
    (hreach : ∀ {bus device function}, FunctionPresent config bus device function →
      ReflTransGen (BridgeTo config) 0 bus)
    (hsingle : (config 0 0 0 0x0C >>> 16).toUInt8 &&& 0x80 = 0) :
    InitVisitsDisplay config ↔ DisplayAtZero config ∨ DisplayElsewhere config := by
  obtain ⟨visits, ⟨depth, hscan⟩, -, hmem⟩ := htree.exists_scan
  constructor
  · rintro ⟨depth', visits', hinit, visit, hvisit, hdisplay⟩
    rw [pciInit_eq_scan hsingle] at hinit
    have hsame : visits' = visits := by
      have hlater := pciScanBus_mono (le_max_left depth' depth) hinit
      rw [hscan _ (le_max_right depth' depth)] at hlater
      exact (Option.some.inj hlater).symm
    rw [hsame, hmem] at hvisit
    obtain ⟨bus, -, device, function, hpresent, rfl⟩ := hvisit
    by_cases hzero : function = 0
    · exact .inl ⟨bus, device, hzero ▸ hpresent, hzero ▸ hdisplay⟩
    · exact .inr ⟨bus, device, function, hzero, hpresent, hdisplay⟩
  · have hvisits : ∀ {bus device function}, FunctionPresent config bus device function →
        IsDisplay config bus device function → InitVisitsDisplay config := by
      intro bus device function hpresent hdisplay
      exact ⟨depth, visits, by rw [pciInit_eq_scan hsingle, hscan depth le_rfl], _,
        (hmem _).mpr ⟨bus, hreach hpresent, device, function, hpresent, rfl⟩, hdisplay⟩
    rintro (⟨bus, device, hpresent, hdisplay⟩ | ⟨bus, device, function, -, hpresent, hdisplay⟩)
    · exact hvisits hpresent hdisplay
    · exact hvisits hpresent hdisplay

end Enumeration

/-- When the present buses form a tree below bus 0, the probe and the enumeration agree exactly when
a display controller is function 0 of its device, or when there is none elsewhere and no phantom of
one, or both. -/
theorem vga_probe_agrees_iff {config : PciConfig} (htree : BridgeTree config 0)
    (hreach : ∀ {bus device function}, FunctionPresent config bus device function →
      ReflTransGen (BridgeTo config) 0 bus)
    (hsingle : (config 0 0 0 0x0C >>> 16).toUInt8 &&& 0x80 = 0) :
    (vgaProbe config = 1 ↔ InitVisitsDisplay config) ↔
      DisplayAtZero config ∨ (DisplayElsewhere config ↔ PhantomDisplay config) := by
  rw [vgaProbe_eq_one_iff, initVisitsDisplay_iff htree hreach hsingle]
  grind

/-! ## A display controller at function 1 -/

/-- A host bridge at 0:0.0, and a device at 0:1 whose function 1 is a display controller. -/
def displayAtOne : PciConfig := fun bus slot func register =>
  if bus = 0 ∧ slot = 0 ∧ func = 0 then
    match register with
    | 0x00 => 0x12378086
    | 0x08 => 0x06000000
    | _ => 0
  else if bus = 0 ∧ slot = 1 ∧ func = 0 then
    match register with
    | 0x00 => 0x70008086
    | 0x08 => 0x06010000
    | 0x0C => 0x00800000
    | _ => 0
  else if bus = 0 ∧ slot = 1 ∧ func = 1 then
    match register with
    | 0x00 => 0x11111234
    | 0x08 => 0x03000000
    | _ => 0
  else 0xFFFFFFFF

theorem not_isBridgeTo_displayAtOne {bus device function secondary : UInt8} :
    ¬ IsBridgeTo displayAtOne bus device function secondary := by
  rintro ⟨hclass, -⟩
  unfold displayAtOne at hclass
  split_ifs at hclass <;> exact absurd hclass (by decide)

theorem displayAtOne_tree : BridgeTree displayAtOne 0 where
  rootless _ hcall := by
    obtain ⟨device, function, -, hbridge⟩ := hcall
    exact not_isBridgeTo_displayAtOne hbridge
  distinct _ _ _ _ hbridge _ := absurd hbridge not_isBridgeTo_displayAtOne

theorem displayAtOne_reach {bus device function : UInt8}
    (h : FunctionPresent displayAtOne bus device function) :
    ReflTransGen (BridgeTo displayAtOne) 0 bus := by
  obtain ⟨-, hvendor, -⟩ := h
  have hbus : bus = 0 := by
    by_contra hne
    unfold HasVendor displayAtOne at hvendor
    rw [if_neg (fun h => hne h.1), if_neg (fun h => hne h.1), if_neg (fun h => hne h.1)] at hvendor
    exact hvendor rfl
  rw [hbus]

theorem eq_one_of_isDisplay_displayAtOne {bus device function : UInt8}
    (h : IsDisplay displayAtOne bus device function) : function = 1 := by
  unfold IsDisplay displayAtOne at h
  split_ifs at h with _ _ hdisplay
  · exact absurd h (by decide)
  · exact absurd h (by decide)
  · exact hdisplay.2.2
  · exact absurd h (by decide)

theorem vga_probe_agrees_iff_displayAtOne :
    (vgaProbe displayAtOne = 1 ↔ InitVisitsDisplay displayAtOne) ↔
      DisplayAtZero displayAtOne ∨
        (DisplayElsewhere displayAtOne ↔ PhantomDisplay displayAtOne) :=
  vga_probe_agrees_iff displayAtOne_tree displayAtOne_reach (by decide)

/-- The enumeration visits the controller, and the probe does not see it. -/
theorem vga_probe_misses : ¬ ∀ config : PciConfig, BridgeTree config 0 →
    (∀ bus device function, FunctionPresent config bus device function →
      ReflTransGen (BridgeTo config) 0 bus) →
    (config 0 0 0 0x0C >>> 16).toUInt8 &&& 0x80 = 0 →
    (vgaProbe config = 1 ↔ InitVisitsDisplay config) := by
  intro h
  have hvisits : InitVisitsDisplay displayAtOne :=
    (initVisitsDisplay_iff displayAtOne_tree displayAtOne_reach (by decide)).mpr
      (.inr ⟨0, 1, 1, by decide, by decide, by decide⟩)
  have hprobe := (h displayAtOne displayAtOne_tree (fun _ _ _ => displayAtOne_reach)
    (by decide)).mpr hvisits
  have hzero : ∃ bus device, IsDisplay displayAtOne bus device 0 := by
    rcases vgaProbe_eq_one_iff.mp hprobe with ⟨bus, device, -, hdisplay⟩ |
      ⟨bus, device, -, -, -, hdisplay⟩
    · exact ⟨bus, device, hdisplay⟩
    · exact ⟨bus, device, hdisplay⟩
  obtain ⟨bus, device, hdisplay⟩ := hzero
  exact absurd (eq_one_of_isDisplay_displayAtOne hdisplay) (by decide)

end HolyOs.Drivers

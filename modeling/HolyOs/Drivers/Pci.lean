import HolyOs.Foundation.Preorder
import Mathlib.Data.Nat.Bitwise
import Mathlib.Tactic.IntervalCases

/-!
# PCI enumeration

Shallow model of the scan in `drivers/pci/pci.c`. The configuration space answers every read with
a fixed value. The scan follows the secondary bus number of each bridge it meets and keeps no
record of the buses it has seen, so it returns exactly when no bridge leads back.

## Main definitions

* `pciScanBus`: the scan with a bound on the depth of its calls and the visits it logs.
* `PciBridged`: the buses that the scan of a bus goes on to.
-/
namespace HolyOs.Drivers

open Recursion Relation

/-- What the configuration space holds for a bus, a device, a function and a register. -/
abbrev PciConfig := UInt8 → UInt8 → UInt8 → UInt8 → UInt32

@[simp] def pciVendorId : UInt8 := 0x00
@[simp] def pciRevisionId : UInt8 := 0x08
@[simp] def pciClass : UInt8 := 0x0B
@[simp] def pciHeaderType : UInt8 := 0x0E
@[simp] def pciClassBridge : UInt8 := 0x06

/-- The word written to `PCI_CONFIG_ADDRESS`. -/
def pciAddress (bus slot func offset : UInt8) : UInt32 :=
  bus.toUInt32 <<< 16 ||| slot.toUInt32 <<< 11 ||| func.toUInt32 <<< 8 |||
    (offset.toUInt32 &&& 0xFC) ||| 0x80000000

/-- `PCI_CONFIG_DATA` after an address was written. The device decodes its fields. -/
def pciData (config : PciConfig) (address : UInt32) : UInt32 :=
  config (address >>> 16).toUInt8 ((address >>> 11).toUInt8 &&& 0x1F)
    ((address >>> 8).toUInt8 &&& 0x07) (address.toUInt8 &&& 0xFC)

def pciReadConfig (config : PciConfig) (bus slot func offset : UInt8) : UInt32 :=
  pciData config (pciAddress bus slot func offset)

def pciGetVendorId (config : PciConfig) (bus slot func : UInt8) : UInt16 :=
  (pciReadConfig config bus slot func pciVendorId &&& 0xFFFF).toUInt16

def pciGetDeviceId (config : PciConfig) (bus slot func : UInt8) : UInt16 :=
  (pciReadConfig config bus slot func pciVendorId >>> 16).toUInt16

def pciGetClassName (classCode : UInt8) : String :=
  match classCode with
  | 0x00 => "Pre-2.0 device"
  | 0x01 => "Mass storage controller"
  | 0x02 => "Network controller"
  | 0x03 => "Display controller"
  | 0x04 => "Multimedia controller"
  | 0x05 => "Memory controller"
  | 0x06 => "Bridge device"
  | 0x07 => "Simple comm. controller"
  | 0x08 => "Base system peripheral"
  | 0x09 => "Input device"
  | 0x0A => "Docking station"
  | 0x0B => "Processor"
  | 0x0C => "Serial bus controller"
  | 0x0D => "Wireless controller"
  | 0x0E => "Intelligent controller"
  | 0x0F => "Satellite comm. controller"
  | 0x10 => "Encryption controller"
  | 0x11 => "Signal processing controller"
  | 0x12 => "Processing accelerator"
  | 0x13 => "Non-essential instrumentation"
  | _ => "Unknown device"

/-- A call of `pci_scan_function` and the values it logs. -/
structure PciVisit where
  bus : UInt8
  device : UInt8
  function : UInt8
  className : String
  vendorId : UInt16
  deviceId : UInt16
deriving DecidableEq

/-- The values of a loop `for (uint8_t i = 0; i < n; i++)`. -/
def loopTo (n : Nat) : List UInt8 := (List.range n).map UInt8.ofNat

def pciVisit (config : PciConfig) (bus device function : UInt8) : PciVisit where
  bus := bus
  device := device
  function := function
  className :=
    pciGetClassName
      ((pciReadConfig config bus device function pciRevisionId >>> 24) &&& 0xFF).toUInt8
  vendorId := pciGetVendorId config bus device function
  deviceId := pciGetDeviceId config bus device function

/-- `scanBus` is the call of `pci_scan_bus` for the bus behind a bridge. -/
def pciScanFunction (config : PciConfig) (scanBus : UInt8 → Option (List PciVisit))
    (bus device function : UInt8) : Option (List PciVisit) :=
  let visit := pciVisit config bus device function
  let classCode := ((pciReadConfig config bus device function pciClass >>> 24) &&& 0xFF).toUInt8
  let subclass := ((pciReadConfig config bus device function pciClass >>> 16) &&& 0xFF).toUInt8
  if classCode = pciClassBridge ∧ subclass = 0x04 then
    let secondaryBus := ((pciReadConfig config bus device function 0x18 >>> 8) &&& 0xFF).toUInt8
    (scanBus secondaryBus).map (visit :: ·)
  else some [visit]

def pciScanDevice (config : PciConfig) (scanBus : UInt8 → Option (List PciVisit))
    (bus device : UInt8) : Option (List PciVisit) :=
  if pciGetVendorId config bus device 0 = 0xFFFF then some []
  else
    let headerType := ((pciReadConfig config bus device 0 pciHeaderType >>> 16) &&& 0xFF).toUInt8
    if headerType &&& 0x80 ≠ 0 then
      inOrder (fun function =>
        if pciGetVendorId config bus device function ≠ 0xFFFF then
          pciScanFunction config scanBus bus device function
        else some []) (loopTo 8)
    else pciScanFunction config scanBus bus device 0

/-- `pci_scan_bus` with at most `depth` nested calls, and `none` when it would need more. -/
def pciScanBus (config : PciConfig) : Nat → UInt8 → Option (List PciVisit)
  | 0, _ => none
  | depth + 1, bus => inOrder (pciScanDevice config (pciScanBus config depth) bus) (loopTo 32)

/-- The buses that `pci_init` scans: bus 0, or one bus for each function of device 0. -/
def pciControllers (config : PciConfig) : List UInt8 :=
  let headerType := ((pciReadConfig config 0 0 0 pciHeaderType >>> 16) &&& 0xFF).toUInt8
  if headerType &&& 0x80 = 0 then [0]
  else (loopTo 8).takeWhile fun function => pciGetVendorId config 0 0 function ≠ 0xFFFF

def pciInit (config : PciConfig) (depth : Nat) : Option (List PciVisit) :=
  inOrder (pciScanBus config depth) (pciControllers config)

/-! ## Reading the configuration space -/

theorem getElem_eq_false_of_lt {x : UInt8} {k : Nat} (hx : x.toNat < 2 ^ k) (i : Nat) (hi : i < 8)
    (hk : k ≤ i) : x.toBitVec[i] = false := by
  have hbit := Nat.testBit_lt_two_pow (hx.trans_le (Nat.pow_le_pow_right (by omega) hk))
  simpa [BitVec.getElem_eq_testBit_toNat] using hbit

/-- A read reaches the register of the function that it names. -/
theorem pciReadConfig_eq (config : PciConfig) (bus offset : UInt8) {slot func : UInt8}
    (hslot : slot < 32) (hfunc : func < 8) :
    pciReadConfig config bus slot func offset = config bus slot func (offset &&& 0xFC) := by
  have hslotBits := getElem_eq_false_of_lt (k := 5) hslot
  have hfuncBits := getElem_eq_false_of_lt (k := 3) hfunc
  unfold pciReadConfig pciData pciAddress
  congr 1
  all_goals
    apply UInt8.toBitVec_inj.mp
    apply BitVec.eq_of_getLsbD_eq
    intro i hi
    interval_cases i <;> simp [hslotBits, hfuncBits]

@[simp] theorem mem_loopTo {n : Nat} (hn : n ≤ 256) (i : UInt8) : i ∈ loopTo n ↔ i.toNat < n := by
  simp only [loopTo, List.mem_map, List.mem_range]
  constructor
  · rintro ⟨k, hk, rfl⟩
    rw [UInt8.toNat_ofNat']
    omega
  · intro hi
    exact ⟨i.toNat, hi, UInt8.ofNat_toNat⟩

theorem nodup_loopTo {n : Nat} (hn : n ≤ 256) : (loopTo n).Nodup := by
  refine List.Nodup.map_on (fun i hi j hj heq => ?_) List.nodup_range
  have hvalue := congrArg UInt8.toNat heq
  rw [List.mem_range] at hi hj
  rw [UInt8.toNat_ofNat', UInt8.toNat_ofNat'] at hvalue
  omega

/-! ## The buses behind bridges -/

/-- The functions of a bus that the scan visits. -/
def PciPresent (config : PciConfig) (bus device function : UInt8) : Prop :=
  pciGetVendorId config bus device 0 ≠ 0xFFFF ∧
    (function = 0 ∨
      ((pciReadConfig config bus device 0 pciHeaderType >>> 16) &&& 0xFF).toUInt8 &&& 0x80 ≠ 0 ∧
        function < 8 ∧ pciGetVendorId config bus device function ≠ 0xFFFF)

def PciIsBridge (config : PciConfig) (bus device function : UInt8) : Prop :=
  ((pciReadConfig config bus device function pciClass >>> 24) &&& 0xFF).toUInt8 = pciClassBridge ∧
    ((pciReadConfig config bus device function pciClass >>> 16) &&& 0xFF).toUInt8 = 0x04

instance (config : PciConfig) (bus device function : UInt8) :
    Decidable (PciIsBridge config bus device function) :=
  inferInstanceAs (Decidable (_ ∧ _))

def pciSecondaryBus (config : PciConfig) (bus device function : UInt8) : UInt8 :=
  ((pciReadConfig config bus device function 0x18 >>> 8) &&& 0xFF).toUInt8

/-- A bridge on `bus` names `secondary` as the bus behind it. -/
def PciBridged (config : PciConfig) (bus secondary : UInt8) : Prop :=
  ∃ device function, device < 32 ∧ PciPresent config bus device function ∧
    PciIsBridge config bus device function ∧ pciSecondaryBus config bus device function = secondary

variable {config : PciConfig} {scanBus : UInt8 → Option (List PciVisit)}

theorem pciScanFunction_eq (bus device function : UInt8) :
    pciScanFunction config scanBus bus device function =
      if PciIsBridge config bus device function then
        (scanBus (pciSecondaryBus config bus device function)).map
          (pciVisit config bus device function :: ·)
      else some [pciVisit config bus device function] := rfl

/-- The functions of a device that are scanned, in order. -/
def pciFunctions (config : PciConfig) (bus device : UInt8) : List UInt8 :=
  if pciGetVendorId config bus device 0 = 0xFFFF then []
  else if ((pciReadConfig config bus device 0 pciHeaderType >>> 16) &&& 0xFF).toUInt8 &&& 0x80 ≠ 0
  then (loopTo 8).filter fun function => pciGetVendorId config bus device function ≠ 0xFFFF
  else [0]

theorem mem_pciFunctions {bus device function : UInt8} :
    function ∈ pciFunctions config bus device ↔ PciPresent config bus device function := by
  unfold pciFunctions PciPresent
  split_ifs with hnone hmulti
  · simp [hnone]
  · simp only [List.mem_filter, mem_loopTo (show 8 ≤ 256 by omega), decide_eq_true_eq]
    constructor
    · rintro ⟨hlt, hne⟩
      exact ⟨hnone, .inr ⟨hmulti, hlt, hne⟩⟩
    · rintro ⟨-, rfl | ⟨-, hlt, hne⟩⟩
      · exact ⟨by decide, hnone⟩
      · exact ⟨hlt, hne⟩
  · rw [List.mem_singleton]
    constructor
    · rintro rfl
      exact ⟨hnone, .inl rfl⟩
    · rintro ⟨-, rfl | ⟨hbit, -⟩⟩
      · rfl
      · exact absurd hbit hmulti

theorem nodup_pciFunctions (config : PciConfig) (bus device : UInt8) :
    (pciFunctions config bus device).Nodup := by
  unfold pciFunctions
  split_ifs
  · exact .nil
  · exact (nodup_loopTo (by omega)).filter _
  · exact List.nodup_singleton 0

theorem pciScanDevice_eq (bus device : UInt8) :
    pciScanDevice config scanBus bus device =
      inOrder (pciScanFunction config scanBus bus device) (pciFunctions config bus device) := by
  unfold pciScanDevice pciFunctions
  dsimp only
  split_ifs
  · rfl
  · rw [inOrder_filter]
  · cases hcall : pciScanFunction config scanBus bus device 0 <;> simp [inOrder, hcall]

/-- The visits of each bus, and the bus behind each bridge. -/
def pciForest (config : PciConfig) : Forest UInt8 PciVisit where
  items bus := (loopTo 32).flatMap fun device =>
    (pciFunctions config bus device).map (pciVisit config bus device)
  below visit :=
    if PciIsBridge config visit.bus visit.device visit.function then
      some (pciSecondaryBus config visit.bus visit.device visit.function)
    else none
  owner := PciVisit.bus
  owned hvisit := by
    obtain ⟨device, -, hvisit⟩ := List.mem_flatMap.mp hvisit
    obtain ⟨function, -, rfl⟩ := List.mem_map.mp hvisit
    rfl
  distinct bus := by
    refine List.nodup_flatMap.mpr ⟨fun device _ => ?_, ?_⟩
    · exact (nodup_pciFunctions config bus device).map
        fun _ _ heq => congrArg PciVisit.function heq
    · refine (nodup_loopTo (by omega)).imp fun {device device'} hne visit hvisit hvisit' => ?_
      obtain ⟨function, -, rfl⟩ := List.mem_map.mp hvisit
      obtain ⟨function', -, heq⟩ := List.mem_map.mp hvisit'
      exact hne (congrArg PciVisit.device heq).symm

theorem mem_pciForest_items {bus : UInt8} {visit : PciVisit} :
    visit ∈ (pciForest config).items bus ↔
      ∃ device function, device < 32 ∧ PciPresent config bus device function ∧
        visit = pciVisit config bus device function := by
  simp only [pciForest, List.mem_flatMap, List.mem_map, mem_loopTo (show 32 ≤ 256 by omega),
    mem_pciFunctions]
  constructor
  · rintro ⟨device, hdevice, function, hpresent, rfl⟩
    exact ⟨device, function, hdevice, hpresent, rfl⟩
  · rintro ⟨device, function, hdevice, hpresent, rfl⟩
    exact ⟨device, hdevice, function, hpresent, rfl⟩

theorem pciForest_below_eq_some {bus device function secondary : UInt8} :
    (pciForest config).below (pciVisit config bus device function) = some secondary ↔
      PciIsBridge config bus device function ∧
        pciSecondaryBus config bus device function = secondary := by
  simp [pciForest, pciVisit]

/-- The scan calls itself on the buses behind the bridges of the bus. -/
theorem pciForest_call {bus secondary : UInt8} :
    (pciForest config).Call bus secondary ↔ PciBridged config bus secondary := by
  constructor
  · rintro ⟨visit, hvisit, hbelow⟩
    obtain ⟨device, function, hdevice, hpresent, rfl⟩ := mem_pciForest_items.mp hvisit
    obtain ⟨hbridge, hsecondary⟩ := pciForest_below_eq_some.mp hbelow
    exact ⟨device, function, hdevice, hpresent, hbridge, hsecondary⟩
  · rintro ⟨device, function, hdevice, hpresent, hbridge, hsecondary⟩
    exact ⟨_, mem_pciForest_items.mpr ⟨device, function, hdevice, hpresent, rfl⟩,
      pciForest_below_eq_some.mpr ⟨hbridge, hsecondary⟩⟩

/-- The scan of a bus is the preorder traversal of the buses behind its bridges. -/
theorem pciScanBus_eq_preorder (config : PciConfig) (depth : Nat) (bus : UInt8) :
    pciScanBus config depth bus = (pciForest config).preorder depth bus := by
  induction depth generalizing bus with
  | zero => rfl
  | succ depth ih =>
    have hvisit : ∀ device function,
        pciScanFunction config (pciScanBus config depth) bus device function =
          (pciForest config).visit ((pciForest config).preorder depth)
            (pciVisit config bus device function) := by
      intro device function
      rw [pciScanFunction_eq, Forest.visit]
      by_cases hbridge : PciIsBridge config bus device function
      · rw [if_pos hbridge, pciForest_below_eq_some.mpr ⟨hbridge, rfl⟩, ih]
      · rw [if_neg hbridge, show (pciForest config).below (pciVisit config bus device function) =
          none from if_neg hbridge]
    rw [pciScanBus, Forest.preorder, pciForest, inOrder_flatMap]
    congr 1
    funext device
    rw [pciScanDevice_eq, inOrder_map]
    congr 1
    funext function
    exact hvisit device function

theorem pciScanBus_deepens (config : PciConfig) :
    Deepens (PciBridged config) fun depth bus => (pciScanBus config depth bus).isSome := by
  have hcall : (pciForest config).Call = PciBridged config := by
    funext bus secondary
    exact propext pciForest_call
  simpa only [hcall, pciScanBus_eq_preorder] using (pciForest config).preorder_deepens

instance finiteUInt8 : Finite UInt8 := Finite.of_injective UInt8.toFin fun _ _ => UInt8.toFin_inj.mp

/-- The scan of a bus returns exactly when no bus it reaches lies on a cycle of bridges. -/
theorem pci_scan_bus_returns_iff (config : PciConfig) (bus : UInt8) :
    (∃ depth, (pciScanBus config depth bus).isSome) ↔
      ∀ b, ReflTransGen (PciBridged config) bus b → ¬ TransGen (PciBridged config) b b :=
  (pciScanBus_deepens config).exists_returns_iff bus

/-- One bridge, at 0:0.0, whose secondary bus number was left at 0. -/
def unconfiguredBridge : PciConfig := fun bus slot func register =>
  if bus = 0 ∧ slot = 0 ∧ func = 0 then
    match register with
    | 0x00 => 0x12378086
    | 0x08 => 0x06040000
    | _ => 0
  else 0xFFFFFFFF

/-- The scan of bus 0 calls itself on bus 0, at every depth. -/
theorem pci_scan_bus_unconfiguredBridge :
    ¬ ∀ (config : PciConfig) (bus : UInt8), ∃ depth, (pciScanBus config depth bus).isSome := by
  intro hreturns
  obtain ⟨depth, hdepth⟩ := hreturns unconfiguredBridge 0
  have hself : PciBridged unconfiguredBridge 0 0 :=
    ⟨0, 0, by decide, ⟨by decide, .inl rfl⟩, by decide, by decide⟩
  exact (pciScanBus_deepens unconfiguredBridge).not_returns_of_cycle (.single hself) depth hdepth

/-! ## Initialization -/

/-- `pci_init` returns exactly when the scan of each controller's bus does. -/
theorem pciInit_returns_iff (config : PciConfig) :
    (∃ depth, (pciInit config depth).isSome) ↔
      ∀ bus ∈ pciControllers config, ∃ depth, (pciScanBus config depth bus).isSome := by
  simp only [pciInit, inOrder_isSome]
  constructor
  · rintro ⟨depth, hdepth⟩ bus hbus
    exact ⟨depth, hdepth bus hbus⟩
  · intro hscan
    choose! depth hdepth using hscan
    obtain ⟨bound, hbound⟩ := Finite.bddAbove_range depth
    exact ⟨bound, fun bus hbus =>
      (pciScanBus_deepens config).mono (hbound ⟨bus, rfl⟩) (hdepth bus hbus)⟩

/-! ## The bound on the depth -/

/-- What a scan logs does not depend on the bound under which it returns. -/
theorem pciScanBus_mono {n m : Nat} (hnm : n ≤ m) {bus : UInt8} {visits : List PciVisit}
    (hcall : pciScanBus config n bus = some visits) : pciScanBus config m bus = some visits := by
  rw [pciScanBus_eq_preorder] at hcall ⊢
  exact Forest.preorder_mono hnm hcall

end HolyOs.Drivers

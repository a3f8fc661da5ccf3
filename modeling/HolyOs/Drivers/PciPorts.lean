import HolyOs.Drivers.PciTree
import Mathlib.Logic.Function.Basic

/-!
# The configuration ports of the PCI bus

The calls of `drivers/pci/pci.c` that read and write the configuration space, through the two ports.
A register takes of a write what its function keeps, and a call names its register by four bytes of
which some bits overlap in the address.

## Main definitions

* `PciPorts`: the address that was written last, and the registers.
* `PciLocation`: what the four bytes of a call amount to.
-/
namespace HolyOs.Drivers

structure PciPorts where
  address : UInt32
  config : PciConfig

/-- What `pci_get_device_info` fills in. `reserved` keeps what the caller has there. -/
structure PciDevice where
  vendorId : UInt16
  deviceId : UInt16
  command : UInt16
  status : UInt16
  revisionId : UInt8
  progIf : UInt8
  subclass : UInt8
  classCode : UInt8
  cacheLineSize : UInt8
  latencyTimer : UInt8
  headerType : UInt8
  bist : UInt8
  bar : Fin 6 → UInt32
  cardbusCisPtr : UInt32
  subsystemVendorId : UInt16
  subsystemId : UInt16
  expansionRomBase : UInt32
  capabilitiesPtr : UInt8
  reserved : Fin 7 → UInt8
  interruptLine : UInt8
  interruptPin : UInt8
  minGrant : UInt8
  maxLatency : UInt8

@[simp] def pciConfigAddress : Nat := 0xCF8
@[simp] def pciConfigData : Nat := 0xCFC
@[simp] def pciCommand : UInt8 := 0x04
@[simp] def pciCacheLineSize : UInt8 := 0x0C
@[simp] def pciBar0 : UInt8 := 0x10

/-- What a register holds after a write, from its place, what it held and what was written. -/
abbrev PciKeeps := UInt8 → UInt8 → UInt8 → UInt8 → UInt32 → UInt32 → UInt32

section Ports

variable (keeps : PciKeeps) (p : PciPorts)

/-- A write to the data port. The device decodes the address as for a read. -/
def pciStore (config : PciConfig) (address value : UInt32) : PciConfig :=
  fun bus slot func register =>
    if bus = (address >>> 16).toUInt8 ∧ slot = (address >>> 11).toUInt8 &&& 0x1F ∧
        func = (address >>> 8).toUInt8 &&& 0x07 ∧ register = address.toUInt8 &&& 0xFC
    then keeps bus slot func register (config bus slot func register) value
    else config bus slot func register

def outl (port : Nat) (value : UInt32) : PciPorts :=
  if port = pciConfigAddress then { p with address := value }
  else if port = pciConfigData then { p with config := pciStore keeps p.config p.address value }
  else p

def inl (port : Nat) : UInt32 :=
  if port = pciConfigAddress then p.address
  else if port = pciConfigData then pciData p.config p.address
  else 0xFFFFFFFF

namespace PciPorts

def pciReadConfig (bus slot func offset : UInt8) : UInt32 × PciPorts :=
  let p := outl keeps p pciConfigAddress (pciAddress bus slot func offset)
  (inl p pciConfigData, p)

def pciWriteConfig (bus slot func offset : UInt8) (value : UInt32) : PciPorts :=
  let p := outl keeps p pciConfigAddress (pciAddress bus slot func offset)
  outl keeps p pciConfigData value

/-- The body of the loop over the base addresses. -/
def readBar (bus device function : UInt8) (s : PciDevice × PciPorts) (i : Fin 6) :
    PciDevice × PciPorts :=
  let (data, p) := s.2.pciReadConfig keeps bus device function (pciBar0 + UInt8.ofNat (i * 4))
  ({ s.1 with bar := Function.update s.1.bar i data }, p)

def pciGetDeviceInfo (bus device function : UInt8) (devInfo : PciDevice) : PciDevice × PciPorts :=
  let (data, p) := p.pciReadConfig keeps bus device function pciVendorId
  let devInfo := { devInfo with
    vendorId := (data &&& 0xFFFF).toUInt16
    deviceId := (data >>> 16).toUInt16 }
  let (data, p) := p.pciReadConfig keeps bus device function pciCommand
  let devInfo := { devInfo with
    command := (data &&& 0xFFFF).toUInt16
    status := (data >>> 16).toUInt16 }
  let (data, p) := p.pciReadConfig keeps bus device function pciRevisionId
  let devInfo := { devInfo with
    revisionId := (data &&& 0xFF).toUInt8
    progIf := ((data >>> 8) &&& 0xFF).toUInt8
    subclass := ((data >>> 16) &&& 0xFF).toUInt8
    classCode := ((data >>> 24) &&& 0xFF).toUInt8 }
  let (data, p) := p.pciReadConfig keeps bus device function pciCacheLineSize
  let devInfo := { devInfo with
    cacheLineSize := (data &&& 0xFF).toUInt8
    latencyTimer := ((data >>> 8) &&& 0xFF).toUInt8
    headerType := ((data >>> 16) &&& 0xFF).toUInt8
    bist := ((data >>> 24) &&& 0xFF).toUInt8 }
  let (devInfo, p) := (List.finRange 6).foldl (readBar keeps bus device function) (devInfo, p)
  let (data, p) := p.pciReadConfig keeps bus device function 0x28
  let devInfo := { devInfo with cardbusCisPtr := data }
  let (data, p) := p.pciReadConfig keeps bus device function 0x2C
  let devInfo := { devInfo with
    subsystemVendorId := (data &&& 0xFFFF).toUInt16
    subsystemId := (data >>> 16).toUInt16 }
  let (data, p) := p.pciReadConfig keeps bus device function 0x30
  let devInfo := { devInfo with expansionRomBase := data }
  let (data, p) := p.pciReadConfig keeps bus device function 0x34
  let devInfo := { devInfo with capabilitiesPtr := (data &&& 0xFF).toUInt8 }
  let (data, p) := p.pciReadConfig keeps bus device function 0x3C
  let devInfo := { devInfo with
    interruptLine := (data &&& 0xFF).toUInt8
    interruptPin := ((data >>> 8) &&& 0xFF).toUInt8
    minGrant := ((data >>> 16) &&& 0xFF).toUInt8
    maxLatency := ((data >>> 24) &&& 0xFF).toUInt8 }
  (devInfo, p)

end PciPorts

end Ports

/-! ## Locations -/

/-- A register of a function. -/
structure PciLocation where
  bus : UInt8
  device : UInt8
  function : UInt8
  register : UInt8
deriving DecidableEq

/-- The bits of the device number from bit 5 on reach into the bus number, and those of the function
number from bit 3 on into the device number. -/
def pciLocation (bus slot func offset : UInt8) : PciLocation where
  bus := bus ||| slot >>> (5 : UInt8)
  device := slot &&& (0x1F : UInt8) ||| func >>> (3 : UInt8)
  function := func &&& 0x07
  register := offset &&& 0xFC

def PciConfig.at (config : PciConfig) (l : PciLocation) : UInt32 :=
  config l.bus l.device l.function l.register

theorem pciAddress_location (bus slot func offset : UInt8) :
    let address := pciAddress bus slot func offset
    ((address >>> 16).toUInt8 = bus ||| slot >>> (5 : UInt8) ∧
      (address >>> 11).toUInt8 &&& 0x1F = slot &&& (0x1F : UInt8) ||| func >>> (3 : UInt8)) ∧
    (address >>> 8).toUInt8 &&& 0x07 = func &&& 0x07 ∧
      address.toUInt8 &&& 0xFC = offset &&& 0xFC := by
  unfold pciAddress
  refine ⟨⟨?_, ?_⟩, ?_, ?_⟩
  all_goals
    apply UInt8.toBitVec_inj.mp
    apply BitVec.eq_of_getLsbD_eq
    intro i hi
    interval_cases i <;> simp

/-- A read reaches the register of its location, for any four bytes. -/
theorem pciReadConfig_at (config : PciConfig) (bus slot func offset : UInt8) :
    pciReadConfig config bus slot func offset = config.at (pciLocation bus slot func offset) := by
  obtain ⟨⟨hbus, hslot⟩, hfunc, hoffset⟩ := pciAddress_location bus slot func offset
  rw [pciReadConfig, pciData, hbus, hslot, hfunc, hoffset]
  rfl

/-- A write changes the register of its location. -/
theorem pciStore_at (keeps : PciKeeps) (config : PciConfig) (bus slot func offset : UInt8)
    (value : UInt32) (l : PciLocation) :
    (pciStore keeps config (pciAddress bus slot func offset) value).at l =
      if l = pciLocation bus slot func offset
      then keeps l.bus l.device l.function l.register (config.at l) value else config.at l := by
  obtain ⟨⟨hbus, hslot⟩, hfunc, hoffset⟩ := pciAddress_location bus slot func offset
  obtain ⟨b, d, f, r⟩ := l
  rw [PciConfig.at, pciStore, hbus, hslot, hfunc, hoffset]
  simp only [pciLocation, PciLocation.mk.injEq, PciConfig.at]

/-- In range the location is what the call names. -/
theorem pciLocation_of_lt {bus slot func offset : UInt8} (hslot : slot < 32) (hfunc : func < 8)
    (hoffset : offset &&& 0xFC = offset) :
    pciLocation bus slot func offset = ⟨bus, slot, func, offset⟩ := by
  have hslotBits := getElem_eq_false_of_lt (k := 5) hslot
  have hfuncBits := getElem_eq_false_of_lt (k := 3) hfunc
  rw [pciLocation, hoffset, PciLocation.mk.injEq]
  refine ⟨?_, ?_, ?_, rfl⟩
  all_goals
    apply UInt8.toBitVec_inj.mp
    apply BitVec.eq_of_getLsbD_eq
    intro i hi
    interval_cases i <;> simp [hslotBits, hfuncBits]

/-! ## Calls -/

inductive PciCall
  | readConfig (bus slot func offset : UInt8)
  | writeConfig (bus slot func offset : UInt8) (value : UInt32)
  | getDeviceInfo (bus device function : UInt8) (devInfo : PciDevice)

inductive PciAnswer
  | done
  | word (data : UInt32)
  | info (devInfo : PciDevice)

/-- The answers to calls that are made one after the other. -/
def pciAnswers {σ : Type} (exec : σ → PciCall → PciAnswer × σ) : σ → List PciCall → List PciAnswer
  | _, [] => []
  | s, c :: calls => (exec s c).1 :: pciAnswers exec (exec s c).2 calls

def PciPorts.exec (keeps : PciKeeps) (p : PciPorts) : PciCall → PciAnswer × PciPorts
  | .readConfig bus slot func offset =>
    let (data, p) := p.pciReadConfig keeps bus slot func offset
    (.word data, p)
  | .writeConfig bus slot func offset value =>
    (.done, p.pciWriteConfig keeps bus slot func offset value)
  | .getDeviceInfo bus device function devInfo =>
    let (devInfo, p) := p.pciGetDeviceInfo keeps bus device function devInfo
    (.info devInfo, p)

/-- The device whose registers are read by `read`. -/
def pciDeviceInfo (read : UInt8 → UInt32) (reserved : Fin 7 → UInt8) : PciDevice where
  vendorId := (read 0x00).toUInt16
  deviceId := (read 0x00 >>> 16).toUInt16
  command := (read 0x04).toUInt16
  status := (read 0x04 >>> 16).toUInt16
  revisionId := (read 0x08).toUInt8
  progIf := (read 0x08 >>> 8).toUInt8
  subclass := (read 0x08 >>> 16).toUInt8
  classCode := (read 0x08 >>> 24).toUInt8
  cacheLineSize := (read 0x0C).toUInt8
  latencyTimer := (read 0x0C >>> 8).toUInt8
  headerType := (read 0x0C >>> 16).toUInt8
  bist := (read 0x0C >>> 24).toUInt8
  bar i := read (0x10 + UInt8.ofNat (i * 4))
  cardbusCisPtr := read 0x28
  subsystemVendorId := (read 0x2C).toUInt16
  subsystemId := (read 0x2C >>> 16).toUInt16
  expansionRomBase := read 0x30
  capabilitiesPtr := (read 0x34).toUInt8
  reserved := reserved
  interruptLine := (read 0x3C).toUInt8
  interruptPin := (read 0x3C >>> 8).toUInt8
  minGrant := (read 0x3C >>> 16).toUInt8
  maxLatency := (read 0x3C >>> 24).toUInt8

/-- The calls on a map from locations to words, with no address that is written before. -/
def pciOnMap (keeps : PciKeeps) (r : PciLocation → UInt32) :
    PciCall → PciAnswer × (PciLocation → UInt32)
  | .readConfig bus slot func offset => (.word (r (pciLocation bus slot func offset)), r)
  | .writeConfig bus slot func offset value =>
    let l := pciLocation bus slot func offset
    (.done, Function.update r l (keeps l.bus l.device l.function l.register (r l) value))
  | .getDeviceInfo bus device function devInfo =>
    (.info (pciDeviceInfo (fun offset => r (pciLocation bus device function offset))
      devInfo.reserved), r)

theorem PciPorts.pciReadConfig_eq (keeps : PciKeeps) (p : PciPorts) (bus slot func offset : UInt8) :
    p.pciReadConfig keeps bus slot func offset =
      (p.config.at (pciLocation bus slot func offset),
        { p with address := pciAddress bus slot func offset }) := by
  rw [← pciReadConfig_at]
  rfl

/-- The loop reads its registers, and changes none. -/
theorem PciPorts.foldl_readBar (keeps : PciKeeps) (bus device function : UInt8)
    (is : List (Fin 6)) (s : PciDevice × PciPorts) :
    (is.foldl (readBar keeps bus device function) s).1 = { s.1 with
      bar := fun i => if i ∈ is
        then s.2.config.at (pciLocation bus device function (pciBar0 + UInt8.ofNat (i * 4)))
        else s.1.bar i } ∧
      (is.foldl (readBar keeps bus device function) s).2.config = s.2.config := by
  induction is generalizing s with
  | nil => simp
  | cons j is ih =>
    obtain ⟨hbar, hconfig⟩ := ih (readBar keeps bus device function s j)
    rw [List.foldl_cons, hbar, hconfig]
    simp only [readBar, pciReadConfig_eq, and_true]
    congr 1
    funext i
    by_cases hij : i = j <;> by_cases hi : i ∈ is <;> simp [hij, hi]

theorem PciPorts.pciGetDeviceInfo_eq (keeps : PciKeeps) (p : PciPorts) (bus device function : UInt8)
    (devInfo : PciDevice) :
    p.pciGetDeviceInfo keeps bus device function devInfo =
      (pciDeviceInfo (fun offset => p.config.at (pciLocation bus device function offset))
        devInfo.reserved, { p with address := pciAddress bus device function 0x3C }) := by
  unfold pciGetDeviceInfo
  simp only [pciReadConfig_eq, (foldl_readBar keeps bus device function _ _).1,
    (foldl_readBar keeps bus device function _ _).2, List.mem_finRange, if_true, vendorId_eq,
    byteOf_eq]
  rfl

/-- One call on the ports is one call on the map. -/
theorem PciPorts.exec_eq (keeps : PciKeeps) (p : PciPorts) (c : PciCall) :
    (p.exec keeps c).1 = (pciOnMap keeps p.config.at c).1 ∧
      (p.exec keeps c).2.config.at = (pciOnMap keeps p.config.at c).2 := by
  cases c with
  | readConfig bus slot func offset =>
    simp only [exec, pciOnMap, pciReadConfig_eq, and_self]
  | writeConfig bus slot func offset value =>
    refine ⟨rfl, ?_⟩
    funext l
    have hstore := pciStore_at keeps p.config bus slot func offset value l
    simp only [pciOnMap, Function.update_apply]
    refine hstore.trans ?_
    by_cases hl : l = pciLocation bus slot func offset
    · rw [if_pos hl, if_pos hl, hl]
    · rw [if_neg hl, if_neg hl]
  | getDeviceInfo bus device function devInfo =>
    simp only [exec, pciOnMap, pciGetDeviceInfo_eq, and_self]

/-- The calls of `pci.c` answer as a map from locations to words does, whatever is made of the
address port. -/
theorem pci_calls_refine_map (keeps : PciKeeps) (p : PciPorts) (calls : List PciCall) :
    pciAnswers (PciPorts.exec keeps) p calls = pciAnswers (pciOnMap keeps) p.config.at calls := by
  induction calls generalizing p with
  | nil => rfl
  | cons c calls ih =>
    obtain ⟨hanswer, hconfig⟩ := p.exec_eq keeps c
    rw [pciAnswers, pciAnswers, hanswer, ih, hconfig]

/-! ## What a device is known by -/

theorem halves_eq_iff {a b : UInt32} : a.toUInt16 = b.toUInt16 ∧
    (a >>> 16).toUInt16 = (b >>> 16).toUInt16 ↔ a = b := by
  have ha := a.toNat_lt
  have hb := b.toNat_lt
  simp only [← UInt16.toNat_inj, ← UInt32.toNat_inj, UInt32.toNat_toUInt16,
    UInt32.toNat_shiftRight, Nat.shiftRight_eq_div_pow]
  simp
  omega

theorem bytes_eq_iff {a b : UInt32} : a.toUInt8 = b.toUInt8 ∧
    (a >>> 8).toUInt8 = (b >>> 8).toUInt8 ∧ (a >>> 16).toUInt8 = (b >>> 16).toUInt8 ∧
    (a >>> 24).toUInt8 = (b >>> 24).toUInt8 ↔ a = b := by
  have ha := a.toNat_lt
  have hb := b.toNat_lt
  simp only [← UInt8.toNat_inj, ← UInt32.toNat_inj, UInt32.toNat_toUInt8,
    UInt32.toNat_shiftRight, Nat.shiftRight_eq_div_pow]
  simp
  omega

/-- The registers whose words `pci_get_device_info` takes apart and keeps. -/
def pciInfoRegisters : List UInt8 :=
  [0x00, 0x04, 0x08, 0x0C, 0x28, 0x2C, 0x30, 0x3C] ++
    (List.finRange 6).map fun i : Fin 6 => pciBar0 + UInt8.ofNat (i * 4)

section Info

variable {f g : UInt8 → UInt32} {reserved : Fin 7 → UInt8}

theorem pciDeviceInfo_words : pciDeviceInfo f reserved = pciDeviceInfo g reserved ↔
    f 0x00 = g 0x00 ∧ f 0x04 = g 0x04 ∧ f 0x08 = g 0x08 ∧ f 0x0C = g 0x0C ∧
    (∀ i : Fin 6, f (pciBar0 + UInt8.ofNat (i * 4)) = g (pciBar0 + UInt8.ofNat (i * 4))) ∧
    f 0x28 = g 0x28 ∧ f 0x2C = g 0x2C ∧ f 0x30 = g 0x30 ∧
    (f 0x34).toUInt8 = (g 0x34).toUInt8 ∧ f 0x3C = g 0x3C := by
  rw [← halves_eq_iff (a := f 0x00), ← halves_eq_iff (a := f 0x04), ← bytes_eq_iff (a := f 0x08),
    ← bytes_eq_iff (a := f 0x0C), ← halves_eq_iff (a := f 0x2C), ← bytes_eq_iff (a := f 0x3C),
    pciDeviceInfo, pciDeviceInfo, PciDevice.mk.injEq, funext_iff, pciBar0]
  simp only [and_assoc, true_and]

theorem pciDeviceInfo_eq_iff : pciDeviceInfo f reserved = pciDeviceInfo g reserved ↔
    (∀ offset ∈ pciInfoRegisters, f offset = g offset) ∧
      (f 0x34).toUInt8 = (g 0x34).toUInt8 := by
  rw [pciDeviceInfo_words]
  constructor
  · rintro ⟨h00, h04, h08, h0C, hbar, h28, h2C, h30, h34, h3C⟩
    refine ⟨?_, h34⟩
    simp only [pciInfoRegisters, List.forall_mem_append, List.forall_mem_map, List.forall_mem_cons]
    exact ⟨⟨h00, h04, h08, h0C, h28, h2C, h30, h3C, by simp⟩, fun i _ => hbar i⟩
  · rintro ⟨hall, h34⟩
    simp only [pciInfoRegisters, List.forall_mem_append, List.forall_mem_map,
      List.forall_mem_cons] at hall
    obtain ⟨⟨h00, h04, h08, h0C, h28, h2C, h30, h3C, -⟩, hbar⟩ := hall
    exact ⟨h00, h04, h08, h0C, fun i => hbar i (List.mem_finRange i), h28, h2C, h30, h34, h3C⟩

end Info

/-- Two devices get the same information exactly when they agree on these registers and on the
pointer to the capabilities. -/
theorem pci_device_info_eq_iff (keeps : PciKeeps) (p q : PciPorts)
    (bus device function bus' device' function' : UInt8) (devInfo : PciDevice) :
    (p.pciGetDeviceInfo keeps bus device function devInfo).1 =
        (q.pciGetDeviceInfo keeps bus' device' function' devInfo).1 ↔
      (∀ offset ∈ pciInfoRegisters, p.config.at (pciLocation bus device function offset) =
        q.config.at (pciLocation bus' device' function' offset)) ∧
      (p.config.at (pciLocation bus device function 0x34)).toUInt8 =
        (q.config.at (pciLocation bus' device' function' 0x34)).toUInt8 := by
  rw [PciPorts.pciGetDeviceInfo_eq, PciPorts.pciGetDeviceInfo_eq]
  dsimp only
  rw [pciDeviceInfo_eq_iff]

end HolyOs.Drivers

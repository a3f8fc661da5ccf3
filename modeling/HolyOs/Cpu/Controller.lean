import HolyOs.Cpu.Interrupt

/-!
# The interrupt controllers

The two chips behind the ports of `pic.c`. The byte at a data port is an initialization word while
the chip waits for one, and the mask otherwise. A request is latched, and acknowledged when the line
is not masked and none of a higher or the same priority is in service; it is in service until the
end of interrupt, unless the chip ends it by itself. A request stays until it is acknowledged. The
second chip requests line 2 of the first one.

## Main definitions

* `Chips.picInit`, `Chips.picUnmaskIrq`, `Chips.picMaskIrq`, `Chips.picSendEoi`: the functions of
  `pic.c`.
* `Chips.acknowledge`: the vector that the processor gets.
-/
namespace HolyOs.Cpu

/-- What the next byte at the data port is. -/
inductive Expects
  | icw2
  | icw3
  | icw4
  | mask
deriving DecidableEq

structure Chip where
  expects : Expects
  icw1 : BitVec 8
  offset : BitVec 8
  cascade : BitVec 8
  icw4 : BitVec 8
  imr : BitVec 8
  /-- The lines that are requested, and those in service. -/
  irr : Finset Nat
  isr : Finset Nat

namespace Chip

variable (c : Chip)

/-- The line of the highest priority in service. -/
def highest : Option Nat := (List.range 8).find? (· ∈ c.isr)

/-- An end of interrupt that does not name its line. -/
def endOfInterrupt : Chip :=
  match c.highest with
  | some k => { c with isr := c.isr.erase k }
  | none => c

/-- A first initialization word, or an end of interrupt. -/
def command (value : BitVec 8) : Chip :=
  if value.getLsbD 4 then
    { c with expects := .icw2, icw1 := value, icw4 := 0, imr := 0, irr := ∅, isr := ∅ }
  else if value = 0x20 then c.endOfInterrupt
  else c

/-- Bit 0 of the first word announces the fourth one, and bit 1 leaves out the third one. -/
def data (value : BitVec 8) : Chip :=
  let last := if c.icw1.getLsbD 0 then Expects.icw4 else .mask
  match c.expects with
  | .icw2 =>
    { c with offset := value &&& 0xF8, expects := if c.icw1.getLsbD 1 then last else .icw3 }
  | .icw3 => { c with cascade := value, expects := last }
  | .icw4 => { c with icw4 := value, expects := .mask }
  | .mask => { c with imr := value }

/-- The line is requested, and the chip can acknowledge it. -/
def Open (k : Nat) : Prop := k ∈ c.irr ∧ c.imr.getLsbD k = false ∧ ∀ j ≤ k, j ∉ c.isr

instance decidableOpen (k : Nat) : Decidable (c.Open k) := inferInstanceAs (Decidable (_ ∧ _))

def pick : Option Nat := (List.range 8).find? fun k => c.Open k

/-- Bit 1 of the fourth word has the chip end the interrupt by itself. -/
def serve (k : Nat) : Chip :=
  { c with
    irr := c.irr.erase k
    isr := if c.icw4.getLsbD 1 then c.isr else insert k c.isr }

end Chip

structure Chips where
  master : Chip
  slave : Chip

namespace Chips

variable (c : Chips)

def outb (port : Nat) (value : BitVec 8) : Chips :=
  if port = pic1Command then { c with master := c.master.command value }
  else if port = pic1Data then { c with master := c.master.data value }
  else if port = pic2Command then { c with slave := c.slave.command value }
  else if port = pic2Data then { c with slave := c.slave.data value }
  else c

def inb (port : Nat) : BitVec 8 :=
  if port = pic1Data then c.master.imr else if port = pic2Data then c.slave.imr else 0

def picInit : Chips :=
  let c := (c.outb pic1Command 0x11).outb pic2Command 0x11
  let c := (c.outb pic1Data 0x20).outb pic2Data 0x28
  let c := (c.outb pic1Data 4).outb pic2Data 2
  let c := (c.outb pic1Data 1).outb pic2Data 1
  (c.outb pic1Data 0xFF).outb pic2Data 0xFF

def picMaskIrq (irq : Nat) : Chips :=
  let port := if irq < 8 then pic1Data else pic2Data
  c.outb port (c.inb port ||| (1#8 <<< (irq % 8)))

def picUnmaskIrq (irq : Nat) : Chips :=
  let port := if irq < 8 then pic1Data else pic2Data
  c.outb port (c.inb port &&& ~~~(1#8 <<< (irq % 8)))

def picSendEoi (irq : Nat) : Chips :=
  let c := if irq ≥ 8 then c.outb pic2Command 0x20 else c
  c.outb pic1Command 0x20

/-- A device requests its line. -/
def request (irq : Nat) : Chips :=
  if irq < 8 then { c with master := { c.master with irr := insert irq c.master.irr } }
  else { c with slave := { c.slave with irr := insert (irq - 8) c.slave.irr } }

/-- The first chip with the request of the second one. -/
def wired : Chip :=
  { c.master with
    irr := if c.slave.pick.isSome then insert 2 c.master.irr else c.master.irr.erase 2 }

/-- The vector, and the chips after it was read. The second chip answers for line 2 when both know
of each other. -/
def acknowledge : Option (BitVec 8 × Chips) :=
  c.wired.pick.bind fun k =>
    if k = 2 ∧ c.master.cascade.getLsbD 2 ∧ c.slave.cascade = 2 then
      c.slave.pick.map fun j =>
        (c.slave.offset + BitVec.ofNat 8 j, ⟨c.master.serve 2, c.slave.serve j⟩)
    else some (c.master.offset + BitVec.ofNat 8 k, { c with master := c.master.serve k })

/-- The mask registers alone. -/
def masks : Pic := ⟨c.master.imr, c.slave.imr⟩

end Chips

/-- `pic_mask_irq` on the masks alone. -/
def picMaskIrq (p : Pic) (irq : Nat) : Pic :=
  let port := if irq < 8 then pic1Data else pic2Data
  outb p port (inb p port ||| (1#8 <<< (irq % 8)))

/-- Masking a line sets its bit and no other. -/
theorem picMaskIrq_masked (p : Pic) {irq k : Nat} (hirq : irq < 16) (hk : k < 16) :
    (picMaskIrq p irq).Masked k ↔ k = irq ∨ p.Masked k := by
  have hword : (picMaskIrq p irq).masks (k / 8) = PackedBits.setBit p.masks irq (k / 8) := by
    obtain hk8 | hk8 : k / 8 = 0 ∨ k / 8 = 1 := by omega
    all_goals
      by_cases hport : irq < 8
      · have hirq8 : irq / 8 = 0 := by omega
        simp [picMaskIrq, outb, inb, Pic.masks, PackedBits.setBit, hport, hk8, hirq8]
      · have hirq8 : irq / 8 = 1 := by omega
        simp [picMaskIrq, outb, inb, Pic.masks, PackedBits.setBit, hport, hk8, hirq8]
  have hbit : PackedBits.getBit (picMaskIrq p irq).masks k =
      PackedBits.getBit (PackedBits.setBit p.masks irq) k := by
    rw [PackedBits.getBit, PackedBits.getBit, hword]
  rw [Pic.Masked, hbit, PackedBits.getBit_setBit]
  simp [Pic.Masked]

/-! ## One chip -/

namespace Chip

variable {c : Chip} {k j : Nat}

theorem pick_eq_some : c.pick = some k ↔ k < 8 ∧ c.Open k ∧ ∀ j < k, ¬ c.Open j := by
  simp only [pick, List.find?_range_eq_some, decide_eq_true_eq, List.mem_range,
    Bool.not_eq_true', decide_eq_false_iff_not]
  tauto

theorem pick_eq_none : c.pick = none ↔ ∀ k < 8, ¬ c.Open k := by
  simp [pick]

/-- What is in service alone is ended. -/
theorem endOfInterrupt_single (hk : k < 8) (hisr : c.isr = {k}) :
    c.endOfInterrupt = { c with isr := ∅ } := by
  have hhighest : c.highest = some k := by
    simp only [highest, List.find?_range_eq_some, hisr, Finset.mem_singleton, decide_true,
      List.mem_range, Bool.not_eq_true', decide_eq_false_iff_not]
    exact ⟨trivial, hk, fun j hj => by omega⟩
  rw [endOfInterrupt, hhighest, hisr]
  simp

/-- The chip was initialized by `pic_init`. -/
structure Ready (c : Chip) (offset cascade : BitVec 8) : Prop where
  expects : c.expects = .mask
  offset : c.offset = offset
  cascade : c.cascade = cascade
  icw4 : c.icw4 = 1

variable {offset cascade : BitVec 8}

theorem Ready.data (h : c.Ready offset cascade) (value : BitVec 8) :
    c.data value = { c with imr := value } := by
  rw [Chip.data, h.expects]

theorem Ready.serve (h : c.Ready offset cascade) (k : Nat) :
    c.serve k = { c with irr := c.irr.erase k, isr := insert k c.isr } := by
  rw [Chip.serve, h.icw4]
  rfl

theorem command_eoi (c : Chip) : c.command 0x20#8 = c.endOfInterrupt := rfl

end Chip

/-! ## Both chips -/

namespace Chips

structure Ready (c : Chips) : Prop where
  master : c.master.Ready 0x20 4
  slave : c.slave.Ready 0x28 2

/-- Whatever was written to the chips before, and whatever they are waiting for. -/
theorem picInit_eq (c : Chips) : c.picInit =
    ⟨⟨.mask, 0x11, 0x20, 4, 1, 0xFF, ∅, ∅⟩, ⟨.mask, 0x11, 0x28, 2, 1, 0xFF, ∅, ∅⟩⟩ := by
  simp +decide [picInit, outb, Chip.command, Chip.data]

theorem picInit_ready (c : Chips) : c.picInit.Ready := by
  rw [picInit_eq]
  exact ⟨⟨rfl, rfl, rfl, rfl⟩, ⟨rfl, rfl, rfl, rfl⟩⟩

theorem picInit_masks (c : Chips) : c.picInit.masks = Cpu.picInit c.masks := by
  rw [picInit_eq]
  rfl

variable {c : Chips} {irq k : Nat}

/-- The line is requested. -/
def Requested (c : Chips) (irq : Nat) : Prop :=
  if irq < 8 then irq ∈ c.master.irr else irq - 8 ∈ c.slave.irr

/-- The chips after the interrupt of a line was acknowledged. -/
def take (c : Chips) (irq : Nat) : Chips :=
  if irq < 8 then { c with master := c.master.serve irq }
  else ⟨c.master.serve 2, c.slave.serve (irq - 8)⟩

/-- The lines that are in service while the interrupt of a line is handled. -/
structure InService (c : Chips) (irq : Nat) : Prop where
  master : c.master.isr = {if irq < 8 then irq else 2}
  slave : c.slave.isr = if irq < 8 then ∅ else {irq - 8}

structure Quiet (c : Chips) : Prop where
  master : c.master.isr = ∅
  slave : c.slave.isr = ∅

/-- The masks are written, and nothing else changes. -/
def withMasks (c : Chips) (p : Pic) : Chips :=
  ⟨{ c.master with imr := p.master }, { c.slave with imr := p.slave }⟩

theorem Ready.picUnmaskIrq (h : c.Ready) (irq : Nat) :
    c.picUnmaskIrq irq = c.withMasks (Cpu.picUnmaskIrq c.masks irq) := by
  by_cases hirq : irq < 8
  · simp [Chips.picUnmaskIrq, Cpu.picUnmaskIrq, outb, inb, Cpu.outb, Cpu.inb, hirq, h.master.data,
      withMasks, masks]
  · simp [Chips.picUnmaskIrq, Cpu.picUnmaskIrq, outb, inb, Cpu.outb, Cpu.inb, hirq, h.slave.data,
      withMasks, masks]

theorem Ready.picMaskIrq (h : c.Ready) (irq : Nat) :
    c.picMaskIrq irq = c.withMasks (Cpu.picMaskIrq c.masks irq) := by
  by_cases hirq : irq < 8
  · simp [Chips.picMaskIrq, Cpu.picMaskIrq, outb, inb, Cpu.outb, Cpu.inb, hirq, h.master.data,
      withMasks, masks]
  · simp [Chips.picMaskIrq, Cpu.picMaskIrq, outb, inb, Cpu.outb, Cpu.inb, hirq, h.slave.data,
      withMasks, masks]

@[simp] theorem withMasks_masks (c : Chips) (p : Pic) : (c.withMasks p).masks = p := rfl

@[simp] theorem withMasks_requested (p : Pic) :
    (c.withMasks p).Requested k ↔ c.Requested k := Iff.rfl

theorem Ready.withMasks (h : c.Ready) (p : Pic) : (c.withMasks p).Ready := by
  obtain ⟨⟨h1, h2, h3, h4⟩, ⟨h5, h6, h7, h8⟩⟩ := h
  exact ⟨⟨h1, h2, h3, h4⟩, ⟨h5, h6, h7, h8⟩⟩

theorem Quiet.withMasks (hq : c.Quiet) (p : Pic) : (c.withMasks p).Quiet := ⟨hq.master, hq.slave⟩

theorem InService.withMasks (h : c.InService irq) (p : Pic) : (c.withMasks p).InService irq :=
  ⟨h.master, h.slave⟩

/-! ## Requests -/

theorem requested_request : (c.request irq).Requested k ↔ k = irq ∨ c.Requested k := by
  unfold request Requested
  by_cases hirq : irq < 8 <;> by_cases hk : k < 8
  · simp [hirq, hk]
  · simp [hirq, hk, show k ≠ irq by omega]
  · simp [hirq, hk, show k ≠ irq by omega]
  · simp [hirq, hk, show k - 8 = irq - 8 ↔ k = irq by omega]

@[simp] theorem request_masks (c : Chips) (irq : Nat) : (c.request irq).masks = c.masks := by
  unfold request
  split_ifs <;> rfl

theorem Ready.request (h : c.Ready) (irq : Nat) : (c.request irq).Ready := by
  obtain ⟨⟨h1, h2, h3, h4⟩, ⟨h5, h6, h7, h8⟩⟩ := h
  unfold Chips.request
  split_ifs
  · exact ⟨⟨h1, h2, h3, h4⟩, ⟨h5, h6, h7, h8⟩⟩
  · exact ⟨⟨h1, h2, h3, h4⟩, ⟨h5, h6, h7, h8⟩⟩

theorem request_isr (c : Chips) (irq : Nat) :
    (c.request irq).master.isr = c.master.isr ∧ (c.request irq).slave.isr = c.slave.isr := by
  unfold request
  split_ifs <;> exact ⟨rfl, rfl⟩

theorem requested_take (htwo : ¬ c.Requested 2) :
    (c.take irq).Requested k ↔ k ≠ irq ∧ c.Requested k := by
  have hmaster : 2 ∉ c.master.irr := htwo
  unfold take Requested
  by_cases hirq : irq < 8 <;> by_cases hk : k < 8
  · simp [hirq, hk, Chip.serve]
  · simp [hirq, hk, show k ≠ irq by omega]
  · simp only [hirq, hk, if_false, if_true, Chip.serve, Finset.erase_eq_of_notMem hmaster]
    simp [show k ≠ irq by omega]
  · simp [hirq, hk, Chip.serve, show k - 8 = irq - 8 ↔ k = irq by omega]

@[simp] theorem take_masks (c : Chips) (irq : Nat) : (c.take irq).masks = c.masks := by
  unfold take
  split_ifs <;> rfl

/-- An end of interrupt ends what is in service, as the model of the masks has it. -/
theorem InService.picSendEoi (h : c.InService irq) (hirq : irq < 16) :
    c.picSendEoi irq = ⟨{ c.master with isr := ∅ }, { c.slave with isr := ∅ }⟩ := by
  obtain ⟨hmaster, hslave⟩ := h
  by_cases hlow : irq < 8
  · rw [if_pos hlow] at hmaster hslave
    have hsame : c.slave = { c.slave with isr := ∅ } := by rw [← hslave]
    rw [← hsame]
    simp [Chips.picSendEoi, outb, Nat.not_le.mpr hlow, Chip.command_eoi,
      Chip.endOfInterrupt_single hlow hmaster]
  · rw [if_neg hlow] at hmaster hslave
    simp [Chips.picSendEoi, outb, Nat.not_lt.mp hlow, Chip.command_eoi,
      Chip.endOfInterrupt_single (by omega) hmaster, Chip.endOfInterrupt_single (by omega) hslave]

theorem Ready.take (h : c.Ready) (irq : Nat) : (c.take irq).Ready := by
  obtain ⟨⟨h1, h2, h3, h4⟩, ⟨h5, h6, h7, h8⟩⟩ := h
  unfold Chips.take
  split_ifs
  · exact ⟨⟨h1, h2, h3, h4⟩, ⟨h5, h6, h7, h8⟩⟩
  · exact ⟨⟨h1, h2, h3, h4⟩, ⟨h5, h6, h7, h8⟩⟩

theorem Ready.take_inService (h : c.Ready) (hq : c.Quiet) (irq : Nat) :
    (c.take irq).InService irq := by
  unfold Chips.take
  split_ifs with hlow
  · refine ⟨?_, ?_⟩
    · rw [h.master.serve, hq.master, if_pos hlow]
      rfl
    · rw [if_pos hlow, hq.slave]
  · refine ⟨?_, ?_⟩
    · rw [h.master.serve, hq.master, if_neg hlow]
      rfl
    · rw [h.slave.serve, hq.slave, if_neg hlow]
      rfl

/-! ## What is acknowledged -/

/-- The line is requested, and its request can reach the processor. -/
def Deliverable (c : Chips) (irq : Nat) : Prop := c.Requested irq ∧ c.masks.Delivers irq

/-- The lines of the second chip come in the place of line 2. -/
def rank (irq : Nat) : Nat := if irq < 8 then 8 * irq else 8 + irq

theorem masked_low (hirq : irq < 8) : c.masks.Masked irq ↔ c.master.imr.getLsbD irq = true := by
  have hword : irq / 8 = 0 := by omega
  have hbit : irq % 8 = irq := by omega
  rw [Pic.Masked, PackedBits.getBit, hword, hbit]
  rfl

theorem masked_high (hirq : 8 ≤ irq) (hlt : irq < 16) :
    c.masks.Masked irq ↔ c.slave.imr.getLsbD (irq - 8) = true := by
  have hword : irq / 8 = 1 := by omega
  have hbit : irq % 8 = irq - 8 := by omega
  rw [Pic.Masked, PackedBits.getBit, hword, hbit]
  rfl

theorem Quiet.slave_open (hq : c.Quiet) (hirq : 8 ≤ irq) (hlt : irq < 16) :
    c.slave.Open (irq - 8) ↔ c.Requested irq ∧ ¬ c.masks.Masked irq := by
  rw [masked_high hirq hlt, Requested, if_neg (by omega), Chip.Open, hq.slave]
  simp

/-- The second chip has something to deliver. -/
theorem Quiet.slave_pick (hq : c.Quiet) : c.slave.pick.isSome ↔
    ∃ irq, 8 ≤ irq ∧ irq < 16 ∧ c.Requested irq ∧ ¬ c.masks.Masked irq := by
  rw [← Option.ne_none_iff_isSome, ne_eq, Chip.pick_eq_none]
  push Not
  constructor
  · rintro ⟨k, hk, hopen⟩
    have heq : k = k + 8 - 8 := by omega
    rw [heq, hq.slave_open (by omega) (by omega)] at hopen
    exact ⟨k + 8, by omega, by omega, hopen⟩
  · rintro ⟨irq, hirq, hlt, hopen⟩
    exact ⟨irq - 8, by omega, (hq.slave_open hirq hlt).mpr hopen⟩

theorem Quiet.wired_open (hq : c.Quiet) (hk : k < 8) (hne : k ≠ 2) :
    c.wired.Open k ↔ c.Deliverable k := by
  have hirr : k ∈ c.wired.irr ↔ k ∈ c.master.irr := by
    unfold wired
    dsimp only
    split_ifs <;> simp [hne]
  have hdelivers : c.masks.Delivers k ↔ ¬ c.masks.Masked k :=
    and_iff_left fun h8 => absurd h8 (by omega)
  rw [Deliverable, hdelivers, masked_low hk, Requested, if_pos hk, Chip.Open, hirr]
  simp [wired, hq.master]

theorem Quiet.wired_open_two (hq : c.Quiet) :
    c.wired.Open 2 ↔ ∃ irq, 8 ≤ irq ∧ irq < 16 ∧ c.Deliverable irq := by
  have hirr : 2 ∈ c.wired.irr ↔ c.slave.pick.isSome := by
    unfold wired
    dsimp only
    split_ifs with hpick <;> simp [hpick]
  have hmask : c.wired.imr.getLsbD 2 = false ↔ ¬ c.masks.Masked 2 := by
    rw [masked_low (by omega)]
    simp [wired]
  rw [Chip.Open, hirr, hmask, hq.slave_pick]
  constructor
  · rintro ⟨⟨irq, hirq, hlt, hrequested, hmasked⟩, htwo, -⟩
    exact ⟨irq, hirq, hlt, hrequested, hmasked, fun _ => htwo⟩
  · rintro ⟨irq, hirq, hlt, hrequested, hmasked, htwo⟩
    exact ⟨⟨irq, hirq, hlt, hrequested, hmasked⟩, htwo hirq, by simp [wired, hq.master]⟩

/-- What the processor gets when nothing is in service: the request of the highest priority. -/
theorem Ready.acknowledge (h : c.Ready) (hq : c.Quiet) {v : BitVec 8} {c' : Chips}
    (hack : c.acknowledge = some (v, c')) : ∃ irq < 16, irq ≠ 2 ∧ v.toNat = 32 + irq ∧
      c' = c.take irq ∧ c.Deliverable irq ∧
        ∀ j < 16, j ≠ 2 → c.Deliverable j → rank irq ≤ rank j := by
  obtain ⟨k, hk, hrest⟩ := Option.bind_eq_some_iff.mp hack
  obtain ⟨hk8, hopen, hfirst⟩ := Chip.pick_eq_some.mp hk
  simp only [h.master.cascade, h.slave.cascade, h.master.offset, h.slave.offset] at hrest
  by_cases htwo : k = 2
  · subst htwo
    rw [if_pos (by decide)] at hrest
    obtain ⟨j, hj, hres⟩ := Option.map_eq_some_iff.mp hrest
    obtain ⟨rfl, rfl⟩ := Prod.mk.inj hres
    obtain ⟨hj8, hjopen, hjfirst⟩ := Chip.pick_eq_some.mp hj
    have heq : j = j + 8 - 8 := by omega
    rw [heq, hq.slave_open (by omega) (by omega)] at hjopen
    obtain ⟨irq, hirq, hlt, -, -, hcascade⟩ := hq.wired_open_two.mp hopen
    refine ⟨j + 8, by omega, by omega, ?_, ?_, ⟨hjopen.1, hjopen.2, fun _ => hcascade hirq⟩, ?_⟩
    · rw [BitVec.toNat_add, BitVec.toNat_ofNat, show (0x28 : BitVec 8).toNat = 40 from rfl]
      omega
    · rw [Chips.take, if_neg (by omega), ← heq]
    · intro i hi hne hdeliverable
      by_cases hlow : i < 8
      · have hge : ¬ i < 2 := fun hlt2 => hfirst i hlt2 ((hq.wired_open hlow hne).mpr hdeliverable)
        unfold rank
        split_ifs <;> omega
      · have hiopen := (hq.slave_open (by omega) hi).mpr ⟨hdeliverable.1, hdeliverable.2.1⟩
        have hge : ¬ i - 8 < j := fun hlt8 => hjfirst _ hlt8 hiopen
        unfold rank
        split_ifs <;> omega
  · rw [if_neg fun hboth => htwo hboth.1] at hrest
    obtain ⟨rfl, rfl⟩ := Prod.mk.inj (Option.some.inj hrest)
    refine ⟨k, by omega, htwo, ?_, ?_, (hq.wired_open hk8 htwo).mp hopen, ?_⟩
    · rw [BitVec.toNat_add, BitVec.toNat_ofNat, show (0x20 : BitVec 8).toNat = 32 from rfl]
      omega
    · rw [Chips.take, if_pos hk8]
    · intro i hi hne hdeliverable
      by_cases hlow : i < 8
      · have hge : ¬ i < k := fun hltk => hfirst i hltk ((hq.wired_open hlow hne).mpr hdeliverable)
        unfold rank
        split_ifs
        omega
      · have htwoOpen := hq.wired_open_two.mpr ⟨i, by omega, hi, hdeliverable⟩
        have hge : ¬ 2 < k := fun hltk => hfirst 2 hltk htwoOpen
        unfold rank
        split_ifs
        omega

/-- A request that can reach the processor keeps the chips asking. -/
theorem Quiet.acknowledge_isSome (hq : c.Quiet) (hirq : irq < 16) (hne : irq ≠ 2)
    (hdeliverable : c.Deliverable irq) : c.acknowledge.isSome := by
  have hopen : ∃ k < 8, c.wired.Open k := by
    by_cases hlow : irq < 8
    · exact ⟨irq, hlow, (hq.wired_open hlow hne).mpr hdeliverable⟩
    · exact ⟨2, by omega, hq.wired_open_two.mpr ⟨irq, by omega, hirq, hdeliverable⟩⟩
  obtain ⟨k, hk⟩ : ∃ k, c.wired.pick = some k := by
    rw [← Option.ne_none_iff_exists', ne_eq, Chip.pick_eq_none]
    push Not
    exact hopen
  obtain ⟨-, hkopen, -⟩ := Chip.pick_eq_some.mp hk
  rw [Chips.acknowledge, hk, Option.bind_some]
  split_ifs with htwo
  · obtain ⟨rfl, -⟩ := htwo
    rw [Option.isSome_map]
    obtain ⟨irq, hirq, hlt, hrequested, hmasked, -⟩ := hq.wired_open_two.mp hkopen
    exact hq.slave_pick.mpr ⟨irq, hirq, hlt, hrequested, hmasked⟩
  · rfl

end Chips

end HolyOs.Cpu

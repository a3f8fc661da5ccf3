import HolyOs.Foundation.PackedBits
import HolyOs.Foundation.Transition

/-!
# Interrupt lines

Shallow model of `kernel/cpu/interrupt.c` and `pic.c`: the table of handlers and the mask
registers of the two interrupt controllers. A data port reads back what was written to it. The
second controller sends its requests through line 2 of the first one, so a request of its lines
reaches the processor only when that line is unmasked too.
-/
namespace HolyOs.Cpu

open PackedBits Transition

/-- The mask registers. -/
structure Pic where
  master : BitVec 8
  slave : BitVec 8

@[simp] def pic1Command : Nat := 0x20
@[simp] def pic1Data : Nat := 0x21
@[simp] def pic2Command : Nat := 0xA0
@[simp] def pic2Data : Nat := 0xA1

/-- The command ports do not change the masks. -/
def outb (p : Pic) (port : Nat) (value : BitVec 8) : Pic :=
  if port = pic1Data then { p with master := value }
  else if port = pic2Data then { p with slave := value }
  else p

def inb (p : Pic) (port : Nat) : BitVec 8 :=
  if port = pic1Data then p.master else if port = pic2Data then p.slave else 0

def picInit (p : Pic) : Pic :=
  let p := outb (outb p pic1Command 0x11) pic2Command 0x11
  let p := outb (outb p pic1Data 0x20) pic2Data 0x28
  let p := outb (outb p pic1Data 4) pic2Data 2
  let p := outb (outb p pic1Data 1) pic2Data 1
  outb (outb p pic1Data 0xFF) pic2Data 0xFF

def picUnmaskIrq (p : Pic) (irq : Nat) : Pic :=
  let port := if irq < 8 then pic1Data else pic2Data
  outb p port (inb p port &&& ~~~(1#8 <<< (irq % 8)))

def picSendEoi (p : Pic) (irq : Nat) : Pic :=
  let p := if irq ≥ 8 then outb p pic2Command 0x20 else p
  outb p pic1Command 0x20

/-- The table of handlers, null entries being `none`, and the controllers. -/
structure Interrupts (α : Type*) where
  handlers : Nat → Option α
  pic : Pic

variable {α : Type*}

def interruptRegisterHandler (s : Interrupts α) (num : UInt8) (handler : Option α) :
    Interrupts α :=
  if num ≥ 48 then s
  else
    let s := { s with handlers := Function.update s.handlers num.toNat handler }
    if num ≥ 32 ∧ num < 48 then { s with pic := picUnmaskIrq s.pic (num.toNat - 32) } else s

/-- The handler that is called, and the state after it returned; `none` stands for the halt of an
unhandled interrupt. -/
def interruptHandler (s : Interrupts α) (intNo : Nat) : Option (α × Interrupts α) :=
  (s.handlers intNo).map fun handler =>
    (handler,
      if intNo ≥ 32 ∧ intNo < 48 then { s with pic := picSendEoi s.pic (intNo - 32) } else s)

/-- The empty table and the controllers after `pic_init`. -/
def interruptInit (p : Pic) : Interrupts α := ⟨fun _ => none, picInit p⟩

/-- A sequence of registrations of handlers that are not null. -/
def registerAll (s : Interrupts α) (regs : List (UInt8 × α)) : Interrupts α :=
  regs.foldl (fun s reg => interruptRegisterHandler s reg.1 (some reg.2)) s

/-! ## The masks as one array of bits -/

/-- Line `k` is bit `k % 8` of register `k / 8`. -/
def Pic.masks (p : Pic) (i : Nat) : BitVec 8 := if i = 0 then p.master else p.slave

def Pic.Masked (p : Pic) (irq : Nat) : Prop := getBit p.masks irq = true

instance (p : Pic) (irq : Nat) : Decidable (p.Masked irq) := inferInstanceAs (Decidable (_ = _))

/-- A request of the line reaches the processor. -/
def Pic.Delivers (p : Pic) (irq : Nat) : Prop :=
  ¬ p.Masked irq ∧ (8 ≤ irq → ¬ p.Masked 2)

theorem picInit_masked (p : Pic) (irq : Nat) : (picInit p).Masked irq := by
  have hmasks : (picInit p).masks = fun _ => BitVec.allOnes 8 := by
    funext i
    exact ite_self _
  rw [Pic.Masked, getBit, hmasks, BitVec.getLsbD_allOnes]
  exact decide_eq_true (Nat.mod_lt _ (by decide))

/-- Unmasking a line clears its bit and no other. -/
theorem picUnmaskIrq_masked (p : Pic) {irq k : Nat} (hirq : irq < 16) (hk : k < 16) :
    (picUnmaskIrq p irq).Masked k ↔ k ≠ irq ∧ p.Masked k := by
  have hword : (picUnmaskIrq p irq).masks (k / 8) = clearBit p.masks irq (k / 8) := by
    obtain hk8 | hk8 : k / 8 = 0 ∨ k / 8 = 1 := by omega
    all_goals
      by_cases hport : irq < 8
      · have hirq8 : irq / 8 = 0 := by omega
        simp [picUnmaskIrq, outb, inb, Pic.masks, clearBit, hport, hk8, hirq8]
      · have hirq8 : irq / 8 = 1 := by omega
        simp [picUnmaskIrq, outb, inb, Pic.masks, clearBit, hport, hk8, hirq8]
  have hbit : getBit (picUnmaskIrq p irq).masks k = getBit (clearBit p.masks irq) k := by
    rw [getBit, getBit, hword]
  rw [Pic.Masked, hbit, getBit_clearBit]
  simp [Pic.Masked]

/-! ## Registrations -/

/-- A registration enters its handler. -/
theorem register_handlers (s : Interrupts α) (reg : UInt8 × α) {n : Nat} (hn : n < 48) :
    ((interruptRegisterHandler s reg.1 (some reg.2)).handlers n).isSome ↔
      reg.1.toNat = n ∨ (s.handlers n).isSome := by
  have hbig : reg.1 ≥ 48 ↔ 48 ≤ reg.1.toNat := UInt8.le_iff_toNat_le
  unfold interruptRegisterHandler
  split_ifs with h
  · grind
  all_goals
    by_cases heq : n = reg.1.toNat
    · simp [heq]
    · simp [heq, Ne.symm heq]

/-- And it unmasks its line. -/
theorem register_unmasked (s : Interrupts α) (reg : UInt8 × α) {k : Nat} (hk : k < 16) :
    ¬ (interruptRegisterHandler s reg.1 (some reg.2)).pic.Masked k ↔
      reg.1.toNat = 32 + k ∨ ¬ s.pic.Masked k := by
  have hbig : reg.1 ≥ 48 ↔ 48 ≤ reg.1.toNat := UInt8.le_iff_toNat_le
  have hirq : reg.1 ≥ 32 ∧ reg.1 < 48 ↔ 32 ≤ reg.1.toNat ∧ reg.1.toNat < 48 :=
    and_congr UInt8.le_iff_toNat_le UInt8.lt_iff_toNat_lt
  unfold interruptRegisterHandler
  split_ifs with h hline
  · grind
  · rw [picUnmaskIrq_masked _ (by grind) hk]
    grind
  · grind

/-- After registrations from the start exactly the registered vectors have handlers and exactly
their lines are unmasked. -/
theorem registerAll_init (p : Pic) (regs : List (UInt8 × α)) :
    (∀ n < 48, (((registerAll (interruptInit p) regs).handlers n).isSome ↔
      ∃ reg ∈ regs, reg.1.toNat = n)) ∧
    ∀ k < 16, (¬ (registerAll (interruptInit p) regs).pic.Masked k ↔
      ∃ reg ∈ regs, reg.1.toNat = 32 + k) := by
  constructor
  · intro n hn
    have h := foldl_iff (P := fun s : Interrupts α => (s.handlers n).isSome)
      (fun s reg => register_handlers s reg hn) regs (interruptInit p)
    simpa [registerAll, interruptInit] using h
  · intro k hk
    have h := foldl_iff (P := fun s : Interrupts α => ¬ s.pic.Masked k)
      (fun s reg => register_unmasked s reg hk) regs (interruptInit p)
    simpa [registerAll, interruptInit, picInit_masked p k] using h

/-- Every line but the cascade is delivered exactly when a handler was registered for its vector,
and no delivered one ends in the halt. -/
structure LinesServed (regs : List (UInt8 × α)) (s : Interrupts α) : Prop where
  delivered : ∀ k < 16, k ≠ 2 → (s.pic.Delivers k ↔ ∃ reg ∈ regs, reg.1.toNat = 32 + k)
  handled : ∀ k < 16, k ≠ 2 → s.pic.Delivers k → (interruptHandler s (32 + k)).isSome

/-- The lines are served exactly when vector 34, the cascade, is registered along with any vector
of the second controller. -/
theorem irq_lines_served_iff (p : Pic) (regs : List (UInt8 × α)) :
    LinesServed regs (registerAll (interruptInit p) regs) ↔
      ((∃ reg ∈ regs, 40 ≤ reg.1.toNat ∧ reg.1.toNat < 48) → ∃ reg ∈ regs, reg.1.toNat = 34) := by
  obtain ⟨hhandlers, hlines⟩ := registerAll_init p regs
  have hcascade := hlines 2 (by decide)
  constructor
  · rintro h ⟨reg, hreg, hlow, hhigh⟩
    have hdelivers := (h.delivered (reg.1.toNat - 32) (by omega) (by omega)).mpr
      ⟨reg, hreg, by omega⟩
    exact hcascade.mp (hdelivers.2 (by omega))
  · intro h
    have hdelivered : ∀ k < 16, k ≠ 2 →
        ((registerAll (interruptInit p) regs).pic.Delivers k ↔
          ∃ reg ∈ regs, reg.1.toNat = 32 + k) := by
      intro k hk _
      rw [Pic.Delivers, hlines k hk, hcascade]
      constructor
      · exact fun hboth => hboth.1
      · rintro ⟨reg, hreg, hnum⟩
        exact ⟨⟨reg, hreg, hnum⟩, fun hslave => h ⟨reg, hreg, by omega, by omega⟩⟩
    refine ⟨hdelivered, fun k hk hne hk' => ?_⟩
    have hsome := (hhandlers (32 + k) (by omega)).mpr ((hdelivered k hk hne).mp hk')
    simpa [interruptHandler] using hsome

/-- A handler registered for the mouse alone, on line 12, is never called. -/
theorem irq_slave_not_delivered :
    ¬ LinesServed [((44 : UInt8), ())] (registerAll (interruptInit ⟨0, 0⟩) [(44, ())]) := by
  intro h
  have hdelivers := (h.delivered 12 (by decide) (by decide)).mpr ⟨(44, ()), by simp, by decide⟩
  exact absurd hdelivers.2 (by decide)

end HolyOs.Cpu

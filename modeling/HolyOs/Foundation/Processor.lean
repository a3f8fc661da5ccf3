import Mathlib.Logic.Function.Basic
import HolyOs.Foundation.ByteMemory

/-!
# A 32-bit processor with a stack

The general registers, the segment registers, the flags and the memory of an x86 processor in
protected mode at one level of privilege, with the instructions that entry code is made of. A
stack is read as the list of the words above the stack pointer, the top first; what is pushed and
popped acts on that list alone, and `Stacked` carries the list through a sequence of instructions.
-/
namespace Processor

open ByteMemory

inductive Reg
  | eax | ecx | edx | ebx | esp | ebp | esi | edi
  deriving DecidableEq

inductive Seg
  | cs | ds | es | fs | gs | ss
  deriving DecidableEq

@[ext] structure Cpu where
  reg : Reg → BitVec 32
  seg : Seg → BitVec 16
  eip : BitVec 32
  eflags : BitVec 32
  mem : Memory

namespace Cpu

def sp (c : Cpu) : Nat := (c.reg .esp).toNat

/-- The word the stack pointer points to. -/
def top (c : Cpu) : BitVec 32 := BitVec.ofNat 32 (load32 c.mem c.sp)

def setReg (c : Cpu) (r : Reg) (v : BitVec 32) : Cpu := { c with reg := Function.update c.reg r v }

def setSeg (c : Cpu) (s : Seg) (v : BitVec 16) : Cpu := { c with seg := Function.update c.seg s v }

def push (c : Cpu) (v : BitVec 32) : Cpu :=
  { c.setReg .esp (c.reg .esp - 4) with mem := store32 c.mem (c.reg .esp - 4).toNat v.toNat }

/-- The stack pointer moves up over one word. -/
def skip (c : Cpu) : Cpu := c.setReg .esp (c.reg .esp + 4)

def pop (c : Cpu) (r : Reg) : Cpu := c.skip.setReg r c.top

/-- The low half of the word is the selector. -/
def popSeg (c : Cpu) (s : Seg) : Cpu := c.skip.setSeg s (c.top.truncate 16)

def pushAll (c : Cpu) (ws : List (BitVec 32)) : Cpu := ws.foldl push c

def pusha (c : Cpu) : Cpu :=
  c.pushAll [c.reg .eax, c.reg .ecx, c.reg .edx, c.reg .ebx, c.reg .esp, c.reg .ebp, c.reg .esi,
    c.reg .edi]

/-- The saved stack pointer is skipped. -/
def popa (c : Cpu) : Cpu :=
  (((((((c.pop .edi).pop .esi).pop .ebp).skip.pop .ebx).pop .edx).pop .ecx).pop .eax)

end Cpu

/-! ## Instructions -/

def setFlag (flags : BitVec 32) (i : Nat) (b : Bool) : BitVec 32 :=
  if b then flags ||| 1#32 <<< i else flags &&& ~~~(1#32 <<< i)

/-- The flags of carry, parity, auxiliary carry, zero, sign and overflow after an addition. -/
def addFlags (flags a b : BitVec 32) : BitVec 32 :=
  let sum := a + b
  let parity := (List.range 8).countP fun i => sum.getLsbD i
  let flags := setFlag flags 0 (BitVec.carry 32 a b false)
  let flags := setFlag flags 2 (parity % 2 == 0)
  let flags := setFlag flags 4 (BitVec.carry 4 a b false)
  let flags := setFlag flags 6 (sum == 0)
  let flags := setFlag flags 7 sum.msb
  setFlag flags 11 (a.msb == b.msb && sum.msb != a.msb)

inductive Instr
  | cli
  | push (v : BitVec 32)
  | pushReg (r : Reg)
  | pushSeg (s : Seg)
  | popSeg (s : Seg)
  | pusha
  | popa
  | movImm16 (v : BitVec 16) (r : Reg)
  | movSeg (r : Reg) (s : Seg)
  | addImm (v : BitVec 32) (r : Reg)

/-- Bit 9 of the flags, interrupts enabled. -/
def interruptFlag : Nat := 9

def exec (c : Cpu) : Instr → Cpu
  | .cli => { c with eflags := setFlag c.eflags interruptFlag false }
  | .push v => c.push v
  | .pushReg r => c.push (c.reg r)
  | .pushSeg s => c.push ((c.seg s).zeroExtend 32)
  | .popSeg s => c.popSeg s
  | .pusha => c.pusha
  | .popa => c.popa
  | .movImm16 v r => c.setReg r ((c.reg r).extractLsb' 16 16 ++ v)
  | .movSeg r s => c.setSeg s ((c.reg r).truncate 16)
  | .addImm v r => { c.setReg r (c.reg r + v) with eflags := addFlags c.eflags (c.reg r) v }

def execAll (c : Cpu) (code : List Instr) : Cpu := code.foldl exec c

theorem execAll_cons (c : Cpu) (i : Instr) (code : List Instr) :
    execAll c (i :: code) = execAll (exec c i) code := List.foldl_cons

theorem execAll_append (c : Cpu) (xs ys : List Instr) :
    execAll c (xs ++ ys) = execAll (execAll c xs) ys := List.foldl_append

/-! ## Descriptor tables -/

/-- The register of a descriptor table. -/
structure TableRegister where
  limit : UInt16
  base : Nat

/-- Where an interrupt of a vector goes to, and the level a program needs to raise it. -/
structure Gate where
  offset : BitVec 32
  selector : BitVec 16
  level : Nat

/-- The present interrupt gate of a vector. -/
def gateAt (m : Memory) (t : TableRegister) (vector : Nat) : Option Gate :=
  let lo := load32 m (t.base + 8 * vector)
  let hi := load32 m (t.base + 8 * vector + 4)
  if 8 * vector + 7 ≤ t.limit.toNat ∧ hi / 2 ^ 15 % 2 = 1 ∧ hi / 2 ^ 8 % 32 = 0x0E then
    some ⟨BitVec.ofNat 32 (lo % 2 ^ 16 + hi / 2 ^ 16 * 2 ^ 16), BitVec.ofNat 16 (lo / 2 ^ 16),
      hi / 2 ^ 13 % 4⟩
  else none

/-- A segment: `access` and `flags` are the byte and the four bits of its descriptor. -/
structure Segment where
  base : Nat
  limit : Nat
  access : Nat
  flags : Nat

/-- The present segment of code or data of a selector: bit 2 asks for a local table, of which there
is none, and entry 0 is the null descriptor. -/
def segmentAt (m : Memory) (t : TableRegister) (selector : Nat) : Option Segment :=
  let i := selector / 8
  let lo := load32 m (t.base + 8 * i)
  let hi := load32 m (t.base + 8 * i + 4)
  if selector / 4 % 2 = 0 ∧ i ≠ 0 ∧ 8 * i + 7 ≤ t.limit.toNat ∧ hi / 2 ^ 15 % 2 = 1 ∧
      hi / 2 ^ 12 % 2 = 1 then
    some ⟨lo / 2 ^ 16 + hi % 2 ^ 8 * 2 ^ 16 + hi / 2 ^ 24 * 2 ^ 24,
      lo % 2 ^ 16 + hi / 2 ^ 16 % 16 * 2 ^ 16, hi / 2 ^ 8 % 2 ^ 8, hi / 2 ^ 20 % 16⟩
  else none

/-- The limit in bytes, counted in pages if bit 3 of the flags is set. -/
def Segment.last (s : Segment) : Nat :=
  if s.flags / 8 % 2 = 1 then s.limit * 4096 + 4095 else s.limit

/-- The segment is one of data that grows downwards. -/
def Segment.Downward (s : Segment) : Prop := s.access / 2 ^ 3 % 2 = 0 ∧ s.access / 2 ^ 2 % 2 = 1

instance decidableDownward (s : Segment) : Decidable s.Downward :=
  inferInstanceAs (Decidable (_ ∧ _))

/-- The end of a segment that grows downwards, by bit 2 of the flags. -/
def Segment.top (s : Segment) : Nat := if s.flags / 4 % 2 = 1 then 2 ^ 32 else 2 ^ 16

def Segment.Contains (s : Segment) (offset : Nat) : Prop :=
  ¬ s.Downward ∧ offset ≤ s.last ∨ s.Downward ∧ s.last < offset ∧ offset < s.top

instance decidableContains (s : Segment) (offset : Nat) : Decidable (s.Contains offset) :=
  inferInstanceAs (Decidable (_ ∨ _))

/-- The linear address of an offset. -/
def Segment.linear (s : Segment) (offset : Nat) : Option Nat :=
  if s.Contains offset then some ((s.base + offset) % 2 ^ 32) else none

/-! ## Entering and leaving an interrupt -/

/-- The exceptions for which the processor pushes an error code. -/
def errorCodeVectors : List Nat := [8, 10, 11, 12, 13, 14, 17, 21, 29, 30]

/-- An exception or the interrupt of a device has a code exactly at the vectors with a code. -/
def CodeFits (vector : Nat) (code : Option (BitVec 32)) : Prop :=
  code.isSome ↔ vector ∈ errorCodeVectors

instance decidableCodeFits (vector : Nat) (code : Option (BitVec 32)) :
    Decidable (CodeFits vector code) := inferInstanceAs (Decidable (_ ↔ _))

/-- An interrupt through an interrupt gate at the same level of privilege, with an error code for
the vectors that have one. -/
def deliver (g : Gate) (code : Option (BitVec 32)) (c : Cpu) : Cpu :=
  let entered := c.pushAll
    ([c.eflags, (c.seg .cs).zeroExtend 32, c.eip] ++ code.toList)
  -- cleared are the flags TF, IF, NT, RF and VM
  { entered.setSeg .cs g.selector with eip := g.offset, eflags := c.eflags &&& ~~~(0x34300#32) }

def iret (c : Cpu) : Cpu :=
  let flags := c.skip.skip
  { (c.skip.popSeg .cs).skip with eip := c.top, eflags := flags.top }

/-- A call leaves the address it returns to on the stack. -/
def call (c : Cpu) (target returnTo : BitVec 32) : Cpu := { c.push returnTo with eip := target }

def ret (c : Cpu) : Cpu := { c.skip with eip := c.top }

/-! ## The stack as a list -/

/-- The words from address `a` on. -/
def Words (m : Memory) (a : Nat) : List (BitVec 32) → Prop
  | [] => True
  | w :: ws => load32 m a = w.toNat ∧ Words m (a + 4) ws

theorem Words.congr {m m' : Memory} {a : Nat} {ws : List (BitVec 32)} (h : Words m a ws)
    (hsame : SameOn m m' a (a + 4 * ws.length)) : Words m' a ws := by
  induction ws generalizing a with
  | nil => trivial
  | cons w ws ih =>
    rw [List.length_cons] at hsame
    refine ⟨?_, ih h.2 (hsame.mono (by omega) (by omega))⟩
    exact (load32_congr (hsame.mono (by omega) (by omega))).trans h.1

theorem Words.getElem {m : Memory} {a : Nat} {ws : List (BitVec 32)} (h : Words m a ws) {i : Nat}
    (hi : i < ws.length) : load32 m (a + 4 * i) = ws[i].toNat := by
  induction ws generalizing a i with
  | nil => simp at hi
  | cons w ws ih =>
    cases i with
    | zero => exact h.1
    | succ i =>
      have hrest := ih h.2 (Nat.lt_of_succ_lt_succ hi)
      rw [show a + 4 * (i + 1) = a + 4 + 4 * i by omega]
      exact hrest

namespace Cpu

/-- The words of the list are on top of the stack. -/
structure Stacked (c : Cpu) (ws : List (BitVec 32)) : Prop where
  words : Words c.mem c.sp ws
  room : c.sp + 4 * ws.length < 2 ^ 32

variable {c : Cpu} {w : BitVec 32} {ws : List (BitVec 32)}

theorem stacked_nil (c : Cpu) : c.Stacked [] := ⟨trivial, (c.reg .esp).isLt⟩

@[simp] theorem reg_setReg (c : Cpu) (r : Reg) (v : BitVec 32) :
    (c.setReg r v).reg = Function.update c.reg r v := rfl
@[simp] theorem seg_setReg (c : Cpu) (r : Reg) (v : BitVec 32) : (c.setReg r v).seg = c.seg := rfl
@[simp] theorem mem_setReg (c : Cpu) (r : Reg) (v : BitVec 32) : (c.setReg r v).mem = c.mem := rfl

@[simp] theorem reg_push (c : Cpu) (v : BitVec 32) :
    (c.push v).reg = Function.update c.reg .esp (c.reg .esp - 4) := rfl
@[simp] theorem seg_push (c : Cpu) (v : BitVec 32) : (c.push v).seg = c.seg := rfl
@[simp] theorem eip_push (c : Cpu) (v : BitVec 32) : (c.push v).eip = c.eip := rfl
@[simp] theorem eflags_push (c : Cpu) (v : BitVec 32) : (c.push v).eflags = c.eflags := rfl

theorem sp_push (v : BitVec 32) (h : 4 ≤ c.sp) : (c.push v).sp = c.sp - 4 := by
  simp only [sp] at *
  rw [reg_push, Function.update_self]
  bv_omega

theorem Stacked.push (h : c.Stacked ws) (v : BitVec 32) (hroom : 4 ≤ c.sp) :
    (c.push v).Stacked (v :: ws) := by
  have hsp := sp_push v hroom
  have haddr : (c.reg .esp - 4).toNat = c.sp - 4 := by simpa [sp] using hsp
  have hlen := h.room
  refine ⟨?_, by rw [hsp, List.length_cons]; omega⟩
  rw [hsp]
  refine ⟨?_, ?_⟩
  · show load32 (store32 c.mem (c.reg .esp - 4).toNat v.toNat) (c.sp - 4) = v.toNat
    rw [haddr]
    exact load32_store32_same _ _ v.isLt
  · rw [Nat.sub_add_cancel hroom]
    apply h.words.congr
    show SameOn c.mem (store32 c.mem (c.reg .esp - 4).toNat v.toNat) _ _
    rw [haddr]
    exact sameOn_store32 _ _ (.inr (by omega))

/-- What a push leaves alone. -/
theorem sameOn_push (v : BitVec 32) {lo hi : Nat} (hroom : 4 ≤ c.sp)
    (h : hi ≤ c.sp - 4 ∨ c.sp ≤ lo) : SameOn c.mem (c.push v).mem lo hi := by
  have hsp := sp_push v hroom
  have haddr : (c.reg .esp - 4).toNat = c.sp - 4 := by simpa [sp] using hsp
  show SameOn c.mem (store32 c.mem (c.reg .esp - 4).toNat v.toNat) _ _
  rw [haddr]
  exact sameOn_store32 _ _ (by omega)

theorem Stacked.top (h : c.Stacked (w :: ws)) : c.top = w := by
  unfold Cpu.top
  rw [h.words.1, BitVec.ofNat_toNat, BitVec.setWidth_eq]

theorem Stacked.sp_skip (h : c.Stacked (w :: ws)) : c.skip.sp = c.sp + 4 := by
  have hroom := h.room
  simp only [sp, skip, reg_setReg, Function.update_self, List.length_cons] at *
  bv_omega

theorem Stacked.skip (h : c.Stacked (w :: ws)) : c.skip.Stacked ws := by
  have hroom := h.room
  rw [List.length_cons] at hroom
  refine ⟨?_, by rw [h.sp_skip]; omega⟩
  rw [h.sp_skip]
  exact h.words.2

theorem Stacked.setReg (h : c.Stacked ws) {r : Reg} (hr : r ≠ .esp) (v : BitVec 32) :
    (c.setReg r v).Stacked ws := by
  have hsp : (c.setReg r v).sp = c.sp := by
    simp only [sp, reg_setReg]
    rw [Function.update_of_ne hr.symm]
  exact ⟨by rw [hsp]; exact h.words, by rw [hsp]; exact h.room⟩

theorem Stacked.pop_eq (h : c.Stacked (w :: ws)) (r : Reg) : c.pop r = c.skip.setReg r w := by
  rw [pop, h.top]

theorem Stacked.pop (h : c.Stacked (w :: ws)) {r : Reg} (hr : r ≠ .esp) :
    (c.pop r).Stacked ws := by
  rw [h.pop_eq r]
  exact h.skip.setReg hr w

theorem Stacked.popSeg_eq (h : c.Stacked (w :: ws)) (s : Seg) :
    c.popSeg s = c.skip.setSeg s (w.truncate 16) := by
  rw [popSeg, h.top]

theorem Stacked.popSeg (h : c.Stacked (w :: ws)) (s : Seg) : (c.popSeg s).Stacked ws := by
  rw [h.popSeg_eq s]
  exact ⟨h.skip.words, h.skip.room⟩

/-- The words are still there after instructions that keep the stack pointer and its words. -/
theorem Stacked.congr {d : Cpu} (h : c.Stacked ws) (hesp : d.reg .esp = c.reg .esp)
    (hmem : SameOn c.mem d.mem c.sp (c.sp + 4 * ws.length)) : d.Stacked ws := by
  have hsp : d.sp = c.sp := congrArg BitVec.toNat hesp
  exact ⟨by rw [hsp]; exact h.words.congr hmem, by rw [hsp]; exact h.room⟩

/-! ### Sequences of pushes and pops -/

@[simp] theorem pushAll_nil (c : Cpu) : c.pushAll [] = c := rfl
@[simp] theorem pushAll_cons (c : Cpu) (v : BitVec 32) (vs : List (BitVec 32)) :
    c.pushAll (v :: vs) = (c.push v).pushAll vs := rfl

theorem pushAll_append (c : Cpu) (vs us : List (BitVec 32)) :
    c.pushAll (vs ++ us) = (c.pushAll vs).pushAll us := List.foldl_append

@[simp] theorem seg_pushAll (c : Cpu) (vs : List (BitVec 32)) : (c.pushAll vs).seg = c.seg := by
  induction vs generalizing c with
  | nil => rfl
  | cons v vs ih => exact ih (c.push v)

/-- The segments and the flags have no part in a push. -/
theorem pushAll_control (c : Cpu) (seg : Seg → BitVec 16) (eip eflags : BitVec 32)
    (vs : List (BitVec 32)) :
    ({ c with seg := seg, eip := eip, eflags := eflags } : Cpu).pushAll vs =
      { c.pushAll vs with seg := seg, eip := eip, eflags := eflags } := by
  induction vs generalizing c with
  | nil => rfl
  | cons v vs ih => exact ih (c.push v)

theorem reg_pushAll (c : Cpu) (vs : List (BitVec 32)) : (c.pushAll vs).reg =
    Function.update c.reg .esp (c.reg .esp - BitVec.ofNat 32 (4 * vs.length)) := by
  induction vs generalizing c with
  | nil => simp
  | cons v vs ih =>
    rw [pushAll_cons, ih, reg_push, Function.update_idem, Function.update_self]
    congr 1
    rw [List.length_cons]
    bv_omega

theorem sp_pushAll {vs : List (BitVec 32)} (h : 4 * vs.length ≤ c.sp) :
    (c.pushAll vs).sp = c.sp - 4 * vs.length := by
  have hlt : c.sp < 2 ^ 32 := (c.reg .esp).isLt
  simp only [sp] at *
  rw [reg_pushAll, Function.update_self]
  bv_omega

theorem Stacked.pushAll (h : c.Stacked ws) {vs : List (BitVec 32)} (hroom : 4 * vs.length ≤ c.sp) :
    (c.pushAll vs).Stacked (vs.reverse ++ ws) := by
  induction vs generalizing c ws with
  | nil => exact h
  | cons v vs ih =>
    rw [List.length_cons] at hroom
    have hpushed := h.push v (by omega)
    have hrest := ih hpushed (by rw [sp_push v (by omega)]; omega)
    simpa using hrest

/-- Pushes write the words they push only. -/
theorem sameOn_pushAll {vs : List (BitVec 32)} {lo hi : Nat} (hroom : 4 * vs.length ≤ c.sp)
    (h : hi ≤ c.sp - 4 * vs.length ∨ c.sp ≤ lo) : SameOn c.mem (c.pushAll vs).mem lo hi := by
  induction vs generalizing c with
  | nil => exact .refl _ lo hi
  | cons v vs ih =>
    rw [List.length_cons] at hroom h
    have hsp := sp_push v (show 4 ≤ c.sp by omega)
    exact (sameOn_push v (by omega) (by omega)).trans (ih (by omega) (by omega))

/-- The words of saved registers, the top first. -/
def pushaWords (f : Reg → BitVec 32) : List (BitVec 32) :=
  [f .edi, f .esi, f .ebp, f .esp, f .ebx, f .edx, f .ecx, f .eax]

theorem pusha_eq (c : Cpu) : c.pusha = c.pushAll (pushaWords c.reg).reverse := rfl

/-- Every register but the stack pointer is what the saved words say. -/
theorem popa_eq {f : Reg → BitVec 32} (h : c.Stacked (pushaWords f ++ ws)) :
    c.popa = { c with reg := Function.update f .esp (c.reg .esp + 32) } := by
  have hedi := h.pop (r := .edi) (by decide)
  have hesi := hedi.pop (r := .esi) (by decide)
  have hebp := hesi.pop (r := .ebp) (by decide)
  have hebx := hebp.skip.pop (r := .ebx) (by decide)
  have hedx := hebx.pop (r := .edx) (by decide)
  have hecx := hedx.pop (r := .ecx) (by decide)
  unfold popa
  rw [hecx.pop_eq, hedx.pop_eq, hebx.pop_eq, hebp.skip.pop_eq, hesi.pop_eq, hedi.pop_eq, h.pop_eq]
  simp only [skip, setReg]
  congr 1
  funext r
  cases r
  case esp =>
    simp
    bv_omega
  all_goals simp

theorem Stacked.popa {f : Reg → BitVec 32} (h : c.Stacked (pushaWords f ++ ws)) :
    c.popa.Stacked ws := by
  have hwords := h.skip.skip.skip.skip.skip.skip.skip.skip
  rw [popa_eq h]
  apply hwords.congr
  · simp [Cpu.skip]
    bv_omega
  · exact .refl _ _ _

/-- Returning takes three words off the stack. -/
theorem iret_eq {eip cs flags : BitVec 32} (h : c.Stacked (eip :: cs :: flags :: ws)) :
    iret c = ⟨Function.update c.reg .esp (c.reg .esp + 12),
      Function.update c.seg .cs (cs.truncate 16), eip, flags, c.mem⟩ := by
  have hiret : iret c =
      { (c.skip.popSeg .cs).skip with eip := c.top, eflags := c.skip.skip.top } := rfl
  rw [hiret, h.top, h.skip.skip.top, h.skip.popSeg_eq]
  apply Cpu.ext
  · funext r
    cases r <;> simp [setSeg, Cpu.skip]
    bv_omega
  all_goals rfl

@[simp] theorem reg_addImm (c : Cpu) (v : BitVec 32) (r : Reg) :
    (exec c (.addImm v r)).reg = Function.update c.reg r (c.reg r + v) := rfl
@[simp] theorem seg_addImm (c : Cpu) (v : BitVec 32) (r : Reg) :
    (exec c (.addImm v r)).seg = c.seg := rfl
@[simp] theorem mem_addImm (c : Cpu) (v : BitVec 32) (r : Reg) :
    (exec c (.addImm v r)).mem = c.mem := rfl

/-- An addition to the stack pointer drops words. -/
theorem Stacked.addImm_two {v : BitVec 32} (h : c.Stacked (v :: w :: ws)) :
    (exec c (.addImm 8 .esp)).Stacked ws := by
  have hesp : (exec c (.addImm 8 .esp)).reg .esp = c.skip.skip.reg .esp := by
    simp [Cpu.skip]
    bv_omega
  have hmem : (exec c (.addImm 8 .esp)).mem = c.skip.skip.mem := mem_addImm c 8 .esp
  apply h.skip.skip.congr hesp
  rw [hmem]
  exact .refl _ _ _

end Cpu

end Processor

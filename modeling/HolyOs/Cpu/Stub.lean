import HolyOs.Cpu.Descriptors
import HolyOs.Cpu.Interrupt

/-!
# The way into and out of an interrupt

Shallow model of `kernel/asm/interrupt.s`: the stubs of the 48 vectors and the code they share, from
the delivery of an interrupt by the processor to the return from it. `interrupt_handler` is called
by the convention of the compiler; what the drivers' handlers do to memory, and what the compiler
leaves in the registers a caller saves, are parameters.
-/
namespace HolyOs.Cpu

open ByteMemory Processor

/-- The vectors of `ISR_ERR`. -/
def isrErr : List Nat := [8, 10, 11, 12, 13, 14, 21, 29, 30]

def isrStub (num : Nat) : List Instr :=
  if num ∈ isrErr then [.cli, .push (BitVec.ofNat 32 num)]
  else [.cli, .push 0, .push (BitVec.ofNat 32 num)]

def irqStub (num : Nat) : List Instr := [.cli, .push 0, .push (BitVec.ofNat 32 (num + 32))]

/-- The stub of a vector. -/
def stub (vector : Nat) : List Instr :=
  if vector < 32 then isrStub vector else irqStub (vector - 32)

/-! The parts of `interrupt_common_stub` before and after the call. -/

def saveContext : List Instr :=
  [.pusha, .pushSeg .ds, .pushSeg .es, .pushSeg .fs, .pushSeg .gs]

def loadKernelData : List Instr :=
  [.movImm16 0x10 .eax, .movSeg .eax .ds, .movSeg .eax .es, .movSeg .eax .fs, .movSeg .eax .gs]

def restoreContext : List Instr :=
  [.popSeg .gs, .popSeg .fs, .popSeg .es, .popSeg .ds, .popa]

/-- `struct regs`. -/
@[ext] structure Regs where
  (gs fs es ds : Nat)
  (edi esi ebp esp ebx edx ecx eax : Nat)
  (intNo errCode : Nat)
  (eip cs eflags useresp ss : Nat)

def readRegs (m : Memory) (r : Nat) : Regs where
  gs := load32 m r
  fs := load32 m (r + 4)
  es := load32 m (r + 8)
  ds := load32 m (r + 12)
  edi := load32 m (r + 16)
  esi := load32 m (r + 20)
  ebp := load32 m (r + 24)
  esp := load32 m (r + 28)
  ebx := load32 m (r + 32)
  edx := load32 m (r + 36)
  ecx := load32 m (r + 40)
  eax := load32 m (r + 44)
  intNo := load32 m (r + 48)
  errCode := load32 m (r + 52)
  eip := load32 m (r + 56)
  cs := load32 m (r + 60)
  eflags := load32 m (r + 64)
  useresp := load32 m (r + 68)
  ss := load32 m (r + 72)

/-- The processor with its table of gates, and the state of `interrupt.c`. -/
structure Machine (α : Type*) where
  cpu : Cpu
  idtr : TableRegister
  ints : Interrupts α

/-- What is not in the sources: where the code lies, what a handler does to memory when it is given
the address of the registers, and what compiled code leaves in `eax`, `ecx`, `edx` and the flags. -/
structure Image (α : Type*) where
  codeAt : BitVec 32 → Option (List Instr)
  handlerAddress : BitVec 32
  returnAddress : BitVec 32
  effect : α → Nat → Memory → Memory
  scratch : Cpu → Reg → BitVec 32
  flags : Cpu → BitVec 32

variable {α : Type*}

/-- A function of C returns with this memory. -/
def returned (k : Image α) (c : Cpu) (mem : Memory) : Cpu :=
  ret { c with
    reg := fun r => if r = .eax ∨ r = .ecx ∨ r = .edx then k.scratch c r else c.reg r
    eflags := k.flags c
    mem := mem }

/-- `interrupt_handler` from the call to the return; the number of the interrupt is read again after
the handler. `none` stands for the halt of an unhandled interrupt. -/
def interruptHandlerCode (k : Image α) (m : Machine α) : Option (Machine α) :=
  let r := load32 m.cpu.mem (m.cpu.sp + 4)
  (m.ints.handlers (readRegs m.cpu.mem r).intNo).map fun handler =>
    let mem := k.effect handler r m.cpu.mem
    let intNo := (readRegs mem r).intNo
    let ints := if intNo ≥ 32 ∧ intNo < 48 then
        { m.ints with pic := picSendEoi m.ints.pic (intNo - 32) }
      else m.ints
    ⟨returned k m.cpu mem, m.idtr, ints⟩

/-- An interrupt from its delivery to the return from it. -/
def interrupt (k : Image α) (vector : Nat) (code : Option (BitVec 32)) (m : Machine α) :
    Option (Machine α) :=
  (gateAt m.cpu.mem m.idtr vector).bind fun gate =>
    (k.codeAt gate.offset).bind fun stub =>
      let cpu := execAll (deliver gate code m.cpu)
        (stub ++ saveContext ++ loadKernelData ++ [.pushReg .esp])
      (interruptHandlerCode k { m with cpu := call cpu k.handlerAddress k.returnAddress }).map
        fun m => { m with
          cpu := iret (execAll m.cpu ([.addImm 4 .esp] ++ restoreContext ++ [.addImm 8 .esp])) }

/-! ## The frame -/

/-- What the shared code finds above the number of the interrupt: the words it takes for the error
code and the place of the interrupt, and the processor before the first of them was pushed. -/
structure Trap where
  below : Cpu
  (errCode eip cs eflags : BitVec 32)

/-- One of the processor and the stub pushes a code. -/
def Trap.of (code : Option (BitVec 32)) (c : Cpu) : Trap :=
  ⟨c, code.getD 0, c.eip, (c.seg .cs).zeroExtend 32, c.eflags⟩

/-- The words that lie on the stack before the call, the top first. -/
def frame (vector : Nat) (t : Trap) : List (BitVec 32) :=
  let c := t.below
  [(c.seg .gs).zeroExtend 32, (c.seg .fs).zeroExtend 32, (c.seg .es).zeroExtend 32,
    (c.seg .ds).zeroExtend 32] ++
  Cpu.pushaWords (Function.update c.reg .esp (c.reg .esp - 20)) ++
  [BitVec.ofNat 32 vector, t.errCode, t.eip, t.cs, t.eflags]

/-- The stub of the vector leaves the words of `t`. -/
def Pushes (vector : Nat) (code : Option (BitVec 32)) (c : Cpu) (t : Trap) : Prop :=
  ∀ g, execAll (deliver g code c) (stub vector) =
    { t.below.pushAll [t.eflags, t.cs, t.eip, t.errCode, BitVec.ofNat 32 vector] with
      seg := Function.update t.below.seg .cs g.selector
      eip := g.offset
      eflags := setFlag (c.eflags &&& ~~~(0x34300#32)) interruptFlag false }

/-- The stubs know the exceptions with a code, but for vector 17. -/
theorem mem_isrErr {vector : Nat} (h : vector ≠ 17) :
    vector ∈ isrErr ↔ vector ∈ errorCodeVectors := by
  simp [isrErr, errorCodeVectors, h]

theorem isrErr_lt {vector : Nat} (h : vector ∈ isrErr) : vector < 32 := by
  revert vector
  decide

/-- With the code of the processor or its own the stub pushes two words more. -/
theorem stub_pushes {vector : Nat} {code : Option (BitVec 32)} (hvector : vector < 48)
    (hne : vector ≠ 17) (hcode : CodeFits vector code) (c : Cpu) :
    Pushes vector code c (.of code c) := by
  intro g
  by_cases herr : vector ∈ isrErr
  · obtain ⟨e, rfl⟩ := Option.isSome_iff_exists.mp (hcode.mpr ((mem_isrErr hne).mp herr))
    have hstub : stub vector = [.cli, .push (BitVec.ofNat 32 vector)] := by
      rw [stub, if_pos (isrErr_lt herr), isrStub, if_pos herr]
    rw [hstub]
    rfl
  · obtain rfl : code = none := by
      have hnone := mt hcode.mp (mt (mem_isrErr hne).mpr herr)
      simpa using hnone
    have hstub : stub vector = [.cli, .push 0, .push (BitVec.ofNat 32 vector)] := by
      unfold stub isrStub irqStub
      split_ifs with hlow
      · rfl
      · rw [Nat.sub_add_cancel (by omega)]
    rw [hstub]
    rfl

theorem saveContext_eq (c : Cpu) : execAll c saveContext =
    c.pushAll ((Cpu.pushaWords c.reg).reverse ++ [(c.seg .ds).zeroExtend 32,
      (c.seg .es).zeroExtend 32, (c.seg .fs).zeroExtend 32, (c.seg .gs).zeroExtend 32]) := by
  rw [Cpu.pushAll_append, ← Cpu.pusha_eq]
  rfl

/-- The stub pushes the frame and changes the flags. -/
theorem enter_eq {vector : Nat} {code : Option (BitVec 32)} {c : Cpu} {t : Trap}
    (h : Pushes vector code c t) (g : Gate) :
    execAll (deliver g code c) (stub vector ++ saveContext) =
      { t.below.pushAll (frame vector t).reverse with
        seg := Function.update t.below.seg .cs g.selector
        eip := g.offset
        eflags := setFlag (c.eflags &&& ~~~(0x34300#32)) interruptFlag false } := by
  have hreg : (t.below.pushAll [t.eflags, t.cs, t.eip, t.errCode, BitVec.ofNat 32 vector]).reg =
      Function.update t.below.reg .esp (t.below.reg .esp - 20) := Cpu.reg_pushAll t.below _
  have hseg : ∀ s, s ≠ .cs → Function.update t.below.seg .cs g.selector s = t.below.seg s :=
    fun s hs => Function.update_of_ne hs _ _
  have hframe : (frame vector t).reverse =
      [t.eflags, t.cs, t.eip, t.errCode, BitVec.ofNat 32 vector] ++
        ((Cpu.pushaWords (Function.update t.below.reg .esp (t.below.reg .esp - 20))).reverse ++
          [(t.below.seg .ds).zeroExtend 32, (t.below.seg .es).zeroExtend 32,
            (t.below.seg .fs).zeroExtend 32, (t.below.seg .gs).zeroExtend 32]) := by
    simp only [frame, List.reverse_append, List.append_assoc, List.reverse_cons, List.reverse_nil,
      List.nil_append, List.cons_append]
  rw [execAll_append, h g, saveContext_eq, Cpu.pushAll_control, hframe]
  simp only [Cpu.pushAll_append, hreg, hseg .ds (by decide), hseg .es (by decide),
    hseg .fs (by decide), hseg .gs (by decide)]

/-- Loading the data segments of the kernel leaves the stack alone. -/
theorem loadKernelData_eq (c : Cpu) : execAll c loadKernelData =
    ⟨Function.update c.reg .eax ((c.reg .eax).extractLsb' 16 16 ++ 0x10#16),
      fun s => match s with
        | .cs => c.seg .cs | .ss => c.seg .ss | _ => 0x10,
      c.eip, c.eflags, c.mem⟩ := by
  have hlow : ((c.reg .eax).extractLsb' 16 16 ++ 0x10#16).truncate 16 = 0x10#16 :=
    BitVec.setWidth_append_eq_right
  apply Cpu.ext
  · rfl
  · funext s
    cases s <;> simp [execAll, loadKernelData, exec, Cpu.setSeg, hlow]
  all_goals rfl

/-- The processor when `interrupt_handler` is entered. -/
def atCall (k : Image α) (vector : Nat) (code : Option (BitVec 32)) (g : Gate) (c : Cpu) : Cpu :=
  call
    (execAll (deliver g code c)
      (stub vector ++ saveContext ++ loadKernelData ++ [.pushReg .esp]))
    k.handlerAddress k.returnAddress

/-- On the stack are the address to return to, the address of the frame and the frame. -/
structure AtCall (k : Image α) (vector : Nat) (t : Trap) (g : Gate) (d : Cpu) : Prop where
  esp : d.reg .esp = t.below.reg .esp - 76
  stacked : d.Stacked
    ([k.returnAddress, BitVec.ofNat 32 (t.below.sp - 68)] ++ frame vector t)
  kept : ∀ r, r ≠ .esp → r ≠ .eax → d.reg r = t.below.reg r
  segments : d.seg .cs = g.selector ∧ d.seg .ss = t.below.seg .ss ∧
    ∀ s, s ≠ .cs → s ≠ .ss → d.seg s = 0x10
  disabled : d.eflags.getLsbD interruptFlag = false
  outside : ∀ lo hi, hi ≤ t.below.sp - 76 ∨ t.below.sp ≤ lo → SameOn t.below.mem d.mem lo hi

theorem length_frame (vector : Nat) (t : Trap) : (frame vector t).length = 17 := rfl

/-- The call of a function with the stack pointer as its argument. -/
theorem call_stacked {c : Cpu} {ws : List (BitVec 32)} (h : c.Stacked ws) (hroom : 8 ≤ c.sp)
    (target returnTo : BitVec 32) :
    (call (c.push (c.reg .esp)) target returnTo).Stacked ([returnTo, c.reg .esp] ++ ws) ∧
      (call (c.push (c.reg .esp)) target returnTo).reg =
        Function.update c.reg .esp (c.reg .esp - 8) ∧
      ∀ lo hi, hi ≤ c.sp - 8 ∨ c.sp ≤ lo →
        SameOn c.mem (call (c.push (c.reg .esp)) target returnTo).mem lo hi := by
  have hargument := h.push (c.reg .esp) (by omega)
  have hsp := Cpu.sp_push (c.reg .esp) (show 4 ≤ c.sp by omega)
  have hreturn := hargument.push returnTo (by omega)
  refine ⟨⟨hreturn.words, hreturn.room⟩, ?_, fun lo hi hout => ?_⟩
  · funext r
    cases r <;> simp [call]
    bv_omega
  · exact (Cpu.sameOn_push _ (by omega) (by omega)).trans (Cpu.sameOn_push _ (by omega) (by omega))

theorem atCall_spec (k : Image α) {vector : Nat} {code : Option (BitVec 32)} {c : Cpu} {t : Trap}
    (h : Pushes vector code c t) (g : Gate) (hroom : 76 ≤ t.below.sp) :
    AtCall k vector t g (atCall k vector code g c) := by
  have hlength : 4 * (frame vector t).reverse.length ≤ t.below.sp := by
    rw [List.length_reverse, length_frame]
    omega
  have hreg := Cpu.reg_pushAll t.below (frame vector t).reverse
  have hsp := Cpu.sp_pushAll hlength
  have hstacked := (Cpu.stacked_nil t.below).pushAll hlength
  have hsame : ∀ lo hi, _ → SameOn t.below.mem (t.below.pushAll (frame vector t).reverse).mem lo
      hi := fun lo hi => Cpu.sameOn_pushAll hlength
  rw [List.length_reverse, length_frame] at hreg hsp hsame
  rw [List.reverse_reverse, List.append_nil] at hstacked
  have hcall : atCall k vector code g c =
      let d := execAll (execAll (deliver g code c) (stub vector ++ saveContext)) loadKernelData
      call (d.push (d.reg .esp)) k.handlerAddress k.returnAddress := by
    unfold atCall
    rw [execAll_append, execAll_append]
    rfl
  rw [hcall, enter_eq h, loadKernelData_eq]
  generalize t.below.pushAll (frame vector t).reverse = pushed at hreg hsp hstacked hsame
  generalize hloaded : Cpu.mk _ _ _ _ _ = loaded
  have hesp : loaded.reg .esp = pushed.reg .esp := by
    rw [← hloaded]
    rfl
  have hmem : loaded.mem = pushed.mem := by rw [← hloaded]
  have hloadedSp : loaded.sp = t.below.sp - 68 := (congrArg BitVec.toNat hesp).trans hsp
  have hargument : loaded.reg .esp = BitVec.ofNat 32 (t.below.sp - 68) := by
    rw [← hloadedSp, Cpu.sp, BitVec.ofNat_toNat, BitVec.setWidth_eq]
  have hloadedStack : loaded.Stacked (frame vector t) :=
    hstacked.congr hesp (by rw [hmem]; exact .refl _ _ _)
  obtain ⟨hstack, hcallReg, hcallSame⟩ := call_stacked hloadedStack (by omega) k.handlerAddress
    k.returnAddress
  have hcallEsp : Function.update loaded.reg .esp (loaded.reg .esp - 8) .esp =
      t.below.reg .esp - 76 := by
    rw [Function.update_self, hesp, hreg, Function.update_self]
    bv_omega
  constructor
  case esp => rw [hcallReg, hcallEsp]
  case stacked =>
    rw [← hargument]
    exact hstack
  case kept =>
    intro r hr hrax
    rw [hcallReg, Function.update_of_ne hr, ← hloaded]
    simp only [Function.update_of_ne hrax, hreg, Function.update_of_ne hr]
  case segments =>
    rw [← hloaded]
    refine ⟨by simp [call], by simp [call], fun s hcs hss => ?_⟩
    cases s
    case cs => exact absurd rfl hcs
    case ss => exact absurd rfl hss
    all_goals rfl
  case disabled =>
    rw [← hloaded]
    simp [call, setFlag, interruptFlag]
  case outside =>
    intro lo hi hout
    have hfirst := hsame lo hi (by omega)
    rw [← hmem] at hfirst
    exact hfirst.trans (hcallSame lo hi (by omega))

/-! ## The way back -/

theorem truncate_zeroExtend (v : BitVec 16) : ((v.zeroExtend 32).truncate 16 : BitVec 16) = v := by
  simp

/-- The segments that are popped are those of the frame. -/
theorem popSegs_eq {c : Cpu} {gs fs es ds : BitVec 16} {ws : List (BitVec 32)}
    (h : c.Stacked
      ([gs.zeroExtend 32, fs.zeroExtend 32, es.zeroExtend 32, ds.zeroExtend 32] ++ ws)) :
    execAll c [.popSeg .gs, .popSeg .fs, .popSeg .es, .popSeg .ds] =
        { c.setReg .esp (c.reg .esp + 16) with
          seg := fun s => match s with
            | .gs => gs | .fs => fs | .es => es | .ds => ds
            | .cs => c.seg .cs | .ss => c.seg .ss } ∧
      (execAll c [.popSeg .gs, .popSeg .fs, .popSeg .es, .popSeg .ds]).Stacked ws := by
  have hgs := h.popSeg .gs
  have hfs := hgs.popSeg .fs
  have hes := hfs.popSeg .es
  refine ⟨?_, hes.popSeg .ds⟩
  show (((c.popSeg .gs).popSeg .fs).popSeg .es).popSeg .ds = _
  rw [hes.popSeg_eq, hfs.popSeg_eq, hgs.popSeg_eq, h.popSeg_eq]
  simp only [truncate_zeroExtend]
  apply Cpu.ext
  · funext r
    cases r <;> simp [Cpu.setSeg, Cpu.skip]
    bv_omega
  · funext s
    cases s <;> simp [Cpu.setSeg, Cpu.skip]
  all_goals rfl

/-- The processor when `iret` is reached: the three words it takes are on top of the stack, and all
else is the processor beneath them. -/
structure AtReturn (t : Trap) (d : Cpu) : Prop where
  stacked : d.Stacked [t.eip, t.cs, t.eflags]
  reg : d.reg = Function.update t.below.reg .esp (t.below.reg .esp - 12)
  seg : ∀ s, s ≠ .cs → d.seg s = t.below.seg s

/-- What is popped is the context of the frame. -/
theorem restore_spec {vector : Nat} {c : Cpu} {t : Trap} (h : c.Stacked (frame vector t))
    (hesp : c.reg .esp = t.below.reg .esp - 68) (hss : c.seg .ss = t.below.seg .ss) :
    AtReturn t (execAll c (restoreContext ++ [.addImm 8 .esp])) ∧
      (execAll c (restoreContext ++ [.addImm 8 .esp])).mem = c.mem := by
  rw [frame, List.append_assoc] at h
  obtain ⟨hsegs, hstacked⟩ := popSegs_eq h
  generalize hd : execAll c [.popSeg .gs, .popSeg .fs, .popSeg .es, .popSeg .ds] = d
    at hsegs hstacked
  have hpopa := Cpu.popa_eq hstacked
  have hrest := hstacked.popa
  have hcode : execAll c (restoreContext ++ [.addImm 8 .esp]) = exec d.popa (.addImm 8 .esp) := by
    rw [← hd]
    rfl
  rw [hcode]
  refine ⟨⟨hrest.addImm_two, ?_, fun s hs => ?_⟩, ?_⟩
  · rw [Cpu.reg_addImm, hpopa, hsegs]
    funext r
    cases r <;> simp [hesp]
    bv_omega
  · rw [Cpu.seg_addImm, hpopa, hsegs]
    cases s
    case cs => exact absurd rfl hs
    case ss => exact hss
    all_goals rfl
  · rw [Cpu.mem_addImm, hpopa, hsegs]
    rfl

/-- The return from a frame with one code leads to the interrupted processor. -/
theorem AtReturn.iret_eq {code : Option (BitVec 32)} {c d : Cpu} (h : AtReturn (.of code c) d) :
    iret d = { c with mem := d.mem } := by
  have hreg : d.reg = Function.update c.reg .esp (c.reg .esp - 12) := h.reg
  rw [Cpu.iret_eq h.stacked]
  apply Cpu.ext
  · change Function.update d.reg .esp (d.reg .esp + 12) = c.reg
    rw [hreg, Function.update_self, Function.update_idem, BitVec.sub_add_cancel,
      Function.update_eq_self]
  · funext s
    cases s
    case cs => simp [Trap.of]
    all_goals exact h.seg _ (by decide)
  all_goals rfl

/-! ## What the handler is given -/

/-- Behind the gates of the first 48 vectors lie their stubs. -/
def Serves (k : Image α) (m : Memory) (idtr : TableRegister) : Prop :=
  ∀ vector < 48, ∃ g, gateAt m idtr vector = some g ∧ g.selector = 0x08 ∧
    k.codeAt g.offset = some (stub vector)

/-- The interrupted context as `struct regs`: `esp` is where the number of the interrupt lies, and
`useresp` and `ss` are the words that were on top of the interrupted stack. -/
def contextRegs (vector : Nat) (t : Trap) : Regs where
  gs := (t.below.seg .gs).toNat
  fs := (t.below.seg .fs).toNat
  es := (t.below.seg .es).toNat
  ds := (t.below.seg .ds).toNat
  edi := (t.below.reg .edi).toNat
  esi := (t.below.reg .esi).toNat
  ebp := (t.below.reg .ebp).toNat
  esp := t.below.sp - 20
  ebx := (t.below.reg .ebx).toNat
  edx := (t.below.reg .edx).toNat
  ecx := (t.below.reg .ecx).toNat
  eax := (t.below.reg .eax).toNat
  intNo := vector
  errCode := t.errCode.toNat
  eip := t.eip.toNat
  cs := t.cs.toNat
  eflags := t.eflags.toNat
  useresp := load32 t.below.mem t.below.sp
  ss := load32 t.below.mem (t.below.sp + 4)

/-- The frame is read as `struct regs`. -/
theorem readRegs_frame {m : Memory} {t : Trap} {vector : Nat} (hvector : vector < 48)
    (hroom : 76 ≤ t.below.sp) (hwords : Words m (t.below.sp - 68) (frame vector t))
    (habove : SameOn t.below.mem m t.below.sp (t.below.sp + 8)) :
    readRegs m (t.below.sp - 68) = contextRegs vector t := by
  have hword := fun i (hi : i < 17) => hwords.getElem (i := i) hi
  have huseresp : load32 m (t.below.sp - 68 + 68) = load32 t.below.mem t.below.sp := by
    rw [Nat.sub_add_cancel (by omega)]
    exact load32_congr (habove.mono (by omega) (by omega))
  have hss : load32 m (t.below.sp - 68 + 72) = load32 t.below.mem (t.below.sp + 4) := by
    rw [show t.below.sp - 68 + 72 = t.below.sp + 4 by omega]
    exact load32_congr (habove.mono (by omega) (by omega))
  have hesp : (t.below.reg .esp - 20).toNat = t.below.sp - 20 := by
    simp only [Cpu.sp] at *
    bv_omega
  have hnumber : (BitVec.ofNat 32 vector).toNat = vector := by
    rw [BitVec.toNat_ofNat, Nat.mod_eq_of_lt (by omega)]
  have hextend : ∀ s, ((t.below.seg s).zeroExtend 32).toNat = (t.below.seg s).toNat :=
    fun s => BitVec.toNat_setWidth_of_le (by decide)
  apply Regs.ext
  · exact (hword 0 (by decide)).trans (hextend .gs)
  · exact (hword 1 (by decide)).trans (hextend .fs)
  · exact (hword 2 (by decide)).trans (hextend .es)
  · exact (hword 3 (by decide)).trans (hextend .ds)
  · exact hword 4 (by decide)
  · exact hword 5 (by decide)
  · exact hword 6 (by decide)
  · exact (hword 7 (by decide)).trans hesp
  · exact hword 8 (by decide)
  · exact hword 9 (by decide)
  · exact hword 10 (by decide)
  · exact hword 11 (by decide)
  · exact (hword 12 (by decide)).trans hnumber
  · exact hword 13 (by decide)
  · exact hword 14 (by decide)
  · exact hword 15 (by decide)
  · exact hword 16 (by decide)
  · exact huseresp
  · exact hss

/-! ## An interrupt as a whole -/

/-- The handlers write their own data `D`, and the stack above `bottom` outside of what was pushed
before they were called; the slot of the argument is theirs. -/
def Confined (k : Image α) (D : Nat → Prop) (bottom : Nat) : Prop :=
  ∀ handler r m x, ¬ D x → x < bottom ∨ r - 8 ≤ x ∧ x < r - 4 ∨ r ≤ x →
    k.effect handler r m x = m x

/-- The handler has run on the words of `t`, and the return takes three of them. -/
structure Handled (k : Image α) (D : Nat → Prop) (bottom vector : Nat) (t : Trap)
    (m m' : Machine α) (handler : α) : Prop where
  idtr : m'.idtr = m.idtr
  /-- The entry of the table is called, and the controllers are told. -/
  ints : interruptHandler m.ints vector = some (handler, m'.ints)
  /-- It was given the words as the context. -/
  given : ∃ m₀ r, m'.cpu.mem = k.effect handler r m₀ ∧ readRegs m₀ r = contextRegs vector t ∧
    ∀ x, x < t.below.sp - 76 ∨ t.below.sp ≤ x → m₀ x = t.below.mem x
  returns : ∃ d, m'.cpu = iret d ∧ AtReturn t d
  /-- Memory that is neither the handlers' nor below the stack pointer is as before. -/
  memory : ∀ x, ¬ D x → ¬ (bottom ≤ x ∧ x < t.below.sp) → m'.cpu.mem x = t.below.mem x

/-- The handler has the context of the interrupt and nothing of it is lost on the way back. -/
structure Served (k : Image α) (D : Nat → Prop) (bottom vector : Nat) (code : Option (BitVec 32))
    (m m' : Machine α) (handler : α) : Prop
    extends Handled k D bottom vector (.of code m.cpu) m m' handler where
  /-- The registers, the segments, the flags and the place of execution are as before. -/
  cpu : m'.cpu = { m.cpu with mem := m'.cpu.mem }

/-- The argument of the call is the address of the context. -/
theorem AtCall.argument {k : Image α} {vector : Nat} {t : Trap} {g : Gate} {d : Cpu}
    (h : AtCall k vector t g d) (hvector : vector < 48) (hroom : 76 ≤ t.below.sp) :
    load32 d.mem (d.sp + 4) = t.below.sp - 68 ∧
      readRegs d.mem (t.below.sp - 68) = contextRegs vector t := by
  have hsp : d.sp = t.below.sp - 76 := by
    have hesp := h.esp
    simp only [Cpu.sp] at *
    bv_omega
  have hlt : t.below.sp < 2 ^ 32 := (t.below.reg .esp).isLt
  obtain ⟨-, hargument, hframe⟩ := h.stacked.words
  rw [hsp, show t.below.sp - 76 + 4 + 4 = t.below.sp - 68 by omega] at hframe
  rw [BitVec.toNat_ofNat, Nat.mod_eq_of_lt (by omega)] at hargument
  exact ⟨hargument, readRegs_frame hvector hroom hframe (h.outside _ _ (.inr (Nat.le_refl _)))⟩

/-- The code of `interrupt_handler` on the frame of a vector. -/
theorem interruptHandlerCode_atCall (k : Image α) {D : Nat → Prop} {bottom vector : Nat} {t : Trap}
    {g : Gate} {d : Cpu} (hk : Confined k D bottom) (hvector : vector < 48)
    (hroom : bottom + 76 ≤ t.below.sp) (hD : ∀ x, bottom ≤ x → x < t.below.sp → ¬ D x)
    (hcall : AtCall k vector t g d) (idtr : TableRegister) {ints ints' : Interrupts α} {handler : α}
    (hhandler : interruptHandler ints vector = some (handler, ints')) :
    interruptHandlerCode k ⟨d, idtr, ints⟩ =
      some ⟨returned k d (k.effect handler (t.below.sp - 68) d.mem), idtr, ints'⟩ := by
  obtain ⟨hargument, hregs⟩ := hcall.argument hvector (by omega)
  have hnumber : (readRegs d.mem (t.below.sp - 68)).intNo = vector := congrArg Regs.intNo hregs
  -- the handler leaves the frame, so the number that is read after it is the same
  have hkept : SameOn d.mem (k.effect handler (t.below.sp - 68) d.mem) (t.below.sp - 68)
      (t.below.sp - 68 + 4 * 17) :=
    fun x hlo hhi => hk _ _ _ _ (hD x (by omega) (by omega)) (.inr (.inr hlo))
  have hagain : (readRegs (k.effect handler (t.below.sp - 68) d.mem) (t.below.sp - 68)).intNo =
      vector := by
    rw [← hnumber]
    exact load32_congr (hkept.mono (by omega) (by omega))
  obtain ⟨_, hentry, hpair⟩ := Option.map_eq_some_iff.mp hhandler
  obtain ⟨rfl, rfl⟩ := Prod.mk.inj hpair
  simp only [interruptHandlerCode, hargument, hnumber, hagain, hentry, Option.map_some]

/-- An interrupt goes through the call of `interrupt_handler`. -/
theorem interrupt_eq {k : Image α} {vector : Nat} {m : Machine α}
    (hserves : Serves k m.cpu.mem m.idtr) (hvector : vector < 48) (code : Option (BitVec 32)) :
    ∃ g, interrupt k vector code m =
      (interruptHandlerCode k ⟨atCall k vector code g m.cpu, m.idtr, m.ints⟩).map fun m => { m with
        cpu := iret (execAll m.cpu ([.addImm 4 .esp] ++ restoreContext ++ [.addImm 8 .esp])) } := by
  obtain ⟨g, hgate, -, hstub⟩ := hserves vector hvector
  refine ⟨g, ?_⟩
  unfold interrupt
  rw [hgate, Option.bind_some, hstub, Option.bind_some]
  rfl

section Pushes

variable {k : Image α} {D : Nat → Prop} {bottom vector : Nat} {code : Option (BitVec 32)}
  {m : Machine α} {t : Trap} {handler : α} {ints' : Interrupts α}

/-- An interrupt without a handler never returns. -/
theorem Pushes.unhandled (h : Pushes vector code m.cpu t) (hserves : Serves k m.cpu.mem m.idtr)
    (hvector : vector < 48) (hroom : 76 ≤ t.below.sp) (hhandler : m.ints.handlers vector = none) :
    interrupt k vector code m = none := by
  obtain ⟨g, hg⟩ := interrupt_eq hserves hvector code
  obtain ⟨hargument, hregs⟩ := (atCall_spec k h g hroom).argument hvector hroom
  have hnumber : (readRegs (atCall k vector code g m.cpu).mem (t.below.sp - 68)).intNo = vector :=
    congrArg Regs.intNo hregs
  rw [hg]
  simp only [interruptHandlerCode, hargument, hnumber, hhandler, Option.map_none]

/-- Back from `interrupt_handler`, with its argument popped, the frame is on the stack as it was. -/
theorem AtCall.popped {g : Gate} {d : Cpu} (hcall : AtCall k vector t g d) (handler : α)
    (hk : Confined k D bottom) (hroom : bottom + 76 ≤ t.below.sp)
    (hD : ∀ x, bottom ≤ x → x < t.below.sp → ¬ D x) :
    let back := exec (returned k d (k.effect handler (t.below.sp - 68) d.mem)) (.addImm 4 .esp)
    back.reg .esp = t.below.reg .esp - 68 ∧ back.Stacked (frame vector t) := by
  intro back
  have hesp : back.reg .esp = t.below.reg .esp - 68 := by
    have hdesp := hcall.esp
    simp [back, returned, ret, Cpu.skip, hdesp]
    bv_omega
  have hpopped : d.skip.skip.Stacked (frame vector t) := hcall.stacked.skip.skip
  have hpoppedEsp : d.skip.skip.reg .esp = t.below.reg .esp - 68 := by
    simp [Cpu.skip, hcall.esp]
    bv_omega
  have hpoppedSp : d.skip.skip.sp = t.below.sp - 68 := by
    simp only [Cpu.sp] at *
    bv_omega
  refine ⟨hesp, hpopped.congr (hesp.trans hpoppedEsp.symm) ?_⟩
  rw [hpoppedSp, Cpu.mem_addImm]
  intro x hlo hhi
  have hx : x < t.below.sp := by
    rw [length_frame] at hhi
    omega
  exact hk _ _ _ _ (hD x (by omega) hx) (.inr (.inr hlo))

/-- An interrupt with a handler runs it on the words that were pushed. -/
theorem Pushes.handled (h : Pushes vector code m.cpu t) (hk : Confined k D bottom)
    (hserves : Serves k m.cpu.mem m.idtr) (hvector : vector < 48)
    (hroom : bottom + 76 ≤ t.below.sp) (hD : ∀ x, bottom ≤ x → x < t.below.sp → ¬ D x)
    (hhandler : interruptHandler m.ints vector = some (handler, ints')) :
    ∃ m', interrupt k vector code m = some m' ∧ m'.ints = ints' ∧
      Handled k D bottom vector t m m' handler := by
  obtain ⟨g, hg⟩ := interrupt_eq hserves hvector code
  have hcall := atCall_spec k h g (show 76 ≤ t.below.sp by omega)
  have hrun := interruptHandlerCode_atCall k hk hvector hroom hD hcall m.idtr hhandler
  have hregs := (hcall.argument hvector (by omega)).2
  obtain ⟨hesp, hframe⟩ := hcall.popped handler hk hroom hD
  generalize hd : atCall k vector code g m.cpu = d at hcall hregs hrun hg hesp hframe
  generalize hmem : k.effect handler (t.below.sp - 68) d.mem = mem at hrun hesp hframe
  have hinterrupt : interrupt k vector code m =
      some ⟨iret (execAll (exec (returned k d mem) (.addImm 4 .esp))
        (restoreContext ++ [.addImm 8 .esp])), m.idtr, ints'⟩ := by
    rw [hg, hrun, Option.map_some, List.append_assoc, List.singleton_append, execAll_cons]
  obtain ⟨hreturn, hreturnMem⟩ := restore_spec hframe hesp hcall.segments.2.1
  rw [Cpu.mem_addImm, show (returned k d mem).mem = mem from rfl] at hreturnMem
  generalize execAll (exec (returned k d mem) (.addImm 4 .esp))
    (restoreContext ++ [.addImm 8 .esp]) = last at hinterrupt hreturn hreturnMem
  have hback : (iret last).mem = mem := by
    rw [Cpu.iret_eq hreturn.stacked]
    exact hreturnMem
  have hsame : ∀ x, x < t.below.sp - 76 ∨ t.below.sp ≤ x → d.mem x = t.below.mem x :=
    fun x hx => hcall.outside x (x + 1) (by omega) x (Nat.le_refl x) (Nat.lt_succ_self x)
  refine ⟨_, hinterrupt, rfl, ?_⟩
  constructor
  case idtr => rfl
  case ints => exact hhandler
  case given => exact ⟨d.mem, t.below.sp - 68, hback.trans hmem.symm, hregs, hsame⟩
  case returns => exact ⟨_, rfl, hreturn⟩
  case memory =>
    intro x hx hout
    refine (congrFun hback x).trans ?_
    rw [← hmem, hk _ _ _ _ hx (by omega)]
    exact hsame x (by omega)

/-- An interrupt through any vector but 17 is invisible to what it interrupts. -/
theorem interrupt_served (hk : Confined k D bottom) (hserves : Serves k m.cpu.mem m.idtr)
    (hvector : vector < 48) (hne : vector ≠ 17) (hcode : CodeFits vector code)
    (hroom : bottom + 76 ≤ m.cpu.sp) (hD : ∀ x, bottom ≤ x → x < m.cpu.sp → ¬ D x)
    (hhandler : interruptHandler m.ints vector = some (handler, ints')) :
    ∃ m', interrupt k vector code m = some m' ∧ m'.ints = ints' ∧
      Served k D bottom vector code m m' handler := by
  obtain ⟨m', hinterrupt, hints, hhandled⟩ :=
    (stub_pushes hvector hne hcode m.cpu).handled hk hserves hvector hroom hD hhandler
  refine ⟨m', hinterrupt, hints, hhandled, ?_⟩
  obtain ⟨d, hd, hreturn⟩ := hhandled.returns
  have hiret := hreturn.iret_eq
  have hmem : m'.cpu.mem = d.mem := by rw [hd, hiret]
  rw [hmem, hd, hiret]

end Pushes

/-! ## Interrupts at any time -/

/-- The processors that look the same to a program: it has nothing below its stack pointer, and does
not look at the data of the handlers. -/
structure Seen (D : Nat → Prop) (bottom : Nat) (c d : Cpu) : Prop where
  reg : d.reg = c.reg
  seg : d.seg = c.seg
  eip : d.eip = c.eip
  eflags : d.eflags = c.eflags
  mem : ∀ x, ¬ D x → ¬ (bottom ≤ x ∧ x < c.sp) → d.mem x = c.mem x

theorem Seen.trans {D : Nat → Prop} {bottom : Nat} {a b c : Cpu} (h : Seen D bottom a b)
    (g : Seen D bottom b c) : Seen D bottom a c where
  reg := g.reg.trans h.reg
  seg := g.seg.trans h.seg
  eip := g.eip.trans h.eip
  eflags := g.eflags.trans h.eflags
  mem x hx hout := by
    have hsp : b.sp = a.sp := by
      unfold Cpu.sp
      rw [h.reg]
    exact (g.mem x hx (by rwa [hsp])).trans (h.mem x hx hout)

theorem Seen.symm {D : Nat → Prop} {bottom : Nat} {a b : Cpu} (h : Seen D bottom a b) :
    Seen D bottom b a where
  reg := h.reg.symm
  seg := h.seg.symm
  eip := h.eip.symm
  eflags := h.eflags.symm
  mem x hx hout := by
    have hsp : b.sp = a.sp := by
      unfold Cpu.sp
      rw [h.reg]
    exact (h.mem x hx (by rwa [← hsp])).symm

/-- Code that is interrupted: what it does depends on what it sees only, and it leaves the table of
gates at `table` alone. -/
structure Program (D : Nat → Prop) (bottom table : Nat) where
  step : Cpu → Option Cpu
  oblivious : ∀ {c d c' : Cpu}, Seen D bottom c d → step c = some c' →
    ∃ d', step d = some d' ∧ Seen D bottom c' d'
  keeps : ∀ {c c' : Cpu}, step c = some c' → SameOn c.mem c'.mem table (table + 384)

inductive Event
  | program
  | interrupt (vector : Nat) (code : Option (BitVec 32))

def Event.visible : Event → Option Unit
  | .program => some ()
  | .interrupt _ _ => none

variable {D : Nat → Prop} {bottom table : Nat}

/-- A step of the program, or an interrupt while there is room on the stack below `top`; vector 17,
whose stub does not know the code of the processor, does not occur. -/
def Machine.Step (k : Image α) (p : Program D bottom table) (top : Nat) (m : Machine α) :
    Event → Machine α → Prop
  | .program, m' => p.step m.cpu = some m'.cpu ∧ m'.idtr = m.idtr ∧ m'.ints = m.ints
  | .interrupt vector code, m' => vector < 48 ∧ vector ≠ 17 ∧ CodeFits vector code ∧
      bottom + 76 ≤ m.cpu.sp ∧ m.cpu.sp ≤ top ∧ interrupt k vector code m = some m'

def Program.Step (p : Program D bottom table) (c : Cpu) (_ : Unit) (c' : Cpu) : Prop :=
  p.step c = some c'

/-- The handlers' data and the table of gates are apart from each other and from the stack. -/
structure Apart (D : Nat → Prop) (bottom top table : Nat) : Prop where
  stack : ∀ x, bottom ≤ x → x < top → ¬ D x
  gates : ∀ x, table ≤ x → x < table + 384 → ¬ D x ∧ ¬ (bottom ≤ x ∧ x < top)

theorem Serves.congr {k : Image α} {m m' : Memory} {idtr : TableRegister} (h : Serves k m idtr)
    (hsame : SameOn m m' idtr.base (idtr.base + 384)) : Serves k m' idtr := by
  intro vector hvector
  obtain ⟨g, hgate, hrest⟩ := h vector hvector
  refine ⟨g, ?_, hrest⟩
  rw [gateAt_congr (hsame.mono (by omega) (by omega))]
  exact hgate

/-- An interrupt changes nothing that the interrupted program sees. -/
theorem Served.seen {k : Image α} {vector : Nat} {code : Option (BitVec 32)} {m m' : Machine α}
    {handler : α} (h : Served k D bottom vector code m m' handler) :
    Seen D bottom m.cpu m'.cpu := by
  have hcpu := h.cpu
  refine ⟨?_, ?_, ?_, ?_, h.memory⟩
  all_goals rw [hcpu]

theorem interruptHandler_handlers {s s' : Interrupts α} {intNo : Nat} {handler : α}
    (h : interruptHandler s intNo = some (handler, s')) : s'.handlers = s.handlers := by
  obtain ⟨_, -, hpair⟩ := Option.map_eq_some_iff.mp h
  rw [← (Prod.mk.inj hpair).2]
  split <;> rfl

/-- The machine looks to the program like the processor `c` that is never interrupted. -/
structure Shadows (k : Image α) (D : Nat → Prop) (bottom table : Nat) (handlers : Nat → Option α)
    (m : Machine α) (c : Cpu) : Prop where
  seen : Seen D bottom c m.cpu
  serves : Serves k m.cpu.mem m.idtr
  table : m.idtr.base = table
  handlers : m.ints.handlers = handlers

variable {k : Image α} {p : Program D bottom table} {top : Nat} {handlers : Nat → Option α}
  {m m' : Machine α} {c : Cpu}

theorem Shadows.interrupt (h : Shadows k D bottom table handlers m c) (hk : Confined k D bottom)
    (hapart : Apart D bottom top table) {vector : Nat} {code : Option (BitVec 32)}
    (hstep : Machine.Step k p top m (.interrupt vector code) m') :
    Shadows k D bottom table handlers m' c := by
  obtain ⟨hvector, hne, hcode, hroom, htop, hinterrupt⟩ := hstep
  cases hhandler : interruptHandler m.ints vector with
  | none =>
    have hnone : m.ints.handlers vector = none := by simpa [interruptHandler] using hhandler
    have hunhandled := (stub_pushes hvector hne hcode m.cpu).unhandled h.serves hvector
      (show 76 ≤ m.cpu.sp by omega) hnone
    cases hunhandled.symm.trans hinterrupt
  | some entry =>
    obtain ⟨m₁, hm₁, hints, hserved⟩ := interrupt_served hk h.serves hvector hne hcode hroom
      (fun x hlo hhi => hapart.stack x hlo (by omega)) hhandler
    obtain rfl := Option.some.inj (hm₁.symm.trans hinterrupt)
    constructor
    case seen => exact h.seen.trans hserved.seen
    case serves =>
      rw [hserved.idtr]
      apply h.serves.congr
      intro x hlo hhi
      rw [h.table] at hlo hhi
      obtain ⟨hD, hstack⟩ := hapart.gates x hlo hhi
      have hlive : ¬ (bottom ≤ x ∧ x < m.cpu.sp) := by omega
      exact hserved.memory x hD hlive
    case table => rw [hserved.idtr, h.table]
    case handlers => exact (interruptHandler_handlers hserved.ints).trans h.handlers

theorem Shadows.program (h : Shadows k D bottom table handlers m c)
    (hstep : Machine.Step k p top m .program m') :
    ∃ c', p.Step c () c' ∧ Shadows k D bottom table handlers m' c' := by
  obtain ⟨hprogram, hidtr, hints⟩ := hstep
  obtain ⟨c', hc', hseen⟩ := p.oblivious h.seen.symm hprogram
  refine ⟨c', hc', hseen.symm, ?_, by rw [hidtr, h.table], by rw [hints, h.handlers]⟩
  rw [hidtr]
  apply h.serves.congr
  rw [h.table]
  exact p.keeps hprogram

/-- Whatever interrupts come and whenever, the program runs as it does without them. -/
theorem interrupts_transparent {events : List Event} (hk : Confined k D bottom)
    (hapart : Apart D bottom top table) (htable : m.idtr.base = table)
    (hserves : Serves k m.cpu.mem m.idtr)
    (hrun : Transition.Run (Machine.Step k p top) m events m') :
    ∃ c, Transition.Run p.Step m.cpu (events.filterMap Event.visible) c ∧
      Seen D bottom c m'.cpu ∧ m'.ints.handlers = m.ints.handlers := by
  have hstart : Shadows k D bottom table m.ints.handlers m m.cpu :=
    ⟨⟨rfl, rfl, rfl, rfl, fun _ _ _ => rfl⟩, hserves, htable, rfl⟩
  obtain ⟨c, hprogram, h⟩ := hrun.stutters Event.visible hstart
    (fun t event u c hvisible hshadows hstep => by
      cases event with
      | program => cases hvisible
      | interrupt => exact hshadows.interrupt hk hapart hstep)
    (fun t event u c _ hvisible hshadows hstep => by
      cases event with
      | program => exact hshadows.program hstep
      | interrupt => cases hvisible)
  exact ⟨c, hprogram, h.seen, h.handlers⟩

/-! ## The table of `idt_init` -/

/-- The code of the stubs lies where the tables of `interrupt.s` say. -/
structure Linked (k : Image α) (isrStubTable irqStubTable : Nat → Nat) : Prop where
  isr : ∀ i < 32, isrStubTable i < 2 ^ 32 ∧
    k.codeAt (BitVec.ofNat 32 (isrStubTable i)) = some (isrStub i)
  irq : ∀ i < 16, irqStubTable i < 2 ^ 32 ∧
    k.codeAt (BitVec.ofNat 32 (irqStubTable i)) = some (irqStub i)

/-- `idt_init` puts the stub of each vector behind its gate. -/
theorem idtInit_serves {k : Image α} {m : Memory} {entries : Nat}
    {isrStubTable irqStubTable : Nat → Nat} (hlinked : Linked k isrStubTable irqStubTable)
    (hfit : entries + 2048 ≤ 2 ^ 32) (hzero : ∀ x, entries ≤ x → x < entries + 2048 → m x = 0) :
    Serves k (idtInit m entries isrStubTable irqStubTable).1
      (idtInit m entries isrStubTable irqStubTable).2 := by
  intro vector hvector
  have hgate := idtInit_gateAt hfit hzero (fun i hi => (hlinked.isr i hi).1)
    (fun i hi => (hlinked.irq i hi).1) vector
  split_ifs at hgate with hlow
  · refine ⟨_, hgate, rfl, ?_⟩
    rw [stub, if_pos hlow]
    exact (hlinked.isr vector hlow).2
  · refine ⟨_, hgate, rfl, ?_⟩
    rw [stub, if_neg hlow]
    exact (hlinked.irq (vector - 32) (by omega)).2

/-- The bytes that are on the stack when `interrupt_handler` is entered. -/
def depth (vector : Nat) : Nat := if vector = 17 then 80 else 76

def oneByteImage : Image Unit where
  codeAt a := some (stub ((a.toNat - 0x100000) / 16))
  handlerAddress := 0x101000
  returnAddress := 0x101800
  effect _ _ m := store8 m 0x300000 1
  scratch _ _ := 0
  flags c := c.eflags

theorem oneByteImage_linked : Linked oneByteImage (fun i => 0x100000 + 16 * i)
    fun i => 0x100000 + 16 * (32 + i) := by
  have hcode : ∀ i < 48, oneByteImage.codeAt (BitVec.ofNat 32 (0x100000 + 16 * i)) =
      some (stub i) := by
    intro i hi
    simp only [oneByteImage, BitVec.toNat_ofNat]
    congr 2
    omega
  constructor
  · intro i hi
    refine ⟨by omega, ?_⟩
    rw [hcode i (by omega), stub, if_pos hi]
  · intro i hi
    refine ⟨by omega, ?_⟩
    rw [hcode (32 + i) (by omega), stub, if_neg (by omega), Nat.add_sub_cancel_left]

theorem oneByteImage_confined (bottom : Nat) :
    Confined oneByteImage (fun x => x = 0x300000) bottom :=
  fun _ _ _ _ hx _ => if_neg hx

def oneByteTable : Memory × TableRegister :=
  idtInit (fun _ => 0) 0x200000 (fun i => 0x100000 + 16 * i) fun i => 0x100000 + 16 * (32 + i)

theorem oneByteTable_serves : Serves oneByteImage oneByteTable.1 oneByteTable.2 :=
  idtInit_serves oneByteImage_linked (by decide) fun _ _ _ => rfl

/-- After boot, with a handler for the keyboard. -/
def oneByteMachine : Machine Unit where
  cpu := ⟨fun r => if r = .esp then 0x114000 else 0, fun _ => 0x10, 0x102000, 0x202, oneByteTable.1⟩
  idtr := oneByteTable.2
  ints := interruptRegisterHandler (interruptInit ⟨0, 0⟩) 33 (some ())

/-- A program that counts in `eax`. -/
def counting : Program (fun x => x = 0x300000) 0x110000 0x200000 where
  step c := some (c.setReg .eax (c.reg .eax + 1))
  oblivious {c d c'} h hstep := by
    obtain rfl := Option.some.inj hstep
    have hreg := h.reg
    refine ⟨_, rfl, ?_, h.seg, h.eip, h.eflags, h.mem⟩
    simp only [Cpu.reg_setReg, hreg]
  keeps {c c'} hstep := by
    obtain rfl := Option.some.inj hstep
    exact .refl _ _ _

theorem oneByteMachine_apart : Apart (fun x => x = 0x300000) 0x110000 0x114000 0x200000 :=
  ⟨fun x _ hx heq => by omega, fun x hlo hhi => ⟨fun heq => by omega, fun h => by omega⟩⟩

/-- The program counts on over an interrupt. -/
theorem interrupts_transparent_counting : ∃ m' c,
    Transition.Run (Machine.Step oneByteImage counting 0x114000) oneByteMachine
      [.program, .interrupt 33 none, .program] m' ∧
    Transition.Run counting.Step oneByteMachine.cpu [(), ()] c ∧
    Seen (fun x => x = 0x300000) 0x110000 c m'.cpu := by
  obtain ⟨m₁, hstep, hsp, hserves, hhandler⟩ : ∃ m₁,
      Machine.Step oneByteImage counting 0x114000 oneByteMachine .program m₁ ∧
      m₁.cpu.sp = 0x114000 ∧ Serves oneByteImage m₁.cpu.mem m₁.idtr ∧
      interruptHandler m₁.ints 33 = some ((), m₁.ints) :=
    ⟨{ oneByteMachine with
        cpu := oneByteMachine.cpu.setReg .eax (oneByteMachine.cpu.reg .eax + 1) },
      ⟨rfl, rfl, rfl⟩, rfl, oneByteTable_serves, rfl⟩
  have hvector : 33 < 48 := by decide
  have hcode : CodeFits 33 none := by decide
  have hroom : 0x110000 + 76 ≤ m₁.cpu.sp := by omega
  have hne : 33 ≠ 17 := by decide
  obtain ⟨m₂, hinterrupt, -, -⟩ := interrupt_served (oneByteImage_confined 0x110000) hserves hvector
    hne hcode hroom (fun x hlo hhi => oneByteMachine_apart.stack x hlo (by omega)) hhandler
  let m₃ : Machine Unit := { m₂ with cpu := m₂.cpu.setReg .eax (m₂.cpu.reg .eax + 1) }
  have hrun : Transition.Run (Machine.Step oneByteImage counting 0x114000) oneByteMachine
      [.program, .interrupt 33 none, .program] m₃ :=
    .cons hstep (.cons ⟨hvector, hne, hcode, hroom, by omega, hinterrupt⟩ (.single ⟨rfl, rfl, rfl⟩))
  have htable : oneByteMachine.idtr.base = 0x200000 := rfl
  have hserves : Serves oneByteImage oneByteMachine.cpu.mem oneByteMachine.idtr :=
    oneByteTable_serves
  obtain ⟨c, hprogram, hseen, -⟩ := interrupts_transparent (oneByteImage_confined 0x110000)
    oneByteMachine_apart htable hserves hrun
  exact ⟨m₃, c, hrun, hprogram, hseen⟩

end HolyOs.Cpu

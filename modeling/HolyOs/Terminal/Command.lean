import HolyOs.Lib.Compare
import HolyOs.Terminal.Line

/-!
# Commands

`tty_execute_command` takes the branch that the command names, and every branch writes a known
text or clears the screen.
-/
namespace HolyOs.Terminal

open ByteMemory HolyOs.Drivers HolyOs.Lib Page

/-- The branches of `tty_execute_command`. -/
inductive Command where
  | help
  | clear
  | echo (args : List UInt8)
  | unknown
deriving DecidableEq

def helpName : CString := .ascii "help"
def clearName : CString := .ascii "clear"
def echoName : CString := .ascii "echo "

/-- The branch that is taken. -/
def dispatch (cmd : CString) : Command :=
  if strcmp cmd.raw helpName.raw = some 0 then .help
  else if strcmp cmd.raw clearName.raw = some 0 then .clear
  else if strncmp cmd.raw echoName.raw 5 = some 0 then .echo (cmd.bytes.drop 5)
  else .unknown

def helpText : List UInt8 :=
  (CString.ascii "available commands:\n").bytes ++
  (CString.ascii "\thelp \t- Show this help\n").bytes ++
  (CString.ascii "\tclear \t- Clear the screen\n").bytes ++
  (CString.ascii "\techo \t- Print arguments\n").bytes

def unknownText (cmd : CString) : List UInt8 :=
  (CString.ascii "unknown command: '").bytes ++ (cmd.bytes ++ [0x27, 0x0A])

/-- What the branch does to the terminal. -/
def Command.effect (t : Tty) (cmd : CString) : Command → Tty
  | .help => ttyWrite t helpText
  | .clear => ttyClear t
  | .echo args => ttyWrite t (args ++ [newline])
  | .unknown => ttyWrite t ((unknownText cmd).take 4095)

/-! ## Which branch is taken -/

section Dispatch

variable {cmd : CString}

theorem isHelp_iff : strcmp cmd.raw helpName.raw = some 0 ↔ cmd.bytes = helpName.bytes :=
  strcmp_eq_zero_iff cmd helpName

theorem isClear_iff : strcmp cmd.raw clearName.raw = some 0 ↔ cmd.bytes = clearName.bytes :=
  strcmp_eq_zero_iff cmd clearName

theorem isEcho_iff : strncmp cmd.raw echoName.raw 5 = some 0 ↔ echoName.bytes <+: cmd.bytes :=
  strncmp_eq_zero_iff cmd echoName

theorem helpName_not_echo : ¬ echoName.bytes <+: helpName.bytes := by decide

theorem clearName_not_echo : ¬ echoName.bytes <+: clearName.bytes := by decide

theorem dispatch_help_iff : dispatch cmd = .help ↔ cmd.bytes = helpName.bytes := by
  unfold dispatch
  rw [← isHelp_iff]
  split_ifs <;> grind

theorem dispatch_clear_iff : dispatch cmd = .clear ↔ cmd.bytes = clearName.bytes := by
  have hne : helpName.bytes ≠ clearName.bytes := by decide
  simp only [dispatch, isHelp_iff, isClear_iff]
  split_ifs <;> grind

theorem dispatch_echo_iff {args : List UInt8} :
    dispatch cmd = .echo args ↔ cmd.bytes = echoName.bytes ++ args := by
  have hhelp := helpName_not_echo
  have hclear := clearName_not_echo
  have hlength : echoName.bytes.length = 5 := by decide
  simp only [dispatch, isHelp_iff, isClear_iff, isEcho_iff]
  constructor
  · intro h
    split_ifs at h with _ _ hecho
    obtain ⟨rest, hrest⟩ := hecho
    cases h
    rw [← hrest, ← hlength, List.drop_left]
  · intro h
    have hecho : echoName.bytes <+: cmd.bytes := ⟨args, h.symm⟩
    rw [if_neg (by grind), if_neg (by grind), if_pos hecho, h, ← hlength, List.drop_left]

theorem dispatch_unknown_iff : dispatch cmd = .unknown ↔ cmd.bytes ≠ helpName.bytes ∧
    cmd.bytes ≠ clearName.bytes ∧ ¬ echoName.bytes <+: cmd.bytes := by
  simp only [dispatch, isHelp_iff, isClear_iff, isEcho_iff]
  split_ifs <;> grind

end Dispatch

/-! ## What the branches write -/

theorem ttyWrite_append (t : Tty) (str rest : List UInt8) :
    ttyWrite t (str ++ rest) = ttyWrite (ttyWrite t str) rest := List.foldl_append

/-- The string in the local buffer is the rendering, cut to its room. -/
theorem ttyPrintf_eq (junk : Memory) (t : Tty) {fmt : CString} {args : List VaArg}
    {out : List UInt8} (hout : render fmt.bytes args = some out) (hnonzero : ∀ b ∈ out, b ≠ 0) :
    ttyPrintf junk t fmt args = .ok (ttyWrite t (out.take 4095)) := by
  let text : CString := ⟨out.take 4095, fun b hb => hnonzero b (List.mem_of_mem_take hb)⟩
  have hlength : text.bytes.length ≤ 4095 := by
    simp only [text, List.length_take]
    omega
  obtain ⟨rest, hrest⟩ : ∃ rest,
      readBytes (writeBytes junk 0 text.raw) 0 4096 = text.raw ++ rest := by
    have hsplit : 4096 = text.raw.length + (4096 - text.raw.length) := by
      simp only [CString.raw, List.length_append, List.length_singleton]
      omega
    have htext := readBytes_writeBytes_append junk 0 text.raw []
    rw [List.append_nil] at htext
    exact ⟨_, by rw [hsplit, readBytes_add, htext]⟩
  unfold ttyPrintf
  rw [vsnprintf_fits junk junk hout (by omega) (by omega)]
  have hbuf : readBytes (writeBytes junk 0 (out.take (4096 - 1) ++ [0])) 0 4096 =
      text.raw ++ rest := hrest
  simp only [hbuf, CString.ofBytes_raw_append]
  rfl

theorem unknownText_nonzero (cmd : CString) : ∀ b ∈ unknownText cmd, b ≠ 0 := by
  have hname := (CString.ascii "unknown command: '").nonzero
  have hcmd := cmd.nonzero
  unfold unknownText
  grind

theorem ttyExecuteCommand_eq (junk : Memory) (t : Tty) (cmd : CString) :
    ttyExecuteCommand junk t cmd = .ok ((dispatch cmd).effect t cmd) := by
  have hunknown := ttyPrintf_eq junk t (render_unknown cmd) (unknownText_nonzero cmd)
  have hhelp : cmdHelp t = ttyWrite t helpText := by
    simp only [cmdHelp, helpText, ttyWrite_append]
  have hecho : ∀ args, cmdEcho t args = ttyWrite t (args ++ [newline]) := fun args =>
    (ttyWrite_append t args [newline]).symm
  unfold ttyExecuteCommand dispatch
  rw [hhelp, hecho, hunknown]
  unfold helpName clearName echoName
  split_ifs <;> rfl

/-- The dispatch is exact, on comparisons that have the sign of the lexicographic order. -/
theorem tty_execute_command_exact :
    (∀ s1 s2 : CString, ∃ d, strcmp s1.raw s2.raw = some d ∧ SignOf d s1.bytes s2.bytes) ∧
    (∀ (s1 s2 : CString) (n : Nat), ∃ d, strncmp s1.raw s2.raw n = some d ∧
      SignOf d (s1.bytes.take n) (s2.bytes.take n)) ∧
    ∀ (junk : Memory) (t : Tty) (cmd : CString),
      ttyExecuteCommand junk t cmd = .ok ((dispatch cmd).effect t cmd) ∧
      (dispatch cmd = .help ↔ cmd.bytes = helpName.bytes) ∧
      (dispatch cmd = .clear ↔ cmd.bytes = clearName.bytes) ∧
      (∀ args, dispatch cmd = .echo args ↔ cmd.bytes = echoName.bytes ++ args) ∧
      (dispatch cmd = .unknown ↔ cmd.bytes ≠ helpName.bytes ∧ cmd.bytes ≠ clearName.bytes ∧
        ¬ echoName.bytes <+: cmd.bytes) :=
  ⟨fun s1 s2 => strcmp_signOf s1.nonzero s2.nonzero,
    fun s1 s2 n => strncmp_signOf n s1.nonzero s2.nonzero, fun junk t cmd =>
    ⟨ttyExecuteCommand_eq junk t cmd, dispatch_help_iff, dispatch_clear_iff,
      fun _ => dispatch_echo_iff, dispatch_unknown_iff⟩⟩

end HolyOs.Terminal

import Lios.Io.Output
import Lios.Int.Keyboard

/-! # System calls

A program asks for a line from the keyboard or for bytes on the screen. The keyboard and the memory
are other components. While `read` looks at the flag again and again, interrupts arrive; what they do
between two looks is a call of its own.
-/
namespace Lios

/-- The registers that the routine reads. -/
structure SyscallData where
  rax : U64
  rdi : U64
  rsi : U64
  rdx : U64

structure SyscallCalls (S : Type) extends OutputCalls S where
  loadByte : U64 → S → Outcome S U8
  memset : U64 → U32 → U64 → S → Outcome S Unit
  memcpy : U64 → U64 → U64 → S → Outcome S Unit
  keyboardStartRecording : S → Outcome S Unit
  keyboardIsRecording : S → Bool
  keyboardGetRecording : S → Keys.KeyboardRecordingList
  keyboardEndRecording : S → Outcome S Unit
  interrupt : S → Outcome S Unit

namespace Syscall
variable {S : Type} (calls : SyscallCalls S)

def min (a b : U64) : U64 := if a < b then a else b

/-- The loop `while (keyboard_is_recording())`. -/
def waitRecording : ℕ → S → Outcome S Unit
  | 0,_ => .spin
  | fuel + 1,s =>
    if calls.keyboardIsRecording s = true then
      (calls.interrupt s).bind fun _ s => waitRecording fuel s
    else .done () s

/-- `read` from the standard input. -/
def readLine (fuel : ℕ) (buffer size : U64) (s : S) : Outcome S Unit :=
  (calls.keyboardStartRecording s).bind fun _ s =>
  (waitRecording calls fuel s).bind fun _ s =>
  let recording := calls.keyboardGetRecording s
  (calls.memset buffer 0#32 size s).bind fun _ s =>
  (calls.memcpy buffer recording.pressedKeys (min size recording.length) s).bind fun _ s =>
  calls.keyboardEndRecording s

/-- `write` to the standard output. -/
def writeBytes (buffer size : U64) (s : S) : Outcome S Unit :=
  Outcome.forTo size (fun i s =>
    (calls.loadByte (buffer + i) s).bind fun c s =>
    if c ≠ 0#8 then (calls.loadByte (buffer + i) s).bind fun c s => calls.vgaPutchar c s
    else .done () s) s

def syscallRoutine (fuel : ℕ) (data : SyscallData) (s : S) : Outcome S Unit :=
  if data.rax = 0#64 then
    if data.rdi = 0#64 then readLine calls fuel data.rsi data.rdx s else .done () s
  else if data.rax = 1#64 then
    if data.rdi = 1#64 then writeBytes calls data.rsi data.rdx s else .done () s
  else if data.rax = 999#64 then
    (Output.vgaPrintf calls.toOutputCalls (Output.literal "Hello world!\n") fuel 0#64 [] s).bind
      fun _ s => .done () s
  else .done () s

end Syscall

end Lios

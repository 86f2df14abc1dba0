import Lios.Lib.Loops
import Lios.Util.Const

/-! # Formatted output

A `char` is the byte it is stored in. Texts and formats are read from memory, which printing leaves
alone, and the arguments of a call are the words behind the format; to read an argument that was not
given is a fault. `serial_putchar` and the calls of the screen are calls of another component.
-/
namespace Lios

/-- The byte of a character constant. -/
def ascii (c : Char) : U8 := BitVec.ofNat 8 c.toNat

inductive Destination where
  | frameBuffer
  | serial

structure OutputCalls (S : Type) where
  vgaPutchar : U8 → S → Outcome S Unit
  serialPutchar : U8 → S → Outcome S Unit
  vgaIsInitialized : S → Bool

namespace Output

def u64MaxLengthDec : ℕ := 20

def powers10 : List U64 := [
  1#64,
  10#64,
  100#64,
  1000#64,
  10000#64,
  100000#64,
  1000000#64,
  10000000#64,
  100000000#64,
  1000000000#64,
  10000000000#64,
  100000000000#64,
  1000000000000#64,
  10000000000000#64,
  100000000000000#64,
  1000000000000000#64,
  10000000000000000#64,
  100000000000000000#64,
  1000000000000000000#64,
  10000000000000000000#64]

def u32MaxLengthHex : ℕ := 16

def powers16 : List U64 := [
  0x1#64,
  0x10#64,
  0x100#64,
  0x1000#64,
  0x10000#64,
  0x100000#64,
  0x1000000#64,
  0x10000000#64,
  0x100000000#64,
  0x1000000000#64,
  0x10000000000#64,
  0x100000000000#64,
  0x1000000000000#64,
  0x10000000000000#64,
  0x100000000000000#64,
  0x1000000000000000#64]

def printDebugSerial : Bool := true
def printInfoSerial : Bool := true
def printWarnSerial : Bool := true

section Model
variable {S : Type} (calls : OutputCalls S) (dest : Destination)

def putchar (c : U8) (s : S) : Outcome S Unit :=
  match dest with
  | .frameBuffer => calls.vgaPutchar c s
  | .serial => calls.serialPutchar c s

def print (text : List U8) (len : U32) (s : S) : Outcome S Unit :=
  Outcome.forTo len (fun i => putchar calls dest (text.getD i.toNat 0#8)) s

/-- The loop of `%u` and `%x`, from the power `i - 1` down. -/
def printDigits (powers : List U64) (digit : U64 → U8) :
    ℕ → Bool → U64 → U32 → S → Outcome S U32
  | 0,_,_,length,s => .done length s
  | i + 1,hasPrinted,num,length,s =>
    let power := powers.getD i 0#64
    let divide := num / power
    if divide = 0#64 then
      if hasPrinted = true then
        (putchar calls dest (ascii '0') s).bind fun _ s =>
        printDigits powers digit i hasPrinted num (length + 1#32) s
      else printDigits powers digit i hasPrinted num length s
    else
      (putchar calls dest (digit divide) s).bind fun _ s =>
      printDigits powers digit i true (num % power) (length + 1#32) s

def printNumber (powers : List U64) (digit : U64 → U8) (digits : ℕ) (num : U64) (length : U32)
    (s : S) : Outcome S U32 :=
  if num = 0#64 then
    (putchar calls dest (ascii '0') s).bind fun _ s => .done (length + 1#32) s
  else printDigits calls dest powers digit digits false num length s

/-- `%u` -/
def printUnsigned : U64 → U32 → S → Outcome S U32 :=
  printNumber calls dest powers10 (fun divide => (divide + (ascii '0').setWidth 64).setWidth 8)
    u64MaxLengthDec

/-- `%x` -/
def printHex : U64 → U32 → S → Outcome S U32 :=
  printNumber calls dest powers16
    (fun divide => (divide + if divide ≤ 9#64 then (ascii '0').setWidth 64
      else (ascii 'A').setWidth 64 - 10#64).setWidth 8)
    u32MaxLengthHex

variable (mem : U64 → U8)

/-- `%s` -/
def printString : ℕ → U64 → U32 → S → Outcome S U32
  | 0,_,_,_ => .spin
  | fuel + 1,str,length,s =>
    if mem str = 0#8 then .done length s
    else (putchar calls dest (mem str) s).bind fun _ s =>
      printString fuel (str + 1#64) (length + 1#32) s

def vaArg : List U64 → S → Outcome S (U64 × List U64)
  | [],s => .fault s
  | a :: args,s => .done (a,args) s

/-- What follows a `%`. A directive that is not known is skipped. -/
def printDirective (fuel : ℕ) (directive : U8) (args : List U64) (length : U32) (s : S) :
    Outcome S (List U64 × U32) :=
  if directive = ascii '%' then
    (putchar calls dest (ascii '%') s).bind fun _ s => .done (args,length + 1#32) s
  else if directive = ascii 'u' then
    (vaArg args s).bind fun (num,args) s =>
    (printUnsigned calls dest num length s).bind fun length s => .done (args,length) s
  else if directive = ascii 'x' then
    (vaArg args s).bind fun (num,args) s =>
    (printHex calls dest num length s).bind fun length s => .done (args,length) s
  else if directive = ascii 'c' then
    (vaArg args s).bind fun (c,args) s =>
    (putchar calls dest (c.setWidth 8) s).bind fun _ s => .done (args,length + 1#32) s
  else if directive = ascii 's' then
    (vaArg args s).bind fun (str,args) s =>
    (printString calls dest mem fuel str length s).bind fun length s => .done (args,length) s
  else .done (args,length) s

/-- The loop over the format. -/
def printFormat : ℕ → U64 → List U64 → U32 → S → Outcome S U32
  | 0,_,_,_,_ => .spin
  | fuel + 1,format,args,length,s =>
    if mem format = 0#8 then .done length s
    else if mem format = ascii '%' then
      (printDirective calls dest mem fuel (mem (format + 1#64)) args length s).bind
        fun (args,length) s => printFormat fuel (format + 2#64) args length s
    else (putchar calls dest (mem format) s).bind fun _ s =>
      printFormat fuel (format + 1#64) args (length + 1#32) s

def printf (fuel : ℕ) (format : U64) (args : List U64) (s : S) : Outcome S U32 :=
  printFormat calls dest mem fuel format args 0#32 s

/-- A line behind a label. -/
def printLabelled (label : String) (fuel : ℕ) (format : U64) (args : List U64) (s : S) :
    Outcome S U32 :=
  (print calls .serial (label.toList.map ascii) 7#32 s).bind fun _ s =>
  (printf calls .serial mem fuel format args s).bind fun length s =>
  (putchar calls .serial (ascii '\n') s).bind fun _ s =>
  .done length s

def printLabelledIf (enabled : Bool) (label : String) (fuel : ℕ) (format : U64) (args : List U64)
    (s : S) : Outcome S U32 :=
  if enabled = false then .done 0#32 s else printLabelled calls mem label fuel format args s

def serialDebug : ℕ → U64 → List U64 → S → Outcome S U32 :=
  printLabelledIf calls mem printDebugSerial "DEBUG: "

def serialInfo : ℕ → U64 → List U64 → S → Outcome S U32 :=
  printLabelledIf calls mem printInfoSerial "INFO:  "

def serialWarn : ℕ → U64 → List U64 → S → Outcome S U32 :=
  printLabelledIf calls mem printWarnSerial "WARN:  "

/-- Errors are always printed. -/
def serialError : ℕ → U64 → List U64 → S → Outcome S U32 :=
  printLabelled calls mem "ERROR: "

def serialPrintNoFancy (fuel : ℕ) (format : U64) (args : List U64) (s : S) : Outcome S U32 :=
  printf calls .serial mem fuel format args s

/-- A string constant, at the address zero of a memory of its own. -/
def literal (text : String) (p : U64) : U8 := (text.toList.map ascii).getD p.toNat 0#8

def vgaPrintf (fuel : ℕ) (format : U64) (args : List U64) (s : S) : Outcome S U32 :=
  if calls.vgaIsInitialized s = false then
    (serialWarn calls (literal "output: print to vga before initialization") fuel 0#64 [] s).bind
      fun _ s => .done 0#32 s
  else printf calls .frameBuffer mem fuel format args s

end Model

end Output

end Lios

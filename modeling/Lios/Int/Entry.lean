import Lios.Lib.Assembly
import Lios.Lib.Stack
import Lios.Util.Const

/-! # The way into the kernel

When an interrupt arrives the processor looks up a gate in the descriptor table, saves where it
was on the stack and continues at the gate's address. The stubs of `interrupts.s` add the number of
the interrupt, and an error code where the processor pushes none, save the other registers, call a
function of the kernel with the address of what was saved, and go all the way back. The functions
of the kernel are not described here; they are any functions that keep to the calling convention.
-/
namespace Lios.Entry

inductive Gpr where
  | rax | rbx | rcx | rdx | rsi | rdi | rbp | rsp | r8 | r9 | r10 | r11 | r12 | r13 | r14 | r15
  deriving DecidableEq

/-- A processor in long mode and its memory. -/
@[ext] structure Core where
  reg : Gpr → U64
  rip : U64
  cs : U16
  ss : U16
  rflags : U64
  mem : U64 → U8

namespace Core

def setReg (c : Core) (r : Gpr) (v : U64) : Core := { c with reg := Function.update c.reg r v }

def push (c : Core) (v : U64) : Core :=
  { c.setReg .rsp (c.reg .rsp - 8#64) with mem := store c.mem (c.reg .rsp - 8#64) (wordBytes v) }

end Core

/-! The stubs. -/

inductive Fn where
  | handleException | handleInterrupt
  deriving DecidableEq

inductive Instr where
  | pushImm (v : U64)
  | push (r : Gpr)
  | pop (r : Gpr)
  | mov (dst src : Gpr)
  | add (dst : Gpr) (imm : U64)
  | call (f : Fn)
  | iretq

/-- The instructions, for what the functions do and what flags an addition leaves. -/
def exec (fns : Fn → Core → Core) (flags : U64 → U64 → U64) : Instr → Core → Core
  | .pushImm v,c => c.push v
  | .push r,c => c.push (c.reg r)
  | .pop r,c => (c.setReg .rsp (c.reg .rsp + 8#64)).setReg r (load c.mem (c.reg .rsp))
  | .mov dst src,c => c.setReg dst (c.reg src)
  | .add dst imm,c =>
    { c.setReg dst (c.reg dst + imm) with rflags := flags (c.reg dst) imm }
  | .call f,c => fns f c
  | .iretq,c =>
    { c.setReg .rsp (load c.mem (c.reg .rsp + 24#64)) with
      rip := load c.mem (c.reg .rsp)
      cs := (load c.mem (c.reg .rsp + 8#64)).setWidth 16
      rflags := load c.mem (c.reg .rsp + 16#64)
      ss := (load c.mem (c.reg .rsp + 32#64)).setWidth 16 }

/-- The jumps of the stubs are unconditional. -/
def isa (fns : Fn → Core → Core) (flags : U64 → U64 → U64) : Isa Instr Unit Core where
  exec := exec fns flags
  holds _ _ := true

/-- The last label is no label of the file: it stands for the place an `iretq` goes to. -/
inductive Label where
  | exception (n : ℕ)
  | irq (n : ℕ)
  | exceptionHandler
  | irqHandler
  | left
  deriving DecidableEq

abbrev Lines := Text Instr Unit Label

def exceptionNoCodeStub (n : ℕ) : Lines :=
  .label (.exception n) :: [.pushImm 0#64,.pushImm (BitVec.ofNat 64 n)].map .instr ++
    [.jump () .exceptionHandler]

def exceptionCodeStub (n : ℕ) : Lines :=
  .label (.exception n) :: [.pushImm (BitVec.ofNat 64 n)].map .instr ++ [.jump () .exceptionHandler]

def irqStub (n : ℕ) : Lines :=
  .label (.irq n) :: [.pushImm 0#64,.pushImm (BitVec.ofNat 64 (32 + n))].map .instr ++
    [.jump () .irqHandler]

/-- The registers in the order of `pushregs`. -/
def saved : List Gpr :=
  [.rax,.rbx,.rcx,.rdx,.rsi,.rdi,.rbp,.r8,.r9,.r10,.r11,.r12,.r13,.r14,.r15]

def pushregs : List Instr := saved.map .push
def popregs : List Instr := saved.reverse.map .pop

def enter (f : Fn) : List Instr := pushregs ++ [.mov .rdi .rsp,.call f]
def leave : List Instr := popregs ++ [.add .rsp 16#64,.iretq]

def handler (f : Fn) : Lines := (enter f ++ leave).map .instr ++ [.jump () .left]

def text : Lines :=
  exceptionNoCodeStub 0 ++ exceptionNoCodeStub 1 ++ exceptionNoCodeStub 2 ++ exceptionNoCodeStub 3 ++
  exceptionNoCodeStub 4 ++ exceptionNoCodeStub 5 ++ exceptionNoCodeStub 6 ++ exceptionNoCodeStub 7 ++
  exceptionCodeStub 8 ++ exceptionNoCodeStub 9 ++ exceptionCodeStub 10 ++ exceptionCodeStub 11 ++
  exceptionCodeStub 12 ++ exceptionCodeStub 13 ++ exceptionCodeStub 14 ++ exceptionNoCodeStub 15 ++
  exceptionNoCodeStub 16 ++ exceptionCodeStub 17 ++ exceptionNoCodeStub 18 ++
  exceptionNoCodeStub 19 ++ exceptionNoCodeStub 20 ++ exceptionCodeStub 21 ++
  exceptionNoCodeStub 22 ++ exceptionNoCodeStub 23 ++ exceptionNoCodeStub 24 ++
  exceptionNoCodeStub 25 ++ exceptionNoCodeStub 26 ++ exceptionNoCodeStub 27 ++
  exceptionNoCodeStub 28 ++ exceptionCodeStub 29 ++ exceptionCodeStub 30 ++
  exceptionNoCodeStub 31 ++
  irqStub 0 ++ irqStub 1 ++ irqStub 2 ++ irqStub 3 ++ irqStub 4 ++ irqStub 5 ++ irqStub 6 ++
  irqStub 7 ++ irqStub 8 ++ irqStub 9 ++ irqStub 10 ++ irqStub 11 ++ irqStub 12 ++ irqStub 13 ++
  irqStub 14 ++ irqStub 15 ++ irqStub 96 ++
  .label .exceptionHandler :: handler .handleException ++
  .label .irqHandler :: handler .handleInterrupt ++ [.label .left]

/-! The descriptor table. -/

structure IDTEntry where
  isrLow : U16
  segment : U16
  ist : BitVec 3
  reserved1 : BitVec 5
  attributes : U8
  isrMid : U16
  isrHigh : U32
  reserved2 : U32

/-- The two words of an entry in memory. -/
def IDTEntry.words (e : IDTEntry) : List U64 :=
  [e.isrMid ++ e.attributes ++ e.reserved1 ++ e.ist ++ e.segment ++ e.isrLow,
    e.reserved2 ++ e.isrHigh]

/-- The assignments of `idt_set_entry` to an entry. -/
def IDTEntry.set (isr : U64) (flags : U8) (e : IDTEntry) : IDTEntry :=
  { e with
    isrLow := (isr &&& 0xFFFF#64).setWidth 16
    isrMid := (isr >>> 16 &&& 0xFFFF#64).setWidth 16
    isrHigh := (isr >>> 32 &&& 0xFFFFFFFF#64).setWidth 32
    segment := 0x08#16
    attributes := flags
    ist := 0 }

def idtSetEntry (index : ℕ) (isr : U64) (flags : U8) (idt : ℕ → IDTEntry) : ℕ → IDTEntry :=
  Function.update idt index ((idt index).set isr flags)

/-- The entries that `interrupt_init` sets, for the addresses of the stubs. -/
def interruptInit (address : Label → U64) (idt : ℕ → IDTEntry) : ℕ → IDTEntry :=
  let idt := (List.range 256).foldl (fun idt i => idtSetEntry i 0#64 0#8 idt) idt
  let idt := (List.range 32).foldl (fun idt i => idtSetEntry i (address (.exception i)) 0x8E#8 idt) idt
  let idt := (List.range 16).foldl (fun idt i => idtSetEntry (32 + i) (address (.irq i)) 0x8E#8 idt) idt
  idtSetEntry 128 (address (.irq 96)) 0xEF#8 idt

/-- The whole table in memory. -/
def tableWords (idt : ℕ → IDTEntry) : List U64 := (List.range 256).flatMap fun v => (idt v).words

/-! The processor. -/

structure Gate where
  offset : U64
  selector : U16
  ist : BitVec 3
  attributes : U8

/-- A gate as the processor reads it: the fields are at fixed bits of two words. -/
def readGate (m : U64 → U8) (idtr : U64) (vector : ℕ) : Gate :=
  let low := load m (idtr + BitVec.ofNat 64 (16 * vector))
  let high := load m (idtr + BitVec.ofNat 64 (16 * vector) + 8#64)
  ⟨high.extractLsb' 0 32 ++ low.extractLsb' 48 16 ++ low.extractLsb' 0 16,low.extractLsb' 16 16,
    low.extractLsb' 32 3,low.extractLsb' 40 8⟩

namespace Gate

def Present (g : Gate) : Prop := g.attributes.getLsbD 7 = true

instance (g : Gate) : Decidable g.Present := inferInstanceAs (Decidable (_ = _))

/-- A trap gate leaves interrupts as they are. -/
def trap (g : Gate) : Bool := g.attributes.getLsbD 0

end Gate

/-- The exceptions for which the processor pushes an error code. -/
def pushesCode (vector : ℕ) : Bool := vector ∈ [8,10,11,12,13,14,17,21,29,30]

/-- The flags in a handler: no tracing, no nested task, and no interrupts behind an interrupt gate. -/
def entryFlags (trap : Bool) (rflags : U64) : U64 :=
  let rflags := rflags &&& ~~~0x34100#64
  if trap then rflags else rflags &&& ~~~0x200#64

/-- A program was interrupted, and not the kernel. -/
def Core.user (c : Core) : Bool := c.cs.getLsbD 0 || c.cs.getLsbD 1

/-- The stack an interrupt is served on: one of the stacks in the task state segment at `tr` if the
gate or the change of privilege asks for it, or else the one in use. -/
def entryStack (tr : U64) (ist : BitVec 3) (c : Core) : U64 :=
  (if ist ≠ 0 then load c.mem (tr + 28#64 + BitVec.ofNat 64 (8 * ist.toNat))
    else if c.user then load c.mem (tr + 4#64)
    else c.reg .rsp) &&& ~~~0xF#64

/-- What the processor saves, the last first. -/
def returnFrame (c : Core) : List U64 :=
  [c.rip,c.cs.setWidth 64,c.rflags,c.reg .rsp,c.ss.setWidth 64]

/-- An interrupt arrives. Without a gate the processor raises another exception. -/
def deliver (idtr tr : U64) (vector : ℕ) (code : U64) (c : Core) : Option Core :=
  let gate := readGate c.mem idtr vector
  if gate.Present then
    let frame := if pushesCode vector then code :: returnFrame c else returnFrame c
    let entered := frame.foldr (fun v c => c.push v) (c.setReg .rsp (entryStack tr gate.ist c))
    some { entered with
      rip := gate.offset
      cs := gate.selector
      rflags := entryFlags gate.trap c.rflags
      ss := if c.user then 0#16 else c.ss }
  else none

/-- The structure that the functions of the kernel are given the address of. -/
def interruptData (c : Core) (interruptNum errorCode : U64) : List U64 :=
  saved.reverse.map c.reg ++ interruptNum :: errorCode :: returnFrame c

end Lios.Entry

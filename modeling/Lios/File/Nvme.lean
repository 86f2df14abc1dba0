import Mathlib.Logic.Function.Basic
import Lios.Util.Const

/-! # The I/O queues of the NVMe driver

The driver and the controller share two rings of 64 entries. A call writes one
command, remembers the phase bit of the completion slot it will watch, rings the
doorbell and polls the slot until the bit has changed. Its steps are kept apart
so that the controller may act between any two of them. The lists of commands
written and executed are there to state what happened and are read by nobody.
-/
namespace Lios.Nvme

structure SubmissionEntry where
  opcode : U8 := 0#8
  fusedOp : BitVec 2 := 0#2
  prpSgl : BitVec 2 := 0#2
  identifier : U16 := 0#16
  nsid : U32 := 0#32
  metadataPtr : U64 := 0#64
  prp1 : U64 := 0#64
  prp2 : U64 := 0#64
  dword10 : U32 := 0#32
  dword11 : U32 := 0#32
  dword12 : U32 := 0#32
  dword13 : U32 := 0#32
  dword14 : U32 := 0#32
  dword15 : U32 := 0#32
  deriving DecidableEq

structure CompletionEntry where
  dword0 : U32 := 0#32
  dword1 : U32 := 0#32
  dword2 : U32 := 0#32
  dword3 : U32 := 0#32
  deriving DecidableEq

def completionCheckSuccess (dword3 : U64) : Bool :=
  if (dword3 >>> 25) &&& 7#64 ≠ 0#64 then false
  else if (dword3 >>> 17) &&& 0xFF#64 ≠ 0#64 then false
  else true

/-- `nvme_read` and `nvme_write` fill their entry alike, up to the opcode and the
identifier. The buffer is given by the physical address of its first byte. -/
def ioEntry (opcode : U8) (identifier : U16) (lbaStart : U64) (numLbas : U16) (prp1 : U64) :
    SubmissionEntry where
  opcode := opcode
  identifier := identifier
  nsid := 1#32
  dword10 := (lbaStart &&& 0xFFFFFFFF#64).setWidth 32
  dword11 := ((lbaStart >>> 32) &&& 0xFFFFFFFF#64).setWidth 32
  dword12 := numLbas.setWidth 32 - 1#32
  prp1 := prp1

def nvmeReadEntry := ioEntry 2#8 2#16
def nvmeWriteEntry := ioEntry 1#8 1#16

/-- A call of `nvme_read` or `nvme_write`. -/
inductive Call where
  | read (lbaStart : U64) (numLbas : U16) (prp1 : U64)
  | write (lbaStart : U64) (numLbas : U16) (prp1 : U64)

def Call.entry : Call → SubmissionEntry
  | read lbaStart numLbas prp1 => nvmeReadEntry lbaStart numLbas prp1
  | write lbaStart numLbas prp1 => nvmeWriteEntry lbaStart numLbas prp1

/-- Where the driver stands in a call. -/
inductive Pc where
  | idle
  | written
  | sampled (phase : U32)
  | waiting (phase : U32)
  | seen
  deriving DecidableEq

structure System where
  ioSubmit : ℕ → SubmissionEntry
  ioComplete : ℕ → CompletionEntry
  ioSubmissionTail : U32
  ioCompletionHead : U32
  ioSubmitDoorbell : U32
  ioCompleteDoorbell : U32
  pc : Pc
  /-- The next submission slot the controller fetches. -/
  sqHead : ℕ
  /-- The commands it has fetched and not completed. -/
  pending : List SubmissionEntry
  /-- The next completion slot it fills, and the phase bit of its lap. -/
  cqTail : ℕ
  phase : U32
  written : List SubmissionEntry
  executed : List SubmissionEntry
  result : Bool

namespace System

/-- The queues as `nvme_init` leaves them, on zeroed pages. -/
def start : System where
  ioSubmit _ := {}
  ioComplete _ := {}
  ioSubmissionTail := 0#32
  ioCompletionHead := 0#32
  ioSubmitDoorbell := 0#32
  ioCompleteDoorbell := 0#32
  pc := .idle
  sqHead := 0
  pending := []
  cqTail := 0
  phase := 1#32
  written := []
  executed := []
  result := true

/-- `(e.dword3 >> 16) & 1` -/
def phaseOf (e : CompletionEntry) : U32 := (e.dword3 >>> 16) &&& 1#32

/-- The phase bit the driver reads when it looks at its completion slot. -/
def polled (s : System) : U32 := phaseOf (s.ioComplete s.ioCompletionHead.toNat)

def writeEntry (c : Call) (s : System) : System :=
  { s with
    ioSubmit := Function.update s.ioSubmit s.ioSubmissionTail.toNat c.entry
    written := s.written ++ [c.entry]
    pc := .written }

def samplePhase (s : System) : System := { s with pc := .sampled s.polled }

def ringDoorbell (phase : U32) (s : System) : System :=
  { s with
    ioSubmissionTail := (s.ioSubmissionTail + 1#32) % 64#32
    ioSubmitDoorbell := (s.ioSubmissionTail + 1#32) % 64#32
    pc := .waiting phase }

/-- One evaluation of the condition of the wait loop. -/
def poll (phase : U32) (s : System) : System :=
  if s.polled = phase then s else { s with pc := .seen }

def finish (s : System) : System :=
  { s with
    ioCompletionHead := (s.ioCompletionHead + 1#32) % 64#32
    ioCompleteDoorbell := (s.ioCompletionHead + 1#32) % 64#32
    result := completionCheckSuccess
      ((s.ioComplete ((s.ioCompletionHead + 1#32) % 64#32).toNat).dword3.setWidth 64)
    pc := .idle }

def fetch (s : System) : System :=
  { s with
    pending := s.pending ++ [s.ioSubmit s.sqHead]
    sqHead := (s.sqHead + 1) % 64 }

/-- The completion of the fetched command `c`, with whatever else the controller
writes into its entry `e`. -/
def complete (c : SubmissionEntry) (e : CompletionEntry) (s : System) : System :=
  { s with
    pending := s.pending.erase c
    executed := s.executed ++ [c]
    ioComplete := Function.update s.ioComplete s.cqTail e
    cqTail := (s.cqTail + 1) % 64
    phase := if s.cqTail + 1 = 64 then s.phase ^^^ 1#32 else s.phase }

/-- The steps of the driver and of the controller, in any interleaving. -/
inductive Step : System → System → Prop where
  | writeEntry {s} (c : Call) : s.pc = .idle → Step s (s.writeEntry c)
  | samplePhase {s} : s.pc = .written → Step s s.samplePhase
  | ringDoorbell {s phase} : s.pc = .sampled phase → Step s (s.ringDoorbell phase)
  | poll {s phase} : s.pc = .waiting phase → Step s (s.poll phase)
  | finish {s} : s.pc = .seen → Step s s.finish
  | fetch {s} : s.sqHead ≠ s.ioSubmitDoorbell.toNat → Step s s.fetch
  | complete {s c e} : c ∈ s.pending → phaseOf e = s.phase → Step s (s.complete c e)

end System

end Lios.Nvme

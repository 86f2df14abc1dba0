import Mathlib.Data.List.Basic
import Lios.Lib.Outcome
import Lios.Util.Const

/-! # Interrupts

Routines are registered by number and run when their interrupt arrives. The handlers of
exceptions are written to the table of the interrupt routines, and read from it; the
table of exception handlers is never used. A null pointer is `none`. An index beyond the
table is a fault. The descriptor table, the masks of the interrupt controllers and the
messages are left out.
-/
namespace Lios

/-- The part of the saved state that the dispatchers read. -/
structure InterruptData where
  interruptNum : U64
  errorCode : U64

/-- The two tables, with the routines that a pointer can point to. -/
structure Interrupts (R : Type) where
  irqRoutines : ℕ → Option R
  exceptionHandlers : ℕ → Option R

/-- What a dispatcher does. -/
inductive InterruptEffect (R : Type) where
  | run (routine : R) (data : InterruptData)
  | outb (port : U16) (value : U8)
  | halt

namespace Interrupts
variable {R : Type}

def irqCount : ℕ := 256 - 32

def picmCommand : U16 := 0x20#16
def picsCommand : U16 := 0xA0#16
def picEoi : U8 := 0x20#8

/-- The tables before any registration. -/
def empty (R : Type) : Interrupts R := ⟨fun _ => none,fun _ => none⟩

def irqSetRoutine (irqNumber : U8) (routine : Option R) (s : Interrupts R) :
    Outcome (Interrupts R) Unit :=
  if irqNumber.toNat < irqCount then
    .done () { s with irqRoutines := Function.update s.irqRoutines irqNumber.toNat routine }
  else .fault s

def exceptionSetHandler (exception : U8) (handler : Option R) (s : Interrupts R) :
    Outcome (Interrupts R) Unit :=
  if exception.toNat < irqCount then
    .done () { s with irqRoutines := Function.update s.irqRoutines exception.toNat handler }
  else .fault s

/-- The call of a routine, unless the pointer is null. -/
def runs (routine : Option R) (data : InterruptData) : List (InterruptEffect R) :=
  match routine with
  | some r => [.run r data]
  | none => []

def handleException (data : InterruptData) (s : Interrupts R) :
    Outcome (Interrupts R) (List (InterruptEffect R)) :=
  if data.interruptNum.toNat < irqCount then
    .done (runs (s.irqRoutines data.interruptNum.toNat) data ++ [.halt]) s
  else .fault s

def picAcknowledge (irq : U8) : List (InterruptEffect R) :=
  (if 8#8 ≤ irq then [.outb picsCommand picEoi] else []) ++ [.outb picmCommand picEoi]

def handleInterrupt (data : InterruptData) (s : Interrupts R) :
    Outcome (Interrupts R) (List (InterruptEffect R)) :=
  let irqNumber : U32 := (data.interruptNum - 32#64).setWidth 32
  if irqNumber.toNat < irqCount then
    .done (runs (s.irqRoutines irqNumber.toNat) data ++ picAcknowledge (irqNumber.setWidth 8)) s
  else .fault s

/-- A call of one of the two registration functions. -/
inductive Registration (R : Type) where
  | irq (irqNumber : U8) (routine : Option R)
  | exception (exception : U8) (handler : Option R)

namespace Registration

def number : Registration R → ℕ
  | .irq i _ => i.toNat
  | .exception e _ => e.toNat

def routine : Registration R → Option R
  | .irq _ r => r
  | .exception _ h => h

def isIrq : Registration R → Bool
  | .irq _ _ => true
  | .exception _ _ => false

def isException (r : Registration R) : Bool := !r.isIrq

end Registration

def register : Registration R → Interrupts R → Outcome (Interrupts R) Unit
  | .irq i r => irqSetRoutine i r
  | .exception e h => exceptionSetHandler e h

/-- A sequence of registrations. -/
def registerAll : List (Registration R) → Interrupts R → Outcome (Interrupts R) Unit
  | [],s => .done () s
  | r :: rs,s => (register r s).bind fun _ s => registerAll rs s

inductive KernelRoutine where
  | timerRoutine
  | keyboardRoutine
  | syscallRoutine
  | pageFaultHandler
  deriving DecidableEq

/-- The registrations of `interrupt_init`. -/
def initRegistrations : List (Registration KernelRoutine) :=
  [.irq 0#8 (some .timerRoutine),.irq 1#8 (some .keyboardRoutine),
    .irq 96#8 (some .syscallRoutine),.exception 14#8 (some .pageFaultHandler)]

def interruptInit (s : Interrupts KernelRoutine) : Outcome (Interrupts KernelRoutine) Unit :=
  registerAll initRegistrations s

/-- The last of the registrations of a kind for the number `j`. -/
def lastRegistered (kind : Registration R → Bool) (rs : List (Registration R)) (j : ℕ) :
    Option R :=
  ((rs.filter fun r => kind r && r.number == j).getLast?).bind Registration.routine

def lastIrq (rs : List (Registration R)) (j : ℕ) : Option R :=
  lastRegistered Registration.isIrq rs j

def lastException (rs : List (Registration R)) (j : ℕ) : Option R :=
  lastRegistered Registration.isException rs j

/-- The last of the registrations of either kind. -/
def lastOfAny (rs : List (Registration R)) (j : ℕ) : Option R :=
  lastRegistered (fun _ => true) rs j

section Registered
variable {s t : Interrupts R} {rs : List (Registration R)} {j : ℕ}

/-- Both registration functions write to the same table. -/
theorem register_eq (r : Registration R) (s : Interrupts R) : register r s =
    if r.number < irqCount then
      .done () { s with irqRoutines := Function.update s.irqRoutines r.number r.routine }
    else .fault s := by
  cases r with
  | irq i r => rfl
  | exception e h => rfl

/-- The table after a sequence of registrations. -/
def registered (rs : List (Registration R)) (f : ℕ → Option R) : ℕ → Option R :=
  rs.foldl (fun f r => Function.update f r.number r.routine) f

theorem registerAll_eq_done : registerAll rs s = .done () t ↔
    (∀ r ∈ rs, r.number < irqCount) ∧ t = { s with irqRoutines := registered rs s.irqRoutines } := by
  induction rs generalizing s with
  | nil => simp [registerAll,registered,eq_comm]
  | cons r rs ih =>
    rw [registerAll,register_eq]
    by_cases hr : r.number < irqCount
    · rw [if_pos hr,Outcome.bind_done,ih,List.forall_mem_cons,registered,registered,List.foldl_cons]
      simp only [hr,true_and]
    · rw [if_neg hr,Outcome.bind_fault,List.forall_mem_cons]
      simp [hr]

theorem lastRegistered_concat (kind : Registration R → Bool) (r : Registration R) :
    lastRegistered kind (rs ++ [r]) j =
      if kind r ∧ r.number = j then r.routine else lastRegistered kind rs j := by
  rw [lastRegistered,List.filter_append]
  by_cases h : kind r ∧ r.number = j
  · have hone : [r].filter (fun r => kind r && r.number == j) = [r] := by simp [h]
    rw [if_pos h,hone,List.getLast?_concat,Option.bind_some]
  · have hnone : [r].filter (fun r => kind r && r.number == j) = [] := by simpa using h
    rw [if_neg h,hnone,List.append_nil]
    rfl

theorem registered_concat (r : Registration R) (f : ℕ → Option R) :
    registered (rs ++ [r]) f = Function.update (registered rs f) r.number r.routine := by
  rw [registered,List.foldl_append]
  rfl

/-- The table holds the last registration of either kind. -/
theorem registered_empty : registered rs (empty R).irqRoutines = lastOfAny rs := by
  induction rs using List.reverseRecOn with
  | nil => rfl
  | append_singleton rs r ih =>
    funext j
    rw [registered_concat,ih,lastOfAny,lastRegistered_concat,Function.update_apply]
    simp only [true_and,eq_comm,lastOfAny]

/-- The last registration of either kind is the last one of its own kind. -/
theorem lastOfAny_cases (rs : List (Registration R)) (j : ℕ) :
    lastOfAny rs j = lastIrq rs j ∨ lastOfAny rs j = lastException rs j := by
  induction rs using List.reverseRecOn with
  | nil => exact .inl rfl
  | append_singleton rs r ih =>
    rw [lastOfAny,lastIrq,lastException,lastRegistered_concat,lastRegistered_concat,
      lastRegistered_concat]
    by_cases hj : r.number = j
    · cases r with
      | irq i r => exact .inl (by simp [hj,Registration.isIrq])
      | exception e h => exact .inr (by simp [hj,Registration.isException,Registration.isIrq])
    · simp only [hj,and_false,if_false]
      exact ih

theorem runs_append_inj {a b : Option R} {data : InterruptData} {es : List (InterruptEffect R)}
    (h : runs a data ++ es = runs b data ++ es) : a = b := by
  have h := List.append_cancel_right h
  cases a with
  | none =>
    cases b with
    | none => rfl
    | some b => cases h
  | some a =>
    cases b with
    | none => cases h
    | some b =>
      cases h
      rfl

end Registered

/-- The tables are independent: an exception runs what was last registered for exceptions, and an
interrupt runs what was last registered for interrupts. -/
structure Independent (rs : List (Registration R)) (s : Interrupts R) : Prop where
  exception : ∀ data : InterruptData, data.interruptNum.toNat < 32 →
    handleException data s =
      .done (runs (lastException rs data.interruptNum.toNat) data ++ [.halt]) s
  interrupt : ∀ (i : ℕ) (data : InterruptData), data.interruptNum.toNat = 32 + i → i < irqCount →
    handleInterrupt data s =
      .done (runs (lastIrq rs i) data ++ picAcknowledge (BitVec.ofNat 8 i)) s

section Independent
variable {rs : List (Registration R)} {s : Interrupts R}

theorem handleException_eq {data : InterruptData} (h : data.interruptNum.toNat < irqCount) :
    handleException data s =
      .done (runs (s.irqRoutines data.interruptNum.toNat) data ++ [.halt]) s := if_pos h

theorem handleInterrupt_eq {data : InterruptData} {i : ℕ} (h : data.interruptNum.toNat = 32 + i)
    (hi : i < irqCount) : handleInterrupt data s =
      .done (runs (s.irqRoutines i) data ++ picAcknowledge (BitVec.ofNat 8 i)) s := by
  have hi : i < 224 := hi
  have hirq : (data.interruptNum - 32#64).setWidth 32 = BitVec.ofNat 32 i := by
    refine BitVec.eq_of_toNat_eq ?_
    rw [BitVec.toNat_setWidth,BitVec.toNat_sub,h,BitVec.toNat_ofNat,BitVec.toNat_ofNat]
    omega
  have hnat : (BitVec.ofNat 32 i).toNat = i := by
    rw [BitVec.toNat_ofNat]
    omega
  have hack : (BitVec.ofNat 32 i).setWidth 8 = BitVec.ofNat 8 i := by
    refine BitVec.eq_of_toNat_eq ?_
    rw [BitVec.toNat_setWidth,hnat,BitVec.toNat_ofNat]
  rw [handleInterrupt,hirq,hnat,hack]
  exact if_pos hi

/-- What the dispatchers run, in terms of the table. -/
theorem independent_iff : Independent rs s ↔
    (∀ j < 32, s.irqRoutines j = lastException rs j) ∧
      ∀ j < irqCount, s.irqRoutines j = lastIrq rs j := by
  constructor
  · rintro ⟨hexc,hint⟩
    refine ⟨fun j hj => ?_,fun j hj => ?_⟩
    · have hnum : (BitVec.ofNat 64 j).toNat = j := by
        rw [BitVec.toNat_ofNat]
        omega
      have hrun := hexc ⟨BitVec.ofNat 64 j,0#64⟩ (by rw [hnum]; exact hj)
      rw [handleException_eq (by rw [hnum,irqCount]; omega)] at hrun
      have hrun := runs_append_inj (Outcome.done.inj hrun).1
      rwa [hnum] at hrun
    · have hcount : j < 224 := hj
      have hnum : (BitVec.ofNat 64 (32 + j)).toNat = 32 + j := by
        rw [BitVec.toNat_ofNat]
        omega
      have hrun := hint j ⟨BitVec.ofNat 64 (32 + j),0#64⟩ hnum hj
      rw [handleInterrupt_eq hnum hj] at hrun
      exact runs_append_inj (Outcome.done.inj hrun).1
  · rintro ⟨hexc,hint⟩
    refine ⟨fun data hnum => ?_,fun i data hnum hi => ?_⟩
    · rw [handleException_eq (by rw [irqCount]; omega),hexc _ hnum]
    · rw [handleInterrupt_eq hnum hi,hint i hi]

/-- After any sequence of registrations the tables behave as independent ones if and only if all
numbers are inside the table, the last registrations of the two kinds agree for every number
of an exception, and beyond these numbers no handler was registered over a routine. -/
theorem registerAll_independent_iff (rs : List (Registration R)) :
    (∃ s, registerAll rs (empty R) = .done () s ∧ Independent rs s) ↔
      (∀ r ∈ rs, r.number < irqCount) ∧ (∀ j < 32, lastException rs j = lastIrq rs j) ∧
        ∀ j, 32 ≤ j → j < irqCount → lastOfAny rs j = lastIrq rs j := by
  constructor
  · rintro ⟨s,hdone,hind⟩
    obtain ⟨hbound,rfl⟩ := registerAll_eq_done.mp hdone
    obtain ⟨hexc,hint⟩ := independent_iff.mp hind
    simp only [registered_empty] at hexc hint
    refine ⟨hbound,fun j hj => ?_,fun j _ hj => hint j hj⟩
    rw [← hexc j hj,← hint j (by rw [irqCount]; omega)]
  · rintro ⟨hbound,hsame,hhigh⟩
    refine ⟨_,registerAll_eq_done.mpr ⟨hbound,rfl⟩,independent_iff.mpr ?_⟩
    simp only [registered_empty]
    have hany (j : ℕ) (hj : j < 32) : lastOfAny rs j = lastIrq rs j := by
      rcases lastOfAny_cases rs j with h | h
      · exact h
      · rw [h,hsame j hj]
    refine ⟨fun j hj => by rw [hany j hj,hsame j hj],fun j hj => ?_⟩
    by_cases hlow : j < 32
    · exact hany j hlow
    · exact hhigh j (by omega) hj

end Independent

/-- After `interrupt_init` a division error runs the routine of the timer, although no handler
was registered for it. -/
theorem interruptInit_not_independent :
    ¬ ∃ s, interruptInit (empty KernelRoutine) = .done () s ∧
      Independent initRegistrations s := by
  rintro ⟨s,hdone,hind⟩
  rw [interruptInit] at hdone
  obtain ⟨-,rfl⟩ := registerAll_eq_done.mp hdone
  have htimer := (independent_iff.mp hind).1 0 (by decide)
  exact absurd htimer (by decide)

end Interrupts

end Lios

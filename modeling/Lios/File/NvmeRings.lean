import Mathlib.Logic.Relation
import Lios.Lib.Ring
import Lios.File.Nvme

/-! # The rings stay in step

After `k` calls both indices of the driver stand at `k % 64`, and so do the
indices of the controller. The driver never tracks the phase: it infers it from
the old contents of the slot, which carry the parity of the laps that have filled
the slot. The invariant says this for every slot and follows the one command that
can be under way.
-/
namespace Lios.Nvme.System
variable {s t : System} {k : ℕ}

/-- Tail and doorbell stand at the slot of the `m`-th command. -/
def TailAt (m : ℕ) (s : System) : Prop :=
  s.ioSubmissionTail = BitVec.ofNat 32 (m % 64) ∧ s.ioSubmitDoorbell = BitVec.ofNat 32 (m % 64)

/-- The phase bit a slot carries after it has been filled `n` times. -/
def phaseAfter (n : ℕ) : U32 := BitVec.ofNat 32 (n % 2)

/-- The command `c` of the call that follows `k` others has been written. -/
structure Current (k : ℕ) (done : List SubmissionEntry) (c : SubmissionEntry)
    (s : System) : Prop where
  written : s.written = done ++ [c]
  length : done.length = k
  slot : s.ioSubmit (k % 64) = c

/-- How far the call that follows `k` others has come. -/
def Position (k : ℕ) (s : System) : Prop :=
  match s.pc with
  | .idle => s.TailAt k ∧ s.written.length = k ∧ s.executed = s.written ∧ s.pending = []
  | .written => s.TailAt k ∧ ∃ done c, Current k done c s ∧ s.executed = done ∧ s.pending = []
  | .sampled phase => phase = phaseAfter (k / 64) ∧ s.TailAt k ∧
      ∃ done c, Current k done c s ∧ s.executed = done ∧ s.pending = []
  | .waiting phase => phase = phaseAfter (k / 64) ∧ s.TailAt (k + 1) ∧
      ∃ done c, Current k done c s ∧
        (s.executed = done ∧ (s.pending = [] ∨ s.pending = [c]) ∨
          s.executed = done ++ [c] ∧ s.pending = [])
  | .seen => s.TailAt (k + 1) ∧ s.written.length = k + 1 ∧ s.executed = s.written ∧
      s.pending = []

/-- `k` calls have returned and the rings are in step. -/
structure InStep (k : ℕ) (s : System) : Prop where
  sqHead : s.sqHead = (s.executed.length + s.pending.length) % 64
  cqTail : s.cqTail = s.executed.length % 64
  phase : s.phase = phaseAfter (s.executed.length / 64 + 1)
  slots : ∀ j < 64, phaseOf (s.ioComplete j) = phaseAfter (laps 64 s.executed.length j)
  head : s.ioCompletionHead = BitVec.ofNat 32 (k % 64)
  position : Position k s

theorem index_toNat (k : ℕ) : (BitVec.ofNat 32 (k % 64)).toNat = k % 64 := by
  rw [BitVec.toNat_ofNat]
  omega

theorem index_succ (k : ℕ) : (BitVec.ofNat 32 (k % 64) + 1#32) % 64#32 =
    BitVec.ofNat 32 ((k + 1) % 64) := by
  apply BitVec.eq_of_toNat_eq
  simp only [BitVec.toNat_umod,BitVec.toNat_add,BitVec.toNat_ofNat,Nat.reducePow,Nat.reduceMod]
  omega

theorem phaseAfter_succ_ne (n : ℕ) : phaseAfter (n + 1) ≠ phaseAfter n := by
  intro h
  have hn := congrArg BitVec.toNat h
  simp only [phaseAfter,BitVec.toNat_ofNat] at hn
  omega

theorem phaseAfter_succ (n : ℕ) : phaseAfter n ^^^ 1#32 = phaseAfter (n + 1) := by
  rcases Nat.mod_two_eq_zero_or_one n with h | h
  · rw [phaseAfter,phaseAfter,h,show (n + 1) % 2 = 1 by omega]
    decide
  · rw [phaseAfter,phaseAfter,h,show (n + 1) % 2 = 0 by omega]
    decide

theorem start_inStep : InStep 0 start where
  sqHead := rfl
  cqTail := rfl
  phase := rfl
  slots _ _ := by simp [start,phaseOf,phaseAfter,laps]
  head := rfl
  position := ⟨⟨rfl,rfl⟩,rfl,rfl,rfl⟩

/-- What the driver sees in its slot. -/
theorem InStep.polled (h : InStep k s) :
    s.polled = phaseAfter (laps 64 s.executed.length (k % 64)) := by
  rw [System.polled,h.head,index_toNat]
  exact h.slots _ (Nat.mod_lt _ (by decide))

theorem InStep.polled_of_eq (h : InStep k s) (he : s.executed.length = k) :
    s.polled = phaseAfter (k / 64) := by
  rw [h.polled,he,laps_self]

theorem InStep.polled_of_succ (h : InStep k s) (he : s.executed.length = k + 1) :
    s.polled = phaseAfter (k / 64 + 1) := by
  rw [h.polled,he,laps_succ (by decide) (Nat.mod_lt _ (by decide)),if_pos rfl]

theorem InStep.writeEntry (h : InStep k s) (hpc : s.pc = .idle) (c : Call) :
    InStep k (s.writeEntry c) := by
  have hpos := h.position
  rw [Position,hpc] at hpos
  obtain ⟨htail,hlen,hex,hpend⟩ := hpos
  refine ⟨h.sqHead,h.cqTail,h.phase,h.slots,h.head,htail,s.written,c.entry,⟨rfl,hlen,?_⟩,hex,hpend⟩
  simp only [System.writeEntry,htail.1,index_toNat,Function.update_self]

theorem InStep.samplePhase (h : InStep k s) (hpc : s.pc = .written) : InStep k s.samplePhase := by
  have hpos := h.position
  rw [Position,hpc] at hpos
  obtain ⟨htail,done,c,hc,hex,hpend⟩ := hpos
  have hphase := h.polled_of_eq (hex ▸ hc.length)
  exact ⟨h.sqHead,h.cqTail,h.phase,h.slots,h.head,hphase,htail,done,c,⟨hc.written,hc.length,hc.slot⟩,
    hex,hpend⟩

theorem InStep.ringDoorbell {phase : U32} (h : InStep k s) (hpc : s.pc = .sampled phase) :
    InStep k (s.ringDoorbell phase) := by
  have hpos := h.position
  rw [Position,hpc] at hpos
  obtain ⟨hphase,htail,done,c,hc,hex,hpend⟩ := hpos
  have hnext : (s.ringDoorbell phase).TailAt (k + 1) := by
    simp only [TailAt,System.ringDoorbell,htail.1,index_succ,and_self]
  exact ⟨h.sqHead,h.cqTail,h.phase,h.slots,h.head,hphase,hnext,done,c,
    ⟨hc.written,hc.length,hc.slot⟩,Or.inl ⟨hex,Or.inl hpend⟩⟩

theorem InStep.poll {phase : U32} (h : InStep k s) (hpc : s.pc = .waiting phase) :
    InStep k (s.poll phase) := by
  have hpos := h.position
  rw [Position,hpc] at hpos
  obtain ⟨hphase,htail,done,c,hc,hprog⟩ := hpos
  unfold System.poll
  split
  · exact h
  · rename_i hne
    obtain ⟨hex,-⟩ | ⟨hex,hpend⟩ := hprog
    · exact absurd (hphase ▸ h.polled_of_eq (hex ▸ hc.length)) hne
    · refine ⟨h.sqHead,h.cqTail,h.phase,h.slots,h.head,htail,?_,hex.trans hc.written.symm,hpend⟩
      simp [hc.written,hc.length]

theorem InStep.finish (h : InStep k s) (hpc : s.pc = .seen) : InStep (k + 1) s.finish := by
  have hpos := h.position
  rw [Position,hpc] at hpos
  refine ⟨h.sqHead,h.cqTail,h.phase,h.slots,?_,hpos⟩
  simp only [System.finish,h.head,index_succ]

/-- With every command fetched the controller has nothing to do. -/
theorem InStep.sqHead_eq (h : InStep k s) {m : ℕ} (htail : s.TailAt m)
    (hm : s.executed.length + s.pending.length = m) : s.sqHead = s.ioSubmitDoorbell.toNat := by
  rw [h.sqHead,hm,htail.2,index_toNat]

/-- Only the command of a waiting call can be fetched. -/
theorem InStep.fetchable (h : InStep k s) (hne : s.sqHead ≠ s.ioSubmitDoorbell.toNat) :
    s.pc = .waiting (phaseAfter (k / 64)) ∧ s.TailAt (k + 1) ∧
      ∃ c, Current k s.executed c s ∧ s.pending = [] := by
  have hpos := h.position
  unfold Position at hpos
  split at hpos
  · obtain ⟨htail,hlen,hex,hpend⟩ := hpos
    exact absurd (h.sqHead_eq htail (by simp [hex,hpend,hlen])) hne
  · obtain ⟨htail,done,c,hc,hex,hpend⟩ := hpos
    exact absurd (h.sqHead_eq htail (by simp [hex,hpend,hc.length])) hne
  · obtain ⟨-,htail,done,c,hc,hex,hpend⟩ := hpos
    exact absurd (h.sqHead_eq htail (by simp [hex,hpend,hc.length])) hne
  · rename_i hpc
    obtain ⟨rfl,htail,done,c,hc,⟨hex,hpend | hpend⟩ | ⟨hex,hpend⟩⟩ := hpos
    · exact ⟨hpc,htail,c,hex ▸ hc,hpend⟩
    · exact absurd (h.sqHead_eq htail (by simp [hex,hpend,hc.length])) hne
    · exact absurd (h.sqHead_eq htail (by simp [hex,hpend,hc.length])) hne
  · obtain ⟨htail,hlen,hex,hpend⟩ := hpos
    exact absurd (h.sqHead_eq htail (by simp [hex,hpend,hlen])) hne

/-- Only the command of a waiting call can be completed. -/
theorem InStep.completable (h : InStep k s) {c : SubmissionEntry} (hm : c ∈ s.pending) :
    s.pc = .waiting (phaseAfter (k / 64)) ∧ s.TailAt (k + 1) ∧
      Current k s.executed c s ∧ s.pending = [c] := by
  have hpos := h.position
  unfold Position at hpos
  split at hpos
  · simp [hpos.2.2.2] at hm
  · obtain ⟨-,done,d,-,-,hpend⟩ := hpos
    simp [hpend] at hm
  · obtain ⟨-,-,done,d,-,-,hpend⟩ := hpos
    simp [hpend] at hm
  · rename_i hpc
    obtain ⟨rfl,htail,done,d,hd,⟨hex,hpend | hpend⟩ | ⟨hex,hpend⟩⟩ := hpos
    · simp [hpend] at hm
    · obtain rfl : c = d := by simpa [hpend] using hm
      exact ⟨hpc,htail,hex ▸ hd,hpend⟩
    · simp [hpend] at hm
  · simp [hpos.2.2.2] at hm

theorem InStep.fetch (h : InStep k s) (hne : s.sqHead ≠ s.ioSubmitDoorbell.toNat) :
    InStep k s.fetch := by
  obtain ⟨hpc,htail,c,hc,hpend⟩ := h.fetchable hne
  have hsq := h.sqHead
  rw [hpend,List.length_nil,add_zero,hc.length] at hsq
  have hget : s.fetch.pending = [c] := by simp [System.fetch,hpend,hsq,hc.slot]
  refine ⟨?_,h.cqTail,h.phase,h.slots,h.head,?_⟩
  · rw [hget]
    simp only [System.fetch,hsq,hc.length,List.length_singleton]
    omega
  · have hpos : s.fetch.pc = .waiting (phaseAfter (k / 64)) := hpc
    rw [Position,hpos]
    exact ⟨rfl,htail,s.executed,c,⟨hc.written,hc.length,hc.slot⟩,Or.inl ⟨rfl,Or.inr hget⟩⟩

theorem InStep.complete (h : InStep k s) {c : SubmissionEntry} {e : CompletionEntry}
    (hm : c ∈ s.pending) (he : phaseOf e = s.phase) : InStep k (s.complete c e) := by
  obtain ⟨hpc,htail,hc,hpend⟩ := h.completable hm
  have hget : (s.complete c e).pending = [] := by simp [System.complete,hpend]
  have hex : (s.complete c e).executed.length = k + 1 := by simp [System.complete,hc.length]
  have hk := hc.length
  have hsq := h.sqHead
  have hcq := h.cqTail
  have hph := h.phase
  rw [hk] at hcq hph
  rw [hk,hpend,List.length_singleton] at hsq
  refine ⟨?_,?_,?_,?_,h.head,?_⟩
  · rw [hex,hget]
    exact hsq
  · rw [hex]
    simp only [System.complete,hcq]
    omega
  · rw [hex]
    simp only [System.complete,hcq,hph]
    split
    · rw [phaseAfter_succ,succ_div_of_eq (by omega)]
    · rw [succ_div_of_lt (by omega)]
  · intro j hj
    rw [hex,laps_succ (by decide) hj]
    simp only [System.complete,hcq,Function.update_apply]
    split
    · rw [he,hph]
    · rw [h.slots j hj,hk]
  · have hpos : (s.complete c e).pc = .waiting (phaseAfter (k / 64)) := hpc
    rw [Position,hpos]
    exact ⟨rfl,htail,s.executed,c,⟨hc.written,hc.length,hc.slot⟩,Or.inr ⟨rfl,hget⟩⟩

theorem InStep.step (h : InStep k s) (hs : Step s t) : ∃ k', InStep k' t := by
  cases hs with
  | writeEntry c hpc => exact ⟨k,h.writeEntry hpc c⟩
  | samplePhase hpc => exact ⟨k,h.samplePhase hpc⟩
  | ringDoorbell hpc => exact ⟨k,h.ringDoorbell hpc⟩
  | poll hpc => exact ⟨k,h.poll hpc⟩
  | finish hpc => exact ⟨k + 1,h.finish hpc⟩
  | fetch hne => exact ⟨k,h.fetch hne⟩
  | complete hm he => exact ⟨k,h.complete hm he⟩

theorem inStep_of_reachable (h : Relation.ReflTransGen Step start s) : ∃ k, InStep k s := by
  induction h with
  | refl => exact ⟨0,start_inStep⟩
  | tail _ hs ih =>
    obtain ⟨k,hk⟩ := ih
    exact hk.step hs

theorem InStep.in_order (h : InStep k s) : s.executed ++ s.pending <+: s.written := by
  have hpos := h.position
  unfold Position at hpos
  split at hpos
  · rw [hpos.2.2.1,hpos.2.2.2,List.append_nil]
  · obtain ⟨-,done,c,hc,hex,hpend⟩ := hpos
    simp [hex,hpend,hc.written]
  · obtain ⟨-,-,done,c,hc,hex,hpend⟩ := hpos
    simp [hex,hpend,hc.written]
  · obtain ⟨-,-,done,c,hc,⟨hex,hpend | hpend⟩ | ⟨hex,hpend⟩⟩ := hpos <;>
      simp [hex,hpend,hc.written]
  · rw [hpos.2.2.1,hpos.2.2.2,List.append_nil]

/-- The commands of the calls that have returned are executed. -/
theorem InStep.le_executed (h : InStep k s) : k ≤ s.executed.length := by
  have hpos := h.position
  unfold Position at hpos
  split at hpos
  · rw [hpos.2.2.1,hpos.2.1]
  · obtain ⟨-,done,c,hc,hex,-⟩ := hpos
    rw [hex,hc.length]
  · obtain ⟨-,-,done,c,hc,hex,-⟩ := hpos
    rw [hex,hc.length]
  · obtain ⟨-,-,done,c,hc,⟨hex,-⟩ | ⟨hex,-⟩⟩ := hpos
    · rw [hex,hc.length]
    · rw [hex,List.length_append,hc.length]
      exact Nat.le_add_right k _
  · rw [hpos.2.2.1,hpos.2.1]
    exact Nat.le_succ k

theorem InStep.executed_of_seen (h : InStep k s) (hpc : s.pc = .seen) :
    s.executed.length = k + 1 := by
  have hpos := h.position
  rw [Position,hpc] at hpos
  rw [hpos.2.2.1,hpos.2.1]

theorem InStep.poll_seen_iff (h : InStep k s) {phase : U32} (hpc : s.pc = .waiting phase) :
    (s.poll phase).pc = .seen ↔ s.executed = s.written := by
  have hpos := h.position
  rw [Position,hpc] at hpos
  obtain ⟨rfl,-,done,c,hc,hprog⟩ := hpos
  obtain ⟨hex,-⟩ | ⟨hex,-⟩ := hprog
  · have hsame := h.polled_of_eq (hex ▸ hc.length)
    rw [System.poll,if_pos hsame]
    simp [hpc,hex,hc.written]
  · have hlen : s.executed.length = k + 1 := by simp [hex,hc.length]
    have hdiff : s.polled ≠ phaseAfter (k / 64) := by
      rw [h.polled_of_succ hlen]
      exact phaseAfter_succ_ne _
    rw [System.poll,if_neg hdiff]
    simp [hex,hc.written]

/-- Between calls both indices stand at the number of calls modulo 64 and the
controller has executed every command once, in order. It never executes anything
else, and the wait loop exits at a poll exactly if the command of its own call has
been completed by then. -/
theorem rings_in_step (h : Relation.ReflTransGen Step start s) :
    (s.pc = .idle → s.ioSubmissionTail.toNat = s.written.length % 64 ∧
      s.ioCompletionHead.toNat = s.written.length % 64 ∧ s.executed = s.written) ∧
    s.executed ++ s.pending <+: s.written ∧
    ∀ phase, s.pc = .waiting phase → ((s.poll phase).pc = .seen ↔ s.executed = s.written) := by
  obtain ⟨k,hk⟩ := inStep_of_reachable h
  refine ⟨fun hpc => ?_,hk.in_order,fun phase hpc => hk.poll_seen_iff hpc⟩
  have hpos := hk.position
  rw [Position,hpc] at hpos
  obtain ⟨htail,rfl,hex,-⟩ := hpos
  rw [htail.1,hk.head,index_toNat]
  exact ⟨rfl,rfl,hex⟩

/-- One call from the start to its return. -/
def oneCall : System :=
  let s := (((start.writeEntry (.read 5#64 1#16 0x1000#64)).samplePhase.ringDoorbell 0#32).fetch)
  ((s.complete (nvmeReadEntry 5#64 1#16 0x1000#64) { dword3 := 0x10000#32 }).poll 0#32).finish

theorem oneCall_in_step : Relation.ReflTransGen Step start oneCall ∧
    oneCall.ioSubmissionTail.toNat = 1 ∧ oneCall.ioCompletionHead.toNat = 1 ∧
    oneCall.executed = [nvmeReadEntry 5#64 1#16 0x1000#64] := by
  have hrun : Relation.ReflTransGen Step start oneCall := by
    refine ((((((Relation.ReflTransGen.single (.writeEntry _ rfl)).tail (.samplePhase rfl)).tail
      (@Step.ringDoorbell _ 0#32 rfl)).tail (.fetch ?_)).tail (.complete ?_ ?_)).tail
      (@Step.poll _ 0#32 ?_)).tail (.finish ?_)
    · decide
    · exact List.mem_singleton.mpr rfl
    · rfl
    · rfl
    · rfl
  have h := (rings_in_step hrun).1 rfl
  exact ⟨hrun,h.1,h.2.1,h.2.2⟩

end Lios.Nvme.System

import Mathlib.Data.List.GetD
import Lios.File.NvmeRings

/-! # The status that a call reports

A call waits for its completion slot, moves its index to the next slot and reads the status there.
That slot holds the entry of the command 63 calls ago, or nothing yet. What the controller has
posted and what the calls have returned is written down beside the run, and the results of a run
are those of the posted entries 63 commands back.
-/
namespace Lios.Nvme

/-- The status code type and the status code of an entry are zero. -/
def CompletionEntry.Succeeded (e : CompletionEntry) : Prop :=
  (e.dword3 >>> 25) &&& 7#32 = 0#32 ∧ (e.dword3 >>> 17) &&& 0xFF#32 = 0#32

instance (e : CompletionEntry) : Decidable e.Succeeded := inferInstanceAs (Decidable (_ ∧ _))

theorem and_shift_eq_zero_iff (d : U32) (k m : ℕ) (hm : m < 2 ^ 32) :
    (d.setWidth 64 >>> k) &&& BitVec.ofNat 64 m = 0#64 ↔ (d >>> k) &&& BitVec.ofNat 32 m = 0#32 := by
  have hd := d.isLt
  have hwide : (BitVec.ofNat 64 m).toNat = m := Nat.mod_eq_of_lt (by omega)
  have hnarrow : (BitVec.ofNat 32 m).toNat = m := Nat.mod_eq_of_lt hm
  rw [← BitVec.toNat_inj,← BitVec.toNat_inj,BitVec.toNat_and,BitVec.toNat_and,
    BitVec.toNat_ushiftRight,BitVec.toNat_ushiftRight,BitVec.toNat_setWidth,hwide,hnarrow,
    Nat.mod_eq_of_lt (show d.toNat < 2 ^ 64 by omega)]
  rfl

theorem completionCheckSuccess_iff (e : CompletionEntry) :
    completionCheckSuccess (e.dword3.setWidth 64) = true ↔ e.Succeeded := by
  rw [CompletionEntry.Succeeded,← and_shift_eq_zero_iff e.dword3 25 7 (by decide),
    ← and_shift_eq_zero_iff e.dword3 17 0xFF (by decide),completionCheckSuccess]
  split_ifs with htype hcode
  · exact iff_of_false (by decide) fun h => htype h.1
  · exact iff_of_false (by decide) fun h => hcode h.2
  · exact iff_of_true rfl ⟨not_not.mp htype,not_not.mp hcode⟩

/-- A run with the commands completed so far, each with its entry, and the values returned. -/
structure Logged where
  sys : System
  posted : List (SubmissionEntry × CompletionEntry)
  results : List Bool

namespace Logged

def start : Logged := ⟨System.start,[],[]⟩

/-- The steps of `System.Step`; a completion is noted with its entry and a return with its
value. -/
inductive Step : Logged → Logged → Prop where
  | writeEntry {x : Logged} (c : Call) : x.sys.pc = .idle →
      Step x { x with sys := x.sys.writeEntry c }
  | samplePhase {x : Logged} : x.sys.pc = .written → Step x { x with sys := x.sys.samplePhase }
  | ringDoorbell {x : Logged} {phase : U32} : x.sys.pc = .sampled phase →
      Step x { x with sys := x.sys.ringDoorbell phase }
  | poll {x : Logged} {phase : U32} : x.sys.pc = .waiting phase →
      Step x { x with sys := x.sys.poll phase }
  | finish {x : Logged} : x.sys.pc = .seen →
      Step x { x with sys := x.sys.finish, results := x.results ++ [x.sys.finish.result] }
  | fetch {x : Logged} : x.sys.sqHead ≠ x.sys.ioSubmitDoorbell.toNat →
      Step x { x with sys := x.sys.fetch }
  | complete {x : Logged} {c : SubmissionEntry} {e : CompletionEntry} : c ∈ x.sys.pending →
      System.phaseOf e = x.sys.phase →
      Step x { x with sys := x.sys.complete c e, posted := x.posted ++ [(c,e)] }

/-- The entry that was posted for the `i`-th command. -/
def entry (x : Logged) (i : ℕ) : CompletionEntry := (x.posted.map Prod.snd).getD i {}

/-- What the `i`-th call returns: the success of the entry 63 commands back. -/
def verdict (x : Logged) (i : ℕ) : Bool :=
  if i < 63 then true else decide (x.entry (i - 63)).Succeeded

/-- After `k` calls the ring holds what was posted, and the results are known. -/
structure Account (k : ℕ) (x : Logged) : Prop where
  inStep : System.InStep k x.sys
  commands : x.posted.map Prod.fst = x.sys.executed
  ring : HoldsLog 64 {} x.sys.ioComplete (x.posted.map Prod.snd)
  results : x.results = (List.range k).map x.verdict

variable {x y : Logged} {k : ℕ}

theorem start_account : Account 0 start where
  inStep := System.start_inStep
  commands := rfl
  ring := ⟨fun i hi => absurd hi (Nat.not_lt_zero i),fun _ _ _ => rfl⟩
  results := rfl

theorem Account.length_posted (h : Account k x) : x.posted.length = x.sys.executed.length := by
  rw [← h.commands,List.length_map]

theorem entry_append {p : SubmissionEntry × CompletionEntry} {s : System} {i : ℕ}
    (hi : i < x.posted.length) :
    entry { x with sys := s, posted := x.posted ++ [p] } i = x.entry i := by
  rw [entry,entry,List.map_append,List.getD_append _ _ _ _ (by rwa [List.length_map])]

theorem Account.complete {c : SubmissionEntry} {e : CompletionEntry} (h : Account k x)
    (hc : c ∈ x.sys.pending) (he : System.phaseOf e = x.sys.phase) :
    Account k { x with sys := x.sys.complete c e, posted := x.posted ++ [(c,e)] } where
  inStep := h.inStep.complete hc he
  commands := by
    rw [List.map_append,h.commands]
    rfl
  ring := by
    have hslot : x.sys.cqTail = (x.posted.map Prod.snd).length % 64 := by
      rw [h.inStep.cqTail,List.length_map,h.length_posted]
    rw [List.map_append]
    change HoldsLog 64 {} (Function.update x.sys.ioComplete x.sys.cqTail e) _
    rw [hslot]
    exact h.ring.write e
  results := by
    refine h.results.trans (List.map_congr_left fun i hi => ?_)
    have hk := h.inStep.le_executed
    have hlen := h.length_posted
    rw [List.mem_range] at hi
    rw [verdict,verdict]
    split
    · rfl
    · rw [entry_append (by omega)]

/-- The status is read in the slot behind the one that was waited for. -/
theorem Account.finish (h : Account k x) (hpc : x.sys.pc = .seen) :
    Account (k + 1) { x with sys := x.sys.finish, results := x.results ++ [x.sys.finish.result] } where
  inStep := h.inStep.finish hpc
  commands := h.commands
  ring := h.ring
  results := by
    have hlen : (x.posted.map Prod.snd).length = k + 1 := by
      rw [List.length_map,h.length_posted,h.inStep.executed_of_seen hpc]
    have hslot := h.ring.next (by decide)
    rw [hlen] at hslot
    have hresult : x.sys.finish.result = x.verdict k := by
      rw [System.finish,h.inStep.head,System.index_succ,System.index_toNat,hslot,verdict]
      by_cases hk : k < 63
      · rw [if_neg (by omega),if_pos hk]
        rfl
      · rw [if_pos (by omega),if_neg hk,show k + 1 - 64 = k - 63 by omega,Bool.eq_iff_iff,
          decide_eq_true_iff]
        exact completionCheckSuccess_iff _
    rw [h.results,hresult,List.range_succ,List.map_append]
    rfl

theorem Account.step (h : Account k x) (hs : Step x y) : ∃ k', Account k' y := by
  cases hs with
  | writeEntry c hpc => exact ⟨k,h.inStep.writeEntry hpc c,h.commands,h.ring,h.results⟩
  | samplePhase hpc => exact ⟨k,h.inStep.samplePhase hpc,h.commands,h.ring,h.results⟩
  | ringDoorbell hpc => exact ⟨k,h.inStep.ringDoorbell hpc,h.commands,h.ring,h.results⟩
  | @poll phase hpc =>
    refine ⟨k,h.inStep.poll hpc,?_,?_,h.results⟩
    · rw [h.commands]
      simp only [System.poll]
      split <;> rfl
    · have hring : (x.sys.poll phase).ioComplete = x.sys.ioComplete := by
        rw [System.poll]
        split <;> rfl
      rw [hring]
      exact h.ring
  | finish hpc => exact ⟨k + 1,h.finish hpc⟩
  | fetch hne => exact ⟨k,h.inStep.fetch hne,h.commands,h.ring,h.results⟩
  | complete hc he => exact ⟨k,h.complete hc he⟩

theorem account_of_reachable (h : Relation.ReflTransGen Step start x) : ∃ k, Account k x := by
  induction h with
  | refl => exact ⟨0,start_account⟩
  | tail _ hs ih =>
    obtain ⟨k,hk⟩ := ih
    exact hk.step hs

/-- In every state of every run, the entries were posted for the commands in their order, and all
calls that have returned reported the status of their own command, if and only if the first 63
commands succeeded and each later one succeeded exactly if the one 63 commands before it did. -/
theorem status_reported_iff (h : Relation.ReflTransGen Step start x) :
    x.posted.map Prod.fst <+: x.sys.written ∧ x.results.length ≤ x.posted.length ∧
    ((∀ i < x.results.length, x.results[i]? = some true ↔ (x.entry i).Succeeded) ↔
      ∀ i < x.results.length,
        ((x.entry i).Succeeded ↔ (63 ≤ i → (x.entry (i - 63)).Succeeded))) := by
  obtain ⟨k,hk⟩ := account_of_reachable h
  have hlen : x.results.length = k := by rw [hk.results,List.length_map,List.length_range]
  refine ⟨?_,?_,?_⟩
  · rw [hk.commands]
    exact (List.prefix_append _ _).trans hk.inStep.in_order
  · rw [hlen,hk.length_posted]
    exact hk.inStep.le_executed
  · refine forall₂_congr fun i hi => ?_
    have hresult : x.results[i]? = some true ↔ (63 ≤ i → (x.entry (i - 63)).Succeeded) := by
      rw [hlen] at hi
      rw [hk.results,List.getElem?_map,List.getElem?_range hi,Option.map_some,Option.some_inj,
        verdict]
      split
      · exact iff_of_true rfl fun hle => by omega
      · rename_i hle
        rw [decide_eq_true_iff]
        exact ⟨fun hs _ => hs,fun hs => hs (by omega)⟩
    rw [hresult]
    exact Iff.comm

/-- The first call, waiting, after the controller has posted the entry `e`. -/
def waiting (e : CompletionEntry) : System :=
  ((System.start.writeEntry (.read 5#64 1#16 0x1000#64)).samplePhase.ringDoorbell 0#32).fetch.complete
    (nvmeReadEntry 5#64 1#16 0x1000#64) e

/-- The first call has returned. -/
def oneCall (e : CompletionEntry) : Logged where
  sys := ((waiting e).poll 0#32).finish
  posted := [(nvmeReadEntry 5#64 1#16 0x1000#64,e)]
  results := [((waiting e).poll 0#32).finish.result]

theorem oneCall_reachable {e : CompletionEntry} (he : System.phaseOf e = 1#32) :
    Relation.ReflTransGen Step start (oneCall e) := by
  have hpolled : (waiting e).polled = 1#32 := he
  have hseen : ((waiting e).poll 0#32).pc = .seen := by
    rw [System.poll,if_neg (by rw [hpolled]; decide)]
  have hwait : Relation.ReflTransGen Step start
      ⟨waiting e,[(nvmeReadEntry 5#64 1#16 0x1000#64,e)],[]⟩ := by
    refine ((((Relation.ReflTransGen.single (.writeEntry _ rfl)).tail (.samplePhase rfl)).tail
      (@Step.ringDoorbell _ 0#32 rfl)).tail (.fetch ?_)).tail (.complete ?_ he)
    · decide
    · exact List.mem_singleton.mpr rfl
  exact (hwait.tail (@Step.poll _ 0#32 rfl)).tail (.finish hseen)

/-- A command that succeeds is reported as one. -/
theorem oneCall_reported : (oneCall { dword3 := 0x10000#32 }).results[0]? = some true ↔
    ((oneCall { dword3 := 0x10000#32 }).entry 0).Succeeded := by
  refine (status_reported_iff (oneCall_reachable (by decide))).2.2.mpr (fun i hi => ?_) 0 (by decide)
  obtain rfl : i = 0 := Nat.lt_one_iff.mp hi
  decide

/-- A first command that fails with the status code 1 is reported as a success. -/
theorem oneCall_not_reported :
    Relation.ReflTransGen Step start (oneCall { dword3 := 0x30000#32 }) ∧
    (oneCall { dword3 := 0x30000#32 }).results = [true] ∧
    ¬((oneCall { dword3 := 0x30000#32 }).entry 0).Succeeded :=
  ⟨oneCall_reachable (by decide),by decide,by decide⟩

end Logged

end Lios.Nvme

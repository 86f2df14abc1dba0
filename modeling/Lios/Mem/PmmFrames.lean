import Mathlib.Data.Multiset.AddSub
import Mathlib.Logic.Relation
import Lios.Mem.Pmm

/-! # Frames are conserved by the physical memory manager

Whatever becomes of `pmm_free_list`, the two free lists stay null-terminated and
disjoint: an allocation relinks only the head it removes, and a free relinks a
node whose address is outstanding, hence one that is on neither free list. The
argument speaks only about addresses, so it asks nothing of `pmm_free_list`.
-/
namespace Lios.Pmm

/-- The free lists and the outstanding addresses make up the given frames. -/
structure Ledger (frames : Multiset PhysicalAddress) (s : Pmm) (out : List PhysicalAddress)
    (ls hs : List U64) : Prop where
  low : s.Low ls
  high : s.High hs
  account : (↑(ls.map s.addr) + ↑(hs.map s.addr) + ↑out : Multiset PhysicalAddress) = frames

/-- The low list holds frames below 2 GiB, the high list the others. -/
def Banded (s : Pmm) (ls hs : List U64) : Prop :=
  (∀ p ∈ ls, s.addr p < twoGB) ∧ ∀ p ∈ hs, twoGB ≤ s.addr p

section Ledger
variable {frames : Multiset PhysicalAddress} {s t : Pmm} {out : List PhysicalAddress}
  {ls hs : List U64} {a : PhysicalAddress}

theorem Ledger.addresses_nodup (h : Ledger frames s out ls hs) (hf : frames.Nodup) :
    (ls.map s.addr ++ hs.map s.addr ++ out).Nodup := by
  rw [← h.account] at hf
  exact hf

theorem Ledger.nodes_nodup (h : Ledger frames s out ls hs) (hf : frames.Nodup) :
    (ls ++ hs).Nodup := by
  have hn := (List.nodup_append.mp (h.addresses_nodup hf)).1
  rw [← List.map_append] at hn
  exact hn.of_map s.addr

theorem Ledger.out_nodup (h : Ledger frames s out ls hs) (hf : frames.Nodup) : out.Nodup :=
  (List.nodup_append.mp (h.addresses_nodup hf)).2.1

/-- A node that carries an outstanding address is on neither free list. -/
theorem Ledger.notMem_of_outstanding (h : Ledger frames s out ls hs) (hf : frames.Nodup)
    {p : U64} (hp : s.addr p ∈ out) : p ∉ ls ∧ p ∉ hs := by
  have hd := (List.nodup_append.mp (h.addresses_nodup hf)).2.2
  constructor
  · intro hm
    exact hd _ (List.mem_append_left _ (List.mem_map_of_mem hm)) _ hp rfl
  · intro hm
    exact hd _ (List.mem_append_right _ (List.mem_map_of_mem hm)) _ hp rfl

theorem Ledger.allocLow (h : Ledger frames s out ls hs) (hf : frames.Nodup)
    (he : pmmAllocLow s = .done a t) :
    ∃ rest, ls = s.pmmLow :: rest ∧ Ledger frames t (a :: out) rest hs ∧ t.addr = s.addr := by
  obtain ⟨hne,rfl,rfl⟩ := pmmAllocLow_eq_done.mp he
  obtain ⟨rest,rfl,hrest⟩ := h.low.exists_cons hne
  have hn := h.nodes_nodup hf
  simp only [List.cons_append,List.nodup_cons,List.mem_append,not_or] at hn
  obtain ⟨⟨hnl,hnh⟩,-⟩ := hn
  refine ⟨rest,rfl,⟨?_,?_,?_⟩,addr_setNext ..⟩
  · exact hrest.of_notMem hnl (fun y hy => next_setNext_of_ne s _ hy)
  · exact h.high.of_notMem hnh (fun y hy => next_setNext_of_ne s _ hy)
  · rw [← h.account]
    change (↑(rest.map (s.setNext _ _).addr) + ↑(hs.map (s.setNext _ _).addr) + _ :
      Multiset PhysicalAddress) = _
    simp only [addr_setNext,List.map_cons,← Multiset.cons_coe,Multiset.add_cons,
      Multiset.cons_add]

theorem Ledger.takeHigh (h : Ledger frames s out ls hs) (hf : frames.Nodup)
    (hne : s.pmmHigh ≠ 0) (he : Pmm.takeHigh s = .done a t) :
    ∃ rest, hs = s.pmmHigh :: rest ∧ Ledger frames t (a :: out) ls rest ∧ t.addr = s.addr := by
  cases he
  obtain ⟨rest,rfl,hrest⟩ := h.high.exists_cons hne
  have hn := h.nodes_nodup hf
  rw [List.nodup_middle] at hn
  simp only [List.nodup_cons,List.mem_append,not_or] at hn
  obtain ⟨⟨hnl,hnh⟩,-⟩ := hn
  refine ⟨rest,rfl,⟨?_,?_,?_⟩,addr_setNext ..⟩
  · exact h.low.of_notMem hnl (fun y hy => next_setNext_of_ne s _ hy)
  · exact hrest.of_notMem hnh (fun y hy => next_setNext_of_ne s _ hy)
  · rw [← h.account]
    change (↑(ls.map (s.setNext _ _).addr) + ↑(rest.map (s.setNext _ _).addr) + _ :
      Multiset PhysicalAddress) = _
    simp only [addr_setNext,List.map_cons,← Multiset.cons_coe,Multiset.add_cons,
      Multiset.cons_add]

/-- An outstanding address returns to the list its band says. -/
theorem Ledger.free (h : Ledger frames s out ls hs) (hf : frames.Nodup) (ha : a ∈ out)
    {fuel : ℕ} (he : pmmFree fuel a s = .done () t) :
    ∃ cur, s.addr cur = a ∧ t.addr = s.addr ∧
      if twoGB ≤ a then Ledger frames t (out.erase a) ls (cur :: hs)
      else Ledger frames t (out.erase a) (cur :: ls) hs := by
  obtain ⟨cur,-,hc,rfl,rfl⟩ := pmmFree_eq_done.mp he
  obtain ⟨hnl,hnh⟩ := h.notMem_of_outstanding hf ha
  have hout : (out : Multiset PhysicalAddress) = s.addr cur ::ₘ ↑(out.erase (s.addr cur)) := by
    rw [← Multiset.coe_erase,Multiset.cons_erase (by simpa using ha)]
  have hacc := h.account
  rw [hout] at hacc
  by_cases hm : twoGB ≤ s.addr cur
  · simp only [if_pos hm]
    refine ⟨cur,rfl,addr_setNext ..,⟨?_,?_,?_⟩⟩
    · exact h.low.of_notMem hnl (fun y hy => next_setNext_of_ne s _ hy)
    · refine linked_cons.mpr ⟨rfl,hc,?_⟩
      change Linked 0 (s.setNext cur s.pmmHigh).next ((s.setNext cur s.pmmHigh).next cur) hs
      rw [next_setNext_self]
      exact h.high.of_notMem hnh (fun y hy => next_setNext_of_ne s _ hy)
    · rw [← hacc]
      change (↑(ls.map (s.setNext _ _).addr) + ↑((cur :: hs).map (s.setNext _ _).addr) + _ :
        Multiset PhysicalAddress) = _
      simp only [addr_setNext,List.map_cons,← Multiset.cons_coe,Multiset.add_cons,
        Multiset.cons_add]
  · simp only [if_neg hm]
    refine ⟨cur,rfl,addr_setNext ..,⟨?_,?_,?_⟩⟩
    · refine linked_cons.mpr ⟨rfl,hc,?_⟩
      change Linked 0 (s.setNext cur s.pmmLow).next ((s.setNext cur s.pmmLow).next cur) ls
      rw [next_setNext_self]
      exact h.low.of_notMem hnl (fun y hy => next_setNext_of_ne s _ hy)
    · exact h.high.of_notMem hnh (fun y hy => next_setNext_of_ne s _ hy)
    · rw [← hacc]
      change (↑((cur :: ls).map (s.setNext _ _).addr) + ↑(hs.map (s.setNext _ _).addr) + _ :
        Multiset PhysicalAddress) = _
      simp only [addr_setNext,List.map_cons,← Multiset.cons_coe,Multiset.add_cons,
        Multiset.cons_add]

end Ledger

section Calls
variable {σ : Type} (L : Lens σ Pmm) (pageUnmap : U64 → σ → Outcome σ Unit)

/-- One completed call, with the addresses handed out and not given back since.
A free names one of them. -/
inductive Call : σ × List PhysicalAddress → σ × List PhysicalAddress → Prop
  | allocLow {s t : σ} {out : List PhysicalAddress} {a : PhysicalAddress} :
      L.lift pmmAllocLow s = .done a t → Call (s,out) (t,a :: out)
  | allocHigh {s t : σ} {out : List PhysicalAddress} {a : PhysicalAddress} :
      pmmAllocHigh L pageUnmap s = .done a t → Call (s,out) (t,a :: out)
  | free {s t : σ} {out : List PhysicalAddress} {a : PhysicalAddress} {fuel : ℕ} :
      a ∈ out → L.lift (pmmFree fuel a) s = .done () t → Call (s,out) (t,out.erase a)

/-- Unmapping an address gives no frame back: the manager is left as it was. -/
def FreesNoFrame : Prop := ∀ a s t, pageUnmap a s = .done () t → L.get t = L.get s

/-- What every completed call preserves; `b` says whether the bands were kept
apart at the start. -/
def Conserved (frames : Multiset PhysicalAddress) (b : Prop) (st : σ × List PhysicalAddress) :
    Prop :=
  ∃ ls hs, Ledger frames (L.get st.1) st.2 ls hs ∧ (b → Banded (L.get st.1) ls hs)

variable {L pageUnmap}

theorem Conserved.call {frames : Multiset PhysicalAddress} (hf : frames.Nodup) {b : Prop}
    (hu : FreesNoFrame L pageUnmap) {st st' : σ × List PhysicalAddress}
    (h : Conserved L frames b st) (hc : Call L pageUnmap st st') :
    Conserved L frames b st' := by
  obtain ⟨ls,hs,hl,hb⟩ := h
  cases hc with
  | allocLow he =>
    obtain ⟨p,hp,rfl⟩ := Lens.lift_eq_done.mp he
    obtain ⟨rest,rfl,hl',haddr⟩ := hl.allocLow hf hp
    refine ⟨rest,hs,by simpa using hl',fun h => ?_⟩
    simp only [Lens.get_set,Banded,haddr]
    exact ⟨fun p hp => (hb h).1 p (List.mem_cons_of_mem _ hp),(hb h).2⟩
  | allocHigh he =>
    unfold pmmAllocHigh at he
    split at he
    · obtain ⟨low,s₁,h₁,he⟩ := Outcome.bind_eq_done.mp he
      obtain ⟨_,s₂,h₂,⟨⟩⟩ := Outcome.bind_eq_done.mp he
      obtain ⟨p,hp,rfl⟩ := Lens.lift_eq_done.mp h₁
      obtain ⟨rest,rfl,hl',haddr⟩ := hl.allocLow hf hp
      have hget := hu _ _ _ h₂
      rw [Lens.get_set] at hget
      refine ⟨rest,hs,by simpa [hget] using hl',fun h => ?_⟩
      simp only [hget,Banded,haddr]
      exact ⟨fun p hp => (hb h).1 p (List.mem_cons_of_mem _ hp),(hb h).2⟩
    · rename_i hne
      obtain ⟨p,hp,rfl⟩ := Lens.lift_eq_done.mp he
      obtain ⟨rest,rfl,hl',haddr⟩ := hl.takeHigh hf hne hp
      refine ⟨ls,rest,by simpa using hl',fun h => ?_⟩
      simp only [Lens.get_set,Banded,haddr]
      exact ⟨(hb h).1,fun p hp => (hb h).2 p (List.mem_cons_of_mem _ hp)⟩
  | @free _ _ _ a _ ha he =>
    obtain ⟨p,hp,rfl⟩ := Lens.lift_eq_done.mp he
    obtain ⟨cur,hcur,haddr,hl'⟩ := hl.free hf ha hp
    by_cases hm : twoGB ≤ a
    · rw [if_pos hm] at hl'
      refine ⟨ls,cur :: hs,by simpa using hl',fun h => ?_⟩
      simp only [Lens.get_set,Banded,haddr,List.forall_mem_cons]
      exact ⟨(hb h).1,hcur ▸ hm,(hb h).2⟩
    · rw [if_neg hm] at hl'
      refine ⟨cur :: ls,hs,by simpa using hl',fun h => ?_⟩
      simp only [Lens.get_set,Banded,haddr,List.forall_mem_cons]
      exact ⟨⟨hcur ▸ BitVec.not_le.mp hm,(hb h).1⟩,(hb h).2⟩

/-- No frame is handed out twice and none is lost: in every state reached by
completed calls the outstanding addresses are distinct, the two free lists are
acyclic and disjoint, the three together are the frames of the start, and the
lists stay on their sides of 2 GiB. -/
theorem frames_conserved (hu : FreesNoFrame L pageUnmap) {s₀ s : σ} {ls₀ hs₀ : List U64}
    (hlow : (L.get s₀).Low ls₀) (hhigh : (L.get s₀).High hs₀)
    (haddr : ((ls₀ ++ hs₀).map (L.get s₀).addr).Nodup) {out : List PhysicalAddress}
    (hrun : Relation.ReflTransGen (Call L pageUnmap) (s₀,[]) (s,out)) :
    out.Nodup ∧ ∃ ls hs, (L.get s).Low ls ∧ (L.get s).High hs ∧ ls.Nodup ∧ hs.Nodup ∧
      List.Disjoint ls hs ∧
      (↑(ls.map (L.get s).addr) + ↑(hs.map (L.get s).addr) + ↑out : Multiset PhysicalAddress) =
        ↑(ls₀.map (L.get s₀).addr) + ↑(hs₀.map (L.get s₀).addr) ∧
      (Banded (L.get s₀) ls₀ hs₀ → Banded (L.get s) ls hs) := by
  have hf : (↑(ls₀.map (L.get s₀).addr) + ↑(hs₀.map (L.get s₀).addr) :
      Multiset PhysicalAddress).Nodup := by
    rw [List.map_append] at haddr
    exact haddr
  have hinv : Conserved L (↑(ls₀.map (L.get s₀).addr) + ↑(hs₀.map (L.get s₀).addr))
      (Banded (L.get s₀) ls₀ hs₀) (s,out) := by
    generalize hst : (s,out) = st at hrun
    clear hst
    induction hrun with
    | refl => exact ⟨ls₀,hs₀,⟨hlow,hhigh,by simp⟩,id⟩
    | tail _ hc ih => exact ih.call hf hu hc
  obtain ⟨ls,hs,hl,hb⟩ := hinv
  have hn := List.nodup_append.mp (hl.nodes_nodup hf)
  refine ⟨hl.out_nodup hf,ls,hs,hl.low,hl.high,hn.1,hn.2.1,?_,hl.account,hb⟩
  exact fun p hp hp' => hn.2.2 p hp p hp' rfl

end Calls

/-- Two low frames and a high one, none of them allocated yet. -/
def sample : Pmm where
  node p := if p = 1#64 then ⟨2#64,0x1000#64⟩ else if p = 2#64 then ⟨0#64,0x2000#64⟩
    else if p = 3#64 then ⟨0#64,0x80000000#64⟩ else ⟨0#64,0#64⟩
  pmmLow := 1#64
  pmmHigh := 3#64
  pmmFreeList := 0#64

theorem sample_low : sample.Low [1#64,2#64] := by
  simp [Low,linked_cons,next,sample]

theorem sample_high : sample.High [3#64] := by
  simp [High,linked_cons,next,sample]

/-- The second high allocation of this run falls back to a low frame. -/
theorem frames_conserved_sample : ∃ s,
    Relation.ReflTransGen (Call (Lens.id Pmm) (fun _ s => .done () s)) (sample,[])
      (s,[0x1000#64]) ∧
    ∃ ls hs, s.Low ls ∧ s.High hs ∧
      (↑(ls.map s.addr) + ↑(hs.map s.addr) + ↑[0x1000#64] : Multiset PhysicalAddress) =
        {0x1000#64,0x2000#64,0x80000000#64} := by
  have h₁ : Call (Lens.id Pmm) (fun _ s => .done () s) (sample,[]) (_,[0x80000000#64]) :=
    .allocHigh rfl
  have h₂ : Call (Lens.id Pmm) (fun _ s => .done () s) (_,[0x80000000#64])
      (_,[0x1000#64,0x80000000#64]) :=
    .allocHigh (s := (takeHigh sample).stateD sample) rfl
  have hrun := ((Relation.ReflTransGen.single h₁).tail h₂).tail
    (@Call.free _ _ _ _ _ _ 0x80000000#64 3 (by decide) rfl)
  have h := frames_conserved (fun _ _ _ h => by cases h; rfl) sample_low sample_high
    (by decide) hrun
  obtain ⟨-,ls,hs,hl,hh,-,-,-,hacc,-⟩ := h
  exact ⟨_,hrun,ls,hs,hl,hh,hacc⟩

end Lios.Pmm

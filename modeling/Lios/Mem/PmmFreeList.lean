import Mathlib.Tactic.IntervalCases
import Lios.Lib.Runs
import Lios.Mem.PmmFrames

/-! # When `pmm_free` accepts exactly the outstanding frames

While nothing has been given back, `pmm_free_list` is the list of the outstanding
frames, and a free is accepted exactly for these. The first completed free leaves
its node in that list, so the same address is accepted a second time: from then
on the list is no record of what is outstanding.
-/
namespace Lios.Pmm

/-- The calls of a run. The list of `allocHigh` is what the `page_unmap` of the
fall-back gives back through `kfree_page`, in order: it depends on the page
tables, which are not part of this state. -/
inductive Op where
  | allocLow
  | allocHigh (frees : List PhysicalAddress)
  | free (mem : PhysicalAddress)

def freeAll (fuel : ℕ) : List PhysicalAddress → Pmm → Outcome Pmm Unit
  | [], s => .done () s
  | a :: as, s => (pmmFree fuel a s).bind fun _ s => freeAll fuel as s

/-- A completed call, with the addresses handed out and not given back since. -/
inductive Step : Pmm × List PhysicalAddress → Op → Pmm × List PhysicalAddress → Prop
  | allocLow {s t : Pmm} {out : List PhysicalAddress} {a : PhysicalAddress} :
      pmmAllocLow s = .done a t → Step (s,out) .allocLow (t,a :: out)
  | allocHigh {s t : Pmm} {out frees : List PhysicalAddress} {a : PhysicalAddress} {fuel : ℕ} :
      pmmAllocHigh (Lens.id Pmm) (fun _ => freeAll fuel frees) s = .done a t →
      Step (s,out) (.allocHigh frees)
        (t,if s.pmmHigh = 0 then (a :: out).diff frees else a :: out)
  | free {s t : Pmm} {out : List PhysicalAddress} {a : PhysicalAddress} {fuel : ℕ} :
      pmmFree fuel a s = .done () t → Step (s,out) (.free a) (t,out.erase a)

/-- The call gives a frame back, by itself or through the fall-back's unmapping. -/
def Frees (st : Pmm × List PhysicalAddress) : Op → Prop
  | .allocLow => False
  | .allocHigh frees => st.1.pmmHigh = 0 ∧ frees ≠ []
  | .free _ => True

/-- The address is back at the head of the list its band says, and the other
list is as it was. -/
def PutBack (a : PhysicalAddress) (s t : Pmm) : Prop :=
  ∃ cur ls hs, s.Low ls ∧ s.High hs ∧ t.addr cur = a ∧
    if twoGB ≤ a then t.Low ls ∧ t.High (cur :: hs) else t.Low (cur :: ls) ∧ t.High hs

/-- `pmm_free` accepts the outstanding addresses and panics on all others. -/
structure FreesExactly (s : Pmm) (out : List PhysicalAddress) : Prop where
  accepts : ∀ a ∈ out, ∃ fuel t, pmmFree fuel a s = .done () t ∧ PutBack a s t
  rejects : ∀ a, a ∉ out →
    ∃ fuel, pmmFree fuel a s = .panic "pmm: free: cannot find node!" s

/-- With nothing given back, the used nodes are listed in the order of their
allocation, latest first. -/
def Recorded (frames : Multiset PhysicalAddress) (st : Pmm × List PhysicalAddress) : Prop :=
  ∃ ls hs us, Ledger frames st.1 st.2 ls hs ∧ Linked 0 st.1.next st.1.pmmFreeList us ∧
    us.map st.1.addr = st.2

section Recorded
variable {frames : Multiset PhysicalAddress} {s t : Pmm} {out ls hs us : List U64}
  {a : PhysicalAddress} {fuel : ℕ}

/-- Pushing a node whose address is not outstanding keeps the record. -/
theorem linked_push (hus : Linked 0 s.next s.pmmFreeList us) (hmap : us.map s.addr = out)
    {p : U64} (hp : p ≠ 0) (hpo : s.addr p ∉ out) :
    Linked 0 (s.setNext p s.pmmFreeList).next p (p :: us) := by
  have hpu : p ∉ us := fun h => hpo (hmap ▸ List.mem_map_of_mem h)
  refine linked_cons.mpr ⟨rfl,hp,?_⟩
  rw [next_setNext_self]
  exact hus.of_notMem hpu (fun y hy => next_setNext_of_ne s _ hy)

/-- A node that leaves a list of free frames is pushed on the list of the outstanding ones. -/
theorem Recorded.push {p : U64} (hf : frames.Nodup)
    (hl : Ledger frames t (s.addr p :: out) ls hs) (hp : p ≠ 0)
    (hus : Linked 0 s.next s.pmmFreeList us) (hmap : us.map s.addr = out)
    (hnode : t.node = (s.setNext p s.pmmFreeList).node) (hfree : t.pmmFreeList = p) :
    Recorded frames (t,s.addr p :: out) := by
  have hnext : t.next = (s.setNext p s.pmmFreeList).next := by
    funext q
    rw [next,next,hnode]
  have haddr : t.addr = s.addr := by
    rw [← addr_setNext s p s.pmmFreeList]
    funext q
    rw [addr,addr,hnode]
  refine ⟨ls,hs,p :: us,hl,?_,?_⟩
  · change Linked 0 t.next t.pmmFreeList (p :: us)
    rw [hnext,hfree]
    exact linked_push hus hmap hp (List.nodup_cons.mp (hl.out_nodup hf)).1
  · change (p :: us).map t.addr = s.addr p :: out
    rw [haddr,List.map_cons,hmap]

theorem Recorded.allocLow (hf : frames.Nodup) (h : Recorded frames (s,out))
    (he : pmmAllocLow s = .done a t) : Recorded frames (t,a :: out) := by
  obtain ⟨ls,hs,us,hl,hus,hmap⟩ := h
  obtain ⟨rest,rfl,hl',-⟩ := hl.allocLow hf he
  obtain ⟨hne,rfl,rfl⟩ := pmmAllocLow_eq_done.mp he
  exact Recorded.push hf hl' hne hus hmap rfl rfl

theorem Recorded.takeHigh (hf : frames.Nodup) (h : Recorded frames (s,out))
    (hne : s.pmmHigh ≠ 0) (he : Pmm.takeHigh s = .done a t) : Recorded frames (t,a :: out) := by
  obtain ⟨ls,hs,us,hl,hus,hmap⟩ := h
  obtain ⟨rest,rfl,hl',-⟩ := hl.takeHigh hf hne he
  cases he
  exact Recorded.push hf hl' hne hus hmap rfl rfl

/-- The search on a recorded state ends, at the node of the address if it is
outstanding and at null if it is not. -/
theorem findNode_linked (hus : Linked 0 s.next s.pmmFreeList us) (a : PhysicalAddress) :
    findNode (us.length + 1) a s = some ((us.find? (fun p => s.addr p == a)).getD 0) :=
  walk_linked hus (Nat.lt_succ_self _)

theorem Recorded.freesExactly (hf : frames.Nodup) (h : Recorded frames (s,out)) :
    FreesExactly s out := by
  obtain ⟨ls,hs,us,hl,hus,(hmap : us.map s.addr = out)⟩ := h
  constructor
  · intro a ha
    have ha' := ha
    rw [← hmap] at ha'
    obtain ⟨p,hp,hpa⟩ := List.mem_map.mp ha'
    have hfind : (us.find? (fun p => s.addr p == a)).isSome :=
      List.find?_isSome.mpr ⟨p,hp,by simpa using hpa⟩
    obtain ⟨cur,hcur⟩ := Option.isSome_iff_exists.mp hfind
    have hc : cur ≠ 0 := fun h0 => hus.2 (h0 ▸ List.mem_of_find?_eq_some hcur)
    have hca : s.addr cur = a := by simpa using List.find?_some hcur
    have hdone : ∃ t, pmmFree (us.length + 1) a s = .done () t :=
      ⟨_,pmmFree_eq_done.mpr ⟨cur,by rw [findNode_linked hus,hcur]; rfl,hc,hca,rfl⟩⟩
    obtain ⟨t,ht⟩ := hdone
    obtain ⟨cur',hca',haddr,hl'⟩ := hl.free hf ha ht
    refine ⟨_,t,ht,cur',ls,hs,hl.low,hl.high,by rw [haddr,hca'],?_⟩
    split at hl' <;> rename_i hm
    · rw [if_pos hm]
      exact ⟨hl'.low,hl'.high⟩
    · rw [if_neg hm]
      exact ⟨hl'.low,hl'.high⟩
  · intro a ha
    have hnone : us.find? (fun p => s.addr p == a) = none := by
      refine List.find?_eq_none.mpr (fun p hp hpa => ha ?_)
      rw [← hmap,← eq_of_beq hpa]
      exact List.mem_map_of_mem hp
    exact ⟨us.length + 1,pmmFree_eq_panic (by rw [findNode_linked hus,hnone]; rfl)⟩

/-- A free leaves its node in the list it searched: the address is accepted once
more. -/
theorem pmmFree_again (h : pmmFree fuel a s = .done () t) :
    ∃ u, pmmFree fuel a t = .done () u := by
  obtain ⟨cur,hfind,hc,hca,rfl⟩ := pmmFree_eq_done.mp h
  have hagain (n : U64) : walk 0 (s.setNext cur n).next (fun p => (s.setNext cur n).addr p == a)
      fuel s.pmmFreeList = some cur := by
    apply walk_congr hfind
    · exact fun x hx _ => next_setNext_of_ne s n hx
    · simp
    · right
      simpa using hca
  by_cases hm : twoGB ≤ a
  · simp only [if_pos hm]
    exact ⟨_,pmmFree_eq_done.mpr ⟨cur,hagain _,hc,(congrFun (addr_setNext ..) cur).trans hca,rfl⟩⟩
  · simp only [if_neg hm]
    exact ⟨_,pmmFree_eq_done.mpr ⟨cur,hagain _,hc,(congrFun (addr_setNext ..) cur).trans hca,rfl⟩⟩

/-- The last of a nonempty sequence of frees is accepted once more. -/
theorem freeAll_again {as : List PhysicalAddress} (hne : as ≠ [])
    (h : freeAll fuel as s = .done () t) :
    ∃ a ∈ as, ∃ u, pmmFree fuel a t = .done () u := by
  induction as generalizing s with
  | nil => exact absurd rfl hne
  | cons a as ih =>
    obtain ⟨_,s₁,h₁,h₂⟩ := Outcome.bind_eq_done.mp h
    cases as with
    | nil =>
      cases h₂
      exact ⟨a,List.mem_cons_self,pmmFree_again h₁⟩
    | cons b as =>
      obtain ⟨c,hc,hu⟩ := ih (by simp) h₂
      exact ⟨c,List.mem_cons_of_mem _ hc,hu⟩

/-- Whether an address is found does not depend on the fuel. -/
theorem pmmFree_done_ne_panic {fuel' : ℕ} {m : String} {u v : Pmm}
    (h : pmmFree fuel a s = .done () u) : pmmFree fuel' a s ≠ .panic m v := by
  intro h'
  obtain ⟨cur,hfind,hc,-,-⟩ := pmmFree_eq_done.mp h
  unfold pmmFree at h'
  cases hw : findNode fuel' a s with
  | none => simp [hw] at h'
  | some q =>
    have hq : q = 0 := by
      by_contra hq
      simp only [hw,if_neg hq] at h'
      split at h' <;> cases h'
    have h₁ := walk_mono hfind (le_max_left fuel fuel')
    have h₂ := walk_mono hw (le_max_right fuel fuel')
    exact hc ((Option.some.inj (h₁.symm.trans h₂)).trans hq)

/-- Right after a call that gives a frame back, a frame that is not outstanding
is accepted. -/
theorem Recorded.not_freesExactly (hf : frames.Nodup) {st st' : Pmm × List PhysicalAddress}
    {op : Op} (h : Recorded frames st) (hs : Step st op st') (hop : Frees st op) :
    ¬ FreesExactly st'.1 st'.2 := by
  intro hex
  cases hs with
  | allocLow he => exact hop
  | @allocHigh s t out frees a fuel he =>
    obtain ⟨hhigh,hne⟩ : s.pmmHigh = 0 ∧ frees ≠ [] := hop
    rw [pmmAllocHigh,if_pos (show ((Lens.id Pmm).get s).pmmHigh = 0 from hhigh)] at he
    obtain ⟨low,s₁,h₁,he⟩ := Outcome.bind_eq_done.mp he
    obtain ⟨_,s₂,h₂,⟨⟩⟩ := Outcome.bind_eq_done.mp he
    obtain ⟨p,hp,rfl⟩ := Lens.lift_eq_done.mp h₁
    obtain ⟨_,_,_,hl,-,-⟩ := h.allocLow hf hp
    obtain ⟨c,hc,u,hu⟩ := freeAll_again hne h₂
    have hnot : c ∉ (a :: out).diff frees := by
      rw [(hl.out_nodup hf).mem_sdiff_iff]
      exact fun h => h.2 hc
    simp only [if_pos hhigh] at hex
    obtain ⟨fuel',hpanic⟩ := hex.rejects c hnot
    exact pmmFree_done_ne_panic hu hpanic
  | @free s t out a fuel he =>
    obtain ⟨_,_,_,hl,-,-⟩ := h
    obtain ⟨u,hu⟩ := pmmFree_again he
    obtain ⟨fuel',hpanic⟩ := hex.rejects a (hl.out_nodup hf).not_mem_erase
    exact pmmFree_done_ne_panic hu hpanic

theorem Recorded.step (hf : frames.Nodup) {st st' : Pmm × List PhysicalAddress} {op : Op}
    (h : Recorded frames st) (hs : Step st op st') (hop : ¬ Frees st op) :
    Recorded frames st' := by
  cases hs with
  | allocLow he => exact h.allocLow hf he
  | @allocHigh s t out frees a fuel he =>
    unfold pmmAllocHigh at he
    by_cases hhigh : s.pmmHigh = 0
    · obtain rfl : frees = [] := by
        by_contra hne
        exact hop ⟨hhigh,hne⟩
      rw [if_pos (show ((Lens.id Pmm).get s).pmmHigh = 0 from hhigh)] at he
      obtain ⟨low,s₁,h₁,he⟩ := Outcome.bind_eq_done.mp he
      obtain ⟨p,hp,rfl⟩ := Lens.lift_eq_done.mp h₁
      cases he
      rw [if_pos hhigh]
      exact h.allocLow hf hp
    · rw [if_neg (show ¬ ((Lens.id Pmm).get s).pmmHigh = 0 from hhigh)] at he
      obtain ⟨p,hp,rfl⟩ := Lens.lift_eq_done.mp he
      rw [if_neg hhigh]
      exact h.takeHigh hf hhigh hp
  | free he => exact absurd trivial hop

end Recorded

/-- In a run from a manager with distinct frames and nothing allocated,
`pmm_free` accepts exactly the outstanding frames in every state of the run if
and only if no call of the run gives a frame back. -/
theorem freesExactly_iff_no_free {s₀ : Pmm} {ls₀ hs₀ : List U64} (hlow : s₀.Low ls₀)
    (hhigh : s₀.High hs₀) (hused : s₀.pmmFreeList = 0)
    (haddr : ((ls₀ ++ hs₀).map s₀.addr).Nodup) {n : ℕ}
    {st : ℕ → Pmm × List PhysicalAddress} {op : ℕ → Op} (h0 : st 0 = (s₀,[]))
    (hr : IsRun Step n st op) :
    (∀ i ≤ n, FreesExactly (st i).1 (st i).2) ↔ ∀ i < n, ¬ Frees (st i) (op i) := by
  have hf : (↑(ls₀.map s₀.addr) + ↑(hs₀.map s₀.addr) : Multiset PhysicalAddress).Nodup := by
    rw [List.map_append] at haddr
    exact haddr
  have hstart : Recorded (↑(ls₀.map s₀.addr) + ↑(hs₀.map s₀.addr)) (st 0) := by
    rw [h0]
    exact ⟨ls₀,hs₀,[],⟨hlow,hhigh,by simp⟩,by simpa using hused,rfl⟩
  apply hr.forall_iff_guards (P := fun st => FreesExactly st.1 st.2)
    (G := fun st op => ¬ Frees st op) hstart
  · exact fun s hs => hs.freesExactly hf
  · exact fun s l t hs hst hg => hs.step hf hst hg
  · exact fun s l t hs hst hg => hs.not_freesExactly hf hst (not_not.mp hg)

/-- The sample after its first low allocations. -/
def sampleAllocs : ℕ → Pmm × List PhysicalAddress
  | 0 => (sample,[])
  | i + 1 =>
    match pmmAllocLow (sampleAllocs i).1 with
    | .done a t => (t,a :: (sampleAllocs i).2)
    | _ => sampleAllocs i

theorem sampleAllocs_run : IsRun Step 2 sampleAllocs (fun _ => .allocLow) := by
  intro i hi
  interval_cases i
  · exact .allocLow rfl
  · exact .allocLow rfl

theorem sampleAllocs_freesExactly : IsRun Step 2 sampleAllocs (fun _ => .allocLow) ∧
    ∀ i ≤ 2, FreesExactly (sampleAllocs i).1 (sampleAllocs i).2 :=
  ⟨sampleAllocs_run,(freesExactly_iff_no_free sample_low sample_high rfl (by decide) rfl
    sampleAllocs_run).mpr (fun _ _ h => h)⟩

/-- The two low frames are allocated and the second is given back: the first,
still outstanding, is then refused. -/
theorem freesExactly_fails_lifo : ∃ s, IsRun Step 2 sampleAllocs (fun _ => .allocLow) ∧
    Step (sampleAllocs 2) (.free 0x2000#64) (s,[0x1000#64]) ∧
    pmmFree 3 0x1000#64 s = .panic "pmm: free: cannot find node!" s ∧
    ¬ FreesExactly s [0x1000#64] := by
  have hstep : Step (sampleAllocs 2) (.free 0x2000#64) (_,[0x1000#64]) :=
    @Step.free _ _ _ _ 3 rfl
  refine ⟨_,sampleAllocs_run,hstep,rfl,?_⟩
  intro h
  obtain ⟨fuel,t,ht,-⟩ := h.accepts 0x1000#64 List.mem_cons_self
  exact pmmFree_done_ne_panic ht (show pmmFree 3 _ _ = _ from rfl)

end Lios.Pmm

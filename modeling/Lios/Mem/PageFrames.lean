import Mathlib.Tactic.IntervalCases
import Lios.Lib.Runs
import Lios.Mem.PageMap

/-! # The frames behind the page tables

Mapping takes the pages of new tables from the physical memory manager and
unmapping gives them back. While no page table is given back, the tables below
the PML4 are frames the manager has handed out, each linked from one entry. An
unmap that empties a page table frees its frame and leaves the entry that points
to it present, so the property is lost with that very step.
-/
namespace Lios.Paging

inductive Op where
  | pageMap (virt : U64) (phys : PhysicalAddress) (kernel : Bool)
  | pageUnmap (virt : U64)
  | kcallocPage

def Op.run (fuel : ℕ) : Op → Paging Pmm → Outcome (Paging Pmm) Unit
  | pageMap virt phys kernel,s => Paging.pageMap (pmmAllocator fuel) virt phys kernel s
  | pageUnmap virt,s => Paging.pageUnmap (pmmAllocator fuel) virt s
  | kcallocPage,s => (Paging.kcallocPage (pmmAllocator fuel) s).bind fun _ s => .done () s

/-- A call that returns. -/
def Step (s : Paging Pmm) (o : Op) (t : Paging Pmm) : Prop := ∃ fuel, o.run fuel s = .done () t

/-- The address is that of a node reached from `pmm_low`. -/
def OnLow (m : Pmm) (a : PhysicalAddress) : Prop :=
  ∃ l p, Segment m.next m.pmmLow l p ∧ 0#64 ∉ l ∧ p ≠ 0#64 ∧ m.addr p = a

/-- Every table reached through present entries is an outstanding frame and the
target of one present entry. -/
def TablesOwned (frames : List PhysicalAddress) (s : Paging Pmm) : Prop :=
  ∀ q t, q ≠ [] → q.length ≤ 3 → follow s.child s.pml4Addr q = some t →
    (∃ a ∈ frames, t = a + kernelOffset ∧ ¬ OnLow s.frames a) ∧
    ∃! e : U64 × TableIndex, IsTable s.child s.pml4Addr 2 e.1 ∧ s.child e.1 e.2 = some t

/-- What is asked of the frames of the manager and of the page of the PML4. -/
structure TableFrames (frames : List PhysicalAddress) (root : U64) : Prop where
  aligned : ∀ a ∈ frames, a &&& addrMask = a
  low : ∀ a ∈ frames, a < twoGB
  root : ∀ a ∈ frames, a + kernelOffset ≠ root

/-- The tables are a tree of frames, apart from the frames `free` still on the low
list. -/
structure OwnedBy (frames free : List PhysicalAddress) (s : Paging Pmm) : Prop where
  low : ∃ ls, s.frames.Low ls ∧ ls.map s.frames.addr = free
  nodup : free.Nodup
  sub : ∀ a ∈ free, a ∈ frames
  tree : IsTree s
  owned : ∀ q t, q ≠ [] → q.length ≤ 3 → follow s.child s.pml4Addr q = some t →
    ∃ a ∈ frames, t = a + kernelOffset ∧ a ∉ free

section Owned
variable {frames free : List PhysicalAddress} {s s' : Paging Pmm} {fuel : ℕ}

theorem OwnedBy.not_onLow (h : OwnedBy frames free s) {a : PhysicalAddress} (ha : a ∉ free) :
    ¬ OnLow s.frames a := by
  rintro ⟨l,p,hs,hl,hp,rfl⟩
  obtain ⟨ls,hlow,rfl⟩ := h.low
  exact ha (List.mem_map_of_mem (hlow.mem_of_segment hs hl hp))

theorem OwnedBy.tablesOwned (h : OwnedBy frames free s) : TablesOwned frames s := by
  intro q t hne hq ht
  obtain ⟨a,ha,rfl,hfree⟩ := h.owned q t hne hq ht
  exact ⟨⟨a,ha,rfl,h.not_onLow hfree⟩,h.tree.existsUnique_entry hne hq ht⟩

/-- A frame that is still free is not the page of a table. -/
theorem OwnedBy.outside (h : OwnedBy frames free s) (hfr : TableFrames frames s.pml4Addr)
    {f : PhysicalAddress} (hf : f ∈ free) : ¬ InTree s (f + kernelOffset) := by
  rintro ⟨q,hq,ht⟩
  by_cases hne : q = []
  · subst hne
    exact hfr.root f (h.sub f hf) (Option.some.inj ht).symm
  · obtain ⟨a,-,ha,hfree⟩ := h.owned q _ hne hq ht
    obtain rfl : f = a := add_right_cancel ha
    exact hfree hf

/-- Taking a frame off the low list. -/
theorem OwnedBy.alloc (h : OwnedBy frames free s) {f : PhysicalAddress} {m : Pmm}
    (ha : Pmm.pmmAllocLow s.frames = .done f m) :
    ∃ rest, free = f :: rest ∧ OwnedBy frames rest { s with frames := m } := by
  obtain ⟨ls,hlow,rfl⟩ := h.low
  obtain ⟨hne,rfl,rfl⟩ := Pmm.pmmAllocLow_eq_done.mp ha
  obtain ⟨t,rfl,ht⟩ := hlow.exists_cons hne
  obtain ⟨hp,-⟩ := List.nodup_cons.mp hlow.nodup
  have hnd := h.nodup
  rw [List.map_cons,List.nodup_cons] at hnd
  refine ⟨t.map s.frames.addr,rfl,⟨t,?_,?_⟩,hnd.2,?_,h.tree,?_⟩
  · exact ht.of_notMem hp (fun y hy => s.frames.next_setNext_of_ne _ hy)
  · exact congrArg t.map (s.frames.addr_setNext _ _)
  · exact fun a ha => h.sub a (List.mem_cons_of_mem _ ha)
  · intro q u hne hq hu
    obtain ⟨a,hfr,hau,hfree⟩ := h.owned q u hne hq hu
    exact ⟨a,hfr,hau,fun hm => hfree (List.mem_cons_of_mem _ hm)⟩

theorem OwnedBy.alloc_fresh {rest : List PhysicalAddress} {f : PhysicalAddress} {m : Pmm}
    (h : OwnedBy frames (f :: rest) s) (hfr : TableFrames frames s.pml4Addr) :
    FreshFrame { s with frames := m } f :=
  ⟨hfr.aligned f (h.sub f List.mem_cons_self),h.outside hfr List.mem_cons_self⟩

/-- A memory whose tables are those of `s` keeps the ownership of `s`. -/
theorem OwnedBy.congr (h : OwnedBy frames free s) (hroot : s'.pml4Addr = s.pml4Addr)
    (hm : s'.frames = s.frames) (hfollow : ∀ q : List TableIndex, q.length ≤ 3 →
      follow s'.child s.pml4Addr q = follow s.child s.pml4Addr q) : OwnedBy frames free s' := by
  refine ⟨hm ▸ h.low,h.nodup,h.sub,?_,?_⟩
  · intro p q t hp hq hpt hqt
    rw [hroot,hfollow p hp] at hpt
    rw [hroot,hfollow q hq] at hqt
    exact h.tree p q t hp hq hpt hqt
  · intro q t hne hq hqt
    rw [hroot,hfollow q hq] at hqt
    exact h.owned q t hne hq hqt

theorem OwnedBy.setLeaf {virt pt e : U64} (h : OwnedBy frames free s)
    (hp : follow s.child s.pml4Addr (pathOf virt) = some pt) (i : TableIndex) :
    OwnedBy frames free (s.setEntry pt i e) :=
  h.congr rfl rfl (fun _ hq => follow_setLeaf h.tree hp i hq)

/-- One level of `page_map`. -/
theorem OwnedBy.nextTable {kernel : Bool} {path : List TableIndex} {tbl t : U64} {i : TableIndex}
    (h : OwnedBy frames free s) (hfr : TableFrames frames s.pml4Addr)
    (hp : follow s.child s.pml4Addr path = some tbl) (hlen : path.length < 3)
    (hn : nextTable (pmmAllocator fuel) kernel tbl i s = .done t s') :
    ∃ free', OwnedBy frames free' s' ∧ s'.pml4Addr = s.pml4Addr ∧
      follow s'.child s'.pml4Addr (path ++ [i]) = some t := by
  cases hc : s.child tbl i with
  | some u =>
    rw [nextTable_of_some hc] at hn
    obtain ⟨rfl,rfl⟩ := Outcome.done.inj hn
    exact ⟨free,h,rfl,(follow_snoc_of_some hp).trans hc⟩
  | none =>
    obtain ⟨f,m,ha,rfl,rfl⟩ := (nextTable_eq_done_of_none hc).mp hn
    obtain ⟨rest,rfl,hrest⟩ := h.alloc ha
    have hf : FreshFrame { s with frames := m } f := h.alloc_fresh hfr
    have hfollow (q : List TableIndex) (hq : q.length ≤ 3) :
        follow (linkTable kernel tbl i f { s with frames := m }).child s.pml4Addr q =
          if q = path ++ [i] then some (f + kernelOffset) else follow s.child s.pml4Addr q :=
      follow_linkTable hrest.tree hp hlen hc hf hq
    refine ⟨rest,⟨hrest.low,hrest.nodup,hrest.sub,isTree_linkTable hrest.tree hp hlen hc hf,?_⟩,
      rfl,(hfollow _ ?_).trans (if_pos rfl)⟩
    · intro q u hne hq hu
      rw [linkTable_pml4Addr,hfollow q hq] at hu
      split at hu
      · obtain rfl := Option.some.inj hu
        exact ⟨f,h.sub f List.mem_cons_self,rfl,(List.nodup_cons.mp h.nodup).1⟩
      · exact hrest.owned q u hne hq hu
    · rw [List.length_append,List.length_singleton]
      omega

theorem OwnedBy.pageMap {virt : U64} {phys : PhysicalAddress} {kernel : Bool}
    (h : OwnedBy frames free s) (hfr : TableFrames frames s.pml4Addr)
    (hm : pageMap (pmmAllocator fuel) virt phys kernel s = .done () s') :
    ∃ free', OwnedBy frames free' s' ∧ s'.pml4Addr = s.pml4Addr := by
  simp only [Paging.pageMap,Outcome.bind_eq_done] at hm
  obtain ⟨pdpt,s₁,h₁,pdt,s₂,h₂,pt,s₃,h₃,hleaf⟩ := hm
  obtain ⟨free₁,ho₁,hr₁,hf₁⟩ := h.nextTable hfr follow_nil (by decide) h₁
  rw [← hr₁] at hfr
  obtain ⟨free₂,ho₂,hr₂,hf₂⟩ := ho₁.nextTable hfr hf₁ (by simp) h₂
  rw [← hr₂] at hfr
  obtain ⟨free₃,ho₃,hr₃,hf₃⟩ := ho₂.nextTable hfr hf₂ (by simp) h₃
  obtain ⟨-,rfl⟩ := Outcome.done.inj hleaf
  have hpath : follow s₃.child s₃.pml4Addr (pathOf virt) = some pt := hf₃
  exact ⟨free₃,ho₃.setLeaf hpath _,hr₃.trans (hr₂.trans hr₁)⟩

theorem OwnedBy.kcallocPage {page : U64} (h : OwnedBy frames free s)
    (hfr : TableFrames frames s.pml4Addr)
    (hk : Paging.kcallocPage (pmmAllocator fuel) s = .done page s') :
    ∃ free', OwnedBy frames free' s' ∧ s'.pml4Addr = s.pml4Addr := by
  obtain ⟨f,_,hlift,hpage⟩ := Outcome.bind_eq_done.mp hk
  obtain ⟨m,ha,rfl⟩ := Lens.lift_eq_done.mp hlift
  obtain ⟨-,rfl⟩ := Outcome.done.inj hpage
  obtain ⟨rest,rfl,hrest⟩ := h.alloc ha
  refine ⟨rest,hrest.congr rfl rfl (fun q hq => ?_),rfl⟩
  refine follow_congr (fun p t j hlen hpt => child_congr ?_) hq
  have hne : t ≠ f + kernelOffset := by
    rintro rfl
    exact h.outside hfr List.mem_cons_self ⟨p,by omega,hpt⟩
  rw [zeroPage_table_of_ne _ hne]
  rfl

end Owned

/-- The step gives no page table back: an unmap finds no page table, or one in
which another entry is present. -/
def KeepsTable (s : Paging Pmm) : Op → Prop
  | .pageUnmap virt => ∀ pt, follow s.child s.pml4Addr (pathOf virt) = some pt →
      usedElsewhere (s.table pt) (virtAddrGetPte virt) = true
  | _ => True

section Runs
variable {frames free : List PhysicalAddress} {s s' : Paging Pmm} {o : Op}

theorem OwnedBy.step (h : OwnedBy frames free s) (hfr : TableFrames frames s.pml4Addr)
    (hs : Step s o s') (hk : KeepsTable s o) :
    ∃ free', OwnedBy frames free' s' ∧ s'.pml4Addr = s.pml4Addr := by
  obtain ⟨fuel,hm⟩ := hs
  cases o with
  | pageMap virt phys kernel => exact h.pageMap hfr hm
  | kcallocPage =>
    obtain ⟨page,t,hk',ht⟩ := Outcome.bind_eq_done.mp hm
    obtain ⟨-,rfl⟩ := Outcome.done.inj ht
    exact h.kcallocPage hfr hk'
  | pageUnmap virt =>
    obtain ⟨-,rfl⟩ | ⟨pt,m,hp,hused,-,rfl⟩ := pageUnmap_eq_done hm
    · exact ⟨free,h,rfl⟩
    · obtain rfl := hused (hk pt hp)
      split
      · exact ⟨free,h.setLeaf hp _,rfl⟩
      · exact ⟨free,h,rfl⟩

theorem onLow_of_pmmFree {fuel : ℕ} {a : PhysicalAddress} {m m' : Pmm} (ha : a < twoGB)
    (h : Pmm.pmmFree fuel a m = .done () m') : OnLow m' a := by
  obtain ⟨cur,-,hc,rfl,rfl⟩ := Pmm.pmmFree_eq_done.mp h
  rw [if_neg (BitVec.not_le.mpr ha)]
  exact ⟨[],cur,rfl,by simp,hc,congrFun (m.addr_setNext cur m.pmmLow) cur⟩

/-- The page table of the unmapped page is freed and still linked. -/
theorem OwnedBy.not_tablesOwned (h : OwnedBy frames free s)
    (hfr : TableFrames frames s.pml4Addr) (hs : Step s o s') (hk : ¬ KeepsTable s o) :
    ¬ TablesOwned frames s' := by
  obtain ⟨fuel,hm⟩ := hs
  cases o with
  | pageMap virt phys kernel => exact absurd trivial hk
  | kcallocPage => exact absurd trivial hk
  | pageUnmap virt =>
    intro hown
    simp only [KeepsTable,not_forall,Bool.not_eq_true] at hk
    obtain ⟨pt,hp,hunused⟩ := hk
    obtain ⟨hnone,-⟩ | ⟨pt',m,hp',-,hfree,hs'⟩ := pageUnmap_eq_done hm
    · simp [hnone] at hp
    obtain rfl : pt = pt' := Option.some.inj (hp.symm.trans hp')
    obtain ⟨m₀,hm₀⟩ := hfree hunused
    have hlinked : follow s'.child s'.pml4Addr (pathOf virt) = some pt ∧ s'.frames = m := by
      rw [hs']
      split
      · exact ⟨(follow_setLeaf (s := { s with frames := m }) h.tree hp _ (by simp [pathOf])).trans
          hp,rfl⟩
      · exact ⟨hp,rfl⟩
    obtain ⟨⟨a,ha,rfl,hlow⟩,-⟩ := hown _ pt (by simp [pathOf]) (by simp [pathOf]) hlinked.1
    rw [add_sub_cancel_right] at hm₀
    rw [hlinked.2] at hlow
    exact hlow (onLow_of_pmmFree (hfr.low a ha) hm₀)

/-- In a run from a PML4 without present entries, the tables of every state are
outstanding frames, each behind one entry, exactly when no unmap of the run gives
a page table back. -/
theorem tablesOwned_iff_keepsTable {n : ℕ} {st : ℕ → Paging Pmm} {op : ℕ → Op} {ls : List U64}
    (hlow : (st 0).frames.Low ls) (hnd : (ls.map (st 0).frames.addr).Nodup)
    (hfr : TableFrames (ls.map (st 0).frames.addr) (st 0).pml4Addr)
    (hempty : ∀ i, pml4eQueryFlag ((st 0).table (st 0).pml4Addr i) pml4ePdpePdePresent = false)
    (hr : IsRun Step n st op) :
    (∀ i ≤ n, TablesOwned (ls.map (st 0).frames.addr) (st i)) ↔
      ∀ i < n, KeepsTable (st i) (op i) := by
  have hchild (i : TableIndex) : (st 0).child (st 0).pml4Addr i = none :=
    child_eq_none.mpr (hempty i)
  have hinit : OwnedBy (ls.map (st 0).frames.addr) (ls.map (st 0).frames.addr) (st 0) := by
    refine ⟨⟨ls,hlow,rfl⟩,hnd,fun _ h => h,TreeTo.of_empty hchild,fun q t hne _ hq => ?_⟩
    exact absurd (follow_of_empty hchild hq).1 hne
  refine hr.forall_iff_guards (I := fun s => s.pml4Addr = (st 0).pml4Addr ∧
    ∃ free, OwnedBy (ls.map (st 0).frames.addr) free s) ⟨rfl,_,hinit⟩ ?_ ?_ ?_
  · rintro s ⟨-,_,h⟩
    exact h.tablesOwned
  · rintro s o s' ⟨hroot,_,h⟩ hs hk
    obtain ⟨free',h',hroot'⟩ := h.step (hroot ▸ hfr) hs hk
    exact ⟨hroot'.trans hroot,free',h'⟩
  · rintro s o s' ⟨hroot,_,h⟩ hs hk
    exact h.not_tablesOwned (hroot ▸ hfr) hs hk

end Runs

section Sample

/-- Two pages of one page table are mapped and unmapped again. -/
def sampleOps : ℕ → Op
  | 0 => .pageMap 0x5000#64 0x7000#64 true
  | 1 => .pageMap 0x6000#64 0x8000#64 true
  | 2 => .pageUnmap 0x6000#64
  | _ => .pageUnmap 0x5000#64

def sampleSpace : ℕ → Paging Pmm
  | 0 => emptySpace
  | i + 1 => ((sampleOps i).run 8 (sampleSpace i)).stateD (sampleSpace i)

theorem sampleSpace_run : IsRun Step 4 sampleSpace sampleOps := by
  have hdone : ∀ i < 4, ((sampleOps i).run 8 (sampleSpace i)).returned = some () := by
    decide +kernel
  exact fun i hi => ⟨8,Outcome.eq_done_of_returned (hdone i hi) _⟩

theorem emptySpace_low : emptySpace.frames.Low [1#64,2#64,3#64] := by
  simp only [Pmm.Low,linked_cons,linked_nil]
  decide +kernel

theorem emptySpace_tableFrames :
    TableFrames ([1#64,2#64,3#64].map emptySpace.frames.addr) emptySpace.pml4Addr := by
  refine ⟨?_,?_,?_⟩ <;> simp only [List.map_cons,List.map_nil,List.forall_mem_cons] <;>
    exact ⟨by decide,by decide,by decide,by simp⟩

theorem sampleSpace_tablesOwned : IsRun Step 3 sampleSpace sampleOps ∧
    ∀ i ≤ 3, TablesOwned ([1#64,2#64,3#64].map emptySpace.frames.addr) (sampleSpace i) := by
  have hrun : IsRun Step 3 sampleSpace sampleOps := fun i hi => sampleSpace_run i (by omega)
  refine ⟨hrun,(@tablesOwned_iff_keepsTable 3 sampleSpace sampleOps _ emptySpace_low
    (by decide +kernel) emptySpace_tableFrames (fun _ => entryQueryFlag_zero) hrun).mpr ?_⟩
  intro i hi
  interval_cases i
  · trivial
  · trivial
  · intro pt hpt
    have hfollow : follow (sampleSpace 2).child (sampleSpace 2).pml4Addr (pathOf 0x6000#64) =
        some (0x3000#64 + kernelOffset) := by decide +kernel
    obtain rfl := Option.some.inj (hpt.symm.trans hfollow)
    decide +kernel

/-- The last unmap frees the page table at `0x3000`, which stays linked. -/
theorem sampleSpace_not_tablesOwned : IsRun Step 4 sampleSpace sampleOps ∧
    ¬ TablesOwned ([1#64,2#64,3#64].map emptySpace.frames.addr) (sampleSpace 4) := by
  refine ⟨sampleSpace_run,fun h => ?_⟩
  have hend : follow (sampleSpace 4).child (sampleSpace 4).pml4Addr (pathOf 0x5000#64) =
      some (0x3000#64 + kernelOffset) ∧ (sampleSpace 4).frames.pmmLow = 3#64 ∧
      (sampleSpace 4).frames.addr 3#64 = 0x3000#64 := by decide +kernel
  obtain ⟨hfollow,hhead,haddr⟩ := hend
  obtain ⟨⟨a,-,ha,hlow⟩,-⟩ := h _ _ (by simp [pathOf]) (by simp [pathOf]) hfollow
  obtain rfl : 0x3000#64 = a := add_right_cancel ha
  exact hlow ⟨[],3#64,hhead,by simp,by decide,haddr⟩

end Sample

end Lios.Paging

import Lios.Mem.PageTree

/-! # Mapping and unmapping as updates of a partial map

Seen through `page_virt_to_phys_addr`, mapping a page inserts it into the address
space and unmapping deletes it. The three upper levels of `page_map` extend the
tree without changing a translation, and only the write of the leaf entry is
visible. Unmapping may give tables back to the allocator, but it leaves every
entry above the leaf as it was.
-/
namespace Lios.Paging
variable {A : Type} {fa : FrameAllocator A} {s s' : Paging A} {kernel : Bool}

/-- The next `n` frames of the allocator are fresh for tables outside `used`. -/
def Supplies (fa : FrameAllocator A) : (U64 → Prop) → ℕ → A → Prop
  | _,0,_ => True
  | used,n + 1,a => ∃ f a', fa.allocLow a = .done f a' ∧ f &&& addrMask = f ∧
      ¬ used (f + kernelOffset) ∧ Supplies fa (fun t => used t ∨ t = f + kernelOffset) n a'

theorem Supplies.anti {used used' : U64 → Prop} {n : ℕ} {a : A} (h : Supplies fa used n a)
    (hsub : ∀ t, used' t → used t) : Supplies fa used' n a := by
  induction n generalizing used used' a with
  | zero => trivial
  | succ n ih =>
    obtain ⟨f,a',ha,hal,hout,hrest⟩ := h
    exact ⟨f,a',ha,hal,fun hf => hout (hsub _ hf),
      ih hrest (fun t ht => ht.imp_left (hsub t))⟩

theorem Supplies.of_succ {used : U64 → Prop} {n : ℕ} {a : A} (h : Supplies fa used (n + 1) a) :
    Supplies fa used n a := by
  induction n generalizing used a with
  | zero => trivial
  | succ n ih =>
    obtain ⟨f,a',ha,hal,hout,hrest⟩ := h
    exact ⟨f,a',ha,hal,hout,ih hrest⟩

/-- One level of `page_map` reaches the next table without changing a translation. -/
theorem nextTable_spec (kernel : Bool) (i : TableIndex) {path : List TableIndex} {tbl : U64}
    {n : ℕ} (ht : IsTree s) (hp : follow s.child s.pml4Addr path = some tbl)
    (hlen : path.length < 3) (hsup : Supplies fa s.InTree (n + 1) s.frames) :
    ∃ t s', nextTable fa kernel tbl i s = .done t s' ∧ s'.pml4Addr = s.pml4Addr ∧ IsTree s' ∧
      follow s'.child s.pml4Addr (path ++ [i]) = some t ∧
      (∀ v, pageVirtToPhysAddr s' v = pageVirtToPhysAddr s v) ∧
      Supplies fa s'.InTree n s'.frames := by
  cases hc : s.child tbl i with
  | some t =>
    refine ⟨t,s,nextTable_of_some hc,rfl,ht,?_,fun _ => rfl,hsup.of_succ⟩
    rw [follow_snoc_of_some hp,hc]
  | none =>
    obtain ⟨f,a,ha,hal,hout,hrest⟩ := hsup
    have hf : FreshFrame { s with frames := a } f := ⟨hal,hout⟩
    refine ⟨_,_,(nextTable_eq_done_of_none hc).mpr ⟨f,a,ha,rfl,rfl⟩,rfl,
      isTree_linkTable ht hp hlen hc hf,?_,fun v => ?_,?_⟩
    · refine (follow_linkTable (s := { s with frames := a }) ht hp hlen hc hf ?_).trans (if_pos rfl)
      rw [List.length_append,List.length_singleton]
      omega
    · exact pageVirtToPhysAddr_linkTable ht hp hlen hc hf
    · exact hrest.anti (fun t h => inTree_linkTable (s := { s with frames := a }) ht hp hlen hc hf h)

theorem addrMask_eq {phys : PhysicalAddress} (h : phys.toNat < 2 ^ 52) :
    phys &&& addrMask = phys &&& ~~~0xFFF#64 := by
  have hbit : ∀ i < 64, 52 ≤ i ∨ addrMask.getLsbD i = (~~~0xFFF#64).getLsbD i := by decide
  apply BitVec.eq_of_getLsbD_eq
  intro i hi
  rw [BitVec.getLsbD_and,BitVec.getLsbD_and]
  rcases hbit i hi with hge | heq
  · have hp : phys.getLsbD i = false :=
      Nat.testBit_lt_two_pow (lt_of_lt_of_le h (Nat.pow_le_pow_right (by decide) hge))
    simp [hp]
  · rw [heq]

theorem leafEntry_present (phys : PhysicalAddress) (e : U64) :
    pteQueryFlag (leafEntry kernel phys e) ptePresent = true :=
  entryQueryFlag_linkFlags kernel (entrySetAddr e phys)

theorem leafEntry_addr (phys : PhysicalAddress) (e : U64) :
    pteGetAddr (leafEntry kernel phys e) = phys &&& addrMask :=
  entryGetAddr_linkFlags kernel e phys

/-- A mapping that returns has reached a page table through the three levels and written its
entry. -/
theorem pageMap_eq_done {virt : U64} {phys : PhysicalAddress}
    (h : pageMap fa virt phys kernel s = .done () s') :
    ∃ pdpt s₁ pdt s₂ pt s₃, nextTable fa kernel s.pml4Addr (virtAddrGetPml4e virt) s = .done pdpt s₁ ∧
      nextTable fa kernel pdpt (virtAddrGetPdpe virt) s₁ = .done pdt s₂ ∧
      nextTable fa kernel pdt (virtAddrGetPde virt) s₂ = .done pt s₃ ∧
      s' = s₃.setEntry pt (virtAddrGetPte virt)
        (leafEntry kernel phys (s₃.table pt (virtAddrGetPte virt))) := by
  obtain ⟨pdpt,s₁,h₁,h⟩ := Outcome.bind_eq_done.mp h
  obtain ⟨pdt,s₂,h₂,h⟩ := Outcome.bind_eq_done.mp h
  obtain ⟨pt,s₃,h₃,h⟩ := Outcome.bind_eq_done.mp h
  exact ⟨pdpt,s₁,pdt,s₂,pt,s₃,h₁,h₂,h₃,(Outcome.done.inj h).2.symm⟩

theorem follow_pathOf (s : Paging A) (root virt : U64) :
    follow s.child root (pathOf virt) = (s.child root (virtAddrGetPml4e virt)).bind fun pdpt =>
      (s.child pdpt (virtAddrGetPdpe virt)).bind fun pdt => s.child pdt (virtAddrGetPde virt) := by
  simp [follow,pathOf]

/-- Where the page table exists, a mapping only writes its entry. -/
theorem pageMap_of_follow {virt pt : U64} (phys : PhysicalAddress)
    (hp : follow s.child s.pml4Addr (pathOf virt) = some pt) :
    pageMap fa virt phys kernel s = .done () (s.setEntry pt (virtAddrGetPte virt)
      (leafEntry kernel phys (s.table pt (virtAddrGetPte virt)))) := by
  rw [follow_pathOf] at hp
  obtain ⟨pdpt,h₁,hp⟩ := Option.bind_eq_some_iff.mp hp
  obtain ⟨pdt,h₂,h₃⟩ := Option.bind_eq_some_iff.mp hp
  rw [pageMap,nextTable_of_some h₁,Outcome.bind_done,nextTable_of_some h₂,Outcome.bind_done,
    nextTable_of_some h₃,Outcome.bind_done]

theorem pageMap_spec {virt : U64} {phys : PhysicalAddress} (ht : IsTree s)
    (hphys : phys.toNat < 2 ^ 52) (hsup : Supplies fa s.InTree 3 s.frames) :
    ∃ s', pageMap fa virt phys kernel s = .done () s' ∧ IsTree s' ∧
      ∀ v, pageVirtToPhysAddr s' v =
        if SamePage v virt then (phys &&& ~~~0xFFF#64) + (v &&& 0xFFF#64)
        else pageVirtToPhysAddr s v := by
  obtain ⟨pdpt,s₁,h₁,hr₁,ht₁,hf₁,hv₁,hs₁⟩ := nextTable_spec kernel
    (virtAddrGetPml4e virt) ht follow_nil (by decide) hsup
  rw [← hr₁] at hf₁
  obtain ⟨pdt,s₂,h₂,hr₂,ht₂,hf₂,hv₂,hs₂⟩ := nextTable_spec kernel
    (virtAddrGetPdpe virt) ht₁ hf₁ (by simp) hs₁
  rw [← hr₂] at hf₂
  obtain ⟨pt,s₃,h₃,hr₃,ht₃,hf₃,hv₃,-⟩ := nextTable_spec kernel
    (virtAddrGetPde virt) ht₂ hf₂ (by simp) hs₂
  rw [← hr₃] at hf₃
  have hrun : pageMap fa virt phys kernel s = .done () (s₃.setEntry pt (virtAddrGetPte virt)
      (leafEntry kernel phys (s₃.table pt (virtAddrGetPte virt)))) := by
    rw [pageMap,h₁,Outcome.bind_done,h₂,Outcome.bind_done,h₃,Outcome.bind_done]
  have hpath : follow s₃.child s₃.pml4Addr (pathOf virt) = some pt := hf₃
  refine ⟨_,hrun,isTree_setLeaf ht₃ hpath _,fun v => ?_⟩
  rw [pageVirtToPhysAddr_setLeaf ht₃ hpath,leafEntry_present,if_pos rfl,leafEntry_addr,
    addrMask_eq hphys,hv₃,hv₂,hv₁]
  rfl

/-! Unmapping. -/

theorem ifFree_eq_done {c : Bool} {addr : U64}
    (h : (if c then kfreePage fa addr s else .done () s) = .done () s') :
    ∃ a, s' = { s with frames := a } ∧
      if c then fa.free (addr - kernelOffset) s.frames = .done () a else a = s.frames := by
  cases c with
  | false =>
    obtain ⟨-,rfl⟩ := Outcome.done.inj h
    exact ⟨s.frames,rfl,rfl⟩
  | true =>
    obtain ⟨a,ha,rfl⟩ := Lens.lift_eq_done.mp h
    exact ⟨a,rfl,ha⟩

theorem releaseTables_eq_done {pdptUsed pdtUsed ptUsed : Bool} {pdptAddr pdtAddr ptAddr : U64}
    (h : releaseTables fa pdptUsed pdtUsed ptUsed pdptAddr pdtAddr ptAddr s = .done () s') :
    ∃ a, s' = { s with frames := a } ∧ (ptUsed = true → a = s.frames) ∧
      (ptUsed = false → ∃ a₀, fa.free (ptAddr - kernelOffset) a₀ = .done () a) := by
  simp only [releaseTables,Outcome.bind_eq_done] at h
  obtain ⟨_,_,h₁,_,_,h₂,h₃⟩ := h
  obtain ⟨a₁,rfl,hk₁⟩ := ifFree_eq_done h₁
  obtain ⟨a₂,rfl,hk₂⟩ := ifFree_eq_done h₂
  obtain ⟨a₃,rfl,hk₃⟩ := ifFree_eq_done h₃
  refine ⟨a₃,rfl,?_,?_⟩
  · rintro rfl
    simp only [Bool.not_true,Bool.and_false] at hk₁ hk₂ hk₃
    exact hk₃.trans (hk₂.trans hk₁)
  · rintro rfl
    exact ⟨a₂,hk₃⟩

/-- What an unmap that returns has done: nothing without a page table; otherwise
the page table was given back if no other entry of it is present, and the leaf
entry is clear. -/
theorem pageUnmap_eq_done {virt : U64} (h : pageUnmap fa virt s = .done () s') :
    (follow s.child s.pml4Addr (pathOf virt) = none ∧ s' = s) ∨
    ∃ pt a, follow s.child s.pml4Addr (pathOf virt) = some pt ∧
      (usedElsewhere (s.table pt) (virtAddrGetPte virt) = true → a = s.frames) ∧
      (usedElsewhere (s.table pt) (virtAddrGetPte virt) = false →
        ∃ a₀, fa.free (pt - kernelOffset) a₀ = .done () a) ∧
      s' = if pteQueryFlag (s.table pt (virtAddrGetPte virt)) ptePresent then
          { s with frames := a }.setEntry pt (virtAddrGetPte virt) 0#64
        else { s with frames := a } := by
  rw [follow_pathOf]
  simp only [pageUnmap,pml4eQueryFlag,pdpeQueryFlag,pdeQueryFlag,pml4eGetAddr,pdpeGetAddr,
    pdeGetAddr] at h
  cases h₁ : s.child s.pml4Addr (virtAddrGetPml4e virt) with
  | none =>
    rw [if_pos (by simp [child_eq_none.mp h₁])] at h
    exact Or.inl ⟨rfl,(Outcome.done.inj h).2.symm⟩
  | some pdpt =>
  obtain ⟨hp₁,ha₁⟩ := child_eq_some.mp h₁
  rw [if_neg (by simp [hp₁]),ha₁] at h
  rw [Option.bind_some]
  cases h₂ : s.child pdpt (virtAddrGetPdpe virt) with
  | none =>
    rw [if_pos (by simp [child_eq_none.mp h₂])] at h
    exact Or.inl ⟨rfl,(Outcome.done.inj h).2.symm⟩
  | some pdt =>
  obtain ⟨hp₂,ha₂⟩ := child_eq_some.mp h₂
  rw [if_neg (by simp [hp₂]),ha₂] at h
  rw [Option.bind_some]
  cases h₃ : s.child pdt (virtAddrGetPde virt) with
  | none =>
    rw [if_pos (by simp [child_eq_none.mp h₃])] at h
    exact Or.inl ⟨rfl,(Outcome.done.inj h).2.symm⟩
  | some pt =>
  obtain ⟨hp₃,ha₃⟩ := child_eq_some.mp h₃
  rw [if_neg (by simp [hp₃]),ha₃] at h
  obtain ⟨_,_,hrel,hleaf⟩ := Outcome.bind_eq_done.mp h
  obtain ⟨a,rfl,hused,hfree⟩ := releaseTables_eq_done hrel
  refine Or.inr ⟨pt,a,rfl,hused,hfree,?_⟩
  by_cases hpte : pteQueryFlag (s.table pt (virtAddrGetPte virt)) ptePresent
  · rw [if_neg (by simp [hpte])] at hleaf
    rw [if_pos hpte]
    exact (Outcome.done.inj hleaf).2.symm
  · rw [if_pos (by simp [hpte])] at hleaf
    rw [if_neg hpte]
    exact (Outcome.done.inj hleaf).2.symm

/-- Unmapping moves no table. -/
theorem pageUnmap_follow {virt : U64} (ht : IsTree s) (h : pageUnmap fa virt s = .done () s') :
    IsTree s' ∧ ∀ q : List TableIndex, q.length ≤ 3 →
      follow s'.child s'.pml4Addr q = follow s.child s.pml4Addr q := by
  obtain ⟨-,rfl⟩ | ⟨pt,a,hp,-,-,rfl⟩ := pageUnmap_eq_done h
  · exact ⟨ht,fun _ _ => rfl⟩
  · split
    · exact ⟨isTree_setLeaf (s := { s with frames := a }) ht hp _,
        fun q hq => follow_setLeaf (s := { s with frames := a }) ht hp _ hq⟩
    · exact ⟨ht,fun _ _ => rfl⟩

theorem pageUnmap_spec {virt : U64} (ht : IsTree s) (h : pageUnmap fa virt s = .done () s')
    (v : U64) : pageVirtToPhysAddr s' v =
      if SamePage v virt then 0#64 else pageVirtToPhysAddr s v := by
  obtain ⟨hnone,rfl⟩ | ⟨pt,a,hp,-,-,rfl⟩ := pageUnmap_eq_done h
  · by_cases hv : SamePage v virt
    · rw [if_pos hv,pageVirtToPhysAddr_eq,(samePage_iff.mp hv).1,hnone]
      rfl
    · rw [if_neg hv]
  · by_cases hpte : pteQueryFlag (s.table pt (virtAddrGetPte virt)) ptePresent
    · rw [if_pos hpte,pageVirtToPhysAddr_setLeaf (s := { s with frames := a }) ht hp,
        pteQueryFlag,entryQueryFlag_zero]
      rfl
    · rw [if_neg hpte]
      by_cases hv : SamePage v virt
      · obtain ⟨hpath,hleaf⟩ := samePage_iff.mp hv
        have hsame : pageVirtToPhysAddr { s with frames := a } v = s.leafAddr pt v := by
          rw [pageVirtToPhysAddr_eq,hpath]
          exact congrArg (fun o => (o.map (fun t => s.leafAddr t v)).getD 0#64) hp
        rw [if_pos hv,hsame]
        simp [leafAddr,hleaf,hpte]
      · rw [if_neg hv]
        rfl

/-- Mapping a page inserts it into the address space and unmapping a page deletes
it; every other address keeps its translation. -/
theorem pageMap_insert_pageUnmap_delete (fa : FrameAllocator A) (ht : IsTree s) (virt : U64) :
    (∀ (phys : PhysicalAddress) (kernel : Bool), phys.toNat < 2 ^ 52 →
      Supplies fa s.InTree 3 s.frames →
      ∃ s', pageMap fa virt phys kernel s = .done () s' ∧ IsTree s' ∧
        ∀ v, pageVirtToPhysAddr s' v =
          if SamePage v virt then (phys &&& ~~~0xFFF#64) + (v &&& 0xFFF#64)
          else pageVirtToPhysAddr s v) ∧
    (∀ s', pageUnmap fa virt s = .done () s' →
      ∀ v, pageVirtToPhysAddr s' v = if SamePage v virt then 0#64 else pageVirtToPhysAddr s v) :=
  ⟨fun _ _ hphys hsup => pageMap_spec ht hphys hsup,fun _ h => pageUnmap_spec ht h⟩

/-- A PML4 without present entries and a manager with three low frames. -/
def emptySpace : Paging Pmm where
  pml4Addr := kernelOffset + 0x200000#64
  table _ _ := 0#64
  frames :=
    { node := fun p => if p = 1#64 then ⟨2#64,0x1000#64⟩ else if p = 2#64 then ⟨3#64,0x2000#64⟩
        else if p = 3#64 then ⟨0#64,0x3000#64⟩ else ⟨0#64,0#64⟩
      pmmLow := 1#64
      pmmHigh := 0#64
      pmmFreeList := 0#64 }

theorem emptySpace_child (t : U64) (i : TableIndex) : emptySpace.child t i = none := by
  rw [child_eq_none]
  exact entryQueryFlag_zero

theorem emptySpace_supplies : Supplies (pmmAllocator 8) emptySpace.InTree 3 emptySpace.frames := by
  have hroot (t : U64) (h : emptySpace.InTree t) : t = emptySpace.pml4Addr := by
    obtain ⟨q,-,hq⟩ := h
    exact (follow_of_empty (emptySpace_child _) hq).2
  refine ⟨0x1000#64,_,rfl,rfl,fun h => ?_,0x2000#64,_,rfl,rfl,fun h => ?_,0x3000#64,_,rfl,rfl,
    fun h => ?_,trivial⟩
  · exact absurd (hroot _ h) (by decide)
  · exact absurd (h.imp_left (hroot _)) (by decide)
  · exact absurd (h.imp_left (Or.imp_left (hroot _))) (by decide)

theorem emptySpace_map_unmap : ∃ s₁ s₂,
    pageMap (pmmAllocator 8) 0x5000#64 0x7123#64 true emptySpace = .done () s₁ ∧
    pageVirtToPhysAddr s₁ 0x5ABC#64 = 0x7ABC#64 ∧ pageVirtToPhysAddr s₁ 0x6000#64 = 0#64 ∧
    pageUnmap (pmmAllocator 8) 0x5000#64 emptySpace = .done () s₂ ∧
    pageVirtToPhysAddr s₂ 0x5ABC#64 = 0#64 := by
  have h := pageMap_insert_pageUnmap_delete (pmmAllocator 8) (s := emptySpace)
    (TreeTo.of_empty (emptySpace_child _)) 0x5000#64
  obtain ⟨s₁,h₁,-,hv₁⟩ := h.1 0x7123#64 true (by decide) emptySpace_supplies
  refine ⟨s₁,_,h₁,?_,?_,rfl,?_⟩
  · rw [hv₁,if_pos (by decide)]
    decide
  · rw [hv₁,if_neg (by decide)]
    rfl
  · rw [h.2 _ rfl,if_pos (by decide)]

end Lios.Paging

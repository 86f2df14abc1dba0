import Mathlib.Data.Set.Basic
import Lios.Mem.PageMap

/-! # Mapping with a stock of free frames

The frames that the allocator can still hand out are no tables of the tree. A call of
`page_map` keeps that, for any number of calls, and changes the translations of one page.
Addresses of one canonical half are on one page if and only if their page numbers agree.
-/
namespace Lios.Paging
variable {A : Type} {fa : FrameAllocator A} {s s' : Paging A} {kernel : Bool}

/-- The frames that `pmm_alloc_low` can hand out: each is handed out once. -/
structure Stock (fa : FrameAllocator A) where
  free : A → Set PhysicalAddress
  settled : ∀ a, (fa.allocLow a).Settled
  allocLow : ∀ a f a', fa.allocLow a = .done f a' →
    f ∈ free a ∧ f &&& addrMask = f ∧ free a' ⊆ free a \ {f}

/-- The tables are a tree and no free frame is one of them. -/
structure Spare (stock : Stock fa) (s : Paging A) : Prop where
  tree : IsTree s
  outside : ∀ f ∈ stock.free s.frames, ¬ s.InTree (f + kernelOffset)

namespace Spare
variable {stock : Stock fa}

theorem withFrames (h : Spare stock s) {a : A} (ha : stock.free a ⊆ stock.free s.frames) :
    Spare stock { s with frames := a } :=
  ⟨h.tree,fun f hf => h.outside f (ha hf)⟩

theorem settled_nextTable (stock : Stock fa) (kernel : Bool) (tbl : U64) (i : TableIndex)
    (s : Paging A) : (Paging.nextTable fa kernel tbl i s).Settled := by
  rw [Paging.nextTable]
  split
  · refine Outcome.Settled.bind ?_ fun _ _ _ => trivial
    exact Outcome.Settled.bind (stock.settled s.frames).mapState fun _ _ _ => trivial
  · trivial

theorem settled_pageMap (stock : Stock fa) (virt : U64) (phys : PhysicalAddress) (kernel : Bool)
    (s : Paging A) : (Paging.pageMap fa virt phys kernel s).Settled := by
  refine (settled_nextTable stock ..).bind fun _ _ _ => ?_
  refine (settled_nextTable stock ..).bind fun _ _ _ => ?_
  exact (settled_nextTable stock ..).bind fun _ _ _ => trivial

/-- One level of `page_map` reaches the next table, and no translation changes. -/
theorem nextTable {path : List TableIndex} {tbl t : U64} {i : TableIndex} (h : Spare stock s)
    (hp : follow s.child s.pml4Addr path = some tbl) (hlen : path.length < 3)
    (hdone : Paging.nextTable fa kernel tbl i s = .done t s') :
    Spare stock s' ∧ follow s'.child s'.pml4Addr (path ++ [i]) = some t ∧
      ∀ v, pageVirtToPhysAddr s' v = pageVirtToPhysAddr s v := by
  cases hc : s.child tbl i with
  | some u =>
    rw [nextTable_of_some hc] at hdone
    obtain ⟨rfl,rfl⟩ := Outcome.done.inj hdone
    exact ⟨h,(follow_snoc_of_some hp).trans hc,fun _ => rfl⟩
  | none =>
    obtain ⟨f,a,ha,rfl,rfl⟩ := (nextTable_eq_done_of_none hc).mp hdone
    obtain ⟨hmem,hal,hfree⟩ := stock.allocLow _ _ _ ha
    have h' := h.withFrames fun g hg => (hfree hg).1
    have hf : FreshFrame { s with frames := a } f := ⟨hal,h.outside f hmem⟩
    refine ⟨⟨isTree_linkTable h'.tree hp hlen hc hf,fun g hg hin => ?_⟩,?_,fun v => ?_⟩
    · rcases inTree_linkTable h'.tree hp hlen hc hf hin with hin | heq
      · exact h'.outside g hg hin
      · exact (hfree hg).2 (by simpa using heq)
    · refine (follow_linkTable h'.tree hp hlen hc hf ?_).trans (if_pos rfl)
      rw [List.length_append,List.length_singleton]
      omega
    · exact pageVirtToPhysAddr_linkTable h'.tree hp hlen hc hf

theorem setLeaf {virt pt e : U64} (h : Spare stock s)
    (hp : follow s.child s.pml4Addr (pathOf virt) = some pt) :
    Spare stock (s.setEntry pt (virtAddrGetPte virt) e) := by
  refine ⟨isTree_setLeaf h.tree hp _,fun f hf hin => h.outside f hf ?_⟩
  obtain ⟨q,hq,hqt⟩ := hin
  rw [setEntry_pml4Addr,follow_setLeaf h.tree hp _ hq] at hqt
  exact ⟨q,hq,hqt⟩

theorem pageMap {virt : U64} {phys : PhysicalAddress} (h : Spare stock s)
    (hphys : phys.toNat < 2 ^ 52) (hdone : Paging.pageMap fa virt phys kernel s = .done () s') :
    Spare stock s' ∧ ∀ v, pageVirtToPhysAddr s' v =
      if SamePage v virt then (phys &&& ~~~0xFFF#64) + (v &&& 0xFFF#64)
      else pageVirtToPhysAddr s v := by
  obtain ⟨pdpt,s₁,pdt,s₂,pt,s₃,h₁,h₂,h₃,rfl⟩ := pageMap_eq_done hdone
  obtain ⟨hs₁,hp₁,hv₁⟩ := h.nextTable follow_nil (by decide) h₁
  obtain ⟨hs₂,hp₂,hv₂⟩ := hs₁.nextTable hp₁ (by simp) h₂
  obtain ⟨hs₃,hp₃,hv₃⟩ := hs₂.nextTable hp₂ (by simp) h₃
  have hpath : follow s₃.child s₃.pml4Addr (pathOf virt) = some pt := hp₃
  refine ⟨hs₃.setLeaf hpath,fun v => ?_⟩
  rw [pageVirtToPhysAddr_setLeaf hs₃.tree hpath,leafEntry_present,if_pos rfl,leafEntry_addr,
    addrMask_eq hphys,hv₃,hv₂,hv₁]
  rfl

end Spare

/-- What the single calls of `pmm_alloc_low` do to the manager, a call of `page_map` does. -/
theorem pageMap_frames {R : A → A → Prop} (hrefl : ∀ a, R a a)
    (htrans : ∀ a b c, R a b → R b c → R a c)
    (hstep : ∀ a f a', fa.allocLow a = .done f a' → R a a') {virt : U64} {phys : PhysicalAddress}
    (hdone : pageMap fa virt phys kernel s = .done () s') : R s.frames s'.frames := by
  have hnext {tbl t : U64} {i : TableIndex} {s s' : Paging A}
      (h : nextTable fa kernel tbl i s = .done t s') : R s.frames s'.frames := by
    cases hc : s.child tbl i with
    | some u =>
      rw [nextTable_of_some hc] at h
      obtain ⟨-,rfl⟩ := Outcome.done.inj h
      exact hrefl _
    | none =>
      obtain ⟨f,a,ha,-,rfl⟩ := (nextTable_eq_done_of_none hc).mp h
      exact hstep _ _ _ ha
  obtain ⟨pdpt,s₁,pdt,s₂,pt,s₃,h₁,h₂,h₃,rfl⟩ := pageMap_eq_done hdone
  have hlast : R s₂.frames s₃.frames := hnext h₃
  exact htrans _ _ _ (htrans _ _ _ (hnext h₁) (hnext h₂)) hlast

/-! Canonical addresses. -/

/-- The bits from 47 on agree. -/
def Canonical (v : U64) : Prop := v.toNat < 2 ^ 47 ∨ 0xFFFF800000000000 ≤ v.toNat

instance (v : U64) : Decidable (Canonical v) := inferInstanceAs (Decidable (_ ∨ _))

theorem samePage_iff_mod {v w : U64} :
    SamePage v w ↔ v.toNat / 4096 % 2 ^ 36 = w.toNat / 4096 % 2 ^ 36 := by
  have hbit (x : U64) (i : ℕ) : (x.toNat / 4096 % 2 ^ 36).testBit i =
      (decide (i < 36) && x.getLsbD (12 + i)) := by
    rw [Nat.testBit_mod_two_pow,show (4096 : ℕ) = 2 ^ 12 from rfl,Nat.testBit_div_two_pow,
      BitVec.getLsbD,Nat.add_comm]
  constructor
  · intro h
    apply Nat.eq_of_testBit_eq
    intro i
    rw [hbit,hbit]
    by_cases hi : i < 36
    · rw [h (12 + i) (by omega) (by omega)]
    · simp [hi]
  · intro h i hi hi'
    have hi12 : 12 + (i - 12) = i := by omega
    have htest := congrArg (fun n => n.testBit (i - 12)) h
    simp only [hbit,hi12,show i - 12 < 36 by omega,decide_true,Bool.true_and] at htest
    exact htest

theorem samePage_iff_div {v w : U64} (hv : Canonical v) (hw : Canonical w) :
    SamePage v w ↔ v.toNat / 4096 = w.toNat / 4096 := by
  have hlv := v.isLt
  have hlw := w.isLt
  rw [samePage_iff_mod]
  constructor
  · intro h
    rcases hv with hv | hv <;> rcases hw with hw | hw <;> omega
  · intro h
    rw [h]

theorem toNat_offset (v : U64) : (v &&& 0xFFF#64).toNat = v.toNat % 4096 := by
  rw [BitVec.toNat_and]
  exact Nat.and_two_pow_sub_one_eq_mod v.toNat 12

theorem and_not_mask_eq {phys : U64} (hal : phys.toNat % 4096 = 0) :
    phys &&& ~~~0xFFF#64 = phys := by
  have hzero : phys &&& 0xFFF#64 = 0#64 := by
    apply BitVec.eq_of_toNat_eq
    rw [toNat_offset]
    exact hal
  apply BitVec.eq_of_getLsbD_eq
  intro i hi
  have hb := congrArg (fun x : U64 => x.getLsbD i) hzero
  simp only [BitVec.getLsbD_and,BitVec.getLsbD_zero,Bool.and_eq_false_iff] at hb
  rw [BitVec.getLsbD_and,BitVec.getLsbD_not]
  rcases hb with hb | hb
  · rw [hb,Bool.false_and]
  · simp only [hb,hi,decide_true,Bool.not_false,Bool.and_true]

/-- The translation of an address on a page that lies on an aligned frame. -/
theorem toNat_frame_add {phys v : U64} (hal : phys.toNat % 4096 = 0) :
    ((phys &&& ~~~0xFFF#64) + (v &&& 0xFFF#64)).toNat = phys.toNat + v.toNat % 4096 := by
  have hp := phys.isLt
  rw [BitVec.toNat_add,and_not_mask_eq hal,toNat_offset]
  omega

end Lios.Paging

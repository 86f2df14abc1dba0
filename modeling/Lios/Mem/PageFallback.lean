import Lios.Mem.PageSpace

/-! # Low frames for want of high ones

When no frame above 2 GiB is left, `pmm_alloc_high` takes one from below and unmaps the page
whose address is the number of the frame. This is a page of the running program, if the program
has mapped one there. In all other cases every address keeps its translation.
-/
namespace Lios.Paging
variable {A : Type} {fa : FrameAllocator A} {s s' : Paging A} {virt pt v : U64}

/-- The page of `virt` is mapped. -/
def PageMapped (s : Paging A) (virt : U64) : Prop :=
  ∃ pt, follow s.child s.pml4Addr (pathOf virt) = some pt ∧
    pteQueryFlag (s.table pt (virtAddrGetPte virt)) ptePresent = true

theorem toNat_pteGetAddr (e : U64) :
    (pteGetAddr e).toNat % 4096 = 0 ∧ (pteGetAddr e).toNat < 2 ^ 52 := by
  constructor
  · rw [← toNat_offset,pteGetAddr,entryGetAddr,BitVec.and_assoc,
      show addrMask &&& 0xFFF#64 = 0#64 by decide,BitVec.and_zero,BitVec.toNat_zero]
  · rw [pteGetAddr,entryGetAddr,BitVec.toNat_and]
    exact Nat.and_le_right.trans_lt (by decide)

/-- The addresses of a page that is mapped lie on one frame. -/
theorem PageMapped.frame (h : PageMapped s b) : ∃ f, f % 4096 = 0 ∧ f < 2 ^ 52 ∧
    ∀ v, SamePage v b → (pageVirtToPhysAddr s v).toNat = f + v.toNat % 4096 := by
  obtain ⟨pt,hpt,hpresent⟩ := h
  obtain ⟨halign,hlt⟩ := toNat_pteGetAddr (s.table pt (virtAddrGetPte b))
  refine ⟨_,halign,hlt,fun v hv => ?_⟩
  obtain ⟨hpath,hleaf⟩ := samePage_iff.mp hv
  rw [pageVirtToPhysAddr_eq,hpath,hpt,Option.map_some,Option.getD_some,leafAddr,hleaf,hpresent]
  change (pteGetAddr (s.table pt (virtAddrGetPte b)) + (v &&& 0xFFF#64)).toNat = _
  rw [BitVec.toNat_add,toNat_offset]
  omega

section Clear

theorem child_clear (i : TableIndex) (t : U64) (j : TableIndex) :
    (s.setEntry pt i 0#64).child t j = none ∨ (s.setEntry pt i 0#64).child t j = s.child t j := by
  by_cases h : t = pt ∧ j = i
  · obtain ⟨rfl,rfl⟩ := h
    refine .inl (child_eq_none.mpr ?_)
    rw [setEntry_table_self]
    exact entryQueryFlag_zero
  · exact .inr (child_congr (setEntry_table_of_ne s 0#64 h))

/-- Clearing the entry of a page takes its translation away, also if the entry is an entry of
another level at the same time. -/
theorem pageVirtToPhysAddr_clear (hp : follow s.child s.pml4Addr (pathOf virt) = some pt)
    (hv : SamePage v virt) :
    pageVirtToPhysAddr (s.setEntry pt (virtAddrGetPte virt) 0#64) v = 0#64 := by
  obtain ⟨hpath,hleaf⟩ := samePage_iff.mp hv
  rw [pageVirtToPhysAddr_eq,setEntry_pml4Addr,hpath]
  have hfewer : follow (s.setEntry pt (virtAddrGetPte virt) 0#64).child s.pml4Addr (pathOf virt) =
        none ∨
      follow (s.setEntry pt (virtAddrGetPte virt) 0#64).child s.pml4Addr (pathOf virt) =
        follow s.child s.pml4Addr (pathOf virt) :=
    follow_of_fewer (child_clear (virtAddrGetPte virt))
  rcases hfewer with h | h
  · rw [h]
    rfl
  · rw [h,hp,Option.map_some,Option.getD_some,leafAddr,hleaf,setEntry_table_self]
    rfl

/-- The second byte of a page that is mapped has a translation other than zero. -/
theorem pageVirtToPhysAddr_ne_zero (hp : PageMapped s virt) (hv : SamePage v virt)
    (hodd : v.toNat % 2 = 1) : pageVirtToPhysAddr s v ≠ 0#64 := by
  obtain ⟨f,halign,-,hframe⟩ := hp.frame
  intro h0
  have hsum := hframe v hv
  rw [h0,BitVec.toNat_zero] at hsum
  omega

end Clear

/-- The second byte of the page of `virt`. -/
theorem exists_samePage_odd (h : virt.toNat < 2 ^ 47) :
    ∃ v : U64, v.toNat < 2 ^ 47 ∧ v.toNat % 2 = 1 ∧ SamePage v virt := by
  have hv : (BitVec.ofNat 64 (virt.toNat / 4096 * 4096 + 1)).toNat = virt.toNat / 4096 * 4096 + 1 := by
    rw [BitVec.toNat_ofNat]
    exact Nat.mod_eq_of_lt (by omega)
  refine ⟨BitVec.ofNat 64 (virt.toNat / 4096 * 4096 + 1),by omega,by omega,?_⟩
  rw [samePage_iff_mod,hv]
  congr 1
  omega

/-- Unmapping a page that is not mapped changes no translation. -/
theorem pageUnmap_of_not_mapped (h : pageUnmap fa virt s = .done () s') (hp : ¬ PageMapped s virt)
    (v : U64) : pageVirtToPhysAddr s' v = pageVirtToPhysAddr s v := by
  obtain ⟨-,rfl⟩ | ⟨pt,a,hpt,-,-,rfl⟩ := pageUnmap_eq_done h
  · rfl
  · rw [if_neg fun hpresent => hp ⟨pt,hpt,hpresent⟩]
    rfl

/-- Unmapping a page that is mapped takes its translation away. -/
theorem pageUnmap_of_mapped (h : pageUnmap fa virt s = .done () s') (hp : PageMapped s virt)
    (hv : SamePage v virt) : pageVirtToPhysAddr s' v = 0#64 := by
  obtain ⟨pt,hpt,hpresent⟩ := hp
  obtain ⟨hnone,-⟩ | ⟨pt',a,hpt',-,-,rfl⟩ := pageUnmap_eq_done h
  · rw [hpt] at hnone
    cases hnone
  · rw [hpt] at hpt'
    obtain rfl := Option.some.inj hpt'
    rw [if_pos hpresent]
    exact pageVirtToPhysAddr_clear (s := { s with frames := a }) hpt hv

section Fallback
variable {fuel : ℕ} {f : PhysicalAddress} {s s' : Paging Pmm}

/-- The two ways in which `pmm_alloc_high` returns. -/
theorem pmmAllocHigh_cases
    (h : Pmm.pmmAllocHigh (framesLens Pmm) (pageUnmap (pmmAllocator fuel)) s = .done f s') :
    (s.frames.pmmHigh ≠ 0#64 ∧ ∃ a, s' = { s with frames := a }) ∨
      s.frames.pmmHigh = 0#64 ∧ f = s.frames.addr s.frames.pmmLow ∧
        ∃ a, pageUnmap (pmmAllocator fuel) f { s with frames := a } = .done () s' := by
  unfold Pmm.pmmAllocHigh at h
  split at h
  · rename_i hhigh
    obtain ⟨g,t,hlow,h⟩ := Outcome.bind_eq_done.mp h
    obtain ⟨_,u,hunmap,h⟩ := Outcome.bind_eq_done.mp h
    obtain ⟨rfl,rfl⟩ := Outcome.done.inj h
    obtain ⟨a,ha,rfl⟩ := Lens.lift_eq_done.mp hlow
    exact .inr ⟨hhigh,(Pmm.pmmAllocLow_eq_done.mp ha).2.1,a,hunmap⟩
  · rename_i hhigh
    obtain ⟨a,-,rfl⟩ := Lens.lift_eq_done.mp h
    exact .inl ⟨hhigh,a,rfl⟩

/-- Taking a high frame keeps the translation of every address if a frame above 2 GiB is left or
the page at the number of the first low frame is not mapped. As low frames lie below 2 GiB, the
addresses of the lower half are kept only then. -/
theorem pmmAllocHigh_keeps_iff
    (h : Pmm.pmmAllocHigh (framesLens Pmm) (pageUnmap (pmmAllocator fuel)) s = .done f s') :
    (s.frames.pmmHigh ≠ 0#64 ∨ ¬ PageMapped s (s.frames.addr s.frames.pmmLow) →
      ∀ v, pageVirtToPhysAddr s' v = pageVirtToPhysAddr s v) ∧
    (s.frames.addr s.frames.pmmLow < twoGB →
      ((∀ v, v.toNat < 2 ^ 47 → pageVirtToPhysAddr s' v = pageVirtToPhysAddr s v) ↔
        s.frames.pmmHigh ≠ 0#64 ∨ ¬ PageMapped s (s.frames.addr s.frames.pmmLow))) := by
  have hkeep (hc : s.frames.pmmHigh ≠ 0#64 ∨ ¬ PageMapped s (s.frames.addr s.frames.pmmLow))
      (v : U64) : pageVirtToPhysAddr s' v = pageVirtToPhysAddr s v := by
    obtain ⟨-,a,rfl⟩ | ⟨hhigh,rfl,a,hunmap⟩ := pmmAllocHigh_cases h
    · rfl
    · exact pageUnmap_of_not_mapped hunmap (hc.resolve_left fun hne => hne hhigh) v
  refine ⟨hkeep,fun hlow => ⟨fun hall => ?_,fun hc v _ => hkeep hc v⟩⟩
  by_contra hc
  rw [not_or,not_not,not_not] at hc
  obtain ⟨hne,-⟩ | ⟨-,rfl,a,hunmap⟩ := pmmAllocHigh_cases h
  · exact hne hc.1
  · have hlow : (s.frames.addr s.frames.pmmLow).toNat < 2 ^ 47 :=
      (BitVec.lt_def.mp hlow).trans (by decide)
    obtain ⟨v,hv,hodd,hsame⟩ := exists_samePage_odd hlow
    have hzero := pageUnmap_of_mapped (v := v) hunmap hc.2 hsame
    rw [hall v hv] at hzero
    exact pageVirtToPhysAddr_ne_zero hc.2 hsame hodd hzero

/-- A program has mapped the pages at `0x500000` and `0x501000`, no high frame is left, and the
first low frame is `f`. -/
def userPages (f : PhysicalAddress) : Paging Pmm where
  pml4Addr := kernelOffset + 0x1000#64
  table t i :=
    if t = kernelOffset + 0x1000#64 then if i = 0#9 then 0x2007#64 else 0#64
    else if t = kernelOffset + 0x2000#64 then if i = 0#9 then 0x3007#64 else 0#64
    else if t = kernelOffset + 0x3000#64 then if i = 2#9 then 0x4007#64 else 0#64
    else if t = kernelOffset + 0x4000#64 then
      if i = 0x100#9 then 0x9007#64 else if i = 0x101#9 then 0xA007#64 else 0#64
    else 0#64
  frames :=
    { node := fun p => if p = 1#64 then ⟨0#64,f⟩ else ⟨0#64,0#64⟩
      pmmLow := 1#64
      pmmHigh := 0#64
      pmmFreeList := 0#64 }

theorem userPages_not_mapped : ¬ PageMapped (userPages 0x600000#64) 0x600000#64 := by
  rintro ⟨pt,hpt,hpresent⟩
  have hnone : follow (userPages 0x600000#64).child (userPages 0x600000#64).pml4Addr
      (pathOf 0x600000#64) = none := by decide +kernel
  rw [hpt] at hnone
  cases hnone

/-- A frame whose number is not the address of a page of the program. -/
theorem userPages_keeps : ∃ s', Pmm.pmmAllocHigh (framesLens Pmm) (pageUnmap (pmmAllocator 4))
      (userPages 0x600000#64) = .done 0x600000#64 s' ∧
    ∀ v, v.toNat < 2 ^ 47 → pageVirtToPhysAddr s' v = pageVirtToPhysAddr (userPages 0x600000#64) v := by
  have hdone := Outcome.eq_done_of_returned (a := 0x600000#64) (x := Pmm.pmmAllocHigh
    (framesLens Pmm) (pageUnmap (pmmAllocator 4)) (userPages 0x600000#64)) (by decide +kernel)
    (userPages 0x600000#64)
  exact ⟨_,hdone,((pmmAllocHigh_keeps_iff hdone).2 (by decide)).mpr (.inr userPages_not_mapped)⟩

/-- Taking the frame `0x500000` unmaps the page of the program at this address. -/
theorem userPages_not_keeps : ∃ s', Pmm.pmmAllocHigh (framesLens Pmm)
      (pageUnmap (pmmAllocator 4)) (userPages 0x500000#64) = .done 0x500000#64 s' ∧
    pageVirtToPhysAddr (userPages 0x500000#64) 0x500000#64 = 0x9000#64 ∧
    pageVirtToPhysAddr s' 0x500000#64 = 0#64 :=
  ⟨_,Outcome.eq_done_of_returned (by decide +kernel) (userPages 0x500000#64),by decide +kernel,
    by decide +kernel⟩

end Fallback

end Lios.Paging

import Lios.Mem.PageFallback

/-! # The walk of the processor

The processor translates an address by reading the entries of the four levels from physical
memory, here in doublewords. The paging code reads the same entries through kernel pointers.
-/
namespace Lios
namespace Mmu
open Paging
variable {A : Type} (m : ℕ → U32) (cr3 : ℕ)

/-- The entry of eight bytes at a physical address. -/
def physEntry (a : ℕ) : U64 := m (a + 4) ++ m a

/-- The table or frame behind the entry `i` of the table at `a`, if the entry is present. -/
def target (a i : ℕ) : Option ℕ :=
  if !entryQueryFlag (physEntry m (a + 8 * i)) pml4ePdpePdePresent then none
  else some (entryGetAddr (physEntry m (a + 8 * i))).toNat

/-- The physical address of `virt`, unless an entry on the way is not present. -/
def translate (virt : U64) : Option ℕ :=
  (target m cr3 (virtAddrGetPml4e virt).toNat).bind fun pdpt =>
  (target m pdpt (virtAddrGetPdpe virt).toNat).bind fun pdt =>
  (target m pdt (virtAddrGetPde virt).toNat).bind fun pt =>
  (target m pt (virtAddrGetPte virt).toNat).map fun frame => frame + virt.toNat % 4096

/-- The tables as the paging code reads them, through pointers of the kernel window. -/
def pagingOf (frames : A) : Paging A where
  pml4Addr := BitVec.ofNat 64 cr3 + kernelOffset
  table p i := physEntry m ((p - kernelOffset).toNat + 8 * i.toNat)
  frames := frames

variable {m cr3} {frames : A} {virt : U64}

theorem pagingOf_table (a : U64) (i : TableIndex) :
    (pagingOf m cr3 frames).table (a + kernelOffset) i = physEntry m (a.toNat + 8 * i.toNat) := by
  simp only [pagingOf,add_sub_cancel_right]

theorem pagingOf_root (hcr3 : cr3 < 2 ^ 64) (i : TableIndex) :
    (pagingOf m cr3 frames).table (pagingOf m cr3 frames).pml4Addr i =
      physEntry m (cr3 + 8 * i.toNat) := by
  rw [show (pagingOf m cr3 frames).pml4Addr = BitVec.ofNat 64 cr3 + kernelOffset from rfl,
    pagingOf_table,BitVec.toNat_ofNat,Nat.mod_eq_of_lt hcr3]

/-- One level of the walk, as the processor tests it. -/
theorem child_bind {β : Type} (s : Paging A) (t : U64) (i : TableIndex) (k : U64 → Option β) :
    (s.child t i).bind k = if !entryQueryFlag (s.table t i) pml4ePdpePdePresent then none
      else k (entryGetAddr (s.table t i) + kernelOffset) := by
  unfold child
  cases entryQueryFlag (s.table t i) pml4ePdpePdePresent <;> rfl

theorem target_bind {β : Type} (a i : ℕ) (k : ℕ → Option β) :
    (target m a i).bind k = if !entryQueryFlag (physEntry m (a + 8 * i)) pml4ePdpePdePresent then none
      else k (entryGetAddr (physEntry m (a + 8 * i))).toNat := by
  unfold target
  cases entryQueryFlag (physEntry m (a + 8 * i)) pml4ePdpePdePresent <;> rfl

theorem target_map {β : Type} (a i : ℕ) (f : ℕ → β) :
    (target m a i).map f = if !entryQueryFlag (physEntry m (a + 8 * i)) pml4ePdpePdePresent then none
      else some (f (entryGetAddr (physEntry m (a + 8 * i))).toNat) := by
  unfold target
  cases entryQueryFlag (physEntry m (a + 8 * i)) pml4ePdpePdePresent <;> rfl

theorem child_eq_target (a : U64) (i : TableIndex) :
    (pagingOf m cr3 frames).child (a + kernelOffset) i =
      (target m a.toNat i.toNat).map fun t => BitVec.ofNat 64 t + kernelOffset := by
  unfold child target
  rw [pagingOf_table]
  cases entryQueryFlag (physEntry m (a.toNat + 8 * i.toNat)) pml4ePdpePdePresent <;> simp

/-- The physical address behind a leaf entry. -/
def leafTarget (s : Paging A) (virt pt : U64) : Option ℕ :=
  if !pteQueryFlag (s.table pt (virtAddrGetPte virt)) ptePresent then none
  else some ((pteGetAddr (s.table pt (virtAddrGetPte virt))).toNat + virt.toNat % 4096)

/-- The walk of the processor goes through the tree of the paging code. -/
theorem translate_eq (frames : A) (hcr3 : cr3 < 2 ^ 64) (virt : U64) : translate m cr3 virt =
    (follow (pagingOf m cr3 frames).child (pagingOf m cr3 frames).pml4Addr (pathOf virt)).bind
      (leafTarget (pagingOf m cr3 frames) virt) := by
  simp only [follow,pathOf,List.foldlM_cons,List.foldlM_nil,Option.bind_eq_bind,Option.pure_def,
    Option.bind_assoc,Option.bind_some]
  simp only [translate,target_bind,target_map,child_bind,pagingOf_root hcr3,pagingOf_table,
    leafTarget]

theorem pageMapped_iff (frames : A) (hcr3 : cr3 < 2 ^ 64) :
    PageMapped (pagingOf m cr3 frames) virt ↔ (translate m cr3 virt).isSome := by
  rw [translate_eq frames hcr3,Option.isSome_bind,Option.any_eq_true]
  apply exists_congr
  intro pt
  apply and_congr_right
  intro _
  unfold leafTarget
  cases pteQueryFlag ((pagingOf m cr3 frames).table pt (virtAddrGetPte virt)) ptePresent <;> simp

/-- The software walk returns what the processor finds. -/
theorem pageVirtToPhysAddr_of_translate (frames : A) (hcr3 : cr3 < 2 ^ 64) {a : ℕ}
    (h : translate m cr3 virt = some a) :
    (pageVirtToPhysAddr (pagingOf m cr3 frames) virt).toNat = a := by
  rw [translate_eq frames hcr3] at h
  obtain ⟨pt,hpt,hleaf⟩ := Option.bind_eq_some_iff.mp h
  rw [pageVirtToPhysAddr_eq,hpt,Option.map_some,Option.getD_some,leafAddr]
  unfold leafTarget at hleaf
  split at hleaf
  · cases hleaf
  rename_i hpresent
  have hlt := (toNat_pteGetAddr ((pagingOf m cr3 frames).table pt (virtAddrGetPte virt))).2
  rw [if_neg hpresent,← Option.some.inj hleaf,show pageSize - 1#64 = 0xFFF#64 from rfl,
    BitVec.toNat_add,toNat_offset]
  omega

end Mmu

end Lios

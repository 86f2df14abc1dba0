import Lios.Mem.PageFallback

/-! # One physical address for a buffer

A device that is given the translation of the first byte of a buffer goes on from there without
looking at the page tables. It finds the bytes of the buffer if and only if the buffer stays on
its page or goes on to a page that lies on the next frame.
-/
namespace Lios.Paging
variable {A : Type} {s : Paging A} {b v : U64} {n : ℕ}

/-- The first address of the page of `v`. -/
def pageStart (v : U64) : U64 := v &&& ~~~0xFFF#64

/-- The `n` bytes from the address `b` on have the physical addresses that follow the one of
`b`. -/
def Contiguous (s : Paging A) (b : U64) (n : ℕ) : Prop :=
  ∀ k < n, pageVirtToPhysAddr s b + BitVec.ofNat 64 k =
    pageVirtToPhysAddr s (b + BitVec.ofNat 64 k)

/-- The page of `b` is mapped; it holds the `n` bytes from `b` on, or the page behind it is mapped
to the frame behind its frame. -/
def FitsPages (s : Paging A) (b : U64) (n : ℕ) : Prop :=
  PageMapped s b ∧ (b.toNat % 4096 + n ≤ 4096 ∨ PageMapped s (b + pageSize) ∧
    pageVirtToPhysAddr s (pageStart (b + pageSize)) =
      pageVirtToPhysAddr s (pageStart b) + pageSize)

section Frames

theorem samePage_pageStart (v : U64) : SamePage (pageStart v) v := by
  have hmask : ∀ i < 48, 12 ≤ i → (~~~0xFFF#64).getLsbD i = true := by decide
  intro i hi hi'
  rw [pageStart,BitVec.getLsbD_and,hmask i hi' hi,Bool.and_true]

theorem pageStart_mod (v : U64) : (pageStart v).toNat % 4096 = 0 := by
  rw [← toNat_offset,pageStart,BitVec.and_assoc,show ~~~0xFFF#64 &&& 0xFFF#64 = 0#64 by decide,
    BitVec.and_zero,BitVec.toNat_zero]

theorem pageMapped_congr (h : SamePage v b) : PageMapped s v ↔ PageMapped s b := by
  obtain ⟨hpath,hleaf⟩ := samePage_iff.mp h
  rw [PageMapped,PageMapped,hpath,hleaf]

theorem pageVirtToPhysAddr_of_not_mapped (h : ¬PageMapped s v) : pageVirtToPhysAddr s v = 0#64 := by
  rw [pageVirtToPhysAddr_eq]
  cases hpt : follow s.child s.pml4Addr (pathOf v) with
  | none => rfl
  | some pt =>
    have habsent := Bool.eq_false_iff.mpr fun hpresent => h ⟨pt,hpt,hpresent⟩
    rw [Option.map_some,Option.getD_some,leafAddr,habsent]
    rfl

/-- A translation is zero or keeps the offset. -/
theorem pageVirtToPhysAddr_mod (s : Paging A) (v : U64) : pageVirtToPhysAddr s v = 0#64 ∨
    (pageVirtToPhysAddr s v).toNat % 4096 = v.toNat % 4096 := by
  by_cases h : PageMapped s v
  · obtain ⟨f,halign,-,hframe⟩ := h.frame
    rw [hframe v fun _ _ _ => rfl]
    omega
  · exact .inl (pageVirtToPhysAddr_of_not_mapped h)

end Frames

section Buffer
variable {k : ℕ}

theorem toNat_add_ofNat (hk : k ≤ 4096) :
    (b + BitVec.ofNat 64 k).toNat = (b.toNat + k) % 2 ^ 64 := by
  rw [BitVec.toNat_add,BitVec.toNat_ofNat,Nat.mod_eq_of_lt (by omega : k < 2 ^ 64)]

theorem samePage_add_of_lt (h : b.toNat % 4096 + k < 4096) :
    SamePage (b + BitVec.ofNat 64 k) b := by
  rw [samePage_iff_mod,toNat_add_ofNat (by omega)]
  omega

theorem samePage_add_of_le (hk : k ≤ 4096) (h : 4096 ≤ b.toNat % 4096 + k) :
    SamePage (b + BitVec.ofNat 64 k) (b + pageSize) := by
  have hnext : (b + pageSize).toNat = (b.toNat + 4096) % 2 ^ 64 := toNat_add_ofNat le_rfl
  rw [samePage_iff_mod,toNat_add_ofNat hk,hnext]
  omega

/-- The second byte shows whether the page is mapped. -/
theorem Contiguous.mapped (h : Contiguous s b n) (hn : 2 ≤ n) : PageMapped s b := by
  by_contra hb
  have hsecond := congrArg BitVec.toNat (h 1 (by omega))
  rw [pageVirtToPhysAddr_of_not_mapped hb] at hsecond
  change 1 = (pageVirtToPhysAddr s (b + BitVec.ofNat 64 1)).toNat at hsecond
  by_cases hlast : b.toNat % 4096 + 1 < 4096
  · have hnot : ¬PageMapped s (b + BitVec.ofNat 64 1) :=
      fun hm => hb ((pageMapped_congr (samePage_add_of_lt hlast)).mp hm)
    rw [pageVirtToPhysAddr_of_not_mapped hnot] at hsecond
    exact absurd hsecond (by decide)
  · have hsum := toNat_add_ofNat (b := b) (k := 1) (by decide)
    rcases pageVirtToPhysAddr_mod s (b + BitVec.ofNat 64 1) with hz | hmod
    · rw [hz] at hsecond
      exact absurd hsecond (by decide)
    · omega

/-- One physical address serves a buffer of at most a page if and only if the buffer stays on its
page or the next page lies on the next frame. -/
theorem contiguous_iff (hn : 2 ≤ n) (hn' : n ≤ 4096) :
    Contiguous s b n ↔ FitsPages s b n := by
  have hsize : pageSize.toNat = 4096 := rfl
  constructor
  · intro h
    have hb := h.mapped hn
    refine ⟨hb,or_iff_not_imp_left.mpr fun hcross => ?_⟩
    obtain ⟨f,-,hflt,hf⟩ := hb.frame
    -- the first byte on the next page
    have hk : 4096 - b.toNat % 4096 < n := by omega
    have hnext := samePage_add_of_le (b := b) (k := 4096 - b.toNat % 4096) (by omega) (by omega)
    have hsum := toNat_add_ofNat (b := b) (k := 4096 - b.toNat % 4096) (by omega)
    have heq := congrArg BitVec.toNat (h _ hk)
    rw [BitVec.toNat_add,hf b fun _ _ _ => rfl,BitVec.toNat_ofNat] at heq
    have hm : PageMapped s (b + pageSize) := by
      by_contra hm
      rw [pageVirtToPhysAddr_of_not_mapped (mt (pageMapped_congr hnext).mp hm),
        BitVec.toNat_zero] at heq
      omega
    obtain ⟨g,-,-,hg⟩ := hm.frame
    rw [hg _ hnext] at heq
    refine ⟨hm,BitVec.eq_of_toNat_eq ?_⟩
    rw [BitVec.toNat_add,hg _ (samePage_pageStart _),hf _ (samePage_pageStart b),pageStart_mod,
      pageStart_mod,hsize]
    omega
  · rintro ⟨hb,hfit⟩ k hk
    obtain ⟨f,-,hflt,hf⟩ := hb.frame
    have hsum := toNat_add_ofNat (b := b) (k := k) (by omega)
    apply BitVec.eq_of_toNat_eq
    rw [BitVec.toNat_add,hf b fun _ _ _ => rfl,BitVec.toNat_ofNat]
    by_cases hpage : b.toNat % 4096 + k < 4096
    · rw [hf _ (samePage_add_of_lt hpage)]
      omega
    · obtain ⟨hm,hframe⟩ := hfit.resolve_left (by omega)
      obtain ⟨g,-,-,hg⟩ := hm.frame
      have heq := congrArg BitVec.toNat hframe
      rw [BitVec.toNat_add,hg _ (samePage_pageStart _),hf _ (samePage_pageStart b),pageStart_mod,
        pageStart_mod,hsize] at heq
      rw [hg _ (samePage_add_of_le (by omega) (by omega))]
      omega

end Buffer

end Lios.Paging

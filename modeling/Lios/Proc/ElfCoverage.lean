import Lios.Proc.ElfKernel

/-! # The pages of a segment

The number of pages of a segment comes from its size alone, while the first of them is the page of
its address, which may lie anywhere in that page. After the loop that maps them, the addresses on
these pages are translated to the frames that were taken, and no other address is.
-/
namespace Lios.Elf
variable {A H : Type} {calls : ElfCalls A H}

/-- The address is translated to its place in one of the frames. -/
def OnFrame (m : Machine A H) (fs : List PhysicalAddress) (v : U64) : Prop :=
  ∃ f ∈ fs, (translate m v).toNat = f.toNat + v.toNat % 4096

namespace MemorySupply
variable {src : MemorySupply calls} {l l' : Loader A H}

theorem Sound.mapPage_frame (hs : src.Sound l.machine) {access : U64 → Access} {virt : U64}
    (hroom : 0 < src.room l.machine.paging.frames) (hvirt : virt.toNat < 2 ^ 47)
    {f : PhysicalAddress} (h : Elf.mapPage calls access virt l = .done f l') :
    f ∈ src.high l.machine.paging.frames ∧ ∀ v : U64, v.toNat / 4096 = virt.toNat / 4096 →
      (translate l'.machine v).toNat = f.toNat + v.toNat % 4096 := by
  obtain ⟨a,q,hf,-,hfree,-,hq,hmachine⟩ := mapPage_eq_done hroom h
  rw [hmachine]
  exact ⟨hf,(hs.translate_map hf hfree hvirt hq).1⟩

/-- The frames that the loop takes were free, and its pages lie on them. -/
theorem Sound.mapPages_frames (hs : src.Sound l.machine) {access : U64 → Access} {virt j : U64}
    {k : ℕ} (hroom : k ≤ src.room l.machine.paging.frames)
    (hlow : 0 < k → virt.toNat / 4096 + j.toNat + k ≤ 2 ^ 35) {fs : List PhysicalAddress}
    (h : Elf.mapPages calls access virt k j l = .done fs l') :
    (∀ f ∈ fs, f ∈ src.high l.machine.paging.frames) ∧ ∀ v : U64, v.toNat / 4096 ∈
      Set.Ico (virt.toNat / 4096 + j.toNat) (virt.toNat / 4096 + j.toNat + k) →
        OnFrame l'.machine fs v := by
  induction k generalizing j l fs with
  | zero =>
    obtain ⟨rfl,rfl⟩ := Outcome.done.inj h
    exact ⟨fun f hf => absurd hf List.not_mem_nil,fun v hv => absurd hv (by simp)⟩
  | succ k ih =>
    have hlow := hlow (by omega)
    have hv := toNat_add_page (show virt.toNat / 4096 + j.toNat + 1 ≤ 2 ^ 35 by omega)
    have hj := toNat_succ_page (show virt.toNat / 4096 + j.toNat + 1 ≤ 2 ^ 35 by omega)
    obtain ⟨f,l₁,h₁,hrest⟩ := Outcome.bind_eq_done.mp h
    obtain ⟨fs',l₂,h₂,hlast⟩ := Outcome.bind_eq_done.mp hrest
    obtain ⟨rfl,rfl⟩ := Outcome.done.inj hlast
    obtain ⟨hf,hpage⟩ := hs.mapPage_frame (by omega) (by omega) h₁
    have hm := (hs.mapPage access (virt + j * pageSize) (by omega) (by omega)).2 f l₁ h₁
    have hroom₁ := hm.room
    have hlow₁ : 0 < k → virt.toNat / 4096 + (j + 1#64).toNat + k ≤ 2 ^ 35 := fun _ => by omega
    obtain ⟨hfree,hpages⟩ := ih hm.sound (by omega) hlow₁ h₂
    have hm₂ := (hm.sound.mapPages access virt (j + 1#64) (by omega) hlow₁).2 fs' l₂ h₂
    refine ⟨fun g hg => ?_,fun v hvp => ?_⟩
    · rcases List.mem_cons.mp hg with rfl | hg
      · exact hf
      · exact hm.high (hfree g hg)
    · rw [Set.mem_Ico] at hvp
      by_cases hfirst : v.toNat / 4096 = virt.toNat / 4096 + j.toNat
      · -- the pages behind the first one leave it alone
        refine ⟨f,List.mem_cons_self,?_⟩
        rw [hm₂.away v (by rw [Set.mem_Ico]; omega)]
        exact hpage v (by omega)
      · obtain ⟨g,hg,hon⟩ := hpages v (by rw [Set.mem_Ico]; omega)
        exact ⟨g,List.mem_cons_of_mem _ hg,hon⟩

/-- An address on none of the pages is not translated to a frame that was free. -/
theorem Mapped.not_onFrame {P : Set ℕ} {n : ℕ} {m m' : Machine A H} (hs : src.Sound m)
    (hm : src.Mapped P n m m') {fs : List PhysicalAddress}
    (hfs : ∀ f ∈ fs, f ∈ src.high m.paging.frames) {v : U64} (hv : v.toNat / 4096 ∉ P) :
    ¬OnFrame m' fs v := by
  rintro ⟨f,hf,hon⟩
  obtain ⟨hal,hnz,-⟩ := src.frame _ f (hfs f hf)
  rw [hm.away v hv] at hon
  by_cases h0 : translate m v = 0#64
  · rw [h0,show (0#64).toNat = 0 from rfl] at hon
    exact hnz (BitVec.eq_of_toNat_eq (show f.toNat = 0 by omega))
  · exact hs.fresh v h0 f (hfs f hf) (by omega)

end MemorySupply

/-- The pages of a segment below the stack are below it. -/
theorem pages_le_of_end {ph : ElfProgramHeader}
    (h : ph.pVaddr.toNat + ph.pMemsz.toNat < stackLow) :
    ph.pVaddr.toNat / 4096 + segmentPages ph ≤ 2 ^ 35 := by
  have hL : stackLow = 0x7FFFFF800000 := by decide
  rw [segmentPages_eq]
  omega

/-- The last byte of a segment decides whether its pages cover it. -/
theorem covering_iff_pages {ph : ElfProgramHeader}
    (h : ph.pVaddr.toNat + ph.pMemsz.toNat < stackLow) :
    (∀ v ∈ span ph.pVaddr ph.pMemsz.toNat, v.toNat / 4096 ∈ pages ph) ↔
      ph.pMemsz = 0#64 ∨ Covering ph := by
  have hL : stackLow = 0x7FFFFF800000 := by decide
  have hmem (v : U64) : v ∈ span ph.pVaddr ph.pMemsz.toNat ↔
      ph.pVaddr.toNat ≤ v.toNat ∧ v.toNat < ph.pVaddr.toNat + ph.pMemsz.toNat :=
    mem_span (by omega)
  have hpages (p : ℕ) : p ∈ pages ph ↔ ph.pVaddr.toNat / 4096 ≤ p ∧
      p < ph.pVaddr.toNat / 4096 + segmentPages ph := Set.mem_Ico
  simp only [hmem,hpages,Covering]
  constructor
  · intro hall
    by_cases hz : ph.pMemsz.toNat = 0
    · exact .inl (BitVec.eq_of_toNat_eq hz)
    · have hlast := hall (ph.pVaddr + ph.pMemsz - 1#64)
      have hto : (ph.pVaddr + ph.pMemsz - 1#64).toNat = ph.pVaddr.toNat + ph.pMemsz.toNat - 1 := by
        rw [BitVec.toNat_sub,BitVec.toNat_add,show (1#64).toNat = 1 from rfl]
        omega
      rw [hto] at hlast
      exact .inr (by omega)
  · rintro (hz | hc) v hv
    · rw [hz,show (0#64).toNat = 0 from rfl] at hv
      omega
    · omega

/-- The loop that maps the pages of a segment below the stack: every address of the segment is then
on a frame that was taken for it if and only if the segment is empty or its size, counted from the
beginning of its first page, fits into its pages. -/
theorem segment_mapped_iff (src : MemorySupply calls) {l : Loader A H} {ph : ElfProgramHeader}
    (hs : src.Sound l.machine) (hroom : segmentPages ph ≤ src.room l.machine.paging.frames)
    (hend : ph.pVaddr.toNat + ph.pMemsz.toNat < stackLow) :
    (mapPages calls .map ph.pVaddr (segmentPages ph) 0#64 l).Settled ∧
    ∀ fs l', mapPages calls .map ph.pVaddr (segmentPages ph) 0#64 l = .done fs l' →
      ((∀ v ∈ span ph.pVaddr ph.pMemsz.toNat, OnFrame l'.machine fs v) ↔
        ph.pMemsz = 0#64 ∨ Covering ph) := by
  have hlow : 0 < segmentPages ph →
      ph.pVaddr.toNat / 4096 + (0#64).toNat + segmentPages ph ≤ 2 ^ 35 :=
    fun _ => pages_le_of_end hend
  obtain ⟨hset,hmap⟩ := hs.mapPages .map ph.pVaddr 0#64 hroom hlow
  refine ⟨hset,fun fs l' h => ?_⟩
  obtain ⟨hfree,hpages⟩ := hs.mapPages_frames hroom hlow h
  have hm : src.Mapped (pages ph) (segmentPages ph) l.machine l'.machine := hmap fs l' h
  rw [← covering_iff_pages hend]
  refine forall₂_congr fun v _ => ⟨fun hon => ?_,hpages v⟩
  by_contra hv
  exact hm.not_onFrame hs hfree hv hon

namespace Sample

def onePage : ElfProgramHeader := ⟨1#32,120#64,0x400000#64,4#64,16#64⟩

/-- The segment of one page at 0x400000 is covered. -/
theorem onePage_mapped : ∃ fs l',
    mapPages (Sample.calls oneSegment) .map onePage.pVaddr (segmentPages onePage) 0#64 ⟨start,[]⟩ =
      .done fs l' ∧ ∀ v ∈ span onePage.pVaddr onePage.pMemsz.toNat, OnFrame l'.machine fs v := by
  let l : Loader Frames Bool := ⟨start,[]⟩
  have hlow : l.machine.paging.frames.low + 3 * segmentPages onePage ≤ frameCount := by
    decide +kernel
  have hhigh : l.machine.paging.frames.high + segmentPages onePage ≤ frameCount := by
    decide +kernel
  obtain ⟨fs,l',h⟩ := mapPages_returns .map onePage.pVaddr hlow hhigh
  have hs : (memorySupply oneSegment).Sound l.machine := sound_start oneSegment
  have hroom : segmentPages onePage ≤ (memorySupply oneSegment).room l.machine.paging.frames := by
    decide +kernel
  exact ⟨fs,l',h,((segment_mapped_iff (memorySupply oneSegment) hs hroom (by decide)).2 fs l' h).mpr
    (.inr (by decide))⟩

/-- A segment of two bytes, the last one of a page and the first one of the next. -/
def straddling : Sector := executable [⟨1#32,120#64,0x400FFF#64,2#64,2#64⟩] [0x90#8,0x90#8]

/-- The run faults, and the address has no translation. -/
def faultsWithout (v : U64) : Outcome (Loader Frames Bool) ElfContext → Bool
  | .fault l => translate l.machine v == 0#64
  | _ => false

/-- One page is mapped for it, and the second byte is not mapped. -/
theorem straddling_not_mapped : 0x401000#64 ∈ span 0x400FFF#64 2 ∧
    ∃ l, elfLoad (Sample.calls straddling) [] [] start = .fault l ∧
      translate l.machine 0x401000#64 = 0#64 := by
  refine ⟨show (0x401000#64 - 0x400FFF#64).toNat < 2 by decide,?_⟩
  have hrun : faultsWithout 0x401000#64 (elfLoad (Sample.calls straddling) [] [] start) = true := by
    decide +kernel
  cases h : elfLoad (Sample.calls straddling) [] [] start with
  | fault l =>
    rw [h] at hrun
    exact ⟨l,rfl,beq_iff_eq.mp hrun⟩
  | done ctx l =>
    rw [h] at hrun
    cases hrun
  | panic msg l =>
    rw [h] at hrun
    cases hrun
  | spin =>
    rw [h] at hrun
    cases hrun

end Sample

end Lios.Elf

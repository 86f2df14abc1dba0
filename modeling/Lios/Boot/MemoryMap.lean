import Lios.Mem.PmmLists

/-! # The memory map

The kernel reads the memory map of the boot loader twice: first for the total size of the
available memory above the kernel, then for the blocks of it. The second pass rounds the
beginning of a region up to a page and cuts the multiboot structure out. Rounding up wraps
for a region in the last page of the address space.
-/
namespace Lios

structure MmapEntry where
  addr : U64
  len : U64
  type : U32
  deriving DecidableEq

def mbootMemAvailable : U32 := 1#32

namespace MmapEntry

/-- The available regions that reach over the end of the kernel. -/
def Usable (kernelEnd : U64) (e : MmapEntry) : Prop :=
  e.type = mbootMemAvailable ∧ kernelEnd < e.addr + e.len

instance (kernelEnd : U64) (e : MmapEntry) : Decidable (e.Usable kernelEnd) :=
  inferInstanceAs (Decidable (_ ∧ _))

def span (e : MmapEntry) : ℕ × ℕ := (e.addr.toNat,e.addr.toNat + e.len.toNat)

end MmapEntry

/-- The first pass over the memory map. -/
def totalAvailableMem (kernelEnd : U64) (map : List MmapEntry) : U64 :=
  map.foldl (fun total e => if e.Usable kernelEnd then
    total + (e.addr + e.len - u64Max e.addr kernelEnd) else total) 0#64

def zoneStart (kernelEnd : U64) (e : MmapEntry) : U64 :=
  ceilU64Div (u64Max e.addr kernelEnd) 0x1000#64 * 0x1000#64

/-- The blocks of a region in the second pass. -/
def zoneBlocks (kernelEnd multibootStart multibootEnd : U64) (e : MmapEntry) : List (U64 × U64) :=
  if e.Usable kernelEnd then
    let start := zoneStart kernelEnd e
    let stop := e.addr + e.len
    if (start ≤ multibootStart ∧ multibootStart ≤ stop) ∨
        (start ≤ multibootEnd ∧ multibootEnd ≤ stop) then
      (if start < multibootStart then [(start,multibootStart)] else []) ++
        if multibootEnd < stop then [(multibootEnd,stop)] else []
    else [(start,stop)]
  else []

/-- The arguments of the calls of `pmm_add_block`. -/
def memoryBlocks (kernelEnd multibootStart multibootEnd : U64) (map : List MmapEntry) :
    List (U64 × U64) :=
  map.flatMap (zoneBlocks kernelEnd multibootStart multibootEnd)

/-- A zone from `zs` to `ze` without the bytes from `ms` to `me`, as the second pass cuts it. -/
def cutZone (zs ze ms me : ℕ) : List (ℕ × ℕ) :=
  if (zs ≤ ms ∧ ms ≤ ze) ∨ (zs ≤ me ∧ me ≤ ze) then
    (if zs < ms then [(zs,ms)] else []) ++ if me < ze then [(me,ze)] else []
  else [(zs,ze)]

section Cut
variable {zs ze ms me x : ℕ}

/-- A block is passed on only if it is not empty. -/
theorem mem_block_iff {a b : ℕ} :
    (∃ c ∈ (if a < b then [(a,b)] else [] : List (ℕ × ℕ)), c.1 ≤ x ∧ x < c.2) ↔ a ≤ x ∧ x < b := by
  split
  · simp
  · rename_i h
    simp only [List.not_mem_nil,false_and,exists_false,false_iff]
    omega

/-- The blocks are the zone without the bytes that are cut out, if these do not cover it and
more on both sides. -/
theorem mem_cutZone (hle : ms ≤ me) (hin : ¬ (ms < zs ∧ zs < ze ∧ ze < me)) :
    (∃ b ∈ cutZone zs ze ms me, b.1 ≤ x ∧ x < b.2) ↔ zs ≤ x ∧ x < ze ∧ ¬ (ms ≤ x ∧ x < me) := by
  unfold cutZone
  split
  · simp only [List.mem_append,or_and_right,exists_or]
    rw [mem_block_iff,mem_block_iff]
    omega
  · simp only [List.mem_singleton,exists_eq_left]
    omega

theorem pairwise_cutZone (hle : ms ≤ me) :
    (cutZone zs ze ms me).Pairwise fun b c => ¬ Meet b c := by
  unfold cutZone
  split
  · refine List.pairwise_append.mpr ⟨?_,?_,fun b hb c hc => ?_⟩
    · split
      · exact List.pairwise_singleton _ _
      · exact List.Pairwise.nil
    · split
      · exact List.pairwise_singleton _ _
      · exact List.Pairwise.nil
    · split at hb
      · split at hc
        · obtain rfl := List.mem_singleton.mp hb
          obtain rfl := List.mem_singleton.mp hc
          rintro ⟨x,⟨-,hx⟩,hx',-⟩
          dsimp only at hx hx'
          omega
        · simp at hc
      · simp at hb
  · exact List.pairwise_singleton _ _

end Cut

section Zone
variable {kernelEnd multibootStart multibootEnd : U64} {e : MmapEntry}

theorem toNat_zoneStart : (zoneStart kernelEnd e).toNat =
    pageUp (max e.addr.toNat kernelEnd.toNat) % 2 ^ 64 := by
  rw [zoneStart,BitVec.toNat_mul,toNat_ceilU64Div (by decide),toNat_u64Max]
  rfl

theorem spans_zoneBlocks (hlen : e.addr.toNat + e.len.toNat < 2 ^ 64)
    (hu : e.Usable kernelEnd) :
    spans (zoneBlocks kernelEnd multibootStart multibootEnd e) =
      cutZone (zoneStart kernelEnd e).toNat (e.addr.toNat + e.len.toNat) multibootStart.toNat
        multibootEnd.toNat := by
  have hstop : (e.addr + e.len).toNat = e.addr.toNat + e.len.toNat := by
    rw [BitVec.toNat_add,Nat.mod_eq_of_lt hlen]
  rw [zoneBlocks,if_pos hu,cutZone,← hstop]
  simp only [BitVec.le_def,BitVec.lt_def]
  split
  · rw [spans,List.map_append]
    congr 1 <;> split <;> rfl
  · rfl

end Zone

/-- A memory map of disjoint regions without address overflow, and a multiboot structure inside
one of them. -/
structure BootMap (multibootStart multibootEnd : U64) (map : List MmapEntry) : Prop where
  disjoint : map.Pairwise fun e f => ¬ Meet e.span f.span
  fits : ∀ e ∈ map, e.addr.toNat + e.len.toNat < 2 ^ 64
  order : multibootStart.toNat ≤ multibootEnd.toNat
  within : ∃ e ∈ map, e.addr.toNat ≤ multibootStart.toNat ∧
    multibootEnd.toNat ≤ e.addr.toNat + e.len.toNat

/-- The blocks are the usable memory: they are disjoint, lie in available regions at or above
the end of the kernel, do not meet the multiboot structure, and hold every other byte of an
available region from the page on that follows its beginning and the end of the kernel. -/
structure HandsOver (kernelEnd multibootStart multibootEnd : U64) (map : List MmapEntry)
    (bs : List (U64 × U64)) : Prop where
  disjoint : (spans bs).Pairwise fun b c => ¬ Meet b c
  usable : ∀ b ∈ spans bs, b.1 < b.2 → kernelEnd.toNat ≤ b.1 ∧ ∃ e ∈ map,
    e.type = mbootMemAvailable ∧ e.span.1 ≤ b.1 ∧ b.2 ≤ e.span.2
  clear : ∀ b ∈ spans bs, ¬ Meet b (multibootStart.toNat,multibootEnd.toNat)
  covers : ∀ e ∈ map, e.type = mbootMemAvailable → ∀ x,
    pageUp (max e.addr.toNat kernelEnd.toNat) ≤ x → x < e.span.2 →
    ¬ (multibootStart.toNat ≤ x ∧ x < multibootEnd.toNat) → ∃ b ∈ spans bs, b.1 ≤ x ∧ x < b.2

section HandsOver
variable {kernelEnd multibootStart multibootEnd : U64} {map : List MmapEntry} {e f : MmapEntry}

/-- The beginning of the zone wraps to zero, or it is the next page boundary. -/
theorem zoneStart_cases (kernelEnd : U64) (e : MmapEntry) :
    (max e.addr.toNat kernelEnd.toNat + 4096 ≤ 2 ^ 64 ∧
        (zoneStart kernelEnd e).toNat = pageUp (max e.addr.toNat kernelEnd.toNat)) ∨
      (2 ^ 64 < max e.addr.toNat kernelEnd.toNat + 4096 ∧ (zoneStart kernelEnd e).toNat = 0) := by
  have ha := e.addr.isLt
  have hk := kernelEnd.isLt
  rw [toNat_zoneStart,pageUp]
  omega

theorem BootMap.eq_of_mem (h : BootMap multibootStart multibootEnd map) (he : e ∈ map)
    (hf : f ∈ map) {x : ℕ} (hex : e.span.1 ≤ x ∧ x < e.span.2)
    (hfx : f.span.1 ≤ x ∧ x < f.span.2) : e = f := by
  have hsymm : Std.Symm fun e f : MmapEntry => ¬ Meet e.span f.span :=
    ⟨fun _ _ hno ⟨y,hy,hy'⟩ => hno ⟨y,hy',hy⟩⟩
  by_contra hne
  exact h.disjoint.forall he hf hne ⟨x,hex,hfx⟩

/-- The bytes of the blocks of a region. -/
theorem BootMap.mem_zoneBlocks (h : BootMap multibootStart multibootEnd map) (he : e ∈ map)
    (hu : e.Usable kernelEnd) {x : ℕ} :
    (∃ b ∈ spans (zoneBlocks kernelEnd multibootStart multibootEnd e), b.1 ≤ x ∧ x < b.2) ↔
      (zoneStart kernelEnd e).toNat ≤ x ∧ x < e.span.2 ∧
        ¬ (multibootStart.toNat ≤ x ∧ x < multibootEnd.toNat) := by
  rw [spans_zoneBlocks (h.fits e he) hu]
  refine mem_cutZone h.order ?_
  rintro ⟨hms,hze,hme⟩
  obtain ⟨r,hr,hlo,hhi⟩ := h.within
  have hle : e.span.1 ≤ (zoneStart kernelEnd e).toNat := by
    obtain ⟨-,hz⟩ | ⟨-,hz⟩ := zoneStart_cases kernelEnd e
    · have := le_pageUp (max e.addr.toNat kernelEnd.toNat)
      rw [hz]
      exact (le_max_left _ _).trans this
    · omega
  obtain rfl := h.eq_of_mem he hr ⟨hle,hze⟩ ⟨show r.addr.toNat ≤ _ by omega,
    show _ < r.addr.toNat + r.len.toNat by omega⟩
  omega

/-- Rounding up does not wrap, or all that it adds is cut out. -/
def Rounds (kernelEnd multibootStart multibootEnd : U64) (e : MmapEntry) : Prop :=
  max e.addr.toNat kernelEnd.toNat + 4096 ≤ 2 ^ 64 ∨
    (multibootStart = 0#64 ∧ max e.addr.toNat kernelEnd.toNat ≤ multibootEnd.toNat)

theorem BootMap.zone_bounds (h : BootMap multibootStart multibootEnd map) (he : e ∈ map)
    (hu : e.Usable kernelEnd) (hr : Rounds kernelEnd multibootStart multibootEnd e) {x : ℕ}
    (hx : ∃ b ∈ spans (zoneBlocks kernelEnd multibootStart multibootEnd e), b.1 ≤ x ∧ x < b.2) :
    max e.addr.toNat kernelEnd.toNat ≤ x ∧ x < e.span.2 := by
  obtain ⟨hlo,hhi,hcut⟩ := (h.mem_zoneBlocks he hu).mp hx
  refine ⟨?_,hhi⟩
  have hup := le_pageUp (max e.addr.toNat kernelEnd.toNat)
  obtain ⟨-,hz⟩ | ⟨hwrap,-⟩ := zoneStart_cases kernelEnd e
  · omega
  · rcases hr with hr | ⟨hms,hme⟩
    · omega
    · rw [hms,show (0#64).toNat = 0 from rfl] at hcut
      omega

theorem spans_memoryBlocks : spans (memoryBlocks kernelEnd multibootStart multibootEnd map) =
    map.flatMap fun e => spans (zoneBlocks kernelEnd multibootStart multibootEnd e) := by
  rw [spans,memoryBlocks,List.map_flatMap]
  rfl

theorem usable_of_mem {b : ℕ × ℕ}
    (hb : b ∈ spans (zoneBlocks kernelEnd multibootStart multibootEnd e)) : e.Usable kernelEnd := by
  by_contra hu
  rw [zoneBlocks,if_neg hu] at hb
  simp [spans] at hb

theorem BootMap.kernelEnd_lt (h : BootMap multibootStart multibootEnd map) (he : e ∈ map)
    (hu : e.Usable kernelEnd) : kernelEnd.toNat < e.span.2 := by
  have hlt := BitVec.lt_def.mp hu.2
  rw [BitVec.toNat_add,Nat.mod_eq_of_lt (h.fits e he)] at hlt
  exact hlt

theorem BootMap.usable_of_lt (h : BootMap multibootStart multibootEnd map) (he : e ∈ map)
    (ht : e.type = mbootMemAvailable) (hlt : kernelEnd.toNat < e.span.2) : e.Usable kernelEnd := by
  refine ⟨ht,BitVec.lt_def.mpr ?_⟩
  rw [BitVec.toNat_add,Nat.mod_eq_of_lt (h.fits e he)]
  exact hlt

theorem BootMap.handsOver (h : BootMap multibootStart multibootEnd map)
    (hr : ∀ e ∈ map, e.Usable kernelEnd → Rounds kernelEnd multibootStart multibootEnd e) :
    HandsOver kernelEnd multibootStart multibootEnd map
      (memoryBlocks kernelEnd multibootStart multibootEnd map) := by
  have hinside {e : MmapEntry} (he : e ∈ map) {b : ℕ × ℕ}
      (hb : b ∈ spans (zoneBlocks kernelEnd multibootStart multibootEnd e)) {x : ℕ}
      (hx : b.1 ≤ x ∧ x < b.2) : max e.addr.toNat kernelEnd.toNat ≤ x ∧ x < e.span.2 :=
    have hu := usable_of_mem hb
    h.zone_bounds he hu (hr e he hu) ⟨b,hb,hx⟩
  constructor
  · rw [spans_memoryBlocks,List.pairwise_flatMap]
    constructor
    · intro e he
      by_cases hu : e.Usable kernelEnd
      · rw [spans_zoneBlocks (h.fits e he) hu]
        exact pairwise_cutZone h.order
      · rw [zoneBlocks,if_neg hu]
        exact List.Pairwise.nil
    · refine h.disjoint.imp_of_mem fun he hf hno b hb c hc => ?_
      rintro ⟨x,hxb,hxc⟩
      obtain ⟨helo,hehi⟩ := hinside he hb hxb
      obtain ⟨hflo,hfhi⟩ := hinside hf hc hxc
      exact hno ⟨x,⟨(le_max_left _ _).trans helo,hehi⟩,(le_max_left _ _).trans hflo,hfhi⟩
  · intro b hb hne
    rw [spans_memoryBlocks,List.mem_flatMap] at hb
    obtain ⟨e,he,hb⟩ := hb
    obtain ⟨hlo,-⟩ := hinside he hb (x := b.1) ⟨le_rfl,hne⟩
    obtain ⟨-,hhi⟩ := hinside he hb (x := b.2 - 1) ⟨by omega,by omega⟩
    exact ⟨(le_max_right _ _).trans hlo,e,he,(usable_of_mem hb).1,(le_max_left _ _).trans hlo,
      by omega⟩
  · rintro b hb ⟨x,hxb,hxm⟩
    rw [spans_memoryBlocks,List.mem_flatMap] at hb
    obtain ⟨e,he,hb⟩ := hb
    exact ((h.mem_zoneBlocks he (usable_of_mem hb)).mp ⟨b,hb,hxb⟩).2.2 hxm
  · intro e he ht x hlo hhi hcut
    have hup := le_pageUp (max e.addr.toNat kernelEnd.toNat)
    have hfits : e.span.2 < 2 ^ 64 := h.fits e he
    have hu : e.Usable kernelEnd := h.usable_of_lt he ht (by omega)
    have hz : (zoneStart kernelEnd e).toNat = pageUp (max e.addr.toNat kernelEnd.toNat) := by
      rw [toNat_zoneStart,Nat.mod_eq_of_lt (by omega)]
    obtain ⟨b,hb,hx⟩ := (h.mem_zoneBlocks he hu).mpr ⟨by omega,hhi,hcut⟩
    refine ⟨b,?_,hx⟩
    rw [spans_memoryBlocks]
    exact List.mem_flatMap_of_mem he hb

/-- The blocks of two regions do not meet. -/
theorem HandsOver.not_meet
    (h : HandsOver kernelEnd multibootStart multibootEnd map
      (memoryBlocks kernelEnd multibootStart multibootEnd map)) (he : e ∈ map) (hf : f ∈ map)
    (hne : e ≠ f) {b c : ℕ × ℕ}
    (hb : b ∈ spans (zoneBlocks kernelEnd multibootStart multibootEnd e))
    (hc : c ∈ spans (zoneBlocks kernelEnd multibootStart multibootEnd f)) : ¬ Meet b c := by
  have hdisj := h.disjoint
  rw [spans_memoryBlocks,List.pairwise_flatMap] at hdisj
  have hsymm : Std.Symm fun e f : MmapEntry =>
      ∀ b ∈ spans (zoneBlocks kernelEnd multibootStart multibootEnd e),
      ∀ c ∈ spans (zoneBlocks kernelEnd multibootStart multibootEnd f), ¬ Meet b c :=
    ⟨fun _ _ hno b hb c hc ⟨x,hx,hx'⟩ => hno c hc b hb ⟨x,hx',hx⟩⟩
  exact hdisj.2.forall he hf hne b hb c hc

/-- The second pass hands over the usable memory exactly if for none of the regions the rounded
beginning wraps, apart from a multiboot structure that begins at zero and reaches up to it. -/
theorem handsOver_iff (h : BootMap multibootStart multibootEnd map) :
    HandsOver kernelEnd multibootStart multibootEnd map
        (memoryBlocks kernelEnd multibootStart multibootEnd map) ↔
      ∀ e ∈ map, e.Usable kernelEnd → Rounds kernelEnd multibootStart multibootEnd e := by
  refine ⟨fun hover e he hu => ?_,h.handsOver⟩
  by_contra hno
  obtain ⟨hwrap,hcut⟩ : ¬ max e.addr.toNat kernelEnd.toNat + 4096 ≤ 2 ^ 64 ∧
      ¬ (multibootStart = 0#64 ∧ max e.addr.toNat kernelEnd.toNat ≤ multibootEnd.toNat) :=
    not_or.mp hno
  have hz : (zoneStart kernelEnd e).toNat = 0 := by
    obtain ⟨hle,-⟩ | ⟨-,hz⟩ := zoneStart_cases kernelEnd e
    · omega
    · exact hz
  have hend := h.kernelEnd_lt he hu
  have haddr : e.addr.toNat ≤ e.span.2 := Nat.le_add_right _ _
  -- a byte of its blocks that lies before the region or before the end of the kernel
  obtain ⟨y,hy,hyb⟩ : ∃ y, y < max e.addr.toNat kernelEnd.toNat ∧
      ¬ (multibootStart.toNat ≤ y ∧ y < multibootEnd.toNat) ∧
      (y = 0 ∨ y = multibootEnd.toNat ∧ multibootStart.toNat = 0) := by
    by_cases hms : multibootStart.toNat = 0
    · refine ⟨multibootEnd.toNat,?_,by omega,.inr ⟨rfl,hms⟩⟩
      by_contra hle
      exact hcut ⟨BitVec.eq_of_toNat_eq hms,by omega⟩
    · exact ⟨0,by omega,by omega,.inl rfl⟩
  obtain ⟨b,hb,hyb'⟩ := (h.mem_zoneBlocks he hu).mpr ⟨by omega,by omega,hyb.1⟩
  have hball : b ∈ spans (memoryBlocks kernelEnd multibootStart multibootEnd map) := by
    rw [spans_memoryBlocks]
    exact List.mem_flatMap_of_mem he hb
  obtain ⟨hk,f,hf,ht,hflo,hfhi⟩ := hover.usable b hball (by omega)
  -- the region in which this block would have to lie has a block with a common byte
  have hne : e ≠ f := by
    rintro rfl
    have : e.addr.toNat ≤ b.1 := hflo
    omega
  have hfu : f.Usable kernelEnd := h.usable_of_lt hf ht (by omega)
  obtain ⟨x,hbx,hfx⟩ : ∃ x, (b.1 ≤ x ∧ x < b.2) ∧ (zoneStart kernelEnd f).toNat ≤ x ∧
      x < f.span.2 ∧ ¬ (multibootStart.toNat ≤ x ∧ x < multibootEnd.toNat) := by
    have hfaddr : f.addr.toNat ≤ b.1 := hflo
    have hfz := zoneStart_cases kernelEnd f
    rw [pageUp] at hfz
    obtain ⟨hnot,rfl | ⟨rfl,hms⟩⟩ := hyb
    · exact ⟨0,by omega,by omega,by omega,hnot⟩
    · have hbe : b = (multibootEnd.toNat,e.span.2) := by
        rw [spans_zoneBlocks (h.fits e he) hu,hz,hms,cutZone,if_pos (by omega),if_neg (by omega),
          List.nil_append] at hb
        split at hb
        · exact List.mem_singleton.mp hb
        · simp at hb
      have hb1 : b.1 = multibootEnd.toNat := by rw [hbe]
      have hb2 : b.2 = e.span.2 := by rw [hbe]
      exact ⟨max (zoneStart kernelEnd f).toNat multibootEnd.toNat,by omega,by omega,by omega,
        by omega⟩
  obtain ⟨c,hc,hxc⟩ := (h.mem_zoneBlocks hf hfu).mpr hfx
  exact hover.not_meet he hf hne hb hc ⟨x,hbx,hxc⟩

end HandsOver

/-- The memory above 1 MiB with the kernel at its beginning, and a second region. -/
def twoRegions (addr : U64) : List MmapEntry :=
  [⟨0x100000#64,0x300000#64,mbootMemAvailable⟩,⟨addr,0x400#64,mbootMemAvailable⟩]

theorem bootMap_twoRegions {addr : U64} (hlo : 0x400000 ≤ addr.toNat)
    (hhi : addr.toNat + 0x400 < 2 ^ 64) :
    BootMap 0x300000#64 0x301000#64 (twoRegions addr) := by
  refine ⟨List.pairwise_pair.mpr ?_,?_,by decide,⟨_,List.mem_cons_self,by decide,by decide⟩⟩
  · rintro ⟨x,⟨-,hx⟩,hx',-⟩
    change x < 0x400000 at hx
    change addr.toNat ≤ x at hx'
    omega
  · intro e he
    rcases List.mem_pair.mp he with rfl | rfl
    · decide
    · exact hhi

theorem twoRegions_handsOver : BootMap 0x300000#64 0x301000#64 (twoRegions 0x800000#64) ∧
    HandsOver 0x200000#64 0x300000#64 0x301000#64 (twoRegions 0x800000#64)
      (memoryBlocks 0x200000#64 0x300000#64 0x301000#64 (twoRegions 0x800000#64)) := by
  have hmap := @bootMap_twoRegions 0x800000#64 (by decide) (by decide)
  refine ⟨hmap,(handsOver_iff hmap).mpr fun e he _ => .inl ?_⟩
  rcases List.mem_pair.mp he with rfl | rfl <;> decide

/-- A region in the last page is taken for one that begins at zero. -/
theorem twoRegions_not_handsOver :
    BootMap 0x300000#64 0x301000#64 (twoRegions 0xFFFFFFFFFFFFF800#64) ∧
      ¬ HandsOver 0x200000#64 0x300000#64 0x301000#64 (twoRegions 0xFFFFFFFFFFFFF800#64)
        (memoryBlocks 0x200000#64 0x300000#64 0x301000#64
          (twoRegions 0xFFFFFFFFFFFFF800#64)) := by
  refine ⟨bootMap_twoRegions (by decide) (by decide),fun h => ?_⟩
  have hlow := (h.usable (0,0x300000) (by decide) (by decide)).1
  revert hlow
  decide

end Lios

import Mathlib.Order.Interval.Set.Basic
import Lios.Lib.ByteStore
import Lios.Proc.Elf

/-! # The memory of a loaded program

The frames that `pmm_alloc_high` takes from the high memory are behind no address, so a page
that the loader maps shares no byte with any other address. Copies into such pages change what
the program sees in the written range and nothing else. Seen from the kernel, the steps of the
loader keep the blocks of the heap and the translations outside the area of the heap.
-/
namespace Lios.Elf
open Paging (Canonical Stock Spare)
variable {A H : Type}

/-- The byte at a virtual address. -/
def byteAt (m : Machine A H) (v : U64) : Option U8 :=
  if translate m v = 0#64 then none else some (m.phys (translate m v))

theorem byteAt_eq_some {m : Machine A H} {v : U64} {b : U8} :
    byteAt m v = some b ↔ translate m v ≠ 0#64 ∧ m.phys (translate m v) = b := by
  rw [byteAt]
  split
  · simp [*]
  · simp [*]

theorem byteAt_congr {m m' : Machine A H} {v : U64} (ht : translate m' v = translate m v)
    (hb : translate m v ≠ 0#64 → m'.phys (translate m v) = m.phys (translate m v)) :
    byteAt m' v = byteAt m v := by
  rw [byteAt,byteAt,ht]
  split
  · rfl
  · rename_i hne
    rw [hb hne]

theorem translate_of_canonical {m : Machine A H} {v : U64} (hv : Canonical v) :
    translate m v = m.paging.pageVirtToPhysAddr v := if_pos hv

/-- The half of the kernel. -/
def Upper (v : U64) : Prop := 0xFFFF800000000000 ≤ v.toNat

/-- The addresses that `vmalloc` manages. -/
def heapArea : Set U64 := {v | 0xFFFFF00000000000 ≤ v.toNat ∧ v.toNat < 0xFFFFFFFF80000000}

/-- The memory managers as the loader sees them: the free frames of both kinds, how often
`pmm_alloc_high` can take one from the high memory, and the heap, with the addresses of its
blocks, their beginnings, and what it needs to be in order. -/
structure MemorySupply (calls : ElfCalls A H) where
  stock : Stock calls.frames
  high : A → Set PhysicalAddress
  room : A → ℕ
  frame : ∀ a, ∀ f ∈ high a, f.toNat % 4096 = 0 ∧ f ≠ 0#64 ∧ f.toNat < 2 ^ 52
  allocLow : ∀ a f a', calls.frames.allocLow a = .done f a' → high a' ⊆ high a ∧ room a ≤ room a'
  allocHigh : ∀ p : Paging A, 0 < room p.frames →
    ∃ f a, calls.pmmAllocHigh p = .done f { p with frames := a } ∧ f ∈ high p.frames ∧
      high a ⊆ high p.frames \ {f} ∧ stock.free a ⊆ stock.free p.frames ∧
      room p.frames ≤ room a + 1
  used : H → Set U64
  blocks : H → Set U64
  used_subset : ∀ h, used h ⊆ heapArea
  Heap : Machine A H → Prop
  heap_congr : ∀ m m', Heap m → m'.heap = m.heap →
    (∀ v, Upper v → translate m' v = translate m v) →
    (∀ v ∈ used m.heap, byteAt m' v = byteAt m v) → Heap m'

namespace MemorySupply
variable {calls : ElfCalls A H} (src : MemorySupply calls)

/-- Free frames are neither tables nor behind an address, no lower address shares its byte with
the area of the heap, and the heap is in order. -/
structure Sound (m : Machine A H) : Prop where
  spare : Spare src.stock m.paging
  fresh : ∀ v, translate m v ≠ 0#64 → ∀ f ∈ src.high m.paging.frames,
    (translate m v).toNat / 4096 ≠ f.toNat / 4096
  apart : ∀ v w, v.toNat < 2 ^ 47 → w ∈ heapArea → translate m v ≠ 0#64 →
    translate m v ≠ translate m w
  heap : src.Heap m

/-- What the kernel keeps over a step that takes up to `n` frames of the high memory. -/
structure Kept (n : ℕ) (m m' : Machine A H) : Prop where
  sound : src.Sound m'
  used : src.used m.heap ⊆ src.used m'.heap
  blocks : src.blocks m.heap ⊆ src.blocks m'.heap
  bytes : ∀ v ∈ src.used m.heap, byteAt m' v = byteAt m v
  kernel : ∀ v, Upper v → v ∉ heapArea → translate m' v = translate m v
  high : src.high m'.paging.frames ⊆ src.high m.paging.frames
  free : ∀ f ∈ src.high m'.paging.frames, ∀ p : PhysicalAddress,
    p.toNat / 4096 = f.toNat / 4096 → m'.phys p = m.phys p
  room : src.room m.paging.frames ≤ src.room m'.paging.frames + n

/-- The bytes of a block, or of its beginning. -/
def Holds (m : Machine A H) (b : U64) (bs : List U8) : Prop :=
  ∀ i (hi : i < bs.length), b + BitVec.ofNat 64 i ∈ src.used m.heap ∧
    byteAt m (b + BitVec.ofNat 64 i) = some bs[i]

/-- Every byte of a free frame is `g`. -/
def Filled (g : U8) (m : Machine A H) : Prop :=
  ∀ f ∈ src.high m.paging.frames, ∀ p : PhysicalAddress, p.toNat / 4096 = f.toNat / 4096 →
    m.phys p = g

variable {src} {m m' m'' : Machine A H} {n k : ℕ}

theorem Sound.kept (hs : src.Sound m) : src.Kept 0 m m :=
  ⟨hs,subset_rfl,subset_rfl,fun _ _ => rfl,fun _ _ _ => rfl,subset_rfl,fun _ _ _ _ => rfl,le_rfl⟩

theorem Kept.trans (h : src.Kept n m m') (h' : src.Kept k m' m'') : src.Kept (n + k) m m'' where
  sound := h'.sound
  used := h.used.trans h'.used
  blocks := h.blocks.trans h'.blocks
  bytes v hv := (h'.bytes v (h.used hv)).trans (h.bytes v hv)
  kernel v hv ha := (h'.kernel v hv ha).trans (h.kernel v hv ha)
  high := h'.high.trans h.high
  free f hf p hp := (h'.free f hf p hp).trans (h.free f (h'.high hf) p hp)
  room := by
    have h₁ := h.room
    have h₂ := h'.room
    omega

theorem Kept.holds {b : U64} {bs : List U8} (h : src.Kept n m m') (hb : src.Holds m b bs) :
    src.Holds m' b bs := fun i hi =>
  ⟨h.used (hb i hi).1,(h.bytes _ (hb i hi).1).trans (hb i hi).2⟩

theorem Kept.filled {g : U8} (h : src.Kept n m m') (hg : src.Filled g m) : src.Filled g m' :=
  fun f hf p hp => (h.free f hf p hp).trans (hg f (h.high hf) p hp)

end MemorySupply

/-! Mapping pages. -/

/-- No other address shares its byte with `v`. -/
def Own (m : Machine A H) (v : U64) : Prop :=
  translate m v ≠ 0#64 ∧ ∀ w, translate m w = translate m v → w = v

namespace MemorySupply
variable {calls : ElfCalls A H} (src : MemorySupply calls)

/-- The pages `P` of the lower half lie on frames that were free. -/
structure Mapped (P : Set ℕ) (n : ℕ) (m m' : Machine A H) : Prop extends src.Kept n m m' where
  heap : m'.heap = m.heap
  phys : m'.phys = m.phys
  away : ∀ v, v.toNat / 4096 ∉ P → translate m' v = translate m v
  own : ∀ v, v.toNat / 4096 ∈ P → Own m' v
  taken : ∀ v, v.toNat / 4096 ∈ P → ∃ f ∈ src.high m.paging.frames,
    (translate m' v).toNat / 4096 = f.toNat / 4096

variable {src} {m m' m'' : Machine A H} {n k : ℕ} {P Q : Set ℕ}

theorem Sound.mapped (hs : src.Sound m) : src.Mapped ∅ 0 m m :=
  ⟨hs.kept,rfl,rfl,fun _ _ => rfl,fun _ h => h.elim,fun _ h => h.elim⟩

theorem Mapped.trans (h : src.Mapped P n m m') (h' : src.Mapped Q k m' m'') :
    src.Mapped (P ∪ Q) (n + k) m m'' := by
  refine ⟨h.toKept.trans h'.toKept,h'.heap.trans h.heap,h'.phys.trans h.phys,fun v hv => ?_,
    fun v hv => ?_,fun v hv => ?_⟩
  · rw [h'.away v fun hq => hv (.inr hq),h.away v fun hp => hv (.inl hp)]
  · by_cases hq : v.toNat / 4096 ∈ Q
    · exact h'.own v hq
    · -- the frames that the second step takes are behind no address of the first
      obtain ⟨hne,huniq⟩ := h.own v (hv.resolve_right hq)
      rw [Own,h'.away v hq]
      refine ⟨hne,fun w hw => ?_⟩
      by_cases hwq : w.toNat / 4096 ∈ Q
      · obtain ⟨f,hf,hframe⟩ := h'.taken w hwq
        rw [hw] at hframe
        exact absurd hframe (h.sound.fresh v hne f hf)
      · rw [h'.away w hwq] at hw
        exact huniq w hw
  · by_cases hq : v.toNat / 4096 ∈ Q
    · obtain ⟨f,hf,hframe⟩ := h'.taken v hq
      exact ⟨f,h.high hf,hframe⟩
    · rw [h'.away v hq]
      exact h.taken v (hv.resolve_right hq)

/-- A page of the lower half is mapped, and the others are translated as before. -/
theorem Sound.translate_map {f : PhysicalAddress} {a : A} {virt : U64} {q : Paging A}
    (hs : src.Sound m) (hf : f ∈ src.high m.paging.frames)
    (hfree : src.stock.free a ⊆ src.stock.free m.paging.frames) (hvirt : virt.toNat < 2 ^ 47)
    (hmap : Paging.pageMap calls.frames virt f false { m.paging with frames := a } = .done () q) :
    (∀ v : U64, v.toNat / 4096 = virt.toNat / 4096 →
      (translate { m with paging := q } v).toNat = f.toNat + v.toNat % 4096) ∧
    ∀ v : U64, v.toNat / 4096 ≠ virt.toNat / 4096 →
      translate { m with paging := q } v = translate m v := by
  obtain ⟨hal,-,hlt⟩ := src.frame _ f hf
  obtain ⟨-,htrans⟩ := (hs.spare.withFrames hfree).pageMap hlt hmap
  have hvc : Canonical virt := .inl hvirt
  refine ⟨fun v hv => ?_,fun v hv => ?_⟩
  · have hc : Canonical v := .inl (by omega)
    rw [translate_of_canonical hc,htrans,if_pos ((Paging.samePage_iff_div hc hvc).mpr hv),
      Paging.toNat_frame_add hal]
  · rw [translate,translate]
    split
    · rename_i hc
      rw [htrans,if_neg (fun h => hv ((Paging.samePage_iff_div hc hvc).mp h))]
      rfl
    · rfl

/-- A page of the lower half on a free frame. -/
theorem Sound.map {f : PhysicalAddress} {a : A} {virt : U64} {q : Paging A} (hs : src.Sound m)
    (hf : f ∈ src.high m.paging.frames) (hhigh : src.high a ⊆ src.high m.paging.frames \ {f})
    (hfree : src.stock.free a ⊆ src.stock.free m.paging.frames)
    (hroom : src.room m.paging.frames ≤ src.room a + 1) (hvirt : virt.toNat < 2 ^ 47)
    (hmap : Paging.pageMap calls.frames virt f false { m.paging with frames := a } = .done () q) :
    src.Mapped {virt.toNat / 4096} 1 m { m with paging := q } := by
  obtain ⟨hal,hnz,hlt⟩ := src.frame _ f hf
  have hpos : 0 < f.toNat := Nat.pos_of_ne_zero fun h => hnz (BitVec.eq_of_toNat_eq h)
  obtain ⟨hspare,-⟩ := (hs.spare.withFrames hfree).pageMap hlt hmap
  obtain ⟨hq,hroomq⟩ : src.high q.frames ⊆ src.high a ∧ src.room a ≤ src.room q.frames :=
    Paging.pageMap_frames (R := fun a a' => src.high a' ⊆ src.high a ∧ src.room a ≤ src.room a')
      (fun _ => ⟨subset_rfl,le_rfl⟩) (fun _ _ _ h h' => ⟨h'.1.trans h.1,h.2.trans h'.2⟩)
      src.allocLow hmap
  obtain ⟨hnew,hold⟩ := hs.translate_map hf hfree hvirt hmap
  have hframe (v : U64) (hv : v.toNat / 4096 = virt.toNat / 4096) :
      (translate { m with paging := q } v).toNat / 4096 = f.toNat / 4096 := by
    rw [hnew v hv]
    omega
  have hne (v : U64) (hv : v.toNat / 4096 = virt.toNat / 4096) :
      translate { m with paging := q } v ≠ 0#64 := by
    intro h0
    have := hnew v hv
    rw [h0,show (0#64).toNat = 0 from rfl] at this
    omega
  have hupper (v : U64) (hv : Upper v) : v.toNat / 4096 ≠ virt.toNat / 4096 := by
    unfold Upper at hv
    omega
  have harea (v : U64) (hv : v ∈ heapArea) : Upper v := le_trans (by decide) hv.1
  have hbytes (v : U64) (hv : v ∈ src.used m.heap) : byteAt { m with paging := q } v = byteAt m v :=
    byteAt_congr (hold v (hupper v (harea v (src.used_subset _ hv)))) fun _ => rfl
  have hother (v : U64) (hv : translate m v ≠ 0#64) :
      (translate m v).toNat / 4096 ≠ f.toNat / 4096 := hs.fresh v hv f hf
  refine ⟨⟨⟨hspare,fun v hv g hg => ?_,fun v w hv hw hz => ?_,src.heap_congr m _ hs.heap rfl
      (fun v hv => hold v (hupper v hv)) hbytes⟩,subset_rfl,subset_rfl,hbytes,
    fun v hv _ => hold v (hupper v hv),hq.trans (hhigh.trans Set.sdiff_subset),
    fun _ _ _ _ => rfl,?_⟩,rfl,rfl,hold,fun v hv => ⟨hne v hv,fun w hw => ?_⟩,
    fun v hv => ⟨f,hf,hframe v hv⟩⟩
  · -- the taken frame is no longer free
    by_cases hp : v.toNat / 4096 = virt.toNat / 4096
    · rw [hframe v hp]
      obtain ⟨hgm,hgf⟩ := hhigh (hq hg)
      have hga := (src.frame _ g hgm).1
      intro h
      exact hgf (BitVec.eq_of_toNat_eq (by omega))
    · rw [hold v hp] at hv ⊢
      exact hs.fresh v hv g (hhigh (hq hg)).1
  · rw [hold w (hupper w (harea w hw))]
    by_cases hp : v.toNat / 4096 = virt.toNat / 4096
    · intro h
      have hwz : translate m w ≠ 0#64 := h ▸ hne v hp
      exact hother w hwz (by rw [← h,hframe v hp])
    · rw [hold v hp] at hz ⊢
      exact hs.apart v w hv hw hz
  · exact hroom.trans (Nat.add_le_add_right hroomq 1)
  · by_cases hp : w.toNat / 4096 = virt.toNat / 4096
    · have hwn := hnew w hp
      rw [hw,hnew v hv] at hwn
      have hv' : v.toNat / 4096 = virt.toNat / 4096 := hv
      exact BitVec.eq_of_toNat_eq (by omega)
    · rw [hold w hp] at hw
      have hwz : translate m w ≠ 0#64 := hw ▸ hne v hv
      exact absurd (by rw [hw,hframe v hv]) (hother w hwz)

/-- The frame and the page tables of a page that was mapped. -/
theorem mapPage_eq_done {l l' : Loader A H} {access : U64 → Access} {virt : U64}
    {f : PhysicalAddress} (hroom : 0 < src.room l.machine.paging.frames)
    (h : Elf.mapPage calls access virt l = .done f l') :
    ∃ a q, f ∈ src.high l.machine.paging.frames ∧
      src.high a ⊆ src.high l.machine.paging.frames \ {f} ∧
      src.stock.free a ⊆ src.stock.free l.machine.paging.frames ∧
      src.room l.machine.paging.frames ≤ src.room a + 1 ∧
      Paging.pageMap calls.frames virt f false { l.machine.paging with frames := a } = .done () q ∧
      l'.machine = { l.machine with paging := q } := by
  obtain ⟨g,a,halloc,hg,hhigh,hfree,hroom'⟩ := src.allocHigh l.machine.paging hroom
  have hrun : (machineLens A H).lift ((pagingLens A H).lift calls.pmmAllocHigh) l =
      .done g { l with machine.paging.frames := a } :=
    Lens.lift_eq_done.mpr ⟨_,Lens.lift_eq_done.mpr ⟨_,halloc,rfl⟩,rfl⟩
  rw [Elf.mapPage,hrun,Outcome.bind_done] at h
  obtain ⟨_,l₁,hmap,hlast⟩ := Outcome.bind_eq_done.mp h
  obtain ⟨rfl,rfl⟩ := Outcome.done.inj hlast
  obtain ⟨_,hpaging,rfl⟩ := Lens.lift_eq_done.mp hmap
  obtain ⟨q,hq,rfl⟩ := Lens.lift_eq_done.mp hpaging
  exact ⟨a,q,hg,hhigh,hfree,hroom',hq,rfl⟩

theorem Sound.mapPage {l : Loader A H} (hs : src.Sound l.machine) (access : U64 → Access)
    (virt : U64) (hroom : 0 < src.room l.machine.paging.frames)
    (hvirt : virt.toNat < 2 ^ 47) :
    (Elf.mapPage calls access virt l).Settled ∧ ∀ f l', Elf.mapPage calls access virt l = .done f l' →
      src.Mapped {virt.toNat / 4096} 1 l.machine l'.machine := by
  refine ⟨?_,fun f l' hdone => ?_⟩
  · obtain ⟨f,a,halloc,-⟩ := src.allocHigh l.machine.paging hroom
    have hrun : (machineLens A H).lift ((pagingLens A H).lift calls.pmmAllocHigh) l =
        .done f { l with machine.paging.frames := a } :=
      Lens.lift_eq_done.mpr ⟨_,Lens.lift_eq_done.mpr ⟨_,halloc,rfl⟩,rfl⟩
    rw [Elf.mapPage,hrun,Outcome.bind_done]
    have hset := Spare.settled_pageMap src.stock virt f false { l.machine.paging with frames := a }
    exact hset.mapState.mapState.bind fun _ _ _ => trivial
  · obtain ⟨a,q,hf,hhigh,hfree,hroom',hq,hmachine⟩ := mapPage_eq_done hroom hdone
    rw [hmachine]
    exact hs.map hf hhigh hfree hroom' hvirt hq

/-- The address of the `j`-th page of a range in the lower half. -/
theorem toNat_add_page {virt j : U64} (h : virt.toNat / 4096 + j.toNat + 1 ≤ 2 ^ 35) :
    (virt + j * pageSize).toNat = virt.toNat + j.toNat * 4096 := by
  have hv := virt.isLt
  rw [BitVec.toNat_add,BitVec.toNat_mul,show pageSize.toNat = 4096 from rfl]
  omega

theorem toNat_succ_page {virt j : U64} (h : virt.toNat / 4096 + j.toNat + 1 ≤ 2 ^ 35) :
    (j + 1#64).toNat = j.toNat + 1 := by
  rw [BitVec.toNat_add,show (1#64).toNat = 1 from rfl]
  omega

/-- The loop maps the pages behind the first `j` ones. -/
theorem Sound.mapPages {l : Loader A H} (hs : src.Sound l.machine) (access : U64 → Access)
    (virt j : U64) (hroom : k ≤ src.room l.machine.paging.frames)
    (hlow : 0 < k → virt.toNat / 4096 + j.toNat + k ≤ 2 ^ 35) :
    (Elf.mapPages calls access virt k j l).Settled ∧
      ∀ fs l', Elf.mapPages calls access virt k j l = .done fs l' →
      src.Mapped (Set.Ico (virt.toNat / 4096 + j.toNat) (virt.toNat / 4096 + j.toNat + k)) k
        l.machine l'.machine := by
  induction k generalizing j l with
  | zero =>
    refine ⟨trivial,fun fs l' hdone => ?_⟩
    obtain ⟨-,rfl⟩ := Outcome.done.inj hdone
    rw [Nat.add_zero,Set.Ico_self]
    exact hs.mapped
  | succ k ih =>
    have hlow := hlow (by omega)
    have hv := toNat_add_page (show virt.toNat / 4096 + j.toNat + 1 ≤ 2 ^ 35 by omega)
    have hj := toNat_succ_page (show virt.toNat / 4096 + j.toNat + 1 ≤ 2 ^ 35 by omega)
    have hpage : (virt + j * pageSize).toNat / 4096 = virt.toNat / 4096 + j.toNat := by omega
    obtain ⟨hset,hmap⟩ := hs.mapPage access (virt + j * pageSize) (by omega) (by omega)
    have hnext {f : PhysicalAddress} {l₁ : Loader A H}
        (h₁ : Elf.mapPage calls access (virt + j * pageSize) l = .done f l₁) :=
      ih (hmap f l₁ h₁).sound (j + 1#64)
        (by have := (hmap f l₁ h₁).room; omega) (by omega)
    refine ⟨hset.bind fun f l₁ h₁ => (hnext h₁).1.bind fun _ _ _ => trivial,fun fs l' hdone => ?_⟩
    obtain ⟨f,l₁,h₁,hdone⟩ := Outcome.bind_eq_done.mp hdone
    obtain ⟨fs',l₂,h₂,hdone⟩ := Outcome.bind_eq_done.mp hdone
    obtain ⟨-,rfl⟩ := Outcome.done.inj hdone
    have h := (hmap f l₁ h₁).trans ((hnext h₁).2 fs' l₂ h₂)
    have hset : {(virt + j * pageSize).toNat / 4096} ∪ Set.Ico (virt.toNat / 4096 + (j + 1#64).toNat)
        (virt.toNat / 4096 + (j + 1#64).toNat + k) =
        Set.Ico (virt.toNat / 4096 + j.toNat) (virt.toNat / 4096 + j.toNat + (k + 1)) := by
      ext p
      rw [hpage,hj,Set.mem_union,Set.mem_singleton_iff,Set.mem_Ico,Set.mem_Ico]
      omega
    rw [hset,Nat.add_comm 1 k] at h
    exact h

end MemorySupply

/-! Writing bytes. -/

/-- The `n` addresses from `a` on. -/
def span (a : U64) (n : ℕ) : Set U64 := {v | (v - a).toNat < n}

/-- Only bytes behind the addresses `D` have changed. -/
structure Stored (D : Set U64) (m m' : Machine A H) : Prop where
  paging : m'.paging = m.paging
  heap : m'.heap = m.heap
  phys : ∀ p, (∀ v ∈ D, translate m v ≠ p) → m'.phys p = m.phys p

section Write
variable {m m' m'' : Machine A H} {D E : Set U64} {dest src v : U64} {n : ℕ}

theorem toNat_sub_succ (h : v ≠ dest) : (v - dest).toNat = (v - (dest + 1#64)).toNat + 1 := by
  bv_omega

theorem add_ofNat_sub (a v : U64) : a + BitVec.ofNat 64 (v - a).toNat = v := by
  rw [BitVec.ofNat_toNat,BitVec.setWidth_eq,BitVec.add_comm,BitVec.sub_add_cancel]

theorem mem_span_succ : v ∈ span dest (n + 1) ↔ v = dest ∨ v ≠ dest ∧ v ∈ span (dest + 1#64) n := by
  by_cases h : v = dest
  · rw [h,span,Set.mem_ofPred_eq,sub_self]
    simp
  · rw [span,Set.mem_ofPred_eq,toNat_sub_succ h,Nat.add_lt_add_iff_right]
    simp [h,span]

theorem notMem_span_succ (hn : n < 2 ^ 64) : dest ∉ span (dest + 1#64) n := by
  intro h
  have hd : (dest - (dest + 1#64)).toNat < n := h
  rw [show dest - (dest + 1#64) = -1#64 by simp] at hd
  have : (-1#64).toNat = 2 ^ 64 - 1 := rfl
  omega

theorem span_subset_succ (hn : n < 2 ^ 64) : span (dest + 1#64) n ⊆ span dest (n + 1) := by
  intro v hv
  refine mem_span_succ.mpr (.inr ⟨?_,hv⟩)
  rintro rfl
  exact notMem_span_succ hn hv

namespace Stored

theorem refl (D : Set U64) (m : Machine A H) : Stored D m m := ⟨rfl,rfl,fun _ _ => rfl⟩

theorem translate (h : Stored D m m') (v : U64) : Elf.translate m' v = Elf.translate m v := by
  rw [Elf.translate,Elf.translate,h.paging]

theorem trans (h : Stored D m m') (h' : Stored D m' m'') : Stored D m m'' where
  paging := h'.paging.trans h.paging
  heap := h'.heap.trans h.heap
  phys p hp := (h'.phys p fun v hv => h.translate v ▸ hp v hv).trans (h.phys p hp)

theorem mono (h : Stored D m m') (hDE : D ⊆ E) : Stored E m m' :=
  ⟨h.paging,h.heap,fun p hp => h.phys p fun v hv => hp v (hDE hv)⟩

theorem byteAt (h : Stored D m m') (hv : ∀ u ∈ D, Elf.translate m u ≠ Elf.translate m v) :
    Elf.byteAt m' v = Elf.byteAt m v :=
  byteAt_congr (h.translate v) fun _ => h.phys _ hv

theorem own (h : Stored D m m') (hv : Own m v) : Own m' v := by
  refine ⟨h.translate v ▸ hv.1,fun w hw => ?_⟩
  rw [h.translate,h.translate] at hw
  exact hv.2 w hw

/-- Addresses with bytes of their own keep the bytes of all others. -/
theorem byteAt_of_own (h : Stored D m m') (hD : ∀ u ∈ D, Own m u) (hv : v ∉ D) :
    Elf.byteAt m' v = Elf.byteAt m v :=
  h.byteAt fun u hu heq => hv ((hD u hu).2 v heq.symm ▸ hu)

/-- Writes to the lower half leave the kernel alone. -/
theorem kept {calls : ElfCalls A H} {sup : MemorySupply calls} (h : Stored D m m')
    (hs : sup.Sound m) (hD : ∀ v ∈ D, v.toNat < 2 ^ 47) : sup.Kept 0 m m' := by
  have hbytes (w : U64) (hw : w ∈ sup.used m.heap) : Elf.byteAt m' w = Elf.byteAt m w := by
    refine byteAt_congr (h.translate w) fun hne => h.phys _ fun u hu heq => ?_
    exact hs.apart u w (hD u hu) (sup.used_subset _ hw) (heq ▸ hne) heq
  have hsound : sup.Sound m' := by
    refine ⟨h.paging ▸ hs.spare,fun v => ?_,fun v w => ?_,
      sup.heap_congr m m' hs.heap h.heap (fun v _ => h.translate v) hbytes⟩
    · rw [h.translate,h.paging]
      exact hs.fresh v
    · rw [h.translate,h.translate]
      exact hs.apart v w
  refine ⟨hsound,by rw [h.heap],by rw [h.heap],hbytes,fun v _ _ => h.translate v,
    by rw [h.paging],fun f hf p hp => h.phys p fun v hv heq => ?_,by rw [h.paging,Nat.add_zero]⟩
  -- a free frame is behind no address, and it is not at 0
  rw [h.paging] at hf
  obtain ⟨hal,hnz,-⟩ := sup.frame _ f hf
  by_cases hz : Elf.translate m v = 0#64
  · rw [← heq,hz,show (0#64).toNat = 0 from rfl] at hp
    exact hnz (BitVec.eq_of_toNat_eq (by rw [show (0#64).toNat = 0 from rfl]; omega))
  · exact hs.fresh v hz f hf (heq ▸ hp)

end Stored

theorem loadByte_state {b : U8} (h : loadByte v m = .done b m') : m' = m := by
  rw [loadByte] at h
  split at h
  · cases h
  · exact (Outcome.done.inj h).2.symm

theorem storeByte_eq_done {b : U8} (h : storeByte dest b m = .done () m') :
    translate m dest ≠ 0#64 ∧ m' = { m with phys := Function.update m.phys (translate m dest) b } := by
  rw [storeByte] at h
  split at h
  · cases h
  · rename_i hne
    exact ⟨hne,(Outcome.done.inj h).2.symm⟩

theorem stored_update {b : U8} (hD : dest ∈ D) :
    Stored D m { m with phys := Function.update m.phys (translate m dest) b } :=
  ⟨rfl,rfl,fun _ hp => Function.update_of_ne (hp dest hD).symm ..⟩

theorem memcpy_stored (hn : n < 2 ^ 64) (h : memcpy dest src n m = .done () m') :
    Stored (span dest n) m m' := by
  induction n generalizing dest src m with
  | zero =>
    obtain ⟨-,rfl⟩ := Outcome.done.inj h
    exact .refl _ _
  | succ n ih =>
    obtain ⟨b,m₁,hload,hrest⟩ := Outcome.bind_eq_done.mp h
    obtain rfl := loadByte_state hload
    obtain ⟨_,m₂,hstore,hcopy⟩ := Outcome.bind_eq_done.mp hrest
    obtain ⟨-,rfl⟩ := storeByte_eq_done hstore
    exact (stored_update (mem_span_succ.mpr (.inl rfl))).trans
      ((ih (by omega) hcopy).mono (span_subset_succ (by omega)))

theorem memset_stored {b : U8} (hn : n < 2 ^ 64) (h : memset dest b n m = .done () m') :
    Stored (span dest n) m m' := by
  induction n generalizing dest m with
  | zero =>
    obtain ⟨-,rfl⟩ := Outcome.done.inj h
    exact .refl _ _
  | succ n ih =>
    obtain ⟨_,m₁,hstore,hset⟩ := Outcome.bind_eq_done.mp h
    obtain ⟨-,rfl⟩ := storeByte_eq_done hstore
    exact (stored_update (mem_span_succ.mpr (.inl rfl))).trans
      ((ih (by omega) hset).mono (span_subset_succ (by omega)))

/-- One byte at an address that shares it with no other. -/
theorem storeByte_own {b : U8} (h : Own m dest) : ∃ m₁, storeByte dest b m = .done () m₁ ∧
    Stored {dest} m m₁ ∧ byteAt m₁ dest = some b := by
  refine ⟨_,if_neg h.1,stored_update rfl,byteAt_eq_some.mpr ⟨h.1,?_⟩⟩
  exact Function.update_self ..

/-- The bytes of the source reach a range that shares no byte with it. -/
theorem memcpy_own {c : ℕ → U8} (hn : n < 2 ^ 64) (hown : ∀ v ∈ span dest n, Own m v)
    (hsrc : ∀ k < n, src + BitVec.ofNat 64 k ∉ span dest n ∧
      byteAt m (src + BitVec.ofNat 64 k) = some (c k)) :
    ∃ m', memcpy dest src n m = .done () m' ∧
      ∀ v ∈ span dest n, byteAt m' v = some (c (v - dest).toNat) := by
  induction n generalizing dest src m c with
  | zero => exact ⟨m,rfl,fun v hv => absurd hv (by simp [span])⟩
  | succ n ih =>
    have hself : dest ∈ span dest (n + 1) := mem_span_succ.mpr (.inl rfl)
    have hsub : span (dest + 1#64) n ⊆ span dest (n + 1) := span_subset_succ (by omega)
    have haddr (k : ℕ) : src + 1#64 + BitVec.ofNat 64 k = src + BitVec.ofNat 64 (k + 1) := by
      rw [BitVec.ofNat_add,BitVec.add_assoc,BitVec.add_comm 1#64]
    obtain ⟨hnz,hbyte⟩ := byteAt_eq_some.mp (hsrc 0 (by omega)).2
    rw [BitVec.add_zero] at hnz hbyte
    obtain ⟨m₁,hstore,hst,hdest⟩ := storeByte_own (b := c 0) (hown dest hself)
    obtain ⟨m',hrun,hval⟩ : ∃ m', memcpy (dest + 1#64) (src + 1#64) n m₁ = .done () m' ∧
        ∀ v ∈ span (dest + 1#64) n, byteAt m' v = some (c ((v - (dest + 1#64)).toNat + 1)) := by
      refine ih (c := fun k => c (k + 1)) (by omega) (fun v hv => hst.own (hown v (hsub hv)))
        fun k hk => ?_
      obtain ⟨hout,hb⟩ := hsrc (k + 1) (by omega)
      rw [haddr]
      refine ⟨fun h => hout (hsub h),?_⟩
      rw [hst.byteAt_of_own (by simpa using hown dest hself) (fun h => hout ?_),hb]
      rw [Set.mem_singleton_iff.mp h]
      exact hself
    refine ⟨m',?_,fun v hv => ?_⟩
    · rw [memcpy,loadByte,if_neg hnz,Outcome.bind_done,hbyte,hstore,Outcome.bind_done]
      exact hrun
    · rcases mem_span_succ.mp hv with rfl | ⟨hne,hv⟩
      · have hkeep := (memcpy_stored (by omega) hrun).byteAt_of_own
          (fun u hu => hst.own (hown u (hsub hu))) (notMem_span_succ (by omega))
        rw [hkeep,hdest,sub_self]
        rfl
      · rw [hval v hv,toNat_sub_succ hne]

theorem memset_own {b : U8} (hn : n < 2 ^ 64) (hown : ∀ v ∈ span dest n, Own m v) :
    ∃ m', memset dest b n m = .done () m' ∧ ∀ v ∈ span dest n, byteAt m' v = some b := by
  induction n generalizing dest m with
  | zero => exact ⟨m,rfl,fun v hv => absurd hv (by simp [span])⟩
  | succ n ih =>
    have hself : dest ∈ span dest (n + 1) := mem_span_succ.mpr (.inl rfl)
    have hsub : span (dest + 1#64) n ⊆ span dest (n + 1) := span_subset_succ (by omega)
    obtain ⟨m₁,hstore,hst,hdest⟩ := storeByte_own (b := b) (hown dest hself)
    obtain ⟨m',hrun,hval⟩ := ih (by omega) fun v hv => hst.own (hown v (hsub hv))
    refine ⟨m',?_,fun v hv => ?_⟩
    · rw [memset,hstore,Outcome.bind_done]
      exact hrun
    · rcases mem_span_succ.mp hv with rfl | ⟨-,hv⟩
      · rw [(memset_stored (by omega) hrun).byteAt_of_own
          (fun u hu => hst.own (hown u (hsub hu))) (notMem_span_succ (by omega)),hdest]
      · exact hval v hv

end Write

end Lios.Elf

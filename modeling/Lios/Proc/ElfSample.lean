import Lios.Proc.ElfSegments

/-! # A small machine

The frames are handed out in order, low and high ones. The heap has one block for a file of one
sector and one for everything else, and the file system delivers the file into the first. The
free frames are not cleared.
-/
namespace Lios.Elf.Sample
open Paging (Canonical Stock Spare)

/-- How many frames of each kind are taken. -/
structure Frames where
  low : ℕ
  high : ℕ

def frameCount : ℕ := 2 ^ 18

def lowFrame (n : ℕ) : PhysicalAddress := BitVec.ofNat 64 (4096 * (n + 1))
def highFrame (n : ℕ) : PhysicalAddress := BitVec.ofNat 64 (0x80000000 + 4096 * n)

def frames : FrameAllocator Frames where
  allocLow a :=
    if a.low < frameCount then .done (lowFrame a.low) { a with low := a.low + 1 }
    else .panic "pmm: out of memory!" a
  free _ a := .done () a

def pmmAllocHigh (p : Paging Frames) : Outcome (Paging Frames) PhysicalAddress :=
  if p.frames.high < frameCount then
    .done (highFrame p.frames.high) { p with frames.high := p.frames.high + 1 }
  else .panic "pmm: out of memory!" p

def buffer : U64 := 0xFFFFF00000000000#64
def otherBlock : U64 := 0xFFFFF00000010000#64
def bufferFrame : PhysicalAddress := highFrame 0

def calls (file : Sector) : ElfCalls Frames Bool where
  frames := frames
  pmmAllocHigh := pmmAllocHigh
  vmalloc _ m := .done otherBlock m
  vcalloc n m := .done (if n = 512#64 then buffer else otherBlock) m
  vfree _ m := .done () m
  fat32Open _ _ m := .done ⟨2#32,1#32⟩ m
  fat32Read _ _ _ m :=
    .done 0#32 { m with heap := true, phys := store m.phys bufferFrame file.toList }

theorem toNat_lowFrame {n : ℕ} (hn : n < frameCount) : (lowFrame n).toNat = 4096 * (n + 1) := by
  unfold frameCount at hn
  rw [lowFrame,BitVec.toNat_ofNat,Nat.mod_eq_of_lt (by omega)]

theorem toNat_highFrame {n : ℕ} (hn : n < frameCount) :
    (highFrame n).toNat = 0x80000000 + 4096 * n := by
  unfold frameCount at hn
  rw [highFrame,BitVec.toNat_ofNat,Nat.mod_eq_of_lt (by omega)]

theorem allocLow_eq_done {a a' : Frames} {f : PhysicalAddress}
    (h : frames.allocLow a = .done f a') :
    a.low < frameCount ∧ f = lowFrame a.low ∧ a' = { a with low := a.low + 1 } := by
  simp only [frames] at h
  split at h
  · rename_i hlt
    obtain ⟨rfl,rfl⟩ := Outcome.done.inj h
    exact ⟨hlt,rfl,rfl⟩
  · cases h

theorem lowFrame_aligned {n : ℕ} (hn : n < frameCount) :
    lowFrame n &&& Paging.addrMask = lowFrame n := by
  have hnat := toNat_lowFrame hn
  unfold frameCount at hn
  rw [Paging.addrMask_eq (by omega),Paging.and_not_mask_eq (by omega)]

theorem settled_allocLow (a : Frames) : (frames.allocLow a).Settled := by
  simp only [frames]
  split <;> trivial

theorem allocLow_stock (a : Frames) (f : PhysicalAddress) (a' : Frames)
    (h : frames.allocLow a = .done f a') :
    f ∈ {f | ∃ n, a.low ≤ n ∧ n < frameCount ∧ f = lowFrame n} ∧ f &&& Paging.addrMask = f ∧
      {f | ∃ n, a'.low ≤ n ∧ n < frameCount ∧ f = lowFrame n} ⊆
        {f | ∃ n, a.low ≤ n ∧ n < frameCount ∧ f = lowFrame n} \ {f} := by
  obtain ⟨hlt,rfl,rfl⟩ := allocLow_eq_done h
  refine ⟨⟨a.low,le_rfl,hlt,rfl⟩,lowFrame_aligned hlt,?_⟩
  rintro g ⟨n,hle,hn,rfl⟩
  have hle : a.low + 1 ≤ n := hle
  refine ⟨⟨n,by omega,hn,rfl⟩,fun heq => ?_⟩
  have hnat := congrArg BitVec.toNat (Set.mem_singleton_iff.mp heq)
  rw [toNat_lowFrame hn,toNat_lowFrame hlt] at hnat
  omega

/-- The low frames from the counter on. -/
def stock : Stock frames where
  free a := {f | ∃ n, a.low ≤ n ∧ n < frameCount ∧ f = lowFrame n}
  settled := settled_allocLow
  allocLow := allocLow_stock

/-- The high frames from the counter on. -/
def high (a : Frames) : Set PhysicalAddress :=
  {f | ∃ n, a.high ≤ n ∧ n < frameCount ∧ f = highFrame n}

theorem high_frame (a : Frames) (f : PhysicalAddress) (hf : f ∈ high a) :
    f.toNat % 4096 = 0 ∧ f ≠ 0#64 ∧ f.toNat < 2 ^ 52 := by
  obtain ⟨n,-,hn,rfl⟩ := hf
  have hnat := toNat_highFrame hn
  unfold frameCount at hn
  refine ⟨by omega,fun h0 => ?_,by omega⟩
  rw [h0,show (0#64).toNat = 0 from rfl] at hnat
  omega

theorem allocLow_high (a : Frames) (f : PhysicalAddress) (a' : Frames)
    (h : frames.allocLow a = .done f a') :
    high a' ⊆ high a ∧ frameCount - a.high ≤ frameCount - a'.high := by
  obtain ⟨-,-,rfl⟩ := allocLow_eq_done h
  exact ⟨subset_rfl,le_rfl⟩

theorem allocHigh_frames (p : Paging Frames) (hroom : 0 < frameCount - p.frames.high) :
    ∃ f a, pmmAllocHigh p = .done f { p with frames := a } ∧ f ∈ high p.frames ∧
      high a ⊆ high p.frames \ {f} ∧ stock.free a ⊆ stock.free p.frames ∧
      frameCount - p.frames.high ≤ frameCount - a.high + 1 := by
  have hlt : p.frames.high < frameCount := by omega
  refine ⟨highFrame p.frames.high,{ p.frames with high := p.frames.high + 1 },if_pos hlt,
    ⟨p.frames.high,le_rfl,hlt,rfl⟩,?_,subset_rfl,by simp only; omega⟩
  rintro g ⟨n,hle,hn,rfl⟩
  have hle : p.frames.high + 1 ≤ n := hle
  refine ⟨⟨n,by omega,hn,rfl⟩,fun heq => ?_⟩
  have hnat := congrArg BitVec.toNat (Set.mem_singleton_iff.mp heq)
  rw [toNat_highFrame hn,toNat_highFrame hlt] at hnat
  omega

/-! The heap. -/

def used (h : Bool) : Set U64 := {v | h = true ∧ v ∈ span buffer 512}

theorem mem_used {h : Bool} {v : U64} : v ∈ used h ↔
    h = true ∧ ∃ i < 512, v = buffer + BitVec.ofNat 64 i := by
  refine and_congr_right fun _ => ⟨fun hv => ⟨_,hv,(add_ofNat_sub buffer v).symm⟩,?_⟩
  rintro ⟨i,hi,rfl⟩
  rw [mem_span (by decide),BitVec.toNat_add,BitVec.toNat_ofNat,
    show buffer.toNat = 0xFFFFF00000000000 from rfl]
  omega

theorem toNat_buffer_add {i : ℕ} (hi : i < 4096) :
    (buffer + BitVec.ofNat 64 i).toNat = 0xFFFFF00000000000 + i := by
  rw [BitVec.toNat_add,BitVec.toNat_ofNat,show buffer.toNat = 0xFFFFF00000000000 from rfl]
  omega

theorem buffer_mem_heapArea {i : ℕ} (hi : i < 4096) : buffer + BitVec.ofNat 64 i ∈ heapArea := by
  rw [heapArea,Set.mem_ofPred_eq,toNat_buffer_add hi]
  omega

theorem upper_buffer {i : ℕ} (hi : i < 4096) : Upper (buffer + BitVec.ofNat 64 i) := by
  rw [Upper,toNat_buffer_add hi]
  omega

theorem used_subset (h : Bool) : used h ⊆ heapArea := by
  intro v hv
  obtain ⟨-,i,hi,rfl⟩ := mem_used.mp hv
  exact buffer_mem_heapArea (by omega)

/-- The page of the buffer is mapped, and once the file is read, the buffer holds it. -/
structure Heap (file : Sector) (m : Machine Frames Bool) : Prop where
  mapped : ∀ i < 4096, translate m (buffer + BitVec.ofNat 64 i) = bufferFrame + BitVec.ofNat 64 i
  holds : m.heap = true → ∀ i (hi : i < 512), m.phys (bufferFrame + BitVec.ofNat 64 i) = file[i]

theorem toNat_bufferFrame_add {i : ℕ} (hi : i < 4096) :
    (bufferFrame + BitVec.ofNat 64 i).toNat = 0x80000000 + i := by
  rw [BitVec.toNat_add,BitVec.toNat_ofNat,show bufferFrame.toNat = 0x80000000 from rfl]
  omega

theorem bufferFrame_add_ne {i : ℕ} (hi : i < 4096) : bufferFrame + BitVec.ofNat 64 i ≠ 0#64 := by
  intro h0
  have hnat := toNat_bufferFrame_add hi
  rw [h0,show (0#64).toNat = 0 from rfl] at hnat
  omega

variable {file : Sector} {m m' : Machine Frames Bool}

theorem Heap.byteAt (h : Heap file m) {i : ℕ} (hi : i < 4096) :
    byteAt m (buffer + BitVec.ofNat 64 i) = some (m.phys (bufferFrame + BitVec.ofNat 64 i)) := by
  rw [Elf.byteAt,h.mapped i hi,if_neg (bufferFrame_add_ne hi)]

theorem heap_congr (m m' : Machine Frames Bool) (h : Heap file m) (hheap : m'.heap = m.heap)
    (htrans : ∀ v, Upper v → translate m' v = translate m v)
    (hbytes : ∀ v ∈ used m.heap, byteAt m' v = byteAt m v) : Heap file m' := by
  have hmapped (i : ℕ) (hi : i < 4096) :
      translate m' (buffer + BitVec.ofNat 64 i) = bufferFrame + BitVec.ofNat 64 i :=
    (htrans _ (upper_buffer hi)).trans (h.mapped i hi)
  refine ⟨hmapped,fun htrue i hi => ?_⟩
  have hb := hbytes _ (mem_used.mpr ⟨hheap ▸ htrue,i,hi,rfl⟩)
  rw [h.byteAt (by omega),Elf.byteAt,hmapped i (by omega),if_neg (bufferFrame_add_ne (by omega))]
    at hb
  rw [Option.some.inj hb]
  exact h.holds (hheap ▸ htrue) i hi

def memorySupply (file : Sector) : MemorySupply (calls file) where
  stock := stock
  high := high
  room a := frameCount - a.high
  frame := high_frame
  allocLow := allocLow_high
  allocHigh := allocHigh_frames
  used := used
  blocks h := {v | h = true ∧ v = buffer}
  used_subset := used_subset
  Heap := Heap file
  heap_congr := heap_congr

/-- A call that changes nothing. -/
theorem heapCall_same {n : ℕ} {r : U64} :
    (memorySupply file).HeapCall n fun m : Machine Frames Bool => .done r m := by
  intro m hs _
  refine ⟨trivial,fun a m' hdone => ?_⟩
  obtain ⟨-,rfl⟩ := Outcome.done.inj hdone
  have hk := hs.kept
  exact ⟨{ hk with room := le_trans hk.room (Nat.add_le_add_left (Nat.zero_le n) _) },
    fun _ _ => ⟨rfl,rfl⟩⟩

/-- The machine after the file was delivered. -/
def delivered (file : Sector) (m : Machine Frames Bool) : Machine Frames Bool :=
  { m with heap := true, phys := store m.phys bufferFrame file.toList }

theorem elfRead_eq (name ext : List U8) (m : Machine Frames Bool) :
    elfRead (calls file) name ext m = .done (some buffer) (delivered file m) := rfl

theorem elfLoad_eq (name ext : List U8) (m : Machine Frames Bool) : elfLoad (calls file) name ext m =
    elfLoadBuffer (calls file) buffer ⟨delivered file m,[]⟩ := rfl

theorem delivered_phys {i : ℕ} (hi : i < 512) :
    (delivered file m).phys (bufferFrame + BitVec.ofNat 64 i) = file[i] := by
  have hsub : (bufferFrame + BitVec.ofNat 64 i - bufferFrame).toNat = i := by
    rw [BitVec.add_comm,BitVec.add_sub_cancel,BitVec.toNat_ofNat]
    omega
  change (file.toList[(bufferFrame + BitVec.ofNat 64 i - bufferFrame).toNat]?).getD _ = _
  rw [hsub]
  simp [hi]

theorem delivered_phys_of_ne {p : PhysicalAddress}
    (h : ∀ i < 512, p ≠ bufferFrame + BitVec.ofNat 64 i) : (delivered file m).phys p = m.phys p := by
  refine store_of_le ?_
  by_contra hlt
  exact h (p - bufferFrame).toNat (by simpa using hlt) (add_ofNat_sub bufferFrame p).symm

theorem heapKept_delivered {n : ℕ} (hs : (memorySupply file).Sound m) :
    (memorySupply file).HeapKept n m (delivered file m) := by
  have hheap : Heap file m := hs.heap
  have hheap' : Heap file (delivered file m) := ⟨hheap.mapped,fun _ _ hi => delivered_phys hi⟩
  refine ⟨⟨⟨hs.spare,hs.fresh,hs.apart,hheap'⟩,fun v hv => ⟨rfl,hv.2⟩,fun v hv => ⟨rfl,hv.2⟩,
    fun v hv => ?_,fun _ _ _ => rfl,subset_rfl,fun f hf p hp => ?_,Nat.le_add_right _ _⟩,
    fun v hlow => ⟨rfl,?_⟩⟩
  · -- a file that is read again is the same
    obtain ⟨htrue,i,hi,rfl⟩ := mem_used.mp hv
    rw [hheap.byteAt (by omega),hheap'.byteAt (by omega),delivered_phys hi,hheap.holds htrue i hi]
  · refine delivered_phys_of_ne fun i hi heq => ?_
    have hz := hheap.mapped i (by omega)
    refine hs.fresh (buffer + BitVec.ofNat 64 i) ?_ f hf ?_
    · rw [hz]
      exact bufferFrame_add_ne (by omega)
    · rw [hz,← heq,hp]
  · refine byteAt_congr rfl fun hne => delivered_phys_of_ne fun i hi heq => ?_
    refine hs.apart v (buffer + BitVec.ofNat 64 i) hlow (buffer_mem_heapArea (by omega)) hne ?_
    rw [heq,hheap.mapped i (by omega)]

theorem read_delivers (name ext : List U8) (m : Machine Frames Bool)
    (hs : (memorySupply file).Sound m) :
    (elfRead (calls file) name ext m).Settled ∧ ∀ r m', elfRead (calls file) name ext m = .done r m' →
      (memorySupply file).HeapKept 0 m m' ∧ (some file.toList = none → r = none) ∧
      ∀ bs, some file.toList = some bs → ∃ b, r = some b ∧ b ∈ (memorySupply file).blocks m'.heap ∧
        (memorySupply file).Holds m' b bs := by
  refine ⟨trivial,fun r m' hdone => ?_⟩
  rw [elfRead_eq] at hdone
  obtain ⟨rfl,rfl⟩ := Outcome.done.inj hdone
  have hk := heapKept_delivered (n := 0) hs
  have hheap : Heap file (delivered file m) := hk.sound.heap
  refine ⟨hk,nofun,fun bs hbs => ⟨buffer,rfl,⟨rfl,rfl⟩,fun i hi => ?_⟩⟩
  obtain rfl := Option.some.inj hbs
  have hlt : i < 512 := by simpa using hi
  refine ⟨mem_used.mpr ⟨rfl,i,hlt,rfl⟩,?_⟩
  rw [hheap.byteAt (by omega),delivered_phys hlt]
  simp

theorem vfree_same (b : U64) (m : Machine Frames Bool) (_ : (memorySupply file).Sound m)
    (_ : b ∈ (memorySupply file).blocks m.heap) : ((calls file).vfree b m).Settled ∧
      ∀ m', (calls file).vfree b m = .done () m' →
        ∀ v, Upper v → v ∉ heapArea → translate m' v = translate m v := by
  refine ⟨trivial,fun m' hdone v _ _ => ?_⟩
  obtain ⟨-,rfl⟩ := Outcome.done.inj hdone
  rfl

theorem length_sector (bs : List U8) (h : some file.toList = some bs) : 512 ≤ bs.length := by
  rw [← Option.some.inj h,Vector.length_toList]

def supply (file : Sector) : ElfSupply (calls file) where
  toMemorySupply := memorySupply file
  need _ := 0
  vmalloc _ := heapCall_same
  vcalloc _ := heapCall_same
  vfree := vfree_same
  file _ _ _ := some file.toList
  readNeed _ := 0
  sector _ _ _ := length_sector
  read name ext m hs _ _ := read_delivers name ext m hs

/-! The machine before a load. -/

/-- Page tables without an entry. -/
def emptyTables : Paging Frames := ⟨kernelOffset + 0x60000000#64,fun _ _ => 0#64,⟨0,1⟩⟩

/-- The page of the buffer is mapped. -/
def startTables : Paging Frames :=
  (Paging.pageMap frames buffer bufferFrame true emptyTables).stateD emptyTables

def start : Machine Frames Bool := ⟨startTables,false,fun _ => 0xAA#8⟩

theorem startTables_eq : Paging.pageMap frames buffer bufferFrame true emptyTables =
    .done () startTables := by
  have h : (Paging.pageMap frames buffer bufferFrame true emptyTables).returned = some () := by
    decide +kernel
  exact Outcome.eq_done_of_returned h emptyTables

theorem emptyTables_child (t : U64) (i : TableIndex) : emptyTables.child t i = none := by
  rw [Paging.child_eq_none]
  exact Paging.entryQueryFlag_zero

theorem spare_emptyTables : Spare stock emptyTables := by
  refine ⟨TreeTo.of_empty (emptyTables_child _),?_⟩
  rintro f ⟨n,-,hn,rfl⟩ ⟨q,-,hq⟩
  have hroot := (follow_of_empty (emptyTables_child _) hq).2
  have hnat := congrArg (fun x : U64 => (x - kernelOffset).toNat) hroot
  have hpml4 : (emptyTables.pml4Addr - kernelOffset).toNat = 0x60000000 := by decide
  simp only [BitVec.add_sub_cancel,hpml4,toNat_lowFrame hn] at hnat
  unfold frameCount at hn
  omega

/-- The translations of the start. -/
theorem startTables_spec : Spare stock startTables ∧ startTables.frames.high = 1 ∧
    ∀ v, startTables.pageVirtToPhysAddr v =
      if Paging.SamePage v buffer then (bufferFrame &&& ~~~0xFFF#64) + (v &&& 0xFFF#64)
      else 0#64 := by
  obtain ⟨hspare,htrans⟩ := spare_emptyTables.pageMap (by decide) startTables_eq
  have hempty (v : U64) : emptyTables.pageVirtToPhysAddr v = 0#64 := by
    have hnone : follow emptyTables.child emptyTables.pml4Addr (Paging.pathOf v) = none := by
      simp [follow,Paging.pathOf,emptyTables_child]
    rw [Paging.pageVirtToPhysAddr_eq,hnone]
    rfl
  refine ⟨hspare,?_,fun v => by rw [htrans,hempty]⟩
  refine Paging.pageMap_frames (R := fun a a' : Frames => a'.high = a.high) (fun _ => rfl)
    (fun _ _ _ h h' => h'.trans h) (fun a f a' h => ?_) startTables_eq
  obtain ⟨-,-,rfl⟩ := allocLow_eq_done h
  rfl

theorem translate_start (v : U64) : translate start v =
    if v.toNat / 4096 = buffer.toNat / 4096 then
      (bufferFrame &&& ~~~0xFFF#64) + (v &&& 0xFFF#64) else 0#64 := by
  have hb : Canonical buffer := by decide
  rw [translate]
  split
  · rename_i hc
    rw [show start.paging = startTables from rfl,startTables_spec.2.2 v]
    simp only [Paging.samePage_iff_div hc hb]
  · rename_i hc
    rw [if_neg]
    intro hv
    have hnat : buffer.toNat = 0xFFFFF00000000000 := rfl
    exact hc (.inr (by omega))

theorem toNat_translate_start {v : U64} (hv : v.toNat / 4096 = buffer.toNat / 4096) :
    (translate start v).toNat = 0x80000000 + v.toNat % 4096 := by
  rw [translate_start,if_pos hv,Paging.toNat_frame_add (by decide)]
  rfl

theorem page_of_translate_start {v : U64} (h : translate start v ≠ 0#64) :
    v.toNat / 4096 = buffer.toNat / 4096 := by
  by_contra hv
  rw [translate_start,if_neg hv] at h
  exact h rfl

theorem sound_start (file : Sector) : (supply file).Sound start := by
  have hnat : buffer.toNat = 0xFFFFF00000000000 := rfl
  refine ⟨startTables_spec.1,fun v hv f hf => ?_,fun v w hlow _ hv => ?_,fun i hi => ?_,nofun⟩
  · obtain ⟨n,hle,hn,rfl⟩ := hf
    have hle : startTables.frames.high ≤ n := hle
    have hone := startTables_spec.2.1
    rw [toNat_translate_start (page_of_translate_start hv),toNat_highFrame hn]
    omega
  · have := page_of_translate_start hv
    omega
  · have hadd := toNat_buffer_add hi
    apply BitVec.eq_of_toNat_eq
    rw [toNat_translate_start (by omega),toNat_bufferFrame_add hi]
    omega

theorem nextTable_returns (kernel : Bool) (tbl : U64) (i : TableIndex) {p : Paging Frames}
    (h : p.frames.low < frameCount) : ∃ t q, Paging.nextTable frames kernel tbl i p = .done t q ∧
      q.frames.low ≤ p.frames.low + 1 ∧ q.frames.high = p.frames.high := by
  cases hc : p.child tbl i with
  | some t => exact ⟨t,p,Paging.nextTable_of_some hc,Nat.le_succ _,rfl⟩
  | none =>
    exact ⟨_,_,(Paging.nextTable_eq_done_of_none hc).mpr ⟨_,_,if_pos h,rfl,rfl⟩,le_rfl,rfl⟩

theorem pageMap_returns (virt : U64) (phys : PhysicalAddress) (kernel : Bool) {p : Paging Frames}
    (h : p.frames.low + 3 ≤ frameCount) : ∃ q, Paging.pageMap frames virt phys kernel p = .done () q ∧
      q.frames.low ≤ p.frames.low + 3 ∧ q.frames.high = p.frames.high := by
  obtain ⟨t₁,p₁,h₁,hl₁,hh₁⟩ := nextTable_returns kernel p.pml4Addr (Paging.virtAddrGetPml4e virt)
    (p := p) (by omega)
  obtain ⟨t₂,p₂,h₂,hl₂,hh₂⟩ := nextTable_returns kernel t₁ (Paging.virtAddrGetPdpe virt)
    (p := p₁) (by omega)
  obtain ⟨t₃,p₃,h₃,hl₃,hh₃⟩ := nextTable_returns kernel t₂ (Paging.virtAddrGetPde virt)
    (p := p₂) (by omega)
  refine ⟨_,by rw [Paging.pageMap,h₁,Outcome.bind_done,h₂,Outcome.bind_done,h₃,Outcome.bind_done],
    ?_,?_⟩
  · change p₃.frames.low ≤ _
    omega
  · change p₃.frames.high = _
    omega

theorem mapPages_returns (access : U64 → Access) (virt : U64) {k : ℕ} {j : U64}
    {l : Loader Frames Bool} (hlow : l.machine.paging.frames.low + 3 * k ≤ frameCount)
    (hhigh : l.machine.paging.frames.high + k ≤ frameCount) :
    ∃ fs l', mapPages (calls file) access virt k j l = .done fs l' := by
  induction k generalizing j l with
  | zero => exact ⟨[],l,rfl⟩
  | succ k ih =>
    have hroom : l.machine.paging.frames.high < frameCount := by omega
    obtain ⟨q,hq,hql,hqh⟩ := pageMap_returns (virt + j * pageSize)
      (highFrame l.machine.paging.frames.high) false
      (p := { l.machine.paging with frames.high := l.machine.paging.frames.high + 1 })
      (by simp only; omega)
    have halloc : (calls file).pmmAllocHigh l.machine.paging =
        .done (highFrame l.machine.paging.frames.high)
          { l.machine.paging with frames.high := l.machine.paging.frames.high + 1 } := if_pos hroom
    have hpage : mapPage (calls file) access (virt + j * pageSize) l =
        .done (highFrame l.machine.paging.frames.high)
          ⟨{ l.machine with paging := q },l.trace ++ [access (virt + j * pageSize)]⟩ := by
      rw [mapPage,Lens.lift_eq_done.mpr ⟨_,Lens.lift_eq_done.mpr ⟨_,halloc,rfl⟩,rfl⟩,
        Outcome.bind_done]
      exact Outcome.bind_eq_done.mpr
        ⟨(),_,Lens.lift_eq_done.mpr ⟨_,Lens.lift_eq_done.mpr ⟨q,hq,rfl⟩,rfl⟩,rfl⟩
    simp only at hql hqh
    obtain ⟨fs,l',hrest⟩ := ih (j := j + 1#64)
      (l := ⟨{ l.machine with paging := q },l.trace ++ [access (virt + j * pageSize)]⟩)
      (by simp only; omega) (by simp only; omega)
    exact ⟨_,l',by rw [mapPages,hpage,Outcome.bind_done,hrest,Outcome.bind_done]⟩

theorem loadStack_returns {l : Loader Frames Bool}
    (hlow : l.machine.paging.frames.low + 3 * 2048 ≤ frameCount)
    (hhigh : l.machine.paging.frames.high + 2048 ≤ frameCount) :
    ∃ fs l', loadStack (calls file) l = .done fs l' := by
  have hcall (n : U64) : (machineLens Frames Bool).lift ((calls file).vmalloc n) l =
      .done otherBlock l := Lens.lift_eq_done.mpr ⟨l.machine,rfl,rfl⟩
  have hcount : (stackSize / pageSize).toNat = 2048 := by decide
  simp only [loadStack,hcall,Outcome.bind_done,hcount]
  exact mapPages_returns .stack (lowerHalfMemMax - stackSize) hlow hhigh

/-- The run up to the stack. -/
def beforeStack (file : Sector) : Outcome (Loader Frames Bool) (List ElfSegmentMem) :=
  (readStruct buffer 64 ⟨delivered file start,[]⟩).bind fun bs l =>
  if isAccepted (headerOf bs) = false then .fault l
  else
    (countSegments (buffer + (headerOf bs).ePhoff) (headerOf bs).ePhnum.toNat 0#16 0#64
      l).bind fun _ l =>
    loadSegments (calls file) buffer (buffer + (headerOf bs).ePhoff) (headerOf bs).ePhnum.toNat
      0#16 l

/-- The counters of a run that returns. -/
def framesTaken {α : Type} : Outcome (Loader Frames Bool) α → Option (ℕ × ℕ)
  | .done _ l => some (l.machine.paging.frames.low,l.machine.paging.frames.high)
  | _ => none

theorem framesTaken_eq_some {α : Type} {x : Outcome (Loader Frames Bool) α} {a b : ℕ}
    (h : framesTaken x = some (a,b)) : ∃ r l, x = .done r l ∧
      l.machine.paging.frames.low = a ∧ l.machine.paging.frames.high = b := by
  cases x with
  | done r l =>
    obtain ⟨hlow,hhigh⟩ := Prod.mk.inj (Option.some.inj h)
    exact ⟨r,l,rfl,hlow,hhigh⟩
  | _ => cases h

/-- A load returns if the run up to the stack leaves enough frames. -/
theorem elfLoad_returns (name ext : List U8) {a b : ℕ} (h : framesTaken (beforeStack file) = some (a,b))
    (ha : a + 3 * 2048 ≤ frameCount) (hb : b + 2048 ≤ frameCount) :
    ∃ segs l fs l' ctx, beforeStack file = .done segs l ∧ loadStack (calls file) l = .done fs l' ∧
      elfLoad (calls file) name ext start = .done ctx l' := by
  obtain ⟨segs,l,hrun,rfl,rfl⟩ := framesTaken_eq_some h
  obtain ⟨fs,l',hstack⟩ : ∃ fs l', loadStack (calls file) l = .done fs l' :=
    loadStack_returns ha hb
  have hparts := hrun
  rw [beforeStack] at hparts
  obtain ⟨bs,l₁,h₁,hrest⟩ := Outcome.bind_eq_done.mp hparts
  have haccept : ¬ isAccepted (headerOf bs) = false := by
    intro hreject
    rw [if_pos hreject] at hrest
    cases hrest
  rw [if_neg haccept] at hrest
  obtain ⟨n,l₂,h₂,h₃⟩ := Outcome.bind_eq_done.mp hrest
  have hcall (n : U64) : (machineLens Frames Bool).lift ((calls file).vcalloc n) l₂ =
      .done (if n = 512#64 then buffer else otherBlock) l₂ :=
    Lens.lift_eq_done.mpr ⟨l₂.machine,rfl,rfl⟩
  refine ⟨segs,l,fs,l',⟨buffer,fs,segs,(headerOf bs).eEntry,lowerHalfMemMax,stackSize⟩,hrun,hstack,?_⟩
  rw [elfLoad_eq,elfLoadBuffer]
  simp only [h₁,Outcome.bind_done,if_neg haccept,h₂,hcall,h₃,hstack]

/-! Files of one sector. -/

/-- A number in `n` bytes, the lowest first. -/
def numBytes (n v : ℕ) : List U8 := (List.range n).map fun i => BitVec.ofNat 8 (v / 256 ^ i)

/-- The header of an executable, with the table of its `n` program headers behind it. -/
def headerBytes (n : ℕ) : List U8 :=
  [0x7F#8,0x45#8,0x4C#8,0x46#8,2#8,1#8,1#8] ++ List.replicate 9 0#8 ++ numBytes 2 2 ++
    numBytes 2 0x3E ++ numBytes 4 1 ++ numBytes 8 0x400000 ++ numBytes 8 64 ++ numBytes 8 0 ++
    numBytes 4 0 ++ numBytes 2 64 ++ numBytes 2 56 ++ numBytes 2 n ++ numBytes 6 0

def programHeaderBytes (ph : ElfProgramHeader) : List U8 :=
  numBytes 4 ph.pType.toNat ++ numBytes 4 0 ++ numBytes 8 ph.pOffset.toNat ++
    numBytes 8 ph.pVaddr.toNat ++ numBytes 8 0 ++ numBytes 8 ph.pFilesz.toNat ++
    numBytes 8 ph.pMemsz.toNat ++ numBytes 8 0

/-- The bytes of a file, filled up to a sector. -/
def sectorBytes (phs : List ElfProgramHeader) (data : List U8) : List U8 :=
  (headerBytes phs.length ++ phs.flatMap programHeaderBytes ++ data ++ List.replicate 512 0#8).take 512

theorem size_sectorBytes (phs : List ElfProgramHeader) (data : List U8) :
    (sectorBytes phs data).toArray.size = 512 := by
  rw [List.size_toArray,sectorBytes,List.length_take,List.length_append,List.length_replicate]
  omega

def executable (phs : List ElfProgramHeader) (data : List U8) : Sector :=
  ⟨(sectorBytes phs data).toArray,size_sectorBytes phs data⟩

end Lios.Elf.Sample

import Lios.Proc.ElfKernel

/-! # What a load leaves behind

The mark of a failed load is a context whose entry point is 0. A file that is not found or that is
rejected gives that context, and the only block that was taken is freed again. Every other file
keeps the pages of its stack, and the entry point of its context is the one in its header,
which nothing checks.
-/
namespace Lios.Elf
variable {A H : Type} {calls : ElfCalls A H}

/-- The blocks of the heap and the translations of the lower half are as they were, and no page
was taken for a segment or the stack. Each of these pages has a frame of `pmm_alloc_high`, and
`elf_load` frees none. -/
structure NothingLeft (blocks : H → Set U64) (m : Machine A H) (l : Loader A H) : Prop where
  blocks : blocks l.machine.heap = blocks m.heap
  frames : ∀ v, .map v ∉ l.trace ∧ .stack v ∉ l.trace
  lower : ∀ v : U64, v.toNat < 2 ^ 47 → translate l.machine v = translate m v

/-- Reading a file takes one block, for the buffer, and to free a block is to remove it. -/
structure ExactSupply (calls : ElfCalls A H) extends ElfSupply calls where
  readBlocks : ∀ name ext m, toMemorySupply.Sound m →
    (∀ bs, file name ext m = some bs → bs.length < 2 ^ 32) →
    readNeed (file name ext m) ≤ room m.paging.frames →
    ∀ r m', elfRead calls name ext m = .done r m' →
      (r = none → blocks m'.heap = blocks m.heap) ∧
      ∀ b, r = some b → b ∉ blocks m.heap ∧ blocks m'.heap = insert b (blocks m.heap)
  vfreeBlocks : ∀ b m m', toMemorySupply.Sound m → b ∈ blocks m.heap →
    calls.vfree b m = .done () m' → blocks m'.heap = blocks m.heap \ {b} ∧
      ∀ v : U64, v.toNat < 2 ^ 47 → translate m' v = translate m v

section Steps
variable {l l' : Loader A H} {b : U64} {file : List U8}

/-- The first page that the loop maps is in the trace. -/
theorem mapPages_mem_trace {access : U64 → Access} {virt j : U64} {k : ℕ}
    {fs : List PhysicalAddress} (hk : 0 < k) (h : mapPages calls access virt k j l = .done fs l') :
    access (virt + j * pageSize) ∈ l'.trace := by
  cases k with
  | zero => exact absurd hk (lt_irrefl 0)
  | succ k =>
    obtain ⟨f,l₁,hpage,hrest⟩ := Outcome.bind_eq_done.mp h
    obtain ⟨fs',l₂,hpages,hlast⟩ := Outcome.bind_eq_done.mp hrest
    obtain ⟨-,rfl⟩ := Outcome.done.inj hlast
    obtain ⟨_,l₃,-,hrest⟩ := Outcome.bind_eq_done.mp hpage
    obtain ⟨_,l₄,hnoted,hlast⟩ := Outcome.bind_eq_done.mp hrest
    obtain ⟨-,rfl⟩ := Outcome.done.inj hlast
    obtain ⟨m,-,rfl⟩ := Lens.lift_eq_done.mp hnoted
    refine (traces_mapPages (T := (access (virt + j * pageSize) ∈ ·)) ?_
      fun _ _ _ h => List.mem_append_left _ h).of_done hpages
    exact List.mem_append_right _ (List.mem_singleton_self _)

theorem stack_mem_trace {fs : List PhysicalAddress} (h : loadStack calls l = .done fs l') :
    .stack (lowerHalfMemMax - stackSize) ∈ l'.trace := by
  obtain ⟨_,l₁,-,hpages⟩ := Outcome.bind_eq_done.mp h
  exact mapPages_mem_trace (j := 0#64) (by decide) hpages

/-- The context of an accepted file. -/
theorem elfLoadBuffer_accepted {src : MemorySupply calls} {ctx : ElfContext}
    (hb : src.Holds l.machine b file) (hlen : 64 ≤ file.length)
    (haccept : isAccepted (elfHeader file) = true)
    (hdone : elfLoadBuffer calls b l = .done ctx l') :
    ctx.entryPoint = (elfHeader file).eEntry ∧ .stack (lowerHalfMemMax - stackSize) ∈ l'.trace := by
  obtain ⟨_,_,_,_,_,_,fs,-,-,-,hstack,rfl⟩ := elfLoadBuffer_eq_done hb hlen haccept hdone
  exact ⟨rfl,stack_mem_trace hstack⟩

end Steps

namespace ExactSupply
variable {src : ExactSupply calls} {name ext file : List U8} {m : Machine A H} {ctx : ElfContext}
  {l' : Loader A H}

/-- A file that is not found. -/
theorem elfLoad_missing (hs : src.Sound m) (hfile : src.file name ext m = none)
    (hroom : src.readNeed none ≤ src.room m.paging.frames)
    (hdone : elfLoad calls name ext m = .done ctx l') :
    ctx = noContext ∧ NothingLeft src.blocks m l' := by
  have hshort : ∀ bs, src.file name ext m = some bs → bs.length < 2 ^ 32 := fun bs hbs => by
    rw [hfile] at hbs
    cases hbs
  rw [← hfile] at hroom
  obtain ⟨r,l₁,h₁,hrest⟩ := Outcome.bind_eq_done.mp hdone
  obtain ⟨m₁,hread,rfl⟩ := Lens.lift_eq_done.mp h₁
  obtain ⟨hk,hnone,-⟩ := (src.read name ext m hs hshort hroom).2 r m₁ hread
  obtain rfl := hnone hfile
  obtain ⟨rfl,rfl⟩ := Outcome.done.inj hrest
  exact ⟨rfl,(src.readBlocks name ext m hs hshort hroom none m₁ hread).1 rfl,
    fun v => ⟨List.not_mem_nil,List.not_mem_nil⟩,fun v hv => (hk.user v hv).1⟩

/-- The file in a new block. -/
theorem elfLoad_found (hs : src.Sound m) (hfile : src.file name ext m = some file)
    (hshort : file.length < 2 ^ 32)
    (hroom : src.readNeed (some file) ≤ src.room m.paging.frames)
    (hdone : elfLoad calls name ext m = .done ctx l') :
    ∃ b m₁, src.HeapKept (src.readNeed (some file)) m m₁ ∧ src.Holds m₁ b file ∧
      b ∉ src.blocks m.heap ∧ src.blocks m₁.heap = insert b (src.blocks m.heap) ∧
      elfLoadBuffer calls b ⟨m₁,[]⟩ = .done ctx l' := by
  have hshort : ∀ bs, src.file name ext m = some bs → bs.length < 2 ^ 32 := fun bs hbs => by
    rwa [← Option.some.inj (hfile.symm.trans hbs)]
  obtain ⟨r,l₁,h₁,hrest⟩ := Outcome.bind_eq_done.mp hdone
  obtain ⟨m₁,hread,rfl⟩ := Lens.lift_eq_done.mp h₁
  rw [← hfile] at hroom
  obtain ⟨hk,-,hsome⟩ := (src.read name ext m hs hshort hroom).2 r m₁ hread
  obtain ⟨b,rfl,-,hb⟩ := hsome file hfile
  obtain ⟨hnew,hblocks⟩ := (src.readBlocks name ext m hs hshort hroom _ m₁ hread).2 b rfl
  rw [hfile] at hk
  exact ⟨b,m₁,hk,hb,hnew,hblocks,hrest⟩

/-- A file that is rejected: its buffer is freed. -/
theorem elfLoad_freed (hs : src.Sound m) (hfile : src.file name ext m = some file)
    (hshort : file.length < 2 ^ 32)
    (hroom : src.readNeed (some file) ≤ src.room m.paging.frames)
    (hreject : isAccepted (elfHeader file) = false)
    (hdone : elfLoad calls name ext m = .done ctx l') :
    ctx = noContext ∧ NothingLeft src.blocks m l' := by
  obtain ⟨b,m₁,hk,hb,hnew,hblocks,hload⟩ := elfLoad_found hs hfile hshort hroom hdone
  have hlen := src.sector name ext m file hfile
  rw [elfLoadBuffer_rejected (l := ⟨m₁,[]⟩) hb (by omega) hreject] at hload
  obtain ⟨_,l₂,h₂,hlast⟩ := Outcome.bind_eq_done.mp hload
  obtain ⟨rfl,rfl⟩ := Outcome.done.inj hlast
  obtain ⟨m₂,hfree,rfl⟩ := Lens.lift_eq_done.mp h₂
  obtain ⟨hremoved,hlower⟩ := src.vfreeBlocks b m₁ m₂ hk.sound (by simp [hblocks]) hfree
  refine ⟨rfl,?_,fun v => ⟨by simp [machineLens],by simp [machineLens]⟩,fun v hv => ?_⟩
  · rw [hblocks,Set.insert_sdiff_self_of_notMem hnew] at hremoved
    exact hremoved
  · exact (hlower v hv).trans (hk.user v hv).1

/-- A file that is accepted: its stack stays. -/
theorem elfLoad_accepted (hs : src.Sound m) (hfile : src.file name ext m = some file)
    (hshort : file.length < 2 ^ 32)
    (hroom : src.readNeed (some file) ≤ src.room m.paging.frames)
    (haccept : isAccepted (elfHeader file) = true)
    (hdone : elfLoad calls name ext m = .done ctx l') :
    ctx.entryPoint = (elfHeader file).eEntry ∧ ¬ NothingLeft src.blocks m l' := by
  obtain ⟨b,m₁,-,hb,-,-,hload⟩ := elfLoad_found hs hfile hshort hroom hdone
  have hlen := src.sector name ext m file hfile
  obtain ⟨hentry,hstack⟩ := elfLoadBuffer_accepted (l := ⟨m₁,[]⟩) hb (by omega) haccept hload
  exact ⟨hentry,fun h => (h.frames _).2 hstack⟩

/-- When a load returns, an entry point of 0 means that nothing is left behind, and any other one
that something is, if and only if the file is not an accepted one with the entry point 0. -/
theorem elfLoad_failure_iff (src : ExactSupply calls) {name ext : List U8} {m : Machine A H}
    (hs : src.Sound m) (hshort : ∀ file, src.file name ext m = some file → file.length < 2 ^ 32)
    (hroom : src.readNeed (src.file name ext m) ≤ src.room m.paging.frames) {ctx : ElfContext}
    {l' : Loader A H} (hdone : elfLoad calls name ext m = .done ctx l') :
    (ctx.entryPoint = 0#64 ↔ NothingLeft src.blocks m l') ↔
      ∀ file, src.file name ext m = some file → isAccepted (elfHeader file) = true →
        (elfHeader file).eEntry ≠ 0#64 := by
  cases hfile : src.file name ext m with
  | none =>
    rw [hfile] at hroom
    obtain ⟨rfl,hnothing⟩ := elfLoad_missing hs hfile hroom hdone
    exact ⟨fun _ file h => (nomatch h),fun _ => ⟨fun _ => hnothing,fun _ => rfl⟩⟩
  | some file =>
    have hshort := hshort file hfile
    rw [hfile] at hroom
    cases haccept : isAccepted (elfHeader file) with
    | false =>
      obtain ⟨rfl,hnothing⟩ := elfLoad_freed hs hfile hshort hroom haccept hdone
      refine ⟨fun _ file' h haccept' => ?_,fun _ => ⟨fun _ => hnothing,fun _ => rfl⟩⟩
      rw [← Option.some.inj h,haccept] at haccept'
      cases haccept'
    | true =>
      obtain ⟨hentry,hleft⟩ := elfLoad_accepted hs hfile hshort hroom haccept hdone
      rw [hentry]
      constructor
      · intro h file' hfile' _ hzero
        rw [← Option.some.inj hfile'] at hzero
        exact hleft (h.mp hzero)
      · intro h
        exact ⟨fun hzero => absurd hzero (h file rfl haccept),fun hnothing => absurd hnothing hleft⟩

end ExactSupply

namespace Sample

/-- The heap has only the block of the buffer, which can be freed and taken again. -/
def onceCalls (file : Sector) : ElfCalls Frames Bool :=
  { Sample.calls file with
    vcalloc := fun _ m => if m.heap = true then .panic "vmm: out of memory!" m else .done buffer m
    vfree := fun _ m => .done () { m with heap := false } }

def onceMemory (file : Sector) : MemorySupply (onceCalls file) where
  stock := stock
  high := high
  room a := frameCount - a.high
  frame := high_frame
  allocLow := allocLow_high
  allocHigh := allocHigh_frames
  used := used
  blocks h := {v | h = true ∧ v = buffer}
  used_subset := used_subset
  Heap := Heap file
  heap_congr := heap_congr

section Once
variable {file : Sector} {m m' : Machine Frames Bool} {name ext : List U8} {r : Option U64} {b : U64}

theorem sound_once : (onceMemory file).Sound m ↔ (memorySupply file).Sound m :=
  ⟨fun h => ⟨h.spare,h.fresh,h.apart,h.heap⟩,fun h => ⟨h.spare,h.fresh,h.apart,h.heap⟩⟩

theorem heapKept_once {n : ℕ} (h : (memorySupply file).HeapKept n m m') :
    (onceMemory file).HeapKept n m m' :=
  ⟨⟨sound_once.mpr h.sound,h.used,h.blocks,h.bytes,h.kernel,h.high,h.free,h.room⟩,h.user⟩

theorem elfRead_once (name ext : List U8) (m : Machine Frames Bool) :
    elfRead (onceCalls file) name ext m = if m.heap = true then .panic "vmm: out of memory!" m
      else .done (some buffer) (delivered file m) := by
  rw [elfRead]
  change (Outcome.bind (if m.heap = true then _ else _) _) = _
  split
  · rfl
  · rfl

theorem elfRead_once_eq_done (h : elfRead (onceCalls file) name ext m = .done r m') :
    m.heap = false ∧ r = some buffer ∧ m' = delivered file m := by
  rw [elfRead_once] at h
  split at h
  · cases h
  · obtain ⟨rfl,rfl⟩ := Outcome.done.inj h
    exact ⟨by simpa using ‹¬ m.heap = true›,rfl,rfl⟩

theorem heapCall_once (f : Machine Frames Bool → Outcome (Machine Frames Bool) U64)
    (hf : ∀ m, (f m).Settled ∧ ∀ a m', f m = .done a m' → m' = m) :
    (onceMemory file).HeapCall 0 f := by
  intro m hs _
  refine ⟨(hf m).1,fun a m' hdone => ?_⟩
  obtain rfl := (hf m).2 a m' hdone
  exact ⟨hs.kept,fun _ _ => ⟨rfl,rfl⟩⟩

theorem vcalloc_once (n : U64) (m : Machine Frames Bool) :
    ((onceCalls file).vcalloc n m).Settled ∧
      ∀ a m', (onceCalls file).vcalloc n m = .done a m' → m' = m := by
  simp only [onceCalls]
  split
  · exact ⟨trivial,fun _ _ h => (nomatch h)⟩
  · exact ⟨trivial,fun _ _ h => (Outcome.done.inj h).2.symm⟩

theorem read_once (hs : (onceMemory file).Sound m) :
    (elfRead (onceCalls file) name ext m).Settled ∧
    ∀ r m', elfRead (onceCalls file) name ext m = .done r m' →
      (onceMemory file).HeapKept 0 m m' ∧ (some file.toList = none → r = none) ∧
      ∀ bs, some file.toList = some bs → ∃ b, r = some b ∧ b ∈ (onceMemory file).blocks m'.heap ∧
        (onceMemory file).Holds m' b bs := by
  refine ⟨?_,fun r m' h => ?_⟩
  · rw [elfRead_once]
    split
    · trivial
    · trivial
  · obtain ⟨-,rfl,rfl⟩ := elfRead_once_eq_done h
    obtain ⟨hk,hrest⟩ := (read_delivers name ext m (sound_once.mp hs)).2 _ _ (elfRead_eq _ _ _)
    exact ⟨heapKept_once hk,hrest⟩

theorem readBlocks_once (h : elfRead (onceCalls file) name ext m = .done r m') :
    (r = none → (onceMemory file).blocks m'.heap = (onceMemory file).blocks m.heap) ∧
    ∀ b, r = some b → b ∉ (onceMemory file).blocks m.heap ∧
      (onceMemory file).blocks m'.heap = insert b ((onceMemory file).blocks m.heap) := by
  obtain ⟨hheap,rfl,rfl⟩ := elfRead_once_eq_done h
  refine ⟨nofun,fun b hb => ?_⟩
  obtain rfl := Option.some.inj hb
  simp only [onceMemory,hheap]
  refine ⟨fun hmem => Bool.false_ne_true hmem.1,?_⟩
  ext v
  simp [delivered]

theorem vfreeBlocks_once (hb : b ∈ (onceMemory file).blocks m.heap)
    (h : (onceCalls file).vfree b m = .done () m') :
    (onceMemory file).blocks m'.heap = (onceMemory file).blocks m.heap \ {b} ∧
      ∀ v : U64, v.toNat < 2 ^ 47 → translate m' v = translate m v := by
  obtain ⟨-,rfl⟩ := Outcome.done.inj h
  obtain ⟨hheap,rfl⟩ := hb
  refine ⟨?_,fun _ _ => rfl⟩
  ext v
  simp [onceMemory,hheap]

theorem vfree_once (b : U64) (m : Machine Frames Bool) : ((onceCalls file).vfree b m).Settled ∧
    ∀ m', (onceCalls file).vfree b m = .done () m' →
      ∀ v, Upper v → v ∉ heapArea → translate m' v = translate m v := by
  refine ⟨trivial,fun m' h v _ _ => ?_⟩
  obtain ⟨-,rfl⟩ := Outcome.done.inj h
  rfl

end Once

def onceSupply (file : Sector) : ExactSupply (onceCalls file) where
  toMemorySupply := onceMemory file
  need _ := 0
  vmalloc _ := heapCall_once _ fun _ => ⟨trivial,fun _ _ h => (Outcome.done.inj h).2.symm⟩
  vcalloc n := heapCall_once _ (vcalloc_once n)
  vfree b m _ _ := vfree_once b m
  file _ _ _ := some file.toList
  readNeed _ := 0
  sector _ _ _ := length_sector
  read _ _ _ hs _ _ := read_once hs
  readBlocks _ _ _ _ _ _ _ _ h := readBlocks_once h
  vfreeBlocks _ _ _ _ hb h := vfreeBlocks_once hb h

/-- A sector of zeros, which is no executable. -/
def blank : Sector := Vector.replicate 512 0#8

/-- The file is rejected, and nothing is left of it. -/
theorem blank_nothingLeft : ∃ l', elfLoad (onceCalls blank) [] [] start = .done noContext l' ∧
    NothingLeft (onceMemory blank).blocks start l' := by
  have hs : (onceSupply blank).Sound start := sound_once.mpr (sound_start blank)
  have hread : elfRead (onceCalls blank) [] [] start = .done (some buffer) (delivered blank start) :=
    elfRead_once [] [] start
  obtain ⟨-,-,hsome⟩ := (read_once hs).2 _ _ hread
  obtain ⟨_,⟨⟩,-,hb⟩ := hsome blank.toList rfl
  have hlen : blank.toList.length = 512 := blank.length_toList
  have hload := elfLoadBuffer_rejected (l := ⟨delivered blank start,[]⟩) hb (by omega)
    (by decide +kernel)
  have hdone : elfLoad (onceCalls blank) [] [] start = .done noContext
      ⟨{ delivered blank start with heap := false },[.read buffer 64#64]⟩ :=
    (elfLoad_of_read hread).trans hload
  have hiff := (ExactSupply.elfLoad_failure_iff (onceSupply blank) hs (fun file h => by
    rw [← Option.some.inj h,hlen]; decide) (Nat.zero_le _) hdone).mpr fun file h haccept => by
      rw [← Option.some.inj h] at haccept
      exact absurd haccept (by decide +kernel)
  exact ⟨_,hdone,hiff.mp rfl⟩

/-- An accepted file without segments whose entry point is 0. -/
def zeroEntry : Sector := (executable [] []).set! 26 0#8

/-- The load returns the mark of a failure and keeps the stack. -/
theorem zeroEntry_not_nothingLeft : ∃ ctx l',
    elfLoad (Sample.calls zeroEntry) [] [] start = .done ctx l' ∧ ctx.entryPoint = 0#64 ∧
      .stack 0x7FFFFF800000#64 ∈ l'.trace ∧ ∀ blocks, ¬ NothingLeft blocks start l' := by
  have htaken : framesTaken (beforeStack zeroEntry) = some (3,1) := by decide +kernel
  obtain ⟨-,-,-,l',ctx,-,-,hload⟩ := elfLoad_returns [] [] htaken (by decide) (by decide)
  obtain ⟨-,-,hsome⟩ := (read_delivers [] [] start (sound_start zeroEntry)).2 _ _ (elfRead_eq [] [] _)
  obtain ⟨_,⟨⟩,-,hb⟩ := hsome _ rfl
  have hlen : zeroEntry.toList.length = 512 := zeroEntry.length_toList
  obtain ⟨hentry,hstack⟩ := elfLoadBuffer_accepted (l := ⟨delivered zeroEntry start,[]⟩) hb (by omega)
    (by decide +kernel) ((elfLoad_eq [] [] start).symm.trans hload)
  have hzero : (elfHeader zeroEntry.toList).eEntry = 0#64 := by decide +kernel
  exact ⟨ctx,l',hload,hentry.trans hzero,hstack,fun blocks h => (h.frames _).2 hstack⟩

end Sample

end Lios.Elf

import Lios.Boot.MemoryMap
import Lios.Mem.PmmAssigned

/-! # Nodes and frames at boot

The number of nodes comes from the first pass over the memory map, which counts the bytes of
the multiboot structure and the parts of pages that the second pass leaves out. With a large
structure and little memory there are more nodes than frames.
-/
namespace Lios
open PmmInit

section Boot
variable {kernelEnd multibootStart multibootEnd : U64} {map : List MmapEntry} {fuel : ℕ}
  {bytes : U64 → U8} {t : PmmInit}

/-- The manager is initialised from a memory map. -/
def bootPmm (fuel : ℕ) (kernelEnd multibootStart multibootEnd : U64) (map : List MmapEntry)
    (s : PmmInit) : Outcome PmmInit Unit :=
  initialise fuel (totalAvailableMem kernelEnd map)
    (memoryBlocks kernelEnd multibootStart multibootEnd map) s

/-- What the blocks of the second pass have to meet for the nodes to be stored in memory of
their own: no bound wraps, and the nodes are apart and below 2 GiB. -/
structure Storable (kernelEnd multibootStart multibootEnd : U64) (map : List MmapEntry) :
    Prop where
  bounds : ∀ b ∈ memoryBlocks kernelEnd multibootStart multibootEnd map,
    0 < b.1.toNat ∧ b.1.toNat + 4096 ≤ 2 ^ 64 ∧ b.2.toNat + 4096 ≤ 2 ^ 64
  spaced : Spaced (layout (totalAvailableMem kernelEnd map)
    (memoryBlocks kernelEnd multibootStart multibootEnd map)).nodes

/-- The number of nodes that the first pass asks for. -/
def nodesWanted (kernelEnd : U64) (map : List MmapEntry) : ℕ :=
  (floorU64Div (totalAvailableMem kernelEnd map) (pageSize + 16#64) - 1#64).toNat

/-- After booting the lists hold real frames only, and zero is never handed out, exactly if
there is no block, or if behind the nodes at least as many pages begin as there are nodes. -/
theorem bootPmm_realFrames_iff (h : Storable kernelEnd multibootStart multibootEnd map)
    (hdone : bootPmm fuel kernelEnd multibootStart multibootEnd map (fresh bytes) = .done () t) :
    t.RealFrames ↔
      (∀ b ∈ memoryBlocks kernelEnd multibootStart multibootEnd map, b.2 ≤ b.1) ∨
      nodesWanted kernelEnd map ≤ Layout.pagesLeft (nodesWanted kernelEnd map)
        (spans (memoryBlocks kernelEnd multibootStart multibootEnd map)) :=
  realFrames_iff h.bounds h.spaced hdone

end Boot

/-- The 24 KiB behind a kernel of 16 KiB. -/
def smallMap : List MmapEntry := [⟨0x100000#64,0xA000#64,mbootMemAvailable⟩]

/-- The manager after booting with a multiboot structure from 0x106000 on. -/
def smallBoot (multibootEnd : U64) : PmmInit :=
  (bootPmm 10 0x104000#64 0x106000#64 multibootEnd smallMap (fresh fun _ => 0#8)).stateD
    (fresh fun _ => 0#8)

theorem smallBoot_eq {multibootEnd : U64}
    (h : (bootPmm 10 0x104000#64 0x106000#64 multibootEnd smallMap
      (fresh fun _ => 0#8)).returned = some ()) :
    bootPmm 10 0x104000#64 0x106000#64 multibootEnd smallMap (fresh fun _ => 0#8) =
      .done () (smallBoot multibootEnd) :=
  Outcome.eq_done_of_returned h _

theorem storable_smallMap : Storable 0x104000#64 0x106000#64 0x107000#64 smallMap :=
  ⟨List.all_iff_forall_prop.mp (by decide +kernel),by decide +kernel,by decide +kernel⟩

theorem smallBoot_realFrames : Storable 0x104000#64 0x106000#64 0x107000#64 smallMap ∧
    (smallBoot 0x107000#64).RealFrames :=
  ⟨storable_smallMap,(bootPmm_realFrames_iff storable_smallMap
    (smallBoot_eq (by decide +kernel))).mpr (.inr (by decide +kernel))⟩

/-- With a multiboot structure of three pages there are three nodes and two frames. -/
theorem smallBoot_not_realFrames :
    bootPmm 10 0x104000#64 0x106000#64 0x109000#64 smallMap (fresh fun _ => 0#8) =
      .done () (smallBoot 0x109000#64) ∧
    ¬ (smallBoot 0x109000#64).Assigned ∧ ¬ (smallBoot 0x109000#64).pmm.NeverZero := by
  -- the nodes begin behind the kernel; the last one has no frame
  have hlow : Linked 0#64 (smallBoot 0x109000#64).next (smallBoot 0x109000#64).pmmLow
      ([0x104000,0x104010,0x104020].map pointer) := by decide +kernel
  have hlast : pointer 0x104020 ∈ [0x104000,0x104010,0x104020].map pointer := by decide
  have haddr : (smallBoot 0x109000#64).addr (pointer 0x104020) = 0#64 := by decide +kernel
  refine ⟨smallBoot_eq (by decide +kernel),fun hall => ?_,fun hnever => ?_⟩
  · exact hall _ (.inl ((Linked.reaches_iff hlow).mpr hlast)) haddr
  · exact hnever.low hlow hlast haddr

end Lios

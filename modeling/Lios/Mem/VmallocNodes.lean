import Lios.Lib.DoublyLinked
import Lios.Mem.VmallocBitmap
import Lios.Mem.VmmRanges

/-! # Nodes and blocks of the heap

What the heap relies on is that the blocks of the virtual address allocator that
were not given back do not overlap. A node of `k` times 504 sections owns as many
pages as `4095 * k` bytes take; its sections begin after 24 bytes of header and `63 * k`
bytes of bitmap, so that the last of them end up to 24 bytes behind the pages. The next
node still has its own header there, and the sections of different nodes are apart.
-/
namespace Lios

/-- A virtual address allocator whose outstanding blocks are pages of the range below
the kernel and do not overlap. -/
structure BlockSupply {E : Type} (calls : VmmCalls E) where
  Held : E → Multiset (U64 × U64) → Prop
  bounds : ∀ {e out x}, Held e out → x ∈ out →
    4096 ≤ x.1.toNat ∧ x.1.toNat % 4096 = 0 ∧ x.1.toNat + x.2.toNat * 4096 ≤ 0xFFFFFFFF80000000
  apart : ∀ {e out x y}, Held e out → x ∈ out → y ∈ out.erase x →
    (Vmm.outBlock x).Apart (Vmm.outBlock y)
  vmmAlloc : ∀ {e out pages a e'}, Held e out → 1 ≤ pages.toNat → pages.toNat * 4096 < 2 ^ 64 →
    calls.vmmAlloc pages e = .done a e' → Held e' ((a,pages) ::ₘ out)
  vmmFree : ∀ {e out pages a e'}, Held e out → (a,pages) ∈ out →
    calls.vmmFree a e = .done () e' → Held e' (out.erase (a,pages))

section Kernel
variable {F : Type} {calls : PageCalls F} {src : PageSupply calls}

theorem Vmm.Ranges.page_bounds {s : Vmm F} {out : Multiset (U64 × U64)} {x : U64 × U64}
    (h : Vmm.Ranges src s out) (hx : x ∈ out) :
    4096 ≤ x.1.toNat ∧ x.1.toNat % 4096 = 0 ∧
      x.1.toNat + x.2.toNat * 4096 ≤ 0xFFFFFFFF80000000 := by
  obtain ⟨hlo,hhi,hal,-⟩ := h.bounds hx
  exact ⟨by omega,hal,hhi⟩

theorem Vmm.Ranges.outBlock_apart {s : Vmm F} {out : Multiset (U64 × U64)} {x y : U64 × U64}
    (h : Vmm.Ranges src s out) (hx : x ∈ out) (hy : y ∈ out.erase x) :
    (Vmm.outBlock x).Apart (Vmm.outBlock y) := by
  obtain ⟨-,-,-,hxpos⟩ := h.bounds hx
  obtain ⟨-,-,-,hypos⟩ := h.bounds (Multiset.mem_of_mem_erase hy)
  have htiles := h.free.blocks.tiles
  rw [← Multiset.cons_erase hx,← Multiset.cons_erase hy,add_comm,Multiset.map_cons,
    Multiset.map_cons,Multiset.cons_add,Multiset.cons_add] at htiles
  exact htiles.apart (by simp only [Vmm.outBlock]; omega) (by simp only [Vmm.outBlock]; omega)

end Kernel

/-- The allocator of the kernel. -/
def kernelBlocks {F : Type} {calls : PageCalls F} (src : PageSupply calls) (fuel : ℕ) :
    BlockSupply (kernelVmmCalls calls fuel) where
  Held := Vmm.Ranges src
  bounds h hx := h.page_bounds hx
  apart h hx hy := h.outBlock_apart hx hy
  vmmAlloc h hpos hlt hdone := h.vmmAlloc hpos hlt hdone
  vmmFree h hout hdone := h.vmmFree hout hdone

/-- A node with room for `k` times 504 sections. -/
structure Sized (x : HeapBitmapNode) (k : ℕ) : Prop where
  pos : 1 ≤ k
  bits : x.bitmapSize.toNat = 504 * k
  total : x.totalSize.toNat = 4095 * k
  small : 504 * k < 2 ^ 35

theorem Sized.congr {x y : HeapBitmapNode} {k : ℕ} (h : Sized x k)
    (hb : y.bitmapSize = x.bitmapSize) (ht : y.totalSize = x.totalSize) : Sized y k :=
  ⟨h.pos,by rw [hb,h.bits],by rw [ht,h.total],h.small⟩

/-- The number of pages of a node of `k` times 504 sections. -/
def pagesFor (k : ℕ) : ℕ := (4095 * k + 4095) / 4096

/-- A row of sections of a node. -/
structure HeapBlock where
  node : U64
  range : Block
  deriving DecidableEq

namespace Vmalloc
variable {E : Type} {calls : VmmCalls E}

/-- The pointer to the payload of a block. -/
def pointer (s : Vmalloc E) (b : HeapBlock) : U64 :=
  s.dataStart b.node + BitVec.ofNat 64 b.range.start * 8#64 + 8#64

theorem toNat_bitmapBytes {x : HeapBitmapNode} {k : ℕ} (h : Sized x k) :
    (ceilU64Div x.bitmapSize 8#64).toNat = 63 * k := by
  rw [toNat_ceilU64Div (by decide),h.bits,show (8#64).toNat = 8 from rfl]
  omega

theorem toNat_pages {x : HeapBitmapNode} {k : ℕ} (h : Sized x k) :
    (ceilU64Div x.totalSize pageSize).toNat = pagesFor k := by
  rw [toNat_ceilU64Div (by decide),h.total,show pageSize.toNat = 4096 from rfl,pagesFor]

/-- The list of the nodes, each of which owns its pages. -/
structure Nodes (sup : BlockSupply calls) (held : Multiset (U64 × U64)) (s : Vmalloc E)
    (l : List U64) : Prop where
  supply : sup.Held s.env held
  linked : Linked 0#64 s.next s.heapHead l
  tail : l.getLast? = some s.heapTail
  sized : ∀ n ∈ l, ∃ k, Sized (s.node n) k
  owned : ∀ n ∈ l, (n,ceilU64Div (s.node n).totalSize pageSize) ∈ held

section Nodes
variable {sup : BlockSupply calls} {held : Multiset (U64 × U64)} {s : Vmalloc E} {l : List U64}
  {n m : U64} {k : ℕ}

theorem Nodes.bounds (h : Nodes sup held s l) (hn : n ∈ l) (hk : Sized (s.node n) k) :
    4096 ≤ n.toNat ∧ n.toNat % 4096 = 0 ∧ n.toNat + 4095 * k ≤ 0xFFFFFFFF80000000 := by
  obtain ⟨hlo,hal,hhi⟩ := sup.bounds h.supply (h.owned n hn)
  simp only at hlo hal hhi
  rw [toNat_pages hk,pagesFor] at hhi
  exact ⟨hlo,hal,by omega⟩

theorem Nodes.toNat_dataStart (h : Nodes sup held s l) (hn : n ∈ l) (hk : Sized (s.node n) k) :
    (s.dataStart n).toNat = n.toNat + 24 + 63 * k := by
  obtain ⟨-,-,hhi⟩ := h.bounds hn hk
  have hsmall := hk.small
  rw [dataStart,BitVec.toNat_add,BitVec.toNat_add,toNat_bitmapBytes hk,BitVec.toNat_ofNat]
  omega

/-- The sections of a node end before those of the next node begin. -/
theorem Nodes.apart {j : ℕ} (h : Nodes sup held s l) (hn : n ∈ l) (hm : m ∈ l) (hne : n ≠ m)
    (hk : Sized (s.node n) k) (hj : Sized (s.node m) j) :
    n.toNat + 4095 * k ≤ m.toNat ∨ m.toNat + 4095 * j ≤ n.toNat := by
  have hmem : (m,ceilU64Div (s.node m).totalSize pageSize) ∈
      held.erase (n,ceilU64Div (s.node n).totalSize pageSize) :=
    (Multiset.mem_erase_of_ne (fun he => hne (Prod.ext_iff.mp he).1.symm)).mpr (h.owned m hm)
  have hap := sup.apart h.supply (h.owned n hn) hmem
  simp only [Block.Apart,Vmm.outBlock] at hap
  rw [toNat_pages hk,toNat_pages hj,pagesFor,pagesFor] at hap
  omega

end Nodes

end Vmalloc

end Lios

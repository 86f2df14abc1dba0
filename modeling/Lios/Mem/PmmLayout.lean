import Lios.Lib.Stride
import Lios.Mem.PmmInit

/-! # The layout of nodes and frames

What the initialisation is for, without its cursors: the first blocks are cut into
nodes until there are enough of them, and every page that begins in the rest is a
frame. The rest begins at the last node. As long as the nodes do not overlap and lie
in the memory that is mapped at `KERNEL_OFFSET`, the calls of `pmm_add_block` build
the list of these nodes and give them these frames.
-/
namespace Lios

/-- The first page boundary from `a` on. -/
def pageUp (a : ℕ) : ℕ := (a + 4095) / 4096 * 4096

theorem toNat_and_pageMask (x : U64) :
    (x &&& ~~~(pageSize - 1#64)).toNat = x.toNat / 4096 * 4096 := by
  have hshift : x &&& ~~~(pageSize - 1#64) = (x >>> 12) <<< 12 := by
    refine BitVec.eq_of_getLsbD_eq fun i hi => ?_
    have hmask : ∀ i < 64, (~~~(pageSize - 1#64)).getLsbD i = !decide (i < 12) := by decide
    rw [BitVec.getLsbD_and,hmask i hi,BitVec.getLsbD_shiftLeft,BitVec.getLsbD_ushiftRight]
    by_cases h12 : i < 12
    · simp [h12]
    · simp [h12,hi,Nat.add_sub_of_le (not_lt.mp h12)]
  rw [hshift,BitVec.toNat_shiftLeft,BitVec.toNat_ushiftRight,Nat.shiftLeft_eq,
    Nat.shiftRight_eq_div_pow]
  omega

theorem toNat_pageUp {a : U64} (h : a.toNat + 4096 ≤ 2 ^ 64) :
    ((a + pageSize - 1#64) &&& ~~~(pageSize - 1#64)).toNat = pageUp a.toNat := by
  rw [toNat_and_pageMask,pageUp,BitVec.toNat_sub,BitVec.toNat_add,
    show pageSize.toNat = 4096 from rfl,show (1#64).toNat = 1 from rfl]
  omega

/-- The bounds of blocks as numbers. -/
def spans (bs : List (U64 × U64)) : List (ℕ × ℕ) := bs.map fun b => (b.1.toNat,b.2.toNat)

/-- Two spans have a common byte. -/
def Meet (b c : ℕ × ℕ) : Prop := ∃ x, (b.1 ≤ x ∧ x < b.2) ∧ c.1 ≤ x ∧ x < c.2

/-- The `w` bytes from `p` on lie inside one of the spans. -/
def Inside (bs : List (ℕ × ℕ)) (p w : ℕ) : Prop := ∃ b ∈ bs, b.1 ≤ p ∧ p + w ≤ b.2

structure Layout where
  nodes : List ℕ
  frames : List ℕ
  needed : ℕ

namespace Layout

/-- The layout with one more block. -/
def add (L : Layout) (b : ℕ × ℕ) : Layout :=
  if L.needed = 0 then { L with frames := L.frames ++ steps (pageUp b.1) b.2 4096 }
  else if (steps b.1 b.2 16).length < L.needed then
    ⟨L.nodes ++ steps b.1 b.2 16,L.frames,L.needed - (steps b.1 b.2 16).length⟩
  else
    ⟨L.nodes ++ (steps b.1 b.2 16).take L.needed,
      L.frames ++ steps (pageUp (b.1 + 16 * (L.needed - 1))) b.2 4096,0⟩

def addAll (L : Layout) (bs : List (ℕ × ℕ)) : Layout := bs.foldl add L

theorem nodes_add (L : Layout) (b : ℕ × ℕ) :
    (L.add b).nodes = L.nodes ++ (steps b.1 b.2 16).take L.needed := by
  unfold add
  split
  · rename_i h
    rw [h,List.take_zero,List.append_nil]
  · split
    · rename_i h
      rw [List.take_of_length_le h.le]
    · rfl

theorem nodes_prefix_addAll (L : Layout) (bs : List (ℕ × ℕ)) :
    L.nodes <+: (L.addAll bs).nodes := by
  induction bs generalizing L with
  | nil => exact List.prefix_rfl
  | cons b bs ih =>
    refine List.IsPrefix.trans ?_ (ih (L.add b))
    rw [nodes_add]
    exact List.prefix_append _ _

end Layout

namespace PmmInit

/-- The pointer to the node at the address `p`. -/
def pointer (p : ℕ) : U64 := BitVec.ofNat 64 p + kernelOffset

/-- Nodes without common bytes in the mapped memory. -/
structure Spaced (ps : List ℕ) : Prop where
  apart : ps.Pairwise fun p q => p + 16 ≤ q ∨ q + 16 ≤ p
  mapped : ∀ p ∈ ps, p + 16 ≤ 2 ^ 31

section Spaced
variable {ps qs : List ℕ} {p q : ℕ}

theorem Spaced.of_prefix (h : Spaced qs) (hp : ps <+: qs) : Spaced ps :=
  ⟨h.apart.sublist hp.sublist,fun p hm => h.mapped p (hp.subset hm)⟩

theorem toNat_pointer (h : p + 16 ≤ 2 ^ 31) : (pointer p).toNat = p + 0xFFFFFFFF80000000 := by
  rw [pointer,BitVec.toNat_add,BitVec.toNat_ofNat,
    show kernelOffset.toNat = 0xFFFFFFFF80000000 from rfl]
  omega

theorem pointer_toNat (p : U64) : pointer p.toNat = p + kernelOffset := by
  rw [pointer,BitVec.ofNat_toNat,BitVec.setWidth_eq]

theorem pointer_ne_zero (h : p + 16 ≤ 2 ^ 31) : pointer p ≠ 0#64 := by
  intro hp
  have hz := toNat_pointer h
  rw [hp,BitVec.toNat_ofNat] at hz
  omega

theorem Spaced.beside (h : Spaced ps) (hp : p ∈ ps) (hq : q ∈ ps) (hne : p ≠ q) :
    Beside (pointer p) (pointer q) := by
  have hsymm : Std.Symm fun p q : ℕ => p + 16 ≤ q ∨ q + 16 ≤ p := ⟨fun _ _ => Or.symm⟩
  have hap := h.apart.forall hp hq hne
  have hpm := h.mapped p hp
  have hqm := h.mapped q hq
  have hpn := toNat_pointer hpm
  have hqn := toNat_pointer hqm
  exact ⟨by omega,by omega,by omega⟩

theorem Spaced.pointer_bound (h : Spaced ps) (hp : p ∈ ps) : (pointer p).toNat + 16 ≤ 2 ^ 64 := by
  have hm := h.mapped p hp
  rw [toNat_pointer hm]
  omega

theorem Spaced.nodup (h : Spaced ps) : ps.Nodup := by
  refine h.apart.imp fun hap => ?_
  rintro rfl
  omega

end Spaced

end PmmInit

end Lios

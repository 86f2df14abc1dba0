import Mathlib.Algebra.Order.Group.Multiset
import Mathlib.Data.Multiset.Count
import Mathlib.Tactic.SplitIfs

/-! # Tilings of an interval by blocks

A multiset of blocks tiles an interval when every point of the interval lies in
one block of the multiset and no other point lies in any. Moving a block from one
owner to another does not change the multiset; cutting a block and joining two
neighbours keep the tiling. Disjointness and bounds are consequences.
-/
namespace Lios

structure Block where
  start : ℕ
  size : ℕ
  deriving DecidableEq

namespace Block

def Has (b : Block) (x : ℕ) : Prop := b.start ≤ x ∧ x < b.start + b.size

instance (b : Block) (x : ℕ) : Decidable (b.Has x) :=
  inferInstanceAs (Decidable (b.start ≤ x ∧ x < b.start + b.size))

/-- The two blocks have no point in common. -/
def Apart (b c : Block) : Prop := b.start + b.size ≤ c.start ∨ c.start + c.size ≤ b.start

/-- The blocks touch without overlapping. -/
def Adjacent (b c : Block) : Prop := b.start + b.size = c.start ∨ c.start + c.size = b.start

theorem Apart.symm {b c : Block} (h : b.Apart c) : c.Apart b := Or.symm h

theorem apart_of_disjoint {b c : Block} (hb : 1 ≤ b.size) (hc : 1 ≤ c.size)
    (h : ∀ x, b.Has x → ¬ c.Has x) : b.Apart c := by
  have hstart := h b.start ⟨le_rfl,by omega⟩
  have hstart' : ¬ b.Has c.start := fun hx => h c.start hx ⟨le_rfl,by omega⟩
  simp only [Has] at hstart hstart'
  unfold Apart
  omega

theorem Adjacent.symm {b c : Block} (h : b.Adjacent c) : c.Adjacent b := (Or.symm h).imp id id

end Block

def Tiles (lo hi : ℕ) (bs : Multiset Block) : Prop :=
  ∀ x, bs.countP (fun b => b.Has x) = if lo ≤ x ∧ x < hi then 1 else 0

namespace Tiles
variable {lo hi : ℕ} {bs : Multiset Block} {b c : Block}

/-- Cutting a block, or joining two neighbours. -/
theorem split_iff {a m n : ℕ} :
    Tiles lo hi (⟨a,m⟩ ::ₘ ⟨a + m,n⟩ ::ₘ bs) ↔ Tiles lo hi (⟨a,m + n⟩ ::ₘ bs) := by
  have hcount (x : ℕ) :
      (if (Block.mk (a + m) n).Has x then 1 else 0) + (if (Block.mk a m).Has x then 1 else 0) =
        if (Block.mk a (m + n)).Has x then 1 else 0 := by
    have hor : (Block.mk a (m + n)).Has x ↔ (Block.mk a m).Has x ∨ (Block.mk (a + m) n).Has x := by
      simp only [Block.Has]
      omega
    have hnot : (Block.mk a m).Has x → ¬ (Block.mk (a + m) n).Has x := by
      simp only [Block.Has]
      omega
    by_cases hl : (Block.mk a m).Has x
    · simp [hor,hl,hnot hl]
    · simp [hor,hl]
  simp only [Tiles,Multiset.countP_cons,add_assoc,hcount]

theorem bounds (h : Tiles lo hi bs) (hb : b ∈ bs) (hpos : 0 < b.size) :
    lo ≤ b.start ∧ b.start + b.size ≤ hi := by
  have hin (x : ℕ) (hx : b.Has x) : lo ≤ x ∧ x < hi := by
    by_contra hout
    have hc := h x
    rw [if_neg hout] at hc
    exact Multiset.countP_eq_zero.mp hc b hb hx
  have hfirst := hin b.start ⟨le_rfl,by omega⟩
  have hlast := hin (b.start + b.size - 1) ⟨by omega,by omega⟩
  omega

theorem apart (h : Tiles lo hi (b ::ₘ c ::ₘ bs)) (hb : 0 < b.size) (hc : 0 < c.size) :
    b.Apart c := by
  by_contra hn
  have hboth : b.Has (max b.start c.start) ∧ c.Has (max b.start c.start) := by
    simp only [Block.Apart,not_or,not_le] at hn
    simp only [Block.Has]
    omega
  have hcount := h (max b.start c.start)
  rw [Multiset.countP_cons,Multiset.countP_cons,if_pos hboth.1,if_pos hboth.2] at hcount
  split at hcount <;> omega

theorem single (h : lo ≤ hi) : Tiles lo hi {⟨lo,hi - lo⟩} := by
  intro x
  rw [← Multiset.cons_zero,Multiset.countP_cons,Multiset.countP_zero,zero_add]
  simp only [Block.Has]
  congr 1
  rw [Nat.add_sub_cancel' h]

end Tiles

end Lios

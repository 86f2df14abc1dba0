import Mathlib.Data.BitVec
import Lios.Lib.DoublyLinked

/-! # Nodes laid out on a page

A page of nodes holds nodes of `d` bytes one behind the other. Cells of one page
are distinct, no cell is null, and cells of different pages are different.
-/
namespace Lios

/-- The address of the `i`-th node of `d` bytes on the page `p`. -/
def cell (d : ℕ) (p : BitVec 64) (i : ℕ) : BitVec 64 := p + BitVec.ofNat 64 (d * i)

/-- A page-aligned address that is not null. -/
def IsPage (p : BitVec 64) : Prop := p.toNat % 4096 = 0 ∧ p ≠ 0#64

def OnPage (p q : BitVec 64) : Prop := (q - p).toNat < 4096

/-- The nodes of a page, in order. -/
def cells (d : ℕ) (p : BitVec 64) (k : ℕ) : List (BitVec 64) := (List.range k).map (cell d p)

variable {d i j k : ℕ} {p q r : BitVec 64}

@[simp] theorem cell_zero : cell d p 0 = p := by simp [cell]

theorem cell_succ : cell d p (i + 1) = cell d p i + BitVec.ofNat 64 d := by
  rw [cell,cell,add_assoc,← BitVec.ofNat_add]
  rfl

theorem cell_sub_toNat (h : d * i < 4096) : (cell d p i - p).toNat = d * i := by
  rw [cell,add_sub_cancel_left,BitVec.toNat_ofNat,Nat.mod_eq_of_lt (by omega)]

theorem onPage_cell (h : d * i < 4096) : OnPage p (cell d p i) := by
  rw [OnPage,cell_sub_toNat h]
  exact h

theorem cell_inj (hd : 0 < d) (hi : d * i < 4096) (hj : d * j < 4096)
    (h : cell d p i = cell d p j) : i = j := by
  have hij := cell_sub_toNat (p := p) hi
  rw [h,cell_sub_toNat hj] at hij
  exact (Nat.eq_of_mul_eq_mul_left hd hij).symm

theorem IsPage.toNat_add (h : IsPage p) (ho : OnPage p q) : q.toNat = p.toNat + (q - p).toNat := by
  have hq : q = p + (q - p) := by rw [add_sub_cancel]
  have hlt : p.toNat + (q - p).toNat < 2 ^ 64 := by
    have hp := p.isLt
    have hd : (q - p).toNat < 4096 := ho
    have hm := h.1
    omega
  rw [← Nat.mod_eq_of_lt hlt,← BitVec.toNat_add,← hq]

theorem IsPage.ne_zero_of_onPage (h : IsPage p) (ho : OnPage p q) : q ≠ 0#64 := by
  rintro rfl
  have hq := h.toNat_add ho
  apply h.2
  apply BitVec.eq_of_toNat_eq
  rw [BitVec.toNat_ofNat] at hq ⊢
  omega

/-- A node lies on one page only. -/
theorem IsPage.eq_of_onPage (hp : IsPage p) (hr : IsPage r) (hpq : OnPage p q)
    (hrq : OnPage r q) : p = r := by
  have h₁ := hp.toNat_add hpq
  have h₂ := hr.toNat_add hrq
  have hm₁ := hp.1
  have hm₂ := hr.1
  have hd₁ : (q - p).toNat < 4096 := hpq
  have hd₂ : (q - r).toNat < 4096 := hrq
  apply BitVec.eq_of_toNat_eq
  omega

theorem mem_cells : q ∈ cells d p k ↔ ∃ i < k, cell d p i = q := by simp [cells]

theorem cells_onPage (h : d * k ≤ 4096) (hd : 0 < d) (hq : q ∈ cells d p k) : OnPage p q := by
  obtain ⟨i,hi,rfl⟩ := mem_cells.mp hq
  exact onPage_cell (lt_of_lt_of_le (Nat.mul_lt_mul_of_pos_left hi hd) h)

/-- Nodes that point to their right neighbour are a null-terminated list. -/
theorem linked_cells {next : BitVec 64 → BitVec 64} (hp : IsPage p) (hd : 0 < d)
    (h : d * k ≤ 4096) (hnext : ∀ i < k, next (cell d p i) = if i + 1 = k then 0#64
      else cell d p (i + 1)) (hk : i < k) :
    Linked 0#64 next (cell d p i) ((List.range' i (k - i)).map (cell d p)) := by
  have hne : cell d p i ≠ 0#64 :=
    hp.ne_zero_of_onPage (onPage_cell (lt_of_lt_of_le (Nat.mul_lt_mul_of_pos_left hk hd) h))
  obtain ⟨m,hm⟩ : ∃ m, k - i = m + 1 := ⟨k - i - 1,by omega⟩
  induction m generalizing i with
  | zero =>
    rw [hm,List.range'_one,List.map_singleton,linked_cons,hnext i hk,if_pos (by omega)]
    exact ⟨rfl,hne,linked_nil.mpr rfl⟩
  | succ m ih =>
    have hk' : i + 1 < k := by omega
    have hne' := hp.ne_zero_of_onPage (onPage_cell (p := p)
      (lt_of_lt_of_le (Nat.mul_lt_mul_of_pos_left hk' hd) h))
    rw [hm,List.range'_succ,List.map_cons,linked_cons,hnext i hk,if_neg (by omega)]
    have hrest := ih hk' hne' (by omega)
    rw [show k - (i + 1) = m + 1 by omega] at hrest
    exact ⟨rfl,hne,hrest⟩

theorem linked_page {next : BitVec 64 → BitVec 64} (hp : IsPage p) (hd : 0 < d)
    (h : d * k ≤ 4096) (hk : 0 < k) (hnext : ∀ i < k, next (cell d p i) =
      if i + 1 = k then 0#64 else cell d p (i + 1)) : Linked 0#64 next p (cells d p k) := by
  have hl := linked_cells hp hd h hnext hk
  rwa [cell_zero,Nat.sub_zero,← List.range_eq_range'] at hl

theorem cells_succ : cells d p (k + 1) = cells d p k ++ [cell d p k] := by
  rw [cells,List.range_succ,List.map_append,List.map_singleton,cells]

theorem cells_cons : cells d p (k + 1) = p :: (List.range' 1 k).map (cell d p) := by
  rw [cells,List.range_eq_range',List.range'_succ,List.map_cons,cell_zero]

/-- Nodes that point back to their left neighbour. -/
theorem backed_cells {prev : BitVec 64 → BitVec 64} (h0 : 0 < k → prev (cell d p i) = q)
    (h : ∀ j, i < j → j < i + k → prev (cell d p j) = cell d p (j - 1)) :
    Backed prev q ((List.range' i k).map (cell d p)) := by
  induction k generalizing i q with
  | zero => trivial
  | succ k ih =>
    rw [List.range'_succ,List.map_cons]
    refine ⟨h0 (by omega),ih (fun hk => ?_) (fun j hj hjk => h j (by omega) (by omega))⟩
    exact h (i + 1) (by omega) (by omega)

end Lios

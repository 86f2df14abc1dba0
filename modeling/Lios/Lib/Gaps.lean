import Mathlib.Data.Set.Basic
import Lios.Lib.Tiling

/-! # Blocks with gaps between them

A family of blocks in which no two overlap or touch. The points of such a family determine its
blocks: they are the longest rows of points. A new block keeps the family in this shape if the
blocks that it touches are joined with it.
-/
namespace Lios
namespace Block
variable {b c d : Block}

/-- The blocks neither overlap nor touch. -/
def Gap (b c : Block) : Prop := b.Apart c ∧ ¬ b.Adjacent c

theorem gap_iff : b.Gap c ↔ b.start + b.size < c.start ∨ c.start + c.size < b.start := by
  unfold Gap Apart Adjacent
  omega

theorem Gap.symm (h : b.Gap c) : c.Gap b := ⟨h.1.symm,fun ha => h.2 ha.symm⟩

/-- Two neighbours as one block. -/
def join (b c : Block) : Block := ⟨min b.start c.start,b.size + c.size⟩

theorem join_has (h : b.Adjacent c) (x : ℕ) : (b.join c).Has x ↔ b.Has x ∨ c.Has x := by
  unfold Adjacent at h
  simp only [Has,join]
  omega

theorem gap_join (h : b.Adjacent c) (hb : b.Gap d) (hc : c.Gap d) : (b.join c).Gap d := by
  rw [gap_iff] at hb hc ⊢
  unfold Adjacent at h
  simp only [join]
  omega

/-- A block that has a gap to one of two neighbours and is apart from the other is apart from
both. -/
theorem apart_join (h : b.Adjacent c) (hb : b.Gap d) (hc : c.Apart d) : (b.join c).Apart d := by
  rw [gap_iff] at hb
  unfold Adjacent at h
  unfold Apart at hc ⊢
  simp only [join]
  omega

/-- Only one block can lie next to two neighbours on the side of the second. -/
theorem not_gap_of_adjacent_join {e : Block} (h : b.Adjacent c) (hd : 0 < d.size)
    (he : 0 < e.size) (hbd : b.Gap d) (hbe : b.Gap e) (hd' : (b.join c).Adjacent d)
    (he' : (b.join c).Adjacent e) : ¬ d.Gap e := by
  rw [gap_iff] at hbd hbe ⊢
  unfold Adjacent at h hd' he'
  simp only [join] at hd' he'
  omega

end Block

variable {ι : Type} {N : Set ι} {b : ι → Block} {c : Block} {i j : ι} {x lo hi : ℕ}

/-- The points of the blocks with an index in `N`. -/
def points (N : Set ι) (b : ι → Block) : Set ℕ := {x | ∃ i ∈ N, (b i).Has x}

/-- The blocks with an index in `N` that are not empty have gaps between them. -/
def Gapped (N : Set ι) (b : ι → Block) : Prop :=
  ∀ i ∈ N, ∀ j ∈ N, i ≠ j → 0 < (b i).size → 0 < (b j).size → (b i).Gap (b j)

theorem Gapped.mono {M : Set ι} (h : Gapped N b) (hM : M ⊆ N) : Gapped M b :=
  fun i hi j hj => h i (hM hi) j (hM hj)

theorem Gapped.congr {b' : ι → Block} (h : Gapped N b) (he : ∀ i ∈ N, b' i = b i) :
    Gapped N b' := by
  intro i hi j hj
  rw [he i hi,he j hj]
  exact h i hi j hj

/-- One more block. -/
theorem Gapped.insert (h : Gapped {j | j ∈ N ∧ j ≠ i} b)
    (hc : ∀ j ∈ N, j ≠ i → 0 < (b i).size → 0 < (b j).size → (b i).Gap (b j)) : Gapped N b := by
  intro k hk j hj hkj hbk hbj
  by_cases hki : k = i
  · subst hki
    exact hc j hj (Ne.symm hkj) hbk hbj
  · by_cases hji : j = i
    · subst hji
      exact (hc k hk hki hbj hbk).symm
    · exact h k ⟨hk,hki⟩ j ⟨hj,hji⟩ hkj hbk hbj

@[simp] theorem not_has_empty : ¬ (⟨0,0⟩ : Block).Has x := fun h => absurd h.2 (Nat.not_lt_zero x)

/-- A block of the family is put in the place of another one, or made longer. -/
theorem points_add {b' : ι → Block} (hi : i ∈ N) (he : ∀ k ∈ N, k ≠ i → b' k = b k)
    (hb : ∀ x, (b' i).Has x ↔ (b i).Has x ∨ c.Has x) :
    points N b' = points N b ∪ {x | c.Has x} := by
  ext x
  constructor
  · rintro ⟨k,hk,hx⟩
    by_cases hki : k = i
    · subst hki
      exact ((hb x).mp hx).imp_left fun hx => ⟨k,hk,hx⟩
    · exact .inl ⟨k,hk,he k hk hki ▸ hx⟩
  · rintro (⟨k,hk,hx⟩ | hx)
    · by_cases hki : k = i
      · subst hki
        exact ⟨k,hk,(hb x).mpr (.inl hx)⟩
      · exact ⟨k,hk,(he k hk hki).symm ▸ hx⟩
    · exact ⟨i,hi,(hb x).mpr (.inr hx)⟩

/-- A block is emptied, and another one takes its points. -/
theorem points_move {b' : ι → Block} (hi : i ∈ N) (hj : j ∈ N) (hb : b' i = ⟨0,0⟩)
    (hb' : ∀ x, (b' j).Has x ↔ (b j).Has x ∨ (b i).Has x)
    (he : ∀ k ∈ N, k ≠ i → k ≠ j → b' k = b k) : points N b' = points N b := by
  ext x
  constructor
  · rintro ⟨k,hk,hx⟩
    by_cases hki : k = i
    · rw [hki,hb] at hx
      exact absurd hx not_has_empty
    by_cases hkj : k = j
    · rcases (hb' x).mp (hkj ▸ hx) with hx | hx
      · exact ⟨j,hj,hx⟩
      · exact ⟨i,hi,hx⟩
    · exact ⟨k,hk,he k hk hki hkj ▸ hx⟩
  · rintro ⟨k,hk,hx⟩
    by_cases hki : k = i
    · exact ⟨j,hj,(hb' x).mpr (.inr (hki ▸ hx))⟩
    by_cases hkj : k = j
    · exact ⟨j,hj,(hb' x).mpr (.inl (hkj ▸ hx))⟩
    · exact ⟨k,hk,(he k hk hki hkj).symm ▸ hx⟩

/-- A family with gaps apart from one block, which is apart from the others and touches at most
one of them. -/
structure Touching (N : Set ι) (b : ι → Block) (i : ι) : Prop where
  rest : Gapped {j | j ∈ N ∧ j ≠ i} b
  apart : ∀ j ∈ N, j ≠ i → 0 < (b j).size → (b i).Apart (b j)
  unique : ∀ j ∈ N, ∀ k ∈ N, j ≠ i → k ≠ i → 0 < (b j).size → 0 < (b k).size →
    (b i).Adjacent (b j) → (b i).Adjacent (b k) → j = k

theorem Touching.gapped (h : Touching N b i)
    (hno : ∀ j ∈ N, j ≠ i → 0 < (b j).size → ¬ (b i).Adjacent (b j)) : Gapped N b :=
  Gapped.insert h.rest fun j hj hji _ hpos => ⟨h.apart j hj hji hpos,hno j hj hji hpos⟩

section Update
variable [DecidableEq ι]

/-- A block with gaps to the others is put in the place of another one. -/
theorem Gapped.put (h : Gapped N b)
    (hc : ∀ j ∈ N, j ≠ i → 0 < (b j).size → c.Gap (b j)) : Gapped N (Function.update b i c) := by
  refine Gapped.insert (i := i) ?_ fun j hj hji _ hpos => ?_
  · exact Gapped.congr (h.mono fun j hj => hj.1) fun j hj => Function.update_of_ne hj.2 _ _
  · rw [Function.update_of_ne hji] at hpos
    rw [Function.update_self,Function.update_of_ne hji]
    exact hc j hj hji hpos

theorem points_put (hi : i ∈ N) (hb : b i = ⟨0,0⟩) :
    points N (Function.update b i c) = points N b ∪ {x | c.Has x} := by
  refine points_add hi (fun k _ hk => Function.update_of_ne hk _ _) fun x => ?_
  rw [Function.update_self,hb]
  exact (or_iff_right not_has_empty).symm

/-- A block takes over a new one next to it. -/
theorem Gapped.extend (h : Gapped N b) (hi : i ∈ N) (hpos : 0 < (b i).size)
    (hadj : (b i).Adjacent c) (hap : ∀ j ∈ N, 0 < (b j).size → (b j).Apart c) :
    Touching N (Function.update b i ((b i).join c)) i := by
  have hgap (j : ι) (hj : j ∈ N) (hji : j ≠ i) (hjpos : 0 < (b j).size) : (b i).Gap (b j) :=
    h i hi j hj (Ne.symm hji) hpos hjpos
  refine ⟨?_,fun j hj hji hjpos => ?_,fun j hj k hk hji hki hjpos hkpos hja hka => ?_⟩
  · exact Gapped.congr (h.mono fun j hj => hj.1) fun j hj => Function.update_of_ne hj.2 _ _
  · rw [Function.update_of_ne hji] at hjpos
    rw [Function.update_self,Function.update_of_ne hji]
    exact Block.apart_join hadj (hgap j hj hji hjpos) (hap j hj hjpos).symm
  · rw [Function.update_of_ne hji] at hjpos hja
    rw [Function.update_of_ne hki] at hkpos hka
    rw [Function.update_self] at hja hka
    by_contra hjk
    exact Block.not_gap_of_adjacent_join hadj hjpos hkpos (hgap j hj hji hjpos)
      (hgap k hk hki hkpos) hja hka (h j hj k hk hjk hjpos hkpos)

theorem points_extend (hi : i ∈ N) (hadj : (b i).Adjacent c) :
    points N (Function.update b i ((b i).join c)) = points N b ∪ {x | c.Has x} := by
  refine points_add hi (fun k _ hk => Function.update_of_ne hk _ _) fun x => ?_
  rw [Function.update_self,Block.join_has hadj]

/-- The block that touches another one is taken over by it. -/
theorem Touching.takeOver (h : Touching N b i) (hj : j ∈ N) (hji : j ≠ i) (hpos : 0 < (b j).size)
    (hadj : (b j).Adjacent (b i)) :
    Gapped N (Function.update (Function.update b j ((b j).join (b i))) i ⟨0,0⟩) := by
  have hother (k : ι) (hki : k ≠ i) (hkj : k ≠ j) :
      Function.update (Function.update b j ((b j).join (b i))) i ⟨0,0⟩ k = b k := by
    rw [Function.update_of_ne hki,Function.update_of_ne hkj]
  refine Gapped.insert (i := i) (Gapped.insert (i := j) ?_ ?_) fun k _ _ h0 => ?_
  · exact Gapped.congr (h.rest.mono fun k hk => hk.1) fun k hk => hother k hk.1.2 hk.2
  · intro k hk hkj _ hkpos
    rw [hother k hk.2 hkj] at hkpos ⊢
    rw [Function.update_of_ne hji,Function.update_self]
    refine Block.gap_join hadj (h.rest j ⟨hj,hji⟩ k hk (Ne.symm hkj) hpos hkpos) ?_
    refine ⟨h.apart k hk.1 hk.2 hkpos,fun hka => hkj ?_⟩
    exact h.unique k hk.1 j hj hk.2 hji hkpos hpos hka hadj.symm
  · rw [Function.update_self] at h0
    exact absurd h0 (lt_irrefl 0)

theorem points_takeOver (hi : i ∈ N) (hj : j ∈ N) (hji : j ≠ i) (hadj : (b j).Adjacent (b i)) :
    points N (Function.update (Function.update b j ((b j).join (b i))) i ⟨0,0⟩) = points N b := by
  refine points_move hi hj (Function.update_self _ _ _) (fun x => ?_) fun k _ hki hkj => ?_
  · rw [Function.update_of_ne hji,Function.update_self,Block.join_has hadj]
  · rw [Function.update_of_ne hki,Function.update_of_ne hkj]

end Update

/-- A row of points lies in one block. -/
theorem Gapped.exists_block (h : Gapped N b) (hlt : lo < hi)
    (hrow : ∀ x, lo ≤ x → x < hi → x ∈ points N b) :
    ∃ i ∈ N, (b i).start ≤ lo ∧ hi ≤ (b i).start + (b i).size := by
  induction hi, hlt using Nat.le_induction with
  | base =>
    obtain ⟨i,hi,hx⟩ := hrow lo le_rfl (Nat.lt_succ_self lo)
    exact ⟨i,hi,hx.1,hx.2⟩
  | succ hi hlt ih =>
    obtain ⟨i,hi',hlo,hhi⟩ := ih fun x hx hx' => hrow x hx (by omega)
    obtain ⟨j,hj,hx⟩ := hrow hi (by omega) (Nat.lt_succ_self hi)
    have hx₁ : (b j).start ≤ hi := hx.1
    have hx₂ : hi < (b j).start + (b j).size := hx.2
    by_cases hij : i = j
    · subst hij
      exact ⟨i,hi',hlo,hx₂⟩
    · -- the next point is in another block, which then touches this one
      have hgap := Block.gap_iff.mp (h i hi' j hj hij (by omega) (by omega))
      omega

/-- A longest row of points is a block. -/
theorem Gapped.exists_eq (h : Gapped N b) (hlt : lo < hi)
    (hrow : ∀ x, lo ≤ x → x < hi → x ∈ points N b) (hbefore : ∀ x, x + 1 = lo → x ∉ points N b)
    (hafter : hi ∉ points N b) : ∃ i ∈ N, b i = ⟨lo,hi - lo⟩ := by
  obtain ⟨i,hi',hlo,hhi⟩ := h.exists_block hlt hrow
  have hstart : (b i).start = lo := by
    by_contra hne
    exact hbefore (lo - 1) (by omega) ⟨i,hi',by unfold Block.Has; omega⟩
  have hend : (b i).start + (b i).size = hi := by
    by_contra hne
    exact hafter ⟨i,hi',by unfold Block.Has; omega⟩
  refine ⟨i,hi',?_⟩
  cases hb : b i with
  | mk start size =>
    rw [hb] at hstart hend
    rw [Block.mk.injEq]
    simp only at hstart hend
    omega

/-- The point before a block and the point behind it are in no block. -/
theorem Gapped.not_mem_points (h : Gapped N b) (hi : i ∈ N) (hpos : 0 < (b i).size)
    (hx : x + 1 = (b i).start ∨ x = (b i).start + (b i).size) : x ∉ points N b := by
  rintro ⟨k,hk,hkx⟩
  have hkx₁ : (b k).start ≤ x := hkx.1
  have hkx₂ : x < (b k).start + (b k).size := hkx.2
  by_cases hik : i = k
  · subst hik
    omega
  · have hgap := Block.gap_iff.mp (h i hi k hk hik hpos (by omega))
    omega

/-- In a family with the points of two blocks and of a block between them, all three are one
block. -/
theorem Gapped.exists_filled {κ : Type} {M : Set κ} {d : κ → Block} (hd : Gapped M d)
    (h : Gapped N b) (hpoints : points M d = points N b ∪ {x | c.Has x}) (hi : i ∈ N) (hj : j ∈ N)
    (hbi : 0 < (b i).size) (hbj : 0 < (b j).size) (hleft : (b i).start + (b i).size = c.start)
    (hright : c.start + c.size = (b j).start) :
    ∃ k ∈ M, d k = ⟨(b i).start,(b i).size + c.size + (b j).size⟩ := by
  have hend : (b i).size + c.size + (b j).size = (b j).start + (b j).size - (b i).start := by omega
  rw [hend]
  refine hd.exists_eq (by omega) (fun x hlo hhi => ?_) (fun x hx => ?_) ?_
  · rw [hpoints]
    by_cases hxi : x < (b i).start + (b i).size
    · exact .inl ⟨i,hi,hlo,hxi⟩
    by_cases hxc : x < c.start + c.size
    · exact .inr ⟨by omega,hxc⟩
    · exact .inl ⟨j,hj,by omega,hhi⟩
  · rw [hpoints]
    rintro (hxb | hxc)
    · exact h.not_mem_points hi hbi (.inl hx) hxb
    · have hle : c.start ≤ x := hxc.1
      omega
  · rw [hpoints]
    rintro (hxb | hxc)
    · exact h.not_mem_points hj hbj (.inr rfl) hxb
    · have hlt : (b j).start + (b j).size < c.start + c.size := hxc.2
      omega

end Lios

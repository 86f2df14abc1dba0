import Mathlib.Algebra.BigOperators.Group.Finset.Basic
import Lios.Lib.Tiling
import Lios.Mem.VmmPages

/-! # The blocks of the free nodes

All free nodes are considered here, whether the list still reaches them or not.
The blocks they hold and the blocks held by others tile the address range. Every
operation on blocks rewrites one node: it cuts a block, gives it away, takes one
over or joins two, and each of these keeps the tiling.
-/
namespace Lios.Vmm
variable {E : Type}

/-- All free nodes on the pages that were set up for them. -/
def nodesOn (pages : List U64) : Finset U64 :=
  pages.toFinset.biUnion fun p => (Finset.range 128).image (cell 32 p)

theorem mem_nodesOn {pages : List U64} {n : U64} :
    n ∈ nodesOn pages ↔ ∃ p ∈ pages, ∃ i < 128, cell 32 p i = n := by
  simp [nodesOn]

def nodes (s : Vmm E) : Finset U64 := nodesOn s.freePages

/-- The block of a node, if it is not empty. -/
def blockOf (start size : U64) : Multiset Block :=
  if size = 0#64 then 0 else {⟨start.toNat,size.toNat⟩}

def blocksOf (nodes : Finset U64) (start size : U64 → U64) : Multiset Block :=
  ∑ n ∈ nodes, blockOf (start n) (size n)

/-- A block of whole pages. -/
def Aligned (b : Block) : Prop := b.start % 4096 = 0 ∧ b.size % 4096 = 0 ∧ 0 < b.size

/-- The blocks of the nodes and the blocks `rest` tile the address range. -/
structure Blocks (nodes : Finset U64) (start size : U64 → U64) (rest : Multiset Block) :
    Prop where
  empty : ∀ n ∈ nodes, size n = 0#64 → start n = 0#64
  tiles : Tiles 0xFFFFF00000000000 0xFFFFFFFF80000000 (blocksOf nodes start size + rest)
  aligned : ∀ b ∈ blocksOf nodes start size + rest, Aligned b

section Blocks
variable {N : Finset U64} {start size : U64 → U64} {rest rest' : Multiset Block} {n m a z : U64}

theorem blockOf_of_ne (h : z ≠ 0#64) : blockOf a z = {⟨a.toNat,z.toNat⟩} := if_neg h

theorem blockOf_zero : blockOf a 0#64 = 0 := if_pos rfl

/-- The blocks of one node and of the others. -/
theorem blocksOf_split (hn : n ∈ N) : blocksOf N start size =
    blockOf (start n) (size n) + blocksOf (N.erase n) start size :=
  (Finset.add_sum_erase N (fun m => blockOf (start m) (size m)) hn).symm

theorem blocksOf_congr {start' size' : U64 → U64} (h : ∀ m ∈ N, start' m = start m ∧
    size' m = size m) : blocksOf N start' size' = blocksOf N start size :=
  Finset.sum_congr rfl (fun m hm => by rw [(h m hm).1,(h m hm).2])

theorem blocksOf_update (hn : n ∈ N) :
    blocksOf N (Function.update start n a) (Function.update size n z) =
      blockOf a z + blocksOf (N.erase n) start size := by
  rw [blocksOf_split hn,Function.update_self,Function.update_self]
  congr 1
  refine blocksOf_congr (fun m hm => ?_)
  have hne := Finset.ne_of_mem_erase hm
  exact ⟨Function.update_of_ne hne _ _,Function.update_of_ne hne _ _⟩

/-- Rewriting one node, with the other owners changing in step. -/
theorem Blocks.replace (h : Blocks N start size rest) (hn : n ∈ N) (he : z = 0#64 → a = 0#64)
    (ht : ∀ X, Tiles 0xFFFFF00000000000 0xFFFFFFFF80000000
        (blockOf (start n) (size n) + rest + X) →
      Tiles 0xFFFFF00000000000 0xFFFFFFFF80000000 (blockOf a z + rest' + X))
    (ha : ∀ b ∈ blockOf a z + rest', Aligned b) :
    Blocks N (Function.update start n a) (Function.update size n z) rest' := by
  have htiles := h.tiles
  have hal := h.aligned
  rw [blocksOf_split hn,add_right_comm] at htiles hal
  refine ⟨fun m hm hz => ?_,?_,?_⟩
  · by_cases hmn : m = n
    · subst hmn
      rw [Function.update_self] at hz ⊢
      exact he hz
    · rw [Function.update_of_ne hmn] at hz ⊢
      exact h.empty m hm hz
  · rw [blocksOf_update hn,add_right_comm]
    exact ht _ htiles
  · rw [blocksOf_update hn,add_right_comm]
    intro b hb
    rcases Multiset.mem_add.mp hb with hb | hb
    · exact ha b hb
    · exact hal b (Multiset.mem_add.mpr (Or.inr hb))

theorem mem_blocksOf (hn : n ∈ N) (hz : size n ≠ 0#64) :
    (⟨(start n).toNat,(size n).toNat⟩ : Block) ∈ blocksOf N start size := by
  rw [blocksOf_split hn,blockOf_of_ne hz]
  simp

theorem Blocks.bounds (h : Blocks N start size rest) {b : Block}
    (hb : b ∈ blocksOf N start size + rest) : 0xFFFFF00000000000 ≤ b.start ∧
      b.start + b.size ≤ 0xFFFFFFFF80000000 ∧ b.start % 4096 = 0 ∧ b.size % 4096 = 0 ∧
      0 < b.size := by
  obtain ⟨h₁,h₂,h₃⟩ := h.aligned b hb
  obtain ⟨hlo,hhi⟩ := h.tiles.bounds hb h₃
  exact ⟨hlo,hhi,h₁,h₂,h₃⟩

/-- Where the block of a node lies. -/
theorem Blocks.node (h : Blocks N start size rest) (hn : n ∈ N) (hz : size n ≠ 0#64) :
    0xFFFFF00000000000 ≤ (start n).toNat ∧
      (start n).toNat + (size n).toNat ≤ 0xFFFFFFFF80000000 ∧
      (start n).toNat % 4096 = 0 ∧ (size n).toNat % 4096 = 0 ∧ 0 < (size n).toNat :=
  h.bounds (b := ⟨(start n).toNat,(size n).toNat⟩)
    (Multiset.mem_add.mpr (Or.inl (mem_blocksOf hn hz)))

/-- The edges of a block are not null. -/
theorem Blocks.edge_ne_zero (h : Blocks N start size rest) (hn : n ∈ N) (hz : size n ≠ 0#64) :
    start n ≠ 0#64 ∧ start n + size n ≠ 0#64 := by
  obtain ⟨hlo,hhi,-⟩ := h.node hn hz
  have hend : (start n + size n).toNat = (start n).toNat + (size n).toNat := by
    rw [BitVec.toNat_add,Nat.mod_eq_of_lt (by omega)]
  refine ⟨fun h0 => ?_,fun h0 => ?_⟩
  · rw [h0] at hlo
    simp at hlo
  · rw [h0] at hend
    simp at hend
    omega

/-- Where the block of another owner lies. -/
theorem Blocks.other (h : Blocks N start size rest) {b : Block} (hb : b ∈ rest) :
    0xFFFFF00000000000 ≤ b.start ∧ b.start + b.size ≤ 0xFFFFFFFF80000000 ∧
      b.start % 4096 = 0 ∧ b.size % 4096 = 0 ∧ 0 < b.size :=
  h.bounds (Multiset.mem_add.mpr (Or.inr hb))

/-- A node gives its block away. -/
theorem Blocks.release (h : Blocks N start size rest) (hn : n ∈ N) (hz : size n ≠ 0#64) :
    Blocks N (Function.update start n 0#64) (Function.update size n 0#64)
      (⟨(start n).toNat,(size n).toNat⟩ ::ₘ rest) := by
  obtain ⟨-,-,h₁,h₂,h₃⟩ := h.node hn hz
  refine h.replace hn (fun _ => rfl) (fun X hX => ?_) (fun b hb => ?_)
  · rw [blockOf_of_ne hz,Multiset.singleton_add] at hX
    rw [blockOf_zero,zero_add]
    exact hX
  · rw [blockOf_zero,zero_add,Multiset.mem_cons] at hb
    rcases hb with rfl | hb
    · exact ⟨h₁,h₂,h₃⟩
    · obtain ⟨-,-,hb⟩ := h.other hb
      exact hb

/-- An empty node takes a block over. -/
theorem Blocks.accept (h : Blocks N start size (⟨a.toNat,z.toNat⟩ ::ₘ rest)) (hn : n ∈ N)
    (hz : size n = 0#64) :
    Blocks N (Function.update start n a) (Function.update size n z) rest := by
  obtain ⟨-,-,h₁,h₂,h₃⟩ := h.other (Multiset.mem_cons_self _ _)
  have hne : z ≠ 0#64 := by
    rintro rfl
    exact absurd h₃ (by simp)
  refine h.replace hn (fun h0 => absurd h0 hne) (fun X hX => ?_) (fun b hb => ?_)
  · rw [hz,blockOf_zero,zero_add] at hX
    rw [blockOf_of_ne hne,Multiset.singleton_add]
    exact hX
  · rw [blockOf_of_ne hne,Multiset.singleton_add] at hb
    obtain ⟨-,-,hb⟩ := h.other hb
    exact hb

/-- A node gives the front of its block away. -/
theorem Blocks.cut (h : Blocks N start size rest) (hn : n ∈ N) (hlt : z.toNat < (size n).toNat)
    (hpos : 0 < z.toNat) (hal : z.toNat % 4096 = 0) :
    Blocks N (Function.update start n (start n + z)) (Function.update size n (size n - z))
      (⟨(start n).toNat,z.toNat⟩ ::ₘ rest) := by
  have hz : size n ≠ 0#64 := by
    intro h0
    rw [h0] at hlt
    simp at hlt
  obtain ⟨hlo,hhi,h₁,h₂,h₃⟩ := h.node hn hz
  have hstart : (start n + z).toNat = (start n).toNat + z.toNat := by
    rw [BitVec.toNat_add,Nat.mod_eq_of_lt (by omega)]
  have hsize : (size n - z).toNat = (size n).toNat - z.toNat :=
    BitVec.toNat_sub_of_le (BitVec.le_def.mpr (by omega))
  have hne : size n - z ≠ 0#64 := by
    intro h0
    rw [h0] at hsize
    simp at hsize
    omega
  refine h.replace hn (fun h0 => absurd h0 hne) (fun X hX => ?_) (fun b hb => ?_)
  · rw [blockOf_of_ne hz,Multiset.singleton_add,Multiset.cons_add] at hX
    rw [blockOf_of_ne hne,hstart,hsize,Multiset.singleton_add,Multiset.cons_add,Multiset.cons_add,
      Multiset.cons_swap,Tiles.split_iff]
    rwa [Nat.add_sub_cancel' hlt.le]
  · rw [blockOf_of_ne hne,hstart,hsize,Multiset.singleton_add,Multiset.mem_cons,
      Multiset.mem_cons] at hb
    rcases hb with rfl | rfl | hb
    · exact ⟨by simp only; omega,by simp only; omega,by simp only; omega⟩
    · exact ⟨h₁,hal,hpos⟩
    · obtain ⟨-,-,hb⟩ := h.other hb
      exact hb

/-- A block of another owner that touches the block of a node. -/
theorem Blocks.size_ne_zero {bs be : U64}
    (h : Blocks N start size (⟨bs.toNat,(be - bs).toNat⟩ ::ₘ rest)) (hn : n ∈ N)
    (ht : bs = start n + size n ∨ be = start n) : size n ≠ 0#64 := by
  obtain ⟨hlo,hhi,-,-,-⟩ := h.other (Multiset.mem_cons_self _ _)
  simp only at hlo hhi
  have hend : be.toNat = bs.toNat + (be - bs).toNat := by
    have hbe : be = bs + (be - bs) := by rw [add_sub_cancel]
    rw [← Nat.mod_eq_of_lt (show bs.toNat + (be - bs).toNat < 2 ^ 64 by omega),
      ← BitVec.toNat_add,← hbe]
  intro h0
  have hs := h.empty n hn h0
  rcases ht with ht | ht
  · rw [ht,hs,h0] at hlo
    simp at hlo
  · rw [ht,hs] at hend
    simp at hend
    omega

theorem Blocks.join_size {bs be : U64}
    (h : Blocks N start size (⟨bs.toNat,(be - bs).toNat⟩ ::ₘ rest)) (hn : n ∈ N)
    (hz : size n ≠ 0#64) :
    (size n + (be - bs)).toNat = (size n).toNat + (be - bs).toNat ∧
      size n + (be - bs) ≠ 0#64 := by
  obtain ⟨hlo,hhi,-,-,hpos⟩ := h.node hn hz
  obtain ⟨hlo',hhi',-,-,-⟩ := h.other (Multiset.mem_cons_self _ _)
  simp only at hlo' hhi'
  have hsize : (size n + (be - bs)).toNat = (size n).toNat + (be - bs).toNat := by
    rw [BitVec.toNat_add,Nat.mod_eq_of_lt (by omega)]
  refine ⟨hsize,fun h0 => ?_⟩
  rw [h0] at hsize
  simp at hsize
  omega

/-- A node extends its block by a block that begins where its own ends. -/
theorem Blocks.joinRight {bs be : U64}
    (h : Blocks N start size (⟨bs.toNat,(be - bs).toNat⟩ ::ₘ rest)) (hn : n ∈ N)
    (ht : bs = start n + size n) :
    Blocks N (Function.update start n (start n))
      (Function.update size n (size n + (be - bs))) rest := by
  have hz := h.size_ne_zero hn (Or.inl ht)
  obtain ⟨hlo,hhi,h₁,h₂,h₃⟩ := h.node hn hz
  obtain ⟨hlo',hhi',h₁',h₂',h₃'⟩ := h.other (Multiset.mem_cons_self _ _)
  simp only at hlo' hhi' h₁' h₂' h₃'
  have hbs : bs.toNat = (start n).toNat + (size n).toNat := by
    rw [ht,BitVec.toNat_add,Nat.mod_eq_of_lt (by omega)]
  obtain ⟨hsize,hne⟩ := h.join_size hn hz
  refine h.replace hn (fun h0 => absurd h0 hne) (fun X hX => ?_) (fun b hb => ?_)
  · rw [blockOf_of_ne hz,Multiset.singleton_add,Multiset.cons_add,Multiset.cons_add,hbs,
      Tiles.split_iff] at hX
    rw [blockOf_of_ne hne,hsize,Multiset.singleton_add,Multiset.cons_add]
    exact hX
  · rw [blockOf_of_ne hne,hsize,Multiset.singleton_add,Multiset.mem_cons] at hb
    rcases hb with rfl | hb
    · exact ⟨h₁,by simp only; omega,by simp only; omega⟩
    · obtain ⟨-,-,hb⟩ := h.other (Multiset.mem_cons_of_mem hb)
      exact hb

/-- A node extends its block by a block that ends where its own begins. -/
theorem Blocks.joinLeft {bs be : U64}
    (h : Blocks N start size (⟨bs.toNat,(be - bs).toNat⟩ ::ₘ rest)) (hn : n ∈ N)
    (ht : be = start n) :
    Blocks N (Function.update start n (start n - (be - bs)))
      (Function.update size n (size n + (be - bs))) rest := by
  have hz := h.size_ne_zero hn (Or.inr ht)
  obtain ⟨hlo,hhi,h₁,h₂,h₃⟩ := h.node hn hz
  obtain ⟨hlo',hhi',h₁',h₂',h₃'⟩ := h.other (Multiset.mem_cons_self _ _)
  simp only at hlo' hhi' h₁' h₂' h₃'
  have hbs : start n - (be - bs) = bs := by rw [← ht,sub_sub_cancel]
  have hstart : (start n).toNat = bs.toNat + (be - bs).toNat := by
    have hbe : start n = bs + (be - bs) := by rw [add_sub_cancel,ht]
    rw [← Nat.mod_eq_of_lt (show bs.toNat + (be - bs).toNat < 2 ^ 64 by omega),
      ← BitVec.toNat_add,← hbe]
  obtain ⟨hsize,hne⟩ := h.join_size hn hz
  rw [Nat.add_comm] at hsize
  rw [hbs]
  refine h.replace hn (fun h0 => absurd h0 hne) (fun X hX => ?_) (fun b hb => ?_)
  · rw [blockOf_of_ne hz,Multiset.singleton_add,Multiset.cons_add,Multiset.cons_add,hstart,
      Multiset.cons_swap,Tiles.split_iff] at hX
    rw [blockOf_of_ne hne,hsize,Multiset.singleton_add,Multiset.cons_add]
    exact hX
  · rw [blockOf_of_ne hne,hsize,Multiset.singleton_add,Multiset.mem_cons] at hb
    rcases hb with rfl | hb
    · exact ⟨h₁',by simp only; omega,by simp only; omega⟩
    · obtain ⟨-,-,hb⟩ := h.other (Multiset.mem_cons_of_mem hb)
      exact hb

/-- A node takes over a block that it touches. -/
theorem Blocks.join {bs be : U64}
    (h : Blocks N start size (⟨bs.toNat,(be - bs).toNat⟩ ::ₘ rest)) (hn : n ∈ N)
    (ht : bs = start n + size n ∨ be = start n) :
    Blocks N (Function.update start n (if bs = start n + size n then start n
        else start n - (be - bs)))
      (Function.update size n (size n + (be - bs))) rest := by
  by_cases hr : bs = start n + size n
  · rw [if_pos hr]
    exact h.joinRight hn hr
  · rw [if_neg hr]
    exact h.joinLeft hn (ht.resolve_left hr)

/-- The blocks of two nodes do not overlap. -/
theorem Blocks.apart (h : Blocks N start size rest) (hn : n ∈ N) (hm : m ∈ N) (hne : m ≠ n)
    (hzn : size n ≠ 0#64) (hzm : size m ≠ 0#64) :
    (start n).toNat + (size n).toNat ≤ (start m).toNat ∨
      (start m).toNat + (size m).toNat ≤ (start n).toNat := by
  have ht := h.tiles
  rw [blocksOf_split hn,blocksOf_split (Finset.mem_erase.mpr ⟨hne,hm⟩),blockOf_of_ne hzn,
    blockOf_of_ne hzm,add_assoc,add_assoc,Multiset.singleton_add,Multiset.singleton_add] at ht
  exact ht.apart (h.node hn hzn).2.2.2.2 (h.node hm hzm).2.2.2.2

/-- The block of a node does not overlap the block of another owner. -/
theorem Blocks.apart_other {b : Block} (h : Blocks N start size rest) (hn : n ∈ N)
    (hz : size n ≠ 0#64) (hb : b ∈ rest) :
    (start n).toNat + (size n).toNat ≤ b.start ∨ b.start + b.size ≤ (start n).toNat := by
  have ht := h.tiles
  obtain ⟨rest,rfl⟩ := Multiset.exists_cons_of_mem hb
  rw [blocksOf_split hn,blockOf_of_ne hz,Multiset.add_cons,add_assoc,Multiset.singleton_add,
    Multiset.cons_swap] at ht
  exact ht.apart (h.node hn hz).2.2.2.2 (h.other hb).2.2.2.2

/-- New nodes that are empty hold no blocks. -/
theorem Blocks.grow {N' : Finset U64} {start' size' : U64 → U64} (h : Blocks N start size rest)
    (hsub : N ⊆ N') (hold : ∀ m ∈ N, start' m = start m ∧ size' m = size m)
    (hnew : ∀ m ∈ N', m ∉ N → start' m = 0#64 ∧ size' m = 0#64) :
    Blocks N' start' size' rest := by
  have hblocks : blocksOf N' start' size' = blocksOf N start size := by
    rw [← blocksOf_congr hold]
    refine (Finset.sum_subset hsub (fun m hm hmn => ?_)).symm
    rw [(hnew m hm hmn).2,blockOf_zero]
  refine ⟨fun m hm hz => ?_,?_,?_⟩
  · by_cases hmn : m ∈ N
    · rw [(hold m hmn).1]
      rw [(hold m hmn).2] at hz
      exact h.empty m hmn hz
    · exact (hnew m hm hmn).1
  · rw [hblocks]
    exact h.tiles
  · rw [hblocks]
    exact h.aligned

/-- No block of a node ends where another one begins. -/
def Sparse (nodes : Finset U64) (start size : U64 → U64) : Prop :=
  ∀ n ∈ nodes, ∀ m ∈ nodes, size n ≠ 0#64 → size m ≠ 0#64 → start n + size n ≠ start m

theorem Sparse.clear (h : Sparse N start size) (n : U64) :
    Sparse N (Function.update start n 0#64) (Function.update size n 0#64) := by
  intro m hm k hk hzm hzk
  have hmn : m ≠ n := by
    rintro rfl
    exact hzm (Function.update_self _ _ _)
  have hkn : k ≠ n := by
    rintro rfl
    exact hzk (Function.update_self _ _ _)
  rw [Function.update_of_ne hmn] at hzm
  rw [Function.update_of_ne hkn] at hzk
  rw [Function.update_of_ne hmn,Function.update_of_ne hmn,Function.update_of_ne hkn]
  exact h m hm k hk hzm hzk

/-- A node gets a block that touches no other. -/
theorem Sparse.put (h : Sparse N start size) (hz : z ≠ 0#64) (hfar : ∀ m ∈ N, m ≠ n →
    size m ≠ 0#64 → a ≠ start m + size m ∧ a + z ≠ start m) :
    Sparse N (Function.update start n a) (Function.update size n z) := by
  intro m hm k hk hzm hzk
  by_cases hmn : m = n
  · by_cases hkn : k = n
    · rw [hmn,hkn,Function.update_self,Function.update_self]
      exact fun he => hz (by simpa using he)
    · rw [Function.update_of_ne hkn] at hzk
      rw [hmn,Function.update_self,Function.update_self,Function.update_of_ne hkn]
      exact (hfar k hk hkn hzk).2
  · rw [Function.update_of_ne hmn] at hzm
    rw [Function.update_of_ne hmn,Function.update_of_ne hmn]
    by_cases hkn : k = n
    · rw [hkn,Function.update_self]
      exact (hfar m hm hmn hzm).1.symm
    · rw [Function.update_of_ne hkn] at hzk ⊢
      exact h m hm k hk hzm hzk

/-- A node gets its block back, which touches no other. -/
theorem Sparse.restore
    (h : Sparse N (Function.update start n 0#64) (Function.update size n 0#64))
    (hz : size n ≠ 0#64) (hfar : ∀ m ∈ N, m ≠ n →
      size m ≠ 0#64 → start n ≠ start m + size m ∧ start n + size n ≠ start m) :
    Sparse N start size := by
  have hput := h.put (n := n) (a := start n) (z := size n) hz (fun m hm hmn hzm => ?_)
  · rw [Function.update_idem,Function.update_idem,Function.update_eq_self,
      Function.update_eq_self] at hput
    exact hput
  · rw [Function.update_of_ne hmn] at hzm
    rw [Function.update_of_ne hmn,Function.update_of_ne hmn]
    exact hfar m hm hmn hzm

/-- The ends of a node's block after it has taken over the block from `bs` to `be`. -/
def joinStart (start size : U64 → U64) (bs n : U64) : U64 :=
  if bs = start n + size n then start n else bs
def joinEnd (start size : U64 → U64) (bs be n : U64) : U64 :=
  if bs = start n + size n then be else start n + size n

/-- A joined block touches others only on the side of the block that was added. -/
theorem Sparse.join_side (h : Sparse N start size) (hn : n ∈ N) (hz : size n ≠ 0#64)
    (bs be : U64) :
    (∀ m ∈ N, m ≠ n → size m ≠ 0#64 → joinStart start size bs n ≠ start m + size m) ∨
      ∀ m ∈ N, m ≠ n → size m ≠ 0#64 → joinEnd start size bs be n ≠ start m := by
  unfold joinStart joinEnd
  by_cases hr : bs = start n + size n
  · left
    intro m hm _ hzm
    rw [if_pos hr]
    exact (h m hm n hn hzm hz).symm
  · right
    intro m hm _ hzm
    rw [if_neg hr]
    exact h n hn m hm hz hzm

/-- What touches the joined block touches the block that was added. -/
theorem Sparse.touches_of_join (h : Sparse N start size) (hb : Blocks N start size rest)
    (hn : n ∈ N) (hz : size n ≠ 0#64) (hm : m ∈ N) {bs be : U64}
    (ht : joinStart start size bs n = start m + size m ∨ joinEnd start size bs be n = start m) :
    bs = start m + size m ∨ be = start m := by
  obtain ⟨hstart,hend⟩ := hb.edge_ne_zero hn hz
  have hempty (h0 : size m = 0#64) : start m = 0#64 ∧ start m + size m = 0#64 := by
    rw [hb.empty m hm h0,h0]
    exact ⟨rfl,rfl⟩
  unfold joinStart joinEnd at ht
  by_cases hr : bs = start n + size n
  · rw [if_pos hr,if_pos hr] at ht
    refine .inr (ht.resolve_left fun he => ?_)
    by_cases hzm : size m = 0#64
    · exact hstart (he.trans (hempty hzm).2)
    · exact h m hm n hn hzm hz he.symm
  · rw [if_neg hr,if_neg hr] at ht
    refine .inl (ht.resolve_right fun he => ?_)
    by_cases hzm : size m = 0#64
    · exact hend (he.trans (hempty hzm).1)
    · exact h n hn m hm hz hzm he

/-- A neighbour takes over the block of a node that touches others on one side at most. -/
theorem Sparse.takeOver
    (h : Sparse N (Function.update start n 0#64) (Function.update size n 0#64))
    (hm : m ∈ N) (hmn : m ≠ n) (hz : size m ≠ 0#64) {bs be : U64}
    (ht : bs = start m + size m ∨ be = start m)
    (hside : (∀ k ∈ N, k ≠ n → size k ≠ 0#64 → bs ≠ start k + size k) ∨
      ∀ k ∈ N, k ≠ n → size k ≠ 0#64 → be ≠ start k)
    (hne : joinEnd start size bs be m - joinStart start size bs m ≠ 0#64) :
    Sparse N (Function.update (Function.update start n 0#64) m (joinStart start size bs m))
      (Function.update (Function.update size n 0#64) m
        (joinEnd start size bs be m - joinStart start size bs m)) := by
  refine h.put hne (fun k hk hkm hzk => ?_)
  have hkn : k ≠ n := by
    rintro rfl
    exact hzk (Function.update_self _ _ _)
  rw [Function.update_of_ne hkn] at hzk
  rw [Function.update_of_ne hkn,Function.update_of_ne hkn,add_sub_cancel]
  have hms := h m hm k hk
  have hks := h k hk m hm
  rw [Function.update_of_ne hmn,Function.update_of_ne hmn,Function.update_of_ne hkn,
    Function.update_of_ne hkn] at hms hks
  unfold joinStart joinEnd
  rcases hside with hl | hr
  · rw [if_neg (hl m hm hmn hz),if_neg (hl m hm hmn hz)]
    exact ⟨hl k hk hkn hzk,hms hz hzk⟩
  · have hbs := ht.resolve_right (hr m hm hmn hz)
    rw [if_pos hbs,if_pos hbs]
    exact ⟨(hks hzk hz).symm,hr k hk hkn hzk⟩

theorem Sparse.cut (h : Sparse N start size) (hb : Blocks N start size rest) (hn : n ∈ N)
    (hlt : z.toNat < (size n).toNat) (hpos : 0 < z.toNat) :
    Sparse N (Function.update start n (start n + z)) (Function.update size n (size n - z)) := by
  have hz : size n ≠ 0#64 := by
    intro h0
    rw [h0] at hlt
    simp at hlt
  have hne : size n - z ≠ 0#64 := fun h0 => (Nat.ne_of_lt hlt) (by rw [sub_eq_zero.mp h0])
  obtain ⟨hlo,hhi,-⟩ := hb.node hn hz
  refine h.put hne (fun m hm hmn hzm => ⟨fun he => ?_,?_⟩)
  · obtain ⟨hlo',hhi',-,-,hpos'⟩ := hb.node hm hzm
    have hap := hb.apart hn hm hmn hz hzm
    have hleft : (start n + z).toNat = (start n).toNat + z.toNat := by
      rw [BitVec.toNat_add,Nat.mod_eq_of_lt (by omega)]
    have hright : (start m + size m).toNat = (start m).toNat + (size m).toNat := by
      rw [BitVec.toNat_add,Nat.mod_eq_of_lt (by omega)]
    rw [he,hright] at hleft
    omega
  · rw [add_assoc,add_sub_cancel]
    exact h n hn m hm hz hzm

theorem Sparse.grow {N' : Finset U64} {start' size' : U64 → U64} (h : Sparse N start size)
    (hold : ∀ m ∈ N, start' m = start m ∧ size' m = size m)
    (hnew : ∀ m ∈ N', m ∉ N → size' m = 0#64) : Sparse N' start' size' := by
  intro m hm k hk hzm hzk
  have hmN : m ∈ N := by_contra fun hn => hzm (hnew m hm hn)
  have hkN : k ∈ N := by_contra fun hn => hzk (hnew k hk hn)
  rw [(hold m hmN).2] at hzm
  rw [(hold k hkN).2] at hzk
  rw [(hold m hmN).1,(hold m hmN).2,(hold k hkN).1]
  exact h m hmN k hkN hzm hzk

end Blocks

end Lios.Vmm

import Lios.Mem.VmallocBitmap

/-! # What the search of a heap node reads

The bytes of the bitmap that the search loop of `vmalloc` looks at, in their order: one
byte for each bit it tests, and eight bytes for each word it tests before a step over 64
bits. The answer of the search depends on these bytes only, and all of them belong to the
bitmap.
-/
namespace Lios

/-- The reads of `searchNode` from the section `i` on, with `found` free sections behind it. -/
def searchReads (node : HeapBitmapNode) (needed : U64) : ℕ → U64 → U64 → List ℕ
  | 0,_,_ => []
  | fuel + 1,i,found =>
    if i < node.bitmapSize then
      (i / 8#64).toNat ::
        if queryBit (node.mem (i / 8#64).toNat) (i % 8#64).toNat ≠ 0#8 then
          if 0#64 = needed then [] else searchReads node needed fuel (i + 1#64) 0#64
        else if i % 8#64 = 0#64 ∧ i < node.bitmapSize - 64#64 ∧ found + 64#64 < needed then
          (List.range 8).map ((i / 8#64).toNat + ·) ++
            if word (fun k => node.mem ((i / 8#64).toNat + k)) = 0#64 then
              searchReads node needed fuel (i + 63#64 + 1#64) (found + 64#64)
            else if found + 1#64 = needed then []
            else searchReads node needed fuel (i + 1#64) (found + 1#64)
        else if found + 1#64 = needed then []
        else searchReads node needed fuel (i + 1#64) (found + 1#64)
    else []

variable {node : HeapBitmapNode} {needed : U64}

/-- Two bitmaps that agree where the search of one of them looks have the same answer. -/
theorem searchNode_congr {mem : ℕ → U8} (fuel : ℕ) (i found start : U64)
    (h : ∀ k ∈ searchReads node needed fuel i found, mem k = node.mem k) :
    searchNode { node with mem := mem } needed fuel i found start =
      searchNode node needed fuel i found start := by
  induction fuel generalizing i found start with
  | zero => rfl
  | succ fuel ih =>
    rw [searchReads] at h
    rw [searchNode,searchNode]
    by_cases hin : i < node.bitmapSize
    swap
    · rw [if_neg hin,if_neg hin]
    rw [if_pos hin] at h ⊢
    rw [if_pos hin]
    obtain ⟨hbyte,h⟩ := List.forall_mem_cons.mp h
    simp only [hbyte]
    by_cases hu : queryBit (node.mem (i / 8#64).toNat) (i % 8#64).toNat = 0#8
    swap
    · rw [if_pos hu] at h ⊢
      rw [if_pos hu]
      by_cases h0 : 0#64 = needed
      · rw [if_pos h0,if_pos h0]
      · rw [if_neg h0] at h ⊢
        rw [if_neg h0]
        exact ih _ _ _ h
    rw [if_neg (not_not.mpr hu)] at h ⊢
    rw [if_neg (not_not.mpr hu)]
    -- the step behind the tests for a word, which both of its branches end with
    have hone (h : ∀ k ∈ (if found + 1#64 = needed then []
        else searchReads node needed fuel (i + 1#64) (found + 1#64)), mem k = node.mem k) :
        (if found + 1#64 = needed then some (some (if found = 0#64 then i else start))
          else searchNode { node with mem := mem } needed fuel (i + 1#64) (found + 1#64)
            (if found = 0#64 then i else start)) =
        if found + 1#64 = needed then some (some (if found = 0#64 then i else start))
          else searchNode node needed fuel (i + 1#64) (found + 1#64)
            (if found = 0#64 then i else start) := by
      by_cases hn : found + 1#64 = needed
      · rw [if_pos hn,if_pos hn]
      · rw [if_neg hn] at h ⊢
        rw [if_neg hn]
        exact ih _ _ _ h
    by_cases htest : i % 8#64 = 0#64 ∧ i < node.bitmapSize - 64#64 ∧ found + 64#64 < needed
    · rw [if_pos htest] at h
      obtain ⟨hword,h⟩ := List.forall_mem_append.mp h
      have hsame : word (fun k => mem ((i / 8#64).toNat + k)) =
          word (fun k => node.mem ((i / 8#64).toNat + k)) :=
        word_congr fun k hk => hword _ (List.mem_map.mpr ⟨k,List.mem_range.mpr hk,rfl⟩)
      simp only [htest,hsame,true_and]
      by_cases hz : word (fun k => node.mem ((i / 8#64).toNat + k)) = 0#64
      · rw [if_pos hz] at h ⊢
        rw [if_pos hz]
        exact ih _ _ _ h
      · rw [if_neg hz] at h ⊢
        rw [if_neg hz]
        exact hone h
    · rw [if_neg htest] at h
      have hskip (b : Prop) : ¬ (i % 8#64 = 0#64 ∧ i < node.bitmapSize - 64#64 ∧
          found + 64#64 < needed ∧ b) := fun hc => htest ⟨hc.1,hc.2.1,hc.2.2.1⟩
      simp only [hskip,if_false]
      exact hone h

/-- No read leaves the bitmap. -/
theorem searchReads_lt (fuel : ℕ) (i found : U64) (hsize : 64 ≤ node.bitmapSize.toNat) :
    ∀ k ∈ searchReads node needed fuel i found, k < (node.bitmapSize.toNat + 7) / 8 := by
  induction fuel generalizing i found with
  | zero =>
    intro k hk
    cases hk
  | succ fuel ih =>
    intro k hk
    rw [searchReads] at hk
    split at hk
    swap
    · cases hk
    rename_i hin
    have hlt := BitVec.lt_def.mp hin
    have hbyte : (i / 8#64).toNat = i.toNat / 8 := by
      rw [BitVec.toNat_udiv]
      rfl
    have hone : k ∈ (if found + 1#64 = needed then []
        else searchReads node needed fuel (i + 1#64) (found + 1#64)) →
        k < (node.bitmapSize.toNat + 7) / 8 := by
      intro hk
      split at hk
      · cases hk
      · exact ih _ _ k hk
    rcases List.mem_cons.mp hk with rfl | hk
    · omega
    split at hk
    · split at hk
      · cases hk
      · exact ih _ _ k hk
    split at hk
    swap
    · exact hone hk
    rename_i htest
    rcases List.mem_append.mp hk with hk | hk
    · obtain ⟨j,hj,rfl⟩ := List.mem_map.mp hk
      have hj := List.mem_range.mp hj
      have hend := BitVec.lt_def.mp htest.2.1
      have hsz := node.bitmapSize.isLt
      rw [BitVec.toNat_sub,BitVec.toNat_ofNat] at hend
      omega
    split at hk
    · exact ih _ _ k hk
    · exact hone hk

/-- The search of a node is the first fit search of its bitmap; its answer depends on the bytes it
reads, and all of them belong to the bitmap. -/
theorem searchNode_firstFit (node : HeapBitmapNode) (needed : U64) {fuel : ℕ}
    (hsize : 64 ≤ node.bitmapSize.toNat) (hneeded : 1 ≤ needed.toNat)
    (hf : node.bitmapSize.toNat < fuel) :
    (∃ b, searchNode node needed fuel 0#64 0#64 0#64 = some b ∧
      FirstFit (bitAt node.mem) node.bitmapSize.toNat needed.toNat (b.map BitVec.toNat)) ∧
    (∀ mem : ℕ → U8, (∀ k ∈ searchReads node needed fuel 0#64 0#64, mem k = node.mem k) →
      searchNode { node with mem := mem } needed fuel 0#64 0#64 0#64 =
        searchNode node needed fuel 0#64 0#64 0#64) ∧
    ∀ k ∈ searchReads node needed fuel 0#64 0#64, k < (node.bitmapSize.toNat + 7) / 8 := by
  refine ⟨?_,fun mem h => searchNode_congr fuel 0#64 0#64 0#64 h,
    searchReads_lt fuel 0#64 0#64 hsize⟩
  obtain ⟨hle,-⟩ | hfirst := searchNode_searched node fuel hsize hneeded
  · omega
  · exact hfirst

/-- A node of 64 sections, of which the first eight are in use. -/
def oneByteUsed : HeapBitmapNode := ⟨0#64,64#64,520#64,fun i => if i = 0 then 0xFF#8 else 0#8⟩

theorem oneByteUsed_firstFit : searchNode oneByteUsed 3#64 65 0#64 0#64 0#64 = some (some 8#64) ∧
    FirstFit (bitAt oneByteUsed.mem) 64 3 (some 8) := by
  have hrun : searchNode oneByteUsed 3#64 65 0#64 0#64 0#64 = some (some 8#64) := by decide +kernel
  obtain ⟨⟨b,hb,hfirst⟩,-,-⟩ := @searchNode_firstFit oneByteUsed 3#64 65 (by decide)
    (by decide) (by decide)
  rw [hrun] at hb
  obtain rfl := Option.some.inj hb
  exact ⟨hrun,hfirst⟩

end Lios

import Mathlib.Data.Set.Function
import Lios.Mem.VmallocRuns

/-! # What `vrealloc` copies

The length of the copy is taken from the number of sections of the old block, which counts the
section of the header, but the copy begins behind the header. So a call for more bytes than the
payload has copies the eight bytes that follow the block as well, the header of the next block or
what is left in free sections. A call for fewer bytes depends on the block itself only: two heaps
that differ elsewhere give the same bytes.
-/
namespace Lios

/-- The `len` addresses from `a` on. -/
def area (a : U64) (len : ℕ) : Set U64 := {x | (x - a).toNat < len}

theorem add_mem_area {a : U64} {len i : ℕ} (h : i < len) : a + BitVec.ofNat 64 i ∈ area a len := by
  change (a + BitVec.ofNat 64 i - a).toNat < len
  rw [add_sub_cancel_left,BitVec.toNat_ofNat]
  exact (Nat.mod_le _ _).trans_lt h

theorem area_subset_iff {a : U64} {m n : ℕ} (hm : m < 2 ^ 64) : area a m ⊆ area a n ↔ m ≤ n := by
  constructor
  · intro h
    by_contra hlt
    have hmem : (a + BitVec.ofNat 64 n - a).toNat < n := h (add_mem_area (not_le.mp hlt))
    rw [add_sub_cancel_left,BitVec.toNat_ofNat,Nat.mod_eq_of_lt (by omega)] at hmem
    exact lt_irrefl n hmem
  · exact fun h x hx => lt_of_lt_of_le hx h

/-- Copies of the same bytes are the same. -/
theorem memcpy_eqOn {Q : Set U64} {m m' : U64 → U8} (len : ℕ) (d s : U64) (h : Set.EqOn m' m Q)
    (hs : ∀ i < len, s + BitVec.ofNat 64 i ∈ Q) :
    Set.EqOn (memcpy len d s m') (memcpy len d s m) Q ∧
      ∀ i < len, memcpy len d s m' (d + BitVec.ofNat 64 i) =
        memcpy len d s m (d + BitVec.ofNat 64 i) := by
  induction len generalizing d s m m' Q with
  | zero => exact ⟨h,fun i hi => absurd hi (Nat.not_lt_zero i)⟩
  | succ len ih =>
    have hfirst : m' s = m s := h (by simpa using hs 0 (Nat.succ_pos len))
    have hnext (a : U64) (i : ℕ) : a + 1#64 + BitVec.ofNat 64 i = a + BitVec.ofNat 64 (i + 1) := by
      rw [add_assoc,← BitVec.ofNat_add,Nat.add_comm]
    -- the byte just written is one more byte on which the memories agree
    have hupdate : Set.EqOn (Function.update m' d (m' s)) (Function.update m d (m s))
        (insert d Q) := by
      intro x hx
      by_cases hxd : x = d
      · rw [hxd,Function.update_self,Function.update_self,hfirst]
      · rw [Function.update_of_ne hxd,Function.update_of_ne hxd]
        exact h ((Set.mem_insert_iff.mp hx).resolve_left hxd)
    obtain ⟨hQ,hd⟩ := ih (d + 1#64) (s + 1#64) hupdate fun i hi => by
      rw [hnext]
      exact Set.mem_insert_of_mem d (hs (i + 1) (by omega))
    refine ⟨hQ.mono (Set.subset_insert d Q),fun i hi => ?_⟩
    cases i with
    | zero =>
      rw [BitVec.add_zero]
      exact hQ (Set.mem_insert d Q)
    | succ i =>
      rw [← hnext]
      exact hd i (by omega)

namespace Vmalloc
variable {E : Type} {calls : VmmCalls E} {s t : Vmalloc E} {Q : Set U64} {ptr newSize : U64}

def setBytes (s : Vmalloc E) (β : U64 → U8) : Vmalloc E := { s with bytes := β }

/-- The heaps differ in bytes outside of `Q` at most. -/
structure Agree (Q : Set U64) (s t : Vmalloc E) : Prop where
  rest : t = s.setBytes t.bytes
  bytes : Set.EqOn t.bytes s.bytes Q

section Agree
variable {β : U64 → U8}

@[simp] theorem setBytes_node : (s.setBytes β).node = s.node := rfl
@[simp] theorem setBytes_heapHead : (s.setBytes β).heapHead = s.heapHead := rfl
@[simp] theorem setBytes_heapTail : (s.setBytes β).heapTail = s.heapTail := rfl
@[simp] theorem setBytes_next (n : U64) : (s.setBytes β).next n = s.next n := rfl
@[simp] theorem setBytes_dataStart (n : U64) : (s.setBytes β).dataStart n = s.dataStart n := rfl
@[simp] theorem setBytes_inUse (n : U64) : (s.setBytes β).inUse n = s.inUse n := rfl

theorem lift_setBytes {α : Type} (f : E → Outcome E α) : (envLens E).lift f (s.setBytes β) =
    ((envLens E).lift f s).mapState fun u => u.setBytes β := by
  change Outcome.mapState _ (f s.env) = Outcome.mapState _ (Outcome.mapState _ (f s.env))
  cases f s.env <;> rfl

theorem search_setBytes (needed : U64) (fuel rounds : ℕ) (cur : U64) :
    (s.setBytes β).search needed fuel rounds cur = s.search needed fuel rounds cur := by
  induction rounds generalizing cur with
  | zero => rfl
  | succ rounds ih => simp only [search,setBytes_node,setBytes_next,ih]

theorem markNode_setBytes (fuel : ℕ) (n start bits : U64) (used : Bool) :
    markNode fuel n start bits used (s.setBytes β) =
      (markNode fuel n start bits used s).mapState fun u => u.setBytes β := by
  simp only [markNode,setBytes_node]
  cases markBitmap fuel start bits used (s.node n).mem with
  | none => rfl
  | some mem => rfl

theorem addBlock_setBytes (wanted : U64) : addBlock calls wanted (s.setBytes β) =
    (addBlock calls wanted s).mapState fun u => u.setBytes β := by
  simp only [setBytes,addBlock,Lens.lift,envLens]
  cases calls.vmmAlloc (ceilU64Div (wanted * 8#64 + ceilU64Div wanted 8#64) pageSize) s.env with
  | done a e =>
    simp only [Outcome.mapState_done,Outcome.bind_done,modifyNode]
    by_cases ha : a = 0#64
    · simp only [if_pos ha]
      rfl
    simp only [if_neg ha]
    by_cases hfirst : s.heapHead = 0#64 ∧ s.heapTail = 0#64
    · simp only [if_pos hfirst]
      rfl
    simp only [if_neg hfirst]
    by_cases htail : s.heapTail = 0#64
    · simp only [if_pos htail]
      rfl
    · simp only [if_neg htail]
      rfl
  | panic msg e => rfl
  | fault e => rfl
  | spin => rfl

/-- A function that takes the same steps whatever the bytes are keeps them. -/
theorem bytes_eq_of_setBytes {α : Type} {f : Vmalloc E → Outcome (Vmalloc E) α} {a : α}
    (hf : ∀ β, f (s.setBytes β) = (f s).mapState fun u => u.setBytes β) (h : f s = .done a t) :
    t.bytes = s.bytes := by
  have hset := hf s.bytes
  rw [show s.setBytes s.bytes = s from rfl,h,Outcome.mapState_done] at hset
  have hbytes := congrArg Vmalloc.bytes (Outcome.done.inj hset).2
  exact hbytes

/-- An allocation does not look at the bytes. -/
theorem vmalloc_agree (fuel : ℕ) (size : U64) (h : Agree Q s t) :
    (vmalloc calls fuel size s).Tracks (Agree Q) (vmalloc calls fuel size t) := by
  obtain ⟨hrest,hbytes⟩ := h
  generalize t.bytes = β at hrest hbytes
  subst hrest
  induction fuel generalizing size s β with
  | zero => exact fun a u hdone => by cases hdone
  | succ fuel ih =>
    simp only [vmalloc,search_setBytes,setBytes_heapHead]
    rcases s.search (ceilU64Div (size + 8#64) 8#64) fuel fuel s.heapHead with _ | _ | ⟨cur,start⟩
    · exact fun a u hdone => by cases hdone
    · dsimp only
      rw [addBlock_setBytes]
      intro p u hdone
      obtain ⟨_,v,hadd,hdone⟩ := Outcome.bind_eq_done.mp hdone
      rw [hadd]
      have hkept := bytes_eq_of_setBytes (fun _ => addBlock_setBytes _) hadd
      have hβ : Set.EqOn β v.bytes Q := by rwa [hkept]
      exact ih (size + 8#64) β hβ p u hdone
    · dsimp only
      rw [markNode_setBytes]
      intro p u hdone
      obtain ⟨_,v,hmark,hdone⟩ := Outcome.bind_eq_done.mp hdone
      obtain ⟨rfl,rfl⟩ := Outcome.done.inj hdone
      rw [hmark]
      refine ⟨_,rfl,rfl,fun x hx => ?_⟩
      have hkept := bytes_eq_of_setBytes (fun _ => markNode_setBytes ..) hmark
      dsimp only [setBytes]
      rw [store,store,hkept,hbytes hx]
      rfl

theorem releaseIfUnused_setBytes (prev n : U64) :
    releaseIfUnused calls prev n (s.setBytes β) =
      (releaseIfUnused calls prev n s).mapState fun u => u.setBytes β := by
  rw [releaseIfUnused,releaseIfUnused]
  by_cases hfirst : prev = n
  · rw [if_pos hfirst,if_pos hfirst,Outcome.mapState_done]
  rw [if_neg hfirst,if_neg hfirst]
  by_cases hnull : prev = 0#64
  · rw [if_pos hnull,if_pos hnull]
    rfl
  rw [if_neg hnull,if_neg hnull]
  by_cases hnext : s.next prev = n
  · have hnext' : (s.setBytes β).next prev = n := hnext
    rw [if_neg (not_not_intro hnext),if_neg (not_not_intro hnext')]
    by_cases huse : s.inUse n = true
    · have huse' : (s.setBytes β).inUse n = true := huse
      rw [if_pos huse,if_pos huse',Outcome.mapState_done]
    · have huse' : ¬(s.setBytes β).inUse n = true := huse
      rw [if_neg huse,if_neg huse',← lift_setBytes]
      refine congrArg ((envLens E).lift (calls.vmmFree n)) ?_
      let u := s.modifyNode prev fun x => { x with next := s.next n }
      change (if u.heapTail = n then ({ u with heapTail := prev } : Vmalloc E).setBytes β
        else u.setBytes β) = (if u.heapTail = n then { u with heapTail := prev } else u).setBytes β
      split_ifs <;> rfl
  · have hnext' : (s.setBytes β).next prev ≠ n := hnext
    rw [if_pos hnext,if_pos hnext']
    rfl

/-- Releasing a block of known size does not look at the bytes and keeps them. -/
theorem vfreeLoop_setBytes (mem size : U64) (fuel : ℕ) (cur prev : U64) :
    vfreeLoop calls mem size fuel cur prev (s.setBytes β) =
      (vfreeLoop calls mem size fuel cur prev s).mapState fun u => u.setBytes β := by
  induction fuel generalizing cur prev with
  | zero => rfl
  | succ fuel ih =>
    rw [vfreeLoop,vfreeLoop]
    by_cases hend : cur = 0#64
    · rw [if_pos hend,if_pos hend]
      rfl
    rw [if_neg hend,if_neg hend]
    dsimp only
    by_cases hin : s.dataStart cur ≤ mem ∧ mem ≤ cur + 24#64 + (s.node cur).totalSize
    · have hin' : (s.setBytes β).dataStart cur ≤ mem ∧
          mem ≤ cur + 24#64 + ((s.setBytes β).node cur).totalSize := hin
      rw [if_pos hin,if_pos hin',setBytes_dataStart,markNode_setBytes]
      cases markNode fuel cur ((mem - s.dataStart cur) / 8#64) size false s with
      | done _ u => exact releaseIfUnused_setBytes prev cur
      | panic msg u => rfl
      | fault u => rfl
      | spin => rfl
    · have hin' : ¬((s.setBytes β).dataStart cur ≤ mem ∧
          mem ≤ cur + 24#64 + ((s.setBytes β).node cur).totalSize) := hin
      rw [if_neg hin,if_neg hin',setBytes_next,setBytes_next,setBytes_heapHead,ih,ih]
      split_ifs <;> rfl

end Agree

/-- The payload at `ptr` belongs to a block of `n` sections, as its header says. -/
structure HeldBlock (s : Vmalloc E) (ptr : U64) (n : ℕ) : Prop where
  header : (s.getBlockSize ptr).toNat = n
  pos : 1 ≤ n
  fits : 8 * n < 2 ^ 64

/-- The number of bytes that `vrealloc` copies. -/
def copied (s : Vmalloc E) (ptr newSize : U64) : ℕ :=
  (u64Min (s.getBlockSize ptr * 8#64) newSize).toNat

/-- The addresses of the sections behind the header of a block of `n` sections. -/
def payload (ptr : U64) (n : ℕ) : Set U64 := area ptr (8 * n - 8)

/-- The addresses of a block of `n` sections whose payload begins at `ptr`. -/
def ownBlock (ptr : U64) (n : ℕ) : Set U64 := area (ptr - 8#64) 8 ∪ payload ptr n

variable {n : ℕ}

/-- Every outstanding block is one. -/
theorem Accounts.heldBlock {sup : BlockSupply calls} {held : Multiset (U64 × U64)} {l : List U64}
    {bs : Finset HeapBlock} {b : HeapBlock} (h : Accounts sup held s l bs) (hb : b ∈ bs) :
    HeldBlock s (s.pointer b) b.range.size where
  header := h.header b hb
  pos := (h.placed b hb).size
  fits := by
    have hbounds := h.pointer_bounds (h.placed b hb)
    omega

theorem HeldBlock.copied_eq (h : HeldBlock s ptr n) :
    s.copied ptr newSize = min (8 * n) newSize.toNat := by
  have hold : (s.getBlockSize ptr * 8#64).toNat = 8 * n := by
    rw [BitVec.toNat_mul,h.header,show (8#64).toNat = 8 from rfl,Nat.mul_comm,
      Nat.mod_eq_of_lt h.fits]
  rw [copied,toNat_u64Min,hold]

theorem getBlockSize_congr (h : Set.EqOn t.bytes s.bytes (ownBlock ptr n)) :
    t.getBlockSize ptr = s.getBlockSize ptr :=
  load_congr fun _ hx => h (Or.inl hx)

/-- The old block is copied into the new one; giving it back writes no byte. -/
theorem vrealloc_eq_done {fuel : ℕ} {p : U64} : vrealloc calls fuel ptr newSize s = .done p t ↔
    ∃ u v, vmalloc calls fuel newSize s = .done p u ∧
      vfreeLoop calls (ptr - 8#64) (load (memcpy (s.copied ptr newSize) p ptr u.bytes) (ptr - 8#64))
        fuel u.heapHead u.heapHead u = .done () v ∧
      t = v.setBytes (memcpy (s.copied ptr newSize) p ptr u.bytes) := by
  constructor
  · intro h
    obtain ⟨q,u,halloc,h⟩ := Outcome.bind_eq_done.mp h
    obtain ⟨_,w,hfree,h⟩ := Outcome.bind_eq_done.mp h
    obtain ⟨rfl,rfl⟩ := Outcome.done.inj h
    obtain ⟨v,hv,rfl⟩ := Outcome.mapState_eq_done.mp ((vfreeLoop_setBytes ..).symm.trans hfree)
    exact ⟨u,v,halloc,hv,rfl⟩
  · rintro ⟨u,v,halloc,hfree,rfl⟩
    refine Outcome.bind_eq_done.mpr ⟨p,u,halloc,Outcome.bind_eq_done.mpr ⟨(),_,?_,rfl⟩⟩
    exact (vfreeLoop_setBytes ..).trans (Outcome.mapState_eq_done.mpr ⟨v,hfree,rfl⟩)

theorem HeldBlock.vrealloc_congr {fuel : ℕ} {p : U64} {s' : Vmalloc E} (h : HeldBlock s ptr n)
    (hfit : newSize.toNat ≤ 8 * n - 8) (hs : Agree (ownBlock ptr n) s s')
    (hdone : vrealloc calls fuel ptr newSize s = .done p t) :
    ∃ t', vrealloc calls fuel ptr newSize s' = .done p t' ∧
      ∀ i < newSize.toNat, t'.bytes (p + BitVec.ofNat 64 i) = t.bytes (p + BitVec.ofNat 64 i) := by
  obtain ⟨u,v,halloc,hfree,rfl⟩ := vrealloc_eq_done.mp hdone
  have hlen : s.copied ptr newSize = newSize.toNat := by
    rw [h.copied_eq]
    omega
  have hlen' : s'.copied ptr newSize = s.copied ptr newSize := by
    rw [copied,copied,getBlockSize_congr hs.bytes]
  obtain ⟨u',halloc',hu⟩ := vmalloc_agree fuel newSize hs p u halloc
  obtain ⟨hkept,hcopy⟩ := memcpy_eqOn newSize.toNat p ptr hu.bytes fun i hi =>
    Or.inr (add_mem_area (by omega))
  -- the header of the old block is read again, after the copy
  have hheader : load (memcpy newSize.toNat p ptr u'.bytes) (ptr - 8#64) =
      load (memcpy newSize.toNat p ptr u.bytes) (ptr - 8#64) :=
    load_congr fun _ hx => hkept (Or.inl hx)
  rw [hlen] at hfree
  rw [hlen] at hlen'
  refine ⟨_,vrealloc_eq_done.mpr ⟨u',v.setBytes u'.bytes,halloc',?_,rfl⟩,fun i hi => ?_⟩
  · rw [hlen',hheader,hu.rest]
    exact (vfreeLoop_setBytes ..).trans (Outcome.mapState_eq_done.mpr ⟨v,hfree,rfl⟩)
  · rw [hlen,hlen']
    exact hcopy i hi

/-- Whatever `vrealloc` returns, the bytes at the end are those after the allocation with a copy
from `ptr`. The bytes it copies are all of the payload of the old block if and only if no more
bytes are asked for than the payload has; and then the new block depends on the old block only. -/
theorem vrealloc_reads_own_iff {fuel : ℕ} (h : HeldBlock s ptr n) :
    (∀ p t, vrealloc calls fuel ptr newSize s = .done p t →
      ∃ u, vmalloc calls fuel newSize s = .done p u ∧
        t.bytes = memcpy (s.copied ptr newSize) p ptr u.bytes) ∧
    (area ptr (s.copied ptr newSize) ⊆ payload ptr n ↔ newSize.toNat ≤ 8 * n - 8) ∧
    (newSize.toNat ≤ 8 * n - 8 → ∀ s', Agree (ownBlock ptr n) s s' →
      ∀ p t, vrealloc calls fuel ptr newSize s = .done p t →
        ∃ t', vrealloc calls fuel ptr newSize s' = .done p t' ∧
          ∀ i < newSize.toNat, t'.bytes (p + BitVec.ofNat 64 i) =
            t.bytes (p + BitVec.ofNat 64 i)) := by
  refine ⟨fun p t hdone => ?_,?_,fun hfit s' hs p t hdone => h.vrealloc_congr hfit hs hdone⟩
  · obtain ⟨u,v,halloc,-,rfl⟩ := vrealloc_eq_done.mp hdone
    exact ⟨u,halloc,rfl⟩
  · have hpos := h.pos
    have hfits := h.fits
    rw [payload,area_subset_iff (by rw [h.copied_eq]; omega),h.copied_eq]
    omega

theorem firstBlock_held : HeldBlock heapOne.heap firstPointer 14 := by
  refine ⟨?_,by decide,by decide⟩
  decide +kernel

theorem firstBlock_reads_own :
    area firstPointer (heapOne.heap.copied firstPointer 100#64) ⊆ payload firstPointer 14 ∧
    ∀ s', Agree (ownBlock firstPointer 14) heapOne.heap s' →
      ∀ p t, vrealloc poolVmm 600 firstPointer 100#64 heapOne.heap = .done p t →
        ∃ t', vrealloc poolVmm 600 firstPointer 100#64 s' = .done p t' ∧
          ∀ i < 100, t'.bytes (p + BitVec.ofNat 64 i) = t.bytes (p + BitVec.ofNat 64 i) := by
  obtain ⟨-,hreads,hown⟩ := @vrealloc_reads_own_iff _ poolVmm _ _ 100#64 _ 600 firstBlock_held
  exact ⟨hreads.mpr (by decide),hown (by decide)⟩

/-- The heap with a block of two sections. -/
def heapShort : Vmalloc (Vmm ℕ) := (vmalloc poolVmm 600 8#64 heapReady).stateD heapStart

/-- The heap with a block of fourteen sections behind it. -/
def heapPair : Vmalloc (Vmm ℕ) := (vmalloc poolVmm 600 100#64 heapShort).stateD heapStart

/-- The ninth byte of the sixteen that `vrealloc` makes of the first block. -/
def ninthByte (s : Vmalloc (Vmm ℕ)) : Option U8 :=
  (vrealloc poolVmm 600 firstPointer 16#64 s).returned.map fun p =>
    ((vrealloc poolVmm 600 firstPointer 16#64 s).stateD s).bytes (p + 8#64)

/-- The payload of the first block has eight bytes. `vrealloc` copies the header of its neighbour
behind them: the new block holds the number of sections of the neighbour, and another number
there gives another result. -/
theorem heapPair_reads_neighbour :
    (vmalloc poolVmm 600 8#64 heapReady).returned = some firstPointer ∧
    (vmalloc poolVmm 600 100#64 heapShort).returned = some (firstPointer + 16#64) ∧
    HeldBlock heapPair firstPointer 2 ∧
    ¬area firstPointer (heapPair.copied firstPointer 16#64) ⊆ payload firstPointer 2 ∧
    ∃ s', Agree (ownBlock firstPointer 2) heapPair s' ∧
      ninthByte heapPair = some 14#8 ∧ ninthByte s' = some 7#8 := by
  have hcopied : heapPair.copied firstPointer 16#64 = 16 := by decide +kernel
  refine ⟨by decide +kernel,by decide +kernel,⟨by decide +kernel,by decide,by decide⟩,?_,
    heapPair.setBytes (Function.update heapPair.bytes (firstPointer + 8#64) 7#8),⟨rfl,?_⟩,
    by decide +kernel,by decide +kernel⟩
  · rw [hcopied,payload,area_subset_iff (by decide)]
    decide
  · intro x hx
    refine Function.update_of_ne ?_ _ _
    rintro rfl
    obtain hx | hx := hx
    · exact absurd hx (by rw [area,Set.mem_ofPred_eq]; decide)
    · exact absurd hx (by rw [payload,area,Set.mem_ofPred_eq]; decide)

end Vmalloc

end Lios

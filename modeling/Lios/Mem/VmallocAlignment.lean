import Lios.Mem.VmallocContainment

/-! # Alignment of heap pointers

A node begins at a page and its header takes 24 bytes, so the sections of the node are
aligned as its bitmap is long. The bitmap of a node of 504 sections takes 63 bytes, and
nothing of the first node is aligned to four bytes, which the disk driver asks of its
buffers.
-/
namespace Lios
namespace Vmalloc
variable {E : Type} {calls : VmmCalls E}

/-- Every outstanding pointer is a multiple of four. -/
def DwordAligned (x : HeapSession E) : Prop := ∀ p ∈ x.out, p.toNat % 4 = 0

/-- Whether a call for `size` bytes ends in a node whose bitmap takes a multiple of four bytes:
the node in which the search finds a row, or, if there is none, the new node. -/
def Flush (s : Vmalloc E) (size : U64) : Prop :=
  (∀ fuel n start, s.search (ceilU64Div (size + 8#64) 8#64) fuel fuel s.heapHead =
      some (some (n,start)) → (ceilU64Div (s.node n).bitmapSize 8#64).toNat % 4 = 0) ∧
  ∀ fuel, s.search (ceilU64Div (size + 8#64) 8#64) fuel fuel s.heapHead = some none →
    63 * (retryFor size.toNat).1 % 4 = 0

def HeapCall.Flush (s : Vmalloc E) (c : HeapCall) : Prop := ∀ n, c.asks = some n → s.Flush n

/-- The bitmap in front of the block takes a multiple of four bytes. -/
def BehindDwords (s : Vmalloc E) (b : HeapBlock) : Prop :=
  (ceilU64Div (s.node b.node).bitmapSize 8#64).toNat % 4 = 0

section Aligned
variable {sup : BlockSupply calls} {held : Multiset (U64 × U64)} {s t : Vmalloc E} {l : List U64}
  {bs : Finset HeapBlock} {b : HeapBlock} {x : HeapSession E}

theorem Accounts.pointer_mod_four (h : Accounts sup held s l bs) (hb : b ∈ bs) :
    (s.pointer b).toNat % 4 = 0 ↔ s.BehindDwords b := by
  have hp := h.placed b hb
  obtain ⟨k,hk⟩ := h.sized _ hp.node
  obtain ⟨-,hal,-⟩ := h.bounds hp.node hk
  rw [h.toNat_pointer hp hk,BehindDwords,toNat_bitmapBytes hk]
  omega

theorem Accounted.dwordAligned_iff (h : Accounted sup x held l bs) :
    DwordAligned x ↔ ∀ b ∈ bs, x.heap.BehindDwords b := by
  constructor
  · intro hal b hb
    refine (h.account.pointer_mod_four hb).mp (hal _ ?_)
    rw [h.out]
    exact Multiset.mem_map_of_mem _ hb
  · intro hal p hp
    obtain ⟨b,hb,rfl⟩ := h.exists_block hp
    exact (h.account.pointer_mod_four hb).mpr (hal b hb)

theorem behindDwords_rule (sup : BlockSupply calls) : LandingRule BehindDwords Flush sup where
  congr {s t b} h hbits _ := by
    rw [BehindDwords,hbits]
    exact h
  lands {held s t l bs n b} h hn hlands := by
    have hbound : (n.toNat + 16 + 4031) / 4032 * 504 < 2 ^ 35 := hn
    obtain ⟨start,hfound,-,hbits,-⟩ | ⟨hnone,hk,-⟩ := hlands
    · rw [Flush,h.search_iff (by omega) hfound,BehindDwords,hbits]
    · rw [Flush,h.search_iff (by omega) hnone,BehindDwords,toNat_bitmapBytes hk]

end Aligned

/-- In a run of calls with small sizes from `vmalloc_init`, all outstanding pointers are multiples
of four in every state exactly if each call ends in a node whose bitmap takes a multiple of four
bytes. -/
theorem heapPointers_aligned_iff (sup : BlockSupply calls) {s₀ : Vmalloc E}
    {held : Multiset (U64 × U64)} {n : ℕ} {st : ℕ → HeapSession E} {op : ℕ → HeapCall}
    (hhead : s₀.heapHead = 0#64) (htail : s₀.heapTail = 0#64) (hheld : sup.Held s₀.env held)
    (hinit : vmallocInit calls s₀ = .done () (st 0).heap) (hout : (st 0).out = 0)
    (hr : IsRun (HeapStep calls) n st op) (hop : ∀ i < n, (op i).Small) :
    (∀ i ≤ n, DwordAligned (st i)) ↔ ∀ i < n, (op i).Flush (st i).heap :=
  (behindDwords_rule sup).run (fun h => h.dwordAligned_iff) hhead htail hheld hinit hout hr hop

/-- The pointer to the first block of a node of four times 504 sections behind the first node. -/
def dwordPointer : U64 := 0xFFFFF0000000111C#64

/-- One call for 16000 bytes, for which there is no room in the first node. -/
def dwordRun : ℕ → HeapSession (Vmm ℕ)
  | 0 => ⟨heapReady,0⟩
  | _ => ⟨(vmalloc poolVmm 2100 16000#64 heapReady).stateD heapStart,{dwordPointer}⟩

theorem dwordRun_aligned : (∀ i ≤ 1, DwordAligned (dwordRun i)) ∧
    ∀ i < 1, (HeapCall.vmalloc 16000#64).Flush (dwordRun i).heap := by
  have halloc : (vmalloc poolVmm 2100 16000#64 heapReady).returned = some dwordPointer := by
    decide +kernel
  have hrun : IsRun (HeapStep poolVmm) 1 dwordRun fun _ => .vmalloc 16000#64 := by
    intro i hi
    obtain rfl : i = 0 := by omega
    exact HeapStep.vmalloc (Outcome.eq_done_of_returned halloc heapStart)
  have haligned : ∀ i ≤ 1, DwordAligned (dwordRun i) := by
    intro i hi p hp
    interval_cases i
    · exact absurd hp (Multiset.notMem_zero p)
    · obtain rfl := Multiset.mem_singleton.mp hp
      decide
  have hsmall : (HeapCall.vmalloc 16000#64).Small := by
    show (16000 + 16 + 4031) / 4032 * 504 < 2 ^ 35
    decide
  have hheld : poolBlocks.Held heapStart.env 0 := Vmm.Ranges.vmmInit rfl Vmm.pooled_eq
  exact ⟨haligned,(@heapPointers_aligned_iff _ _ poolBlocks heapStart 0 1 dwordRun _
    rfl rfl hheld heapReady_eq rfl hrun (fun _ _ => hsmall)).mp haligned⟩

/-- The first block of a heap is not aligned. -/
theorem firstPointer_not_aligned : vmallocInit poolVmm heapStart = .done () heapReady ∧
    HeapStep poolVmm ⟨heapReady,0⟩ (.vmalloc 100#64) heapOne ∧ ¬ DwordAligned heapOne := by
  have halloc : (vmalloc poolVmm 600 100#64 heapReady).returned = some firstPointer := by
    decide +kernel
  refine ⟨heapReady_eq,HeapStep.vmalloc (Outcome.eq_done_of_returned halloc heapStart),?_⟩
  intro h
  exact absurd (h firstPointer (Multiset.mem_singleton_self _)) (by decide)

end Vmalloc

end Lios

import Lios.Mem.VmallocAccounts

/-! # Giving a block back

The loop of `vfree` stops at the node of the block: no other node passes the range
test, although the test admits addresses behind the sections of a node. Its second
pointer stays one node behind. The sections of the block are cleared, and the node is
unlinked and given back if it is not the first one and holds no other block.
-/
namespace Lios
namespace Vmalloc
variable {E : Type} {calls : VmmCalls E} {sup : BlockSupply calls} {held : Multiset (U64 × U64)}
  {s t : Vmalloc E} {l l₁ l₂ : List U64} {bs : Finset HeapBlock} {b : HeapBlock}

theorem toNat_totalEnd {n : U64} {k : ℕ} (h : Nodes sup held s l) (hn : n ∈ l)
    (hk : Sized (s.node n) k) :
    (n + 24#64 + (s.node n).totalSize).toNat = n.toNat + 24 + 4095 * k := by
  obtain ⟨-,-,hhi⟩ := h.bounds hn hk
  rw [BitVec.toNat_add,BitVec.toNat_add,hk.total,show (24#64).toNat = 24 from rfl]
  omega

/-- The range test of `vfree` holds for the node of a block and for no other node. -/
theorem Nodes.covers_iff {n : U64} (h : Nodes sup held s l) (hb : Placed s l b) (hn : n ∈ l) :
    (s.dataStart n ≤ s.pointer b - 8#64 ∧
      s.pointer b - 8#64 ≤ n + 24#64 + (s.node n).totalSize) ↔ n = b.node := by
  obtain ⟨k,hk⟩ := h.sized _ hb.node
  obtain ⟨j,hj⟩ := h.sized _ hn
  have hfits := hb.fits
  have hsize := hb.size
  have hkpos := hk.pos
  have hjpos := hj.pos
  rw [hk.bits] at hfits
  rw [BitVec.le_def,BitVec.le_def,h.toNat_header hb,h.toNat_pointer hb hk,h.toNat_dataStart hn hj,
    toNat_totalEnd h hn hj]
  constructor
  · intro hrange
    by_contra hne
    have hap := h.apart hn hb.node hne hj hk
    omega
  · rintro rfl
    have hkj : k = j := by
      have hbits := hk.bits
      rw [hj.bits] at hbits
      omega
    omega

/-- The number of the first section of a block, as `vfree` computes it. -/
theorem Nodes.bitmapOffset (h : Nodes sup held s l) (hb : Placed s l b) :
    ((s.pointer b - 8#64 - s.dataStart b.node) / 8#64).toNat = b.range.start := by
  obtain ⟨k,hk⟩ := h.sized _ hb.node
  have hp := (s.pointer b - 8#64).isLt
  rw [BitVec.toNat_udiv,BitVec.toNat_sub,h.toNat_header hb,h.toNat_pointer hb hk,
    h.toNat_dataStart hb.node hk,show (8#64).toNat = 8 from rfl]
  rw [h.toNat_header hb,h.toNat_pointer hb hk] at hp
  omega

/-- The loop comes to the node of the block, with the node before it, or the first node
itself, as its second pointer. -/
theorem Nodes.vfreeLoop_eq {size cur : U64} {fuel : ℕ} (h : Nodes sup held s (l₁ ++ l₂))
    (hb : Placed s (l₁ ++ l₂) b) (hcur : Linked 0#64 s.next cur l₂) (hmem : b.node ∈ l₂) :
    (fuel ≤ l₂.length ∧
      vfreeLoop calls (s.pointer b - 8#64) size fuel cur (l₁.getLastD cur) s = .spin) ∨
    ∃ m₁ m₂ fuel', l₁ ++ l₂ = m₁ ++ b.node :: m₂ ∧ fuel ≤ fuel' + l₂.length ∧
      vfreeLoop calls (s.pointer b - 8#64) size fuel cur (l₁.getLastD cur) s =
        (markNode fuel' b.node ((s.pointer b - 8#64 - s.dataStart b.node) / 8#64) size false s).bind
          fun _ s => releaseIfUnused calls (m₁.getLastD b.node) b.node s := by
  induction l₂ generalizing l₁ cur fuel with
  | nil => simp at hmem
  | cons n l₂ ih =>
    obtain ⟨rfl,hne,hnext⟩ := linked_cons.mp hcur
    have hn : cur ∈ l₁ ++ cur :: l₂ := List.mem_append_right _ List.mem_cons_self
    cases fuel with
    | zero => exact .inl ⟨Nat.zero_le _,rfl⟩
    | succ fuel =>
      rw [vfreeLoop,if_neg hne]
      dsimp only
      by_cases hnode : cur = b.node
      · rw [if_pos ((h.covers_iff hb hn).mpr hnode),hnode]
        exact .inr ⟨l₁,l₂,fuel,rfl,by simp only [List.length_cons]; omega,rfl⟩
      rw [if_neg (mt (h.covers_iff hb hn).mp hnode)]
      have hsplit : l₁ ++ cur :: l₂ = (l₁ ++ [cur]) ++ l₂ := by simp
      have hrest := @ih (l₁ ++ [cur]) (s.next cur) fuel (hsplit ▸ h) (hsplit ▸ hb) hnext
        ((List.mem_cons.mp hmem).resolve_left (Ne.symm hnode))
      rw [List.getLastD_concat] at hrest
      -- Whichever way the second pointer moves, it is at `cur` in the next round.
      have hmove : (if cur ≠ s.heapHead then
            if l₁.getLastD cur = 0#64 then .fault s
            else vfreeLoop calls (s.pointer b - 8#64) size fuel (s.next cur)
              (s.next (l₁.getLastD cur)) s
          else vfreeLoop calls (s.pointer b - 8#64) size fuel (s.next cur) (l₁.getLastD cur) s) =
          vfreeLoop calls (s.pointer b - 8#64) size fuel (s.next cur) cur s := by
        rcases List.eq_nil_or_concat l₁ with rfl | ⟨l',p,hl⟩
        · rw [if_neg (not_not.mpr (linked_cons.mp h.linked).1.symm)]
          rfl
        · rw [List.concat_eq_append] at hl
          have hlist := h.linked
          rw [hl,List.append_assoc] at hlist
          have hp : p ≠ 0#64 := fun h0 => hlist.2 (by simp [h0])
          rw [if_pos hlist.ne_head,hl,List.getLastD_concat,if_neg hp,hlist.next_eq]
      rw [hmove]
      obtain ⟨hfuel,hspin⟩ | ⟨m₁,m₂,fuel',hm,hfuel,heq⟩ := hrest
      · exact .inl ⟨by simp only [List.length_cons]; omega,hspin⟩
      · exact .inr ⟨m₁,m₂,fuel',hsplit.trans hm,by simp only [List.length_cons]; omega,heq⟩

/-- The sections of a freed block are free again. -/
theorem Accounts.erase {mem : ℕ → U8} (h : Accounts sup held s l bs) (hb : b ∈ bs)
    (hmem : ∀ j, bitAt mem j = marked b.range.start b.range.size false (s.node b.node).mem j) :
    Accounts sup held (s.modifyNode b.node fun x => { x with mem := mem }) l (bs.erase b) := by
  have hsame := sameNodes_setMem s b.node mem
  refine ⟨hsame.nodes h.toNodes,fun c hc => hsame.placed (h.placed c (Finset.mem_of_mem_erase hc)),
    fun c hc => ?_,fun n hn j hj => ?_,fun c hc d hd => h.disjoint c (Finset.mem_of_mem_erase hc)
      d (Finset.mem_of_mem_erase hd)⟩
  · rw [hsame.pointer]
    exact h.header c (Finset.mem_of_mem_erase hc)
  · rw [hsame.bits] at hj
    rw [mem_setMem]
    simp only [Finset.mem_erase]
    have hold := h.bits n hn j hj
    by_cases hnode : n = b.node
    · subst hnode
      rw [if_pos rfl,hmem,marked]
      split
      · rename_i hin
        refine ⟨fun hf => absurd hf Bool.false_ne_true,?_⟩
        rintro ⟨c,⟨hcb,hc⟩,hcn,hcj⟩
        exact absurd (h.disjoint c hc b hb hcn j hcj hin) hcb
      · rename_i hout
        rw [hold]
        constructor
        · rintro ⟨c,hc,hcn,hcj⟩
          exact ⟨c,⟨fun hcb => hout (hcb ▸ hcj),hc⟩,hcn,hcj⟩
        · rintro ⟨c,⟨-,hc⟩,hcn,hcj⟩
          exact ⟨c,hc,hcn,hcj⟩
    · rw [if_neg hnode,hold]
      constructor
      · rintro ⟨c,hc,hcn,hcj⟩
        exact ⟨c,⟨fun hcb => hnode (by rw [← hcn,hcb]),hc⟩,hcn,hcj⟩
      · rintro ⟨c,⟨-,hc⟩,hcn,hcj⟩
        exact ⟨c,hc,hcn,hcj⟩

/-- A node is in use if it holds a block. -/
theorem Accounts.inUse_iff {n : U64} (h : Accounts sup held s l bs) (hn : n ∈ l) :
    s.inUse n = true ↔ ∃ b ∈ bs, b.node = n := by
  obtain ⟨k,hk⟩ := h.sized n hn
  simp only [inUse,List.any_eq_true,List.mem_range,bne_iff_ne,toNat_bitmapBytes hk]
  constructor
  · rintro ⟨i,hi,hne⟩
    obtain ⟨j,hj,hbit⟩ : ∃ j, j / 8 = i ∧ bitAt (s.node n).mem j = true := by
      by_contra hno
      exact hne (byte_eq_zero_iff.mpr fun j hj =>
        Bool.eq_false_iff.mpr fun hbit => hno ⟨j,hj,hbit⟩)
    obtain ⟨b,hb,hbn,-⟩ := (h.bits n hn j (by rw [hk.bits]; omega)).mp hbit
    exact ⟨b,hb,hbn⟩
  · rintro ⟨b,hb,rfl⟩
    have hp := h.placed b hb
    have hfits := hp.fits
    have hsize := hp.size
    have hbit := (h.bits _ hn b.range.start (by omega)).mpr ⟨b,hb,rfl,le_rfl,by omega⟩
    rw [hk.bits] at hfits
    refine ⟨b.range.start / 8,by omega,fun hzero => ?_⟩
    rw [byte_eq_zero_iff.mp hzero _ rfl] at hbit
    exact Bool.false_ne_true hbit

/-- The state in which a node was taken out of the list behind `prev`. -/
def unlinkNode (prev n : U64) (s : Vmalloc E) : Vmalloc E :=
  let s := s.modifyNode prev fun x => { x with next := s.next n }
  if s.heapTail = n then { s with heapTail := prev } else s

theorem unlinkNode_tail (prev n : U64) (s : Vmalloc E) :
    (s.unlinkNode prev n).heapTail = if s.heapTail = n then prev else s.heapTail := by
  simp only [unlinkNode,apply_ite heapTail]
  rfl

theorem unlinkNode_node (prev n : U64) (s : Vmalloc E) :
    (s.unlinkNode prev n).node =
      Function.update s.node prev { s.node prev with next := s.next n } := by
  rw [unlinkNode]
  split <;> rfl

/-- Unlinking keeps every field of a node but its link. -/
theorem field_unlinkNode {α : Type} (f : HeapBitmapNode → α)
    (hf : ∀ x a, f { x with next := a } = f x) (prev n m : U64) (s : Vmalloc E) :
    f ((s.unlinkNode prev n).node m) = f (s.node m) := by
  rw [unlinkNode_node,Function.update_apply]
  split
  · rename_i hm
    rw [hf,hm]
  · rfl

theorem bitmapSize_unlinkNode (prev n m : U64) (s : Vmalloc E) :
    ((s.unlinkNode prev n).node m).bitmapSize = (s.node m).bitmapSize :=
  field_unlinkNode (·.bitmapSize) (fun _ _ => rfl) prev n m s

theorem totalSize_unlinkNode (prev n m : U64) (s : Vmalloc E) :
    ((s.unlinkNode prev n).node m).totalSize = (s.node m).totalSize :=
  field_unlinkNode (·.totalSize) (fun _ _ => rfl) prev n m s

theorem unlinkNode_rest (prev n : U64) (s : Vmalloc E) :
    (s.unlinkNode prev n).heapHead = s.heapHead ∧ (s.unlinkNode prev n).bytes = s.bytes ∧
      (s.unlinkNode prev n).env = s.env := by
  rw [unlinkNode]
  split <;> exact ⟨rfl,rfl,rfl⟩

/-- A node without blocks can be unlinked and given back. -/
theorem Accounts.unlink {prev n : U64} {e : E}
    (h : Accounts sup held s (l₁ ++ prev :: n :: l₂) bs) (hempty : ∀ b ∈ bs, b.node ≠ n)
    (hdone : calls.vmmFree n s.env = .done () e) :
    Accounts sup (held.erase (n,ceilU64Div (s.node n).totalSize pageSize))
      { s.unlinkNode prev n with env := e } (l₁ ++ prev :: l₂) bs := by
  obtain ⟨hhead,hbytes,-⟩ := unlinkNode_rest prev n s
  have hmem : ∀ m, m ∈ l₁ ++ prev :: l₂ → m ∈ l₁ ++ prev :: n :: l₂ ∧ m ≠ n := by
    intro m hm
    have hnd := h.linked.nodup
    rw [show l₁ ++ prev :: n :: l₂ = (l₁ ++ [prev]) ++ n :: l₂ by simp] at hnd
    have hn : n ∉ (l₁ ++ [prev]) ++ l₂ := (List.nodup_cons.mp (List.nodup_middle.mp hnd)).1
    refine ⟨?_,fun he => hn (by simpa [he] using hm)⟩
    simp only [List.mem_append,List.mem_cons] at hm ⊢
    tauto
  have hbits (m : U64) := bitmapSize_unlinkNode prev n m s
  have htotal (m : U64) := totalSize_unlinkNode prev n m s
  have hmap (m : U64) := field_unlinkNode (·.mem) (fun _ _ => rfl) prev n m s
  have hptr (b : HeapBlock) : ({ s.unlinkNode prev n with env := e } : Vmalloc E).pointer b =
      s.pointer b := by
    simp only [pointer,dataStart,hbits]
  have hsplit : l₁ ++ prev :: n :: l₂ = (l₁ ++ [prev]) ++ n :: l₂ := by simp
  refine ⟨⟨sup.vmmFree h.supply (h.owned n (by simp)) hdone,?_,?_,fun m hm => ?_,fun m hm => ?_⟩,
    fun b hb => ?_,fun b hb => ?_,fun m hm j hj => ?_,h.disjoint⟩
  · have hprev : prev ≠ 0#64 := fun h0 => h.linked.2 (by simp [h0])
    have hlinked := (hsplit ▸ h.linked).unlink (q := prev) (List.getLastD_concat ..).symm
    rw [if_pos hprev,if_pos hprev,List.append_assoc] at hlinked
    have hnext : ({ s.unlinkNode prev n with env := e } : Vmalloc E).next =
        Function.update s.next prev (s.next n) := by
      funext m
      simp only [next,unlinkNode_node,Function.update_apply]
      split <;> rfl
    rw [hnext,show ({ s.unlinkNode prev n with env := e } : Vmalloc E).heapHead = _ from hhead]
    exact hlinked
  · have htail := h.tail
    simp only [unlinkNode_tail]
    rw [List.getLast?_append,List.getLast?_cons_cons] at htail
    rw [List.getLast?_append]
    cases l₂ with
    | nil =>
      obtain rfl : n = s.heapTail := by simpa using htail
      simp
    | cons m l₂ =>
      rw [List.getLast?_cons_cons] at htail ⊢
      have hlast : (m :: l₂).getLast? = some s.heapTail := by
        simpa [List.getLast?_cons] using htail
      have hne := (hmem s.heapTail (by simp [List.mem_of_getLast? hlast])).2
      rw [if_neg hne,hlast]
      rfl
  · obtain ⟨k,hk⟩ := h.sized m (hmem m hm).1
    exact ⟨k,hk.congr (hbits m) (htotal m)⟩
  · simp only [htotal]
    exact (Multiset.mem_erase_of_ne (fun he => (hmem m hm).2 (Prod.mk.inj he).1)).mpr
      (h.owned m (hmem m hm).1)
  · have hp := h.placed b hb
    refine ⟨?_,hp.size,by simp only [hbits]; exact hp.fits⟩
    have hnode := hp.node
    have hne := hempty b hb
    simp only [List.mem_append,List.mem_cons] at hnode ⊢
    tauto
  · rw [hptr,getBlockSize,hbytes]
    exact h.header b hb
  · simp only [hbits] at hj
    simp only [hmap]
    exact h.bits m (hmem m hm).1 j hj

/-- What `vfree` of a block does: its sections and no others are cleared; then the call
returns, or it is the call of `vmm_free` for the node. The second happens only to a node
that is not the first one and holds no other block. -/
def Freed (calls : VmmCalls E) (s : Vmalloc E) (l : List U64) (bs : Finset HeapBlock)
    (b : HeapBlock) (x : Outcome (Vmalloc E) Unit) : Prop :=
  ∃ mem : ℕ → U8,
    (∀ j, bitAt mem j = if b.range.Has j then false else bitAt (s.node b.node).mem j) ∧
    (((b.node = s.heapHead ∨ ∃ c ∈ bs, c ≠ b ∧ c.node = b.node) ∧
        x = .done () (s.modifyNode b.node fun y => { y with mem := mem })) ∨
      (b.node ≠ s.heapHead ∧ (∀ c ∈ bs, c.node = b.node → c = b) ∧
        ∃ l₁ prev l₂, l = l₁ ++ prev :: b.node :: l₂ ∧
          x = (envLens E).lift (calls.vmmFree b.node)
            ((s.modifyNode b.node fun y => { y with mem := mem }).unlinkNode prev b.node)))

theorem releaseIfUnused_of_unused {prev n : U64} (hne : prev ≠ n) (hprev : prev ≠ 0#64)
    (hnext : s.next prev = n) (hunused : s.inUse n = false) :
    releaseIfUnused calls prev n s =
      (envLens E).lift (calls.vmmFree n) (s.unlinkNode prev n) := by
  rw [releaseIfUnused,if_neg hne,if_neg hprev,if_neg (not_not.mpr hnext),hunused]
  rfl

/-- Giving back an outstanding block, for any amount of fuel. -/
theorem Accounts.vfree_eq (h : Accounts sup held s l bs) (hb : b ∈ bs) (fuel : ℕ) :
    (fuel ≤ l.length + (s.node b.node).bitmapSize.toNat ∧
      Vmalloc.vfree calls fuel (s.pointer b) s = .spin) ∨
    Freed calls s l bs b (Vmalloc.vfree calls fuel (s.pointer b) s) := by
  have hp := h.placed b hb
  obtain ⟨k,hk⟩ := h.sized _ hp.node
  have hfits := hp.fits
  have hsmall := hk.small
  have hoff := h.bitmapOffset hp
  have hsize := h.header b hb
  have hpos := hp.size
  have hloop := @Nodes.vfreeLoop_eq _ _ _ _ s [] l b (s.getBlockSize (s.pointer b)) s.heapHead fuel
    h.toNodes hp h.linked hp.node
  rw [Vmalloc.vfree]
  obtain ⟨hfuel,hspin⟩ | ⟨m₁,m₂,fuel',hl,hfuel,heq⟩ := hloop
  · exact .inl ⟨by omega,hspin⟩
  rw [List.nil_append] at hl
  rw [show vfreeLoop calls (s.pointer b - 8#64) (s.getBlockSize (s.pointer b)) fuel s.heapHead
    s.heapHead s = _ from heq]
  rw [hk.bits] at hfits
  obtain ⟨hfuel',hnone⟩ | ⟨-,mem,hsome,hmem⟩ :=
    @markBitmap_eq (s.node b.node).mem false ((s.pointer b - 8#64 - s.dataStart b.node) / 8#64)
      (s.getBlockSize (s.pointer b)) fuel' (by omega) (by omega)
  · refine .inl ⟨?_,by rw [markNode,hnone]; rfl⟩
    rw [hoff,hsize,Markable] at hfuel'
    rw [hk.bits]
    omega
  rw [hoff,hsize] at hmem
  have hacc := h.erase hb hmem
  refine .inr ⟨mem,hmem,?_⟩
  rw [markNode,hsome,Outcome.bind_done]
  have hsame := sameNodes_setMem s b.node mem
  rcases List.eq_nil_or_concat m₁ with rfl | ⟨l₁,prev,hm⟩
  · have hhead : s.heapHead = b.node := (linked_cons.mp (hl ▸ h.linked)).1
    refine .inl ⟨.inl hhead.symm,?_⟩
    rw [releaseIfUnused]
    exact if_pos rfl
  rw [List.concat_eq_append] at hm
  rw [hm,List.append_assoc] at hl
  rw [hm,List.getLastD_concat]
  have hlist := hacc.linked
  rw [hl] at hlist
  have hprev : prev ≠ 0#64 := fun h0 => hlist.2 (by simp [h0])
  have hne : prev ≠ b.node := hlist.ne_next
  cases huse : (s.modifyNode b.node fun x => { x with mem := mem }).inUse b.node with
  | true =>
    obtain ⟨c,hc,hcn⟩ := (hacc.inUse_iff hp.node).mp huse
    refine .inl ⟨.inr ⟨c,Finset.mem_of_mem_erase hc,Finset.ne_of_mem_erase hc,hcn⟩,?_⟩
    rw [releaseIfUnused,if_neg hne,if_neg hprev,if_neg (not_not.mpr hlist.next_eq),huse]
    rfl
  | false =>
    refine .inr ⟨hsame.head ▸ hlist.ne_head,fun c hc hcn => ?_,l₁,prev,m₂,hl,
      releaseIfUnused_of_unused hne hprev hlist.next_eq huse⟩
    by_contra hcb
    have hused := (hacc.inUse_iff hp.node).mpr ⟨c,Finset.mem_erase.mpr ⟨hcb,hc⟩,hcn⟩
    rw [huse] at hused
    exact Bool.false_ne_true hused

/-- A call of `vfree` that returns accounts for one block less. -/
theorem Accounts.vfree {fuel : ℕ} (h : Accounts sup held s l bs) (hb : b ∈ bs)
    (hdone : Vmalloc.vfree calls fuel (s.pointer b) s = .done () t) :
    ∃ held' l', Accounts sup held' t l' (bs.erase b) ∧
      (∀ n, (t.node n).bitmapSize = (s.node n).bitmapSize) ∧
      (∀ n, (t.node n).totalSize = (s.node n).totalSize) := by
  obtain ⟨-,hspin⟩ | ⟨mem,hmem,hcase⟩ := h.vfree_eq hb fuel
  · rw [hspin] at hdone
    cases hdone
  have hacc := h.erase hb hmem
  have hsame := sameNodes_setMem s b.node mem
  obtain ⟨-,heq⟩ | ⟨hhead,hlast,l₁,prev,l₂,rfl,heq⟩ := hcase
  · rw [heq] at hdone
    obtain ⟨-,rfl⟩ := Outcome.done.inj hdone
    exact ⟨held,l,hacc,hsame.bits,hsame.total⟩
  · rw [heq] at hdone
    obtain ⟨e,hfree,rfl⟩ := Lens.lift_eq_done.mp hdone
    obtain ⟨-,-,henv⟩ := unlinkNode_rest prev b.node
      (s.modifyNode b.node fun y => { y with mem := mem })
    rw [show (envLens E).get _ = _ from henv] at hfree
    refine ⟨_,l₁ ++ prev :: l₂,hacc.unlink (fun c hc hcn => ?_) hfree,fun n => ?_,fun n => ?_⟩
    · exact Finset.ne_of_mem_erase hc (hlast c (Finset.mem_of_mem_erase hc) hcn)
    · exact (bitmapSize_unlinkNode ..).trans (hsame.bits n)
    · exact (totalSize_unlinkNode ..).trans (hsame.total n)

end Vmalloc

end Lios

import Lios.Lib.Runs
import Lios.Mem.VmallocGrow
import Lios.Mem.VmallocRelease

/-! # Runs of the heap

A caller allocates, reallocates and frees, and writes the payload of the blocks it
holds. In every state that it reaches the used bits of the bitmaps are the sections of
its blocks, and each of its pointers can be given back.
-/
namespace Lios
namespace Vmalloc
variable {E : Type} {calls : VmmCalls E}

inductive HeapCall where
  | vmalloc (size : U64)
  | vcalloc (size : U64)
  | vrealloc (ptr newSize : U64)
  | vfree (ptr : U64)
  | write (ptr i : U64) (v : U8)

/-- The heap and the pointers that its caller holds. -/
structure HeapSession (E : Type) where
  heap : Vmalloc E
  out : Multiset U64

/-- A completed call, or a write into the payload of a block. -/
inductive HeapStep (calls : VmmCalls E) : HeapSession E → HeapCall → HeapSession E → Prop
  | vmalloc {x : HeapSession E} {fuel : ℕ} {size p : U64} {t : Vmalloc E}
      (hdone : Vmalloc.vmalloc calls fuel size x.heap = .done p t) :
      HeapStep calls x (.vmalloc size) ⟨t,p ::ₘ x.out⟩
  | vcalloc {x : HeapSession E} {fuel : ℕ} {size p : U64} {t : Vmalloc E}
      (hdone : Vmalloc.vcalloc calls fuel size x.heap = .done p t) :
      HeapStep calls x (.vcalloc size) ⟨t,p ::ₘ x.out⟩
  | vrealloc {x : HeapSession E} {fuel : ℕ} {ptr newSize p : U64} {t : Vmalloc E}
      (hout : ptr ∈ x.out) (hdone : Vmalloc.vrealloc calls fuel ptr newSize x.heap = .done p t) :
      HeapStep calls x (.vrealloc ptr newSize) ⟨t,p ::ₘ x.out.erase ptr⟩
  | vfree {x : HeapSession E} {fuel : ℕ} {ptr : U64} {t : Vmalloc E}
      (hout : ptr ∈ x.out) (hdone : Vmalloc.vfree calls fuel ptr x.heap = .done () t) :
      HeapStep calls x (.vfree ptr) ⟨t,x.out.erase ptr⟩
  | write {x : HeapSession E} {ptr i : U64} {v : U8} (hout : ptr ∈ x.out)
      (hi : i.toNat + 8 < 8 * (x.heap.getBlockSize ptr).toNat) :
      HeapStep calls x (.write ptr i v)
        ⟨{ x.heap with bytes := Function.update x.heap.bytes (ptr + i) v },x.out⟩

/-- The sizes of the call are small. -/
def HeapCall.Small : HeapCall → Prop
  | .vmalloc size => Vmalloc.Small size
  | .vcalloc size => Vmalloc.Small size
  | .vrealloc _ newSize => Vmalloc.Small newSize
  | .vfree _ => True
  | .write _ _ _ => True

section Account
variable {sup : BlockSupply calls} {held : Multiset (U64 × U64)} {s t : Vmalloc E} {l : List U64}
  {bs : Finset HeapBlock} {b : HeapBlock} {x y : HeapSession E}

theorem Accounts.pointer_injective (h : Accounts sup held s l bs) :
    ∀ b ∈ bs, ∀ c ∈ bs, s.pointer b = s.pointer c → b = c := by
  intro b hb c hc hp
  by_contra hne
  have hbp := h.placed b hb
  have hcp := h.placed c hc
  have hap := h.blocks_apart hbp hcp (h.ranges_apart hb hc hne)
  have hbs := hbp.size
  have hcs := hcp.size
  rw [hp] at hap
  omega

/-- Writes into the payload of a block keep the account. -/
theorem Accounts.writePayload {bytes : U64 → U8} (h : Accounts sup held s l bs) (hb : b ∈ bs)
    (hbytes : ∀ a : U64, a.toNat < (s.pointer b).toNat ∨
      (s.pointer b).toNat + 8 * b.range.size ≤ a.toNat + 8 → bytes a = s.bytes a) :
    Accounts sup held { s with bytes := bytes } l bs := by
  refine h.setBytes fun c hc a hlo hhi => hbytes a ?_
  by_cases hbc : b = c
  · rw [hbc]
    exact .inl hhi
  · have hap := h.blocks_apart (h.placed b hb) (h.placed c hc) (h.ranges_apart hb hc hbc)
    omega

/-- The account of a session. -/
structure Accounted (sup : BlockSupply calls) (x : HeapSession E) (held : Multiset (U64 × U64))
    (l : List U64) (bs : Finset HeapBlock) : Prop where
  account : Accounts sup held x.heap l bs
  out : x.out = bs.val.map x.heap.pointer

theorem Accounted.exists_block {p : U64} (h : Accounted sup x held l bs) (hp : p ∈ x.out) :
    ∃ b ∈ bs, x.heap.pointer b = p := by
  rw [h.out,Multiset.mem_map] at hp
  exact hp

theorem pointer_congr (hbits : (t.node b.node).bitmapSize = (s.node b.node).bitmapSize) :
    t.pointer b = s.pointer b := by
  rw [pointer,pointer,dataStart,dataStart,hbits]

theorem Allocated.out_eq {n p : U64} {l' : List U64} {held' : Multiset (U64 × U64)}
    (h : Accounts sup held s l bs) (ha : Allocated sup s l bs n p t held' l' b) :
    p ::ₘ bs.val.map s.pointer = (insert b bs).val.map t.pointer := by
  rw [Finset.insert_val_of_notMem ha.fresh,Multiset.map_cons,ha.pointer]
  refine congrArg (t.pointer b ::ₘ ·) (Multiset.map_congr rfl fun c hc => ?_)
  exact (pointer_congr (ha.bits _ (h.placed c hc).node)).symm

/-- An allocated block has room for the bytes asked for behind its header. -/
theorem Allocated.size_le {n p : U64} {l' : List U64} {held' : Multiset (U64 × U64)}
    (ha : Allocated sup s l bs n p t held' l' b) : n.toNat + 8 ≤ 8 * b.range.size := by
  obtain ⟨start,-,hrange,-⟩ | ⟨-,-,hrange⟩ := ha.lands
  · rw [hrange]
    simp only [sectionsFor]
    omega
  · have hretry := sectionsFor_le_retryFor n.toNat
    rw [sectionsFor] at hretry
    rw [hrange]
    dsimp only
    omega

theorem Accounted.vmalloc {fuel : ℕ} {n p : U64} (h : Accounted sup x held l bs)
    (hn : Vmalloc.Small n) (hdone : Vmalloc.vmalloc calls fuel n x.heap = .done p t) :
    ∃ held' l' b, Allocated sup x.heap l bs n p t held' l' b ∧
      Accounted sup ⟨t,p ::ₘ x.out⟩ held' l' (insert b bs) := by
  obtain ⟨held',l',b,ha⟩ := h.account.vmalloc hn hdone
  refine ⟨held',l',b,ha,ha.account,?_⟩
  dsimp only
  rw [h.out]
  exact ha.out_eq h.account

theorem Accounted.setBytes {bytes : U64 → U8} (h : Accounted sup x held l bs) (hb : b ∈ bs)
    (hbytes : ∀ a : U64, a.toNat < (x.heap.pointer b).toNat ∨
      (x.heap.pointer b).toNat + 8 * b.range.size ≤ a.toNat + 8 → bytes a = x.heap.bytes a) :
    Accounted sup ⟨{ x.heap with bytes := bytes },x.out⟩ held l bs :=
  ⟨h.account.writePayload hb hbytes,h.out⟩

/-- An address outside a range is at least its length away from its start. -/
theorem le_sub_of_outside {a p : U64} {len : ℕ} (hp : p.toNat + len ≤ 2 ^ 64)
    (h : a.toNat < p.toNat ∨ p.toNat + len ≤ a.toNat) : len ≤ (a - p).toNat := by
  by_contra hlt
  rw [not_le,sub_lt_iff hp] at hlt
  omega

theorem Accounted.vfree {fuel : ℕ} {p : U64} (h : Accounted sup x held l bs) (hb : b ∈ bs)
    (hp : x.heap.pointer b = p) (hdone : Vmalloc.vfree calls fuel p x.heap = .done () t) :
    ∃ held' l', Accounted sup ⟨t,x.out.erase p⟩ held' l' (bs.erase b) ∧
      (∀ n, (t.node n).bitmapSize = (x.heap.node n).bitmapSize) ∧
      ∀ n, (t.node n).totalSize = (x.heap.node n).totalSize := by
  rw [← hp] at hdone
  obtain ⟨held',l',hacc,hbits,htotal⟩ := h.account.vfree hb hdone
  refine ⟨held',l',⟨hacc,?_⟩,hbits,htotal⟩
  dsimp only
  rw [h.out,← hp,Finset.erase_val,← Multiset.map_erase_of_mem _ _ hb]
  exact Multiset.map_congr rfl fun c _ => (pointer_congr (hbits _)).symm

/-- The size for which a call allocates a block. -/
def HeapCall.asks : HeapCall → Option U64
  | .vmalloc size => some size
  | .vcalloc size => some size
  | .vrealloc _ newSize => some newSize
  | .vfree _ => none
  | .write _ _ _ => none

theorem HeapCall.Small.of_asks {c : HeapCall} {n : U64} (h : c.Small) (hn : c.asks = some n) :
    Vmalloc.Small n := by
  cases c with
  | vmalloc size => exact Option.some.inj hn ▸ h
  | vcalloc size => exact Option.some.inj hn ▸ h
  | vrealloc ptr newSize => exact Option.some.inj hn ▸ h
  | vfree ptr => cases hn
  | write ptr i v => cases hn

/-- The blocks after a step are blocks from before it, in nodes of the same size, and the one
that the step asks for. -/
structure Evolves (s : Vmalloc E) (l : List U64) (bs : Finset HeapBlock) (ask : Option U64)
    (t : Vmalloc E) (bs' : Finset HeapBlock) : Prop where
  old : ∀ c ∈ bs', (c ∈ bs ∧ (t.node c.node).bitmapSize = (s.node c.node).bitmapSize ∧
      (t.node c.node).totalSize = (s.node c.node).totalSize) ∨
    ∃ n, ask = some n ∧ Lands s l n c t
  new : ∀ n, ask = some n → ∃ b ∈ bs', Lands s l n b t

theorem Lands.congr {n : U64} {u : Vmalloc E} (h : Lands s l n b t)
    (hbits : (u.node b.node).bitmapSize = (t.node b.node).bitmapSize)
    (htotal : (u.node b.node).totalSize = (t.node b.node).totalSize) : Lands s l n b u := by
  obtain ⟨start,hfound,hrange,hb,ht⟩ | ⟨hnone,hk,hrange⟩ := h
  · exact .inl ⟨start,hfound,hrange,hbits.trans hb,htotal.trans ht⟩
  · exact .inr ⟨hnone,hk.congr hbits htotal,hrange⟩

theorem Allocated.evolves {n p : U64} {l' : List U64} {held' : Multiset (U64 × U64)}
    (h : Accounts sup held s l bs) (ha : Allocated sup s l bs n p t held' l' b) :
    Evolves s l bs (some n) t (insert b bs) := by
  refine ⟨fun c hc => ?_,fun m hm => ⟨b,Finset.mem_insert_self b bs,?_⟩⟩
  · rcases Finset.mem_insert.mp hc with rfl | hc
    · exact .inr ⟨n,rfl,ha.lands⟩
    · have hnode := (h.placed c hc).node
      exact .inl ⟨hc,ha.bits _ hnode,ha.total _ hnode⟩
  · obtain rfl := Option.some.inj hm
    exact ha.lands

theorem Evolves.setBytes {ask : Option U64} {bs' : Finset HeapBlock} {bytes : U64 → U8}
    (h : Evolves s l bs ask t bs') : Evolves s l bs ask { t with bytes := bytes } bs' :=
  ⟨h.old,h.new⟩

/-- The bytes asked for of a new block are filled. -/
theorem Allocated.fill {n p : U64} {l' : List U64} {held' : Multiset (U64 × U64)}
    {out : Multiset U64} {len : ℕ} {bytes : U64 → U8}
    (ha : Allocated sup s l bs n p t held' l' b)
    (hacc : Accounted sup ⟨t,out⟩ held' l' (insert b bs)) (hlen : len ≤ n.toNat)
    (hbytes : ∀ a : U64, len ≤ (a - p).toNat → bytes a = t.bytes a) :
    Accounted sup ⟨{ t with bytes := bytes },out⟩ held' l' (insert b bs) := by
  have hself := Finset.mem_insert_self b bs
  refine hacc.setBytes hself fun a hout => hbytes a ?_
  have hsize := ha.size_le
  obtain ⟨-,hhi⟩ := ha.account.pointer_bounds (ha.account.placed b hself)
  dsimp only at hout
  rw [← ha.pointer] at hout hhi
  exact le_sub_of_outside (by omega) (by omega)

/-- An old block is given back after a new one was allocated. -/
theorem Allocated.evolves_erase {n p : U64} {l' : List U64} {held' : Multiset (U64 × U64)}
    {c : HeapBlock} {u : Vmalloc E} (h : Accounts sup held s l bs)
    (ha : Allocated sup s l bs n p t held' l' b) (hc : c ∈ bs)
    (hbits : ∀ m, (u.node m).bitmapSize = (t.node m).bitmapSize)
    (htotal : ∀ m, (u.node m).totalSize = (t.node m).totalSize) :
    Evolves s l bs (some n) u ((insert b bs).erase c) := by
  refine ⟨fun d hd => ?_,fun m hm => ?_⟩
  · rcases (ha.evolves h).old d (Finset.mem_of_mem_erase hd) with ⟨hd,hb,ht⟩ | ⟨m,hm,hlands⟩
    · exact .inl ⟨hd,(hbits _).trans hb,(htotal _).trans ht⟩
    · exact .inr ⟨m,hm,hlands.congr (hbits _) (htotal _)⟩
  · obtain rfl := Option.some.inj hm
    refine ⟨b,Finset.mem_erase.mpr ⟨fun hbc => ha.fresh (hbc ▸ hc),Finset.mem_insert_self b bs⟩,?_⟩
    exact ha.lands.congr (hbits _) (htotal _)

theorem Accounted.vrealloc {fuel : ℕ} {ptr n p : U64} (h : Accounted sup x held l bs)
    (hn : Vmalloc.Small n) (hout : ptr ∈ x.out)
    (hdone : Vmalloc.vrealloc calls fuel ptr n x.heap = .done p t) :
    ∃ held' l' bs', Accounted sup ⟨t,p ::ₘ x.out.erase ptr⟩ held' l' bs' ∧
      Evolves x.heap l bs (some n) t bs' := by
  obtain ⟨q,u,halloc,hdone⟩ := Outcome.bind_eq_done.mp hdone
  obtain ⟨_,v,hfree,hdone⟩ := Outcome.bind_eq_done.mp hdone
  obtain ⟨rfl,rfl⟩ := Outcome.done.inj hdone
  obtain ⟨held',l',b,ha,hacc⟩ := h.vmalloc hn halloc
  obtain ⟨c,hc,rfl⟩ := h.exists_block hout
  have hself := Finset.mem_insert_self b bs
  have hold := Finset.mem_insert_of_mem (b := b) hc
  have hptr : u.pointer c = x.heap.pointer c :=
    pointer_congr (ha.bits _ (h.account.placed c hc).node)
  have hne : q ≠ x.heap.pointer c := by
    rw [ha.pointer,← hptr]
    intro hp
    exact ha.fresh (ha.account.pointer_injective b hself c hold hp ▸ hc)
  have hcopy := ha.fill hacc
    (u64Min_le_right (x.heap.getBlockSize (x.heap.pointer c) * 8#64) n)
    (fun a hout => memcpy_of_le (s := x.heap.pointer c) hout)
  obtain ⟨held₂,l₂,hfin,hbits,htotal⟩ := hcopy.vfree hold hptr hfree
  dsimp only at hfin hbits htotal
  rw [Multiset.erase_cons_tail _ hne] at hfin
  exact ⟨held₂,l₂,_,hfin,ha.evolves_erase h.account hc hbits htotal⟩

theorem Accounted.write {ptr i : U64} {v : U8} (h : Accounted sup x held l bs)
    (hout : ptr ∈ x.out) (hi : i.toNat + 8 < 8 * (x.heap.getBlockSize ptr).toNat) :
    Accounted sup ⟨{ x.heap with bytes := Function.update x.heap.bytes (ptr + i) v },x.out⟩
      held l bs := by
  obtain ⟨b,hb,rfl⟩ := h.exists_block hout
  refine h.setBytes hb fun a ha => Function.update_of_ne ?_ _ _
  obtain ⟨-,hhi⟩ := h.account.pointer_bounds (h.account.placed b hb)
  have hheader := h.account.header b hb
  have hadd : (x.heap.pointer b + i).toNat = (x.heap.pointer b).toNat + i.toNat := by
    rw [BitVec.toNat_add]
    omega
  rintro rfl
  omega

/-- Each step keeps the account. -/
theorem HeapStep.accounted {c : HeapCall} (h : Accounted sup x held l bs)
    (hs : HeapStep calls x c y) (hc : c.Small) :
    ∃ held' l' bs', Accounted sup y held' l' bs' ∧ Evolves x.heap l bs c.asks y.heap bs' := by
  cases hs with
  | vmalloc hdone =>
    obtain ⟨held',l',b,ha,hacc⟩ := h.vmalloc hc hdone
    exact ⟨held',l',_,hacc,ha.evolves h.account⟩
  | vcalloc hdone =>
    obtain ⟨_,u,halloc,hdone⟩ := Outcome.bind_eq_done.mp hdone
    obtain ⟨rfl,rfl⟩ := Outcome.done.inj hdone
    obtain ⟨held',l',b,ha,hacc⟩ := h.vmalloc hc halloc
    exact ⟨held',l',_,ha.fill hacc le_rfl fun a hout => memset_of_le hout,
      (ha.evolves h.account).setBytes⟩
  | vrealloc hout hdone => exact h.vrealloc hc hout hdone
  | vfree hout hdone =>
    obtain ⟨b,hb,hp⟩ := h.exists_block hout
    obtain ⟨held',l',hacc,hbits,htotal⟩ := h.vfree hb hp hdone
    exact ⟨held',l',_,hacc,fun c hc => .inl ⟨Finset.mem_of_mem_erase hc,hbits _,htotal _⟩,
      fun n hn => nomatch hn⟩
  | write hout hi =>
    exact ⟨held,l,bs,h.write hout hi,fun c hc => .inl ⟨hc,rfl,rfl⟩,fun n hn => nomatch hn⟩

end Account

/-- A heap above the allocator of the kernel, before `vmalloc_init`. -/
def heapStart : Vmalloc (Vmm ℕ) :=
  ⟨fun _ => ⟨0#64,0#64,0#64,fun _ => 0#8⟩,fun _ => 0#8,0#64,0#64,Vmm.pooled⟩

def poolVmm : VmmCalls (Vmm ℕ) := kernelVmmCalls Vmm.pagePool 200

def poolBlocks : BlockSupply poolVmm := kernelBlocks Vmm.pagePoolSupply 200

def heapReady : Vmalloc (Vmm ℕ) := (vmallocInit poolVmm heapStart).stateD heapStart

theorem heapReady_eq : vmallocInit poolVmm heapStart = .done () heapReady := by
  have hinit : (vmallocInit poolVmm heapStart).returned = some () := by decide +kernel
  exact Outcome.eq_done_of_returned hinit heapStart

/-- The pointer to the first block of the first node. -/
def firstPointer : U64 := 0xFFFFF0000000005F#64

def heapOne : HeapSession (Vmm ℕ) :=
  ⟨(vmalloc poolVmm 600 100#64 heapReady).stateD heapStart,{firstPointer}⟩

end Vmalloc

end Lios

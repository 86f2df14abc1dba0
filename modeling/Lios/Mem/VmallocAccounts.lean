import Lios.Mem.VmallocLevels

/-! # Accounting of the heap

The outstanding blocks are kept as a set. In every node the used bits are the
sections of its blocks, and the blocks do not share sections. Each operation moves
from one such account to the next.
-/
namespace Lios
namespace Vmalloc
variable {E : Type} {calls : VmmCalls E}

/-- The block is a row of sections of a node of the list. -/
structure Placed (s : Vmalloc E) (l : List U64) (b : HeapBlock) : Prop where
  node : b.node ∈ l
  size : 1 ≤ b.range.size
  fits : b.range.start + b.range.size ≤ (s.node b.node).bitmapSize.toNat

structure Accounts (sup : BlockSupply calls) (held : Multiset (U64 × U64)) (s : Vmalloc E)
    (l : List U64) (bs : Finset HeapBlock) : Prop extends Nodes sup held s l where
  placed : ∀ b ∈ bs, Placed s l b
  header : ∀ b ∈ bs, (s.getBlockSize (s.pointer b)).toNat = b.range.size
  bits : ∀ n ∈ l, ∀ j < (s.node n).bitmapSize.toNat,
    (bitAt (s.node n).mem j = true ↔ ∃ b ∈ bs, b.node = n ∧ b.range.Has j)
  disjoint : ∀ b ∈ bs, ∀ c ∈ bs, b.node = c.node → ∀ j, b.range.Has j → c.range.Has j → b = c

section Same
variable {sup : BlockSupply calls} {held : Multiset (U64 × U64)} {s t : Vmalloc E} {l : List U64}
  {bs : Finset HeapBlock}

theorem SameNodes.nodes (h : SameNodes s t) (hn : Nodes sup held s l) : Nodes sup held t l where
  supply := by
    rw [h.env]
    exact hn.supply
  linked := by
    rw [h.next,h.head]
    exact hn.linked
  tail := by rw [h.tail,hn.tail]
  sized n hmem := by
    obtain ⟨k,hk⟩ := hn.sized n hmem
    exact ⟨k,hk.congr (h.bits n) (h.total n)⟩
  owned n hmem := by
    rw [h.total]
    exact hn.owned n hmem

theorem SameNodes.placed {b : HeapBlock} (h : SameNodes s t) (hb : Placed s l b) :
    Placed t l b :=
  ⟨hb.node,hb.size,by rw [h.bits]; exact hb.fits⟩

end Same

section Addresses
variable {sup : BlockSupply calls} {held : Multiset (U64 × U64)} {s : Vmalloc E} {l : List U64}
  {bs : Finset HeapBlock} {b c : HeapBlock} {k : ℕ}

theorem Nodes.toNat_pointer (h : Nodes sup held s l) (hb : Placed s l b)
    (hk : Sized (s.node b.node) k) :
    (s.pointer b).toNat = b.node.toNat + 24 + 63 * k + 8 * b.range.start + 8 := by
  obtain ⟨-,-,hhi⟩ := h.bounds hb.node hk
  have hsmall := hk.small
  have hfits := hb.fits
  rw [hk.bits] at hfits
  have hstart : (BitVec.ofNat 64 b.range.start * 8#64).toNat = 8 * b.range.start := by
    rw [BitVec.toNat_mul,BitVec.toNat_ofNat,BitVec.toNat_ofNat]
    omega
  rw [pointer,BitVec.toNat_add,BitVec.toNat_add,h.toNat_dataStart hb.node hk,hstart,
    BitVec.toNat_ofNat]
  omega

theorem Nodes.pointer_bounds (h : Nodes sup held s l) (hb : Placed s l b) :
    4096 + 8 ≤ (s.pointer b).toNat ∧
      (s.pointer b).toNat + 8 * b.range.size ≤ 0xFFFFFFFF80000000 + 32 := by
  obtain ⟨k,hk⟩ := h.sized _ hb.node
  obtain ⟨hlo,-,hhi⟩ := h.bounds hb.node hk
  have hfits := hb.fits
  rw [hk.bits] at hfits
  have hsmall := hk.small
  have hsize := hb.size
  rw [h.toNat_pointer hb hk]
  omega

theorem Nodes.toNat_header (h : Nodes sup held s l) (hb : Placed s l b) :
    (s.pointer b - 8#64).toNat = (s.pointer b).toNat - 8 := by
  obtain ⟨hlo,-⟩ := h.pointer_bounds hb
  have hp := (s.pointer b).isLt
  rw [BitVec.toNat_sub,BitVec.toNat_ofNat]
  omega

/-- Blocks that share no section have different addresses, header included. -/
theorem Nodes.blocks_apart (h : Nodes sup held s l) (hb : Placed s l b) (hc : Placed s l c)
    (hap : b.node = c.node → b.range.Apart c.range) :
    (s.pointer b).toNat + 8 * b.range.size ≤ (s.pointer c).toNat ∨
      (s.pointer c).toNat + 8 * c.range.size ≤ (s.pointer b).toNat := by
  obtain ⟨k,hk⟩ := h.sized _ hb.node
  obtain ⟨j,hj⟩ := h.sized _ hc.node
  rw [h.toNat_pointer hb hk,h.toNat_pointer hc hj]
  have hbf := hb.fits
  have hcf := hc.fits
  rw [hk.bits] at hbf
  rw [hj.bits] at hcf
  have hkpos := hk.pos
  have hjpos := hj.pos
  by_cases hnode : b.node = c.node
  · have hkj : k = j := by
      have hbits := hk.bits
      rw [hnode,hj.bits] at hbits
      omega
    have hranges := hap hnode
    simp only [Block.Apart] at hranges
    rw [hnode,hkj]
    omega
  · have hnodes := h.apart hb.node hc.node hnode hk hj
    omega

theorem Accounts.ranges_apart (h : Accounts sup held s l bs) (hb : b ∈ bs) (hc : c ∈ bs)
    (hne : b ≠ c) (hnode : b.node = c.node) : b.range.Apart c.range :=
  Block.apart_of_disjoint (h.placed b hb).size (h.placed c hc).size
    (fun j hj hj' => hne (h.disjoint b hb c hc hnode j hj hj'))

/-- The size of a block is read from the eight bytes in front of it. -/
theorem Nodes.getBlockSize_congr {t : Vmalloc E} (h : Nodes sup held s l) (hb : Placed s l b)
    (hbytes : ∀ x : U64, (s.pointer b).toNat ≤ x.toNat + 8 → x.toNat < (s.pointer b).toNat →
      t.bytes x = s.bytes x) :
    t.getBlockSize (s.pointer b) = s.getBlockSize (s.pointer b) := by
  refine load_congr fun x hx => ?_
  obtain ⟨hlo,hhi⟩ := h.pointer_bounds hb
  have hp := (s.pointer b).isLt
  have hhead := h.toNat_header hb
  rw [sub_lt_iff (by omega),hhead] at hx
  exact hbytes x (by omega) (by omega)

/-- Writes outside the headers keep the account. -/
theorem Accounts.setBytes (h : Accounts sup held s l bs) {bytes : U64 → U8}
    (hbytes : ∀ b ∈ bs, ∀ x : U64, (s.pointer b).toNat ≤ x.toNat + 8 →
      x.toNat < (s.pointer b).toNat → bytes x = s.bytes x) :
    Accounts sup held { s with bytes := bytes } l bs := by
  have hsame := sameNodes_setBytes s bytes
  refine ⟨hsame.nodes h.toNodes,fun b hb => hsame.placed (h.placed b hb),fun b hb => ?_,h.bits,
    h.disjoint⟩
  rw [hsame.pointer,h.getBlockSize_congr (h.placed b hb) (hbytes b hb),h.header b hb]

end Addresses

section Place
variable {sup : BlockSupply calls} {held : Multiset (U64 × U64)} {s t : Vmalloc E} {l : List U64}
  {bs : Finset HeapBlock} {b : HeapBlock}

/-- Marking a free row and writing its header accounts for one more block. -/
theorem Accounts.place {n start needed : U64} (h : Accounts sup held s l bs) (hn : n ∈ l)
    (hneeded : 1 ≤ needed.toNat)
    (hfit : FitsAt (bitAt (s.node n).mem) (s.node n).bitmapSize.toNat needed.toNat start.toNat)
    (ht : Reserved s n start needed t) (hb : b = ⟨n,⟨start.toNat,needed.toNat⟩⟩) :
    Accounts sup held t l (insert b bs) ∧ b ∉ bs ∧
      t.pointer b = t.dataStart n + start * 8#64 + 8#64 := by
  have hplaced : Placed s l b := by
    rw [hb]
    exact ⟨hn,hneeded,hfit.1⟩
  have hfree : ∀ c ∈ bs, c.node = n → ∀ j, b.range.Has j → ¬ c.range.Has j := by
    intro c hc hcn j hj hcj
    rw [hb] at hj
    have hused := (h.bits n hn j (by have := hfit.1; have := hj.2; simp only at this; omega)).mpr
      ⟨c,hc,hcn,hcj⟩
    rw [hfit.2 j hj.1 hj.2] at hused
    exact Bool.false_ne_true hused
  have hnew : b ∉ bs := by
    intro hmem
    have hfirst : b.range.Has b.range.start := ⟨le_rfl,by have := hplaced.size; omega⟩
    exact hfree b hmem (by rw [hb]) _ hfirst hfirst
  have hsame := ht.same
  have hptr : s.pointer b = s.dataStart n + start * 8#64 + 8#64 := by
    rw [hb,pointer,BitVec.ofNat_toNat,BitVec.setWidth_eq]
  have haddr : s.dataStart n + start * 8#64 = s.pointer b - 8#64 := by
    rw [hptr,BitVec.add_sub_cancel]
  have hbytes := ht.bytes
  rw [haddr] at hbytes
  have hhead := h.toNat_header hplaced
  obtain ⟨hlo,hhi⟩ := h.pointer_bounds hplaced
  have hkeep : ∀ c ∈ bs, ∀ x : U64, (s.pointer c).toNat ≤ x.toNat + 8 →
      x.toNat < (s.pointer c).toNat → t.bytes x = s.bytes x := by
    intro c hc x hx hx'
    have hcp := h.placed c hc
    have hcs := hcp.size
    have hbs := hplaced.size
    have hap := h.blocks_apart hplaced hcp (fun he => Block.apart_of_disjoint hbs hcs
      (fun j hj hj' => hfree c hc (by rw [← he,hb]) j hj hj'))
    rw [hbytes]
    refine store_of_le ?_
    rw [length_wordBytes]
    by_contra hlt
    rw [not_le,sub_lt_iff (by omega),hhead] at hlt
    omega
  refine ⟨⟨hsame.nodes h.toNodes,fun c hc => ?_,fun c hc => ?_,fun m hm j hj => ?_,
    fun c hc d hd => ?_⟩,hnew,by rw [hsame.pointer,hsame.dataStart,hptr]⟩
  · rcases Finset.mem_insert.mp hc with rfl | hc
    · exact hsame.placed hplaced
    · exact hsame.placed (h.placed c hc)
  · rw [hsame.pointer]
    rcases Finset.mem_insert.mp hc with rfl | hc
    · rw [getBlockSize,hbytes,load_store (by decide),hb]
    · rw [h.getBlockSize_congr (h.placed c hc) (hkeep c hc),h.header c hc]
  · rw [hsame.bits] at hj
    simp only [Finset.exists_mem_insert]
    by_cases hmn : m = n
    · subst hmn
      rw [ht.mem,marked,hb]
      simp only [Block.Has]
      by_cases hrange : start.toNat ≤ j ∧ j < start.toNat + needed.toNat
      · simp [hrange]
      · simp only [hrange,↓reduceIte,true_and,false_or]
        exact h.bits m hm j hj
    · rw [ht.others m hmn,h.bits m hm j hj,hb]
      simp [Ne.symm hmn]
  · intro hnode j hj hj'
    rcases Finset.mem_insert.mp hc with rfl | hcold
    · rcases Finset.mem_insert.mp hd with rfl | hdold
      · rfl
      · exact absurd hj' (hfree d hdold (by rw [← hnode,hb]) j hj)
    · rcases Finset.mem_insert.mp hd with rfl | hdold
      · exact absurd hj (hfree c hcold (by rw [hnode,hb]) j hj')
      · exact h.disjoint c hcold d hdold hnode j hj hj'

end Place

section AddBlock
variable {sup : BlockSupply calls} {held : Multiset (U64 × U64)} {s t : Vmalloc E} {l : List U64}
  {bs : Finset HeapBlock} {w addr : U64} {e : E} {k : ℕ}

theorem sized_freshNode (x : HeapBitmapNode) (hk : 1 ≤ k) (hsmall : 504 * k < 2 ^ 35)
    (hw : w.toNat = 504 * k) : Sized (freshNode w x) k := by
  have hbytes : (ceilU64Div w 8#64).toNat = 63 * k := by
    rw [toNat_ceilU64Div (by decide),hw,show (8#64).toNat = 8 from rfl]
    omega
  refine ⟨hk,hw,?_,hsmall⟩
  simp only [freshNode]
  rw [BitVec.toNat_add,BitVec.toNat_mul,hw,hbytes,BitVec.toNat_ofNat]
  omega

/-- The pages of a new node are outstanding. -/
theorem held_freshNode (x : HeapBitmapNode) (hsupply : sup.Held s.env held) (hk : 1 ≤ k)
    (hsmall : 504 * k < 2 ^ 35) (hw : w.toNat = 504 * k)
    (halloc : calls.vmmAlloc (ceilU64Div (w * 8#64 + ceilU64Div w 8#64) pageSize) s.env =
      .done addr e) :
    1 ≤ (ceilU64Div (freshNode w x).totalSize pageSize).toNat ∧
      sup.Held e ((addr,ceilU64Div (freshNode w x).totalSize pageSize) ::ₘ held) := by
  have hpages := toNat_pages (sized_freshNode x hk hsmall hw)
  rw [pagesFor] at hpages
  have hpos : 1 ≤ (ceilU64Div (freshNode w x).totalSize pageSize).toNat := by omega
  exact ⟨hpos,sup.vmmAlloc hsupply hpos (by omega) halloc⟩

theorem Nodes.notMem_of_alloc {pages : U64} (h : Nodes sup held s l)
    (hheld : sup.Held e ((addr,pages) ::ₘ held)) (hpos : 1 ≤ pages.toNat) : addr ∉ l := by
  intro hmem
  obtain ⟨k,hk⟩ := h.sized addr hmem
  have hap := sup.apart hheld (Multiset.mem_cons_self _ _) (by
    rw [Multiset.erase_cons_head]
    exact h.owned addr hmem)
  have hkpos := hk.pos
  simp only [Block.Apart,Vmm.outBlock] at hap
  rw [toNat_pages hk,pagesFor] at hap
  omega

theorem Nodes.heapList (h : Nodes sup held s l) : HeapList s l where
  linked := h.linked
  tail := by rw [h.tail,Option.getD_some]
  large n hn := by
    obtain ⟨k,hk⟩ := h.sized n hn
    have hkpos := hk.pos
    rw [hk.bits]
    omega

/-- A new node has no used sections and comes last. -/
theorem Accounts.addBlock (h : Accounts sup held s l bs) (hk : 1 ≤ k) (hsmall : 504 * k < 2 ^ 35)
    (hw : w.toNat = 504 * k) (hdone : addBlock calls w s = .done () t) :
    ∃ addr held', Accounts sup held' t (l ++ [addr]) bs ∧ addr ∉ l ∧ Sized (t.node addr) k ∧
      (∀ j < 504 * k, bitAt (t.node addr).mem j = false) ∧ Kept s t l ∧ t.bytes = s.bytes := by
  obtain ⟨addr,e,halloc,hne,-⟩ := addBlock_eq_done.mp hdone
  have hfresh := sized_freshNode (s.node addr) hk hsmall hw
  obtain ⟨hpos,hheld⟩ := held_freshNode (s.node addr) h.supply hk hsmall hw halloc
  have hnew : addr ∉ l := h.notMem_of_alloc hheld hpos
  obtain ⟨_,hadd,hgrown⟩ := h.heapList.addBlock (by omega) halloc hne hnew
  rw [hdone] at hadd
  obtain ⟨-,rfl⟩ := Outcome.done.inj hadd
  have hself := hgrown.fresh
  have hkept := hgrown.kept
  have hcases : ∀ n ∈ l ++ [addr], n ∈ l ∨ n = addr := fun n hn => by simpa using hn
  refine ⟨addr,_,⟨⟨by rw [hgrown.env]; exact hheld,hgrown.list.linked,?_,fun n hn => ?_,
    fun n hn => ?_⟩,fun b hb => ?_,fun b hb => ?_,fun n hn j hj => ?_,h.disjoint⟩,hnew,
    by rw [hself]; exact hfresh,fun j hj => ?_,hkept,hgrown.bytes⟩
  · rw [← hgrown.list.tail,List.getLast?_concat,Option.getD_some]
  · rcases hcases n hn with hn | rfl
    · obtain ⟨j,hj⟩ := h.sized n hn
      exact ⟨j,hj.congr (hkept.bits n hn) (hkept.total n hn)⟩
    · exact ⟨k,by rw [hself]; exact hfresh⟩
  · rcases hcases n hn with hn | rfl
    · rw [hkept.total n hn]
      exact Multiset.mem_cons_of_mem (h.owned n hn)
    · rw [hself]
      exact Multiset.mem_cons_self _ _
  · have hp := h.placed b hb
    exact ⟨List.mem_append_left _ hp.node,hp.size,by rw [hkept.bits _ hp.node]; exact hp.fits⟩
  · rw [hkept.pointer (h.placed b hb).node,← h.header b hb,getBlockSize,getBlockSize,hgrown.bytes]
  · rcases hcases n hn with hn | rfl
    · rw [hkept.bits n hn] at hj
      rw [hkept.mem n hn,h.bits n hn j hj]
    · rw [hself] at hj ⊢
      have hfree : bitAt (freshNode w (s.node n)).mem j = false := bitAt_freshNode _ hj
      rw [hfree]
      refine ⟨fun hf => absurd hf Bool.false_ne_true,?_⟩
      rintro ⟨b,hb,rfl,-⟩
      exact absurd (h.placed b hb).node hnew
  · rw [hself]
    exact bitAt_freshNode _ (by omega)

/-- The first node, before anything was allocated. -/
theorem accounts_vmallocInit (hhead : s.heapHead = 0#64) (htail : s.heapTail = 0#64)
    (hsupply : sup.Held s.env held) (hdone : vmallocInit calls s = .done () t) :
    ∃ addr held', Accounts sup held' t [addr] ∅ := by
  obtain ⟨addr,e,halloc,hne,-⟩ := addBlock_eq_done.mp hdone
  have hw : (504#64).toNat = 504 * 1 := rfl
  have hfresh := sized_freshNode (s.node addr) le_rfl (by decide) hw
  obtain ⟨-,hheld⟩ := held_freshNode (s.node addr) hsupply le_rfl (by decide) hw halloc
  have hempty : HeapList s [] := ⟨linked_nil.mpr hhead,htail.symm,by simp⟩
  obtain ⟨_,hadd,hgrown⟩ := hempty.addBlock (by decide) halloc hne (by simp)
  rw [vmallocInit,hadd] at hdone
  obtain ⟨-,rfl⟩ := Outcome.done.inj hdone
  have hself := hgrown.fresh
  refine ⟨addr,_,⟨⟨by rw [hgrown.env]; exact hheld,hgrown.list.linked,?_,fun n hn => ?_,
    fun n hn => ?_⟩,by simp,by simp,fun n hn j hj => ?_,by simp⟩⟩
  · rw [← hgrown.list.tail]
    rfl
  · obtain rfl := List.mem_singleton.mp hn
    exact ⟨1,by rw [hself]; exact hfresh⟩
  · obtain rfl := List.mem_singleton.mp hn
    rw [hself]
    exact Multiset.mem_cons_self _ _
  · obtain rfl := List.mem_singleton.mp hn
    rw [hself] at hj ⊢
    have hfree : bitAt (freshNode 504#64 (s.node n)).mem j = false := bitAt_freshNode _ hj
    simp [hfree]

end AddBlock

end Vmalloc

end Lios

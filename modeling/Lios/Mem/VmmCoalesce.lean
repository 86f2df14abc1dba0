import Lios.Lib.Gaps
import Lios.Mem.VmmRemove

/-! # Joining free blocks

When a block is given back to a list in which the free blocks have gaps between them, it is
joined with the one or two free blocks next to it, and otherwise gets the tail, which moves to
the front. So there are gaps between the free blocks again, and a block that fills a gap leaves
one block. The tail is empty again if the block was joined or the node before the tail is empty;
otherwise no empty node is at the end, and the next block without neighbours asks for a page.
-/
namespace Lios.Vmm
variable {E : Type} {calls : PageCalls E} {s t : Vmm E} {l : List U64} {x n m a z : U64}
variable {fuel : ℕ}

def block (s : Vmm E) (n : U64) : Block := ⟨(s.start n).toNat,(s.size n).toNat⟩

/-- The block is not empty and lies between the null address and the last one. -/
def Inside (b : Block) : Prop := 0 < b.start ∧ 0 < b.size ∧ b.start + b.size < 2 ^ 64

/-- The list is linked forth and back, and the blocks of the nodes that are not empty have gaps
between them. -/
structure FreeList (s : Vmm E) (l : List U64) : Prop where
  list : Doubly s l
  node : ∀ n ∈ l, s.block n = ⟨0,0⟩ ∨ Inside (s.block n)
  gapped : Gapped {n | n ∈ l} s.block

section Block

theorem block_setBlock : (s.setBlock n a z).block =
    Function.update s.block n ⟨a.toNat,z.toNat⟩ := by
  funext m
  rw [block,start_setBlock,size_setBlock]
  by_cases hm : m = n
  · rw [hm,Function.update_self,Function.update_self,Function.update_self]
  · rw [Function.update_of_ne hm,Function.update_of_ne hm,Function.update_of_ne hm,block]

theorem Doubly.setBlock (h : Doubly s l) (n a z : U64) : Doubly (s.setBlock n a z) l := by
  refine ⟨?_,?_,h.tail⟩
  · rw [next_setBlock]
    exact h.linked
  · rw [prev_setBlock]
    exact h.backed

theorem Inside.toNat_add (h : Inside ⟨a.toNat,z.toNat⟩) : (a + z).toNat = a.toNat + z.toNat := by
  rw [BitVec.toNat_add]
  exact Nat.mod_eq_of_lt h.2.2

theorem toNat_start_add_size (h : s.block n = ⟨0,0⟩ ∨ Inside (s.block n)) :
    (s.start n + s.size n).toNat = (s.block n).start + (s.block n).size := by
  rcases h with h | h
  · have hstart : (s.start n).toNat = 0 := congrArg Block.start h
    have hsize : (s.size n).toNat = 0 := congrArg Block.size h
    rw [BitVec.toNat_add,hstart,hsize,h]
    rfl
  · exact h.toNat_add

theorem size_pos_iff_inside (h : s.block n = ⟨0,0⟩ ∨ Inside (s.block n)) :
    0 < (s.block n).size ↔ Inside (s.block n) := by
  refine ⟨fun hpos => h.resolve_left fun h0 => ?_,fun hin => hin.2.1⟩
  rw [h0] at hpos
  exact absurd hpos (lt_irrefl 0)

/-- The comparisons of the code are right on blocks that do not wrap around. -/
theorem touches_iff_adjacent (hc : Inside ⟨a.toNat,z.toNat⟩)
    (hn : s.block n = ⟨0,0⟩ ∨ Inside (s.block n)) : s.touches a (a + z) n = true ↔
      0 < (s.block n).size ∧ (s.block n).Adjacent ⟨a.toNat,z.toNat⟩ := by
  have hend := toNat_start_add_size hn
  have hadd := hc.toNat_add
  have hstart : (s.start n).toNat = (s.block n).start := rfl
  rw [touches_iff,← BitVec.toNat_inj,← BitVec.toNat_inj,hend,hadd,hstart,Block.Adjacent]
  simp only [Inside] at hc hn
  constructor
  · rintro (h | h)
    · refine ⟨?_,.inl h.symm⟩
      rcases hn with hn | hn
      · rw [hn] at h
        simp only at h
        omega
      · exact hn.2.1
    · refine ⟨?_,.inr h⟩
      rcases hn with hn | hn
      · rw [hn] at h
        simp only at h
        omega
      · exact hn.2.1
  · rintro ⟨-,h | h⟩
    · exact .inl h.symm
    · exact .inr h

/-- A node takes over a block next to its own. -/
theorem block_extend (hc : Inside ⟨a.toNat,z.toNat⟩) (hn : Inside (s.block n))
    (ht : s.touches a (a + z) n = true) : (s.extend a (a + z) n).block =
      Function.update s.block n ((s.block n).join ⟨a.toNat,z.toNat⟩) := by
  have hadj := ((touches_iff_adjacent hc (.inr hn)).mp ht).2
  have hend := toNat_start_add_size (s := s) (.inr hn)
  have hstart : (s.start n).toNat = (s.block n).start := rfl
  have hsize : (s.size n).toNat = (s.block n).size := rfl
  have hiff : a = s.start n + s.size n ↔ a.toNat = (s.block n).start + (s.block n).size := by
    rw [← BitVec.toNat_inj,hend]
  rw [extend_eq,block_setBlock,add_sub_cancel_left]
  simp only [Inside,Block.Adjacent] at hc hn hadj
  congr 1
  rw [Block.join,Block.mk.injEq]
  dsimp only
  constructor
  · by_cases hr : a = s.start n + s.size n
    · rw [if_pos hr,hstart]
      have hr := hiff.mp hr
      omega
    · rw [if_neg hr,BitVec.toNat_sub_of_le (BitVec.le_def.mpr ?_),hstart]
      · rw [hiff] at hr
        omega
      · rw [hiff] at hr
        omega
  · rw [BitVec.toNat_add,hsize]
    exact Nat.mod_eq_of_lt (by omega)

theorem Inside.join {b c : Block} (hb : Inside b) (hc : Inside c) (h : b.Adjacent c) :
    Inside (b.join c) := by
  simp only [Inside,Block.Adjacent,Block.join] at *
  omega

theorem Inside.not_adjacent_self {b : Block} (hb : Inside b) : ¬ b.Adjacent b := by
  simp only [Inside,Block.Adjacent] at *
  omega

end Block

section Merge

theorem node_update {b : U64 → Block} {c : Block} (h : ∀ m ∈ l, b m = ⟨0,0⟩ ∨ Inside (b m))
    (hc : c = ⟨0,0⟩ ∨ Inside c) :
    ∀ m ∈ l, Function.update b n c m = ⟨0,0⟩ ∨ Inside (Function.update b n c m) := by
  intro m hm
  by_cases hmn : m = n
  · rw [hmn,Function.update_self]
    exact hc
  · rw [Function.update_of_ne hmn]
    exact h m hm

theorem MovedToEnd.block_eq (h : MovedToEnd s t l n) :
    t.block = Function.update s.block n ⟨0,0⟩ := by
  funext m
  by_cases hm : m = n
  · rw [hm,Function.update_self,block,h.start_eq,h.size_eq]
    rfl
  · rw [Function.update_of_ne hm,block,(h.kept m hm).1,(h.kept m hm).2,block]

theorem MovedToEnd.tail_eq (h : MovedToEnd s t l n) : t.vmmTail = n := by
  have hlast := h.list.tail
  rw [List.getLast?_concat] at hlast
  exact (Option.some.inj hlast).symm

theorem perm_moved (hn : n ∈ l) : (l.erase n ++ [n]).Perm l :=
  (List.perm_append_singleton n _).trans (List.perm_cons_erase hn).symm

/-- The second pass joins a block with its neighbour on the other side, if there is one. -/
theorem mergeAgain_joins (hlist : Doubly s l) (hn : n ∈ l) (htail : s.block s.vmmTail = ⟨0,0⟩)
    (hnode : ∀ m ∈ l, s.block m = ⟨0,0⟩ ∨ Inside (s.block m)) (hin : Inside (s.block n))
    (htouching : Touching {m | m ∈ l} s.block n) (hfuel : l.length < fuel) :
    ∃ t l', mergeAgain fuel n (s.start n) (s.start n + s.size n) s = .done () t ∧ l'.Perm l ∧
      FreeList t l' ∧ t.block t.vmmTail = ⟨0,0⟩ ∧
      points {m | m ∈ l'} t.block = points {m | m ∈ l} s.block := by
  have htouch (m : U64) (hm : m ∈ l) : s.touches (s.start n) (s.start n + s.size n) m = true ↔
      0 < (s.block m).size ∧ (s.block m).Adjacent (s.block n) :=
    touches_iff_adjacent hin (hnode m hm)
  unfold mergeAgain
  rw [walk_linked hlist.linked hfuel]
  cases hfind : l.find? (s.touches (s.start n) (s.start n + s.size n)) with
  | none =>
    rw [Option.getD_none]
    refine ⟨s,l,if_pos rfl,List.Perm.refl l,⟨hlist,hnode,?_⟩,htail,rfl⟩
    refine htouching.gapped fun m hm _ hpos hadj => ?_
    exact List.find?_eq_none.mp hfind m hm ((htouch m hm).mpr ⟨hpos,hadj.symm⟩)
  | some c =>
    have hc := List.mem_of_find?_eq_some hfind
    have hct := List.find?_some hfind
    obtain ⟨hcpos,hadj⟩ := (htouch c hc).mp hct
    have hcin := (size_pos_iff_inside (hnode c hc)).mp hcpos
    have hcn : c ≠ n := by
      rintro rfl
      exact hin.not_adjacent_self hadj
    have hnt : n ≠ s.vmmTail := by
      rintro rfl
      rw [htail] at hin
      exact absurd hin.1 (lt_irrefl 0)
    simp only [Option.getD_some,if_neg (hlist.ne_zero hc)]
    have hblock := block_extend hin hcin hct
    have hlist' : Doubly (s.extend (s.start n) (s.start n + s.size n) c) l := by
      rw [extend_eq]
      exact hlist.setBlock c _ _
    have htail' : (s.extend (s.start n) (s.start n + s.size n) c).vmmTail = s.vmmTail := by
      rw [extend_eq]
      rfl
    obtain ⟨t,hdone,-,hmoved⟩ := hlist'.removeNode hn (htail' ▸ hnt)
    have hmem : {m | m ∈ l.erase n ++ [n]} = {m | m ∈ l} :=
      Set.ext fun m => (perm_moved hn).mem_iff
    have hb := hmoved.block_eq
    rw [hblock] at hb
    refine ⟨t,_,hdone,perm_moved hn,⟨hmoved.list,fun m hm => ?_,?_⟩,?_,?_⟩
    · rw [hb]
      exact node_update (node_update hnode (.inr (hcin.join hin hadj))) (.inl rfl) m
        ((perm_moved hn).mem_iff.mp hm)
    · rw [hmem,hb]
      exact htouching.takeOver hc hcn hcpos hadj
    · rw [hmoved.tail_eq,hb,Function.update_self]
    · rw [hmem,hb]
      exact points_takeOver hn hc hcn hadj

/-- The first node next to the block takes it over and is then looked at again. -/
theorem Doubly.giveBack_eq (h : Doubly s l) (hfind : l.find? (s.touches a (a + z)) = some n)
    (hfuel : l.length < fuel) : giveBack calls fuel a z s =
      mergeAgain fuel n ((s.extend a (a + z) n).start n)
        ((s.extend a (a + z) n).start n + (s.extend a (a + z) n).size n)
        (s.extend a (a + z) n) := by
  have hscan : scan 0#64 s.next (s.touches a (a + z)) fuel s.vmmHead = some (n,true) := by
    rw [scan_linked h.linked h.ne_nil hfuel.le,hfind]
  unfold giveBack
  simp only [if_neg h.head_ne_zero,hscan]
  exact mergeAgain_extend (List.find?_some hfind)

/-- A block next to a free block is joined with its one or two neighbours. -/
theorem FreeList.giveBack_joins (h : FreeList s l) (htail : s.block s.vmmTail = ⟨0,0⟩)
    (hc : Inside ⟨a.toNat,z.toNat⟩)
    (hap : ∀ m ∈ l, 0 < (s.block m).size → (s.block m).Apart ⟨a.toNat,z.toNat⟩)
    (hadj : ∃ m ∈ l, 0 < (s.block m).size ∧ (s.block m).Adjacent ⟨a.toNat,z.toNat⟩)
    (hfuel : l.length < fuel) :
    ∃ t l', giveBack calls fuel a z s = .done () t ∧ l'.Perm l ∧ FreeList t l' ∧
      t.block t.vmmTail = ⟨0,0⟩ ∧ points {m | m ∈ l'} t.block =
        points {m | m ∈ l} s.block ∪ {v | (⟨a.toNat,z.toNat⟩ : Block).Has v} := by
  have htouch (m : U64) (hm : m ∈ l) := touches_iff_adjacent hc (h.node m hm)
  obtain ⟨n,hfind⟩ : ∃ n, l.find? (s.touches a (a + z)) = some n := by
    obtain ⟨m,hm,hadj⟩ := hadj
    exact Option.isSome_iff_exists.mp (List.find?_isSome.mpr ⟨m,hm,(htouch m hm).mpr hadj⟩)
  have hn := List.mem_of_find?_eq_some hfind
  obtain ⟨hpos,hnadj⟩ := (htouch n hn).mp (List.find?_some hfind)
  have hin := (size_pos_iff_inside (h.node n hn)).mp hpos
  have hblock := block_extend hc hin (List.find?_some hfind)
  have hlist : Doubly (s.extend a (a + z) n) l := by
    rw [extend_eq]
    exact h.list.setBlock n _ _
  have htail' : (s.extend a (a + z) n).vmmTail = s.vmmTail := by
    rw [extend_eq]
    rfl
  have hnt : s.vmmTail ≠ n := by
    rintro rfl
    rw [htail] at hpos
    exact absurd hpos (lt_irrefl 0)
  rw [h.list.giveBack_eq hfind hfuel]
  generalize s.extend a (a + z) n = s₁ at *
  have hin₁ : Inside ((s.block n).join ⟨a.toNat,z.toNat⟩) := hin.join hc hnadj
  obtain ⟨t,l',hdone,hperm,hfree,hempty,hpoints⟩ := mergeAgain_joins hlist hn
    (by rw [htail',hblock,Function.update_of_ne hnt,htail])
    (by rw [hblock]; exact node_update h.node (.inr hin₁))
    (by rw [hblock,Function.update_self]; exact hin₁)
    (by rw [hblock]; exact h.gapped.extend hn hpos hnadj hap) hfuel
  refine ⟨t,l',hdone,hperm,hfree,hempty,?_⟩
  rw [hpoints,hblock]
  exact points_extend hn hnadj

/-- An empty tail behind another node moves to the front with the new block. -/
theorem Doubly.recycleTail {l₁ : List U64} {y : U64} (h : Doubly s (l₁ ++ [y] ++ [s.vmmTail])) :
    ∃ t, Vmm.recycleTail a z s = .done () t ∧ Doubly t (s.vmmTail :: (l₁ ++ [y])) ∧
      t.vmmTail = s.prev s.vmmTail ∧ s.prev s.vmmTail = y ∧
      t.block = Function.update s.block s.vmmTail ⟨a.toNat,z.toNat⟩ := by
  have hnd := h.linked.nodup
  have hprev : s.prev s.vmmTail = y := by
    rw [(backed_append.mp h.backed).2.1,List.getLastD_concat]
  have hy : y ≠ 0#64 := h.ne_zero (by simp)
  obtain ⟨t,hdone,-,hstart,hsize,htail,hhead,hprev',hnext'⟩ :=
    recycleTail_eq (a := a) (z := z) (hprev ▸ hy)
  refine ⟨t,hdone,⟨?_,?_,?_⟩,htail,hprev,?_⟩
  · rw [hnext',hhead,hprev]
    exact h.linked.rotate
  · obtain ⟨b,l₂,hb⟩ := List.exists_cons_of_ne_nil (List.append_ne_nil_of_right_ne_nil l₁
      (List.cons_ne_nil y []))
    have hbacked := h.backed
    have hlinked := h.linked
    rw [hb] at hbacked hlinked hnd ⊢
    obtain ⟨hb',-,-⟩ := linked_cons.mp hlinked
    rw [hprev',hb']
    exact hbacked.rotate hnd
  · rw [htail,hprev,← List.cons_append,List.getLast?_concat]
  · funext m
    rw [block,hstart,hsize]
    by_cases hm : m = s.vmmTail
    · rw [hm,Function.update_self,Function.update_self,Function.update_self]
    · rw [Function.update_of_ne hm,Function.update_of_ne hm,Function.update_of_ne hm,block]

/-- A block that is not next to a free block gets the tail, which moves to the front. -/
theorem FreeList.giveBack_alone (h : FreeList s l) (htail : s.block s.vmmTail = ⟨0,0⟩)
    (hlen : 2 ≤ l.length) (hc : Inside ⟨a.toNat,z.toNat⟩)
    (hap : ∀ m ∈ l, 0 < (s.block m).size → (s.block m).Apart ⟨a.toNat,z.toNat⟩)
    (hadj : ¬ ∃ m ∈ l, 0 < (s.block m).size ∧ (s.block m).Adjacent ⟨a.toNat,z.toNat⟩)
    (hfuel : l.length < fuel) :
    ∃ t l', giveBack calls fuel a z s = .done () t ∧ l'.Perm l ∧ FreeList t l' ∧
      t.vmmTail = s.prev s.vmmTail ∧ t.block (s.prev s.vmmTail) = s.block (s.prev s.vmmTail) ∧
      points {m | m ∈ l'} t.block =
        points {m | m ∈ l} s.block ∪ {v | (⟨a.toNat,z.toNat⟩ : Block).Has v} := by
  obtain ⟨l₁,y,x,rfl⟩ : ∃ l₁ y x, l = l₁ ++ [y] ++ [x] := by
    rcases List.eq_nil_or_concat l with rfl | ⟨l₀,x,rfl⟩
    · simp at hlen
    · rcases List.eq_nil_or_concat l₀ with rfl | ⟨l₁,y,rfl⟩
      · simp at hlen
      · exact ⟨l₁,y,x,by simp only [List.concat_eq_append]⟩
  obtain rfl : x = s.vmmTail := by
    have hlast := h.list.tail
    rw [List.getLast?_concat] at hlast
    exact Option.some.inj hlast
  have hx : s.vmmTail ∈ l₁ ++ [y] ++ [s.vmmTail] := h.list.tail_mem
  have hyx : y ≠ s.vmmTail := fun he =>
    List.disjoint_of_nodup_append h.list.linked.nodup (List.mem_append_right l₁
      (List.mem_singleton_self y)) (List.mem_singleton.mpr he)
  have hsize0 : s.size s.vmmTail = 0#64 := BitVec.eq_of_toNat_eq (congrArg Block.size htail)
  have hfind : (l₁ ++ [y] ++ [s.vmmTail]).find? (s.touches a (a + z)) = none :=
    List.find?_eq_none.mpr fun m hm ht =>
      hadj ⟨m,hm,(touches_iff_adjacent hc (h.node m hm)).mp ht⟩
  have hscan : scan 0#64 s.next (s.touches a (a + z)) fuel s.vmmHead = some (s.vmmTail,false) := by
    rw [scan_linked h.list.linked h.list.ne_nil hfuel.le,hfind,List.getLast_concat]
  obtain ⟨t,hdone,hlist,htail',hprev,hblock⟩ := h.list.recycleTail (a := a) (z := z)
  have hperm : (s.vmmTail :: (l₁ ++ [y])).Perm (l₁ ++ [y] ++ [s.vmmTail]) :=
    (List.perm_append_singleton _ _).symm
  have hmem : {m | m ∈ s.vmmTail :: (l₁ ++ [y])} = {m | m ∈ l₁ ++ [y] ++ [s.vmmTail]} :=
    Set.ext fun m => hperm.mem_iff
  refine ⟨t,s.vmmTail :: (l₁ ++ [y]),?_,hperm,⟨hlist,fun m hm => ?_,?_⟩,htail',?_,?_⟩
  · unfold giveBack
    simp only [if_neg h.list.head_ne_zero,hscan,if_neg (h.list.ne_zero hx)]
    rw [growFreeList,if_neg fun hg => hg.2 hsize0,Outcome.bind_done,hdone]
  · rw [hblock]
    exact node_update h.node (.inr hc) m (hperm.mem_iff.mp hm)
  · rw [hmem,hblock]
    exact h.gapped.put fun m hm _ hpos =>
      ⟨(hap m hm hpos).symm,fun ha => hadj ⟨m,hm,hpos,ha.symm⟩⟩
  · rw [hprev,hblock,Function.update_of_ne hyx]
  · rw [hmem,hblock]
    exact points_put hx htail

end Merge

section Free
variable {al : List U64} {mem pages : U64} {e : E}

/-- The list of allocated blocks has `pages` pages at `mem`. -/
structure Outstanding (s : Vmm E) (al : List U64) (mem pages : U64) : Prop where
  linked : Linked 0#64 s.allocNext s.allocHead al
  held : ∃ n ∈ al, (s.alloc n).start = mem
  only : ∀ n ∈ al, (s.alloc n).start = mem → (s.alloc n).size = pages

theorem Outstanding.findAndRemove (h : Outstanding s al mem pages) (hfuel : al.length < fuel) :
    ∃ t, allocListFindAndRemove fuel mem s = .done pages t ∧ SameFree s t ∧ t.env = s.env := by
  obtain ⟨cur,hfind⟩ : ∃ cur, al.find? (fun n => (s.alloc n).start == mem) = some cur := by
    obtain ⟨n,hn,hstart⟩ := h.held
    exact Option.isSome_iff_exists.mp (List.find?_isSome.mpr ⟨n,hn,beq_iff_eq.mpr hstart⟩)
  have hcur := List.mem_of_find?_eq_some hfind
  have hstart : (s.alloc cur).start = mem := by simpa using List.find?_some hfind
  have hne : cur ≠ 0#64 := by
    rintro rfl
    exact h.linked.2 hcur
  refine ⟨s.modifyAlloc cur fun x => { x with start := 0#64, size := 0#64 },?_,
    ⟨rfl,rfl,rfl,rfl⟩,rfl⟩
  unfold allocListFindAndRemove
  rw [walk_linked h.linked hfuel,hfind]
  simp only [Option.getD_some,if_neg hne,h.only cur hcur hstart]

theorem SameFree.freeList (h : FreeList s l) (he : SameFree s t) : FreeList t l := by
  have hblock : t.block = s.block := by
    funext n
    rw [block,he.start,he.size,block]
  refine ⟨⟨?_,?_,?_⟩,?_,?_⟩
  · rw [he.next,he.head]
    exact h.list.linked
  · rw [he.prev]
    exact h.list.backed
  · rw [he.tail]
    exact h.list.tail
  · rw [hblock]
    exact h.node
  · rw [hblock]
    exact h.gapped

/-- Freeing a block that is apart from the free blocks adds its addresses to theirs and leaves a
free list of the same nodes, in which a block that fills a gap is one block with those around
it. The tail is empty again if and only if the block was next to a free block or the node before
the tail is empty. -/
theorem vmmFree_coalesces (h : FreeList s l) (htail : s.block s.vmmTail = ⟨0,0⟩)
    (hlen : 2 ≤ l.length) (hout : Outstanding s al mem pages)
    (hin : Inside (outBlock (mem,pages)))
    (hap : ∀ n ∈ l, 0 < (s.block n).size → (s.block n).Apart (outBlock (mem,pages)))
    (hmap : unmapFrames calls mem pages.toNat 0 s.env = .done () e)
    (hfuel : l.length < fuel) (hfuel' : al.length < fuel) :
    ∃ t l', vmmFree calls fuel mem s = .done () t ∧ l'.Perm l ∧ FreeList t l' ∧
      points {n | n ∈ l'} t.block =
        points {n | n ∈ l} s.block ∪ {v | (outBlock (mem,pages)).Has v} ∧
      (∀ n ∈ l, ∀ m ∈ l, 0 < (s.block n).size → 0 < (s.block m).size →
        (s.block n).start + (s.block n).size = mem.toNat →
        mem.toNat + pages.toNat * 4096 = (s.block m).start →
        ∃ k ∈ l', t.block k =
          ⟨(s.block n).start,(s.block n).size + pages.toNat * 4096 + (s.block m).size⟩) ∧
      (t.block t.vmmTail = ⟨0,0⟩ ↔
        (∃ n ∈ l, 0 < (s.block n).size ∧ (s.block n).Adjacent (outBlock (mem,pages))) ∨
          s.block (s.prev s.vmmTail) = ⟨0,0⟩) := by
  obtain ⟨s₁,hfind,hsame,henv⟩ := hout.findAndRemove hfuel'
  have hsame₂ : SameFree s ((envLens E).set e s₁) := hsame.trans (SameFree.setEnv e s₁)
  have hfree : vmmFree calls fuel mem s =
      giveBack calls fuel mem (pages * pageSize) ((envLens E).set e s₁) := by
    unfold vmmFree
    rw [hfind,Outcome.bind_done,Lens.lift,show (envLens E).get s₁ = s₁.env from rfl,henv,hmap]
    rfl
  have hblock : ((envLens E).set e s₁).block = s.block := by
    funext n
    rw [block,hsame₂.start,hsame₂.size,block]
  have hz : (pages * pageSize).toNat = pages.toNat * 4096 :=
    toNat_mul_pageSize (by simp only [Inside,outBlock] at hin; omega)
  have hb : outBlock (mem,pages) = ⟨mem.toNat,(pages * pageSize).toNat⟩ := by
    rw [hz]
    rfl
  rw [hfree]
  have h₂ := hsame₂.freeList h
  have htail₂ := hsame₂.tail
  have hprev₂ := hsame₂.prev
  generalize (envLens E).set e s₁ = s₂ at *
  rw [← hblock] at htail hap
  rw [← htail₂] at htail
  rw [hb] at hin hap ⊢
  by_cases hadj : ∃ n ∈ l, 0 < (s₂.block n).size ∧
      (s₂.block n).Adjacent ⟨mem.toNat,(pages * pageSize).toNat⟩
  · obtain ⟨t,l',hdone,hperm,hlist,hempty,hpoints⟩ := h₂.giveBack_joins htail hin hap hadj hfuel
    rw [hblock] at hpoints hadj
    refine ⟨t,l',hdone,hperm,hlist,hpoints,fun n hn m hm hpn hpm hl hr => ?_,
      iff_of_true hempty (.inl hadj)⟩
    have hk := hlist.gapped.exists_filled h.gapped hpoints hn hm hpn hpm hl (hz ▸ hr)
    rw [hz] at hk
    exact hk
  · obtain ⟨t,l',hdone,hperm,hlist,htail',hkeep,hpoints⟩ :=
      h₂.giveBack_alone htail hlen hin hap hadj hfuel
    rw [hblock] at hpoints hadj
    refine ⟨t,l',hdone,hperm,hlist,hpoints,fun n hn m hm hpn hpm hl hr => ?_,?_⟩
    · exact absurd ⟨n,hn,hpn,.inl hl⟩ hadj
    · rw [htail',hkeep,hblock,hprev₂,htail₂]
      exact (or_iff_right hadj).symm

/-- A free page, an empty node, and one allocated page at `mem`. -/
def onePage (mem : U64) : Vmm ℕ where
  free n := if n = 0x1000#64 then ⟨0#64,0x1020#64,0xFFFFF00000000000#64,0x1000#64⟩
    else if n = 0x1020#64 then ⟨0x1000#64,0#64,0#64,0#64⟩
    else ⟨0#64,0#64,0#64,0#64⟩
  alloc n := if n = 0x2000#64 then ⟨0#64,mem,1#64⟩ else ⟨0#64,0#64,0#64⟩
  vmmHead := 0x1000#64
  vmmTail := 0x1020#64
  allocHead := 0x2000#64
  freePages := []
  env := 2

theorem freeList_onePage (mem : U64) : FreeList (onePage mem) [0x1000#64,0x1020#64] := by
  have hfull : (onePage mem).block 0x1000#64 = ⟨0xFFFFF00000000000,0x1000⟩ := rfl
  have hempty : (onePage mem).block 0x1020#64 = ⟨0,0⟩ := rfl
  refine ⟨⟨⟨⟨rfl,rfl,rfl⟩,by decide⟩,⟨rfl,rfl,trivial⟩,rfl⟩,fun n hn => ?_,?_⟩
  · rcases List.mem_pair.mp hn with rfl | rfl
    · rw [hfull]
      exact .inr ⟨by decide,by decide,by decide⟩
    · exact .inl hempty
  · intro n hn m hm hne hpn hpm
    rcases List.mem_pair.mp hn with rfl | rfl
    · rcases List.mem_pair.mp hm with rfl | rfl
      · exact absurd rfl hne
      · rw [hempty] at hpm
        exact absurd hpm (lt_irrefl 0)
    · rw [hempty] at hpn
      exact absurd hpn (lt_irrefl 0)

theorem outstanding_onePage (mem : U64) :
    Outstanding (onePage mem) [0x2000#64] mem 1#64 := by
  refine ⟨⟨⟨rfl,rfl⟩,by decide⟩,⟨0x2000#64,List.mem_singleton.mpr rfl,rfl⟩,fun n hn _ => ?_⟩
  rw [List.mem_singleton.mp hn]
  rfl

/-- The page next to the free page is joined with it. -/
theorem onePage_coalesces : ∃ t l', vmmFree pagePool 3 0xFFFFF00000001000#64
      (onePage 0xFFFFF00000001000#64) = .done () t ∧ l'.Perm [0x1000#64,0x1020#64] ∧
      FreeList t l' ∧ t.block t.vmmTail = ⟨0,0⟩ := by
  have hfull : (onePage 0xFFFFF00000001000#64).block 0x1000#64 = ⟨0xFFFFF00000000000,0x1000⟩ := rfl
  have hout : outBlock (0xFFFFF00000001000#64,1#64) = ⟨0xFFFFF00000001000,0x1000⟩ := rfl
  have hfuel : ([0x1000#64,0x1020#64] : List U64).length < 3 := by decide
  obtain ⟨t,l',hdone,hperm,hlist,-,-,hempty⟩ := vmmFree_coalesces
    (freeList_onePage 0xFFFFF00000001000#64) rfl le_rfl (outstanding_onePage _)
    (by rw [hout]; exact ⟨by decide,by decide,by decide⟩) (fun n hn hpos => by
      rcases List.mem_pair.mp hn with rfl | rfl
      · rw [hfull,hout]
        exact .inl le_rfl
      · exact absurd hpos (lt_irrefl 0)) (show unmapFrames pagePool _ _ 0 _ = _ from rfl) hfuel
    (by decide)
  refine ⟨t,l',hdone,hperm,hlist,hempty.mpr (.inl ⟨0x1000#64,List.mem_cons_self,?_⟩)⟩
  rw [hfull,hout]
  exact ⟨by decide,.inl rfl⟩

/-- A page that is not next to the free page takes the last empty node, so that the tail is then
in use. -/
theorem onePage_not_well_formed : FreeList (onePage 0xFFFFF00000002000#64) [0x1000#64,0x1020#64] ∧
    (onePage 0xFFFFF00000002000#64).block (onePage 0xFFFFF00000002000#64).vmmTail = ⟨0,0⟩ ∧
    Outstanding (onePage 0xFFFFF00000002000#64) [0x2000#64] 0xFFFFF00000002000#64 1#64 ∧
    ∃ t, vmmFree pagePool 3 0xFFFFF00000002000#64 (onePage 0xFFFFF00000002000#64) = .done () t ∧
      ¬ (∃ l', l'.Perm [0x1000#64,0x1020#64] ∧ FreeList t l' ∧ t.block t.vmmTail = ⟨0,0⟩) := by
  refine ⟨freeList_onePage _,rfl,outstanding_onePage _,_,
    Outcome.eq_done_of_returned (by decide +kernel) (onePage 0xFFFFF00000002000#64),?_⟩
  rintro ⟨l',-,-,hempty⟩
  have hsize := congrArg Block.size hempty
  revert hsize
  decide +kernel

end Free

end Lios.Vmm

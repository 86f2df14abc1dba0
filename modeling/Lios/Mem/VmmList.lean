import Lios.Mem.VmmRanges

/-! # The list of free nodes

As long as no step meets one of two defects, the list keeps its shape: it reaches
every free node, the nodes in use come before the empty ones, and the tail is its
last node. Back pointers are right with one exception: the first empty node may
have none, because a page is set up with a null there and linked behind the list
without a back pointer. The defects are to move the tail itself to the end, and to
recycle an empty tail whose back pointer is that null.
-/
namespace Lios.Vmm
variable {E : Type} {calls : PageCalls E} {s s' : Vmm E} {before : U64 → U64}
variable {used empty : List U64} {n m x a z : U64}

/-- The list is `used ++ empty`, where `before` is the node before each node. -/
structure Chain (s : Vmm E) (before : U64 → U64) (used empty : List U64) : Prop where
  linked : Linked 0#64 s.next s.vmmHead (used ++ empty)
  tail : (used ++ empty).getLast? = some s.vmmTail
  mem : ∀ n, n ∈ used ++ empty ↔ n ∈ s.nodes
  used_ne : ∀ n ∈ used, s.size n ≠ 0#64
  empty_eq : ∀ n ∈ empty, s.size n = 0#64
  backed : Backed before 0#64 (used ++ empty)
  prev : ∀ n ∈ used ++ empty, s.prev n = before n ∨ s.prev n = 0#64 ∧ empty.head? = some n

section Chain

theorem Chain.tail_mem (h : Chain s before used empty) : s.vmmTail ∈ used ++ empty :=
  List.mem_of_getLast? h.tail

theorem Chain.tail_eq (h : Chain s before used (empty ++ [x])) : x = s.vmmTail := by
  have ht := h.tail
  rw [← List.append_assoc,List.getLast?_concat] at ht
  exact Option.some.inj ht

theorem Chain.ne_zero (h : Chain s before used empty) (hn : n ∈ used ++ empty) : n ≠ 0#64 := by
  rintro rfl
  exact h.linked.2 hn

theorem Chain.head_ne_zero (h : Chain s before used empty) : s.vmmHead ≠ 0#64 := by
  intro h0
  have hnil := h.linked.eq_nil h0
  have htail := h.tail_mem
  rw [hnil] at htail
  cases htail

theorem Chain.prev_used (h : Chain s before used empty) (hn : n ∈ used) : s.prev n = before n := by
  rcases h.prev n (List.mem_append_left _ hn) with hp | ⟨-,hp⟩
  · exact hp
  · exact absurd (h.empty_eq n (List.mem_of_mem_head? hp)) (h.used_ne n hn)

theorem Chain.mem_used (h : Chain s before used empty) (hn : n ∈ s.nodes)
    (hz : s.size n ≠ 0#64) : n ∈ used := by
  rcases List.mem_append.mp ((h.mem n).mpr hn) with hu | he
  · exact hu
  · exact absurd (h.empty_eq n he) hz

theorem Chain.toFinset (h : Chain s before used empty) : (used ++ empty).toFinset = s.nodes := by
  ext n
  rw [List.mem_toFinset,h.mem]

theorem Chain.length (h : Chain s before used empty) :
    (used ++ empty).length = s.nodes.card := by
  rw [← h.toFinset,List.toFinset_card_of_nodup h.linked.nodup]

theorem Chain.same (h : Chain s before used empty) (he : SameFree s s') :
    Chain s' before used empty := by
  refine ⟨?_,?_,?_,?_,?_,h.backed,?_⟩
  · rw [he.next,he.head]
    exact h.linked
  · rw [he.tail]
    exact h.tail
  · rw [he.nodes]
    exact h.mem
  · rw [he.size]
    exact h.used_ne
  · rw [he.size]
    exact h.empty_eq
  · rw [he.prev]
    exact h.prev

/-- The list does not depend on where the blocks are. -/
theorem Chain.setBlock (h : Chain s before used empty) (hn : n ∈ used) (hz : z ≠ 0#64) :
    Chain (s.setBlock n a z) before used empty := by
  have hnd := h.linked.nodup
  refine ⟨?_,h.tail,h.mem,fun m hm => ?_,fun m hm => ?_,h.backed,?_⟩
  · rw [next_setBlock]
    exact h.linked
  · rw [size_setBlock]
    by_cases hmn : m = n
    · rw [hmn,Function.update_self]
      exact hz
    · rw [Function.update_of_ne hmn]
      exact h.used_ne m hm
  · have hmn : m ≠ n := by
      rintro rfl
      exact List.disjoint_of_nodup_append hnd hn hm
    rw [size_setBlock,Function.update_of_ne hmn]
    exact h.empty_eq m hm
  · rw [prev_setBlock]
    exact h.prev

end Chain

/-- What `vmm_list_remove_node` writes, for a node that is not the last. -/
theorem vmmListRemoveNode_eq (hnext : s.next x ≠ 0#64) (htail : s.vmmTail ≠ 0#64) :
    ∃ t, vmmListRemoveNode x s = .done () t ∧ SameRest s t ∧
      t.size = Function.update s.size x 0#64 ∧ t.vmmTail = x ∧
      t.prev = Function.update (Function.update s.prev (s.next x) (s.prev x)) x s.vmmTail ∧
      t.next = Function.update (Function.update (if s.prev x ≠ 0#64 then
        Function.update s.next (s.prev x) (s.next x) else s.next) x 0#64) s.vmmTail x ∧
      t.vmmHead = if s.prev x ≠ 0#64 then s.vmmHead else s.next x := by
  have hprev : Function.update s.prev (s.next x) (s.prev x) x = s.prev x := by
    by_cases he : x = s.next x
    · rw [← he,Function.update_self]
    · rw [Function.update_of_ne he]
  unfold vmmListRemoveNode
  extract_lets s₁ s₂ s₃ s₄ s₅
  have h₂ : s₂ = s₁.setPrev (s.next x) (s.prev x) := by
    simp only [s₂,s₁,next_setBlock,prev_setBlock,if_pos hnext]
  have h₂r : SameRest s s₂ ∧ s₂.vmmTail = s.vmmTail ∧ s₂.vmmHead = s.vmmHead := by
    rw [h₂]
    exact ⟨⟨rfl,rfl,rfl,rfl⟩,rfl,rfl⟩
  have h₂n : s₂.next = s.next := by simp only [h₂,s₁,next_setPrev,next_setBlock]
  have h₂p : s₂.prev = Function.update s.prev (s.next x) (s.prev x) := by
    simp only [h₂,s₁,prev_setPrev,prev_setBlock]
  have h₂x : s₂.prev x = s.prev x := by rw [h₂p,hprev]
  have h₂z : s₂.size = Function.update s.size x 0#64 := by
    simp only [h₂,s₁,size_setPrev,size_setBlock]
  obtain ⟨hrest,htail₂,hhead₂⟩ := h₂r
  have h₃ : s₃ = if s.prev x ≠ 0#64 then s₂.setNext (s.prev x) (s.next x)
      else { s₂ with vmmHead := s.next x } := by simp only [s₃,h₂x,h₂n]
  clear_value s₂
  have h₃r : SameRest s₂ s₃ ∧ s₃.vmmTail = s₂.vmmTail ∧ s₃.prev = s₂.prev ∧ s₃.size = s₂.size ∧
      s₃.next = (if s.prev x ≠ 0#64 then Function.update s₂.next (s.prev x) (s.next x)
        else s₂.next) ∧ s₃.vmmHead = if s.prev x ≠ 0#64 then s₂.vmmHead else s.next x := by
    rw [h₃]
    split
    · exact ⟨⟨rfl,rfl,rfl,rfl⟩,rfl,prev_setNext _ _ _,size_setNext _ _ _,next_setNext _ _ _,rfl⟩
    · exact ⟨⟨rfl,rfl,rfl,rfl⟩,rfl,rfl,rfl,rfl,rfl⟩
  obtain ⟨hrest₃,htail₃,hprev₃,hsize₃,hnext₃,hhead₃⟩ := h₃r
  rw [h₂n] at hnext₃
  clear_value s₃
  have h₅ : SameRest s₃ s₅ ∧ s₅.vmmTail = s₃.vmmTail ∧ s₅.vmmHead = s₃.vmmHead ∧
      s₅.size = s₃.size ∧ s₅.prev = Function.update s₃.prev x s₃.vmmTail ∧
      s₅.next = Function.update s₃.next x 0#64 := by
    refine ⟨⟨rfl,rfl,rfl,rfl⟩,rfl,rfl,?_,?_,?_⟩
    · simp only [s₅,s₄,size_setPrev,size_setNext]
    · simp only [s₅,s₄,prev_setPrev,prev_setNext]
      rfl
    · simp only [s₅,s₄,next_setPrev,next_setNext]
  obtain ⟨hrest₅,htail₅,hhead₅,hsize₅,hprev₅,hnext₅⟩ := h₅
  clear_value s₅
  rw [htail₃,htail₂] at htail₅ hprev₅
  rw [if_neg (htail₅ ▸ htail)]
  refine ⟨_,rfl,((hrest.trans hrest₃).trans hrest₅).trans ⟨rfl,rfl,rfl,rfl⟩,?_,rfl,?_,?_,?_⟩
  · rw [← h₂z,← hsize₃,← hsize₅]
    exact size_setNext _ _ _
  · rw [← h₂p,← hprev₃,← hprev₅]
    exact prev_setNext _ _ _
  · rw [← hnext₃,← hnext₅,← htail₅]
    exact next_setNext _ _ _
  · rw [← hhead₂,← hhead₃,← hhead₅]
    rfl

/-- Moving a node in use that is not the tail to the end empties it. -/
theorem Chain.removeNode (h : Chain s before used empty) (hx : x ∈ used) (ht : x ≠ s.vmmTail) :
    ∃ t before' used', vmmListRemoveNode x s = .done () t ∧ SameRest s t ∧
      t.size = Function.update s.size x 0#64 ∧
      Chain t before' used' (empty ++ [x]) := by
  have hnd := h.linked.nodup
  obtain ⟨l₁,l₂,rfl⟩ := List.append_of_mem hx
  obtain ⟨b,l,hl⟩ : ∃ b l, l₂ ++ empty = b :: l := by
    cases hl : l₂ ++ empty with
    | cons b l => exact ⟨b,l,rfl⟩
    | nil =>
      have htail := h.tail
      rw [List.append_assoc,List.cons_append,hl,List.getLast?_concat] at htail
      exact absurd (Option.some.inj htail) ht
  have hlist : l₁ ++ x :: l₂ ++ empty = l₁ ++ x :: b :: l := by
    rw [List.append_assoc,List.cons_append,hl]
  have htail := h.tail
  have hlinked := h.linked
  have hbacked := h.backed
  have hpx := h.prev_used hx
  rw [hlist] at htail hlinked hbacked hnd
  rw [List.getLast?_append_cons,List.getLast?_cons_cons] at htail
  have hbefore : before x = l₁.getLastD 0#64 := (backed_append.mp hbacked).2.1
  have hnext : s.next x = b := by
    obtain ⟨_,-,hs⟩ := hlinked.of_append
    obtain ⟨rfl,-,hs⟩ := linked_cons.mp hs
    exact (linked_cons.mp hs).1
  have hb0 : b ≠ 0#64 := fun h0 => hlinked.2 (by simp [h0])
  obtain ⟨t,hdone,hrest,hsize,htail',hprev',hnext',hhead'⟩ :=
    vmmListRemoveNode_eq (hnext ▸ hb0) (h.ne_zero h.tail_mem)
  have hlist' : l₁ ++ l₂ ++ (empty ++ [x]) = l₁ ++ b :: l ++ [x] := by
    rw [← hl]
    simp only [List.append_assoc]
  have hperm : (l₁ ++ l₂ ++ (empty ++ [x])).Perm (l₁ ++ x :: l₂ ++ empty) := by
    rw [hlist',hlist]
    exact (List.perm_append_singleton x _).trans List.perm_middle.symm
  have hxl : x ∉ l₁ ++ b :: l := (List.nodup_cons.mp (List.nodup_middle.mp hnd)).1
  have hkeep (n : U64) (hn : n ∈ l₁ ++ b :: l) : t.size n = s.size n := by
    rw [hsize,Function.update_of_ne]
    rintro rfl
    exact hxl hn
  refine ⟨t,Function.update (Function.update before b (before x)) x s.vmmTail,l₁ ++ l₂,hdone,hrest,
    hsize,?_,?_,?_,?_,?_,?_,?_⟩
  · rw [hlist',hnext',hhead']
    exact hlinked.moveToEnd (hpx.trans hbefore) htail
  · rw [hlist',List.getLast?_concat,htail']
  · intro n
    rw [hperm.mem_iff,hrest.nodes,h.mem]
  · intro n hn
    rw [hkeep n (by rw [← hl,← List.append_assoc]; exact List.mem_append_left _ hn)]
    refine h.used_ne n ?_
    rcases List.mem_append.mp hn with hn | hn
    · exact List.mem_append_left _ hn
    · exact List.mem_append_right _ (List.mem_cons_of_mem _ hn)
  · intro n hn
    rcases List.mem_append.mp hn with hn | hn
    · rw [hkeep n (by rw [← hl,← List.append_assoc]; exact List.mem_append_right _ hn)]
      exact h.empty_eq n hn
    · rw [List.mem_singleton.mp hn,hsize,Function.update_self]
  · rw [hlist']
    exact hbacked.moveToEnd hnd htail
  · intro n hn
    rw [hprev',hnext,hpx]
    refine update_eq_or fun _ => update_eq_or fun _ => ?_
    refine (h.prev n (hperm.mem_iff.mp hn)).imp_right (fun hp => ⟨hp.1,?_⟩)
    rw [List.head?_append,hp.2]
    rfl

/-- What recycling the tail writes. -/
theorem recycleTail_eq (hprev : s.prev s.vmmTail ≠ 0#64) :
    ∃ t, recycleTail a z s = .done () t ∧ SameRest s t ∧
      t.start = Function.update s.start s.vmmTail a ∧
      t.size = Function.update s.size s.vmmTail z ∧
      t.vmmTail = s.prev s.vmmTail ∧ t.vmmHead = s.vmmTail ∧
      t.prev = Function.update (Function.update s.prev s.vmmTail 0#64) s.vmmHead s.vmmTail ∧
      t.next = Function.update (Function.update s.next (s.prev s.vmmTail) 0#64) s.vmmTail
        s.vmmHead := by
  unfold recycleTail
  extract_lets cur s₁ s₂ s₃ s₄ s₅ s₆
  have h₃ : SameRest s s₃ ∧ s₃.vmmTail = s.prev s.vmmTail ∧ s₃.vmmHead = s.vmmHead ∧
      s₃.start = s.start ∧ s₃.size = s.size ∧
      s₃.prev = Function.update s.prev s.vmmTail 0#64 ∧
      s₃.next = Function.update s.next (s.prev s.vmmTail) 0#64 := by
    refine ⟨⟨rfl,rfl,rfl,rfl⟩,rfl,rfl,?_,?_,?_,?_⟩
    · exact (start_setPrev _ _ _).trans (start_setNext _ _ _)
    · exact (size_setPrev _ _ _).trans (size_setNext _ _ _)
    · exact (prev_setPrev _ _ _).trans (by rw [prev_setNext]; rfl)
    · exact (next_setPrev _ _ _).trans (next_setNext _ _ _)
  obtain ⟨hrest,htail,hhead,hstart,hsize,hprev₃,hnext⟩ := h₃
  have h₁ : s₁.vmmTail = s.prev s.vmmTail := rfl
  rw [if_neg (h₁ ▸ hprev)]
  clear_value s₃
  have h₆ : SameRest s₃ s₆ ∧ s₆.vmmTail = s₃.vmmTail ∧ s₆.start = Function.update s₃.start cur a ∧
      s₆.size = Function.update s₃.size cur z ∧
      s₆.prev = Function.update s₃.prev s₃.vmmHead cur ∧
      s₆.next = Function.update s₃.next cur s₃.vmmHead := by
    refine ⟨⟨rfl,rfl,rfl,rfl⟩,rfl,?_,?_,?_,?_⟩
    · simp only [s₆,s₅,s₄,start_setPrev,start_setBlock,start_setNext]
    · simp only [s₆,s₅,s₄,size_setPrev,size_setBlock,size_setNext]
    · simp only [s₆,s₅,s₄,prev_setPrev,prev_setBlock,prev_setNext]
      rfl
    · simp only [s₆,s₅,s₄,next_setPrev,next_setBlock,next_setNext]
  obtain ⟨hrest₆,htail₆,hstart₆,hsize₆,hprev₆,hnext₆⟩ := h₆
  clear_value s₆
  rw [hstart] at hstart₆
  rw [hsize] at hsize₆
  rw [hprev₃,hhead] at hprev₆
  rw [hnext,hhead] at hnext₆
  exact ⟨_,rfl,(hrest.trans hrest₆).trans ⟨rfl,rfl,rfl,rfl⟩,hstart₆,hsize₆,htail₆.trans htail,rfl,
    hprev₆,hnext₆⟩

/-- An empty tail with a back pointer becomes the head and is then in use. -/
theorem Chain.recycleTail (h : Chain s before used (empty ++ [x])) (hprev : s.prev x ≠ 0#64)
    (hz : z ≠ 0#64) : ∃ t before', Vmm.recycleTail a z s = .done () t ∧ SameRest s t ∧
      t.start = Function.update s.start x a ∧ t.size = Function.update s.size x z ∧
      Chain t before' (x :: used) empty ∧
      (used ≠ [] → ∀ n ∈ empty, t.prev n = s.prev n) := by
  have hnd := h.linked.nodup
  have hlinked := h.linked
  have hbacked := h.backed
  have htail := h.tail_eq
  rw [← List.append_assoc] at hnd hlinked hbacked
  obtain ⟨hfront,hback⟩ := backed_append.mp hbacked
  have hpx : s.prev x = (used ++ empty).getLastD 0#64 := by
    rw [← hback.1]
    exact (h.prev x (by simp)).resolve_right (fun hp => hprev hp.1)
  have hne : used ++ empty ≠ [] := by
    intro hnil
    rw [hnil] at hpx
    exact hprev hpx
  obtain ⟨l,t,hl⟩ : ∃ l t, used ++ empty = l ++ [t] := by
    rcases List.eq_nil_or_concat (used ++ empty) with hnil | ⟨l,t,hl⟩
    · exact absurd hnil hne
    · exact ⟨l,t,hl.trans List.concat_eq_append⟩
  obtain ⟨b,l',hb⟩ : ∃ b l', used ++ empty = b :: l' := List.exists_cons_of_ne_nil hne
  have hhead : s.vmmHead = b := by
    rw [hb] at hlinked
    exact (linked_cons.mp hlinked).1
  have hpt : s.prev x = t := by rw [hpx,hl,List.getLastD_concat]
  have hx : x ∉ used ++ empty := fun hm => List.disjoint_of_nodup_append hnd hm List.mem_cons_self
  have hbmem : b ∈ used ++ empty := by
    rw [hb]
    exact List.mem_cons_self
  obtain ⟨s',hdone,hrest,hstart,hsize,htail',hhead',hprev',hnext'⟩ :=
    recycleTail_eq (a := a) (z := z) (htail ▸ hprev)
  rw [← htail] at hstart hsize htail' hhead' hprev' hnext'
  rw [hhead] at hprev' hnext'
  have hkeep (n : U64) (hn : n ∈ used ++ empty) : s'.size n = s.size n := by
    rw [hsize,Function.update_of_ne]
    rintro rfl
    exact hx hn
  refine ⟨s',Function.update (Function.update before x 0#64) b x,hdone,hrest,hstart,hsize,
    ⟨?_,?_,?_,?_,?_,?_,?_⟩,?_⟩
  · rw [List.cons_append,hl,hnext',hhead',hpt,← hhead]
    rw [hl] at hlinked
    exact hlinked.rotate
  · rw [List.cons_append,hl,← List.cons_append,List.getLast?_concat,htail',hpt]
  · intro n
    rw [hrest.nodes,← h.mem,← List.append_assoc]
    exact (List.perm_append_singleton x (used ++ empty)).symm.mem_iff
  · intro n hn
    rcases List.mem_cons.mp hn with rfl | hn
    · rw [hsize,Function.update_self]
      exact hz
    · rw [hkeep n (List.mem_append_left _ hn)]
      exact h.used_ne n hn
  · intro n hn
    rw [hkeep n (List.mem_append_right _ hn)]
    exact h.empty_eq n (List.mem_append_left _ hn)
  · rw [List.cons_append,hb]
    rw [hb] at hbacked hnd
    exact hbacked.rotate hnd
  · intro n hn
    rw [hprev']
    refine update_eq_or fun _ => update_eq_or fun hnx => ?_
    have hn : n ∈ used ++ empty := (List.mem_cons.mp hn).resolve_left hnx
    refine (h.prev n ?_).imp_right (fun hp => ⟨hp.1,?_⟩)
    · rw [← List.append_assoc]
      exact List.mem_append_left _ hn
    · cases empty with
      | nil => exact absurd (Option.some.inj hp.2).symm hnx
      | cons y e => exact hp.2
  · intro hused n hn
    have hnx : n ≠ x := fun he => hx (he ▸ List.mem_append_right _ hn)
    have hnb : n ≠ b := by
      rintro rfl
      obtain ⟨y,u,rfl⟩ := List.exists_cons_of_ne_nil hused
      obtain rfl : y = n := (List.cons.inj hb).1
      rw [List.append_assoc] at hnd
      exact List.disjoint_of_nodup_append hnd List.mem_cons_self (List.mem_append_left _ hn)
    rw [hprev',Function.update_of_ne hnb,Function.update_of_ne hnx]

/-- Without a back pointer the tail cannot be recycled. -/
theorem recycleTail_fault (h : s.prev s.vmmTail = 0#64) :
    ∃ t, recycleTail a z s = .fault t := by
  unfold recycleTail
  extract_lets cur s₁
  exact ⟨_,if_pos h⟩

/-- A fresh page is linked behind a list without empty nodes; its first node has no
back pointer. -/
theorem Chain.grow {taken : Finset U64} {rest : Multiset Block} {p : U64} {e : E}
    (h : Chain s before used []) (hfree : FreeNodes taken s rest) (hp : IsPage p)
    (hfresh : p ∉ taken) : ∃ before',
      Chain ((withFreePage p e s).setNext s.vmmTail p) before' used (cells 32 p 128) ∧
        ((withFreePage p e s).setNext s.vmmTail p).prev p = 0#64 := by
  obtain ⟨htail,hout,hpage⟩ := withFreePage_spec p e s
  obtain ⟨-,-,hhead,hpages,-⟩ := withFreePage_frame p e s
  generalize withFreePage p e s = t at *
  have hold (n : U64) (hn : n ∈ used) : ¬ OnPage p n :=
    hfree.not_onPage hp hfresh ((h.mem n).mp (List.mem_append_left _ hn))
  have hcell (j : ℕ) (hj : j < 128) : OnPage p (cell 32 p j) := onPage_cell (by omega)
  have htl : s.vmmTail ∈ used := by simpa using h.tail_mem
  have hne {n : U64} (hn : OnPage p n) : n ≠ s.vmmTail := fun he => hold _ htl (he ▸ hn)
  have hlink : Linked 0#64 (t.setNext s.vmmTail p).next p (cells 32 p 128) := by
    refine linked_page hp (by decide) (by decide) (by decide) (fun j hj => ?_)
    rw [next_setNext,Function.update_of_ne (hne (hcell j hj)),next,hpage j hj]
    rfl
  have hprev0 : (t.setNext s.vmmTail p).prev p = 0#64 := by
    have h0 := hpage 0 (by decide)
    rw [cell_zero] at h0
    rw [prev_setNext,Vmm.prev,h0]
    rfl
  have hsize (n : U64) (hn : n ∈ used) : (t.setNext s.vmmTail p).size n = s.size n := by
    rw [size_setNext,size,hout n (hold n hn),← size]
  have hprev (n : U64) (hn : n ∈ used) : (t.setNext s.vmmTail p).prev n = before n := by
    rw [prev_setNext,Vmm.prev,hout n (hold n hn),← Vmm.prev,h.prev_used hn]
  have hpp : OnPage p p := by
    have h0 := hcell 0 (by decide)
    rwa [cell_zero] at h0
  have hup (n : U64) (hn : n ∈ used) : n ≠ p := by
    rintro rfl
    exact hold n hn hpp
  refine ⟨Function.update (t.setNext s.vmmTail p).prev p s.vmmTail,⟨?_,?_,?_,?_,?_,?_,?_⟩,hprev0⟩
  · have hlist := h.linked
    have hlast := h.tail
    rw [List.append_nil] at hlist hlast
    obtain ⟨l,hl⟩ := exists_concat_of_getLast? hlast
    have hnd := hlist.nodup
    rw [hl] at hlist hnd ⊢
    rw [List.append_assoc]
    refine (show (t.setNext s.vmmTail p).vmmHead = s.vmmHead from hhead) ▸
      hlist.link (fun y hy => ?_) ?_ hlink
    · have hyt : y ≠ s.vmmTail := fun he =>
        List.disjoint_of_nodup_append hnd hy (he ▸ List.mem_cons_self)
      rw [next_setNext,Function.update_of_ne hyt,next,hout y (hold y (by simp [hl,hy])),next]
    · rw [next_setNext,Function.update_self]
  · have hlast : (cells 32 p 128).getLast? = some (cell 32 p 127) := by
      rw [cells,List.range_succ,List.map_append,List.map_singleton,List.getLast?_concat]
    rw [List.getLast?_append,hlast]
    exact congrArg some htail.symm
  · intro n
    rw [nodes,mem_nodesOn]
    have hpg : (t.setNext s.vmmTail p).freePages = p :: s.freePages := hpages
    rw [hpg,List.mem_append,mem_cells,← List.append_nil used,h.mem,nodes,mem_nodesOn]
    simp only [List.mem_cons,exists_eq_or_imp]
    exact or_comm
  · intro n hn
    rw [hsize n hn]
    exact h.used_ne n hn
  · intro n hn
    obtain ⟨j,hj,rfl⟩ := mem_cells.mp hn
    rw [size_setNext,size,hpage j hj]
    rfl
  · refine backed_append.mpr ⟨?_,?_⟩
    · have hb := h.backed
      rw [List.append_nil] at hb
      refine hb.congr (fun n hn => ?_)
      rw [Function.update_of_ne (hup n hn),hprev n hn]
    · rw [cells,List.range_eq_range']
      refine backed_cells (fun _ => ?_) (fun j hj hjr => ?_)
      · have hlast := h.tail
        rw [List.append_nil] at hlast
        rw [cell_zero,Function.update_self,getLastD_eq_of_getLast? hlast]
      · have hjp : cell 32 p j ≠ p := fun he =>
          cell32_ne (by omega) (j := 0) (by decide) (by omega) (he.trans cell_zero.symm)
        rw [Function.update_of_ne hjp,prev_setNext,Vmm.prev,hpage j (by omega),freshFree]
        exact if_neg (by omega)
  · intro n hn
    by_cases hnp : n = p
    · right
      rw [hnp]
      refine ⟨hprev0,?_⟩
      rw [cells,List.head?_map,List.head?_range,if_neg (by decide),Option.map_some,cell_zero]
    · left
      rw [Function.update_of_ne hnp]

/-- The list has its shape and no two free blocks touch. -/
structure Neat (s : Vmm E) : Prop where
  chain : ∃ before used empty, Chain s before used empty
  sparse : Sparse s.nodes s.start s.size

section Neat
variable {taken : Finset U64} {rest : Multiset Block} {bs be : U64} {fuel : ℕ}

theorem Neat.same (h : Neat s) (he : SameFree s s') : Neat s' := by
  obtain ⟨before,used,empty,hchain⟩ := h.chain
  refine ⟨⟨before,used,empty,hchain.same he⟩,?_⟩
  rw [he.start,he.size,he.nodes]
  exact h.sparse

/-- Taking a block, unless that would move the tail to the end. -/
theorem Neat.takeBlock (h : Neat s) (hfree : FreeNodes taken s rest) (hn : n ∈ s.nodes)
    (hle : z ≤ s.size n) (hpos : 0 < z.toNat) (hexact : s.size n = z → n ≠ s.vmmTail) :
    ∃ t, Vmm.takeBlock n z s = .done () t ∧ Neat t := by
  obtain ⟨before,used,empty,hchain⟩ := h.chain
  have hle := BitVec.le_def.mp hle
  have hz : s.size n ≠ 0#64 := by
    intro h0
    rw [h0] at hle
    simp at hle
    omega
  have hused := hchain.mem_used hn hz
  unfold Vmm.takeBlock
  by_cases heq : s.size n = z
  · obtain ⟨t,before',used',hdone,hrest,hsize,hchain'⟩ := hchain.removeNode hused (hexact heq)
    rw [if_pos heq]
    refine ⟨t,hdone,⟨_,_,_,hchain'⟩,?_⟩
    have hr := hfree.closed.removeNode hn hdone
    rw [hrest.nodes,hr.start,hr.size,start_setBlock,size_setBlock]
    exact h.sparse.clear n
  · have hlt : z.toNat < (s.size n).toNat :=
      lt_of_le_of_ne hle (fun he => heq (BitVec.eq_of_toNat_eq he).symm)
    have hne : s.size n - z ≠ 0#64 := fun h0 => heq (sub_eq_zero.mp h0)
    rw [if_neg heq]
    refine ⟨_,rfl,⟨_,_,_,hchain.setBlock hused hne⟩,?_⟩
    rw [start_setBlock,size_setBlock]
    exact h.sparse.cut hfree.blocks hn hlt hpos

/-- Recycling the tail for a block that touches no other. -/
theorem Neat.recycle (h : Sparse s.nodes s.start s.size) (hchain : Chain s before used (empty ++ [x]))
    (hprev : s.prev x ≠ 0#64) (hz : z ≠ 0#64)
    (hfar : ∀ m ∈ s.nodes, s.size m ≠ 0#64 → s.touches a (a + z) m = false) :
    ∃ t before', Vmm.recycleTail a z s = .done () t ∧ SameRest s t ∧ Neat t ∧
      Chain t before' (x :: used) empty ∧ (used ≠ [] → ∀ n ∈ empty, t.prev n = s.prev n) := by
  obtain ⟨t,before',hdone,hrest,hstart,hsize,hchain',hkeep⟩ :=
    hchain.recycleTail (a := a) hprev hz
  refine ⟨t,before',hdone,hrest,⟨⟨_,_,_,hchain'⟩,?_⟩,hchain',hkeep⟩
  rw [hrest.nodes,hstart,hsize]
  refine h.put hz (fun m hm _ hzm => ?_)
  have ht := hfar m hm hzm
  rw [← Bool.not_eq_true,touches_iff,not_or] at ht
  exact ht

/-- A block that touches no other, while there is an empty node. -/
theorem Neat.insert (calls : PageCalls E) (h : Sparse s.nodes s.start s.size)
    (hchain : Chain s before used (empty ++ [x])) (hprev : s.prev x ≠ 0#64) (hz : z ≠ 0#64)
    (hfar : ∀ m ∈ s.nodes, s.size m ≠ 0#64 → s.touches a (a + z) m = false) :
    ∃ t before', ((growFreeList calls n s).bind fun _ s => Vmm.recycleTail a z s) = .done () t ∧
      SameRest s t ∧ Neat t ∧ Chain t before' (x :: used) empty ∧
      (used ≠ [] → ∀ n ∈ empty, t.prev n = s.prev n) := by
  have hsize : s.size s.vmmTail = 0#64 := hchain.tail_eq ▸ hchain.empty_eq x (by simp)
  rw [growFreeList,if_neg (fun hc => hc.2 hsize),Outcome.bind_done]
  exact Neat.recycle h hchain hprev hz hfar

/-- Without empty nodes the tail is in use. -/
theorem Chain.tail_in_use (h : Chain s before used []) (hfree : FreeNodes taken s rest) :
    s.start s.vmmTail ≠ 0#64 ∧ s.size s.vmmTail ≠ 0#64 := by
  have htl : s.vmmTail ∈ used := by simpa using h.tail_mem
  have hsz := h.used_ne _ htl
  exact ⟨(hfree.blocks.edge_ne_zero ((h.mem _).mp (List.mem_append_left _ htl)) hsz).1,hsz⟩

/-- A block that touches no other, while there is no empty node. -/
theorem Neat.insert_grow {src : PageSupply calls} {p : U64} {e : E}
    (h : Sparse s.nodes s.start s.size) (hchain : Chain s before used [])
    (hfree : FreeNodes (src.taken s.env) s rest) (hk : calls.kcallocPage s.env = .done p e)
    (hz : z ≠ 0#64) (hfar : ∀ m ∈ s.nodes, s.size m ≠ 0#64 → s.touches a (a + z) m = false) :
    ∃ t before', ((growFreeList calls s.vmmTail s).bind fun _ s => Vmm.recycleTail a z s) =
        .done () t ∧ t.env = e ∧ Neat t ∧ Chain t before' (cell 32 p 127 :: used) (cells 32 p 127) ∧
      (used ≠ [] → t.prev p = 0#64) := by
  obtain ⟨hp,hfresh,-⟩ := src.kcallocPage hk
  obtain ⟨before₁,hchain₁,hprev₁⟩ := hchain.grow (e := e) hfree hp hfresh
  have hgrow : growFreeList calls s.vmmTail s =
      .done () ((Vmm.withFreePage p e s).setNext s.vmmTail p) := by
    rw [growFreeList,if_pos (hchain.tail_in_use hfree),kcallocFreePage_eq_done.mpr ⟨e,hk,rfl⟩]
    rfl
  obtain ⟨hkeep,hnew⟩ := hfree.withFreePage_blocks hp hfresh e
  obtain ⟨-,-,hpage⟩ := withFreePage_spec p e s
  obtain ⟨-,-,-,-,henv⟩ := withFreePage_frame p e s
  rw [hgrow,Outcome.bind_done]
  generalize hs₁ : (Vmm.withFreePage p e s).setNext s.vmmTail p = s₁ at *
  have hr : s₁.start = (Vmm.withFreePage p e s).start ∧ s₁.size = (Vmm.withFreePage p e s).size ∧
      s₁.nodes = (Vmm.withFreePage p e s).nodes ∧ s₁.prev = (Vmm.withFreePage p e s).prev ∧
      s₁.env = (Vmm.withFreePage p e s).env := by
    rw [← hs₁]
    exact ⟨start_setNext _ _ _,size_setNext _ _ _,rfl,prev_setNext _ _ _,rfl⟩
  obtain ⟨hstart,hsize,hnodes,hprev,henv₁⟩ := hr
  rw [← hstart,← hsize] at hkeep hnew
  rw [← hnodes] at hnew
  have hsparse : Sparse s₁.nodes s₁.start s₁.size :=
    h.grow hkeep (fun m hm hn => (hnew m hm hn).2)
  have hfar₁ (m : U64) (hm : m ∈ s₁.nodes) (hzm : s₁.size m ≠ 0#64) :
      s₁.touches a (a + z) m = false := by
    have hms : m ∈ s.nodes := by_contra fun hn => hzm (hnew m hm hn).2
    rw [(hkeep m hms).2] at hzm
    rw [touches,(hkeep m hms).1,(hkeep m hms).2]
    exact hfar m hms hzm
  rw [cells_succ] at hchain₁
  have hlast : s₁.prev (cell 32 p 127) ≠ 0#64 := by
    rw [hprev,Vmm.prev,hpage 127 (by decide),freshFree]
    exact hp.ne_zero_of_onPage (onPage_cell (by decide))
  obtain ⟨t,before',hdone,hrest,hneat,hchain',hsame⟩ :=
    Neat.recycle (a := a) hsparse hchain₁ hlast hz hfar₁
  refine ⟨t,before',hdone,?_,hneat,hchain',fun hu => ?_⟩
  · rw [hrest.env,henv₁,henv]
  · rw [hsame hu p (mem_cells.mpr ⟨0,by decide,cell_zero⟩),hprev₁]

/-- A second neighbour of a joined block takes it over. The joined block touches others
on one side at most, and its node is not the last if it touches any. -/
theorem Neat.mergeAgain (hchain : Chain s before used empty) (hfree : FreeNodes taken s rest)
    (hn : n ∈ used)
    (hsparse : Sparse s.nodes (Function.update s.start n 0#64) (Function.update s.size n 0#64))
    (hside : (∀ m ∈ s.nodes, m ≠ n → s.size m ≠ 0#64 → s.start n ≠ s.start m + s.size m) ∨
      ∀ m ∈ s.nodes, m ≠ n → s.size m ≠ 0#64 → s.start n + s.size n ≠ s.start m)
    (hlast : ∀ m ∈ s.nodes, m ≠ n →
      s.touches (s.start n) (s.start n + s.size n) m = true → n ≠ s.vmmTail)
    (hfuel : s.nodes.card < fuel) :
    ∃ t, Vmm.mergeAgain fuel n (s.start n) (s.start n + s.size n) s = .done () t ∧
      SameRest s t ∧ Neat t := by
  have hnn : n ∈ s.nodes := (hchain.mem n).mp (List.mem_append_left _ hn)
  have hne := hchain.used_ne n hn
  unfold Vmm.mergeAgain
  rw [walk_linked hchain.linked (by rw [hchain.length]; exact hfuel)]
  simp only
  cases hfind : (used ++ empty).find? (s.touches (s.start n) (s.start n + s.size n)) with
  | none =>
    rw [Option.getD_none,if_pos rfl]
    refine ⟨s,rfl,⟨rfl,rfl,rfl,rfl⟩,⟨_,_,_,hchain⟩,hsparse.restore hne fun m hm _ _ => ?_⟩
    have ht := List.find?_eq_none.mp hfind m ((hchain.mem m).mpr hm)
    rw [touches_iff,not_or] at ht
    exact ht
  | some c =>
    have hc := List.mem_of_find?_eq_some hfind
    have htouch := List.find?_some hfind
    have hcn : c ≠ n := by
      rintro rfl
      rw [touches_self hne] at htouch
      cases htouch
    have hcm := (hchain.mem c).mp hc
    rw [Option.getD_some,if_neg (hchain.ne_zero hc)]
    have hrel := hfree.blocks.release hnn hne
    rw [← show s.start n + s.size n - s.start n = s.size n from add_sub_cancel_left _ _] at hrel
    have hzc := hrel.size_ne_zero hcm (by
      rw [Function.update_of_ne hcn,Function.update_of_ne hcn]
      exact touches_iff.mp htouch)
    have hzj := (hrel.join_size hcm hzc).2
    rw [Function.update_of_ne hcn] at hzc hzj
    obtain ⟨hstart,hsize⟩ := extend_block htouch
    rw [extend_eq,start_setBlock,Function.update_self] at hstart
    rw [extend_eq,size_setBlock,Function.update_self] at hsize
    rw [extend_eq,hstart]
    rw [hsize] at hzj ⊢
    obtain ⟨t,before',used',hdone,hrest,-,hchain'⟩ :=
      (hchain.setBlock (a := joinStart s.start s.size (s.start n) c) (hchain.mem_used hcm hzc)
        hzj).removeNode hn (hlast c hcm hcn htouch)
    have hr := (hfree.closed.setBlock c _ _).removeNode hnn hdone
    have hrest' : SameRest s t := SameRest.trans (t := s.setBlock c _ _) ⟨rfl,rfl,rfl,rfl⟩ hrest
    refine ⟨t,hdone,hrest',⟨_,_,_,hchain'⟩,?_⟩
    rw [hrest'.nodes,hr.start,hr.size,start_setBlock,size_setBlock,start_setBlock,size_setBlock,
      Function.update_comm hcn,Function.update_comm hcn]
    exact hsparse.takeOver hcm hcn hzc (touches_iff.mp htouch) hside hzj

/-- The first of two nodes is not the last of all. -/
theorem Chain.first_ne_tail {stop : U64 → Bool} (h : Chain s before used empty)
    (hfind : (used ++ empty).find? stop = some n) (hm : m ∈ s.nodes) (hmn : m ≠ n)
    (hstop : stop m = true) : n ≠ s.vmmTail := by
  intro he
  obtain ⟨-,l₁,l₂,hl,hfirst⟩ := List.find?_eq_some_iff_append.mp hfind
  have hnd := h.linked.nodup
  have htail := h.tail
  rw [hl] at hnd htail
  rw [← he,List.getLast?_append_cons] at htail
  obtain rfl : l₂ = [] := by
    cases l₂ with
    | nil => rfl
    | cons y l₂ =>
      rw [List.getLast?_cons_cons] at htail
      have hnl := (List.nodup_cons.mp (List.nodup_append.mp hnd).2.1).1
      exact absurd (List.mem_of_getLast? htail) hnl
  have hmem := (h.mem m).mpr hm
  rw [hl,List.mem_append,List.mem_singleton] at hmem
  have hno := hfirst m (hmem.resolve_right hmn)
  rw [hstop] at hno
  cases hno

/-- A block that touches others is joined with its one or two neighbours. -/
theorem Neat.merge (hchain : Chain s before used empty) (hsparse : Sparse s.nodes s.start s.size)
    (hfree : FreeNodes taken s (⟨a.toNat,z.toNat⟩ ::ₘ rest))
    (hfind : (used ++ empty).find? (s.touches a (a + z)) = some n)
    (hfuel : s.nodes.card < fuel) :
    ∃ t, Vmm.mergeAgain fuel n ((s.extend a (a + z) n).start n)
        ((s.extend a (a + z) n).start n + (s.extend a (a + z) n).size n)
        (s.extend a (a + z) n) = .done () t ∧ SameRest s t ∧ Neat t := by
  have hnn := (hchain.mem n).mp (List.mem_of_find?_eq_some hfind)
  have htouch := List.find?_some hfind
  rw [← show a + z - a = z from add_sub_cancel_left a z] at hfree
  have hzn := hfree.blocks.size_ne_zero hnn (touches_iff.mp htouch)
  have hzj := (hfree.blocks.join_size hnn hzn).2
  have hfree₁ := hfree.extend hnn htouch
  obtain ⟨hstart,hsize⟩ := extend_block htouch
  have hused := hchain.mem_used hnn hzn
  have hs₁ : s.extend a (a + z) n = s.setBlock n ((s.extend a (a + z) n).start n)
      (s.size n + (a + z - a)) := by
    rw [extend_eq,start_setBlock,Function.update_self]
  have hchain₁ := hchain.setBlock (a := (s.extend a (a + z) n).start n) hused hzj
  rw [← hs₁] at hchain₁
  have hsame : SameRest s (s.extend a (a + z) n) := by
    rw [hs₁]
    exact ⟨rfl,rfl,rfl,rfl⟩
  have htail : (s.extend a (a + z) n).vmmTail = s.vmmTail := by
    rw [hs₁]
    rfl
  have hkeep {m : U64} (hm : m ≠ n) : (s.extend a (a + z) n).start m = s.start m ∧
      (s.extend a (a + z) n).size m = s.size m := by
    rw [hs₁,start_setBlock,size_setBlock,Function.update_of_ne hm,Function.update_of_ne hm]
    exact ⟨rfl,rfl⟩
  have hclear : Sparse s.nodes (Function.update (s.extend a (a + z) n).start n 0#64)
      (Function.update (s.extend a (a + z) n).size n 0#64) := by
    rw [hs₁,start_setBlock,size_setBlock,Function.update_idem,Function.update_idem]
    exact hsparse.clear n
  generalize s.extend a (a + z) n = s₁ at *
  clear hs₁
  have hend : s₁.start n + s₁.size n = joinEnd s.start s.size a (a + z) n := by
    rw [hstart,hsize,add_sub_cancel]
    rfl
  have hstart : s₁.start n = joinStart s.start s.size a n := hstart
  have hside : (∀ m ∈ s₁.nodes, m ≠ n → s₁.size m ≠ 0#64 → s₁.start n ≠ s₁.start m + s₁.size m) ∨
      ∀ m ∈ s₁.nodes, m ≠ n → s₁.size m ≠ 0#64 → s₁.start n + s₁.size n ≠ s₁.start m := by
    rw [hend,hstart,hsame.nodes]
    refine (hsparse.join_side hnn hzn a (a + z)).imp (fun hs m hm hmn => ?_)
      fun hs m hm hmn => ?_
    · rw [(hkeep hmn).1,(hkeep hmn).2]
      exact hs m hm hmn
    · rw [(hkeep hmn).1,(hkeep hmn).2]
      exact hs m hm hmn
  have hlast (m : U64) (hm : m ∈ s₁.nodes) (hmn : m ≠ n)
      (ht : s₁.touches (s₁.start n) (s₁.start n + s₁.size n) m = true) : n ≠ s₁.vmmTail := by
    rw [hsame.nodes] at hm
    rw [touches_iff,(hkeep hmn).1,(hkeep hmn).2,hend,hstart] at ht
    rw [htail]
    exact hchain.first_ne_tail hfind hm hmn
      (touches_iff.mpr (hsparse.touches_of_join hfree.blocks hnn hzn hm ht))
  obtain ⟨t,hdone,hrest,hneat⟩ := Neat.mergeAgain hchain₁ hfree₁ hused (hsame.nodes ▸ hclear)
    hside hlast (hsame.nodes ▸ hfuel)
  exact ⟨t,hdone,hsame.trans hrest,hneat⟩

/-- A tail behind another empty node has its back pointer. -/
theorem Chain.prev_tail_ne_zero (h : Chain s before used (empty ++ [x])) (hempty : empty ≠ []) :
    s.prev x ≠ 0#64 := by
  have hnd := h.linked.nodup
  rw [← List.append_assoc] at hnd
  have hx : x ∉ used ++ empty := fun hm => List.disjoint_of_nodup_append hnd hm List.mem_cons_self
  have hhead : (empty ++ [x]).head? ≠ some x := by
    obtain ⟨y,e,rfl⟩ := List.exists_cons_of_ne_nil hempty
    intro he
    obtain rfl : y = x := Option.some.inj he
    exact hx (List.mem_append_right _ List.mem_cons_self)
  have hback := h.backed
  rw [← List.append_assoc] at hback
  have hbefore : before x = (used ++ empty).getLastD 0#64 := (backed_append.mp hback).2.1
  obtain ⟨l,t,hl⟩ : ∃ l t, used ++ empty = l ++ [t] := by
    rcases List.eq_nil_or_concat (used ++ empty) with hnil | ⟨l,t,hl⟩
    · exact absurd (List.append_eq_nil_iff.mp hnil).2 hempty
    · exact ⟨l,t,hl.trans List.concat_eq_append⟩
  rw [(h.prev x (by simp)).resolve_right (fun hp => hhead hp.2),hbefore,hl,List.getLastD_concat]
  refine h.ne_zero ?_
  rw [← List.append_assoc,hl]
  simp

theorem Chain.ne_nil (h : Chain s before used empty) : used ++ empty ≠ [] := by
  intro hnil
  have htail := h.tail
  rw [hnil] at htail
  cases htail

theorem Chain.scan (h : Chain s before used empty) (stop : U64 → Bool)
    (hfuel : s.nodes.card < fuel) : scan 0#64 s.next stop fuel s.vmmHead =
      some (match (used ++ empty).find? stop with
        | some q => (q,true)
        | none => (s.vmmTail,false)) := by
  have hlast : (used ++ empty).getLast h.ne_nil = s.vmmTail := by
    have htail := h.tail
    rw [List.getLast?_eq_some_getLast h.ne_nil] at htail
    exact Option.some.inj htail
  rw [scan_linked h.linked h.ne_nil (h.length ▸ hfuel.le),hlast]
  cases (used ++ empty).find? stop with
  | none => rfl
  | some q => rfl

theorem Chain.scan_far (h : Chain s before used empty)
    (hfar : ∀ m ∈ s.nodes, s.touches a (a + z) m = false) (hfuel : s.nodes.card < fuel) :
    Lios.scan 0#64 s.next (s.touches a (a + z)) fuel s.vmmHead = some (s.vmmTail,false) := by
  have hfind : (used ++ empty).find? (s.touches a (a + z)) = none := by
    refine List.find?_eq_none.mpr (fun m hm => ?_)
    rw [hfar m ((h.mem m).mp hm)]
    exact Bool.false_ne_true
  rw [h.scan _ hfuel,hfind]

/-- A block that touches no free block gets a node of its own. -/
theorem Chain.giveBack_far (h : Chain s before used empty)
    (hfar : ∀ m ∈ s.nodes, s.touches a (a + z) m = false) (hfuel : s.nodes.card < fuel) :
    Vmm.giveBack calls fuel a z s =
      (growFreeList calls s.vmmTail s).bind fun _ s => Vmm.recycleTail a z s := by
  unfold Vmm.giveBack
  simp only [if_neg h.head_ne_zero,h.scan_far hfar hfuel,if_neg (h.ne_zero h.tail_mem)]

/-- Giving a block back keeps the list in shape, unless an empty tail without a back
pointer would have to be recycled. -/
theorem Neat.giveBack {src : PageSupply calls} (h : Neat s)
    (hfree : FreeNodes (src.taken s.env) s (⟨a.toNat,z.toNat⟩ ::ₘ rest))
    (hcalls : (calls.kcallocPage s.env).Settled) (hfuel : s.nodes.card < fuel)
    (hguard : (∀ m ∈ s.nodes, s.touches a (a + z) m = false) → s.size s.vmmTail = 0#64 →
      s.prev s.vmmTail ≠ 0#64) :
    (Vmm.giveBack calls fuel a z s).Settled ∧
      ∀ t, Vmm.giveBack calls fuel a z s = .done () t → Neat t := by
  obtain ⟨before,used,empty,hchain⟩ := h.chain
  have hz : z ≠ 0#64 := by
    rintro rfl
    obtain ⟨-,-,-,-,hpos⟩ := hfree.blocks.other (Multiset.mem_cons_self _ _)
    simp at hpos
  have hdone {x : Outcome (Vmm E) Unit} (hx : ∃ t, x = .done () t ∧ Neat t) :
      x.Settled ∧ ∀ t, x = .done () t → Neat t := by
    obtain ⟨t,rfl,ht⟩ := hx
    refine ⟨trivial,fun t' he => ?_⟩
    obtain ⟨-,rfl⟩ := Outcome.done.inj he
    exact ht
  cases hfind : (used ++ empty).find? (s.touches a (a + z)) with
  | some n =>
    obtain ⟨t,ht,-,hneat⟩ := Neat.merge hchain h.sparse hfree hfind hfuel
    have hscan := hchain.scan (s.touches a (a + z)) hfuel
    rw [hfind] at hscan
    refine hdone ⟨t,?_,hneat⟩
    unfold Vmm.giveBack
    simp only [if_neg hchain.head_ne_zero,hscan]
    rw [mergeAgain_extend (List.find?_some hfind)]
    exact ht
  | none =>
    have hfar (m : U64) (hm : m ∈ s.nodes) : s.touches a (a + z) m = false :=
      Bool.not_eq_true _ ▸ List.find?_eq_none.mp hfind m ((hchain.mem m).mpr hm)
    rw [hchain.giveBack_far hfar hfuel]
    rcases List.eq_nil_or_concat empty with rfl | ⟨e,x,rfl⟩
    · cases hk : calls.kcallocPage s.env with
      | done p e =>
        obtain ⟨t,_,ht,-,hneat,-⟩ := Neat.insert_grow h.sparse hchain hfree hk hz
          (fun m hm _ => hfar m hm)
        exact hdone ⟨t,ht,hneat⟩
      | panic msg e =>
        have hpanic : ((growFreeList calls s.vmmTail s).bind fun _ s => Vmm.recycleTail a z s) =
            .panic msg ((envLens E).set e s) := by
          rw [growFreeList,if_pos (hchain.tail_in_use hfree),kcallocFreePage_panic hk]
          rfl
        rw [hpanic]
        exact ⟨trivial,fun t he => by cases he⟩
      | fault e => exact absurd hcalls (by rw [hk]; exact id)
      | spin => exact absurd hcalls (by rw [hk]; exact id)
    · rw [List.concat_eq_append] at hchain
      have htail := hchain.tail_eq
      have hprev : s.prev x ≠ 0#64 := by
        rw [htail]
        exact hguard hfar (htail ▸ hchain.empty_eq x (by simp))
      obtain ⟨t,_,ht,-,hneat,-⟩ := Neat.insert calls h.sparse hchain hprev hz
        (fun m hm _ => hfar m hm)
      exact hdone ⟨t,ht,hneat⟩

end Neat

end Lios.Vmm

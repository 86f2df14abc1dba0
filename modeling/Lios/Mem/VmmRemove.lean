import Lios.Mem.VmmList

/-! # Moving a free node to the end

In a list whose links go forth and back between the nodes, `vmm_list_remove_node` takes a node
out, empties it and puts it behind the tail. It does so for every node but the tail itself,
which it links to itself.
-/
namespace Lios.Vmm
variable {E : Type} {s t : Vmm E} {l : List U64} {x n : U64}

/-- The list `l` starts at the head, ends at the tail, and its links go forth and back. -/
structure Doubly (s : Vmm E) (l : List U64) : Prop where
  linked : Linked 0#64 s.next s.vmmHead l
  backed : Backed s.prev 0#64 l
  tail : l.getLast? = some s.vmmTail

section Doubly

theorem Doubly.tail_mem (h : Doubly s l) : s.vmmTail ∈ l := List.mem_of_getLast? h.tail

theorem Doubly.ne_zero (h : Doubly s l) (hn : n ∈ l) : n ≠ 0#64 := by
  rintro rfl
  exact h.linked.2 hn

theorem Doubly.ne_nil (h : Doubly s l) : l ≠ [] := List.ne_nil_of_mem h.tail_mem

theorem Doubly.head_ne_zero (h : Doubly s l) : s.vmmHead ≠ 0#64 := by
  intro h0
  exact h.ne_nil (h.linked.eq_nil h0)

theorem Doubly.next_tail (h : Doubly s l) : s.next s.vmmTail = 0#64 := by
  obtain ⟨l',rfl⟩ := exists_concat_of_getLast? h.tail
  exact linked_nil.mp h.linked.rest

/-- The nodes before and after a node that is not the last. -/
theorem Doubly.split (h : Doubly s l) (hx : x ∈ l) (ht : x ≠ s.vmmTail) :
    ∃ l₁ b l₂, l = l₁ ++ x :: b :: l₂ ∧ (b :: l₂).getLast? = some s.vmmTail := by
  obtain ⟨l₁,l₂,rfl⟩ := List.append_of_mem hx
  have htail := h.tail
  cases l₂ with
  | nil =>
    rw [List.getLast?_concat] at htail
    exact absurd (Option.some.inj htail) ht
  | cons b l₂ =>
    rw [List.getLast?_append_cons,List.getLast?_cons_cons] at htail
    exact ⟨l₁,b,l₂,rfl,htail⟩

end Doubly

/-- Links are rewritten, and the block of the node is cleared. -/
theorem vmmListRemoveNode_blocks (hdone : vmmListRemoveNode x s = .done () t) :
    t.start = Function.update s.start x 0#64 ∧ t.size = Function.update s.size x 0#64 := by
  unfold vmmListRemoveNode at hdone
  extract_lets s₁ s₂ s₃ s₄ s₅ at hdone
  have h₂ : s₂.start = s₁.start ∧ s₂.size = s₁.size := by
    simp only [s₂]
    split
    · exact ⟨start_setPrev _ _ _,size_setPrev _ _ _⟩
    · exact ⟨rfl,rfl⟩
  have h₃ : s₃.start = s₂.start ∧ s₃.size = s₂.size := by
    simp only [s₃]
    split
    · exact ⟨start_setNext _ _ _,size_setNext _ _ _⟩
    · exact ⟨rfl,rfl⟩
  have h₅ : s₅.start = s₃.start ∧ s₅.size = s₃.size := by
    simp only [s₅,s₄,start_setPrev,size_setPrev,start_setNext,size_setNext,and_self]
  rw [h₃.1,h₂.1,h₃.2,h₂.2,start_setBlock,size_setBlock] at h₅
  clear_value s₅
  split at hdone
  · cases hdone
  · obtain ⟨-,rfl⟩ := Outcome.done.inj hdone
    exact ⟨(start_setNext s₅ _ _).trans h₅.1,(size_setNext s₅ _ _).trans h₅.2⟩

/-- The node is last and empty, and the other nodes keep their blocks and their order. -/
structure MovedToEnd (s t : Vmm E) (l : List U64) (x : U64) : Prop where
  list : Doubly t (l.erase x ++ [x])
  start_eq : t.start x = 0#64
  size_eq : t.size x = 0#64
  kept : ∀ n, n ≠ x → t.start n = s.start n ∧ t.size n = s.size n

theorem Doubly.removeNode (h : Doubly s l) (hx : x ∈ l) (ht : x ≠ s.vmmTail) :
    ∃ t, vmmListRemoveNode x s = .done () t ∧ SameRest s t ∧ MovedToEnd s t l x := by
  obtain ⟨l₁,b,l₂,rfl,hlast⟩ := h.split hx ht
  have hnd := h.linked.nodup
  have hnext : s.next x = b := h.linked.next_eq
  have hb : b ≠ 0#64 := h.ne_zero (by simp)
  have hprev : s.prev x = l₁.getLastD 0#64 := (backed_append.mp h.backed).2.1
  have hxl : x ∉ l₁ := (List.nodup_cons.mp (List.nodup_middle.mp hnd)).1 ∘
    List.mem_append_left _
  obtain ⟨t,hdone,hrest,-,htail,hprev',hnext',hhead⟩ :=
    vmmListRemoveNode_eq (hnext ▸ hb) (h.ne_zero h.tail_mem)
  obtain ⟨hstart,hsize⟩ := vmmListRemoveNode_blocks hdone
  have herase : (l₁ ++ x :: b :: l₂).erase x ++ [x] = l₁ ++ b :: l₂ ++ [x] := by
    rw [List.erase_append_right _ hxl,List.erase_cons_head]
  refine ⟨t,hdone,hrest,⟨?_,?_,?_⟩,?_,?_,fun n hn => ?_⟩
  · rw [herase,hnext',hhead]
    exact h.linked.moveToEnd hprev hlast
  · rw [herase,hprev',hnext]
    exact h.backed.moveToEnd hnd hlast
  · rw [List.getLast?_concat,htail]
  · rw [hstart,Function.update_self]
  · rw [hsize,Function.update_self]
  · rw [hstart,hsize,Function.update_of_ne hn,Function.update_of_ne hn]
    exact ⟨rfl,rfl⟩

/-- The tail is linked to itself. -/
theorem vmmListRemoveNode_tail (hdone : vmmListRemoveNode s.vmmTail s = .done () t) :
    t.vmmTail = s.vmmTail ∧ t.next s.vmmTail = s.vmmTail := by
  unfold vmmListRemoveNode at hdone
  extract_lets s₁ s₂ s₃ s₄ s₅ at hdone
  have h₂ : s₂.vmmTail = s.vmmTail := by
    simp only [s₂]
    split
    · rfl
    · rfl
  have h₃ : s₃.vmmTail = s₂.vmmTail := by
    simp only [s₃]
    split
    · rfl
    · rfl
  have h₅ : s₅.vmmTail = s.vmmTail := h₃.trans h₂
  clear_value s₅
  split at hdone
  · cases hdone
  · obtain ⟨-,rfl⟩ := Outcome.done.inj hdone
    have hnext : (s₅.setNext s₅.vmmTail s.vmmTail).next s.vmmTail = s.vmmTail := by
      rw [next_setNext,h₅,Function.update_self]
    exact ⟨rfl,hnext⟩

/-- Removing a node keeps the list if and only if the node is not the tail. -/
theorem vmmListRemoveNode_keeps_iff (h : Doubly s l) (hx : x ∈ l) :
    (∃ t, vmmListRemoveNode x s = .done () t ∧ MovedToEnd s t l x) ↔ x ≠ s.vmmTail := by
  constructor
  · rintro ⟨t,hdone,hmoved⟩ rfl
    obtain ⟨htail,hself⟩ := vmmListRemoveNode_tail hdone
    have hnext := hmoved.list.next_tail
    rw [htail,hself] at hnext
    exact h.ne_zero hx hnext
  · intro ht
    obtain ⟨t,hdone,-,hmoved⟩ := h.removeNode hx ht
    exact ⟨t,hdone,hmoved⟩

/-- Two free pages in two nodes, none of them empty. -/
def twoPages : Vmm Unit where
  free n := if n = 0x1000#64 then ⟨0#64,0x1020#64,0xFFFFF00000000000#64,0x1000#64⟩
    else if n = 0x1020#64 then ⟨0x1000#64,0#64,0xFFFFF00000002000#64,0x1000#64⟩
    else ⟨0#64,0#64,0#64,0#64⟩
  alloc _ := ⟨0#64,0#64,0#64⟩
  vmmHead := 0x1000#64
  vmmTail := 0x1020#64
  allocHead := 0#64
  freePages := []
  env := ()

theorem doubly_twoPages : Doubly twoPages [0x1000#64,0x1020#64] :=
  ⟨⟨⟨rfl,rfl,rfl⟩,by decide⟩,⟨rfl,rfl,trivial⟩,rfl⟩

theorem twoPages_keeps_head :
    ∃ t, vmmListRemoveNode 0x1000#64 twoPages = .done () t ∧
      MovedToEnd twoPages t [0x1000#64,0x1020#64] 0x1000#64 :=
  (vmmListRemoveNode_keeps_iff doubly_twoPages (by decide)).mpr (by decide)

/-- Removing the second of two nodes links it to itself. -/
theorem twoPages_not_keeps_tail : Doubly twoPages [0x1000#64,0x1020#64] ∧
    ¬ ∃ t, vmmListRemoveNode 0x1020#64 twoPages = .done () t ∧
      MovedToEnd twoPages t [0x1000#64,0x1020#64] 0x1020#64 := by
  refine ⟨doubly_twoPages,?_⟩
  rintro ⟨t,hdone,hmoved⟩
  obtain ⟨htail,hself⟩ := vmmListRemoveNode_tail hdone
  have hnext := hmoved.list.next_tail
  rw [htail,hself] at hnext
  exact absurd hnext (by decide)

end Lios.Vmm

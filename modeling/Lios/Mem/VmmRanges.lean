import Mathlib.Tactic.Ring
import Lios.Lib.Runs
import Lios.Mem.VmmTable
import Lios.Mem.VmmBlocks

/-! # Virtual blocks never overlap

The blocks of all free nodes and the outstanding blocks tile the address range in
every state that completed calls reach. Nothing is said here about the order of
the free list: a step only has to follow pointers that lead to free nodes, so the
result also holds where the list has lost nodes.
-/
namespace Lios.Vmm
variable {E : Type} {calls : PageCalls E} {s s' : Vmm E} {n p q cur : U64}

/-- A pointer to a free node or null. -/
def Ptr (s : Vmm E) (p : U64) : Prop := p = 0#64 ∨ p ∈ s.nodes

/-- The pointers of the free list lead to free nodes. -/
structure Closed (s : Vmm E) : Prop where
  head : s.Ptr s.vmmHead
  tail : s.vmmTail ∈ s.nodes
  next : ∀ n ∈ s.nodes, s.Ptr (s.next n)
  prev : ∀ n ∈ s.nodes, s.Ptr (s.prev n)

section Closed

theorem ptr_update {g : U64 → U64} {m : U64} (hg : s.Ptr (g m)) (n : U64) (hp : s.Ptr p) :
    s.Ptr (Function.update g n p m) := by
  by_cases hmn : m = n
  · rw [hmn,Function.update_self]
    exact hp
  · rw [Function.update_of_ne hmn]
    exact hg

theorem Closed.setNext (h : Closed s) (n : U64) (hp : s.Ptr p) : Closed (s.setNext n p) := by
  refine ⟨h.head,h.tail,fun m hm => ?_,fun m hm => ?_⟩
  · rw [next_setNext]
    exact ptr_update (h.next m hm) n hp
  · rw [prev_setNext]
    exact h.prev m hm

theorem Closed.setPrev (h : Closed s) (n : U64) (hp : s.Ptr p) : Closed (s.setPrev n p) := by
  refine ⟨h.head,h.tail,fun m hm => ?_,fun m hm => ?_⟩
  · rw [next_setPrev]
    exact h.next m hm
  · rw [prev_setPrev]
    exact ptr_update (h.prev m hm) n hp

theorem Closed.setBlock (h : Closed s) (n a z : U64) : Closed (s.setBlock n a z) := by
  refine ⟨h.head,h.tail,fun m hm => ?_,fun m hm => ?_⟩
  · rw [next_setBlock]
    exact h.next m hm
  · rw [prev_setBlock]
    exact h.prev m hm

theorem Closed.setHead (h : Closed s) (hp : s.Ptr p) : Closed { s with vmmHead := p } :=
  ⟨hp,h.tail,h.next,h.prev⟩

theorem Closed.setTail (h : Closed s) (hp : p ∈ s.nodes) : Closed { s with vmmTail := p } :=
  ⟨h.head,hp,h.next,h.prev⟩

theorem Closed.segment {l : List U64} (h : Closed s) (hs : Segment s.next p l q) (hp : s.Ptr p)
    (hl : 0#64 ∉ l) : s.Ptr q := by
  induction l generalizing p with
  | nil =>
    obtain rfl : p = q := hs
    exact hp
  | cons x l ih =>
    obtain ⟨rfl,hs⟩ := hs
    have hx : p ≠ 0#64 := fun h0 => hl (h0 ▸ List.mem_cons_self)
    exact ih hs (h.next p (hp.resolve_left hx)) (fun h0 => hl (List.mem_cons_of_mem _ h0))

/-- A search from the head that finds something finds a free node. -/
theorem Closed.walk {stop : U64 → Bool} {fuel : ℕ} (h : Closed s)
    (hw : walk 0#64 s.next stop fuel s.vmmHead = some cur) (hc : cur ≠ 0#64) :
    cur ∈ s.nodes ∧ stop cur = true := by
  obtain ⟨l,-,hs,hl,hend⟩ := walk_eq_some.mp hw
  refine ⟨(h.segment hs h.head (fun h0 => (hl _ h0).1 rfl)).resolve_left hc,?_⟩
  exact hend.resolve_left hc

theorem Closed.scan {stop : U64 → Bool} {fuel : ℕ} {b : Bool} (h : Closed s)
    (hhead : s.vmmHead ≠ 0#64)
    (hw : scan 0#64 s.next stop fuel s.vmmHead = some (cur,b)) :
    cur ∈ s.nodes ∧ stop cur = b := by
  obtain ⟨l,hs,hl,hend,-⟩ := scan_eq_some hw
  obtain ⟨h0,hc⟩ := hs.ne_null hhead (fun x hx => (hl x hx).2)
  exact ⟨(h.segment hs h.head h0).resolve_left hc,hend⟩

end Closed

/-- The allocated nodes, the pages and the rest of the machine are the same. -/
structure SameRest (s s' : Vmm E) : Prop where
  alloc : s'.alloc = s.alloc
  allocHead : s'.allocHead = s.allocHead
  pages : s'.freePages = s.freePages
  env : s'.env = s.env

theorem SameRest.nodes (h : SameRest s s') : s'.nodes = s.nodes := by
  rw [Vmm.nodes,Vmm.nodes,h.pages]

theorem SameRest.trans {t : Vmm E} (h : SameRest s t) (h' : SameRest t s') : SameRest s s' :=
  ⟨h'.alloc.trans h.alloc,h'.allocHead.trans h.allocHead,h'.pages.trans h.pages,
    h'.env.trans h.env⟩

theorem SameRest.ptr (h : SameRest s s') : s'.Ptr p ↔ s.Ptr p := by
  rw [Ptr,Ptr,h.nodes]

/-- Links were rewritten, to free nodes or null, and nothing else. -/
structure Relinked (s s' : Vmm E) : Prop where
  closed : Closed s'
  rest : SameRest s s'
  start : s'.start = s.start
  size : s'.size = s.size

section Relinked
variable {t : Vmm E}

theorem Relinked.refl (h : Closed s) : Relinked s s := ⟨h,⟨rfl,rfl,rfl,rfl⟩,rfl,rfl⟩

theorem Relinked.setNext (h : Relinked s t) (n : U64) (hp : s.Ptr p) :
    Relinked s (t.setNext n p) := by
  refine ⟨h.closed.setNext n (h.rest.ptr.mpr hp),h.rest.trans ⟨rfl,rfl,rfl,rfl⟩,?_,?_⟩
  · rw [start_setNext,h.start]
  · rw [size_setNext,h.size]

theorem Relinked.setPrev (h : Relinked s t) (n : U64) (hp : s.Ptr p) :
    Relinked s (t.setPrev n p) := by
  refine ⟨h.closed.setPrev n (h.rest.ptr.mpr hp),h.rest.trans ⟨rfl,rfl,rfl,rfl⟩,?_,?_⟩
  · rw [start_setPrev,h.start]
  · rw [size_setPrev,h.size]

theorem Relinked.setHead (h : Relinked s t) (hp : s.Ptr p) :
    Relinked s { t with vmmHead := p } :=
  ⟨h.closed.setHead (h.rest.ptr.mpr hp),h.rest.trans ⟨rfl,rfl,rfl,rfl⟩,h.start,h.size⟩

theorem Relinked.setTail (h : Relinked s t) (hp : p ∈ s.nodes) :
    Relinked s { t with vmmTail := p } :=
  ⟨h.closed.setTail (h.rest.nodes ▸ hp),h.rest.trans ⟨rfl,rfl,rfl,rfl⟩,h.start,h.size⟩

theorem Relinked.next (h : Relinked s t) (hn : n ∈ s.nodes) : s.Ptr (t.next n) :=
  h.rest.ptr.mp (h.closed.next n (h.rest.nodes ▸ hn))

theorem Relinked.prev (h : Relinked s t) (hn : n ∈ s.nodes) : s.Ptr (t.prev n) :=
  h.rest.ptr.mp (h.closed.prev n (h.rest.nodes ▸ hn))

end Relinked

/-- Moving a node to the end empties it and rewrites links. -/
theorem Closed.removeNode (h : Closed s) (hn : n ∈ s.nodes)
    (hdone : vmmListRemoveNode n s = .done () s') :
    Relinked (s.setBlock n 0#64 0#64) s' := by
  unfold vmmListRemoveNode at hdone
  extract_lets s₁ s₂ s₃ s₄ s₅ at hdone
  have h₁ : Relinked s₁ s₁ := Relinked.refl (h.setBlock n 0#64 0#64)
  have h₂ : Relinked s₁ s₂ := by
    unfold s₂
    split
    · exact h₁.setPrev _ (h₁.prev hn)
    · exact h₁
  have h₃ : Relinked s₁ s₃ := by
    unfold s₃
    split
    · exact h₂.setNext _ (h₂.next hn)
    · exact h₂.setHead (h₂.next hn)
  have h₄ : Relinked s₁ s₄ := h₃.setNext n (Or.inl rfl)
  have h₅ : Relinked s₁ s₅ := h₄.setPrev n (h₄.rest.ptr.mp (Or.inr h₄.closed.tail))
  split at hdone
  · cases hdone
  · obtain ⟨-,rfl⟩ := Outcome.done.inj hdone
    exact (h₅.setNext s₅.vmmTail (Or.inr hn)).setTail hn

/-- The free nodes lie on taken pages, and their blocks with `rest` tile the address
range. -/
structure FreeNodes (taken : Finset U64) (s : Vmm E) (rest : Multiset Block) : Prop where
  closed : Closed s
  pages : ∀ p ∈ s.freePages, IsPage p ∧ p ∈ taken
  blocks : Blocks s.nodes s.start s.size rest

section FreeNodes
variable {taken taken' : Finset U64} {rest rest' : Multiset Block} {bs be a z : U64} {fuel : ℕ}

theorem FreeNodes.mono (h : FreeNodes taken s rest) (hsub : taken ⊆ taken') :
    FreeNodes taken' s rest :=
  ⟨h.closed,fun p hp => ⟨(h.pages p hp).1,hsub (h.pages p hp).2⟩,h.blocks⟩

theorem SameFree.nodes (h : SameFree s s') : s'.nodes = s.nodes := by
  rw [Vmm.nodes,Vmm.nodes,h.pages]

theorem SameFree.closed (he : SameFree s s') (h : Closed s) : Closed s' := by
  have hptr {p : U64} : s'.Ptr p ↔ s.Ptr p := by rw [Ptr,Ptr,he.nodes]
  refine ⟨?_,?_,?_,?_⟩
  · rw [hptr,he.head]
    exact h.head
  · rw [he.nodes,he.tail]
    exact h.tail
  · rw [he.nodes,he.next]
    exact fun n hn => hptr.mpr (h.next n hn)
  · rw [he.nodes,he.prev]
    exact fun n hn => hptr.mpr (h.prev n hn)

theorem FreeNodes.same (h : FreeNodes taken s rest) (he : SameFree s s') :
    FreeNodes taken s' rest := by
  refine ⟨he.closed h.closed,?_,?_⟩
  · rw [he.pages]
    exact h.pages
  · rw [he.nodes,he.start,he.size]
    exact h.blocks

theorem FreeNodes.ne_zero (h : FreeNodes taken s rest) (hn : n ∈ s.nodes) : n ≠ 0#64 := by
  obtain ⟨p,hp,i,hi,rfl⟩ := mem_nodesOn.mp hn
  exact (h.pages p hp).1.ne_zero_of_onPage (onPage_cell (by omega))

/-- Rewriting blocks and then links. -/
theorem FreeNodes.rewrite {t : Vmm E} (h : FreeNodes taken s rest) (hr : Relinked t s')
    (ht : SameRest s t) (hb : Blocks s.nodes t.start t.size rest') :
    FreeNodes taken s' rest' ∧ SameRest s s' := by
  have hrest := ht.trans hr.rest
  refine ⟨⟨hr.closed,?_,?_⟩,hrest⟩
  · rw [hrest.pages]
    exact h.pages
  · rw [hrest.nodes,hr.start,hr.size]
    exact hb

theorem FreeNodes.setBlock (h : FreeNodes taken s rest)
    (hb : Blocks s.nodes (Function.update s.start n a) (Function.update s.size n z) rest') :
    FreeNodes taken (s.setBlock n a z) rest' := by
  rw [← start_setBlock s n a z,← size_setBlock s n a z] at hb
  exact (h.rewrite (Relinked.refl (h.closed.setBlock n a z)) ⟨rfl,rfl,rfl,rfl⟩ hb).1

/-- Taking a block from a node that has enough. -/
theorem FreeNodes.takeBlock (h : FreeNodes taken s rest) (hn : n ∈ s.nodes) (hle : z ≤ s.size n)
    (hpos : 0 < z.toNat) (hal : z.toNat % 4096 = 0)
    (hdone : takeBlock n z s = .done () s') :
    FreeNodes taken s' (⟨(s.start n).toNat,z.toNat⟩ ::ₘ rest) ∧ SameRest s s' := by
  have hle := BitVec.le_def.mp hle
  unfold Vmm.takeBlock at hdone
  split at hdone
  · rename_i heq
    have hz : s.size n ≠ 0#64 := by
      rw [heq]
      rintro rfl
      simp at hpos
    refine h.rewrite (h.closed.removeNode hn hdone) ⟨rfl,rfl,rfl,rfl⟩ ?_
    rw [start_setBlock,size_setBlock,← heq]
    exact h.blocks.release hn hz
  · rename_i hne
    obtain ⟨-,rfl⟩ := Outcome.done.inj hdone
    have hlt : z.toNat < (s.size n).toNat :=
      lt_of_le_of_ne hle (fun he => hne (BitVec.eq_of_toNat_eq he).symm)
    exact ⟨h.setBlock (h.blocks.cut hn hlt hpos hal),rfl,rfl,rfl,rfl⟩

theorem extend_eq : s.extend bs be n = s.setBlock n
    (if bs = s.start n + s.size n then s.start n else s.start n - (be - bs))
    (s.size n + (be - bs)) := by
  unfold extend
  split <;> rfl

theorem touches_iff : s.touches bs be n = true ↔ bs = s.start n + s.size n ∨ be = s.start n := by
  simp [touches]

/-- A node takes over a block that it touches. -/
theorem FreeNodes.extend (h : FreeNodes taken s (⟨bs.toNat,(be - bs).toNat⟩ ::ₘ rest))
    (hn : n ∈ s.nodes) (ht : s.touches bs be n = true) :
    FreeNodes taken (s.extend bs be n) rest := by
  rw [extend_eq]
  exact h.setBlock (h.blocks.join hn (touches_iff.mp ht))

/-- The block that results covers both. -/
theorem extend_block (hn : s.touches bs be n = true) :
    (s.extend bs be n).start n = (if bs = s.start n + s.size n then s.start n else bs) ∧
    (s.extend bs be n).size n = (if bs = s.start n + s.size n then be
      else s.start n + s.size n) - (if bs = s.start n + s.size n then s.start n else bs) := by
  rw [extend_eq,start_setBlock,size_setBlock,Function.update_self,Function.update_self]
  by_cases hr : bs = s.start n + s.size n
  · simp only [if_pos hr]
    refine ⟨trivial,?_⟩
    rw [hr]
    ring
  · have hl := (touches_iff.mp hn).resolve_left hr
    simp only [if_neg hr]
    refine ⟨?_,?_⟩
    · rw [hl]
      ring
    · rw [hl]
      ring

/-- Both calls look for a second neighbour of the joined block. -/
theorem mergeAgain_extend (hn : s.touches bs be n = true) :
    (if bs = s.start n + s.size n then mergeAgain fuel n (s.start n) be (s.extend bs be n)
      else mergeAgain fuel n bs ((s.extend bs be n).start n + (s.extend bs be n).size n)
        (s.extend bs be n)) =
      mergeAgain fuel n ((s.extend bs be n).start n)
        ((s.extend bs be n).start n + (s.extend bs be n).size n) (s.extend bs be n) := by
  obtain ⟨hstart,hsize⟩ := extend_block hn
  by_cases hr : bs = s.start n + s.size n
  · rw [if_pos hr] at hstart hsize ⊢
    rw [if_pos hr] at hsize
    rw [hstart,hsize,add_sub_cancel]
  · rw [if_neg hr] at hstart ⊢
    rw [hstart]

theorem touches_self (hz : s.size n ≠ 0#64) :
    s.touches (s.start n) (s.start n + s.size n) n = false := by
  rw [← Bool.not_eq_true,touches_iff,not_or,left_eq_add,add_eq_left]
  exact ⟨hz,hz⟩

/-- The second neighbour takes the joined block over and its node is moved to the end. -/
theorem FreeNodes.mergeAgain (h : FreeNodes taken s rest) (hn : n ∈ s.nodes)
    (hz : s.size n ≠ 0#64)
    (hdone : mergeAgain fuel n (s.start n) (s.start n + s.size n) s = .done () s') :
    FreeNodes taken s' rest ∧ SameRest s s' := by
  unfold Vmm.mergeAgain at hdone
  split at hdone
  · cases hdone
  rename_i cur hw
  split at hdone
  · obtain ⟨-,rfl⟩ := Outcome.done.inj hdone
    exact ⟨h,rfl,rfl,rfl,rfl⟩
  rename_i hc
  obtain ⟨hcur,htouch⟩ := h.closed.walk hw hc
  have hcn : cur ≠ n := by
    rintro rfl
    rw [touches_self hz] at htouch
    cases htouch
  have hrel := h.blocks.release hn hz
  have hend : s.start n + s.size n - s.start n = s.size n := add_sub_cancel_left _ _
  rw [← hend] at hrel
  have hjoin := hrel.join hcur (by
    rw [Function.update_of_ne hcn,Function.update_of_ne hcn]
    exact touches_iff.mp htouch)
  rw [Function.update_of_ne hcn,Function.update_of_ne hcn,Function.update_comm hcn.symm,
    Function.update_comm hcn.symm] at hjoin
  rw [extend_eq] at hdone
  refine h.rewrite ((h.closed.setBlock _ _ _).removeNode hn hdone) ⟨rfl,rfl,rfl,rfl⟩ ?_
  rw [start_setBlock,start_setBlock,size_setBlock,size_setBlock]
  exact hjoin

/-- The tail, if it is empty, takes a block over. -/
theorem FreeNodes.recycleTail (h : FreeNodes taken s (⟨a.toNat,z.toNat⟩ ::ₘ rest))
    (hz : s.size s.vmmTail = 0#64) (hdone : recycleTail a z s = .done () s') :
    FreeNodes taken s' rest ∧ SameRest s s' := by
  unfold Vmm.recycleTail at hdone
  extract_lets cur s₁ s₂ s₃ s₄ s₅ s₆ at hdone
  have h₀ := Relinked.refl h.closed
  split at hdone
  · cases hdone
  rename_i hprev
  obtain ⟨-,rfl⟩ := Outcome.done.inj hdone
  have hcur : cur ∈ s.nodes := h.closed.tail
  have h₁ : Relinked s s₁ := h₀.setTail ((h₀.prev hcur).resolve_left hprev)
  have h₂ : Relinked s s₂ := h₁.setNext s₁.vmmTail (Or.inl rfl)
  have h₃ : Relinked s s₃ := h₂.setPrev cur (Or.inl rfl)
  have h₄ : Relinked s s₄ := h₃.setNext cur (h₃.rest.ptr.mp h₃.closed.head)
  have h₅ : Relinked s₅ s₅ := Relinked.refl (h₄.closed.setBlock cur a z)
  have hcur₅ : cur ∈ s₅.nodes := h₄.rest.nodes ▸ hcur
  have h₆ : Relinked s₅ s₆ := h₅.setPrev s₅.vmmHead (Or.inr hcur₅)
  refine h.rewrite (h₆.setHead (Or.inr hcur₅)) (h₄.rest.trans ⟨rfl,rfl,rfl,rfl⟩) ?_
  rw [start_setBlock,size_setBlock,h₄.start,h₄.size]
  exact h.blocks.accept hcur hz

/-- The state after a page of free nodes was set up. -/
def withFreePage (p : U64) (e : E) (s : Vmm E) : Vmm E :=
  setUpPageForFreeList p { s with
    env := e
    free := fun q => if (q - p).toNat < 4096 then ⟨0#64,0#64,0#64,0#64⟩ else s.free q }

theorem withFreePage_spec (p : U64) (e : E) (s : Vmm E) :
    (withFreePage p e s).vmmTail = cell 32 p 127 ∧
    (∀ q, ¬ OnPage p q → (withFreePage p e s).free q = s.free q) ∧
    ∀ j < 128, (withFreePage p e s).free (cell 32 p j) = freshFree p 128 j := by
  obtain ⟨htail,hout,hfirst,hpage⟩ := setUpPageForFreeList_spec p
    ({ s with env := e, free := fun q =>
      if (q - p).toNat < 4096 then ⟨0#64,0#64,0#64,0#64⟩ else s.free q } : Vmm E)
  unfold withFreePage
  refine ⟨htail,fun q hq => ?_,fun j hj => ?_⟩
  · rw [hout q (fun j hj he => hq (he ▸ onPage_cell (by omega)))]
    exact if_neg hq
  · by_cases h0 : j = 0
    · subst h0
      rw [cell_zero,hfirst,freshFree]
      simp
    · exact hpage j (by omega) hj

theorem withFreePage_frame (p : U64) (e : E) (s : Vmm E) :
    (withFreePage p e s).alloc = s.alloc ∧ (withFreePage p e s).allocHead = s.allocHead ∧
    (withFreePage p e s).vmmHead = s.vmmHead ∧
    (withFreePage p e s).freePages = p :: s.freePages ∧ (withFreePage p e s).env = e := by
  obtain ⟨ha,hh,hv,hp,he⟩ := setUpPageForFreeList_frame p
    ({ s with env := e, free := fun q =>
      if (q - p).toNat < 4096 then ⟨0#64,0#64,0#64,0#64⟩ else s.free q } : Vmm E)
  unfold withFreePage
  exact ⟨ha,hh,hv,hp,he⟩

theorem freshFree_ptr {j : ℕ} (hcell : ∀ j < 128, cell 32 p j ∈ s.nodes) (hj : j < 128) :
    s.Ptr (freshFree p 128 j).next ∧ s.Ptr (freshFree p 128 j).prev := by
  rw [freshFree]
  refine ⟨?_,?_⟩
  · by_cases hlast : j + 1 = 128
    · exact Or.inl (if_pos hlast)
    · rw [if_neg hlast]
      exact Or.inr (hcell (j + 1) (by omega))
  · by_cases h0 : j = 0
    · exact Or.inl (if_pos h0)
    · rw [if_neg h0]
      exact Or.inr (hcell (j - 1) (by omega))

theorem FreeNodes.not_onPage (h : FreeNodes taken s rest) (hp : IsPage p) (hfresh : p ∉ taken)
    (hn : n ∈ s.nodes) : ¬ OnPage p n := by
  intro ho
  obtain ⟨r,hr,i,hi,rfl⟩ := mem_nodesOn.mp hn
  have heq := hp.eq_of_onPage (h.pages r hr).1 ho (onPage_cell (by omega))
  exact hfresh (heq ▸ (h.pages r hr).2)

theorem mem_nodes_withFreePage {e : E} : q ∈ (withFreePage p e s).nodes ↔
    (∃ j < 128, cell 32 p j = q) ∨ q ∈ s.nodes := by
  rw [nodes,nodes,mem_nodesOn,mem_nodesOn,(withFreePage_frame p e s).2.2.2.1]
  simp

/-- The nodes of a fresh page are empty, and the others keep their blocks. -/
theorem FreeNodes.withFreePage_blocks (h : FreeNodes taken s rest) (hp : IsPage p)
    (hfresh : p ∉ taken) (e : E) :
    (∀ q ∈ s.nodes, (withFreePage p e s).start q = s.start q ∧
      (withFreePage p e s).size q = s.size q) ∧
    ∀ q ∈ (withFreePage p e s).nodes, q ∉ s.nodes → (withFreePage p e s).start q = 0#64 ∧
      (withFreePage p e s).size q = 0#64 := by
  obtain ⟨-,hout,hpage⟩ := withFreePage_spec p e s
  refine ⟨fun q hq => ?_,fun q hq hqn => ?_⟩
  · rw [start,size,hout q (h.not_onPage hp hfresh hq)]
    exact ⟨rfl,rfl⟩
  · obtain ⟨j,hj,rfl⟩ := (mem_nodes_withFreePage.mp hq).resolve_right hqn
    rw [start,size,hpage j hj]
    exact ⟨rfl,rfl⟩

/-- A fresh page adds empty nodes, the last of which is the tail. -/
theorem FreeNodes.withFreePage (h : FreeNodes taken s rest) (hp : IsPage p) (hfresh : p ∉ taken)
    (e : E) : FreeNodes (insert p taken) (withFreePage p e s) rest ∧
      (Vmm.withFreePage p e s).size (Vmm.withFreePage p e s).vmmTail = 0#64 := by
  obtain ⟨htail,hout,hpage⟩ := withFreePage_spec p e s
  obtain ⟨-,-,hhead,hpages,-⟩ := withFreePage_frame p e s
  obtain ⟨hkeep,hnew⟩ := h.withFreePage_blocks hp hfresh e
  have hmem (q : U64) := mem_nodes_withFreePage (q := q) (p := p) (e := e) (s := s)
  generalize Vmm.withFreePage p e s = t at *
  have hcell (j : ℕ) (hj : j < 128) : cell 32 p j ∈ t.nodes := (hmem _).mpr (Or.inl ⟨j,hj,rfl⟩)
  have hptr {q : U64} (hq : s.Ptr q) : t.Ptr q := hq.imp_right (fun hq => (hmem q).mpr (Or.inr hq))
  have hold (q : U64) (hq : q ∈ s.nodes) : t.free q = s.free q :=
    hout q (h.not_onPage hp hfresh hq)
  refine ⟨⟨⟨?_,?_,?_,?_⟩,?_,?_⟩,?_⟩
  · rw [hhead]
    exact hptr h.closed.head
  · rw [htail]
    exact hcell 127 (by decide)
  · intro q hq
    rcases (hmem q).mp hq with ⟨j,hj,rfl⟩ | hq
    · rw [next,hpage j hj]
      exact (freshFree_ptr hcell hj).1
    · rw [next,hold q hq]
      exact hptr (h.closed.next q hq)
  · intro q hq
    rcases (hmem q).mp hq with ⟨j,hj,rfl⟩ | hq
    · rw [prev,hpage j hj]
      exact (freshFree_ptr hcell hj).2
    · rw [prev,hold q hq]
      exact hptr (h.closed.prev q hq)
  · intro q hq
    rw [hpages,List.mem_cons] at hq
    rcases hq with rfl | hq
    · exact ⟨hp,Finset.mem_insert_self _ _⟩
    · exact ⟨(h.pages q hq).1,Finset.mem_insert_of_mem (h.pages q hq).2⟩
  · exact h.blocks.grow (fun q hq => (hmem q).mpr (Or.inr hq)) hkeep hnew
  · rw [htail,size,hpage 127 (by decide)]
    rfl

/-- The table of allocated blocks is the same, and no taken page is given back. -/
structure SameTable (src : PageSupply calls) (s s' : Vmm E) : Prop where
  alloc : s'.alloc = s.alloc
  allocHead : s'.allocHead = s.allocHead
  taken : src.taken s.env ⊆ src.taken s'.env

theorem SameRest.sameTable (src : PageSupply calls) (h : SameRest s s') : SameTable src s s' :=
  ⟨h.alloc,h.allocHead,by rw [h.env]⟩

theorem SameTable.trans {t : Vmm E} {src : PageSupply calls} (h : SameTable src s t)
    (h' : SameTable src t s') : SameTable src s s' :=
  ⟨h'.alloc.trans h.alloc,h'.allocHead.trans h.allocHead,h.taken.trans h'.taken⟩

variable (src : PageSupply calls)

/-- After growing, if it was needed, the tail is empty. -/
theorem FreeNodes.growFreeList (h : FreeNodes (src.taken s.env) s rest)
    (hdone : growFreeList calls cur s = .done () s') :
    FreeNodes (src.taken s'.env) s' rest ∧ s'.size s'.vmmTail = 0#64 ∧ SameTable src s s' := by
  unfold Vmm.growFreeList at hdone
  split at hdone
  · obtain ⟨p,_,hk,hrest⟩ := Outcome.bind_eq_done.mp hdone
    obtain ⟨e,he,rfl⟩ := kcallocFreePage_eq_done.mp hk
    obtain ⟨-,rfl⟩ := Outcome.done.inj hrest
    obtain ⟨hp,hfresh,hsub⟩ := src.kcallocPage he
    obtain ⟨hgrown,htail⟩ := h.withFreePage hp hfresh e
    obtain ⟨ha,hh,-,hpages,henv⟩ := withFreePage_frame p e s
    unfold Vmm.withFreePage at hgrown htail ha hh hpages henv
    generalize hs₂ : setUpPageForFreeList p _ = s₂ at *
    have hpn : p ∈ s₂.nodes := by
      rw [nodes,mem_nodesOn,hpages]
      exact ⟨p,List.mem_cons_self,0,by decide,cell_zero⟩
    have hr : Relinked s₂ (s₂.setNext cur p) :=
      (Relinked.refl hgrown.closed).setNext cur (Or.inr hpn)
    have hsub₂ : insert p (src.taken s.env) ⊆ src.taken (s₂.setNext cur p).env := by
      rw [hr.rest.env,henv]
      exact hsub
    obtain ⟨hnew,-⟩ := hgrown.rewrite hr ⟨rfl,rfl,rfl,rfl⟩ hgrown.blocks
    refine ⟨hnew.mono hsub₂,?_,hr.rest.alloc.trans ha,hr.rest.allocHead.trans hh,
      (Finset.subset_insert _ _).trans hsub₂⟩
    rw [hr.size]
    exact htail
  · rename_i hempty
    obtain ⟨-,rfl⟩ := Outcome.done.inj hdone
    refine ⟨h,?_,rfl,rfl,subset_rfl⟩
    by_contra hz
    obtain ⟨hlo,-⟩ := h.blocks.node h.closed.tail hz
    refine hempty ⟨fun h0 => ?_,hz⟩
    rw [h0] at hlo
    simp at hlo

/-- Giving a block back moves it to a free node. -/
theorem FreeNodes.giveBack (h : FreeNodes (src.taken s.env) s (⟨a.toNat,z.toNat⟩ ::ₘ rest))
    (hdone : giveBack calls fuel a z s = .done () s') :
    FreeNodes (src.taken s'.env) s' rest ∧ SameTable src s s' := by
  unfold Vmm.giveBack at hdone
  extract_lets bs be at hdone
  have hsize : be - bs = z := add_sub_cancel_left a z
  split at hdone
  · cases hdone
  rename_i hhead
  split at hdone
  · cases hdone
  · rename_i cur hscan
    split at hdone
    · cases hdone
    · obtain ⟨_,s₁,hgrow,hrec⟩ := Outcome.bind_eq_done.mp hdone
      obtain ⟨h₁,htail,hsame⟩ := h.growFreeList src hgrow
      obtain ⟨h₂,hrest⟩ := h₁.recycleTail htail hrec
      rw [hrest.env]
      exact ⟨h₂,hsame.trans (hrest.sameTable src)⟩
  · rename_i cur hscan
    obtain ⟨hcur,ht⟩ := h.closed.scan hhead hscan
    rw [← hsize] at h
    have h₁ := h.extend hcur ht
    have hne : (s.extend bs be cur).size cur ≠ 0#64 := by
      rw [extend_eq,size_setBlock,Function.update_self]
      exact (h.blocks.join_size hcur (h.blocks.size_ne_zero hcur (touches_iff.mp ht))).2
    have hsame : SameRest s (s.extend bs be cur) := by rw [extend_eq]; exact ⟨rfl,rfl,rfl,rfl⟩
    rw [mergeAgain_extend ht] at hdone
    obtain ⟨h₂,hrest⟩ := h₁.mergeAgain (hsame.nodes ▸ hcur) hne hdone
    rw [hrest.env,hsame.env]
    exact ⟨h₂,(hsame.trans hrest).sameTable src⟩

end FreeNodes

section Calls
variable (src : PageSupply calls) {out : Multiset (U64 × U64)} {mem pages : U64} {fuel : ℕ}

include src in
theorem mapFrames_taken {start : U64} {r i : ℕ} {e e' : E}
    (hdone : mapFrames calls start r i e = .done () e') : src.taken e ⊆ src.taken e' := by
  induction r generalizing i e with
  | zero =>
    obtain ⟨-,rfl⟩ := Outcome.done.inj hdone
    exact subset_rfl
  | succ r ih =>
    unfold mapFrames at hdone
    obtain ⟨a,e₁,h₁,hdone⟩ := Outcome.bind_eq_done.mp hdone
    obtain ⟨_,e₂,h₂,hdone⟩ := Outcome.bind_eq_done.mp hdone
    obtain ⟨_,e₃,h₃,hdone⟩ := Outcome.bind_eq_done.mp hdone
    exact (src.pmmAllocHigh h₁).trans
      ((src.pageUnmap h₂).trans ((src.pageMap h₃).trans (ih hdone)))

include src in
theorem unmapFrames_taken {r i : ℕ} {e e' : E}
    (hdone : unmapFrames calls mem r i e = .done () e') : src.taken e ⊆ src.taken e' := by
  induction r generalizing i e with
  | zero =>
    obtain ⟨-,rfl⟩ := Outcome.done.inj hdone
    exact subset_rfl
  | succ r ih =>
    unfold unmapFrames at hdone
    obtain ⟨_,e₁,h₁,hdone⟩ := Outcome.bind_eq_done.mp hdone
    obtain ⟨_,e₂,h₂,hdone⟩ := Outcome.bind_eq_done.mp hdone
    obtain ⟨_,e₃,h₃,hdone⟩ := Outcome.bind_eq_done.mp hdone
    exact (src.pmmFree h₁).trans
      ((src.pageUnmap h₂).trans ((src.pageMap h₃).trans (ih hdone)))

/-- The range of an outstanding block. -/
def outBlock (x : U64 × U64) : Block := ⟨x.1.toNat,x.2.toNat * 4096⟩

/-- The free nodes and the outstanding blocks share the address range, and the table
remembers the outstanding blocks. -/
structure Ranges (s : Vmm E) (out : Multiset (U64 × U64)) : Prop where
  free : FreeNodes (src.taken s.env) s (out.map outBlock)
  table : ∃ al, Table (src.taken s.env) s al out

variable {src}

theorem Ranges.bounds {x : U64 × U64} (h : Ranges src s out) (hx : x ∈ out) :
    0xFFFFF00000000000 ≤ x.1.toNat ∧ x.1.toNat + x.2.toNat * 4096 ≤ 0xFFFFFFFF80000000 ∧
      x.1.toNat % 4096 = 0 ∧ 0 < x.2.toNat := by
  obtain ⟨hlo,hhi,hal,-,hpos⟩ := h.free.blocks.other (Multiset.mem_map_of_mem outBlock hx)
  simp only [outBlock] at hlo hhi hal hpos
  exact ⟨hlo,hhi,hal,by omega⟩

theorem Ranges.ne_zero {x : U64 × U64} (h : Ranges src s out) (hx : x ∈ out) : x.1 ≠ 0#64 := by
  intro h0
  obtain ⟨hlo,-⟩ := h.bounds hx
  rw [h0] at hlo
  simp at hlo

/-- No two outstanding blocks begin at one address. -/
theorem Ranges.unique {z : U64} (h : Ranges src s out) (hx : (mem,pages) ∈ out)
    (hz : (mem,z) ∈ out) : z = pages := by
  by_contra hne
  obtain ⟨-,-,-,hpos⟩ := h.bounds hx
  obtain ⟨-,-,-,hpos'⟩ := h.bounds hz
  obtain ⟨rest,rfl⟩ := Multiset.exists_cons_of_mem hx
  have hz : (mem,z) ∈ rest := by simpa [hne] using hz
  obtain ⟨rest,rfl⟩ := Multiset.exists_cons_of_mem hz
  have htiles := h.free.blocks.tiles
  rw [add_comm,Multiset.map_cons,Multiset.map_cons,Multiset.cons_add,Multiset.cons_add] at htiles
  simp only at hpos hpos'
  have hap := htiles.apart (by simp only [outBlock]; omega) (by simp only [outBlock]; omega)
  simp only [Block.Apart,outBlock] at hap
  omega

theorem toNat_mul_pageSize (h : pages.toNat * 4096 < 2 ^ 64) :
    (pages * pageSize).toNat = pages.toNat * 4096 := by
  rw [BitVec.toNat_mul]
  exact Nat.mod_eq_of_lt h

/-- The parts of an allocation that returns. -/
theorem vmmAlloc_eq_done : vmmAlloc calls fuel pages s = .done mem s' ↔
    ∃ cur t e, walk 0#64 s.next (fun n => pages * pageSize ≤ s.size n) fuel s.vmmHead = some cur ∧
      cur ≠ 0#64 ∧ mem = s.start cur ∧ takeBlock cur (pages * pageSize) s = .done () t ∧
      mapFrames calls mem pages.toNat 0 t.env = .done () e ∧
      allocListAddNode calls fuel mem pages ((envLens E).set e t) = .done () s' := by
  constructor
  · intro hdone
    unfold vmmAlloc at hdone
    simp only at hdone
    split at hdone
    · cases hdone
    rename_i cur hwalk
    split at hdone
    · cases hdone
    rename_i hcur
    obtain ⟨_,t,h₁,hdone⟩ := Outcome.bind_eq_done.mp hdone
    obtain ⟨_,_,h₂,hdone⟩ := Outcome.bind_eq_done.mp hdone
    obtain ⟨e,hmap,rfl⟩ := Lens.lift_eq_done.mp h₂
    obtain ⟨_,_,h₃,hdone⟩ := Outcome.bind_eq_done.mp hdone
    obtain ⟨rfl,rfl⟩ := Outcome.done.inj hdone
    exact ⟨cur,t,e,hwalk,hcur,rfl,h₁,hmap,h₃⟩
  · rintro ⟨cur,t,e,hwalk,hcur,rfl,h₁,hmap,h₃⟩
    unfold vmmAlloc
    simp only [hwalk,if_neg hcur]
    refine Outcome.bind_eq_done.mpr ⟨(),t,h₁,Outcome.bind_eq_done.mpr
      ⟨(),(envLens E).set e t,?_,?_⟩⟩
    · exact Lens.lift_eq_done.mpr ⟨e,hmap,rfl⟩
    · exact Outcome.bind_eq_done.mpr ⟨(),s',h₃,rfl⟩

/-- The parts of a call of `vmm_free` that returns. -/
theorem vmmFree_eq_done : vmmFree calls fuel mem s = .done () s' ↔
    ∃ z t e, allocListFindAndRemove fuel mem s = .done z t ∧
      unmapFrames calls mem z.toNat 0 t.env = .done () e ∧
      giveBack calls fuel mem (z * pageSize) ((envLens E).set e t) = .done () s' := by
  constructor
  · intro hdone
    unfold vmmFree at hdone
    obtain ⟨z,t,h₁,hdone⟩ := Outcome.bind_eq_done.mp hdone
    obtain ⟨_,_,h₂,hdone⟩ := Outcome.bind_eq_done.mp hdone
    obtain ⟨e,hmap,rfl⟩ := Lens.lift_eq_done.mp h₂
    exact ⟨z,t,e,h₁,hmap,hdone⟩
  · rintro ⟨z,t,e,h₁,hmap,hdone⟩
    exact Outcome.bind_eq_done.mpr ⟨z,t,h₁,Outcome.bind_eq_done.mpr
      ⟨(),_,Lens.lift_eq_done.mpr ⟨e,hmap,rfl⟩,hdone⟩⟩

theorem Ranges.vmmAlloc (h : Ranges src s out) (hpos : 1 ≤ pages.toNat)
    (hlt : pages.toNat * 4096 < 2 ^ 64)
    (hdone : vmmAlloc calls fuel pages s = .done mem s') :
    Ranges src s' ((mem,pages) ::ₘ out) := by
  obtain ⟨hfree,al,htab⟩ := h
  have hsize := toNat_mul_pageSize hlt
  obtain ⟨cur,s₁,e,hwalk,hcur,rfl,h₁,hmap,h₃⟩ := vmmAlloc_eq_done.mp hdone
  obtain ⟨hn,hfit⟩ := hfree.closed.walk hwalk hcur
  obtain ⟨hfree₁,hrest⟩ := hfree.takeBlock hn (of_decide_eq_true hfit) (by omega) (by omega) h₁
  rw [hsize] at hfree₁
  have hsub : src.taken s.env ⊆ src.taken e := hrest.env ▸ mapFrames_taken src hmap
  have htab₂ : Table (src.taken e) ((envLens E).set e s₁) al out :=
    (htab.mono hsub).congr hrest.alloc hrest.allocHead
  have hstart : s.start cur ≠ 0#64 := by
    intro h0
    obtain ⟨hlo,-⟩ := hfree₁.blocks.other (Multiset.mem_cons_self _ _)
    simp only [h0] at hlo
    simp at hlo
  obtain ⟨htab₃,hsame,hsub₃⟩ := Table.add src htab₂ hstart h₃
  refine ⟨?_,htab₃⟩
  rw [Multiset.map_cons]
  exact (hfree₁.same ((SameFree.setEnv e s₁).trans hsame)).mono (hsub.trans hsub₃)

/-- The state in which a freed block goes back to the list. -/
theorem Ranges.found {z : U64} {t : Vmm E} {e : E} (h : Ranges src s out) (hout : (mem,pages) ∈ out)
    (hfind : allocListFindAndRemove fuel mem s = .done z t)
    (hmap : unmapFrames calls mem z.toNat 0 t.env = .done () e) :
    z = pages ∧ SameFree s ((envLens E).set e t) ∧
      FreeNodes (src.taken e) ((envLens E).set e t)
        (⟨mem.toNat,(z * pageSize).toNat⟩ ::ₘ (out.erase (mem,pages)).map outBlock) ∧
      ∃ al, Table (src.taken e) ((envLens E).set e t) al (out.erase (mem,pages)) := by
  obtain ⟨-,hhi,-,-⟩ := h.bounds hout
  have hsize : (pages * pageSize).toNat = pages.toNat * 4096 :=
    toNat_mul_pageSize (by simp only at hhi; omega)
  obtain ⟨al,htab⟩ := h.table
  obtain ⟨rfl,htab₁,hsame,henv⟩ :=
    htab.find (h.ne_zero hout) hout (fun z hz => h.unique hout hz) hfind
  have hsub : src.taken s.env ⊆ src.taken e := henv ▸ unmapFrames_taken src hmap
  have hfree := h.free
  rw [← Multiset.cons_erase hout,Multiset.map_cons,outBlock,← hsize] at hfree
  have hall := hsame.trans (SameFree.setEnv e t)
  exact ⟨rfl,hall,(hfree.same hall).mono hsub,al,(htab₁.mono hsub).congr rfl rfl⟩

theorem Ranges.vmmFree (h : Ranges src s out) (hout : (mem,pages) ∈ out)
    (hdone : vmmFree calls fuel mem s = .done () s') :
    Ranges src s' (out.erase (mem,pages)) := by
  obtain ⟨z,s₁,e,h₁,hmap,hdone⟩ := vmmFree_eq_done.mp hdone
  obtain ⟨rfl,-,hfree₂,al,htab₂⟩ := h.found hout h₁ hmap
  obtain ⟨hfree₃,htable⟩ := FreeNodes.giveBack src hfree₂ hdone
  refine ⟨hfree₃,al,?_⟩
  exact (htab₂.mono htable.taken).congr htable.alloc htable.allocHead

theorem Ranges.vmmInit (hpages : s.freePages = []) (hdone : vmmInit calls s = .done () s') :
    Ranges src s' 0 := by
  obtain ⟨p,q,e,e',hp,hq,henv,hfp,hhead,htail,hahead,hfirst,hfree,halloc⟩ := vmmInit_spec hdone
  obtain ⟨hpp,-,hsub⟩ := src.kcallocPage hp
  obtain ⟨hqp,-,hsub'⟩ := src.kcallocPage hq
  have htaken : p ∈ src.taken e' ∧ q ∈ src.taken e' :=
    ⟨hsub' (Finset.mem_insert_of_mem (hsub (Finset.mem_insert_self _ _))),
      hsub' (Finset.mem_insert_self _ _)⟩
  rw [hpages] at hfp
  have hcell (j : ℕ) (hj : j < 128) : cell 32 p j ∈ s'.nodes := by
    rw [nodes,mem_nodesOn,hfp]
    exact ⟨p,List.mem_cons_self,j,hj,rfl⟩
  have hnode {n : U64} (hn : n ∈ s'.nodes) : ∃ j < 128, cell 32 p j = n := by
    rw [nodes,mem_nodesOn,hfp] at hn
    obtain ⟨r,hr,hrest⟩ := hn
    obtain rfl := List.mem_singleton.mp hr
    exact hrest
  have hlinks (j : ℕ) (hj : j < 128) : s'.next (cell 32 p j) = (freshFree p 128 j).next ∧
      s'.prev (cell 32 p j) = (freshFree p 128 j).prev := by
    by_cases h0 : j = 0
    · subst h0
      rw [cell_zero,next,prev,hfirst]
      exact ⟨rfl,rfl⟩
    · rw [next,prev,hfree j (by omega) hj]
      exact ⟨rfl,rfl⟩
  have hwhole : freeVirtEnd - freeVirtStart ≠ 0#64 := by decide
  have hbase : Blocks {p} s'.start s'.size 0 := by
    have hblocks : blocksOf {p} s'.start s'.size =
        {⟨0xFFFFF00000000000,0xFFFFFFFF80000000 - 0xFFFFF00000000000⟩} := by
      rw [blocksOf,Finset.sum_singleton,start,size,hfirst,blockOf_of_ne hwhole]
      rfl
    refine ⟨fun n hn hz => ?_,?_,?_⟩
    · obtain rfl := Finset.mem_singleton.mp hn
      rw [size,hfirst] at hz
      exact absurd hz hwhole
    · rw [hblocks,add_zero]
      exact Tiles.single (by decide)
    · rw [hblocks,add_zero]
      intro b hb
      obtain rfl := Multiset.mem_singleton.mp hb
      exact ⟨by decide,by decide,by decide⟩
  refine ⟨⟨⟨?_,?_,?_,?_⟩,?_,?_⟩,_,Table.fresh hqp (henv ▸ htaken.2) hahead halloc⟩
  · rw [hhead,← cell_zero (d := 32) (p := p)]
    exact Or.inr (hcell 0 (by decide))
  · rw [htail]
    exact hcell 127 (by decide)
  · intro n hn
    obtain ⟨j,hj,rfl⟩ := hnode hn
    rw [(hlinks j hj).1]
    exact (freshFree_ptr hcell hj).1
  · intro n hn
    obtain ⟨j,hj,rfl⟩ := hnode hn
    rw [(hlinks j hj).2]
    exact (freshFree_ptr hcell hj).2
  · intro r hr
    rw [hfp] at hr
    obtain rfl := List.mem_singleton.mp hr
    exact ⟨hpp,henv ▸ htaken.1⟩
  · refine hbase.grow ?_ (fun _ _ => ⟨rfl,rfl⟩) (fun n hn hne => ?_)
    · rw [Finset.singleton_subset_iff,← cell_zero (d := 32) (p := p)]
      exact hcell 0 (by decide)
    · obtain ⟨j,hj,rfl⟩ := hnode hn
      have h0 : 0 < j := by
        rw [Nat.pos_iff_ne_zero]
        rintro rfl
        exact hne (Finset.mem_singleton.mpr cell_zero)
      rw [start,size,hfree j h0 hj]
      exact ⟨rfl,rfl⟩

/-- The size of an outstanding block is found by its start. -/
theorem Ranges.lookup (h : Ranges src s out) (hout : (mem,pages) ∈ out) :
    ∃ m, ∀ fuel ≥ m, ∃ t, allocListFindAndRemove fuel mem s = .done pages t := by
  obtain ⟨al,htab⟩ := h.table
  obtain ⟨t,hfind⟩ := htab.find_done (h.ne_zero hout) hout (fun z hz => h.unique hout hz)
  exact ⟨al.length + 1,fun fuel hfuel => ⟨t,hfind fuel hfuel⟩⟩

end Calls

section Runs

inductive VmmCall where
  | alloc (pages : U64)
  | free (mem : U64)

/-- A caller that keeps account of the blocks it was given. -/
structure Session (E : Type) where
  vmm : Vmm E
  out : Multiset (U64 × U64)

/-- A completed call. -/
inductive Step (calls : PageCalls E) : Session E → VmmCall → Session E → Prop
  | alloc {x : Session E} {fuel : ℕ} {pages mem : U64} {t : Vmm E}
      (hdone : vmmAlloc calls fuel pages x.vmm = .done mem t) :
      Step calls x (.alloc pages) ⟨t,(mem,pages) ::ₘ x.out⟩
  | free {x : Session E} {fuel : ℕ} {pages mem : U64} {t : Vmm E}
      (hout : (mem,pages) ∈ x.out) (hdone : vmmFree calls fuel mem x.vmm = .done () t) :
      Step calls x (.free mem) ⟨t,x.out.erase (mem,pages)⟩

/-- A block of at least one page whose size fits in a word. -/
def VmmCall.Fits : VmmCall → Prop
  | .alloc pages => 1 ≤ pages.toNat ∧ pages.toNat * 4096 < 2 ^ 64
  | .free _ => True

variable {src : PageSupply calls}

theorem Step.ranges {x y : Session E} {c : VmmCall} (h : Ranges src x.vmm x.out)
    (hs : Step calls x c y) (hc : c.Fits) : Ranges src y.vmm y.out := by
  cases hs with
  | alloc hdone => exact h.vmmAlloc hc.1 hc.2 hdone
  | free hout hdone => exact h.vmmFree hout hdone

/-- A supply of pages in a row; the frames of blocks are not looked at. -/
def pagePool : PageCalls ℕ where
  kcallocPage e := if e + 1 < 2 ^ 52 then .done (BitVec.ofNat 64 ((e + 1) * 4096)) (e + 1)
    else .panic "pmm: out of memory!" e
  pmmAllocHigh e := .done 0#64 e
  pmmFree _ e := .done () e
  pageUnmap _ e := .done () e
  pageMap _ _ _ e := .done () e
  pageVirtToPhysAddr _ _ := 0#64

def pagePoolSupply : PageSupply pagePool where
  taken e := (Finset.range e).image fun i => BitVec.ofNat 64 ((i + 1) * 4096)
  kcallocPage := by
    intro e p e' h
    simp only [pagePool] at h
    split at h
    · rename_i he
      obtain ⟨rfl,rfl⟩ := Outcome.done.inj h
      have hpage : (BitVec.ofNat 64 ((e + 1) * 4096)).toNat = (e + 1) * 4096 := by
        rw [BitVec.toNat_ofNat,Nat.mod_eq_of_lt (by omega)]
      refine ⟨⟨by rw [hpage]; omega,fun h0 => ?_⟩,fun hmem => ?_,?_⟩
      · rw [h0] at hpage
        simp at hpage
      · obtain ⟨i,hi,hie⟩ := Finset.mem_image.mp hmem
        rw [← hie,BitVec.toNat_ofNat,Nat.mod_eq_of_lt (by rw [Finset.mem_range] at hi; omega)]
          at hpage
        rw [Finset.mem_range] at hi
        omega
      · rw [Finset.range_add_one,Finset.image_insert]
    · cases h
  pmmAllocHigh := by
    rintro e a e' ⟨⟩
    exact subset_rfl
  pmmFree := by
    rintro a e e' ⟨⟩
    exact subset_rfl
  pageUnmap := by
    rintro v e e' ⟨⟩
    exact subset_rfl
  pageMap := by
    rintro v a k e e' ⟨⟩
    exact subset_rfl

def poolStart : Vmm ℕ := ⟨fun _ => ⟨0#64,0#64,0#64,0#64⟩,fun _ => ⟨0#64,0#64,0#64⟩,0#64,0#64,0#64,[],0⟩

def pooled : Vmm ℕ := (vmmInit pagePool poolStart).stateD poolStart

theorem pooled_eq : vmmInit pagePool poolStart = .done () pooled := by
  have hinit : (vmmInit pagePool poolStart).returned = some () := by decide +kernel
  exact Outcome.eq_done_of_returned hinit poolStart

end Runs

end Lios.Vmm

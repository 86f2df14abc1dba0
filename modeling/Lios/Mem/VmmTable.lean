import Mathlib.Algebra.BigOperators.Group.List.Basic
import Mathlib.Algebra.Order.Group.Multiset
import Lios.Mem.VmmPages

/-! # The list of allocated blocks

The nodes in use hold the outstanding blocks, each once. Adding a block fills the
first unused node, after the list has grown by a page if there was none; removing
a block empties the node that carries its start. The list only grows, so its
structure is never at risk.
-/
namespace Lios

/-- The calls below the allocator hand out pages that nobody holds. Pages are never
given back to them, so the pages in use only become more. -/
structure PageSupply {E : Type} (calls : PageCalls E) where
  taken : E → Finset U64
  kcallocPage : ∀ {e p e'}, calls.kcallocPage e = .done p e' →
    IsPage p ∧ p ∉ taken e ∧ insert p (taken e) ⊆ taken e'
  pmmAllocHigh : ∀ {e a e'}, calls.pmmAllocHigh e = .done a e' → taken e ⊆ taken e'
  pmmFree : ∀ {a e e'}, calls.pmmFree a e = .done () e' → taken e ⊆ taken e'
  pageUnmap : ∀ {v e e'}, calls.pageUnmap v e = .done () e' → taken e ⊆ taken e'
  pageMap : ∀ {v a k e e'}, calls.pageMap v a k e = .done () e' → taken e ⊆ taken e'

namespace Vmm
variable {E : Type} {calls : PageCalls E} {s s' : Vmm E}

/-- The block a node of the list holds. -/
def entry (s : Vmm E) (n : U64) : Multiset (U64 × U64) :=
  if s.unused n then 0 else {((s.alloc n).start,(s.alloc n).size)}

/-- The nodes `al` are the list and hold the blocks `out`. -/
structure Table (taken : Finset U64) (s : Vmm E) (al : List U64)
    (out : Multiset (U64 × U64)) : Prop where
  linked : Linked 0#64 s.allocNext s.allocHead al
  ne_nil : al ≠ []
  onPage : ∀ n ∈ al, ∃ p ∈ taken, IsPage p ∧ OnPage p n
  entries : (al.map s.entry).sum = out

section Table
variable {taken : Finset U64} {al : List U64} {out : Multiset (U64 × U64)} {cur : U64}

theorem Table.head_ne_zero (h : Table taken s al out) : s.allocHead ≠ 0#64 := by
  intro h0
  exact h.ne_nil (h.linked.eq_nil h0)

theorem Table.mono {taken' : Finset U64} (h : Table taken s al out) (hsub : taken ⊆ taken') :
    Table taken' s al out := by
  refine ⟨h.linked,h.ne_nil,fun n hn => ?_,h.entries⟩
  obtain ⟨p,hp,hpage⟩ := h.onPage n hn
  exact ⟨p,hsub hp,hpage⟩

/-- The list depends on the allocated nodes only. -/
theorem Table.congr (h : Table taken s al out) (ha : s'.alloc = s.alloc)
    (hh : s'.allocHead = s.allocHead) : Table taken s' al out := by
  have hn : s'.allocNext = s.allocNext := by
    funext n
    rw [allocNext,allocNext,ha]
  have he : s'.entry = s.entry := by
    funext n
    rw [entry,entry,unused,unused,ha]
  exact ⟨by rw [hn,hh]; exact h.linked,h.ne_nil,h.onPage,by rw [he]; exact h.entries⟩

theorem allocNext_modifyAlloc (f : VirtAllocatedNode → VirtAllocatedNode)
    (hf : (f (s.alloc cur)).next = (s.alloc cur).next) :
    (s.modifyAlloc cur f).allocNext = s.allocNext := by
  funext n
  by_cases h : n = cur
  · subst h
    simp [allocNext,modifyAlloc,hf]
  · simp [allocNext,modifyAlloc,h]

theorem entry_modifyAlloc_of_ne (f : VirtAllocatedNode → VirtAllocatedNode) {n : U64}
    (h : n ≠ cur) : (s.modifyAlloc cur f).entry n = s.entry n := by
  simp [entry,unused,modifyAlloc,h]

/-- Rewriting the block of one node exchanges one entry. -/
theorem Table.modify (h : Table taken s al out) (hc : cur ∈ al)
    (f : VirtAllocatedNode → VirtAllocatedNode)
    (hf : (f (s.alloc cur)).next = (s.alloc cur).next) :
    ∃ rest, out = s.entry cur + rest ∧
      Table taken (s.modifyAlloc cur f) al ((s.modifyAlloc cur f).entry cur + rest) := by
  have hnd := h.linked.nodup
  have hrest : (al.erase cur).map (s.modifyAlloc cur f).entry = (al.erase cur).map s.entry := by
    refine List.map_congr_left (fun n hn => entry_modifyAlloc_of_ne f ?_)
    rintro rfl
    exact hnd.not_mem_erase hn
  refine ⟨((al.erase cur).map s.entry).sum,?_,?_,h.ne_nil,h.onPage,?_⟩
  · rw [← h.entries,List.sum_map_erase _ hc]
  · rw [allocNext_modifyAlloc f hf]
    exact h.linked
  · rw [← hrest,List.sum_map_erase _ hc]

theorem entry_of_unused {n : U64} (h : s.unused n = true) : s.entry n = 0 := by
  rw [entry,if_pos h]

theorem entry_congr {n : U64} (hs : (s'.alloc n).start = (s.alloc n).start)
    (hz : (s'.alloc n).size = (s.alloc n).size) : s'.entry n = s.entry n := by
  rw [entry,entry,unused,unused,hs,hz]

theorem sum_entry_eq_zero {l : List U64} (h : ∀ n ∈ l, s.unused n = true) :
    (l.map s.entry).sum = 0 := by
  induction l with
  | nil => rfl
  | cons n l ih =>
    rw [List.map_cons,List.sum_cons,entry_of_unused (h n List.mem_cons_self),
      ih (fun m hm => h m (List.mem_cons_of_mem _ hm)),add_zero]

theorem Table.not_onPage {p n : U64} (h : Table taken s al out)
    (hp : IsPage p) (hfresh : p ∉ taken) (hn : n ∈ al) : ¬ OnPage p n := by
  intro ho
  obtain ⟨r,hr,hrp,hrn⟩ := h.onPage n hn
  exact hfresh (hp.eq_of_onPage hrp ho hrn ▸ hr)

/-- Adding a page of unused nodes behind the last node. -/
theorem Table.grow {p : U64} {l : List U64} (h : Table taken s (l ++ [cur]) out) (hp : IsPage p)
    (hfresh : p ∉ taken) (hhead : s'.allocHead = s.allocHead)
    (hkeep : ∀ n, ¬ OnPage p n → n ≠ cur → s'.alloc n = s.alloc n)
    (hcur : s'.alloc cur = { s.alloc cur with next := p })
    (hpage : ∀ j < 169, s'.alloc (cell 24 p j) = freshAlloc p 169 j) :
    Table (insert p taken) s' (l ++ cur :: cells 24 p 169) out := by
  have hnd := h.linked.nodup
  have hold (n : U64) (hn : n ∈ l) : s'.alloc n = s.alloc n := by
    refine hkeep n (h.not_onPage hp hfresh (List.mem_append_left _ hn)) ?_
    rintro rfl
    exact List.disjoint_of_nodup_append hnd hn (List.mem_singleton.mpr rfl)
  have hcells : Linked 0#64 s'.allocNext p (cells 24 p 169) := by
    refine linked_page hp (by decide) (by decide) (by decide) (fun i hi => ?_)
    rw [allocNext,hpage i hi]
    rfl
  have hnew : ((cells 24 p 169).map s'.entry).sum = 0 := by
    refine sum_entry_eq_zero (fun n hn => ?_)
    obtain ⟨j,hj,rfl⟩ := mem_cells.mp hn
    rw [unused,hpage j hj]
    rfl
  refine ⟨?_,by simp,?_,?_⟩
  · rw [hhead]
    refine h.linked.link (fun n hn => ?_) ?_ hcells
    · rw [allocNext,allocNext,hold n hn]
    · rw [allocNext,hcur]
  · intro n hn
    rw [List.mem_append,List.mem_cons] at hn
    by_cases hmem : n ∈ l ++ [cur]
    · obtain ⟨r,hr,hrest⟩ := h.onPage n hmem
      exact ⟨r,Finset.mem_insert_of_mem hr,hrest⟩
    · have hc : n ∈ cells 24 p 169 := by
        simp only [List.mem_append,List.mem_singleton,not_or] at hmem
        tauto
      exact ⟨p,Finset.mem_insert_self _ _,hp,cells_onPage (by decide) (by decide) hc⟩
  · have hl : l.map s'.entry = l.map s.entry := by
      refine List.map_congr_left (fun n hn => entry_congr ?_ ?_) <;> rw [hold n hn]
    have hc : s'.entry cur = s.entry cur := by
      refine entry_congr ?_ ?_ <;> rw [hcur]
    rw [← h.entries,List.map_append,List.map_append,List.map_cons,List.sum_append,List.sum_append,
      List.sum_cons,hnew,hl,hc,add_zero,List.map_singleton,List.sum_singleton]

/-- A page of unused nodes is a list that holds nothing. -/
theorem Table.fresh {p : U64} (hp : IsPage p) (htaken : p ∈ taken) (hhead : s.allocHead = p)
    (hpage : ∀ j < 169, s.alloc (cell 24 p j) = freshAlloc p 169 j) :
    Table taken s (cells 24 p 169) 0 := by
  refine ⟨?_,List.ne_nil_of_length_pos (by simp [cells]),fun n hn => ?_,?_⟩
  · rw [hhead]
    refine linked_page hp (by decide) (by decide) (by decide) (fun j hj => ?_)
    rw [allocNext,hpage j hj]
    rfl
  · exact ⟨p,htaken,hp,cells_onPage (by decide) (by decide) hn⟩
  · refine sum_entry_eq_zero (fun n hn => ?_)
    obtain ⟨j,hj,rfl⟩ := mem_cells.mp hn
    rw [unused,hpage j hj]
    rfl

end Table

/-- The free nodes and their list are the same. -/
structure SameFree (s s' : Vmm E) : Prop where
  free : s'.free = s.free
  head : s'.vmmHead = s.vmmHead
  tail : s'.vmmTail = s.vmmTail
  pages : s'.freePages = s.freePages

theorem SameFree.trans {t : Vmm E} (h : SameFree s t) (h' : SameFree t s') : SameFree s s' :=
  ⟨h'.free.trans h.free,h'.head.trans h.head,h'.tail.trans h.tail,h'.pages.trans h.pages⟩

section SameFree
variable (h : SameFree s s')
include h

theorem SameFree.next : s'.next = s.next := funext fun n => by rw [Vmm.next,Vmm.next,h.free]
theorem SameFree.prev : s'.prev = s.prev := funext fun n => by rw [Vmm.prev,Vmm.prev,h.free]
theorem SameFree.start : s'.start = s.start := funext fun n => by rw [Vmm.start,Vmm.start,h.free]
theorem SameFree.size : s'.size = s.size := funext fun n => by rw [Vmm.size,Vmm.size,h.free]

end SameFree

theorem SameFree.setEnv (e : E) (s : Vmm E) : SameFree s ((envLens E).set e s) :=
  ⟨rfl,rfl,rfl,rfl⟩

section Add
variable {al : List U64} {out : Multiset (U64 × U64)} {start size : U64} {fuel : ℕ}

/-- The state in which `alloc_list_add_node` calls itself after a new page. -/
def withAllocPage (p cur : U64) (e : E) (s : Vmm E) : Vmm E :=
  (setUpPageForAllocList p { s with
    env := e
    alloc := fun q => if (q - p).toNat < 4096 then ⟨0#64,0#64,0#64⟩ else s.alloc q }).modifyAlloc
      cur fun x => { x with next := p }

theorem withAllocPage_sameFree (p cur : U64) (e : E) (s : Vmm E) :
    SameFree s (withAllocPage p cur e s) ∧ (withAllocPage p cur e s).env = e ∧
      (withAllocPage p cur e s).allocHead = s.allocHead := by
  obtain ⟨hf,ha,hh,ht,hp,he⟩ := setUpPageForAllocList_frame p
    ({ s with env := e, alloc := fun q =>
      if (q - p).toNat < 4096 then ⟨0#64,0#64,0#64⟩ else s.alloc q } : Vmm E)
  unfold withAllocPage
  exact ⟨⟨by rw [modifyAlloc_free,hf],by rw [modifyAlloc_vmmHead,hh],
    by rw [modifyAlloc_vmmTail,ht],by rw [modifyAlloc_freePages,hp]⟩,by rw [modifyAlloc_env,he],
    by rw [modifyAlloc_allocHead,ha]⟩

theorem withAllocPage_spec {p cur : U64} (hcur : ¬ OnPage p cur) (e : E) (s : Vmm E) :
    (∀ n, ¬ OnPage p n → n ≠ cur → (withAllocPage p cur e s).alloc n = s.alloc n) ∧
    (withAllocPage p cur e s).alloc cur = { s.alloc cur with next := p } ∧
    ∀ j < 169, (withAllocPage p cur e s).alloc (cell 24 p j) = freshAlloc p 169 j := by
  obtain ⟨hout,hpage⟩ := setUpPageForAllocList_spec p
    ({ s with env := e, alloc := fun q =>
      if (q - p).toNat < 4096 then ⟨0#64,0#64,0#64⟩ else s.alloc q } : Vmm E)
  have hcell (j : ℕ) (hj : j < 169) : OnPage p (cell 24 p j) := onPage_cell (by omega)
  have hkeep (n : U64) (hn : ¬ OnPage p n) : (setUpPageForAllocList p ({ s with
      env := e, alloc := fun q => if (q - p).toNat < 4096 then ⟨0#64,0#64,0#64⟩
        else s.alloc q } : Vmm E)).alloc n = s.alloc n := by
    rw [hout n (fun j hj he => hn (he ▸ hcell j hj))]
    exact if_neg hn
  unfold withAllocPage
  refine ⟨fun n hn hne => ?_,?_,fun j hj => ?_⟩
  · rw [modifyAlloc_alloc,Function.update_of_ne hne,hkeep n hn]
  · rw [modifyAlloc_alloc,Function.update_self,hkeep cur hcur]
  · have hne : cell 24 p j ≠ cur := by
      rintro rfl
      exact hcur (hcell j hj)
    rw [modifyAlloc_alloc,Function.update_of_ne hne,hpage j hj]

theorem Table.withAllocPage {taken : Finset U64} {p cur : U64} {l : List U64} (e : E)
    (h : Table taken s (l ++ [cur]) out) (hp : IsPage p) (hfresh : p ∉ taken) :
    Table (insert p taken) (withAllocPage p cur e s) (l ++ cur :: cells 24 p 169) out := by
  obtain ⟨hkeep,hcur,hpage⟩ := withAllocPage_spec (h.not_onPage hp hfresh
    (List.mem_append_right _ (List.mem_singleton.mpr rfl))) e s
  exact h.grow hp hfresh (withAllocPage_sameFree p cur e s).2.2 hkeep hcur hpage

theorem Table.scan_mem {taken : Finset U64} {stop : U64 → Bool} {cur : U64} {b : Bool}
    (h : Table taken s al out)
    (hscan : scan 0#64 s.allocNext stop fuel s.allocHead = some (cur,b)) :
    cur ∈ al ∧ stop cur = b := by
  obtain ⟨l,hseg,hpass,hstop,-⟩ := scan_eq_some hscan
  obtain ⟨hl,hne⟩ := hseg.ne_null h.head_ne_zero (fun x hx => (hpass x hx).2)
  exact ⟨h.linked.mem_of_segment hseg hl hne,hstop⟩

/-- A scan that finds nothing ends at the last node. -/
theorem Table.scan_last {taken : Finset U64} {stop : U64 → Bool} {cur : U64}
    (h : Table taken s al out)
    (hscan : scan 0#64 s.allocNext stop fuel s.allocHead = some (cur,false)) :
    ∃ l, al = l ++ [cur] := by
  obtain ⟨l,hseg,hpass,-,hend⟩ := scan_eq_some hscan
  obtain ⟨hl,hne⟩ := hseg.ne_null h.head_ne_zero (fun x hx => (hpass x hx).2)
  exact ⟨l,h.linked.unique (hseg.linked_snoc hl hne (hend rfl))⟩

theorem Table.fill {taken : Finset U64} {cur : U64} (h : Table taken s al out)
    (hscan : scan 0#64 s.allocNext s.unused fuel s.allocHead = some (cur,true))
    (hstart : start ≠ 0#64) :
    Table taken (s.modifyAlloc cur fun x => { x with start := start, size := size }) al
      ({(start,size)} + out) := by
  obtain ⟨hc,hunused⟩ := h.scan_mem hscan
  obtain ⟨rest,hout,htab⟩ := h.modify hc (fun x => { x with start := start, size := size }) rfl
  have hnew : (s.modifyAlloc cur fun x => { x with start := start, size := size }).entry cur =
      {(start,size)} := by
    simp [entry,unused,modifyAlloc,hstart]
  rw [hnew] at htab
  rw [hout,entry_of_unused hunused,zero_add]
  exact htab

theorem Table.add (src : PageSupply calls) (h : Table (src.taken s.env) s al out)
    (hstart : start ≠ 0#64) (hdone : allocListAddNode calls fuel start size s = .done () s') :
    (∃ al', Table (src.taken s'.env) s' al' ({(start,size)} + out)) ∧ SameFree s s' ∧
      src.taken s.env ⊆ src.taken s'.env := by
  induction fuel generalizing s al with
  | zero => cases hdone
  | succ fuel ih =>
    have hhead := h.head_ne_zero
    rw [allocListAddNode,if_neg hhead] at hdone
    split at hdone
    · cases hdone
    · rename_i cur hscan
      obtain ⟨-,rfl⟩ := Outcome.done.inj hdone
      exact ⟨⟨al,h.fill hscan hstart⟩,⟨rfl,rfl,rfl,rfl⟩,subset_rfl⟩
    · rename_i cur hscan
      obtain ⟨p,_,hk,hrec⟩ := Outcome.bind_eq_done.mp hdone
      obtain ⟨e,he,rfl⟩ := kcallocAllocPage_eq_done.mp hk
      obtain ⟨hp,hfresh,hsub⟩ := src.kcallocPage he
      obtain ⟨l,rfl⟩ := h.scan_last hscan
      obtain ⟨hsame,henv,-⟩ := withAllocPage_sameFree p cur e s
      have hsub : insert p (src.taken s.env) ⊆ src.taken (Vmm.withAllocPage p cur e s).env := by
        rw [henv]
        exact hsub
      obtain ⟨htab,hsame',hsub'⟩ := ih ((h.withAllocPage e hp hfresh).mono hsub) hrec
      exact ⟨htab,hsame.trans hsame',(Finset.subset_insert _ _).trans (hsub.trans hsub')⟩

/-- `alloc_list_add_node` with a count of its calls of itself. -/
def allocListAddCounted (calls : PageCalls E) : ℕ → U64 → U64 → Vmm E → Outcome (Vmm E) ℕ
  | 0,_,_,_ => .spin
  | fuel + 1,start,size,s =>
    if s.allocHead = 0#64 then .fault s else
    match scan 0#64 s.allocNext s.unused (fuel + 1) s.allocHead with
    | none => .spin
    | some (cur,true) =>
      .done 0 (s.modifyAlloc cur fun x => { x with start := start, size := size })
    | some (cur,false) =>
      (kcallocAllocPage calls s).bind fun nextPage s =>
      let s := setUpPageForAllocList nextPage s
      (allocListAddCounted calls fuel start size
        (s.modifyAlloc cur fun x => { x with next := nextPage })).bind fun count s =>
      .done (count + 1) s

theorem allocListAddNode_eq_counted (calls : PageCalls E) (fuel : ℕ) (start size : U64) (s : Vmm E) :
    allocListAddNode calls fuel start size s =
      (allocListAddCounted calls fuel start size s).bind fun _ s => .done () s := by
  induction fuel generalizing s with
  | zero => rfl
  | succ fuel ih =>
    rw [allocListAddNode,allocListAddCounted]
    by_cases hhead : s.allocHead = 0#64
    · rw [if_pos hhead,if_pos hhead]
      rfl
    rw [if_neg hhead,if_neg hhead]
    cases scan 0#64 s.allocNext s.unused (fuel + 1) s.allocHead with
    | none => rfl
    | some x =>
      obtain ⟨cur,_ | _⟩ := x
      · simp only [ih,Outcome.bind_assoc,Outcome.bind_done]
      · rfl

/-- The block goes to the first unused node. -/
theorem Table.counted_unused {taken : Finset U64} {cur : U64} (h : Table taken s al out)
    (hfind : al.find? s.unused = some cur) (calls : PageCalls E) (start size : U64)
    (hfuel : al.length ≤ fuel) :
    allocListAddCounted calls fuel start size s =
      .done 0 (s.modifyAlloc cur fun x => { x with start := start, size := size }) := by
  cases fuel with
  | zero =>
    have hnil : al = [] := List.length_eq_zero_iff.mp (by omega)
    exact absurd hnil h.ne_nil
  | succ fuel =>
    rw [allocListAddCounted,if_neg h.head_ne_zero,scan_linked h.linked h.ne_nil hfuel,hfind]

theorem find_unused {l : List U64} (hu : ∃ n ∈ l, s.unused n = true) :
    ∃ cur, l.find? s.unused = some cur := by
  obtain ⟨n,hn,hun⟩ := hu
  exact Option.isSome_iff_exists.mp (List.find?_isSome.mpr ⟨n,hn,hun⟩)

/-- While there is an unused node, adding a block returns. -/
theorem Table.add_unused {taken : Finset U64} (h : Table taken s al out)
    (hu : ∃ n ∈ al, s.unused n = true) (calls : PageCalls E) (start size : U64)
    (hfuel : al.length ≤ fuel) :
    ∃ t, allocListAddNode calls fuel start size s = .done () t ∧ t.env = s.env := by
  obtain ⟨cur,hfind⟩ := find_unused hu
  rw [allocListAddNode_eq_counted,h.counted_unused hfind calls start size hfuel]
  exact ⟨_,rfl,rfl⟩

/-- Without an unused node a page is added behind the last one. -/
theorem Table.counted_full {taken : Finset U64} (h : Table taken s al out)
    (hu : ∀ n ∈ al, s.unused n = false) (calls : PageCalls E) (start size : U64) :
    ∃ cur l, al = l ++ [cur] ∧ ∀ fuel, al.length ≤ fuel + 1 →
      allocListAddCounted calls (fuel + 1) start size s =
        (kcallocAllocPage calls s).bind fun nextPage s =>
        (allocListAddCounted calls fuel start size ((setUpPageForAllocList nextPage s).modifyAlloc cur
          fun x => { x with next := nextPage })).bind fun count s => .done (count + 1) s := by
  have hfind : al.find? s.unused = none :=
    List.find?_eq_none.mpr (fun n hn => by rw [hu n hn]; exact Bool.false_ne_true)
  have hscan {fuel : ℕ} (hfuel : al.length ≤ fuel) :
      scan 0#64 s.allocNext s.unused fuel s.allocHead = some (al.getLast h.ne_nil,false) := by
    rw [scan_linked h.linked h.ne_nil hfuel,hfind]
  obtain ⟨l,hl⟩ := h.scan_last (hscan le_rfl)
  refine ⟨_,l,hl,fun fuel hfuel => ?_⟩
  rw [allocListAddCounted,if_neg h.head_ne_zero,hscan hfuel]

/-- The page that is added has room for the block. -/
theorem Table.counted_grows (src : PageSupply calls) (h : Table (src.taken s.env) s al out)
    (hu : ∀ n ∈ al, s.unused n = false) {p : U64} {e : E}
    (hk : calls.kcallocPage s.env = .done p e) (start size : U64) :
    ∃ t, t.env = e ∧ ∀ fuel, al.length + 170 ≤ fuel →
      allocListAddCounted calls fuel start size s = .done 1 t := by
  obtain ⟨cur,l,rfl,hadd⟩ := h.counted_full hu calls start size
  obtain ⟨hp,hfresh,-⟩ := src.kcallocPage hk
  have hgrow := h.withAllocPage e hp hfresh
  obtain ⟨-,henv,-⟩ := withAllocPage_sameFree p cur e s
  obtain ⟨-,-,hpage⟩ := withAllocPage_spec (h.not_onPage hp hfresh
    (List.mem_append_right _ (List.mem_singleton.mpr rfl))) e s
  have hfirst : (Vmm.withAllocPage p cur e s).unused (cell 24 p 0) = true := by
    rw [unused,hpage 0 (by decide)]
    rfl
  have hmem : cell 24 p 0 ∈ l ++ cur :: cells 24 p 169 :=
    List.mem_append_right l (List.mem_cons_of_mem cur (mem_cells.mpr ⟨0,by decide,rfl⟩))
  obtain ⟨node,hnode⟩ := find_unused ⟨_,hmem,hfirst⟩
  refine ⟨(Vmm.withAllocPage p cur e s).modifyAlloc node
    fun x => { x with start := start, size := size },?_,fun fuel hfuel => ?_⟩
  · rw [modifyAlloc_env,henv]
  obtain ⟨fuel,rfl⟩ : ∃ f, fuel = f + 1 := ⟨fuel - 1,by omega⟩
  have hlen : (l ++ cur :: cells 24 p 169).length ≤ fuel := by
    simp only [List.length_append,List.length_cons,cells,List.length_map,List.length_range,
      List.length_nil] at hfuel ⊢
    omega
  rw [hadd fuel (by omega),kcallocAllocPage_eq_done.mpr ⟨e,hk,rfl⟩,Outcome.bind_done]
  change (allocListAddCounted calls fuel start size (Vmm.withAllocPage p cur e s)).bind _ = _
  rw [hgrow.counted_unused hnode calls start size hlen,Outcome.bind_done]

theorem Table.add_grows (src : PageSupply calls) (h : Table (src.taken s.env) s al out)
    (hu : ∀ n ∈ al, s.unused n = false) {p : U64} {e : E}
    (hk : calls.kcallocPage s.env = .done p e) (start size : U64)
    (hfuel : al.length + 170 ≤ fuel) :
    ∃ t, allocListAddNode calls fuel start size s = .done () t ∧ t.env = e := by
  obtain ⟨t,henv,hadd⟩ := h.counted_grows src hu hk start size
  rw [allocListAddNode_eq_counted,hadd fuel hfuel]
  exact ⟨t,rfl,henv⟩

theorem mem_sum_entry {l : List U64} {x : U64 × U64} (hx : x ∈ (l.map s.entry).sum) :
    ∃ n ∈ l, x ∈ s.entry n := by
  induction l with
  | nil => simp at hx
  | cons n l ih =>
    rw [List.map_cons,List.sum_cons,Multiset.mem_add] at hx
    rcases hx with hx | hx
    · exact ⟨n,List.mem_cons_self,hx⟩
    · obtain ⟨m,hm,hxm⟩ := ih hx
      exact ⟨m,List.mem_cons_of_mem _ hm,hxm⟩

/-- The first node with the start of an outstanding block is the node of the block. -/
theorem Table.find_cur {taken : Finset U64} {mem pages : U64} (h : Table taken s al out)
    (hmem : mem ≠ 0#64) (hout : (mem,pages) ∈ out) (huniq : ∀ z, (mem,z) ∈ out → z = pages) :
    ∃ cur ∈ al, al.find? (fun n => (s.alloc n).start == mem) = some cur ∧
      (s.alloc cur).size = pages ∧ s.entry cur = {(mem,pages)} := by
  rw [← h.entries] at hout
  obtain ⟨n,hn,hin⟩ := mem_sum_entry hout
  have hstart : (s.alloc n).start = mem := by
    unfold entry at hin
    split at hin
    · simp at hin
    · exact (congrArg Prod.fst (Multiset.mem_singleton.mp hin)).symm
  cases hfind : al.find? (fun n => (s.alloc n).start == mem) with
  | none => exact absurd (beq_iff_eq.mpr hstart) (by simpa using List.find?_eq_none.mp hfind n hn)
  | some cur =>
    have hc := List.mem_of_find?_eq_some hfind
    have hcs : (s.alloc cur).start = mem := by simpa using List.find?_some hfind
    have hentry : s.entry cur = {(mem,(s.alloc cur).size)} := by
      simp [entry,unused,hcs,hmem]
    have hsize : (s.alloc cur).size = pages := by
      apply huniq
      rw [← h.entries,← List.sum_map_erase _ hc,hentry]
      simp
    exact ⟨cur,hc,rfl,hsize,hsize ▸ hentry⟩

theorem Table.find_done {taken : Finset U64} {mem pages : U64} (h : Table taken s al out)
    (hmem : mem ≠ 0#64) (hout : (mem,pages) ∈ out) (huniq : ∀ z, (mem,z) ∈ out → z = pages) :
    ∃ t, ∀ fuel, al.length < fuel → allocListFindAndRemove fuel mem s = .done pages t := by
  obtain ⟨cur,hcur,hfind,hsize,-⟩ := h.find_cur hmem hout huniq
  have hne : cur ≠ 0#64 := by
    intro h0
    exact h.linked.2 (h0 ▸ hcur)
  refine ⟨s.modifyAlloc cur fun x => { x with start := 0#64, size := 0#64 },fun fuel hfuel => ?_⟩
  rw [allocListFindAndRemove,walk_linked h.linked hfuel,hfind,Option.getD_some]
  simp only [if_neg hne,hsize]

/-- Nothing is found under a start that is not outstanding. -/
theorem Table.find_absent {taken : Finset U64} {mem : U64} (h : Table taken s al out)
    (hmem : mem ≠ 0#64) (hout : ∀ z, (mem,z) ∉ out) :
    al.find? (fun n => (s.alloc n).start == mem) = none := by
  apply List.find?_eq_none.mpr
  intro n hn hstart
  have hstart : (s.alloc n).start = mem := beq_iff_eq.mp hstart
  apply hout (s.alloc n).size
  have hentry : s.entry n = {(mem,(s.alloc n).size)} := by
    simp [entry,unused,hstart,hmem]
  rw [← h.entries,← List.sum_map_erase _ hn,hentry]
  simp

theorem Table.find_panics {taken : Finset U64} {mem : U64} (h : Table taken s al out)
    (hmem : mem ≠ 0#64) (hout : ∀ z, (mem,z) ∉ out) (hfuel : al.length < fuel) :
    allocListFindAndRemove fuel mem s = .panic "vmm: freeing block that is not in list!" s := by
  rw [allocListFindAndRemove,walk_linked h.linked hfuel,h.find_absent hmem hout]
  rfl

theorem Table.find_not_done {taken : Finset U64} {mem z : U64} (h : Table taken s al out)
    (hmem : mem ≠ 0#64) (hout : ∀ z, (mem,z) ∉ out) :
    allocListFindAndRemove fuel mem s ≠ .done z s' := by
  intro hdone
  unfold allocListFindAndRemove at hdone
  split at hdone
  · cases hdone
  · rename_i q hwalk
    obtain rfl := walk_eq_find h.linked hwalk
    rw [h.find_absent hmem hout] at hdone
    cases hdone

/-- The start of an outstanding block leads to its size. -/
theorem Table.find {taken : Finset U64} {mem pages z : U64} (h : Table taken s al out)
    (hmem : mem ≠ 0#64) (hout : (mem,pages) ∈ out) (huniq : ∀ z, (mem,z) ∈ out → z = pages)
    (hdone : allocListFindAndRemove fuel mem s = .done z s') :
    z = pages ∧ Table taken s' al (out.erase (mem,pages)) ∧ SameFree s s' ∧ s'.env = s.env := by
  obtain ⟨cur,hc,hfind,hsize,hentry⟩ := h.find_cur hmem hout huniq
  unfold allocListFindAndRemove at hdone
  split at hdone
  · cases hdone
  · rename_i q hwalk
    obtain rfl := walk_eq_find h.linked hwalk
    rw [hfind,Option.getD_some] at hdone
    split at hdone
    · cases hdone
    · obtain ⟨rfl,rfl⟩ := Outcome.done.inj hdone
      obtain ⟨rest,hrest,htab⟩ := h.modify hc (fun x => { x with start := 0#64, size := 0#64 }) rfl
      have hnew : (s.modifyAlloc cur fun x => { x with start := 0#64, size := 0#64 }).entry cur =
          0 := by
        simp [entry,unused,modifyAlloc]
      rw [hnew,zero_add] at htab
      refine ⟨hsize,?_,⟨rfl,rfl,rfl,rfl⟩,rfl⟩
      rw [hrest,hentry,Multiset.singleton_add,Multiset.erase_cons_head]
      exact htab

end Add

end Vmm

end Lios

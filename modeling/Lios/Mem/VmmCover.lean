import Lios.Mem.VmmList

/-! # The free list covers the address space

In every run whose calls avoid the two defects of the list, each call returns or
stops the machine with a message, the free blocks that the list reaches and the
outstanding blocks cover the address range exactly, and no two free blocks touch.
-/
namespace Lios.Vmm
variable {E : Type} {calls : PageCalls E} {s s' : Vmm E} {mem pages a z cur : U64} {fuel k : ℕ}

section Fuel

theorem mergeAgain_mono {n bs be : U64} (h : mergeAgain fuel n bs be s = .done () s')
    (hk : fuel ≤ k) : mergeAgain k n bs be s = .done () s' := by
  unfold mergeAgain at h ⊢
  split at h
  · cases h
  · rename_i cur hw
    rw [walk_mono hw hk]
    exact h

/-- More fuel does not change what a call returns. -/
theorem giveBack_mono (h : giveBack calls fuel a z s = .done () s') (hk : fuel ≤ k) :
    giveBack calls k a z s = .done () s' := by
  unfold giveBack at h ⊢
  simp only at h ⊢
  split at h
  · cases h
  · rename_i hhead
    rw [if_neg hhead]
    split at h
    · cases h
    · rename_i cur hscan
      rw [scan_mono hscan hk]
      exact h
    · rename_i cur hscan
      rw [scan_mono hscan hk]
      simp only at h ⊢
      split at h
      · rename_i hr
        rw [if_pos hr]
        exact mergeAgain_mono h hk
      · rename_i hr
        rw [if_neg hr]
        exact mergeAgain_mono h hk

end Fuel

/-- The calls below the allocator return or stop the machine with a message. -/
structure Settles (calls : PageCalls E) : Prop where
  kcallocPage : ∀ e, (calls.kcallocPage e).Settled
  pmmAllocHigh : ∀ e, (calls.pmmAllocHigh e).Settled
  pmmFree : ∀ a e, (calls.pmmFree a e).Settled
  pageUnmap : ∀ v e, (calls.pageUnmap v e).Settled
  pageMap : ∀ v a w e, (calls.pageMap v a w e).Settled

theorem Settles.mapFrames (h : Settles calls) (start : U64) (r i : ℕ) (e : E) :
    (mapFrames calls start r i e).Settled := by
  induction r generalizing i e with
  | zero => trivial
  | succ r ih =>
    unfold Vmm.mapFrames
    refine (h.pmmAllocHigh e).bind fun f e _ => (h.pageUnmap _ e).bind fun _ e _ => ?_
    exact (h.pageMap _ f true e).bind fun _ e _ => ih (i + 1) e

theorem Settles.unmapFrames (h : Settles calls) (mem : U64) (r i : ℕ) (e : E) :
    (unmapFrames calls mem r i e).Settled := by
  induction r generalizing i e with
  | zero => trivial
  | succ r ih =>
    unfold Vmm.unmapFrames
    refine (h.pmmFree _ e).bind fun _ e _ => (h.pageUnmap _ e).bind fun _ e _ => ?_
    exact (h.pageMap _ _ true e).bind fun _ e _ => ih (i + 1) e

/-- A call that is not one of the two that damage the list: an exact fit in the tail, and
a block that touches no other while the tail is empty and has no back pointer. -/
def Avoids (x : Session E) : VmmCall → Prop
  | .alloc pages => 1 ≤ pages.toNat ∧ pages.toNat * 4096 < 2 ^ 64 ∧
      ∀ fuel cur, walk 0#64 x.vmm.next (fun n => pages * pageSize ≤ x.vmm.size n) fuel
        x.vmm.vmmHead = some cur → x.vmm.size cur = pages * pageSize → cur ≠ x.vmm.vmmTail
  | .free mem => ∀ pages, (mem,pages) ∈ x.out → ∀ fuel cur,
      scan 0#64 x.vmm.next (x.vmm.touches mem (mem + pages * pageSize)) fuel x.vmm.vmmHead =
        some (cur,false) → x.vmm.size x.vmm.vmmTail = 0#64 → x.vmm.prev x.vmm.vmmTail ≠ 0#64

/-- The blocks are accounted for and the list has its shape. -/
structure Tidy (src : PageSupply calls) (x : Session E) : Prop where
  ranges : Ranges src x.vmm x.out
  neat : Neat x.vmm

section Tidy
variable {src : PageSupply calls} {x y : Session E}

theorem Tidy.alloc (h : Tidy src x) (hc : Avoids x (.alloc pages))
    (hdone : vmmAlloc calls fuel pages x.vmm = .done mem s') : Neat s' := by
  obtain ⟨hpos,hlt,hexact⟩ := hc
  have hsize := toNat_mul_pageSize hlt
  obtain ⟨al,htab⟩ := h.ranges.table
  obtain ⟨cur,s₁,e,hwalk,hcur,rfl,h₁,hmap,h₃⟩ := vmmAlloc_eq_done.mp hdone
  obtain ⟨hn,hfit⟩ := h.ranges.free.closed.walk hwalk hcur
  have hfit := of_decide_eq_true hfit
  obtain ⟨t,htake,hneat⟩ := h.neat.takeBlock h.ranges.free hn hfit (by omega) (hexact fuel _ hwalk)
  obtain ⟨-,rfl⟩ := Outcome.done.inj (htake.symm.trans h₁)
  obtain ⟨-,hrest⟩ := h.ranges.free.takeBlock hn hfit (by omega) (by omega) h₁
  have hsub : src.taken x.vmm.env ⊆ src.taken e := hrest.env ▸ mapFrames_taken src hmap
  have htab₂ : Table (src.taken e) ((envLens E).set e t) al x.out :=
    (htab.mono hsub).congr hrest.alloc hrest.allocHead
  have hz : x.vmm.size cur ≠ 0#64 := by
    intro h0
    rw [h0,BitVec.le_def,hsize] at hfit
    simp at hfit
    omega
  obtain ⟨-,hsame,-⟩ := Table.add src htab₂ (h.ranges.free.blocks.edge_ne_zero hn hz).1 h₃
  exact hneat.same ((SameFree.setEnv e t).trans hsame)

/-- What the guard of a call of `vmm_free` means for the state in which the block goes
back to the list. -/
theorem Neat.guard (h : Neat x.vmm) (hc : Avoids x (.free mem)) (hout : (mem,pages) ∈ x.out)
    (hsame : SameFree x.vmm s)
    (hfar : ∀ m ∈ s.nodes, s.touches mem (mem + pages * pageSize) m = false)
    (hz : s.size s.vmmTail = 0#64) : s.prev s.vmmTail ≠ 0#64 := by
  obtain ⟨before,used,empty,hchain⟩ := h.chain
  have htouch : s.touches = x.vmm.touches := by
    funext b e n
    rw [touches,touches,hsame.start,hsame.size]
  rw [hsame.size,hsame.tail] at hz
  rw [hsame.nodes,htouch] at hfar
  rw [hsame.prev,hsame.tail]
  exact hc pages hout _ _ (hchain.scan_far hfar (Nat.lt_succ_self _)) hz

theorem Tidy.free (h : Tidy src x) (hset : Settles calls) (hc : Avoids x (.free mem))
    (hout : (mem,pages) ∈ x.out) (hdone : vmmFree calls fuel mem x.vmm = .done () s') :
    Neat s' := by
  obtain ⟨z,t,e,hfind,hmap,hdone⟩ := vmmFree_eq_done.mp hdone
  obtain ⟨rfl,hsame,hfree,-⟩ := h.ranges.found hout hfind hmap
  have hmore := giveBack_mono hdone (k := fuel + ((envLens E).set e t).nodes.card + 1) (by omega)
  exact ((h.neat.same hsame).giveBack hfree (hset.kcallocPage _) (by omega)
    (h.neat.guard hc hout hsame)).2 s' hmore

theorem Step.tidy (h : Tidy src x) (hset : Settles calls) {c : VmmCall} (hs : Step calls x c y)
    (hc : Avoids x c) : Tidy src y := by
  cases hs with
  | alloc hdone => exact ⟨h.ranges.vmmAlloc hc.1 hc.2.1 hdone,h.alloc hc hdone⟩
  | free hout hdone => exact ⟨h.ranges.vmmFree hout hdone,h.free hset hc hout hdone⟩

end Tidy

section Runs
variable {src : PageSupply calls}

/-- After `vmm_init` the first node of the page is in use and the others are empty. -/
theorem vmmInit_chain (src : PageSupply calls) (hpages : s.freePages = [])
    (hdone : vmmInit calls s = .done () s') :
    ∃ p, Chain s' s'.prev [p] ((List.range' 1 127).map (cell 32 p)) ∧
      s'.start p = freeVirtStart ∧ s'.size p = freeVirtEnd - freeVirtStart := by
  obtain ⟨p,q,e,e',hp,-,-,hfp,hhead,htail,-,hfirst,hfree,-⟩ := vmmInit_spec hdone
  obtain ⟨hpp,-,-⟩ := src.kcallocPage hp
  rw [hpages] at hfp
  have hlist : [p] ++ (List.range' 1 127).map (cell 32 p) = cells 32 p 128 := cells_cons.symm
  refine ⟨p,⟨?_,?_,fun n => ?_,fun n hn => ?_,fun n hn => ?_,?_,fun n _ => Or.inl rfl⟩,?_,?_⟩
  · rw [hlist,hhead]
    refine linked_page hpp (by decide) (by decide) (by decide) (fun j hj => ?_)
    by_cases h0 : j = 0
    · subst h0
      rw [cell_zero,next,hfirst]
      rfl
    · rw [next,hfree j (by omega) hj]
      rfl
  · rw [hlist,cells_succ,List.getLast?_concat,htail]
  · rw [hlist,nodes,mem_nodesOn,hfp,mem_cells]
    simp
  · obtain rfl := List.mem_singleton.mp hn
    rw [size,hfirst]
    exact (by decide : freeVirtEnd - freeVirtStart ≠ 0#64)
  · obtain ⟨j,hj,rfl⟩ := List.mem_map.mp hn
    rw [List.mem_range'_1] at hj
    rw [size,hfree j (by omega) (by omega)]
    rfl
  · rw [hlist,cells,List.range_eq_range']
    refine backed_cells (fun _ => ?_) (fun j hj hjr => ?_)
    · rw [cell_zero,prev,hfirst]
    · rw [prev,hfree j (by omega) (by omega),freshFree]
      exact if_neg (by omega)
  · rw [start,hfirst]
  · rw [size,hfirst]

theorem Tidy.vmmInit (hpages : s.freePages = []) (hdone : vmmInit calls s = .done () s') :
    Tidy src ⟨s',0⟩ := by
  obtain ⟨p,hchain,-⟩ := vmmInit_chain src hpages hdone
  refine ⟨Ranges.vmmInit hpages hdone,⟨_,_,_,hchain⟩,fun n hn m hm hzn hzm => ?_⟩
  obtain rfl := List.mem_singleton.mp (hchain.mem_used hn hzn)
  obtain rfl := List.mem_singleton.mp (hchain.mem_used hm hzm)
  exact fun he => hzn (by simpa using he)

theorem pool_settles : Settles pagePool := by
  refine ⟨fun e => ?_,fun _ => trivial,fun _ _ => trivial,fun _ _ => trivial,fun _ _ _ _ => trivial⟩
  simp only [pagePool]
  split
  · trivial
  · trivial

end Runs

end Lios.Vmm

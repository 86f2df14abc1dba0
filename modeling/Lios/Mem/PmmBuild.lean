import Lios.Mem.PmmLayout

/-! # The initialisation builds the layout

Two invariants carry the argument. While nodes are placed, those placed so far form a
segment that ends at the cursor and have no address. While frames are listed, the nodes
form a list, the first of them have the frames listed so far, and the cursor is at the
first without one.
-/
namespace Lios
namespace PmmInit

structure Placing (s : PmmInit) (ps : List ℕ) : Prop where
  chain : (ps = [] ∧ s.pmmLow = 0#64) ∨ ∃ l p, ps = l ++ [p] ∧ s.pmmInitTemp = pointer p ∧
    Segment s.next s.pmmLow (l.map pointer) (pointer p)
  addr : ∀ p ∈ ps, s.addr (pointer p) = 0#64

structure Filling (s : PmmInit) (ps fs : List ℕ) : Prop where
  linked : Linked 0#64 s.next s.pmmLow (ps.map pointer)
  cursor : s.pmmInitTemp = ((ps.map pointer)[fs.length]?).getD 0#64
  addr : ∀ (k : ℕ) (p : ℕ), ps[k]? = some p → (s.addr (pointer p)).toNat = (fs[k]?).getD 0

section Placing
variable {s t : PmmInit} {ps : List ℕ} {p q : ℕ}

theorem Placing.pmmLow_eq_zero_iff (h : Placing s ps) (hs : Spaced ps) :
    s.pmmLow = 0#64 ↔ ps = [] := by
  obtain ⟨rfl,hlow⟩ | ⟨l,p,rfl,-,hseg⟩ := h.chain
  · exact ⟨fun _ => rfl,fun _ => hlow⟩
  · refine ⟨fun hlow => ?_,fun hnil => absurd hnil (by simp)⟩
    cases l with
    | nil =>
      have hp : s.pmmLow = pointer p := hseg
      exact absurd (hp.symm.trans hlow) (pointer_ne_zero (hs.mapped p (by simp)))
    | cons q l =>
      exact absurd (hseg.1.symm.trans hlow) (pointer_ne_zero (hs.mapped q (by simp)))

/-- What a new node behind `q` changes. -/
theorem append_spec (hs : Spaced ps) (hq : q ∈ ps) (hp : p ∈ ps) (hne : q ≠ p) :
    let t := (s.setNext (pointer q) (pointer p)).setAddr (pointer p) 0#64
    t.next (pointer q) = pointer p ∧ t.addr (pointer p) = 0#64 ∧
      t.addr (pointer q) = s.addr (pointer q) ∧
      ∀ r ∈ ps, r ≠ q → r ≠ p →
        t.next (pointer r) = s.next (pointer r) ∧ t.addr (pointer r) = s.addr (pointer r) := by
  have hpq := hs.beside hp hq (Ne.symm hne)
  refine ⟨?_,addr_setAddr_self _,?_,fun r hr hrq hrp => ⟨?_,?_⟩⟩
  · rw [hpq.next_setAddr,next_setNext_self]
  · rw [hpq.addr_setAddr,addr_setNext_self (hs.pointer_bound hq)]
  · rw [(hs.beside hp hr (Ne.symm hrp)).next_setAddr,(hs.beside hq hr (Ne.symm hrq)).next_setNext]
  · rw [(hs.beside hp hr (Ne.symm hrp)).addr_setAddr,(hs.beside hq hr (Ne.symm hrq)).addr_setNext]

@[simp] theorem placed_linkedListAddNode (start : U64) (s : PmmInit) :
    (linkedListAddNode start s).placed = s.placed ++ [start] := by
  unfold linkedListAddNode
  split <;> rfl

@[simp] theorem nodesNeeded_linkedListAddNode (start : U64) (s : PmmInit) :
    (linkedListAddNode start s).nodesNeeded = s.nodesNeeded - 1#64 := by
  unfold linkedListAddNode
  split <;> rfl

@[simp] theorem pmmHigh_linkedListAddNode (start : U64) (s : PmmInit) :
    (linkedListAddNode start s).pmmHigh = s.pmmHigh := by
  unfold linkedListAddNode
  split <;> rfl

@[simp] theorem pmmFreeList_linkedListAddNode (start : U64) (s : PmmInit) :
    (linkedListAddNode start s).pmmFreeList = s.pmmFreeList := by
  unfold linkedListAddNode
  split <;> rfl

theorem Placing.linkedListAddNode {start : U64} (h : Placing s ps)
    (hs : Spaced (ps ++ [start.toNat])) :
    Placing (PmmInit.linkedListAddNode start s) (ps ++ [start.toNat]) := by
  have hold : Spaced ps := hs.of_prefix (List.prefix_append _ _)
  have hnew : start.toNat ∈ ps ++ [start.toNat] := by simp
  obtain ⟨rfl,hlow⟩ | ⟨l,q,rfl,htemp,hseg⟩ := h.chain
  · have hbytes : (PmmInit.linkedListAddNode start s).bytes =
        (s.setAddr (pointer start.toNat) 0#64).bytes := by
      rw [PmmInit.linkedListAddNode,if_pos hlow,pointer_toNat]
    have hhead : (PmmInit.linkedListAddNode start s).pmmLow = pointer start.toNat := by
      rw [PmmInit.linkedListAddNode,if_pos hlow,pointer_toNat]
    have htail : (PmmInit.linkedListAddNode start s).pmmInitTemp = pointer start.toNat := by
      rw [PmmInit.linkedListAddNode,if_pos hlow,pointer_toNat]
    refine ⟨.inr ⟨[],start.toNat,rfl,htail,hhead⟩,fun p hp => ?_⟩
    obtain rfl := List.mem_singleton.mp hp
    rw [addr_congr hbytes]
    exact addr_setAddr_self _
  · have hq : q ∈ l ++ [q] ++ [start.toNat] := by simp
    have hnd := hs.nodup
    rw [List.nodup_append] at hnd
    have hne : ∀ r ∈ l ++ [q], r ≠ start.toNat := fun r hr => hnd.2.2 r hr _ (by simp)
    have hql : ∀ r ∈ l, r ≠ q := fun r hr => (List.nodup_append.mp hnd.1).2.2 r hr q (by simp)
    obtain ⟨hnext,haddr,hkeep,hrest⟩ := append_spec (s := s) hs hq hnew (hne q (by simp))
    have hlow : s.pmmLow ≠ 0#64 := fun hz =>
      absurd ((h.pmmLow_eq_zero_iff hold).mp hz) (by simp)
    -- the pointer that was just stored is read back
    have hbytes : (PmmInit.linkedListAddNode start s).bytes =
        ((s.setNext (pointer q) (pointer start.toNat)).setAddr (pointer start.toNat) 0#64).bytes := by
      rw [PmmInit.linkedListAddNode,if_neg hlow]
      dsimp only
      rw [pmmInitTemp_setNext,next_setNext_self,pointer_toNat,htemp]
    have htail : (PmmInit.linkedListAddNode start s).pmmInitTemp = pointer start.toNat := by
      rw [PmmInit.linkedListAddNode,if_neg hlow,pointer_toNat]
    have hhead : (PmmInit.linkedListAddNode start s).pmmLow = s.pmmLow := by
      rw [PmmInit.linkedListAddNode,if_neg hlow]
    refine ⟨.inr ⟨l ++ [q],start.toNat,rfl,htail,?_⟩,fun r hr => ?_⟩
    · rw [next_congr hbytes,hhead,List.map_append]
      refine segment_append.mpr ⟨pointer q,hseg.congr fun x hx => ?_,rfl,hnext⟩
      obtain ⟨r,hr,rfl⟩ := List.mem_map.mp hx
      exact (hrest r (by simp [hr]) (hql r hr) (hne r (by simp [hr]))).1
    · rw [addr_congr hbytes]
      rcases List.mem_append.mp hr with hr' | hr'
      · have hzero := h.addr r hr'
        by_cases hrq : r = q
        · rw [hrq] at hzero ⊢
          exact hkeep.trans hzero
        · exact (hrest r hr hrq (hne r hr')).2.trans hzero
      · obtain rfl := List.mem_singleton.mp hr'
        exact haddr

end Placing

section Filling
variable {s t : PmmInit} {ps fs : List ℕ} {p q : ℕ}

theorem Filling.cursor_eq_zero_iff (h : Filling s ps fs) (hs : Spaced ps) :
    s.pmmInitTemp = 0#64 ↔ ps.length ≤ fs.length := by
  rw [h.cursor]
  cases hp : ps[fs.length]? with
  | none => simp [List.getElem?_eq_none_iff.mp hp]
  | some p =>
    obtain ⟨hlt,-⟩ := List.getElem?_eq_some_iff.mp hp
    have hne := pointer_ne_zero (hs.mapped p (List.mem_of_getElem? hp))
    rw [List.getElem?_map,hp]
    exact ⟨fun hz => absurd hz hne,fun hle => absurd hlt (by omega)⟩

/-- Frames behind the last node change nothing. -/
theorem Filling.append (h : Filling s ps fs) (hle : ps.length ≤ fs.length) (gs : List ℕ) :
    Filling s ps (fs ++ gs) := by
  refine ⟨h.linked,?_,fun k p hp => ?_⟩
  · rw [h.cursor,List.getElem?_eq_none (by simpa using hle),
      List.getElem?_eq_none (by simp; omega)]
  · obtain ⟨hlt,-⟩ := List.getElem?_eq_some_iff.mp hp
    rw [h.addr k p hp,List.getElem?_append_left (by omega)]

/-- One turn of the loop over the frames. -/
theorem Filling.step {i : U64} (h : Filling s ps fs) (hs : Spaced ps)
    (hlt : fs.length < ps.length) : Filling (listFrame i s) ps (fs ++ [i.toNat]) := by
  obtain ⟨p,hp⟩ : ∃ p, ps[fs.length]? = some p := ⟨_,List.getElem?_eq_getElem hlt⟩
  have hmem := List.mem_of_getElem? hp
  have htemp : s.pmmInitTemp = pointer p := by
    rw [h.cursor,List.getElem?_map,hp]
    rfl
  have hat : (ps.map pointer)[fs.length]? = some (pointer p) := by
    rw [List.getElem?_map,hp]
    rfl
  have hbytes := bytes_listFrame s i
  rw [htemp] at hbytes
  have hnext (q : ℕ) (hq : q ∈ ps) :
      (s.setAddr (pointer p) i).next (pointer q) = s.next (pointer q) := by
    by_cases hpq : p = q
    · rw [hpq,next_setAddr_self (hs.pointer_bound hq)]
    · exact (hs.beside hmem hq hpq).next_setAddr i
  refine ⟨?_,?_,fun k q hq => ?_⟩
  · rw [next_congr hbytes,pmmLow_listFrame]
    refine h.linked.congr fun x hx => ?_
    obtain ⟨q,hq,rfl⟩ := List.mem_map.mp hx
    exact hnext q hq
  · rw [pmmInitTemp_listFrame,htemp,hnext p hmem,h.linked.next_getElem? hat,List.length_append]
    rfl
  · rw [addr_congr hbytes]
    have hqm := List.mem_of_getElem? hq
    by_cases hk : k = fs.length
    · obtain rfl : p = q := Option.some.inj (hp.symm.trans (hk ▸ hq))
      rw [addr_setAddr_self,hk,List.getElem?_concat_length]
      rfl
    · have hpq : p ≠ q := by
        rintro rfl
        exact hk ((List.getElem?_inj (List.getElem?_eq_some_iff.mp hq).1 hs.nodup).mp
          (hq.trans hp.symm))
      rw [(hs.beside hmem hqm hpq).addr_setAddr,h.addr k q hq]
      by_cases hlt' : k < fs.length
      · rw [List.getElem?_append_left hlt']
      · rw [List.getElem?_eq_none (by omega),List.getElem?_eq_none (by simp; omega)]

/-- The loop over the frames of a block lists the pages from `i` on. -/
theorem Filling.listFrames {stop : U64} (hs : Spaced ps) (hstop : stop.toNat + 4096 ≤ 2 ^ 64)
    (fuel : ℕ) {i : U64} (h : Filling s ps fs) :
    (fuel ≤ (steps i.toNat stop.toNat 4096).length ∧ PmmInit.listFrames fuel i stop s = .spin) ∨
      ∃ t, PmmInit.listFrames fuel i stop s = .done () t ∧
        Filling t ps (fs ++ steps i.toNat stop.toNat 4096) ∧ t.placed = s.placed ∧
        t.nodesNeeded = s.nodesNeeded ∧ t.pmmHigh = s.pmmHigh := by
  induction fuel generalizing s fs i with
  | zero => exact .inl ⟨Nat.zero_le _,rfl⟩
  | succ fuel ih =>
    rw [PmmInit.listFrames]
    by_cases hi : i < stop
    · have hlt := BitVec.lt_def.mp hi
      by_cases htemp : s.pmmInitTemp = 0#64
      · rw [if_neg fun hc => hc.2 htemp]
        exact .inr ⟨s,rfl,h.append ((h.cursor_eq_zero_iff hs).mp htemp) _,rfl,rfl,rfl⟩
      · have hfew : fs.length < ps.length := by
          rw [h.cursor_eq_zero_iff hs] at htemp
          omega
        have hnext : (i + pageSize).toNat = i.toNat + 4096 := by
          rw [BitVec.toNat_add,show pageSize.toNat = 4096 from rfl]
          omega
        have hstep := ih (i := i + pageSize) (h.step (i := i) hs hfew)
        rw [if_pos ⟨hi,htemp⟩,steps_of_lt (by decide) hlt]
        rw [hnext] at hstep
        obtain ⟨hfuel,hspin⟩ | ⟨t,hdone,hfill,hplaced,hneeded,hhigh⟩ := hstep
        · refine .inl ⟨?_,hspin⟩
          rw [List.length_cons]
          omega
        · refine .inr ⟨t,hdone,?_,hplaced.trans (placed_listFrame ..),
            hneeded.trans (nodesNeeded_listFrame ..),hhigh.trans (pmmHigh_listFrame ..)⟩
          rw [List.append_assoc] at hfill
          exact hfill
    · rw [if_neg fun hc => hi hc.1,steps_of_le (by decide)
        (not_lt.mp fun hlt => hi (BitVec.lt_def.mpr hlt)),List.append_nil]
      exact .inr ⟨s,rfl,h,rfl,rfl,rfl⟩

end Filling

section Blocks
variable {s t : PmmInit} {ps : List ℕ}

/-- A node that is placed counts, and the last one ends the loop. -/
theorem needed_linkedListAddNode {m : ℕ} (hm : s.nodesNeeded.toNat = m + 1) (cur : U64) :
    (linkedListAddNode cur s).nodesNeeded.toNat = m ∧
      ((linkedListAddNode cur s).nodesNeeded = 0#64 ↔ m = 0) := by
  have hdec : (linkedListAddNode cur s).nodesNeeded.toNat = m := by
    rw [nodesNeeded_linkedListAddNode,BitVec.toNat_sub,show (1#64).toNat = 1 from rfl]
    have := s.nodesNeeded.isLt
    omega
  refine ⟨hdec,?_⟩
  rw [← BitVec.toNat_inj,hdec,BitVec.toNat_zero]

/-- The loop that places nodes cuts the block into nodes until there are enough, whatever the
memory holds. -/
theorem placeNodes_count {stop c : U64} (hstop : stop.toNat + 16 ≤ 2 ^ 64) {fuel : ℕ} {cur : U64}
    (hneeded : 0 < s.nodesNeeded.toNat) (hdone : placeNodes fuel cur stop s = .done c t) :
    t.placed.map BitVec.toNat = s.placed.map BitVec.toNat ++
        (steps cur.toNat stop.toNat 16).take s.nodesNeeded.toNat ∧
      t.nodesNeeded.toNat = s.nodesNeeded.toNat - (steps cur.toNat stop.toNat 16).length ∧
      (t.nodesNeeded = 0#64 → c.toNat = cur.toNat + 16 * (s.nodesNeeded.toNat - 1) ∧
        c < stop) := by
  induction fuel generalizing s cur with
  | zero => cases hdone
  | succ fuel ih =>
    obtain ⟨m,hm⟩ : ∃ m, s.nodesNeeded.toNat = m + 1 := ⟨s.nodesNeeded.toNat - 1,by omega⟩
    rw [placeNodes] at hdone
    by_cases hcur : cur < stop
    · obtain ⟨hdec,hiff⟩ := needed_linkedListAddNode hm cur
      rw [if_pos hcur] at hdone
      rw [steps_of_lt (by decide) (BitVec.lt_def.mp hcur),hm,List.take_succ_cons,List.length_cons]
      dsimp only at hdone
      by_cases hzero : (linkedListAddNode cur s).nodesNeeded = 0#64
      · obtain rfl : m = 0 := hiff.mp hzero
        rw [if_pos hzero] at hdone
        obtain ⟨rfl,rfl⟩ := Outcome.done.inj hdone
        exact ⟨by simp,by omega,fun _ => ⟨rfl,hcur⟩⟩
      · have hpos : m ≠ 0 := fun hz => hzero (hiff.mpr hz)
        have hlt := BitVec.lt_def.mp hcur
        have hnext : (cur + 16#64).toNat = cur.toNat + 16 := by
          rw [BitVec.toNat_add,show (16#64).toNat = 16 from rfl]
          omega
        rw [if_neg hzero] at hdone
        obtain ⟨hplaced,hneed,hc⟩ := ih (by omega) hdone
        rw [hnext,hdec] at hplaced hneed hc
        refine ⟨?_,by omega,fun hz => ⟨?_,(hc hz).2⟩⟩
        · rw [hplaced,placed_linkedListAddNode,List.map_append,List.append_assoc]
          rfl
        · have := (hc hz).1
          omega
    · have hle := not_lt.mp fun hlt => hcur (BitVec.lt_def.mpr hlt)
      rw [if_neg hcur] at hdone
      obtain ⟨rfl,rfl⟩ := Outcome.done.inj hdone
      rw [steps_of_le (by decide) hle,List.take_nil,List.append_nil]
      refine ⟨rfl,by simp,fun hz => ?_⟩
      rw [hz] at hm
      cases hm

/-- The nodes placed form a segment, as long as they do not overlap. -/
theorem Placing.placeNodes {stop : U64} (hstop : stop.toNat + 16 ≤ 2 ^ 64) (fuel : ℕ) {cur : U64}
    (h : Placing s ps) (hneeded : 0 < s.nodesNeeded.toNat)
    (hs : Spaced (ps ++ (steps cur.toNat stop.toNat 16).take s.nodesNeeded.toNat)) :
    (fuel ≤ (steps cur.toNat stop.toNat 16).length ∧ PmmInit.placeNodes fuel cur stop s = .spin) ∨
      ∃ c t, PmmInit.placeNodes fuel cur stop s = .done c t ∧
        Placing t (ps ++ (steps cur.toNat stop.toNat 16).take s.nodesNeeded.toNat) ∧
        t.pmmHigh = s.pmmHigh := by
  induction fuel generalizing s ps cur with
  | zero => exact .inl ⟨Nat.zero_le _,rfl⟩
  | succ fuel ih =>
    obtain ⟨m,hm⟩ : ∃ m, s.nodesNeeded.toNat = m + 1 := ⟨s.nodesNeeded.toNat - 1,by omega⟩
    rw [PmmInit.placeNodes]
    by_cases hcur : cur < stop
    · have hlt := BitVec.lt_def.mp hcur
      rw [steps_of_lt (by decide) hlt,hm,List.take_succ_cons] at hs ⊢
      have hfirst : Spaced (ps ++ [cur.toNat]) := by
        refine hs.of_prefix ⟨(steps (cur.toNat + 16) stop.toNat 16).take m,?_⟩
        rw [List.append_assoc,List.singleton_append]
      have hplacing := h.linkedListAddNode hfirst
      obtain ⟨hdec,hiff⟩ := needed_linkedListAddNode hm cur
      rw [if_pos hcur]
      dsimp only
      by_cases hzero : (PmmInit.linkedListAddNode cur s).nodesNeeded = 0#64
      · obtain rfl : m = 0 := hiff.mp hzero
        rw [if_pos hzero]
        exact .inr ⟨cur,_,rfl,hplacing,pmmHigh_linkedListAddNode ..⟩
      · have hpos : m ≠ 0 := fun hz => hzero (hiff.mpr hz)
        have hnext : (cur + 16#64).toNat = cur.toNat + 16 := by
          rw [BitVec.toNat_add,show (16#64).toNat = 16 from rfl]
          omega
        have hrest : Spaced (ps ++ [cur.toNat] ++
            (steps (cur + 16#64).toNat stop.toNat 16).take
              (PmmInit.linkedListAddNode cur s).nodesNeeded.toNat) := by
          rw [hnext,hdec,List.append_assoc,List.singleton_append]
          exact hs
        have hstep := ih hplacing (by omega) hrest
        rw [hnext,hdec,List.append_assoc,List.singleton_append] at hstep
        rw [if_neg hzero,List.length_cons]
        obtain ⟨hfuel,hspin⟩ | ⟨c,t,hdone,hpl,hhigh⟩ := hstep
        · exact .inl ⟨by omega,hspin⟩
        · exact .inr ⟨c,t,hdone,hpl,hhigh.trans (pmmHigh_linkedListAddNode ..)⟩
    · have hle := not_lt.mp fun hlt => hcur (BitVec.lt_def.mpr hlt)
      rw [if_neg hcur,steps_of_le (by decide) hle,List.take_nil,List.append_nil]
      exact .inr ⟨cur,s,rfl,h,rfl⟩

/-- The list is closed behind the last node. -/
theorem Placing.closeList (h : Placing s ps) (hs : Spaced ps) (hne : ps ≠ []) :
    Filling (PmmInit.closeList s) ps [] := by
  obtain ⟨rfl,-⟩ | ⟨l,p,rfl,htemp,hseg⟩ := h.chain
  · exact absurd rfl hne
  have hbytes := bytes_closeList s
  rw [htemp] at hbytes
  have hp : p ∈ l ++ [p] := by simp
  have hlp : ∀ q ∈ l, p ≠ q := fun q hq =>
    ((List.nodup_append.mp hs.nodup).2.2 q hq p (by simp)).symm
  have hnull : ∀ q ∈ l ++ [p], pointer q ≠ 0#64 := fun q hq => pointer_ne_zero (hs.mapped q hq)
  have hlinked : Linked 0#64 (PmmInit.closeList s).next (PmmInit.closeList s).pmmLow
      ((l ++ [p]).map pointer) := by
    rw [next_congr hbytes,pmmLow_closeList,List.map_append]
    refine Segment.linked_snoc (hseg.congr fun x hx => ?_) (fun hz => ?_) (hnull p hp)
      (next_setNext_self _)
    · obtain ⟨q,hq,rfl⟩ := List.mem_map.mp hx
      exact (hs.beside hp (by simp [hq]) (hlp q hq)).next_setNext _
    · obtain ⟨q,hq,hz⟩ := List.mem_map.mp hz
      exact hnull q (by simp [hq]) hz
  refine ⟨hlinked,?_,fun k q hq => ?_⟩
  · rw [pmmInitTemp_closeList]
    cases l with
    | nil => exact hseg
    | cons q l => exact hseg.1
  · have hqm := List.mem_of_getElem? hq
    have hzero := h.addr q hqm
    rw [addr_congr hbytes]
    by_cases hpq : p = q
    · rw [hpq,addr_setNext_self (hs.pointer_bound hqm),hzero]
      rfl
    · rw [(hs.beside hp hqm hpq).addr_setNext,hzero]
      rfl

/-- The manager between two calls of `pmm_add_block`. -/
structure Refines (s : PmmInit) (L : Layout) : Prop where
  placed : s.placed.map BitVec.toNat = L.nodes
  needed : s.nodesNeeded.toNat = L.needed
  high : s.pmmHigh = 0#64
  placing : L.needed ≠ 0 → Placing s L.nodes ∧ L.frames = []
  filling : L.needed = 0 → Filling s L.nodes L.frames

/-- The layout before the first block, for a value of `pmm_set_total`. -/
def planned (total : U64) : Layout :=
  ⟨[],[],(floorU64Div total (pageSize + 16#64) - 1#64).toNat⟩

theorem refines_fresh (bytes : U64 → U8) (total : U64) :
    Refines (pmmSetTotal total (fresh bytes)) (planned total) :=
  ⟨rfl,rfl,rfl,fun _ => ⟨⟨.inl ⟨rfl,rfl⟩,by simp [planned]⟩,rfl⟩,
    fun _ => ⟨linked_nil.mpr rfl,rfl,by simp [planned]⟩⟩

variable {L : Layout} {start stop : U64}

theorem length_steps_lt {a b d : ℕ} (hb : b ≤ 2 ^ 64) (hd : 16 ≤ d) :
    (steps a b d).length < 2 ^ 61 - 3 := by
  rw [length_steps,Nat.div_lt_iff_lt_mul (by omega)]
  omega

theorem Refines.listBlock (h : Refines s L) (hzero : L.needed = 0) (hs : Spaced L.nodes)
    (hstart : start.toNat + 4096 ≤ 2 ^ 64) (hstop : stop.toNat + 4096 ≤ 2 ^ 64) (fuel : ℕ) :
    (fuel < 2 ^ 61 - 1 ∧ pmmAddBlock fuel start stop s = .spin) ∨
      ∃ t, pmmAddBlock fuel start stop s = .done () t ∧
        Refines t { L with
          frames := L.frames ++ steps (pageUp start.toNat) stop.toNat 4096 } := by
  have hneeded := h.needed
  cases fuel with
  | zero => exact .inl ⟨by omega,rfl⟩
  | succ fuel =>
    have hz : s.nodesNeeded = 0#64 := BitVec.eq_of_toNat_eq (by rw [hneeded,hzero]; rfl)
    rw [pmmAddBlock,if_pos hz]
    have hloop := (h.filling hzero).listFrames hs hstop fuel
      (i := (start + pageSize - 1#64) &&& ~~~(pageSize - 1#64))
    rw [toNat_pageUp hstart] at hloop
    have hlen := @length_steps_lt (pageUp start.toNat) stop.toNat 4096 (by omega) (by omega)
    obtain ⟨hfuel,hspin⟩ | ⟨t,hdone,hfill,hplaced,hneed,hhigh⟩ := hloop
    · exact .inl ⟨by omega,hspin⟩
    · exact .inr ⟨t,hdone,by rw [hplaced,h.placed],by rw [hneed,hneeded],hhigh.trans h.high,
        fun hne => absurd hzero hne,fun _ => hfill⟩

/-- One call of `pmm_add_block` adds the block to the layout. -/
theorem Refines.pmmAddBlock (h : Refines s L)
    (hs : Spaced (L.add (start.toNat,stop.toNat)).nodes)
    (hstart : start.toNat + 4096 ≤ 2 ^ 64) (hstop : stop.toNat + 4096 ≤ 2 ^ 64) (fuel : ℕ) :
    (fuel < 2 ^ 61 ∧ PmmInit.pmmAddBlock fuel start stop s = .spin) ∨
      ∃ t, PmmInit.pmmAddBlock fuel start stop s = .done () t ∧
        Refines t (L.add (start.toNat,stop.toNat)) := by
  by_cases hzero : L.needed = 0
  · rw [Layout.nodes_add,hzero,List.take_zero,List.append_nil] at hs
    rw [Layout.add,if_pos hzero]
    obtain ⟨hfuel,hspin⟩ | hdone := h.listBlock hzero hs hstart hstop fuel
    · exact .inl ⟨by omega,hspin⟩
    · exact .inr hdone
  · have hneeded := h.needed
    obtain ⟨hplacing,hframes⟩ := h.placing hzero
    rw [Layout.nodes_add,← hneeded] at hs
    cases fuel with
    | zero => exact .inl ⟨by omega,rfl⟩
    | succ fuel =>
      have hpos : s.nodesNeeded ≠ 0#64 := fun hz => hzero (by rw [← hneeded,hz]; rfl)
      rw [PmmInit.pmmAddBlock,if_neg hpos]
      have hlen := @length_steps_lt start.toNat stop.toNat 16 (by omega) le_rfl
      obtain ⟨hfuel,hspin⟩ | ⟨c,t,hdone,hpl,hhigh⟩ :=
        hplacing.placeNodes (by omega) fuel (by omega) hs
      · exact .inl ⟨by omega,by rw [hspin,Outcome.bind_spin]⟩
      obtain ⟨hplaced,hneed,hc⟩ := placeNodes_count (by omega) (by omega) hdone
      rw [hdone,Outcome.bind_done,Layout.add,if_neg hzero,hframes]
      rw [h.placed] at hplaced
      rw [hneeded] at hpl hplaced hneed hc
      by_cases hmore : (steps start.toNat stop.toNat 16).length < L.needed
      · -- the block is full of nodes
        have hnz : t.nodesNeeded ≠ 0#64 := by
          intro hz
          rw [hz,show (0#64).toNat = 0 from rfl] at hneed
          omega
        rw [if_pos hnz,if_pos hmore]
        rw [List.take_of_length_le hmore.le] at hpl hplaced
        refine .inr ⟨t,rfl,hplaced,hneed,hhigh.trans h.high,fun _ => ⟨hpl,rfl⟩,fun hz => ?_⟩
        dsimp only at hz
        omega
      · -- the rest of the block is listed
        have hz : t.nodesNeeded = 0#64 := BitVec.eq_of_toNat_eq (by rw [hneed]; simp; omega)
        obtain ⟨hcval,hcstop⟩ := hc hz
        have hnil : L.nodes ++ (steps start.toNat stop.toNat 16).take L.needed ≠ [] := by
          intro hnil
          have hlength := congrArg List.length hnil
          simp only [List.length_append,List.length_take,List.length_nil] at hlength
          omega
        rw [hneeded] at hs
        have hclosed : Refines (PmmInit.closeList t)
            ⟨L.nodes ++ (steps start.toNat stop.toNat 16).take L.needed,[],0⟩ :=
          ⟨(congrArg _ (placed_closeList t)).trans hplaced,by rw [nodesNeeded_closeList,hz]; rfl,
            (pmmHigh_closeList t).trans (hhigh.trans h.high),fun hne => absurd rfl hne,
            fun _ => hpl.closeList hs hnil⟩
        rw [if_neg (not_not.mpr hz),if_pos hcstop,if_neg hmore]
        have hclt := BitVec.lt_def.mp hcstop
        have hcbound : c.toNat + 4096 ≤ 2 ^ 64 := by omega
        obtain ⟨hfuel,hspin⟩ | ⟨u,hdone,hu⟩ := hclosed.listBlock rfl hs hcbound hstop fuel
        · exact .inl ⟨by omega,hspin⟩
        · refine .inr ⟨u,hdone,?_⟩
          rw [hcval] at hu
          exact hu

/-- The calls for a list of blocks add them all. -/
theorem Refines.addBlocks {bs : List (U64 × U64)} (h : Refines s L)
    (hs : Spaced (L.addAll (spans bs)).nodes)
    (hbs : ∀ b ∈ bs, b.1.toNat + 4096 ≤ 2 ^ 64 ∧ b.2.toNat + 4096 ≤ 2 ^ 64) (fuel : ℕ) :
    (fuel < 2 ^ 61 ∧ PmmInit.addBlocks fuel bs s = .spin) ∨
      ∃ t, PmmInit.addBlocks fuel bs s = .done () t ∧
        Refines t (L.addAll (spans bs)) := by
  induction bs generalizing s L with
  | nil => exact .inr ⟨s,rfl,h⟩
  | cons b bs ih =>
    obtain ⟨hstart,hstop⟩ := hbs b List.mem_cons_self
    have hfirst : Spaced (L.add (b.1.toNat,b.2.toNat)).nodes :=
      hs.of_prefix (Layout.nodes_prefix_addAll _ _)
    rw [PmmInit.addBlocks]
    obtain ⟨hfuel,hspin⟩ | ⟨t,hdone,ht⟩ := h.pmmAddBlock hfirst hstart hstop fuel
    · exact .inl ⟨hfuel,by rw [hspin,Outcome.bind_spin]⟩
    · rw [hdone,Outcome.bind_done]
      exact ih ht hs fun c hc => hbs c (List.mem_cons_of_mem _ hc)

end Blocks

section Final
variable {s t : PmmInit} {ps fs ls hs : List ℕ}

/-- The list is cut in two behind a node. -/
theorem cutHigh_lists {pre rest : List ℕ} {c d : ℕ} (hs : Spaced (pre ++ c :: d :: rest))
    (hlinked : Linked 0#64 s.next s.pmmLow ((pre ++ c :: d :: rest).map pointer)) :
    Linked 0#64 (cutHigh (pointer c) s).next (cutHigh (pointer c) s).pmmLow
        ((pre ++ [c]).map pointer) ∧
      Linked 0#64 (cutHigh (pointer c) s).next (cutHigh (pointer c) s).pmmHigh
        ((d :: rest).map pointer) ∧
      ∀ p ∈ pre ++ c :: d :: rest,
        (cutHigh (pointer c) s).addr (pointer p) = s.addr (pointer p) := by
  have hc : c ∈ pre ++ c :: d :: rest := by simp
  have hbytes := bytes_cutHigh s (pointer c)
  have hnd := hs.nodup
  have hpre : ∀ q ∈ pre, c ≠ q := fun q hq =>
    ((List.nodup_append.mp hnd).2.2 q hq c (by simp)).symm
  have hrest : ∀ q ∈ d :: rest, c ≠ q := by
    rintro q hq rfl
    exact (List.nodup_cons.mp (List.nodup_append.mp hnd).2.1).1 hq
  rw [List.map_append] at hlinked
  have hnext : s.next (pointer c) = pointer d := (linked_cons.mp hlinked.rest).1
  refine ⟨?_,?_,fun q hq => ?_⟩
  · rw [next_congr hbytes,pmmLow_cutHigh,List.map_append]
    refine hlinked.cut (fun x hx => ?_) (next_setNext_self _)
    obtain ⟨q,hq,rfl⟩ := List.mem_map.mp hx
    exact (hs.beside hc (by simp [hq]) (hpre q hq)).next_setNext _
  · rw [next_congr hbytes,pmmHigh_cutHigh]
    refine hlinked.rest.congr fun x hx => ?_
    obtain ⟨q,hq,rfl⟩ := List.mem_map.mp hx
    exact (hs.beside hc (List.mem_append_right _ (List.mem_cons_of_mem _ hq))
      (hrest q hq)).next_setNext _
  · rw [addr_congr hbytes]
    by_cases hcq : c = q
    · rw [hcq,addr_setNext_self (hs.pointer_bound hq)]
    · exact (hs.beside hc hq hcq).addr_setNext _

/-- The loop of `pmm_init_final` cuts the list before the first node above 2 GiB that is not
the first of the list. -/
theorem splitHigh_eq {pre rest : List ℕ} {c : ℕ} (hs : Spaced (pre ++ c :: rest))
    (hlinked : Linked 0#64 s.next s.pmmLow ((pre ++ c :: rest).map pointer))
    (hhigh : s.pmmHigh = 0#64) (fuel : ℕ) :
    (fuel ≤ rest.length ∧ splitHigh fuel (pointer c) s = .spin) ∨
      ∃ t mid hs, splitHigh fuel (pointer c) s = .done () t ∧ rest = mid ++ hs ∧
        Linked 0#64 t.next t.pmmLow ((pre ++ c :: mid).map pointer) ∧
        Linked 0#64 t.next t.pmmHigh (hs.map pointer) ∧
        (∀ p ∈ pre ++ c :: rest, t.addr (pointer p) = s.addr (pointer p)) ∧
        (∀ p ∈ mid, s.addr (pointer p) < twoGB) ∧
        (∀ p ∈ hs.head?, twoGB ≤ s.addr (pointer p)) ∧ t.placed = s.placed := by
  induction rest generalizing pre c fuel with
  | nil =>
    have hnext : s.next (pointer c) = 0#64 := by
      rw [List.map_append] at hlinked
      exact linked_nil.mp hlinked.rest
    cases fuel with
    | zero => exact .inl ⟨le_rfl,rfl⟩
    | succ fuel =>
      rw [splitHigh,if_neg (pointer_ne_zero (hs.mapped c (by simp))),if_pos hnext]
      exact .inr ⟨s,[],[],rfl,rfl,hlinked,linked_nil.mpr hhigh,fun _ _ => rfl,by simp,by simp,rfl⟩
  | cons d rest ih =>
    have hc : c ∈ pre ++ c :: d :: rest := by simp
    have hd : d ∈ pre ++ c :: d :: rest := by simp
    have hnext : s.next (pointer c) = pointer d := by
      rw [List.map_append] at hlinked
      exact (linked_cons.mp hlinked.rest).1
    cases fuel with
    | zero => exact .inl ⟨Nat.zero_le _,rfl⟩
    | succ fuel =>
      rw [splitHigh,if_neg (pointer_ne_zero (hs.mapped c hc)),hnext,
        if_neg (pointer_ne_zero (hs.mapped d hd))]
      by_cases hband : twoGB ≤ s.addr (pointer d)
      · rw [if_pos hband]
        obtain ⟨hlow,hhi,haddr⟩ := cutHigh_lists hs hlinked
        refine .inr ⟨_,[],d :: rest,rfl,rfl,hlow,hhi,haddr,by simp,?_,placed_cutHigh ..⟩
        intro p hp
        obtain rfl : d = p := by simpa using hp
        exact hband
      · rw [if_neg hband]
        have hsplit : pre ++ c :: d :: rest = pre ++ [c] ++ d :: rest := by simp
        rw [hsplit] at hs hlinked
        obtain ⟨hfuel,hspin⟩ | ⟨t,mid,hs',hdone,hrest,hlow,hhi,haddr,hmid,hhead,hplaced⟩ :=
          ih hs hlinked fuel
        · refine .inl ⟨?_,hspin⟩
          rw [List.length_cons]
          omega
        · refine .inr ⟨t,d :: mid,hs',hdone,by rw [hrest]; rfl,?_,hhi,?_,fun p hp => ?_,hhead,
            hplaced⟩
          · rw [show pre ++ c :: d :: mid = pre ++ [c] ++ d :: mid by simp]
            exact hlow
          · rw [hsplit]
            exact haddr
          · rcases List.mem_cons.mp hp with rfl | hp
            · exact BitVec.not_le.mp hband
            · exact hmid p hp

/-- The lists after `pmm_init_final`. -/
structure Built (t : PmmInit) (ps fs ls hs : List ℕ) : Prop where
  nodes : ps = ls ++ hs
  first : ls = [] → ps = []
  low : t.pmm.Low (ls.map pointer)
  high : t.pmm.High (hs.map pointer)
  addr : ∀ (k : ℕ) (p : ℕ), ps[k]? = some p → (t.addr (pointer p)).toNat = (fs[k]?).getD 0
  lowTail : ∀ p ∈ ls.tail, t.addr (pointer p) < twoGB
  highHead : ∀ p ∈ hs.head?, twoGB ≤ t.addr (pointer p)
  placed : t.placed.map BitVec.toNat = ps

theorem Filling.pmmInitFinal (h : Filling s ps fs) (hs : Spaced ps) (hhigh : s.pmmHigh = 0#64)
    (hplaced : s.placed.map BitVec.toNat = ps) (fuel : ℕ) :
    (fuel ≤ ps.length ∧ PmmInit.pmmInitFinal fuel s = .spin) ∨
      ∃ t ls hs, PmmInit.pmmInitFinal fuel s = .done () t ∧ Built t ps fs ls hs := by
  rw [PmmInit.pmmInitFinal]
  cases ps with
  | nil =>
    have hlow : s.pmmLow = 0#64 := linked_nil.mp h.linked
    cases fuel with
    | zero => exact .inl ⟨Nat.zero_le _,rfl⟩
    | succ fuel =>
      rw [splitHigh,if_pos hlow]
      exact .inr ⟨s,[],[],rfl,rfl,fun _ => rfl,h.linked,linked_nil.mpr hhigh,h.addr,by simp,
        by simp,hplaced⟩
  | cons p ps =>
    have hlow : s.pmmLow = pointer p := (linked_cons.mp h.linked).1
    rw [hlow]
    obtain ⟨hfuel,hspin⟩ | ⟨t,mid,hs',hdone,hrest,hl,hhi,haddr,hmid,hhead,hpl⟩ :=
      @splitHigh_eq s [] ps p hs h.linked hhigh fuel
    · refine .inl ⟨?_,hspin⟩
      rw [List.length_cons]
      omega
    · refine .inr ⟨t,p :: mid,hs',hdone,by rw [hrest]; rfl,fun hnil => absurd hnil (by simp),hl,hhi,
        fun k q hq => ?_,fun q hq => ?_,fun q hq => ?_,by rw [hpl,hplaced]⟩
      · rw [haddr q (List.mem_of_getElem? hq),h.addr k q hq]
      · have hmem : q ∈ mid := hq
        rw [haddr q (by rw [hrest]; simp [hmem])]
        exact hmid q hmem
      · have hmem : q ∈ hs' := List.mem_of_mem_head? hq
        rw [haddr q (by rw [hrest]; simp [hmem])]
        exact hhead q hq

/-- The layout of the blocks for a value of `pmm_set_total`. -/
def layout (total : U64) (bs : List (U64 × U64)) : Layout := (planned total).addAll (spans bs)

/-- The whole initialisation builds the layout. -/
theorem initialise_eq {bytes : U64 → U8} {total : U64} {bs : List (U64 × U64)}
    (hneeded : (layout total bs).needed = 0) (hs : Spaced (layout total bs).nodes)
    (hbs : ∀ b ∈ bs, b.1.toNat + 4096 ≤ 2 ^ 64 ∧ b.2.toNat + 4096 ≤ 2 ^ 64) (fuel : ℕ) :
    (fuel < 2 ^ 61 + (layout total bs).nodes.length ∧
        initialise fuel total bs (fresh bytes) = .spin) ∨
      ∃ t ls hs, initialise fuel total bs (fresh bytes) = .done () t ∧
        Built t (layout total bs).nodes (layout total bs).frames ls hs := by
  rw [initialise]
  obtain ⟨hfuel,hspin⟩ | ⟨u,hdone,hu⟩ := (refines_fresh bytes total).addBlocks hs hbs fuel
  · exact .inl ⟨by omega,by rw [hspin,Outcome.bind_spin]⟩
  · rw [hdone,Outcome.bind_done]
    obtain ⟨hfuel,hspin⟩ | hbuilt := (hu.filling hneeded).pmmInitFinal hs hu.high hu.placed fuel
    · refine .inl ⟨?_,hspin⟩
      change fuel ≤ (layout total bs).nodes.length at hfuel
      omega
    · exact .inr hbuilt

end Final

end PmmInit

end Lios

import Lios.Mem.VmallocOutcome
import Lios.Mem.VmallocRuns

/-! # What a call of `vmalloc` reserves

Three things one would expect of every call: that it takes the sections it needs and adds at
most the node it takes them from, that it returns, and that the block is large enough. Each of
them holds exactly under a condition on the heap and the size.
-/
namespace Lios
namespace Vmalloc
variable {E : Type} {calls : VmmCalls E} {sup : NodeSupply calls} {s t : Vmalloc E}
  {l : List U64} {n p : U64}

/-- Every node but the first has a section in use. -/
def Occupied (s : Vmalloc E) (l : List U64) : Prop :=
  ∀ m ∈ l.tail, ∃ j < (s.node m).bitmapSize.toNat, bitAt (s.node m).mem j = true

/-- The call for `n` bytes took the block `b`, of exactly the sections for `n` bytes and a
header, and added no node or the node of the block. -/
structure Reserves (s : Vmalloc E) (l : List U64) (n p : U64) (t : Vmalloc E) (b : HeapBlock)
    (l' : List U64) : Prop where
  linked : Linked 0#64 t.next t.heapHead l'
  appended : l' = l ∨ l' = l ++ [b.node]
  node : b.node ∈ l'
  pointer : p = t.pointer b
  size : b.range.size = sectionsFor n.toNat
  header : (t.getBlockSize p).toNat = sectionsFor n.toNat
  unused : b.node ∈ l → ∀ j, b.range.Has j → bitAt (s.node b.node).mem j = false
  marks : ∀ m ∈ l', ∀ j < (t.node m).bitmapSize.toNat,
    (bitAt (t.node m).mem j = true ↔
      (m ∈ l ∧ bitAt (s.node m).mem j = true) ∨ (m = b.node ∧ b.range.Has j))
  occupied : Occupied s l → Occupied t l'

theorem Reserved.bitAt_iff {m start needed k : U64} {j : ℕ} (h : Reserved s m start needed t) :
    bitAt (t.node k).mem j = true ↔ bitAt (s.node k).mem j = true ∨
      (k = m ∧ (⟨start.toNat,needed.toNat⟩ : Block).Has j) := by
  by_cases hk : k = m
  · rw [hk,h.mem,marked]
    simp only [Block.Has,true_and]
    by_cases hin : start.toNat ≤ j ∧ j < start.toNat + needed.toNat
    · simp [hin]
    · simp [hin]
  · rw [h.others k hk]
    simp [hk]

/-- A call that finds a row takes exactly the sections it needs. -/
theorem Reserved.reserves {m start : U64} (h : HeapList s l) (hn : n.toNat + 8 < 2 ^ 64)
    (hfound : s.Found (ceilU64Div (n + 8#64) 8#64) l (some (m,start)))
    (ht : Reserved s m start (ceilU64Div (n + 8#64) 8#64) t) :
    Reserves s l n (t.dataStart m + start * 8#64 + 8#64) t
      ⟨m,⟨start.toNat,sectionsFor n.toNat⟩⟩ l := by
  have hneeded := toNat_sectionsNeeded hn
  refine ⟨(ht.heapList h).linked,.inl rfl,hfound.mem,?_,rfl,by rw [ht.getBlockSize,hneeded],
    fun _ j hj => ?_,fun k hk j _ => ?_,fun hocc k hk => ?_⟩
  · rw [pointer,BitVec.ofNat_toNat,BitVec.setWidth_eq]
  · refine hfound.fits.2 j hj.1 ?_
    rw [hneeded]
    exact hj.2
  · rw [ht.bitAt_iff,hneeded]
    simp [hk]
  · obtain ⟨j,hj,hbit⟩ := hocc k hk
    exact ⟨j,by rw [ht.same.bits]; exact hj,ht.bitAt_iff.mpr (.inl hbit)⟩

section Bump

/-- An allocator that hands out the range of the kernel from its beginning on. -/
def bumpCalls : VmmCalls U64 where
  vmmAlloc pages e :=
    if e.toNat + pages.toNat * 4096 ≤ 0xFFFFFFFF80000000 then .done e (e + pages * 4096#64)
    else .panic "vmm: out of memory!" e
  vmmFree _ e := .done () e

def bumpNodes : NodeSupply bumpCalls where
  Held e l := 0xFFFFF00000000000 ≤ e.toNat ∧ ∀ n ∈ l, n.toNat < e.toNat
  vmmAlloc := by
    rintro e l pages a e' ⟨hlo,hl⟩ hpos hdone
    simp only [bumpCalls] at hdone
    split at hdone
    · rename_i hhi
      obtain ⟨rfl,rfl⟩ := Outcome.done.inj hdone
      have hend : (e + pages * 4096#64).toNat = e.toNat + pages.toNat * 4096 := by
        rw [BitVec.toNat_add,BitVec.toNat_mul,show (4096#64).toNat = 4096 from rfl]
        omega
      refine ⟨fun h0 => ?_,fun hmem => absurd (hl e hmem) (lt_irrefl _),by omega,by omega,
        fun n hn => ?_⟩
      · rw [h0] at hlo
        exact absurd hlo (by decide)
      · rw [hend]
        rcases List.mem_append.mp hn with hn | hn
        · have := hl n hn
          omega
        · obtain rfl := List.mem_singleton.mp hn
          omega
    · cases hdone

def bumpStart : Vmalloc U64 :=
  ⟨fun _ => ⟨0#64,0#64,0#64,fun _ => 0#8⟩,fun _ => 0#8,0#64,0#64,0xFFFFF00000000000#64⟩

def bumpReady : Vmalloc U64 := (vmallocInit bumpCalls bumpStart).stateD bumpStart

def bumpNode : U64 := 0xFFFFF00000000000#64

/-- After `vmalloc_init` the heap has one node, which is free. -/
theorem bumpReady_fresh (needed : U64) : Fresh bumpReady [] bumpNode needed 1 ∧
    bumpNodes.Held bumpReady.env [bumpNode] := by
  have hempty : HeapList bumpStart [] := ⟨linked_nil.mpr rfl,rfl,by simp⟩
  obtain ⟨t,hadd,hgrown⟩ := @HeapList.addBlock _ bumpCalls _ _ 504#64 bumpNode
    0xFFFFF00000001000#64 hempty (by decide) (by decide +kernel) (by decide) (by simp)
  have hready : bumpReady = t := by
    rw [bumpReady,vmallocInit,hadd]
    rfl
  rw [hready]
  refine ⟨hgrown.toFresh rfl (by simp [Found]),?_,fun n hn => ?_⟩
  · rw [hgrown.env]
    decide
  · obtain rfl := List.mem_singleton.mp hn
    rw [hgrown.env]
    decide

theorem bumpReady_heapList : HeapList bumpReady [bumpNode] := (bumpReady_fresh 0#64).1.list

theorem bumpReady_held : bumpNodes.Held bumpReady.env [bumpNode] := (bumpReady_fresh 0#64).2

/-- What a search in this heap finds. -/
theorem bumpReady_found {needed : U64} {r : Option (U64 × U64)}
    (hr : bumpReady.Found needed [bumpNode] r) :
    (needed.toNat ≤ 504 ∧ r = some (bumpNode,0#64)) ∨ (504 < needed.toNat ∧ r = none) := by
  obtain ⟨hfresh,-⟩ := bumpReady_fresh needed
  exact hfresh.found hr le_rfl

theorem bumpReady_exists {needed : U64} (hpos : 0 < needed.toNat) :
    ∃ r, bumpReady.Found needed [bumpNode] r := by
  have hlist := bumpReady_heapList
  obtain ⟨hshort,-⟩ | ⟨r,-,hr⟩ := @search_eq _ _ _ needed (2 ^ 64 + 2) (2 ^ 64 + 2) _ hlist.linked
    hlist.large hpos
  · exact absurd hshort (HeapList.not_short (by simp))
  · exact ⟨r,hr⟩

end Bump

/-- A call reserves exactly what it needs if and only if it finds a row, and the index of its
end fits: with a new node the call takes more sections. -/
theorem vmalloc_reserves_iff (h : HeapList s l) (hheld : sup.Held s.env l)
    (hn : n.toNat + 24 < 2 ^ 64) :
    (∃ fuel p t b l', vmalloc calls fuel n s = .done p t ∧ Reserves s l n p t b l') ↔
    ∃ m start, s.Found (ceilU64Div (n + 8#64) 8#64) l (some (m,start)) ∧
      Markable start.toNat (sectionsFor n.toNat) := by
  constructor
  · rintro ⟨fuel,p,t,b,l',hdone,hres⟩
    obtain ⟨m,start,hfound,hmark,-⟩ | ⟨-,-,hsize,-⟩ := h.vmalloc_done hheld hn hdone
    · exact ⟨m,start,hfound,hmark⟩
    · -- the header says more sections than were needed
      have hmore := sectionsFor_le_retryFor n.toNat
      have hheader := hres.header
      rw [hsize] at hheader
      rw [hheader,sectionsFor,sectionsFor] at hmore
      omega
  · rintro ⟨m,start,hfound,hmark⟩
    have hplace : Placeable s l n := by
      refine ⟨fun m' start' hfound' => ?_,fun hnone => ?_⟩
      · obtain ⟨rfl,rfl⟩ := Prod.mk.inj (Option.some.inj (hfound'.unique hfound))
        exact hmark
      · cases hnone.unique hfound
    obtain ⟨p,t,hdone⟩ | ⟨hnone,-⟩ := h.vmalloc_total hheld (by omega)
      (fun hnone => by cases hnone.unique hfound) hplace le_rfl
    · obtain ⟨m',start',hfound',-,rfl,ht⟩ | ⟨hnone,-⟩ := h.vmalloc_done hheld hn hdone
      · exact ⟨_,_,t,_,l,hdone,ht.reserves h (by omega) hfound'⟩
      · cases hnone.unique hfound
    · cases hnone.unique hfound

theorem bumpReady_reserves : ∃ fuel p t b l', vmalloc bumpCalls fuel 100#64 bumpReady = .done p t ∧
    Reserves bumpReady [bumpNode] 100#64 p t b l' := by
  refine (vmalloc_reserves_iff bumpReady_heapList bumpReady_held (by decide)).mpr
    ⟨bumpNode,0#64,?_,.inr (by decide)⟩
  obtain ⟨r,hr⟩ := @bumpReady_exists (ceilU64Div (100#64 + 8#64) 8#64) (by decide)
  obtain ⟨-,rfl⟩ | ⟨hlarge,-⟩ := bumpReady_found hr
  · exact hr
  · exact absurd hlarge (by decide)

/-- The heap after a call for one byte, which takes the first two sections. -/
def bumpOne : Vmalloc U64 := (vmalloc bumpCalls 600 1#64 bumpReady).stateD bumpStart

theorem bumpOne_heapList : HeapList bumpOne [bumpNode] := by
  refine ⟨by decide +kernel,by decide +kernel,fun n hn => ?_⟩
  obtain rfl := List.mem_singleton.mp hn
  decide +kernel

/-- The 504 sections for 4024 bytes are not free any more: two nodes are added, the first of them
stays empty, and 506 sections of the second are taken. -/
theorem bumpOne_not_reserves : HeapList bumpOne [bumpNode] ∧
    bumpNodes.Held bumpOne.env [bumpNode] ∧ Grants bumpCalls (requests 4024) bumpOne.env ∧
    ¬ ∃ fuel p t b l', vmalloc bumpCalls fuel 4024#64 bumpOne = .done p t ∧
      Reserves bumpOne [bumpNode] 4024#64 p t b l' := by
  have hheld : bumpNodes.Held bumpOne.env [bumpNode] := by
    refine ⟨by decide +kernel,fun n hn => ?_⟩
    obtain rfl := List.mem_singleton.mp hn
    decide +kernel
  have hgrants : Grants bumpCalls (requests 4024) bumpOne.env := by
    refine ⟨0xFFFFF00000001000#64,0xFFFFF00000002000#64,by decide +kernel,
      0xFFFFF00000002000#64,0xFFFFF00000004000#64,by decide +kernel,trivial⟩
  have hbit : bitAt (bumpOne.node bumpNode).mem 0 = true := by decide +kernel
  have hsize : (bumpOne.node bumpNode).bitmapSize.toNat = 504 := by decide +kernel
  refine ⟨bumpOne_heapList,hheld,hgrants,?_⟩
  rintro ⟨fuel,p,t,b,l',hdone,hres⟩
  obtain ⟨m,start,hfound,-⟩ | ⟨-,-,hmore,-⟩ :=
    bumpOne_heapList.vmalloc_done hheld (by decide) hdone
  · obtain rfl := List.mem_singleton.mp hfound.mem
    obtain ⟨hend,hfree⟩ := hfound.fits
    have hneeded : (ceilU64Div (4024#64 + 8#64) 8#64).toNat = 504 := by decide
    rw [hsize,hneeded] at hend
    rw [hfree 0 (by omega) (by omega)] at hbit
    cases hbit
  · have hheader := hres.header
    rw [hmore] at hheader
    exact absurd hheader (by decide)

/-- If the allocator has the pages, a call returns after adding at most two nodes if and only if
the index of the last section it takes fits. -/
theorem vmalloc_returns_iff (h : HeapList s l) (hheld : sup.Held s.env l)
    (hn : n.toNat + 64 < 2 ^ 64) (hgrants : s.Found (ceilU64Div (n + 8#64) 8#64) l none →
      Grants calls (requests n.toNat) s.env) :
    (∃ N, ∀ fuel ≥ N, ∃ p t new, vmalloc calls fuel n s = .done p t ∧ HeapList t (l ++ new) ∧
      new.length ≤ 2) ↔ Placeable s l n := by
  constructor
  · rintro ⟨N,hN⟩
    obtain ⟨p,t,-,hdone,-⟩ := hN N le_rfl
    obtain ⟨m,start,hfound,hmark,-⟩ | ⟨hnone,hsmall,-⟩ :=
      h.vmalloc_done hheld (by omega) hdone
    · refine ⟨fun m' start' hfound' => ?_,fun hnone => ?_⟩
      · obtain ⟨rfl,rfl⟩ := Prod.mk.inj (Option.some.inj (hfound'.unique hfound))
        exact hmark
      · cases hnone.unique hfound
    · refine ⟨fun m' start' hfound' => ?_,fun _ => hsmall⟩
      cases hnone.unique hfound'
  · intro hp
    refine ⟨l.length + 2 ^ 64 + 6,fun fuel hfuel => ?_⟩
    obtain ⟨p,t,hdone⟩ | ⟨hnone,hno,-⟩ :=
      h.vmalloc_total hheld (by omega) (fun hnone => (hgrants hnone).serves) hp hfuel
    · obtain ⟨m,start,hfound,-,rfl,ht⟩ | ⟨-,-,-,new,hlist,hlen⟩ :=
        h.vmalloc_done hheld (by omega) hdone
      · exact ⟨_,t,[],hdone,by rw [List.append_nil]; exact ht.heapList h,by simp⟩
      · exact ⟨p,t,new,hdone,hlist,hlen⟩
    · exact absurd (hgrants hnone) hno

theorem bumpReady_returns : ∃ N, ∀ fuel ≥ N, ∃ p t new,
    vmalloc bumpCalls fuel 100#64 bumpReady = .done p t ∧ HeapList t ([bumpNode] ++ new) ∧
      new.length ≤ 2 := by
  refine (vmalloc_returns_iff bumpReady_heapList bumpReady_held (by decide) (fun hnone => ?_)).mpr
    ⟨fun m start hfound => ?_,fun _ => by decide⟩
  · obtain ⟨-,hr⟩ | ⟨hlarge,-⟩ := bumpReady_found hnone
    · cases hr
    · exact absurd hlarge (by decide)
  · obtain ⟨-,hr⟩ | ⟨-,hr⟩ := bumpReady_found hfound
    · obtain ⟨-,rfl⟩ := Prod.mk.inj (Option.some.inj hr)
      exact .inr (by decide)
    · cases hr

/-- A call for `2 ^ 38` bytes marks its new node for ever. -/
theorem bumpReady_not_returns : HeapList bumpReady [bumpNode] ∧
    bumpNodes.Held bumpReady.env [bumpNode] ∧
    Grants bumpCalls (requests (2 ^ 38)) bumpReady.env ∧
    ¬ ∃ N, ∀ fuel ≥ N, ∃ p t new, vmalloc bumpCalls fuel (BitVec.ofNat 64 (2 ^ 38)) bumpReady =
      .done p t ∧ HeapList t ([bumpNode] ++ new) ∧ new.length ≤ 2 := by
  refine ⟨bumpReady_heapList,bumpReady_held,
    ⟨0xFFFFF00000001000#64,0xFFFFF04100002000#64,by decide +kernel,trivial⟩,?_⟩
  rintro ⟨N,hN⟩
  obtain ⟨p,t,-,hdone,-⟩ := hN N le_rfl
  obtain ⟨m,start,hfound,-⟩ | ⟨-,hsmall,-⟩ :=
    bumpReady_heapList.vmalloc_done bumpReady_held (by decide) hdone
  · obtain ⟨hfits,-⟩ | ⟨-,hr⟩ := bumpReady_found hfound
    · exact absurd hfits (by decide)
    · cases hr
  · exact absurd hsmall (by decide)

section Sizes

end Sizes

end Vmalloc

end Lios

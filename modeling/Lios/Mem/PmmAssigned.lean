import Lios.Mem.PmmPlacement

/-! # Nodes without a frame

A node that gets no frame keeps the address zero, and an allocation hands it out like
any other. Whether there is such a node depends on the numbers of nodes and frames only.
Later calls never change the address of a node, so zero is handed out only if it is on
the lists at the start.
-/
namespace Lios
namespace Pmm

/-- The lists lead only through nodes of `S`, and none of these has the address zero. -/
structure Rooted (S : Set U64) (s : Pmm) : Prop where
  low : s.pmmLow = 0 ∨ s.pmmLow ∈ S
  high : s.pmmHigh = 0 ∨ s.pmmHigh ∈ S
  freeList : s.pmmFreeList = 0 ∨ s.pmmFreeList ∈ S
  next : ∀ p ∈ S, s.next p = 0 ∨ s.next p ∈ S
  addr : ∀ p ∈ S, s.addr p ≠ 0

section Rooted
variable {S : Set U64} {s t : Pmm} {a : PhysicalAddress} {p q : U64}

theorem Rooted.next_setNext (h : Rooted S s) (hq : q = 0 ∨ q ∈ S) :
    ∀ r ∈ S, (s.setNext p q).next r = 0 ∨ (s.setNext p q).next r ∈ S := by
  intro r hr
  by_cases hrp : r = p
  · rw [hrp,next_setNext_self]
    exact hq
  · rw [next_setNext_of_ne s q hrp]
    exact h.next r hr

theorem Rooted.mem_of_segment {l : List U64} (h : Rooted S s) (hp : p = 0 ∨ p ∈ S)
    (hs : Segment s.next p l q) (hl : ∀ x ∈ l, x ≠ 0) (hq : q ≠ 0) : q ∈ S := by
  induction l generalizing p with
  | nil =>
    obtain rfl : p = q := hs
    exact hp.resolve_left hq
  | cons x l ih =>
    obtain ⟨rfl,hs⟩ := hs
    have hmem := hp.resolve_left (hl p List.mem_cons_self)
    exact ih (h.next p hmem) hs fun y hy => hl y (List.mem_cons_of_mem _ hy)

theorem Rooted.addr_setNext (h : Rooted S s) (cur q : U64) :
    ∀ p ∈ S, (s.setNext cur q).addr p ≠ 0 := by
  rw [Pmm.addr_setNext]
  exact h.addr

theorem Rooted.pmmAllocLow (h : Rooted S s) (he : Pmm.pmmAllocLow s = .done a t) :
    a ≠ 0 ∧ Rooted S t := by
  obtain ⟨hne,rfl,rfl⟩ := pmmAllocLow_eq_done.mp he
  have hmem := h.low.resolve_left hne
  exact ⟨h.addr _ hmem,h.next _ hmem,h.high,.inr hmem,h.next_setNext h.freeList,
    h.addr_setNext _ _⟩

theorem Rooted.takeHigh (h : Rooted S s) (hne : s.pmmHigh ≠ 0)
    (he : Pmm.takeHigh s = .done a t) : a ≠ 0 ∧ Rooted S t := by
  cases he
  have hmem := h.high.resolve_left hne
  exact ⟨h.addr _ hmem,h.low,h.next _ hmem,.inr hmem,h.next_setNext h.freeList,
    h.addr_setNext _ _⟩

theorem Rooted.pmmFree {fuel : ℕ} (h : Rooted S s) (he : Pmm.pmmFree fuel a s = .done () t) :
    Rooted S t := by
  obtain ⟨cur,hfind,hne,-,rfl⟩ := pmmFree_eq_done.mp he
  obtain ⟨l,-,hs,hl,-⟩ := walk_eq_some.mp hfind
  have hmem := h.mem_of_segment h.freeList hs (fun x hx => (hl x hx).1) hne
  split
  · exact ⟨h.low,.inr hmem,h.freeList,h.next_setNext h.high,h.addr_setNext _ _⟩
  · exact ⟨.inr hmem,h.high,h.freeList,h.next_setNext h.low,h.addr_setNext _ _⟩

end Rooted

section Calls
variable {σ : Type} {L : Lens σ Pmm} {pageUnmap : U64 → σ → Outcome σ Unit} {S : Set U64}

/-- Unmapping an address changes the manager only by calls of `pmm_free`. -/
def FreesOnly (L : Lens σ Pmm) (pageUnmap : U64 → σ → Outcome σ Unit) : Prop :=
  ∀ a s t, pageUnmap a s = .done () t →
    Relation.ReflTransGen (fun x y => ∃ fuel mem, pmmFree fuel mem x = .done () y) (L.get s)
      (L.get t)

theorem Rooted.frees {s t : Pmm} (h : Rooted S s)
    (hr : Relation.ReflTransGen (fun x y => ∃ fuel mem, Pmm.pmmFree fuel mem x = .done () y) s t) :
    Rooted S t := by
  induction hr with
  | refl => exact h
  | tail _ hstep ih =>
    obtain ⟨fuel,mem,hfree⟩ := hstep
    exact ih.pmmFree hfree

theorem Rooted.call (hu : FreesOnly L pageUnmap) {x y : σ × List PhysicalAddress}
    (h : Rooted S (L.get x.1) ∧ (0 : PhysicalAddress) ∉ x.2) (hc : Call L pageUnmap x y) :
    Rooted S (L.get y.1) ∧ (0 : PhysicalAddress) ∉ y.2 := by
  obtain ⟨hroot,hout⟩ := h
  have hcons {a : PhysicalAddress} {out : List PhysicalAddress} (ha : a ≠ 0) (ho : 0 ∉ out) :
      (0 : PhysicalAddress) ∉ a :: out := fun hm => by
    rcases List.mem_cons.mp hm with hz | hm
    · exact ha hz.symm
    · exact ho hm
  cases hc with
  | allocLow he =>
    obtain ⟨p,hp,rfl⟩ := Lens.lift_eq_done.mp he
    obtain ⟨ha,hroot⟩ := hroot.pmmAllocLow hp
    exact ⟨by rw [Lens.get_set]; exact hroot,hcons ha hout⟩
  | allocHigh he =>
    unfold pmmAllocHigh at he
    split at he
    · obtain ⟨low,s₁,h₁,he⟩ := Outcome.bind_eq_done.mp he
      obtain ⟨_,s₂,h₂,⟨⟩⟩ := Outcome.bind_eq_done.mp he
      obtain ⟨p,hp,rfl⟩ := Lens.lift_eq_done.mp h₁
      obtain ⟨ha,hroot⟩ := hroot.pmmAllocLow hp
      have hunmap := hu _ _ _ h₂
      rw [Lens.get_set] at hunmap
      exact ⟨hroot.frees hunmap,hcons ha hout⟩
    · rename_i hne
      obtain ⟨p,hp,rfl⟩ := Lens.lift_eq_done.mp he
      obtain ⟨ha,hroot⟩ := hroot.takeHigh hne hp
      exact ⟨by rw [Lens.get_set]; exact hroot,hcons ha hout⟩
  | free ha he =>
    obtain ⟨p,hp,rfl⟩ := Lens.lift_eq_done.mp he
    exact ⟨by rw [Lens.get_set]; exact hroot.pmmFree hp,fun hm => hout (List.mem_of_mem_erase hm)⟩

/-- In no run of calls is zero among the addresses handed out. -/
def NeverZero (s : Pmm) : Prop :=
  ∀ (σ : Type) (L : Lens σ Pmm) (pageUnmap : U64 → σ → Outcome σ Unit) (s₀ t : σ)
    (out : List PhysicalAddress), FreesOnly L pageUnmap → L.get s₀ = s →
    Relation.ReflTransGen (Call L pageUnmap) (s₀,[]) (t,out) → (0 : PhysicalAddress) ∉ out

theorem Rooted.neverZero {s : Pmm} (h : Rooted S s) : NeverZero s := by
  intro σ L pageUnmap s₀ t out hu hs hrun
  have hinv : Rooted S (L.get (t,out).1) ∧ (0 : PhysicalAddress) ∉ (t,out).2 := by
    generalize (t,out) = st at hrun
    induction hrun with
    | refl => exact ⟨by rw [hs]; exact h,List.not_mem_nil⟩
    | tail _ hc ih => exact Rooted.call hu ih hc
  exact hinv.2

/-- Allocating as often as the low list is long hands out all its addresses. -/
theorem handsOut_low {ls : List U64} {s : Pmm} (out : List PhysicalAddress) (h : s.Low ls) :
    ∃ t out', Relation.ReflTransGen (Call (Lens.id Pmm) fun _ s => .done () s) (s,out) (t,out') ∧
      out ⊆ out' ∧ ∀ p ∈ ls, s.addr p ∈ out' := by
  induction ls generalizing s out with
  | nil => exact ⟨s,out,.refl,List.Subset.refl _,fun p hp => absurd hp List.not_mem_nil⟩
  | cons p ls ih =>
    obtain ⟨hlow,hne,hrest⟩ := linked_cons.mp h
    have hp : p ∉ ls := (List.nodup_cons.mp h.nodup).1
    obtain ⟨t,ht,htlow⟩ : ∃ t, Pmm.pmmAllocLow s = .done (s.addr p) t ∧ t.addr = s.addr ∧
        t.Low ls := by
      refine ⟨_,pmmAllocLow_eq_done.mpr ⟨by rw [hlow]; exact hne,by rw [hlow],rfl⟩,
        addr_setNext ..,?_⟩
      subst hlow
      exact hrest.of_notMem hp fun y hy => next_setNext_of_ne s _ hy
    obtain ⟨u,out',hrun,hsub,hall⟩ := ih (s.addr p :: out) htlow.2
    refine ⟨u,out',.head (.allocLow (Lens.lift_eq_done.mpr ⟨t,ht,rfl⟩)) hrun,?_,fun q hq => ?_⟩
    · exact fun a ha => hsub (List.mem_cons_of_mem _ ha)
    · rcases List.mem_cons.mp hq with rfl | hq
      · exact hsub List.mem_cons_self
      · rw [← htlow.1]
        exact hall q hq

theorem NeverZero.low {ls : List U64} {s : Pmm} (h : s.NeverZero) (hl : s.Low ls) {p : U64}
    (hp : p ∈ ls) : s.addr p ≠ 0 := by
  intro hz
  obtain ⟨t,out,hrun,-,hall⟩ := handsOut_low [] hl
  refine h Pmm (Lens.id Pmm) _ s t out (fun a s t ht => ?_) rfl hrun (hz ▸ hall p hp)
  cases ht
  exact .refl

end Calls

end Pmm

namespace Layout
variable {L : Layout} {bs : List (ℕ × ℕ)}

/-- The nodes that begin in a block. -/
def nodesIn (b : ℕ × ℕ) : ℕ := (b.2 - b.1 + 15) / 16

/-- The pages that begin from `a` on before `b`. -/
def pagesIn (a b : ℕ) : ℕ := (b - pageUp a + 4095) / 4096

/-- The pages that begin in the blocks from the last of the needed nodes on. -/
def pagesLeft : ℕ → List (ℕ × ℕ) → ℕ
  | _, [] => 0
  | needed, b :: bs =>
    if needed = 0 then pagesIn b.1 b.2 + pagesLeft 0 bs
    else if nodesIn b < needed then pagesLeft (needed - nodesIn b) bs
    else pagesIn (b.1 + 16 * (needed - 1)) b.2 + pagesLeft 0 bs

theorem length_frames_addAll :
    (L.addAll bs).frames.length = L.frames.length + pagesLeft L.needed bs := by
  induction bs generalizing L with
  | nil => rfl
  | cons b bs ih =>
    have hnodes : (steps b.1 b.2 16).length = nodesIn b := length_steps
    have hpages (a : ℕ) : (steps (pageUp a) b.2 4096).length = pagesIn a b.2 := length_steps
    change ((L.add b).addAll bs).frames.length = _
    rw [ih,pagesLeft,add,hnodes]
    split
    · rename_i hz
      dsimp only
      rw [hz,List.length_append,hpages,Nat.add_assoc]
    split
    · rfl
    · dsimp only
      rw [List.length_append,hpages,Nat.add_assoc]

theorem nodes_addAll_eq_nil : (L.addAll bs).nodes = [] ↔
    L.nodes = [] ∧ (L.needed = 0 ∨ ∀ b ∈ bs, b.2 ≤ b.1) := by
  induction bs generalizing L with
  | nil => simp [addAll]
  | cons b bs ih =>
    have hempty : steps b.1 b.2 16 = [] ↔ b.2 ≤ b.1 := by
      rw [← List.length_eq_zero_iff,length_steps]
      omega
    change ((L.add b).addAll bs).nodes = [] ↔ _
    rw [ih,nodes_add,List.append_eq_nil_iff,List.take_eq_nil_iff,hempty,List.forall_mem_cons]
    by_cases hz : L.needed = 0
    · simp [hz,add]
    · by_cases hb : b.2 ≤ b.1
      · have hnil := hempty.mpr hb
        have hlt : (steps b.1 b.2 16).length < L.needed := by
          rw [hnil]
          exact Nat.pos_of_ne_zero hz
        have hadd : L.add b = L := by
          rw [add,if_neg hz,if_pos hlt,hnil,List.append_nil]
          rfl
        simp [hadd,hz,hb]
      · simp [hz,hb]

end Layout

namespace PmmInit
variable {s t : PmmInit} {ps fs ls hs : List ℕ} {fuel : ℕ} {total : U64} {bs : List (U64 × U64)}
  {bytes : U64 → U8}

/-- Every node on the free lists has a frame. -/
def Assigned (t : PmmInit) : Prop :=
  ∀ p, (Reaches 0#64 t.next t.pmmLow p ∨ Reaches 0#64 t.next t.pmmHigh p) → t.addr p ≠ 0#64

/-- The free lists hold real frames only, and no call hands out the address zero. -/
def RealFrames (t : PmmInit) : Prop := t.Assigned ∧ t.pmm.NeverZero

theorem Built.assigned_iff (h : Built t ps fs ls hs) :
    t.Assigned ↔ ps = [] ∨ (ps.length ≤ fs.length ∧ ∀ f ∈ fs.take ps.length, f ≠ 0) := by
  have hnodes : t.Assigned ↔ ∀ k < ps.length, (fs[k]?).getD 0 ≠ 0 := by
    simp only [Assigned,h.reaches_iff,List.forall_mem_map]
    constructor
    · intro hall k hk hz
      have haddr := h.addr k _ (List.getElem?_eq_getElem hk)
      rw [hz] at haddr
      exact hall _ (List.getElem_mem hk) (BitVec.eq_of_toNat_eq haddr)
    · intro hall p hp hz
      obtain ⟨k,hk⟩ := List.mem_iff_getElem?.mp hp
      have haddr := h.addr k p hk
      rw [hz] at haddr
      exact hall k (List.getElem?_eq_some_iff.mp hk).1 haddr.symm
  rw [hnodes]
  constructor
  · intro hall
    by_cases hnil : ps = []
    · exact .inl hnil
    have hlast := hall (ps.length - 1) (by
      have := List.length_pos_iff.mpr hnil
      omega)
    refine .inr ⟨?_,fun f hf => ?_⟩
    · by_contra hlt
      rw [List.getElem?_eq_none (by omega)] at hlast
      exact hlast rfl
    · obtain ⟨k,hk⟩ := List.mem_iff_getElem?.mp hf
      rw [List.getElem?_take] at hk
      split at hk
      · rename_i hlt
        have hne := hall k hlt
        rw [hk] at hne
        exact hne
      · cases hk
  · rintro (rfl | ⟨hle,hall⟩) k hk
    · simp at hk
    · have hkf : k < fs.length := by omega
      rw [List.getElem?_eq_getElem hkf,Option.getD_some]
      refine hall _ (List.mem_iff_getElem?.mpr ⟨k,?_⟩)
      rw [List.getElem?_take_of_lt hk,List.getElem?_eq_getElem hkf]

/-- If every node has a frame, zero is never handed out. -/
theorem Built.neverZero (h : Built t ps fs ls hs) (hfree : t.pmmFreeList = 0#64)
    (ha : t.Assigned) : t.pmm.NeverZero := by
  have hlow : Linked 0#64 t.next t.pmmLow (ls.map pointer) := h.low
  have hhigh : Linked 0#64 t.next t.pmmHigh (hs.map pointer) := h.high
  have hmem (p : U64) : p ∈ ps.map pointer ↔ p ∈ ls.map pointer ∨ p ∈ hs.map pointer := by
    rw [h.nodes,List.map_append,List.mem_append]
  refine Pmm.Rooted.neverZero (S := {p | p ∈ ps.map pointer}) ⟨?_,?_,.inl hfree,fun p hp => ?_,
    fun p hp => ha p (h.reaches_iff.mpr hp)⟩
  · exact hlow.head_mem.imp_right fun hp => (hmem _).mpr (.inl hp)
  · exact hhigh.head_mem.imp_right fun hp => (hmem _).mpr (.inr hp)
  · rcases (hmem p).mp hp with hp | hp
    · exact (hlow.next_mem hp).imp_right fun hn => (hmem _).mpr (.inl hn)
    · exact (hhigh.next_mem hp).imp_right fun hn => (hmem _).mpr (.inr hn)

theorem addr_cutHigh_of_zero {p q : U64} (h : s.addr p = 0#64) : (cutHigh q s).addr p = 0#64 := by
  rw [addr_congr (bytes_cutHigh s q)]
  unfold addr setNext at *
  exact load_store_zero h

/-- If not all nodes are placed, the first one has no frame. -/
theorem Placing.not_assigned (h : Placing s ps) (hs : Spaced ps) (hne : ps ≠ [])
    (hdone : PmmInit.pmmInitFinal fuel s = .done () t) : ¬ t.Assigned := by
  obtain ⟨p,hp,hlow⟩ : ∃ p ∈ ps, s.pmmLow = pointer p := by
    obtain ⟨rfl,-⟩ | ⟨l,p,rfl,-,hseg⟩ := h.chain
    · exact absurd rfl hne
    · cases l with
      | nil => exact ⟨p,by simp,hseg⟩
      | cons q l => exact ⟨q,by simp,hseg.1⟩
  have hzero := h.addr p hp
  have hnull := pointer_ne_zero (hs.mapped p hp)
  rw [← hlow] at hzero hnull
  intro ha
  obtain rfl | ⟨q,rfl⟩ := splitHigh_cases hdone
  · exact ha _ (.inl ⟨hnull,[],rfl,List.not_mem_nil⟩) hzero
  · exact ha _ (.inl ⟨hnull,[],pmmLow_cutHigh s q,List.not_mem_nil⟩) (addr_cutHigh_of_zero hzero)

theorem not_reaches_null {next : U64 → U64} {p : U64} : ¬ Reaches 0#64 next 0#64 p := by
  rintro ⟨hp,l,hs,hl⟩
  cases l with
  | nil => exact hp hs.symm
  | cons x l => exact hl (hs.1 ▸ List.mem_cons_self)

/-- Without a node there is nothing to hand out. -/
theorem realFrames_of_null (hlow : t.pmmLow = 0#64) (hhigh : t.pmmHigh = 0#64)
    (hfree : t.pmmFreeList = 0#64) : t.RealFrames := by
  refine ⟨fun p hp => ?_,Pmm.Rooted.neverZero (S := ∅) ⟨.inl hlow,.inl hhigh,.inl hfree,?_,?_⟩⟩
  · rw [hlow,hhigh] at hp
    exact absurd hp (not_or.mpr ⟨not_reaches_null,not_reaches_null⟩)
  · exact fun p hp => absurd hp (Set.notMem_empty p)
  · exact fun p hp => absurd hp (Set.notMem_empty p)

/-- The lists hold real frames only exactly if no node is placed, or all are and as many pages
begin behind them. -/
theorem Refines.realFrames_iff (h : Refines s (layout total bs))
    (hs : Spaced (layout total bs).nodes)
    (hpos : ∀ b ∈ bs, 0 < b.1.toNat) (hfree : t.pmmFreeList = 0#64)
    (hdone : PmmInit.pmmInitFinal fuel s = .done () t) :
    t.RealFrames ↔ (layout total bs).nodes = [] ∨ ((layout total bs).needed = 0 ∧
      (layout total bs).nodes.length ≤ (layout total bs).frames.length) := by
  by_cases hzero : (layout total bs).needed = 0
  · obtain ⟨ls,hs',hb⟩ : ∃ ls hs, Built t (layout total bs).nodes (layout total bs).frames ls hs := by
      obtain ⟨-,hspin⟩ | ⟨u,ls,hs',hu,hb⟩ := (h.filling hzero).pmmInitFinal hs h.high h.placed fuel
      · rw [hspin] at hdone
        cases hdone
      · rw [hu] at hdone
        obtain ⟨-,rfl⟩ := Outcome.done.inj hdone
        exact ⟨ls,hs',hb⟩
    have hne : ∀ f ∈ (layout total bs).frames.take (layout total bs).nodes.length, f ≠ 0 := by
      intro f hf
      rcases mem_frames_addAll (List.mem_of_mem_take hf) with hf | ⟨c,hc,hlo,-⟩
      · exact absurd hf (by simp [planned])
      · obtain ⟨b,hb,rfl⟩ := List.mem_map.mp hc
        have := hpos b hb
        omega
    have hiff := hb.assigned_iff
    rw [and_iff_left hne] at hiff
    rw [RealFrames,and_iff_left_of_imp (hb.neverZero hfree),hiff]
    simp only [hzero,true_and]
  · simp only [hzero,false_and,or_false]
    obtain ⟨hplacing,-⟩ := h.placing hzero
    constructor
    · intro hreal
      by_contra hne
      exact hplacing.not_assigned hs hne hdone hreal.1
    · intro hnil
      have hlow := (hplacing.pmmLow_eq_zero_iff hs).mpr hnil
      obtain rfl : t = s := by
        cases fuel with
        | zero => cases hdone
        | succ fuel =>
          rw [PmmInit.pmmInitFinal,hlow,splitHigh,if_pos rfl] at hdone
          exact (Outcome.done.inj hdone).2.symm
      exact realFrames_of_null hlow h.high hfree

theorem realFrames_iff
    (hbs : ∀ b ∈ bs, 0 < b.1.toNat ∧ b.1.toNat + 4096 ≤ 2 ^ 64 ∧ b.2.toNat + 4096 ≤ 2 ^ 64)
    (hs : Spaced (layout total bs).nodes)
    (hdone : initialise fuel total bs (fresh bytes) = .done () t) :
    t.RealFrames ↔ (∀ b ∈ bs, b.2 ≤ b.1) ∨
      (planned total).needed ≤ Layout.pagesLeft (planned total).needed (spans bs) := by
  have hcounts := initialise_counts (fun b hb => by have := hbs b hb; omega) hdone
  obtain ⟨_,s,hadd,hfinal⟩ := Outcome.bind_eq_done.mp hdone
  have hrefines : Refines s (layout total bs) := by
    obtain ⟨-,hspin⟩ | ⟨u,hu,hr⟩ := (refines_fresh bytes total).addBlocks hs
      (fun b hb => (hbs b hb).2) fuel
    · rw [hspin] at hadd
      cases hadd
    · rw [hu] at hadd
      obtain ⟨-,rfl⟩ := Outcome.done.inj hadd
      exact hr
  rw [hrefines.realFrames_iff hs (fun b hb => (hbs b hb).1) hcounts.freeList hfinal]
  have hnil : (layout total bs).nodes = [] ↔ (planned total).needed = 0 ∨ ∀ b ∈ bs, b.2 ≤ b.1 := by
    rw [layout,Layout.nodes_addAll_eq_nil,spans,List.forall_mem_map]
    simp only [BitVec.le_def]
    exact and_iff_right rfl
  have hframes : (layout total bs).frames.length =
      Layout.pagesLeft (planned total).needed (spans bs) := by
    rw [layout,Layout.length_frames_addAll]
    exact Nat.zero_add _
  by_cases hzero : (layout total bs).needed = 0
  · rw [hnil,length_nodes_layout hzero,hframes,and_iff_right hzero]
    constructor
    · rintro ((hn | hempty) | hle)
      · exact .inr (by omega)
      · exact .inl hempty
      · exact .inr hle
    · rintro (hempty | hle)
      · exact .inl (.inr hempty)
      · exact .inr hle
  · have hsum := Layout.length_addAll (planned total) (spans bs)
    change (layout total bs).nodes.length + (layout total bs).needed = 0 + _ at hsum
    rw [(hrefines.placing hzero).2] at hframes
    have hnone : Layout.pagesLeft (planned total).needed (spans bs) = 0 := hframes.symm
    rw [hnil,hnone]
    constructor
    · rintro ((hn | hempty) | ⟨hn,-⟩)
      · omega
      · exact .inl hempty
      · exact absurd hn hzero
    · rintro (hempty | hle)
      · exact .inl (.inr hempty)
      · omega

end PmmInit

end Lios

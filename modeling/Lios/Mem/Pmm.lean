import Lios.Lib.Outcome
import Lios.Lib.LinkedList
import Lios.Util.Const

/-! # The physical memory manager

The manager keeps two lists of free frames, below and above 2 GiB, and moves the
node of an allocated frame to `pmm_free_list`, where `pmm_free` later searches it
by address. All three lists thread the same nodes through one `next` field, and
`pmm_free` relinks the node it finds without unlinking it from the list in which
it found it. The node storage is a total map from node pointers to nodes.
-/
namespace Lios

structure PhysFreeListNode where
  next : U64
  addr : U64
  deriving DecidableEq

structure Pmm where
  node : U64 → PhysFreeListNode
  pmmLow : U64
  pmmHigh : U64
  pmmFreeList : U64

namespace Pmm

/-- The successor function of the node storage. -/
def next (s : Pmm) (p : U64) : U64 := (s.node p).next

def addr (s : Pmm) (p : U64) : U64 := (s.node p).addr

/-- The assignment `p->next = n`. -/
def setNext (s : Pmm) (p n : U64) : Pmm :=
  { s with node := Function.update s.node p { s.node p with next := n } }

@[simp] theorem next_setNext_self (s : Pmm) (p n : U64) : (s.setNext p n).next p = n := by
  simp [next,setNext]
theorem next_setNext_of_ne (s : Pmm) {p q : U64} (n : U64) (h : q ≠ p) :
    (s.setNext p n).next q = s.next q := by
  simp [next,setNext,h]
@[simp] theorem addr_setNext (s : Pmm) (p n : U64) : (s.setNext p n).addr = s.addr := by
  funext q
  by_cases h : q = p
  · subst h
    simp [addr,setNext]
  · simp [addr,setNext,h]
@[simp] theorem pmmLow_setNext (s : Pmm) (p n : U64) : (s.setNext p n).pmmLow = s.pmmLow := rfl
@[simp] theorem pmmHigh_setNext (s : Pmm) (p n : U64) : (s.setNext p n).pmmHigh = s.pmmHigh := rfl
@[simp] theorem pmmFreeList_setNext (s : Pmm) (p n : U64) :
    (s.setNext p n).pmmFreeList = s.pmmFreeList := rfl

def pmmAllocLow (s : Pmm) : Outcome Pmm PhysicalAddress :=
  if s.pmmLow = 0 then .panic "pmm: out of memory!" s
  else
    let node := s.pmmLow
    .done (s.addr node)
      { s.setNext node s.pmmFreeList with pmmLow := s.next node, pmmFreeList := node }

/-- The part of `pmm_alloc_high` that takes a frame of the high list. -/
def takeHigh (s : Pmm) : Outcome Pmm PhysicalAddress :=
  let node := s.pmmHigh
  .done (s.addr node)
    { s.setNext node s.pmmFreeList with pmmHigh := s.next node, pmmFreeList := node }

/-- With no high frame left a low one is handed out, after its own address was
unmapped. Unmapping works on the page tables, so the manager is a component of a
larger state here. -/
def pmmAllocHigh {σ : Type} (L : Lens σ Pmm) (pageUnmap : U64 → σ → Outcome σ Unit) (s : σ) :
    Outcome σ PhysicalAddress :=
  if (L.get s).pmmHigh = 0 then
    (L.lift pmmAllocLow s).bind fun lowArea s =>
      (pageUnmap lowArea s).bind fun _ s => .done lowArea s
  else L.lift takeHigh s

/-- The search of `pmm_free`: the pointer at which its loop ends. -/
def findNode (fuel : ℕ) (mem : PhysicalAddress) (s : Pmm) : Option U64 :=
  walk 0 s.next (fun p => s.addr p == mem) fuel s.pmmFreeList

def pmmFree (fuel : ℕ) (mem : PhysicalAddress) (s : Pmm) : Outcome Pmm Unit :=
  match findNode fuel mem s with
  | none => .spin
  | some cur =>
    if cur = 0 then .panic "pmm: free: cannot find node!" s
    else if twoGB ≤ mem then
      .done () { s with pmmHigh := cur, node := Function.update s.node cur ⟨s.pmmHigh,mem⟩ }
    else
      .done () { s with pmmLow := cur, node := Function.update s.node cur ⟨s.pmmLow,mem⟩ }

/-- The nodes of the low free list, in order. -/
def Low (s : Pmm) (ls : List U64) : Prop := Linked 0 s.next s.pmmLow ls

/-- The nodes of the high free list, in order. -/
def High (s : Pmm) (hs : List U64) : Prop := Linked 0 s.next s.pmmHigh hs

/-- A low allocation takes the head of the low list and pushes its node. -/
theorem pmmAllocLow_eq_done {s t : Pmm} {a : PhysicalAddress} :
    pmmAllocLow s = .done a t ↔ s.pmmLow ≠ 0 ∧ a = s.addr s.pmmLow ∧
      t = { s.setNext s.pmmLow s.pmmFreeList with
              pmmLow := s.next s.pmmLow, pmmFreeList := s.pmmLow } := by
  unfold pmmAllocLow
  by_cases h : s.pmmLow = 0
  · simp [h]
  · rw [if_neg h]
    constructor
    · rintro ⟨⟩
      exact ⟨h,rfl,rfl⟩
    · rintro ⟨-,rfl,rfl⟩
      rfl

/-- A free that returns relinks a node of the address it was given; the node
keeps its address, and nothing is removed from the list it was found in. -/
theorem pmmFree_eq_done {fuel : ℕ} {mem : PhysicalAddress} {s t : Pmm} :
    pmmFree fuel mem s = .done () t ↔ ∃ cur, findNode fuel mem s = some cur ∧ cur ≠ 0 ∧
      s.addr cur = mem ∧
      t = if twoGB ≤ mem then { s.setNext cur s.pmmHigh with pmmHigh := cur }
        else { s.setNext cur s.pmmLow with pmmLow := cur } := by
  unfold pmmFree
  cases hw : findNode fuel mem s with
  | none => simp
  | some cur =>
    by_cases hc : cur = 0
    · simp [hc]
    · have ha : s.addr cur = mem := by
        obtain ⟨-,-,-,-,hend⟩ := walk_eq_some.mp hw
        rcases hend with hend | hend
        · exact absurd hend hc
        · exact eq_of_beq hend
      have hn (n : U64) : (⟨n,mem⟩ : PhysFreeListNode) = { s.node cur with next := n } := by
        rw [← ha]
        rfl
      simp only [hn,if_neg hc]
      by_cases hm : twoGB ≤ mem
      · simp only [if_pos hm]
        constructor
        · rintro ⟨⟩
          exact ⟨cur,rfl,hc,ha,rfl⟩
        · rintro ⟨_,⟨⟩,-,-,rfl⟩
          rfl
      · simp only [if_neg hm]
        constructor
        · rintro ⟨⟩
          exact ⟨cur,rfl,hc,ha,rfl⟩
        · rintro ⟨_,⟨⟩,-,-,rfl⟩
          rfl

theorem pmmFree_eq_panic {fuel : ℕ} {mem : PhysicalAddress} {s : Pmm}
    (h : findNode fuel mem s = some 0) :
    pmmFree fuel mem s = .panic "pmm: free: cannot find node!" s := by
  simp [pmmFree,h]

end Pmm

end Lios

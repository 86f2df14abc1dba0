import Lios.Lib.ByteStore
import Lios.Util.Kmath
import Lios.Mem.Pmm

/-! # Initialisation of the physical memory manager

The nodes of the free lists are laid into the memory that the manager is given, and
then each node gets the address of a frame in the rest of it. Both happen block by
block, while the memory map is read, through the cursor `pmm_init_temp` and the counter
`nodes_needed`. Nodes of blocks with odd bounds can overlap, so the memory is a map of
bytes here and the fields of a node are words in it. The first 2 GiB are still identity
mapped at this time and a null pointer does not fault.
-/
namespace Lios

structure PmmInit where
  bytes : U64 → U8
  pmmLow : U64
  pmmHigh : U64
  pmmInitTemp : U64
  pmmFreeList : U64
  totalSize : U64
  nodesNeeded : U64
  /-- The addresses at which nodes were placed, in order. No function reads them. -/
  placed : List U64

namespace PmmInit

/-- The manager before its first call. -/
def fresh (bytes : U64 → U8) : PmmInit := ⟨bytes,0#64,0#64,0#64,0#64,0#64,0#64,[]⟩

def next (s : PmmInit) (p : U64) : U64 := load s.bytes p

def addr (s : PmmInit) (p : U64) : U64 := load s.bytes (p + 8#64)

/-- The assignment `p->next = n`. -/
def setNext (s : PmmInit) (p n : U64) : PmmInit :=
  { s with bytes := store s.bytes p (wordBytes n) }

/-- The assignment `p->addr = a`. -/
def setAddr (s : PmmInit) (p a : U64) : PmmInit :=
  { s with bytes := store s.bytes (p + 8#64) (wordBytes a) }

def pmmSetTotal (size : U64) (s : PmmInit) : PmmInit :=
  { s with totalSize := size, nodesNeeded := floorU64Div size (pageSize + 16#64) - 1#64 }

def linkedListAddNode (start : U64) (s : PmmInit) : PmmInit :=
  if s.pmmLow = 0#64 then
    { s with
      bytes := (s.setAddr (start + kernelOffset) 0#64).bytes
      pmmLow := start + kernelOffset
      pmmInitTemp := start + kernelOffset
      nodesNeeded := s.nodesNeeded - 1#64
      placed := s.placed ++ [start] }
  else
    let t := s.setNext s.pmmInitTemp (start + kernelOffset)
    { s with
      bytes := (t.setAddr (t.next t.pmmInitTemp) 0#64).bytes
      pmmInitTemp := start + kernelOffset
      nodesNeeded := s.nodesNeeded - 1#64
      placed := s.placed ++ [start] }

/-- The node at the cursor gets the frame `i`. -/
def listFrame (i : U64) (s : PmmInit) : PmmInit :=
  let t := s.setAddr s.pmmInitTemp i
  { t with pmmInitTemp := t.next t.pmmInitTemp }

/-- The loop over the frames of a block from `i` to `stop`. -/
def listFrames : ℕ → U64 → U64 → PmmInit → Outcome PmmInit Unit
  | 0, _, _, _ => .spin
  | fuel + 1, i, stop, s =>
    if i < stop ∧ s.pmmInitTemp ≠ 0#64 then
      listFrames fuel (i + pageSize) stop (listFrame i s)
    else .done () s

/-- The loop that places nodes from `cur` to `stop`; the value is `cur` at its end. -/
def placeNodes : ℕ → U64 → U64 → PmmInit → Outcome PmmInit U64
  | 0, _, _, _ => .spin
  | fuel + 1, cur, stop, s =>
    if cur < stop then
      let t := linkedListAddNode cur s
      if t.nodesNeeded = 0#64 then .done cur t
      else placeNodes fuel (cur + 16#64) stop t
    else .done cur s

/-- The last node ends the list and the cursor goes back to the first. -/
def closeList (s : PmmInit) : PmmInit :=
  let t := s.setNext s.pmmInitTemp 0#64
  { t with pmmInitTemp := t.pmmLow }

def pmmAddBlock : ℕ → U64 → U64 → PmmInit → Outcome PmmInit Unit
  | 0, _, _, _ => .spin
  | fuel + 1, start, stop, s =>
    if s.nodesNeeded = 0#64 then
      listFrames fuel ((start + pageSize - 1#64) &&& ~~~(pageSize - 1#64)) stop s
    else
      (placeNodes fuel start stop s).bind fun cur s =>
        if s.nodesNeeded ≠ 0#64 then .done () s
        -- the rest of the block begins at the last node, not behind it
        else if cur < stop then pmmAddBlock fuel cur stop (closeList s)
        else .done () (closeList s)

/-- The list behind `cur` becomes the high list. -/
def cutHigh (cur : U64) (s : PmmInit) : PmmInit :=
  setNext { s with pmmHigh := s.next cur } cur 0#64

/-- The loop of `pmm_init_final` from `cur` on. -/
def splitHigh : ℕ → U64 → PmmInit → Outcome PmmInit Unit
  | 0, _, _ => .spin
  | fuel + 1, cur, s =>
    if cur = 0#64 then .done () s
    else if s.next cur = 0#64 then .done () s
    else if twoGB ≤ s.addr (s.next cur) then .done () (cutHigh cur s)
    else splitHigh fuel (s.next cur) s

def pmmInitFinal (fuel : ℕ) (s : PmmInit) : Outcome PmmInit Unit := splitHigh fuel s.pmmLow s

/-- The calls of `pmm_add_block` for a list of blocks. -/
def addBlocks (fuel : ℕ) : List (U64 × U64) → PmmInit → Outcome PmmInit Unit
  | [], s => .done () s
  | b :: bs, s => (pmmAddBlock fuel b.1 b.2 s).bind fun _ s => addBlocks fuel bs s

/-- The whole initialisation. -/
def initialise (fuel : ℕ) (total : U64) (bs : List (U64 × U64)) (s : PmmInit) :
    Outcome PmmInit Unit :=
  (addBlocks fuel bs (pmmSetTotal total s)).bind fun _ s => pmmInitFinal fuel s

/-- The manager as its later calls see it. -/
def pmm (s : PmmInit) : Pmm :=
  ⟨fun p => ⟨s.next p,s.addr p⟩,s.pmmLow,s.pmmHigh,s.pmmFreeList⟩

section Fields
variable {s : PmmInit} {p q : U64}

@[simp] theorem next_setNext_self (v : U64) : (s.setNext p v).next p = v :=
  load_store (by decide) v

@[simp] theorem addr_setAddr_self (v : U64) : (s.setAddr p v).addr p = v :=
  load_store (by decide) v

/-- Two nodes without a common byte, none of them across the end of the address space. -/
structure Beside (p q : U64) : Prop where
  left : p.toNat + 16 ≤ 2 ^ 64
  right : q.toNat + 16 ≤ 2 ^ 64
  apart : p.toNat + 16 ≤ q.toNat ∨ q.toNat + 16 ≤ p.toNat

theorem toNat_addrField (h : p.toNat + 16 ≤ 2 ^ 64) : (p + 8#64).toNat = p.toNat + 8 := by
  rw [BitVec.toNat_add,show (8#64).toNat = 8 from rfl]
  omega

theorem addr_setNext_self (h : p.toNat + 16 ≤ 2 ^ 64) (v : U64) :
    (s.setNext p v).addr p = s.addr p := by
  have hp := toNat_addrField h
  exact load_store_of_apart v (by omega) (by omega) (by omega)

theorem next_setAddr_self (h : p.toNat + 16 ≤ 2 ^ 64) (v : U64) :
    (s.setAddr p v).next p = s.next p := by
  have hp := toNat_addrField h
  exact load_store_of_apart v (by omega) (by omega) (by omega)

theorem Beside.next_setNext (h : Beside p q) (v : U64) : (s.setNext p v).next q = s.next q := by
  obtain ⟨hl,hr,hap⟩ := h
  exact load_store_of_apart v (by omega) (by omega) (by omega)

theorem Beside.addr_setNext (h : Beside p q) (v : U64) : (s.setNext p v).addr q = s.addr q := by
  obtain ⟨hl,hr,hap⟩ := h
  have hq := toNat_addrField hr
  exact load_store_of_apart v (by omega) (by omega) (by omega)

theorem Beside.next_setAddr (h : Beside p q) (v : U64) : (s.setAddr p v).next q = s.next q := by
  obtain ⟨hl,hr,hap⟩ := h
  have hp := toNat_addrField hl
  exact load_store_of_apart v (by omega) (by omega) (by omega)

theorem Beside.addr_setAddr (h : Beside p q) (v : U64) : (s.setAddr p v).addr q = s.addr q := by
  obtain ⟨hl,hr,hap⟩ := h
  have hp := toNat_addrField hl
  have hq := toNat_addrField hr
  exact load_store_of_apart v (by omega) (by omega) (by omega)

section Frame
variable (s p) (v : U64)

@[simp] theorem pmmLow_setNext : (s.setNext p v).pmmLow = s.pmmLow := rfl
@[simp] theorem pmmHigh_setNext : (s.setNext p v).pmmHigh = s.pmmHigh := rfl
@[simp] theorem pmmInitTemp_setNext : (s.setNext p v).pmmInitTemp = s.pmmInitTemp := rfl
@[simp] theorem nodesNeeded_setNext : (s.setNext p v).nodesNeeded = s.nodesNeeded := rfl
@[simp] theorem placed_setNext : (s.setNext p v).placed = s.placed := rfl
@[simp] theorem pmmLow_setAddr : (s.setAddr p v).pmmLow = s.pmmLow := rfl
@[simp] theorem pmmHigh_setAddr : (s.setAddr p v).pmmHigh = s.pmmHigh := rfl
@[simp] theorem pmmInitTemp_setAddr : (s.setAddr p v).pmmInitTemp = s.pmmInitTemp := rfl
@[simp] theorem nodesNeeded_setAddr : (s.setAddr p v).nodesNeeded = s.nodesNeeded := rfl
@[simp] theorem placed_setAddr : (s.setAddr p v).placed = s.placed := rfl

@[simp] theorem pmmLow_listFrame : (listFrame v s).pmmLow = s.pmmLow := rfl
@[simp] theorem pmmHigh_listFrame : (listFrame v s).pmmHigh = s.pmmHigh := rfl
@[simp] theorem nodesNeeded_listFrame : (listFrame v s).nodesNeeded = s.nodesNeeded := rfl
@[simp] theorem placed_listFrame : (listFrame v s).placed = s.placed := rfl
@[simp] theorem pmmFreeList_listFrame : (listFrame v s).pmmFreeList = s.pmmFreeList := rfl
theorem bytes_listFrame : (listFrame v s).bytes = (s.setAddr s.pmmInitTemp v).bytes := rfl
theorem pmmInitTemp_listFrame :
    (listFrame v s).pmmInitTemp = (s.setAddr s.pmmInitTemp v).next s.pmmInitTemp := rfl

@[simp] theorem pmmLow_closeList : (closeList s).pmmLow = s.pmmLow := rfl
@[simp] theorem pmmHigh_closeList : (closeList s).pmmHigh = s.pmmHigh := rfl
@[simp] theorem pmmInitTemp_closeList : (closeList s).pmmInitTemp = s.pmmLow := rfl
@[simp] theorem nodesNeeded_closeList : (closeList s).nodesNeeded = s.nodesNeeded := rfl
@[simp] theorem placed_closeList : (closeList s).placed = s.placed := rfl
@[simp] theorem pmmFreeList_closeList : (closeList s).pmmFreeList = s.pmmFreeList := rfl
@[simp] theorem pmmLow_cutHigh : (cutHigh v s).pmmLow = s.pmmLow := rfl
@[simp] theorem pmmHigh_cutHigh : (cutHigh v s).pmmHigh = s.next v := rfl
@[simp] theorem nodesNeeded_cutHigh : (cutHigh v s).nodesNeeded = s.nodesNeeded := rfl
@[simp] theorem placed_cutHigh : (cutHigh v s).placed = s.placed := rfl
@[simp] theorem pmmFreeList_cutHigh : (cutHigh v s).pmmFreeList = s.pmmFreeList := rfl
theorem bytes_cutHigh : (cutHigh v s).bytes = (s.setNext v 0#64).bytes := rfl
theorem bytes_closeList : (closeList s).bytes = (s.setNext s.pmmInitTemp 0#64).bytes := rfl

end Frame

theorem next_congr {t : PmmInit} (h : t.bytes = s.bytes) : t.next = s.next := by
  funext p
  rw [next,next,h]

theorem addr_congr {t : PmmInit} (h : t.bytes = s.bytes) : t.addr = s.addr := by
  funext p
  rw [addr,addr,h]

end Fields

-- from here on the fields of a node are used through the equations above
attribute [irreducible] next addr setNext setAddr listFrame closeList cutHigh

end PmmInit

end Lios

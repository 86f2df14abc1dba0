import Lios.Lib.LinkedList
import Lios.Util.Kmath
import Lios.Mem.Page

/-! # The virtual address allocator

Free blocks are the nodes of a doubly linked list, kept by address in no order;
allocated blocks are remembered with their size in a second list. Both lists live
on pages of nodes that are never given back. A null pointer that is followed is a
fault. The calls into the paging code and the physical memory manager are a
parameter, and the pages on which free nodes were set up are recorded so that one
can speak about all nodes. Log messages are left out.
-/
namespace Lios

structure VirtFreeListNode where
  prev : U64
  next : U64
  start : U64
  size : U64
  deriving DecidableEq

structure VirtAllocatedNode where
  next : U64
  start : U64
  size : U64
  deriving DecidableEq

/-- What the allocator calls below itself. -/
structure PageCalls (E : Type) where
  kcallocPage : E → Outcome E U64
  pmmAllocHigh : E → Outcome E PhysicalAddress
  pmmFree : PhysicalAddress → E → Outcome E Unit
  pageUnmap : U64 → E → Outcome E Unit
  pageMap : U64 → PhysicalAddress → Bool → E → Outcome E Unit
  pageVirtToPhysAddr : E → U64 → PhysicalAddress

/-- The calls as the kernel has them, over its page tables and its manager. -/
def kernelPageCalls (fuel : ℕ) : PageCalls (Paging Pmm) where
  kcallocPage := Paging.kcallocPage (pmmAllocator fuel)
  pmmAllocHigh := Pmm.pmmAllocHigh (Paging.framesLens Pmm) (Paging.pageUnmap (pmmAllocator fuel))
  pmmFree mem := (Paging.framesLens Pmm).lift (Pmm.pmmFree fuel mem)
  pageUnmap := Paging.pageUnmap (pmmAllocator fuel)
  pageMap := Paging.pageMap (pmmAllocator fuel)
  pageVirtToPhysAddr := Paging.pageVirtToPhysAddr

structure Vmm (E : Type) where
  free : U64 → VirtFreeListNode
  alloc : U64 → VirtAllocatedNode
  vmmHead : U64
  vmmTail : U64
  allocHead : U64
  freePages : List U64
  env : E

namespace Vmm
variable {E : Type}

def freeVirtStart : U64 := 0xFFFFF00000000000#64
def freeVirtEnd : U64 := 0xFFFFFFFF80000000#64

def envLens (E : Type) : Lens (Vmm E) E where
  get s := s.env
  set e s := { s with env := e }
  get_set _ _ := rfl
  set_get _ := rfl
  set_set _ _ _ := rfl

def prev (s : Vmm E) (n : U64) : U64 := (s.free n).prev
def next (s : Vmm E) (n : U64) : U64 := (s.free n).next
def start (s : Vmm E) (n : U64) : U64 := (s.free n).start
def size (s : Vmm E) (n : U64) : U64 := (s.free n).size

def modifyFree (s : Vmm E) (n : U64) (f : VirtFreeListNode → VirtFreeListNode) : Vmm E :=
  { s with free := Function.update s.free n (f (s.free n)) }

def setPrev (s : Vmm E) (n p : U64) : Vmm E := s.modifyFree n fun x => { x with prev := p }
def setNext (s : Vmm E) (n p : U64) : Vmm E := s.modifyFree n fun x => { x with next := p }
def setBlock (s : Vmm E) (n start size : U64) : Vmm E :=
  s.modifyFree n fun x => { x with start := start, size := size }

section Updates
variable (s : Vmm E) (n p a z : U64)

/-- A field of the nodes after the update of one of them. -/
theorem field_modifyFree (π : VirtFreeListNode → U64) (f : VirtFreeListNode → VirtFreeListNode) :
    (fun q => π ((s.modifyFree n f).free q)) =
      Function.update (fun q => π (s.free q)) n (π (f (s.free n))) := by
  funext q
  by_cases h : q = n
  · subst h
    simp [modifyFree]
  · simp [modifyFree,h]

theorem next_modifyFree (f : VirtFreeListNode → VirtFreeListNode) :
    (s.modifyFree n f).next = Function.update s.next n (f (s.free n)).next :=
  field_modifyFree s n VirtFreeListNode.next f

theorem prev_modifyFree (f : VirtFreeListNode → VirtFreeListNode) :
    (s.modifyFree n f).prev = Function.update s.prev n (f (s.free n)).prev :=
  field_modifyFree s n VirtFreeListNode.prev f

theorem start_modifyFree (f : VirtFreeListNode → VirtFreeListNode) :
    (s.modifyFree n f).start = Function.update s.start n (f (s.free n)).start :=
  field_modifyFree s n VirtFreeListNode.start f

theorem size_modifyFree (f : VirtFreeListNode → VirtFreeListNode) :
    (s.modifyFree n f).size = Function.update s.size n (f (s.free n)).size :=
  field_modifyFree s n VirtFreeListNode.size f

@[simp] theorem next_setNext : (s.setNext n p).next = Function.update s.next n p :=
  next_modifyFree s n _
@[simp] theorem prev_setNext : (s.setNext n p).prev = s.prev := by
  rw [setNext,prev_modifyFree]
  exact Function.update_eq_self n s.prev
@[simp] theorem start_setNext : (s.setNext n p).start = s.start := by
  rw [setNext,start_modifyFree]
  exact Function.update_eq_self n s.start
@[simp] theorem size_setNext : (s.setNext n p).size = s.size := by
  rw [setNext,size_modifyFree]
  exact Function.update_eq_self n s.size

@[simp] theorem prev_setPrev : (s.setPrev n p).prev = Function.update s.prev n p :=
  prev_modifyFree s n _
@[simp] theorem next_setPrev : (s.setPrev n p).next = s.next := by
  rw [setPrev,next_modifyFree]
  exact Function.update_eq_self n s.next
@[simp] theorem start_setPrev : (s.setPrev n p).start = s.start := by
  rw [setPrev,start_modifyFree]
  exact Function.update_eq_self n s.start
@[simp] theorem size_setPrev : (s.setPrev n p).size = s.size := by
  rw [setPrev,size_modifyFree]
  exact Function.update_eq_self n s.size

@[simp] theorem start_setBlock : (s.setBlock n a z).start = Function.update s.start n a :=
  start_modifyFree s n _
@[simp] theorem size_setBlock : (s.setBlock n a z).size = Function.update s.size n z :=
  size_modifyFree s n _
@[simp] theorem next_setBlock : (s.setBlock n a z).next = s.next := by
  rw [setBlock,next_modifyFree]
  exact Function.update_eq_self n s.next
@[simp] theorem prev_setBlock : (s.setBlock n a z).prev = s.prev := by
  rw [setBlock,prev_modifyFree]
  exact Function.update_eq_self n s.prev

end Updates

def modifyAlloc (s : Vmm E) (n : U64) (f : VirtAllocatedNode → VirtAllocatedNode) : Vmm E :=
  { s with alloc := Function.update s.alloc n (f (s.alloc n)) }

section Frame
variable (s : Vmm E) (n : U64) (f : VirtAllocatedNode → VirtAllocatedNode)

@[simp] theorem modifyAlloc_free : (s.modifyAlloc n f).free = s.free := rfl
@[simp] theorem modifyAlloc_vmmHead : (s.modifyAlloc n f).vmmHead = s.vmmHead := rfl
@[simp] theorem modifyAlloc_vmmTail : (s.modifyAlloc n f).vmmTail = s.vmmTail := rfl
@[simp] theorem modifyAlloc_allocHead : (s.modifyAlloc n f).allocHead = s.allocHead := rfl
@[simp] theorem modifyAlloc_freePages : (s.modifyAlloc n f).freePages = s.freePages := rfl
@[simp] theorem modifyAlloc_env : (s.modifyAlloc n f).env = s.env := rfl
theorem modifyAlloc_alloc : (s.modifyAlloc n f).alloc =
    Function.update s.alloc n (f (s.alloc n)) := rfl

end Frame

/-- The loop of `set_up_page_for_alloc_list`, with the rounds left. -/
def linkAllocNodes : ℕ → U64 → Vmm E → Vmm E
  | 0,cur,s => s.modifyAlloc cur fun x => { x with next := 0#64 }
  | rounds + 1,cur,s =>
    let s := s.modifyAlloc cur fun x => { x with next := cur + 24#64 }
    linkAllocNodes rounds (cur + 24#64)
      (s.modifyAlloc (cur + 24#64) fun x => { x with start := 0#64, size := 0#64 })

@[irreducible] def setUpPageForAllocList (node : U64) (s : Vmm E) : Vmm E :=
  linkAllocNodes ((floorU32Div 4096#32 24#32).toNat - 1) node
    (s.modifyAlloc node fun x => { x with start := 0#64, size := 0#64 })

/-- The loop of `set_up_page_for_free_list`, which ends by making its last node the
tail. -/
def linkFreeNodes : ℕ → U64 → Vmm E → Vmm E
  | 0,cur,s => { s with vmmTail := cur }.setNext cur 0#64
  | rounds + 1,cur,s =>
    linkFreeNodes rounds (cur + 32#64)
      (((s.setNext cur (cur + 32#64)).setPrev (cur + 32#64) cur).setBlock (cur + 32#64) 0#64 0#64)

@[irreducible] def setUpPageForFreeList (node : U64) (s : Vmm E) : Vmm E :=
  let s := linkFreeNodes ((floorU32Div 4096#32 32#32).toNat - 1) node (s.setPrev node 0#64)
  { s with freePages := node :: s.freePages }

/-- A page of zeroes, seen as a page of free nodes. -/
def kcallocFreePage (calls : PageCalls E) (s : Vmm E) : Outcome (Vmm E) U64 :=
  ((envLens E).lift calls.kcallocPage s).bind fun page s =>
    .done page { s with
      free := fun q => if (q - page).toNat < 4096 then ⟨0#64,0#64,0#64,0#64⟩ else s.free q }

/-- A page of zeroes, seen as a page of allocated nodes. -/
def kcallocAllocPage (calls : PageCalls E) (s : Vmm E) : Outcome (Vmm E) U64 :=
  ((envLens E).lift calls.kcallocPage s).bind fun page s =>
    .done page { s with
      alloc := fun q => if (q - page).toNat < 4096 then ⟨0#64,0#64,0#64⟩ else s.alloc q }

def vmmInit (calls : PageCalls E) (s : Vmm E) : Outcome (Vmm E) Unit :=
  (kcallocFreePage calls s).bind fun page s =>
  let s := { s with vmmHead := page }.setBlock page freeVirtStart (freeVirtEnd - freeVirtStart)
  let s := setUpPageForFreeList page s
  (kcallocAllocPage calls s).bind fun page s =>
  .done () (setUpPageForAllocList page { s with allocHead := page })

def vmmListRemoveNode (node : U64) (s : Vmm E) : Outcome (Vmm E) Unit :=
  let s := s.setBlock node 0#64 0#64
  let s := if s.next node ≠ 0#64 then s.setPrev (s.next node) (s.prev node) else s
  let s := if s.prev node ≠ 0#64 then s.setNext (s.prev node) (s.next node)
    else { s with vmmHead := s.next node }
  let s := s.setNext node 0#64
  let s := s.setPrev node s.vmmTail
  if s.vmmTail = 0#64 then .fault s
  else .done () { s.setNext s.vmmTail node with vmmTail := node }

def allocNext (s : Vmm E) (n : U64) : U64 := (s.alloc n).next

/-- `cur->start == 0 && cur->size == 0` -/
def unused (s : Vmm E) (n : U64) : Bool := (s.alloc n).start == 0#64 && (s.alloc n).size == 0#64

def allocListAddNode (calls : PageCalls E) : ℕ → U64 → U64 → Vmm E → Outcome (Vmm E) Unit
  | 0,_,_,_ => .spin
  | fuel + 1,start,size,s =>
    if s.allocHead = 0#64 then .fault s else
    match scan 0#64 s.allocNext s.unused (fuel + 1) s.allocHead with
    | none => .spin
    | some (cur,true) =>
      .done () (s.modifyAlloc cur fun x => { x with start := start, size := size })
    | some (cur,false) =>
      (kcallocAllocPage calls s).bind fun nextPage s =>
      let s := setUpPageForAllocList nextPage s
      allocListAddNode calls fuel start size
        (s.modifyAlloc cur fun x => { x with next := nextPage })

def allocListFindAndRemove (fuel : ℕ) (start : U64) (s : Vmm E) : Outcome (Vmm E) U64 :=
  match walk 0#64 s.allocNext (fun n => (s.alloc n).start == start) fuel s.allocHead with
  | none => .spin
  | some cur =>
    if cur = 0#64 then .panic "vmm: freeing block that is not in list!" s
    else .done (s.alloc cur).size
      (s.modifyAlloc cur fun x => { x with start := 0#64, size := 0#64 })

/-- The pages `i, i + 1, …` of a new block get frames. -/
def mapFrames (calls : PageCalls E) (start : U64) : ℕ → ℕ → E → Outcome E Unit
  | 0,_,e => .done () e
  | rounds + 1,i,e =>
    let virt := start + BitVec.ofNat 64 i * pageSize
    (calls.pmmAllocHigh e).bind fun pageFrame e =>
    (calls.pageUnmap virt e).bind fun _ e =>
    (calls.pageMap virt pageFrame true e).bind fun _ e =>
    mapFrames calls start rounds (i + 1) e

/-- The pages `i, i + 1, …` of a freed block lose their frames. -/
def unmapFrames (calls : PageCalls E) (mem : U64) : ℕ → ℕ → E → Outcome E Unit
  | 0,_,e => .done () e
  | rounds + 1,i,e =>
    let virt := mem + BitVec.ofNat 64 i * pageSize
    (calls.pmmFree (calls.pageVirtToPhysAddr e virt) e).bind fun _ e =>
    (calls.pageUnmap virt e).bind fun _ e =>
    (calls.pageMap virt (virt - kernelOffset) true e).bind fun _ e =>
    unmapFrames calls mem rounds (i + 1) e

/-- Taking `requestSize` bytes from the front of the block of `cur`. -/
def takeBlock (cur requestSize : U64) (s : Vmm E) : Outcome (Vmm E) Unit :=
  if s.size cur = requestSize then vmmListRemoveNode cur s
  else .done () (s.setBlock cur (s.start cur + requestSize) (s.size cur - requestSize))

def vmmAlloc (calls : PageCalls E) (fuel : ℕ) (pages : U64) (s : Vmm E) : Outcome (Vmm E) U64 :=
  let requestSize := pages * pageSize
  match walk 0#64 s.next (fun n => requestSize ≤ s.size n) fuel s.vmmHead with
  | none => .spin
  | some cur =>
    if cur = 0#64 then .panic "vmm: out of memory!" s else
    let start := s.start cur
    (takeBlock cur requestSize s).bind fun _ s =>
    ((envLens E).lift (mapFrames calls start pages.toNat 0) s).bind fun _ s =>
    (allocListAddNode calls fuel start pages s).bind fun _ s =>
    .done start s

/-- The block of node `n` ends where the block begins, or begins where it ends. -/
def touches (s : Vmm E) (blockStart blockEnd n : U64) : Bool :=
  blockStart == s.start n + s.size n || blockEnd == s.start n

/-- The block of `n` is extended by the block it touches, to the right if it can. -/
def extend (blockStart blockEnd n : U64) (s : Vmm E) : Vmm E :=
  if blockStart = s.start n + s.size n then
    s.setBlock n (s.start n) (s.size n + (blockEnd - blockStart))
  else
    s.setBlock n (s.start n - (blockEnd - blockStart)) (s.size n + (blockEnd - blockStart))

/-- A page of new nodes behind `cur`, if the tail is in use. -/
def growFreeList (calls : PageCalls E) (cur : U64) (s : Vmm E) : Outcome (Vmm E) Unit :=
  if s.start s.vmmTail ≠ 0#64 ∧ s.size s.vmmTail ≠ 0#64 then
    (kcallocFreePage calls s).bind fun nextPage s =>
    .done () ((setUpPageForFreeList nextPage s).setNext cur nextPage)
  else .done () s

/-- The tail becomes the head and takes the block. -/
def recycleTail (mem size : U64) (s : Vmm E) : Outcome (Vmm E) Unit :=
  let cur := s.vmmTail
  let s := { s with vmmTail := s.prev s.vmmTail }
  if s.vmmTail = 0#64 then .fault s else
  let s := s.setNext s.vmmTail 0#64
  let s := s.setPrev cur 0#64
  let s := s.setNext cur s.vmmHead
  let s := s.setBlock cur mem size
  let s := s.setPrev s.vmmHead cur
  .done () { s with vmmHead := cur }

/-- The second pass, which joins the block of `merged` with a second neighbour. -/
def mergeAgain (fuel : ℕ) (merged blockStart blockEnd : U64) (s : Vmm E) :
    Outcome (Vmm E) Unit :=
  match walk 0#64 s.next (s.touches blockStart blockEnd) fuel s.vmmHead with
  | none => .spin
  | some cur =>
    if cur = 0#64 then .done () s
    else vmmListRemoveNode merged (s.extend blockStart blockEnd cur)

/-- The block goes back to the free list. -/
def giveBack (calls : PageCalls E) (fuel : ℕ) (mem size : U64) (s : Vmm E) :
    Outcome (Vmm E) Unit :=
  let blockStart := mem
  let blockEnd := mem + size
  if s.vmmHead = 0#64 then .fault s else
  match scan 0#64 s.next (s.touches blockStart blockEnd) fuel s.vmmHead with
  | none => .spin
  | some (cur,false) =>
    if s.vmmTail = 0#64 then .fault s else
    (growFreeList calls cur s).bind fun _ s => recycleTail mem size s
  | some (cur,true) =>
    let s' := s.extend blockStart blockEnd cur
    if blockStart = s.start cur + s.size cur then
      mergeAgain fuel cur (s.start cur) blockEnd s'
    else mergeAgain fuel cur blockStart (s'.start cur + s'.size cur) s'

def vmmFree (calls : PageCalls E) (fuel : ℕ) (mem : U64) (s : Vmm E) : Outcome (Vmm E) Unit :=
  (allocListFindAndRemove fuel mem s).bind fun pages s =>
  ((envLens E).lift (unmapFrames calls mem pages.toNat 0) s).bind fun _ s =>
  giveBack calls fuel mem (pages * pageSize) s

end Vmm

end Lios

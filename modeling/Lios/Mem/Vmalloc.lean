import Lios.Lib.ByteStore
import Lios.Lib.LinkedList
import Lios.Util.Kmath
import Lios.Util.Misc
import Lios.Mem.Vmm

/-! # The heap

A heap node is a block of the virtual address allocator that begins with a header
and a bitmap, one bit for each section of eight bytes that follow. A block of the
heap is a row of sections; the first of them holds the number of sections. The
headers and bitmaps of the nodes are kept apart from the bytes of the sections, and
the calls into the virtual address allocator are a parameter. Reading through a null
pointer is a fault. Log messages are left out.
-/
namespace Lios

structure HeapBitmapNode where
  next : U64
  bitmapSize : U64
  totalSize : U64
  mem : ℕ → U8

structure VmmCalls (E : Type) where
  vmmAlloc : U64 → E → Outcome E U64
  vmmFree : U64 → E → Outcome E Unit

/-- The calls as the kernel has them. -/
def kernelVmmCalls {F : Type} (calls : PageCalls F) (fuel : ℕ) : VmmCalls (Vmm F) where
  vmmAlloc := Vmm.vmmAlloc calls fuel
  vmmFree := Vmm.vmmFree calls fuel

structure Vmalloc (E : Type) where
  node : U64 → HeapBitmapNode
  bytes : U64 → U8
  heapHead : U64
  heapTail : U64
  env : E

def setBit (num : U8) (pos : ℕ) : U8 := num ||| 1#8 <<< (7 - pos)
def unsetBit (num : U8) (pos : ℕ) : U8 := num &&& ~~~(1#8 <<< (7 - pos))
def queryBit (num : U8) (pos : ℕ) : U8 := num >>> (7 - pos) &&& 1#8

/-- The loop over the bits `i, i + 1, …` of a byte. -/
def markBits (used : Bool) : ℕ → ℕ → U8 → U8
  | 0,_,num => num
  | rounds + 1,i,num =>
    markBits used rounds (i + 1) (if used then setBit num i else unsetBit num i)

/-- The loop over whole bytes, whose counter has 32 bits. -/
def markBytes (used : Bool) (endIndex : U64) : ℕ → U32 → (ℕ → U8) → Option (ℕ → U8)
  | 0,_,_ => none
  | fuel + 1,i,mem =>
    if i.setWidth 64 < endIndex then
      markBytes used endIndex fuel (i + 1#32)
        (Function.update mem i.toNat (if used then 0xFF#8 else 0#8))
    else some mem

/-- `mark_bitmap` on the bytes of one node. -/
def markBitmap (fuel : ℕ) (start bits : U64) (used : Bool) (mem : ℕ → U8) : Option (ℕ → U8) :=
  let startIndex := start / 8#64
  let startBit := (start % 8#64).toNat
  let endIndex := (start + bits - 1#64) / 8#64
  let endBit := ((start + bits - 1#64) % 8#64).toNat
  if startIndex = endIndex then
    some (Function.update mem startIndex.toNat
      (markBits used (endBit + 1 - startBit) startBit (mem startIndex.toNat)))
  else
    (markBytes used endIndex fuel ((startIndex + 1#64).setWidth 32)
      (Function.update mem startIndex.toNat
        (markBits used (8 - startBit) startBit (mem startIndex.toNat)))).map fun mem =>
    Function.update mem endIndex.toNat (markBits used (endBit + 1) 0 (mem endIndex.toNat))

/-- The search for free sections in one node, from the section `i` on; `none` inside is a
node without room. -/
def searchNode (node : HeapBitmapNode) (needed : U64) : ℕ → U64 → U64 → U64 → Option (Option U64)
  | 0,_,_,_ => none
  | fuel + 1,i,found,start =>
    if i < node.bitmapSize then
      if queryBit (node.mem (i / 8#64).toNat) (i % 8#64).toNat ≠ 0#8 then
        if 0#64 = needed then some (some start)
        else searchNode node needed fuel (i + 1#64) 0#64 start
      else
        let start := if found = 0#64 then i else start
        if i % 8#64 = 0#64 ∧ i < node.bitmapSize - 64#64 ∧ found + 64#64 < needed ∧
            word (fun k => node.mem ((i / 8#64).toNat + k)) = 0#64 then
          searchNode node needed fuel (i + 63#64 + 1#64) (found + 64#64) start
        else if found + 1#64 = needed then some (some start)
        else searchNode node needed fuel (i + 1#64) (found + 1#64) start
    else some none

namespace Vmalloc
variable {E : Type}

def envLens (E : Type) : Lens (Vmalloc E) E where
  get s := s.env
  set e s := { s with env := e }
  get_set _ _ := rfl
  set_get _ := rfl
  set_set _ _ _ := rfl

def next (s : Vmalloc E) (n : U64) : U64 := (s.node n).next

def modifyNode (s : Vmalloc E) (n : U64) (f : HeapBitmapNode → HeapBitmapNode) : Vmalloc E :=
  { s with node := Function.update s.node n (f (s.node n)) }

/-- The first node of the list with room for a block, and the place in it. -/
def search (s : Vmalloc E) (needed : U64) (fuel : ℕ) : ℕ → U64 → Option (Option (U64 × U64))
  | 0,_ => none
  | rounds + 1,cur =>
    if cur = 0#64 then some none
    else match searchNode (s.node cur) needed fuel 0#64 0#64 0#64 with
      | none => none
      | some (some start) => some (some (cur,start))
      | some none => search s needed fuel rounds (s.next cur)

def addBlock (calls : VmmCalls E) (wantedSections : U64) (s : Vmalloc E) :
    Outcome (Vmalloc E) Unit :=
  let bitmapSizeBits := wantedSections
  let bitmapSizeBytes := ceilU64Div bitmapSizeBits 8#64
  let dataSizeBytes := wantedSections * 8#64
  let blockTotal := dataSizeBytes + bitmapSizeBytes
  let pages := ceilU64Div blockTotal pageSize
  ((envLens E).lift (calls.vmmAlloc pages) s).bind fun addr s =>
  if addr = 0#64 then .fault s else
  let s := s.modifyNode addr fun x =>
    { next := 0#64
      totalSize := blockTotal
      bitmapSize := bitmapSizeBits
      mem := fun i => if i < bitmapSizeBytes.toNat then 0#8 else x.mem i }
  if s.heapHead = 0#64 ∧ s.heapTail = 0#64 then
    .done () { s with heapHead := addr, heapTail := addr }
  else if s.heapTail = 0#64 then .fault s
  else .done () { s.modifyNode s.heapTail fun x => { x with next := addr } with heapTail := addr }

def vmallocInit (calls : VmmCalls E) (s : Vmalloc E) : Outcome (Vmalloc E) Unit :=
  addBlock calls 504#64 s

def getBlockSize (s : Vmalloc E) (mem : U64) : U64 := load s.bytes (mem - 8#64)

/-- The address of the first section of a node. -/
def dataStart (s : Vmalloc E) (n : U64) : U64 :=
  n + 24#64 + ceilU64Div (s.node n).bitmapSize 8#64

def markNode (fuel : ℕ) (n start bits : U64) (used : Bool) (s : Vmalloc E) :
    Outcome (Vmalloc E) Unit :=
  match markBitmap fuel start bits used (s.node n).mem with
  | none => .spin
  | some mem => .done () (s.modifyNode n fun x => { x with mem := mem })

def vmalloc (calls : VmmCalls E) : ℕ → U64 → Vmalloc E → Outcome (Vmalloc E) U64
  | 0,_,_ => .spin
  | fuel + 1,size,s =>
    let size := size + 8#64
    let sectionsNeeded := ceilU64Div size 8#64
    match s.search sectionsNeeded fuel fuel s.heapHead with
    | none => .spin
    | some (some (cur,blockStart)) =>
      (markNode fuel cur blockStart sectionsNeeded true s).bind fun _ s =>
      let addr := s.dataStart cur + blockStart * 8#64
      .done (addr + 8#64) { s with bytes := store s.bytes addr (wordBytes sectionsNeeded) }
    | some none =>
      let numPages := ceilU64Div size 4032#64
      (addBlock calls (numPages * 504#64) s).bind fun _ s =>
      vmalloc calls fuel size s

def vcalloc (calls : VmmCalls E) (fuel : ℕ) (size : U64) (s : Vmalloc E) :
    Outcome (Vmalloc E) U64 :=
  (vmalloc calls fuel size s).bind fun mem s =>
  .done mem { s with bytes := memset 0#32 size.toNat mem s.bytes }

/-- Whether a byte of the bitmap of a node is not zero. -/
def inUse (s : Vmalloc E) (n : U64) : Bool :=
  (List.range (ceilU64Div (s.node n).bitmapSize 8#64).toNat).any fun i => (s.node n).mem i != 0#8

def releaseIfUnused (calls : VmmCalls E) (prev n : U64) (s : Vmalloc E) :
    Outcome (Vmalloc E) Unit :=
  if prev = n then .done () s
  else if prev = 0#64 then .fault s
  else if s.next prev ≠ n then .panic "vmalloc: assertion failed!" s
  else if s.inUse n then .done () s
  else
    let s := s.modifyNode prev fun x => { x with next := s.next n }
    let s := if s.heapTail = n then { s with heapTail := prev } else s
    (envLens E).lift (calls.vmmFree n) s

/-- The loop of `vfree`, with `prev` behind `cur`. -/
def vfreeLoop (calls : VmmCalls E) (mem size : U64) : ℕ → U64 → U64 → Vmalloc E →
    Outcome (Vmalloc E) Unit
  | 0,_,_,_ => .spin
  | fuel + 1,cur,prev,s =>
    if cur = 0#64 then .panic "vfree: something is very wrong" s
    else
      let curAddr := cur + 24#64
      if s.dataStart cur ≤ mem ∧ mem ≤ curAddr + (s.node cur).totalSize then
        let bitmapOffset := (mem - s.dataStart cur) / 8#64
        (markNode fuel cur bitmapOffset size false s).bind fun _ s =>
        releaseIfUnused calls prev cur s
      else if cur ≠ s.heapHead then
        if prev = 0#64 then .fault s
        else vfreeLoop calls mem size fuel (s.next cur) (s.next prev) s
      else vfreeLoop calls mem size fuel (s.next cur) prev s

def vfree (calls : VmmCalls E) (fuel : ℕ) (mem : U64) (s : Vmalloc E) :
    Outcome (Vmalloc E) Unit :=
  vfreeLoop calls (mem - 8#64) (s.getBlockSize mem) fuel s.heapHead s.heapHead s

def vrealloc (calls : VmmCalls E) (fuel : ℕ) (ptr newSize : U64) (s : Vmalloc E) :
    Outcome (Vmalloc E) U64 :=
  let oldSize := s.getBlockSize ptr * 8#64
  (vmalloc calls fuel newSize s).bind fun newPtr s =>
  let s := { s with bytes := memcpy (u64Min oldSize newSize).toNat newPtr ptr s.bytes }
  (vfree calls fuel ptr s).bind fun _ s =>
  .done newPtr s

end Vmalloc

end Lios

import Mathlib.Algebra.Order.Group.Multiset
import Lios.Lib.Outcome
import Lios.Lib.Records
import Lios.Util.Const

/-! # Array lists

A growing array of entries of one size. Its buffer is a block of the heap, twice as large
whenever it is full, and half as large when a removal leaves less than half of it in use.
The heap is a parameter. An access outside of the bytes that were asked for is a fault.
-/
namespace Lios

/-- The calls into the heap, and the memory in which its blocks lie. -/
structure HeapCalls (H : Type) where
  vmalloc : U64 → H → Outcome H U64
  vrealloc : U64 → U64 → H → Outcome H U64
  vfree : U64 → H → Outcome H Unit
  bytes : Lens H (U64 → U8)

structure ArrayList where
  l : U64
  size : U64
  capacity : U64
  entrySize : U64

/-- A list and the heap with its buffer. -/
structure ListHeap (H : Type) where
  list : ArrayList
  heap : H

/-- A block of the heap and the number of its bytes. -/
structure Buffer where
  base : U64
  limit : U64

def arraylistNew (entrySize : U64) : ArrayList := ⟨0#64,0#64,0#64,entrySize⟩

def ArrayList.buffer (list : ArrayList) : Buffer := ⟨list.l,list.capacity * list.entrySize⟩

section Model
variable {H : Type} (calls : HeapCalls H)

namespace Buffer

def read (b : Buffer) (i : U64) (h : H) : Outcome H U8 :=
  if i < b.limit then .done (calls.bytes.get h (b.base + i)) h else .fault h

def write (b : Buffer) (i : U64) (v : U8) (h : H) : Outcome H Unit :=
  if i < b.limit then
    .done () (calls.bytes.set (Function.update (calls.bytes.get h) (b.base + i) v) h)
  else .fault h

/-- The bytes that a caller writes into an entry. -/
def writeBytes (b : Buffer) : U64 → List U8 → H → Outcome H Unit
  | _,[],h => .done () h
  | i,v :: vs,h => (b.write calls i v h).bind fun _ h => writeBytes b (i + 1#64) vs h

end Buffer

/-- The loops `for (i = …; i < stop; i++) dst[i] = src[i + gap]`. -/
def copyBytes (dst src : Buffer) (gap stop : U64) : ℕ → U64 → H → Outcome H Unit
  | 0,_,_ => .spin
  | fuel + 1,i,h =>
    if i < stop then
      (src.read calls (i + gap) h).bind fun v h =>
      (dst.write calls i v h).bind fun _ h =>
      copyBytes dst src gap stop fuel (i + 1#64) h
    else .done () h

def arraylistAdd (s : ListHeap H) : Outcome (ListHeap H) U64 :=
  let list := s.list
  if list.capacity = 0#64 then
    let list := { list with capacity := 1#64, size := 1#64 }
    ((calls.vmalloc (1#64 * list.entrySize) s.heap).mapState (ListHeap.mk list)).bind fun l s =>
    .done 0#64 { s with list := { list with l := l } }
  else if list.size + 1#64 ≤ list.capacity then
    .done list.size { s with list := { list with size := list.size + 1#64 } }
  else
    let list := { list with capacity := list.capacity * 2#64 }
    ((calls.vrealloc list.l (list.capacity * list.entrySize) s.heap).mapState
      (ListHeap.mk list)).bind fun l s =>
    .done list.size { s with list := { list with l := l, size := list.size + 1#64 } }

/-- The entries that remain are copied into a new buffer. -/
def shrinkCopy (fuel : ℕ) (index newSize newCapacity : U64) (list : ArrayList) (h : H) :
    Outcome H U64 :=
  (calls.vmalloc (newCapacity * list.entrySize) h).bind fun newList h =>
  let new : Buffer := ⟨newList,newCapacity * list.entrySize⟩
  (copyBytes calls new list.buffer 0#64 (index * list.entrySize) fuel 0#64 h).bind fun _ h =>
  (copyBytes calls new list.buffer list.entrySize (newSize * list.entrySize) fuel
    (index * list.entrySize) h).bind fun _ h =>
  (calls.vfree list.l h).bind fun _ h =>
  .done newList h

def arraylistRemove (fuel : ℕ) (index : U64) (s : ListHeap H) : Outcome (ListHeap H) Bool :=
  let list := s.list
  if list.size ≤ index then .done false s
  else
    let newSize := list.size - 1#64
    if list.capacity / 2#64 ≤ newSize then
      ((copyBytes calls list.buffer list.buffer list.entrySize (newSize * list.entrySize) fuel
        (index * list.entrySize) s.heap).mapState (ListHeap.mk list)).bind fun _ s =>
      .done true { s with list := { list with size := list.size - 1#64 } }
    else
      let newCapacity := list.capacity / 2#64
      ((shrinkCopy calls fuel index newSize newCapacity list s.heap).mapState
        (ListHeap.mk list)).bind fun newList s =>
      .done true
        { s with list := { list with l := newList, capacity := newCapacity, size := newSize } }

def arraylistFree (s : ListHeap H) : Outcome (ListHeap H) Unit :=
  ((calls.vfree s.list.l s.heap).mapState (ListHeap.mk s.list)).bind fun _ s =>
  .done () { s with list := { s.list with capacity := 0#64, size := 0#64 } }

/-- The caller of `arraylist_add` stores the new entry at the index that it got. -/
def storeEntry (index : U64) (entry : List U8) (s : ListHeap H) : Outcome (ListHeap H) Unit :=
  (s.list.buffer.writeBytes calls (index * s.list.entrySize) entry s.heap).mapState
    (ListHeap.mk s.list)

end Model

/-- A heap whose outstanding blocks keep their bytes: an allocated block has the size asked for
and is none of the others, and a reallocated one holds the old bytes as far as they fit. -/
structure HeapSupply {H : Type} (calls : HeapCalls H) where
  Holds : H → Multiset (U64 × List U8) → Prop
  load : ∀ {h p c out} {i : U64}, Holds h ((p,c) ::ₘ out) → i.toNat < c.length →
    (c)[i.toNat]? = some (calls.bytes.get h (p + i))
  store : ∀ {h p c out} {i : U64} (v : U8), Holds h ((p,c) ::ₘ out) → i.toNat < c.length →
    Holds (calls.bytes.set (Function.update (calls.bytes.get h) (p + i) v) h)
      ((p,c.set i.toNat v) ::ₘ out)
  vmalloc : ∀ {h out} (n : U64), Holds h out → (calls.vmalloc n h).Settled ∧
    ∀ p t, calls.vmalloc n h = .done p t →
      ∃ c, c.length = n.toNat ∧ Holds t ((p,c) ::ₘ out)
  vrealloc : ∀ {h p c out} (n : U64), Holds h ((p,c) ::ₘ out) → (calls.vrealloc p n h).Settled ∧
    ∀ q t, calls.vrealloc p n h = .done q t →
      ∃ d, d.length = n.toNat ∧ (∀ i < min c.length n.toNat, d[i]? = (c)[i]?) ∧
        Holds t ((q,d) ::ₘ out)
  vfree : ∀ {h p c out}, Holds h ((p,c) ::ₘ out) → (calls.vfree p h).Settled ∧
    ∀ t, calls.vfree p h = .done () t → Holds t out

end Lios

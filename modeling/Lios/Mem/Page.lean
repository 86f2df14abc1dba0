import Lios.Mem.Pmm

/-! # Four-level page tables

Table pages are addressed by the kernel pointers through which the code reads
them, physical address plus `KERNEL_OFFSET`. The frames behind them come from an
allocator that is a parameter: mapping asks it for pages and unmapping gives
pages back, and neither looks at how it keeps them. Flushing a translation from
the TLB has no effect on memory and is left out.
-/
namespace Lios

abbrev TableIndex := BitVec 9

/-- The `u64 table[512]` of a PML4, PDPT, PDT or PT page. -/
abbrev PageTable := TableIndex → U64

/-- The calls `pmm_alloc_low` and `pmm_free` as the paging code sees them. -/
structure FrameAllocator (A : Type) where
  allocLow : A → Outcome A PhysicalAddress
  free : PhysicalAddress → A → Outcome A Unit

/-- The physical memory manager behind the paging code, with fuel for its search. -/
def pmmAllocator (fuel : ℕ) : FrameAllocator Pmm where
  allocLow := Pmm.pmmAllocLow
  free := Pmm.pmmFree fuel

structure Paging (A : Type) where
  pml4Addr : U64
  table : U64 → PageTable
  frames : A

namespace Paging

abbrev pml4ePdpePdePresent : U64 := 0x1#64
abbrev pml4ePdpePdeWritable : U64 := 0x2#64
abbrev pml4ePdpePdeUser : U64 := 0x4#64
abbrev ptePresent : U64 := 0x1#64
abbrev pteWritable : U64 := 0x2#64
abbrev pteUser : U64 := 0x4#64

def virtAddrGetPml4e (addr : U64) : TableIndex := ((addr >>> 39) &&& 0x1FF#64).setWidth 9
def virtAddrGetPdpe (addr : U64) : TableIndex := ((addr >>> 30) &&& 0x1FF#64).setWidth 9
def virtAddrGetPde (addr : U64) : TableIndex := ((addr >>> 21) &&& 0x1FF#64).setWidth 9
def virtAddrGetPte (addr : U64) : TableIndex := ((addr >>> 12) &&& 0x1FF#64).setWidth 9

/-- The bits of an entry that hold the address of a frame. -/
def addrMask : U64 := 0xFFFFFFFFFF000#64

/-- The helpers of the four levels differ only in their names. -/
def entrySetFlag (e flag : U64) : U64 := e ||| flag
def entryUnsetFlag (e flag : U64) : U64 := e &&& ~~~flag
def entryQueryFlag (e flag : U64) : Bool := (e &&& flag) == flag
def entryGetAddr (e : U64) : U64 := e &&& addrMask
def entrySetAddr (e addr : U64) : U64 := (e &&& ~~~addrMask) ||| (addr &&& addrMask)

abbrev pml4eQueryFlag := entryQueryFlag
abbrev pml4eGetAddr := entryGetAddr
abbrev pdpeQueryFlag := entryQueryFlag
abbrev pdpeGetAddr := entryGetAddr
abbrev pdeQueryFlag := entryQueryFlag
abbrev pdeGetAddr := entryGetAddr
abbrev pteSetFlag := entrySetFlag
abbrev pteUnsetFlag := entryUnsetFlag
abbrev pteQueryFlag := entryQueryFlag
abbrev pteGetAddr := entryGetAddr
abbrev pteSetAddr := entrySetAddr

variable {A : Type}

def framesLens (A : Type) : Lens (Paging A) A where
  get s := s.frames
  set f s := { s with frames := f }
  get_set _ _ := rfl
  set_get _ := rfl
  set_set _ _ _ := rfl

/-- The assignment `((PML4 *) tbl)->table[i] = e`. -/
def setEntry (s : Paging A) (tbl : U64) (i : TableIndex) (e : U64) : Paging A :=
  { s with table := Function.update s.table tbl (Function.update (s.table tbl) i e) }

def zeroPage (s : Paging A) (page : U64) : Paging A :=
  { s with table := Function.update s.table page (fun _ => 0#64) }

def kcallocPage (fa : FrameAllocator A) (s : Paging A) : Outcome (Paging A) U64 :=
  ((framesLens A).lift fa.allocLow s).bind fun addr s =>
    .done (addr + kernelOffset) (s.zeroPage (addr + kernelOffset))

def kfreePage (fa : FrameAllocator A) (addr : U64) (s : Paging A) : Outcome (Paging A) Unit :=
  (framesLens A).lift (fa.free (addr - kernelOffset)) s

def pageVirtToPhysAddr (s : Paging A) (virt : U64) : PhysicalAddress :=
  let pml4e := s.table s.pml4Addr (virtAddrGetPml4e virt)
  if !pml4eQueryFlag pml4e pml4ePdpePdePresent then 0#64 else
  let pdpe := s.table (pml4eGetAddr pml4e + kernelOffset) (virtAddrGetPdpe virt)
  if !pdpeQueryFlag pdpe pml4ePdpePdePresent then 0#64 else
  let pde := s.table (pdpeGetAddr pdpe + kernelOffset) (virtAddrGetPde virt)
  if !pdeQueryFlag pde pml4ePdpePdePresent then 0#64 else
  let pte := s.table (pdeGetAddr pde + kernelOffset) (virtAddrGetPte virt)
  if !pteQueryFlag pte ptePresent then 0#64 else
  pteGetAddr pte + (virt &&& (pageSize - 1#64))

/-- The flags of a new link, in the order in which `page_map` sets them. -/
def linkFlags (kernel : Bool) (e : U64) : U64 :=
  let e := entrySetFlag e pml4ePdpePdePresent
  let e := entrySetFlag e pml4ePdpePdeWritable
  if kernel then entryUnsetFlag e pml4ePdpePdeUser else entrySetFlag e pml4ePdpePdeUser

/-- One of the three levels of `page_map`: the table behind an entry, which is
allocated, linked and given its flags when the entry is not present. -/
def nextTable (fa : FrameAllocator A) (kernel : Bool) (tbl : U64) (i : TableIndex)
    (s : Paging A) : Outcome (Paging A) U64 :=
  if !entryQueryFlag (s.table tbl i) pml4ePdpePdePresent then
    (kcallocPage fa s).bind fun page s =>
      .done page (s.setEntry tbl i
        (linkFlags kernel (entrySetAddr (s.table tbl i) (page - kernelOffset))))
  else .done (entryGetAddr (s.table tbl i) + kernelOffset) s

/-- The final update of `page_map`. -/
def leafEntry (kernel : Bool) (phys : PhysicalAddress) (e : U64) : U64 :=
  let e := pteSetAddr e phys
  let e := pteSetFlag e ptePresent
  let e := pteSetFlag e pteWritable
  if kernel then pteUnsetFlag e pteUser else pteSetFlag e pteUser

def pageMap (fa : FrameAllocator A) (virt : U64) (phys : PhysicalAddress) (kernel : Bool)
    (s : Paging A) : Outcome (Paging A) Unit :=
  (nextTable fa kernel s.pml4Addr (virtAddrGetPml4e virt) s).bind fun pdptAddr s =>
  (nextTable fa kernel pdptAddr (virtAddrGetPdpe virt) s).bind fun pdtAddr s =>
  (nextTable fa kernel pdtAddr (virtAddrGetPde virt) s).bind fun ptAddr s =>
  .done () (s.setEntry ptAddr (virtAddrGetPte virt)
    (leafEntry kernel phys (s.table ptAddr (virtAddrGetPte virt))))

/-- The scan of `page_unmap` for an entry other than `i` that is present. -/
def usedElsewhere (t : PageTable) (i : TableIndex) : Bool :=
  (List.range 512).any fun k =>
    entryQueryFlag (t (BitVec.ofNat 9 k)) pml4ePdpePdePresent && BitVec.ofNat 9 k != i

/-- The tables that `page_unmap` gives back, outermost first. -/
def releaseTables (fa : FrameAllocator A) (pdptUsed pdtUsed ptUsed : Bool)
    (pdptAddr pdtAddr ptAddr : U64) (s : Paging A) : Outcome (Paging A) Unit :=
  (if !pdptUsed && !pdtUsed && !ptUsed then kfreePage fa pdptAddr s else .done () s).bind fun _ s =>
  (if !pdtUsed && !ptUsed then kfreePage fa pdtAddr s else .done () s).bind fun _ s =>
  if !ptUsed then kfreePage fa ptAddr s else .done () s

def pageUnmap (fa : FrameAllocator A) (virt : U64) (s : Paging A) : Outcome (Paging A) Unit :=
  let pml4e := s.table s.pml4Addr (virtAddrGetPml4e virt)
  if !pml4eQueryFlag pml4e pml4ePdpePdePresent then .done () s else
  let pdptAddr := pml4eGetAddr pml4e + kernelOffset
  let pdpe := s.table pdptAddr (virtAddrGetPdpe virt)
  if !pdpeQueryFlag pdpe pml4ePdpePdePresent then .done () s else
  let pdtAddr := pdpeGetAddr pdpe + kernelOffset
  let pde := s.table pdtAddr (virtAddrGetPde virt)
  if !pdeQueryFlag pde pml4ePdpePdePresent then .done () s else
  let ptAddr := pdeGetAddr pde + kernelOffset
  let pdptUsed := usedElsewhere (s.table pdptAddr) (virtAddrGetPdpe virt)
  let pdtUsed := usedElsewhere (s.table pdtAddr) (virtAddrGetPde virt)
  let ptUsed := usedElsewhere (s.table ptAddr) (virtAddrGetPte virt)
  (releaseTables fa pdptUsed pdtUsed ptUsed pdptAddr pdtAddr ptAddr s).bind fun _ s =>
  if !pteQueryFlag (s.table ptAddr (virtAddrGetPte virt)) ptePresent then .done () s
  else .done () (s.setEntry ptAddr (virtAddrGetPte virt) 0#64)

end Paging

end Lios

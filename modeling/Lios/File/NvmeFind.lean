import Lios.Lib.ByteStore
import Lios.Lib.Loops
import Lios.Mem.Page

/-! # The search for the NVMe controller

`nvme_find` maps the configuration space of an entry of the MCFG table, looks at its functions one
after the other for the class of an NVMe controller, unmaps the space and maps the registers of
the controller instead. The memory of the functions is read through the page tables; an address
that they do not translate is a fault. Messages are left out.
-/
namespace Lios.Pci
variable {A : Type}

/-- The page tables and the physical memory, with the configuration spaces. -/
structure Machine (A : Type) where
  paging : Paging A
  phys : PhysicalAddress → U8

/-- The fields of `struct MCFGEntry` that are used. -/
structure MCFGEntry where
  addr : U64
  startPci : U8
  endPci : U8

/-- The length in the header of an MCFG table, and the entries behind it in memory. -/
structure MCFG where
  length : U32
  entries : ℕ → MCFGEntry

def virtAddr : U64 := 0xFFFF900000000000#64

/-- The number of pages that a configuration space can have. -/
def spacePages : U64 := 0x10000000#64 / pageSize

def pagingLens (A : Type) : Lens (Machine A) (Paging A) where
  get m := m.paging
  set p m := { m with paging := p }
  get_set _ _ := rfl
  set_get _ := rfl
  set_set _ _ _ := rfl

/-- The page of the address is mapped: the translation of its last byte is never 0. -/
def Mapped (s : Paging A) (virt : U64) : Prop := s.pageVirtToPhysAddr (virt ||| 0xFFF#64) ≠ 0#64

instance (s : Paging A) (virt : U64) : Decidable (Mapped s virt) :=
  inferInstanceAs (Decidable (_ ≠ _))

/-- The field of `w` bits at an address; it does not go beyond its page. -/
def loadField (w : ℕ) (virt : U64) (m : Machine A) : Outcome (Machine A) (BitVec w) :=
  if Mapped m.paging virt then
    .done ((load m.phys (m.paging.pageVirtToPhysAddr virt)).setWidth w) m
  else .fault m

def storeU16 (virt : U64) (value : U16) (m : Machine A) : Outcome (Machine A) Unit :=
  let bytes := [value.setWidth 8,(value >>> 8).setWidth 8]
  if Mapped m.paging virt then
    .done () { m with phys := store m.phys (m.paging.pageVirtToPhysAddr virt) bytes }
  else .fault m

/-- The shifts are done in an `int`. -/
def pciGetAddr (base : U64) (bus device function offset : U8) : U64 :=
  (bus.setWidth 32 <<< 20 ||| device.setWidth 32 <<< 15 |||
    function.setWidth 32 <<< 12).signExtend 64 + base + offset.setWidth 64

/-- The body of the innermost loop, with the offsets of `struct PCIHeader`. For a controller it is
left with the base address; bus mastering and the memory space are then enabled. -/
def checkFunction (header : U64) (m : Machine A) : Outcome (Machine A) (Option U64) :=
  (loadField 16 header m).bind fun vendorId m =>
  if vendorId = 0xFFFF#16 then .done none m
  else
    (loadField 8 (header + 11#64) m).bind fun classCode m =>
    (loadField 8 (header + 10#64) m).bind fun subclass m =>
    (loadField 8 (header + 9#64) m).bind fun progIf m =>
    if classCode = 1#8 ∧ subclass = 8#8 ∧ progIf = 2#8 then
      (loadField 32 (header + 16#64) m).bind fun bar0 m =>
      (loadField 32 (header + 20#64) m).bind fun bar1 m =>
      let nvmeBaseAddr := bar1.setWidth 64 <<< 32 ||| (bar0 &&& 0xFFFFFFF0#32).setWidth 64
      (loadField 16 (header + 4#64) m).bind fun command m =>
      (storeU16 (header + 4#64) (command ||| 6#16) m).bind fun _ m =>
      (loadField 16 (header + 4#64) m).bind fun command m =>
      (storeU16 (header + 4#64) (command &&& ~~~(1#16 <<< 10)) m).bind fun _ m =>
      .done (some nvmeBaseAddr) m
    else .done none m

/-- The three loops over a configuration space. -/
def scanSpace (entry : MCFGEntry) : Machine A → Outcome (Machine A) (Option U64) :=
  .firstSome (fun bus => .firstSome (fun device => .firstSome (fun function =>
    checkFunction (pciGetAddr virtAddr (.ofNat 8 bus) (.ofNat 8 device) (.ofNat 8 function) 0#8))
      (List.range 8)) (List.range 32))
    (List.range' entry.startPci.toNat (entry.endPci.toNat + 1 - entry.startPci.toNat))

variable (fa : FrameAllocator A)

def mapSpace (entry : MCFGEntry) : Paging A → Outcome (Paging A) Unit :=
  .forTo spacePages fun i =>
    Paging.pageMap fa (virtAddr + i * pageSize) (entry.addr + i * pageSize) true

def unmapSpace : Paging A → Outcome (Paging A) Unit :=
  .forTo spacePages fun i => Paging.pageUnmap fa (virtAddr + i * pageSize)

/-- The body of the loop over the entries. What follows the label `found_nvme_device` is also run
when nothing was found. -/
def findInEntry (entry : MCFGEntry) (m : Machine A) : Outcome (Machine A) U64 :=
  ((pagingLens A).lift (mapSpace fa entry) m).bind fun _ m =>
  (scanSpace entry m).bind fun found m =>
  let nvmeBaseAddr := found.getD 0#64
  ((pagingLens A).lift (unmapSpace fa) m).bind fun _ m =>
  ((pagingLens A).lift (Paging.pageMap fa virtAddr nvmeBaseAddr true) m).bind fun _ m =>
  ((pagingLens A).lift (Paging.pageMap fa (virtAddr + 0x1000#64) (nvmeBaseAddr + 0x1000#64) true)
    m).bind fun _ m =>
  .done virtAddr m

/-- The loop over the entries, with the rounds left. Its body ends with a `return`, so there is no
second round. -/
def findFrom (mcfg : MCFG) : ℕ → ℕ → Machine A → Outcome (Machine A) U64
  | 0,_,m => .done 0#64 m
  | _ + 1,i,m => findInEntry fa (mcfg.entries i) m

/-- The header of the table has 44 bytes and an entry 16. -/
def nvmeFind (mcfg : MCFG) : Machine A → Outcome (Machine A) U64 :=
  findFrom fa mcfg ((mcfg.length.setWidth 64 - 44#64) / 16#64).toNat 0

end Lios.Pci

import Lios.File.Fat32
import Lios.Mem.PageSpace
import Lios.Util.Kmath

/-! # Loading programs

`elf_load` reads a file into a buffer of the heap, checks its header, and maps and fills the
pages of each loadable segment and of the stack. Memory is read and written through the page
tables. An address that is not canonical, or that they do not translate or translate to 0, is
a fault. The tables themselves are kept apart from the bytes of the physical memory. The file
system, the heap and the allocator of the frames are parameters. The arrays of page frames and
of segments lie in blocks of the heap and are lists here; messages and dumps are left out.
-/
namespace Lios

/-- The page tables, the heap and the physical memory. -/
structure Machine (A H : Type) where
  paging : Paging A
  heap : H
  phys : PhysicalAddress → U8

/-- The calls into the other components. -/
structure ElfCalls (A H : Type) where
  frames : FrameAllocator A
  pmmAllocHigh : Paging A → Outcome (Paging A) PhysicalAddress
  vmalloc : U64 → Machine A H → Outcome (Machine A H) U64
  vcalloc : U64 → Machine A H → Outcome (Machine A H) U64
  vfree : U64 → Machine A H → Outcome (Machine A H) Unit
  fat32Open : List U8 → List U8 → Machine A H → Outcome (Machine A H) Fat32.OpenResult
  fat32Read : U32 → U32 → U64 → Machine A H → Outcome (Machine A H) U32

/-- What `elf_load` does to memory through the pointers that it takes from the file, and the
pages that it maps. -/
inductive Access where
  | read (virt len : U64)
  | map (virt : U64)
  | write (virt len : U64)
  | stack (virt : U64)
  deriving DecidableEq

/-- The machine and what the loader has done to it so far. -/
structure Loader (A H : Type) where
  machine : Machine A H
  trace : List Access

/-- The fields of `struct ELF_Header` that the loader uses. -/
structure ElfHeader where
  eIdent : List U8
  eType : U16
  eMachine : U16
  eVersion : U32
  eEntry : U64
  ePhoff : U64
  eEhsize : U16
  ePhnum : U16
  deriving DecidableEq

structure ElfProgramHeader where
  pType : U32
  pOffset : U64
  pVaddr : U64
  pFilesz : U64
  pMemsz : U64
  deriving DecidableEq

structure ElfSegmentMem where
  vaddr : U64
  numPages : U64
  pages : List PhysicalAddress
  deriving DecidableEq

structure ElfContext where
  fileBuffer : U64
  procStackPages : List PhysicalAddress
  segments : List ElfSegmentMem
  entryPoint : U64
  rbpRsp : U64
  stackSize : U64
  deriving DecidableEq

namespace Elf

def stackSize : U64 := 0x800000#64
def lowerHalfMemMax : U64 := 0x800000000000#64

/-- The context that a failed load returns. -/
def noContext : ElfContext := ⟨0#64,[],[],0#64,0#64,0#64⟩

/-- A word of `w` bits, the lowest byte first. -/
def word (w : ℕ) (bs : List U8) : BitVec w :=
  bs.foldr (fun b v => v <<< 8 ||| b.setWidth w) 0#w

/-- The fields of a header at their offsets. -/
def headerOf (bs : List U8) : ElfHeader where
  eIdent := bs.take 16
  eType := word 16 ((bs.drop 16).take 2)
  eMachine := word 16 ((bs.drop 18).take 2)
  eVersion := word 32 ((bs.drop 20).take 4)
  eEntry := word 64 ((bs.drop 24).take 8)
  ePhoff := word 64 ((bs.drop 32).take 8)
  eEhsize := word 16 ((bs.drop 52).take 2)
  ePhnum := word 16 ((bs.drop 56).take 2)

def programHeaderOf (bs : List U8) : ElfProgramHeader where
  pType := word 32 (bs.take 4)
  pOffset := word 64 ((bs.drop 8).take 8)
  pVaddr := word 64 ((bs.drop 16).take 8)
  pFilesz := word 64 ((bs.drop 32).take 8)
  pMemsz := word 64 ((bs.drop 40).take 8)

/-- The checks of the header: a 64-bit little-endian executable for AMD64. -/
def isAccepted (h : ElfHeader) : Bool :=
  (h.eIdent.take 7 == [0x7F#8,0x45#8,0x4C#8,0x46#8,2#8,1#8,1#8]) && h.eType == 2#16 &&
    h.eMachine == 0x3E#16 && h.eVersion == 1#32 && h.eEhsize == 64#16

section Model
variable {A H : Type}

/-- The physical address behind a virtual one, 0 if there is none. -/
def translate (m : Machine A H) (v : U64) : PhysicalAddress :=
  if Paging.Canonical v then m.paging.pageVirtToPhysAddr v else 0#64

def loadByte (v : U64) (m : Machine A H) : Outcome (Machine A H) U8 :=
  if translate m v = 0#64 then .fault m else .done (m.phys (translate m v)) m

def storeByte (v : U64) (b : U8) (m : Machine A H) : Outcome (Machine A H) Unit :=
  if translate m v = 0#64 then .fault m
  else .done () { m with phys := Function.update m.phys (translate m v) b }

def loadBytes : ℕ → U64 → Machine A H → Outcome (Machine A H) (List U8)
  | 0,_,m => .done [] m
  | n + 1,v,m =>
    (loadByte v m).bind fun b m =>
    (loadBytes n (v + 1#64) m).bind fun bs m => .done (b :: bs) m

def memcpy (dest src : U64) : ℕ → Machine A H → Outcome (Machine A H) Unit
  | 0,m => .done () m
  | n + 1,m =>
    (loadByte src m).bind fun b m =>
    (storeByte dest b m).bind fun _ m => memcpy (dest + 1#64) (src + 1#64) n m

def memset (dest : U64) (val : U8) : ℕ → Machine A H → Outcome (Machine A H) Unit
  | 0,m => .done () m
  | n + 1,m => (storeByte dest val m).bind fun _ m => memset (dest + 1#64) val n m

def pagingLens (A H : Type) : Lens (Machine A H) (Paging A) where
  get m := m.paging
  set p m := { m with paging := p }
  get_set _ _ := rfl
  set_get _ := rfl
  set_set _ _ _ := rfl

def machineLens (A H : Type) : Lens (Loader A H) (Machine A H) where
  get l := l.machine
  set m l := { l with machine := m }
  get_set _ _ := rfl
  set_get _ := rfl
  set_set _ _ _ := rfl

/-- A step that goes into the trace. -/
def noted {α : Type} (access : Access) (f : Machine A H → Outcome (Machine A H) α)
    (l : Loader A H) : Outcome (Loader A H) α :=
  (machineLens A H).lift f { l with trace := l.trace ++ [access] }

/-- A structure of `n` bytes is read at once. -/
def readStruct (virt : U64) (n : ℕ) : Loader A H → Outcome (Loader A H) (List U8) :=
  noted (.read virt (BitVec.ofNat 64 n)) (loadBytes n virt)

variable (calls : ElfCalls A H)

/-- A page of a fresh frame. -/
def mapPage (access : U64 → Access) (virt : U64) (l : Loader A H) :
    Outcome (Loader A H) PhysicalAddress :=
  ((machineLens A H).lift ((pagingLens A H).lift calls.pmmAllocHigh) l).bind fun frame l =>
  (noted (access virt) ((pagingLens A H).lift (Paging.pageMap calls.frames virt frame false))
    l).bind fun _ l => .done frame l

/-- The loops that map `k` pages, from the index `j` on. -/
def mapPages (access : U64 → Access) (virt : U64) :
    ℕ → U64 → Loader A H → Outcome (Loader A H) (List PhysicalAddress)
  | 0,_,l => .done [] l
  | k + 1,j,l =>
    (mapPage calls access (virt + j * pageSize) l).bind fun frame l =>
    (mapPages access virt k (j + 1#64) l).bind fun frames l => .done (frame :: frames) l

/-- The body of the segment loop for a header of type `PT_LOAD`. -/
def loadSegment (fileBuffer : U64) (ph : ElfProgramHeader) (l : Loader A H) :
    Outcome (Loader A H) ElfSegmentMem :=
  let segmentNumPages := ceilU64Div ph.pMemsz pageSize
  ((machineLens A H).lift (calls.vmalloc (segmentNumPages * 8#64)) l).bind fun _ l =>
  (mapPages calls .map ph.pVaddr segmentNumPages.toNat 0#64 l).bind fun pages l =>
  let l := { l with trace := l.trace ++ [.read (fileBuffer + ph.pOffset) ph.pFilesz] }
  (noted (.write ph.pVaddr ph.pFilesz)
    (memcpy ph.pVaddr (fileBuffer + ph.pOffset) ph.pFilesz.toNat) l).bind fun _ l =>
  (noted (.write (ph.pVaddr + ph.pFilesz) (ph.pMemsz - ph.pFilesz))
    (memset (ph.pVaddr + ph.pFilesz) 0#8 (ph.pMemsz - ph.pFilesz).toNat) l).bind fun _ l =>
  .done ⟨ph.pVaddr,segmentNumPages,pages⟩ l

/-- The address of `ph[i]`. -/
def phAddr (ph : U64) (i : U16) : U64 := ph + i.setWidth 64 * 56#64

/-- The loop that counts the segments; only the type of a header is read. -/
def countSegments (ph : U64) : ℕ → U16 → U64 → Loader A H → Outcome (Loader A H) U64
  | 0,_,num,l => .done num l
  | k + 1,i,num,l =>
    (readStruct (phAddr ph i) 4 l).bind fun bs l =>
    countSegments ph k (i + 1#16) (if word 32 bs = 1#32 then num + 1#64 else num) l

def loadSegments (fileBuffer ph : U64) :
    ℕ → U16 → Loader A H → Outcome (Loader A H) (List ElfSegmentMem)
  | 0,_,l => .done [] l
  | k + 1,i,l =>
    (readStruct (phAddr ph i) 4 l).bind fun bs l =>
    if word 32 bs ≠ 1#32 then loadSegments fileBuffer ph k (i + 1#16) l
    else
      (readStruct (phAddr ph i) 56 l).bind fun bs l =>
      (loadSegment calls fileBuffer (programHeaderOf bs) l).bind fun segment l =>
      (loadSegments fileBuffer ph k (i + 1#16) l).bind fun segments l =>
      .done (segment :: segments) l

/-- The pages of the stack. -/
def loadStack (l : Loader A H) : Outcome (Loader A H) (List PhysicalAddress) :=
  let stackNumPages := stackSize / pageSize
  ((machineLens A H).lift (calls.vmalloc (stackNumPages * 8#64)) l).bind fun _ l =>
  mapPages calls .stack (lowerHalfMemMax - stackSize) stackNumPages.toNat 0#64 l

/-- The file in a buffer of the heap; the size of the buffer is 32 bits wide. -/
def elfRead (name ext : List U8) (m : Machine A H) : Outcome (Machine A H) (Option U64) :=
  (calls.fat32Open name ext m).bind fun fileData m =>
  if fileData.cluster = 0#32 then .done none m
  else
    (calls.vcalloc ((fileData.sizeOrError * 512#32).setWidth 64) m).bind fun fileBuffer m =>
    (calls.fat32Read fileData.cluster fileData.sizeOrError fileBuffer m).bind fun _ m =>
    .done (some fileBuffer) m

/-- The part of `elf_load` behind the reading of the file. -/
def elfLoadBuffer (fileBuffer : U64) (l : Loader A H) : Outcome (Loader A H) ElfContext :=
  (readStruct fileBuffer 64 l).bind fun bs l =>
  let header := headerOf bs
  if isAccepted header = false then
    ((machineLens A H).lift (calls.vfree fileBuffer) l).bind fun _ l => .done noContext l
  else
    let ph := fileBuffer + header.ePhoff
    (countSegments ph header.ePhnum.toNat 0#16 0#64 l).bind fun numValidSegments l =>
    ((machineLens A H).lift (calls.vcalloc (numValidSegments * 24#64)) l).bind fun _ l =>
    (loadSegments calls fileBuffer ph header.ePhnum.toNat 0#16 l).bind fun segments l =>
    (loadStack calls l).bind fun procStackPages l =>
    .done ⟨fileBuffer,procStackPages,segments,header.eEntry,lowerHalfMemMax,stackSize⟩ l

def elfLoad (name ext : List U8) (m : Machine A H) : Outcome (Loader A H) ElfContext :=
  ((machineLens A H).lift (elfRead calls name ext) ⟨m,[]⟩).bind fun file l =>
  match file with
  | none => .done noContext l
  | some fileBuffer => elfLoadBuffer calls fileBuffer l

end Model

end Elf

end Lios

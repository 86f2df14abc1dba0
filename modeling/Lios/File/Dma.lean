import Lios.Mem.Vmalloc
import Lios.File.Nvme
import Lios.File.Fat32New

/-! # The buffers of disk transfers

The functions that read and write the disk, over the heap from which they take their buffers and
the page tables through which `nvme_read` and `nvme_write` find the physical address of a buffer.
What the controller makes of a command is a parameter: it may change the heap and the page tables
in any way, depending on all commands so far, or never complete the command. A machine that waits
for ever is stopped there, so that one can speak about the transfers it has issued. No caller looks
at the results of the transfers. Log messages are left out.
-/
namespace Lios.Dma

abbrev Heap := Vmalloc (Vmm (Paging Pmm))

/-- A command, with the buffer it is for and the page tables at this time. -/
structure Transfer where
  buffer : U64
  tables : Paging Pmm
  entry : Nvme.SubmissionEntry

/-- The memory after the last of the commands, `none` if it is never completed. -/
abbrev Controller := List Transfer → Heap → Option Heap

structure State where
  heap : Heap
  fatSize : U32
  volumeFirstLba : U64
  volumeLastLba : U64
  fatStartLba : U64
  dataStartLba : U64
  rootDirLba : U64
  bpb : U64
  fat : U64
  issued : List Transfer

/-- The first and the last block of a partition. -/
structure Partition where
  firstLba : U64
  lastLba : U64

namespace State

def heapLens : Lens State Heap where
  get s := s.heap
  set h s := { s with heap := h }
  get_set _ _ := rfl
  set_get _ := rfl
  set_set _ _ _ := rfl

def tables (s : State) : Paging Pmm := s.heap.env.env

def setBytes (s : State) (bytes : U64 → U8) : State :=
  { s with heap := { s.heap with bytes := bytes } }

def u64At (s : State) (a : U64) : U64 := load s.heap.bytes a
def u32At (s : State) (a : U64) : U32 := (s.u64At a).setWidth 32
def u16At (s : State) (a : U64) : U16 := (s.u64At a).setWidth 16
def u8At (s : State) (a : U64) : U8 := s.heap.bytes a

/-- The entry `FAT[i]`. -/
def fatEntry (s : State) (i : U64) : U32 := s.u32At (s.fat + 4#64 * i)

/-- The block in the buffer at `a`. -/
def sectorAt (s : State) (a : U64) : Sector :=
  Vector.ofFn fun j => s.heap.bytes (a + BitVec.ofNat 64 j.val)

end State

def vmmCalls (fuel : ℕ) : VmmCalls (Vmm (Paging Pmm)) := kernelVmmCalls (kernelPageCalls fuel) fuel

def vcalloc (fuel : ℕ) (size : U64) : State → Outcome State U64 :=
  State.heapLens.lift (Vmalloc.vcalloc (vmmCalls fuel) fuel size)

def vfree (fuel : ℕ) (mem : U64) : State → Outcome State Unit :=
  State.heapLens.lift (Vmalloc.vfree (vmmCalls fuel) fuel mem)

/-- The command is handed to the controller and the call waits for its completion. -/
def submit (ctl : Controller) (buffer : U64) (entry : Nvme.SubmissionEntry) (s : State) :
    Outcome State Unit :=
  let issued := s.issued ++ [⟨buffer,s.tables,entry⟩]
  match ctl issued s.heap with
  | none => .fault { s with issued := issued }
  | some heap => .done () { s with heap := heap, issued := issued }

def nvmeRead (ctl : Controller) (lbaStart : U64) (numLbas : U16) (buffer : U64) (s : State) :
    Outcome State Unit :=
  submit ctl buffer (Nvme.nvmeReadEntry lbaStart numLbas (s.tables.pageVirtToPhysAddr buffer)) s

def nvmeWrite (ctl : Controller) (lbaStart : U64) (numLbas : U16) (buffer : U64) (s : State) :
    Outcome State Unit :=
  submit ctl buffer (Nvme.nvmeWriteEntry lbaStart numLbas (s.tables.pageVirtToPhysAddr buffer)) s

/-! The partition table. -/

def nvmeLbaSize : U64 := 512#64

/-- The entries of one block, from the address `entry` on, with the number of entries left. -/
def scanEntries (fuel : ℕ) (header entries : U64) :
    ℕ → U64 → Partition → State → Outcome State Partition
  | 0,_,part,s => .done part s
  | rounds + 1,entry,part,s =>
    -- no partition
    if s.u64At entry = 0#64 ∧ s.u64At (entry + 8#64) = 0#64 then
      scanEntries fuel header entries rounds (entry + 128#64) part s
    -- not a Microsoft basic data partition
    else if s.u64At entry ≠ 0x4433B9E5EBD0A0A2#64 ∨
        s.u64At (entry + 8#64) ≠ 0xC79926B7B668C087#64 then
      scanEntries fuel header entries rounds (entry + 128#64) part s
    else if part.firstLba ≠ 0#64 ∨ part.lastLba ≠ 0#64 then
      (vfree fuel header s).bind fun _ s =>
      (vfree fuel entries s).bind fun _ s =>
      .panic "gpt: more than 1 FAT partition found! (not yet supported)" s
    else
      scanEntries fuel header entries rounds (entry + 128#64)
        ⟨s.u64At (entry + 32#64),s.u64At (entry + 40#64)⟩ s

/-- The loop over the blocks of the partition array, with the number of blocks left. -/
def scanBlocks (ctl : Controller) (fuel : ℕ) (header entries : U64) :
    ℕ → U32 → Partition → State → Outcome State Partition
  | 0,_,part,s => .done part s
  | rounds + 1,i,part,s =>
    (nvmeRead ctl (i.setWidth 64) 1#16 entries s).bind fun _ s =>
    (scanEntries fuel header entries 4 entries part s).bind fun part s =>
    scanBlocks ctl fuel header entries rounds (i + 1#32) part s

/-- The tests of the header, with the entry size tested twice. -/
def badHeader (s : State) (header : U64) : Prop :=
  s.u64At (header + 72#64) ≠ 2#64 ∨ s.u32At (header + 84#64) ≠ 128#32 ∨
    s.u32At (header + 84#64) ≠ 128#32 ∨ s.u64At (header + 24#64) ≠ 1#64 ∨
    s.u32At (header + 12#64) ≠ 92#32

instance (s : State) (header : U64) : Decidable (badHeader s header) :=
  inferInstanceAs (Decidable (_ ∨ _))

def gptRead (ctl : Controller) (fuel : ℕ) (s : State) : Outcome State Partition :=
  (vcalloc fuel nvmeLbaSize s).bind fun header s =>
  (nvmeRead ctl 1#64 1#16 header s).bind fun _ s =>
  if s.u64At header ≠ 0x5452415020494645#64 then .panic "gpt: no header found at LBA 1" s
  else if badHeader s header then .panic "gpt: unknown error" s
  else
    (vcalloc fuel nvmeLbaSize s).bind fun entries s =>
    (scanBlocks ctl fuel header entries 32 2#32 ⟨0#64,0#64⟩ s).bind fun part s =>
    (vfree fuel header s).bind fun _ s =>
    (vfree fuel entries s).bind fun _ s =>
    if part.firstLba = 0#64 ∧ part.lastLba = 0#64 then .panic "gpt: no FAT partition found!" s
    else .done part s

/-! The file system. -/

/-- The reading loop of `update_FAT` with the number of rounds left. The product `i * 512` is
32 bits wide. -/
def readFAT (ctl : Controller) : ℕ → U32 → State → Outcome State Unit
  | 0,_,s => .done () s
  | rounds + 1,i,s =>
    (nvmeRead ctl (s.fatStartLba + i.setWidth 64) 1#16
      (s.fat + (i * 512#32).setWidth 64) s).bind fun _ s =>
    readFAT ctl rounds (i + 1#32) s

/-- The product of the size with 512 is 32 bits wide, the one with the size of an entry 64. -/
def fatBytes (s : State) : U64 := (512#32 * s.fatSize).setWidth 64 * 4#64

def updateFAT (ctl : Controller) (s : State) : Outcome State Unit :=
  let s := s.setBytes (memset 0#32 (fatBytes s).toNat s.fat s.heap.bytes)
  readFAT ctl s.fatSize.toNat 0#32 s

def findFreeFATCluster (s : State) : U32 :=
  match (List.range (s.fatSize * 512#32).toNat).find? fun i =>
      s.fatEntry (BitVec.ofNat 64 i) == 0#32 with
  | some i => BitVec.ofNat 32 i
  | none => 0#32

/-- The tests of the BIOS parameter block, in their order. -/
def checkBpb (s : State) : Option String :=
  let bpb := s.bpb
  if ¬(s.u8At bpb = 0xEB#8 ∧ s.u8At (bpb + 2#64) = 0x90#8) ∧ s.u8At bpb ≠ 0xE9#8 then
    some "FAT32: incorrect BS_jmpBoot!"
  else if s.u16At (bpb + 11#64) ≠ 512#16 then
    some "FAT32: only 512 bytes per sector supported!"
  else if s.u8At (bpb + 16#64) ≠ 2#8 then some "FAT32: only 2 FATs supported!"
  else if s.u8At (bpb + 13#64) ≠ 1#8 then some "FAT32: only 1 sector per cluster supported!"
  else if s.u16At (bpb + 19#64) ≠ 0#16 ∨ s.u16At (bpb + 22#64) ≠ 0#16 ∨
      s.u32At (bpb + 32#64) = 0#32 then
    some "FAT32: appears to be FAT12/16?"
  else if s.u16At (bpb + 510#64) ≠ 0xAA55#16 then some "FAT32: incorrect signature word!"
  else none

/-- The globals as the parameter block has them. -/
def readBpb (s : State) : State :=
  let fatSize := s.u32At (s.bpb + 36#64)
  let fatStartLba := s.volumeFirstLba + (s.u16At (s.bpb + 14#64)).setWidth 64
  { s with
    fatSize := fatSize
    fatStartLba := fatStartLba
    dataStartLba := fatStartLba + (fatSize * 2#32).setWidth 64
    rootDirLba := (s.u32At (s.bpb + 44#64)).setWidth 64 }

def fat32Init (ctl : Controller) (fuel : ℕ) (part : Partition) (s : State) : Outcome State Unit :=
  (vcalloc fuel 512#64 { s with
    volumeFirstLba := part.firstLba, volumeLastLba := part.lastLba }).bind fun bpb s =>
  (nvmeRead ctl part.firstLba 1#16 bpb { s with bpb := bpb }).bind fun _ s =>
  match checkBpb s with
  | some message => .panic message s
  | none =>
    (vcalloc fuel (fatBytes (readBpb s)) (readBpb s)).bind fun fat s =>
    updateFAT ctl { s with fat := fat }

/-- What `check_directory_entry_for_file` finds in a block of the directory. -/
def entryFor (directory : Sector) (name ext : List U8) : U32 :=
  let want := Fat32.wantStr name ext
  match (List.range 16).find? fun i =>
      Fat32.strncmp (Fat32.dirName directory i) (fun j => want.getD j 0#8) 11 == 0#32 with
  | some i => (Fat32.dirFstClusHI directory i).setWidth 32 <<< 16 |||
      (Fat32.dirFstClusLO directory i).setWidth 32
  | none => 0#32

def checkDirectoryEntryForFile (ctl : Controller) (fuel : ℕ) (sectorNum : U32)
    (name ext : List U8) (s : State) : Outcome State U32 :=
  (vcalloc fuel 512#64 s).bind fun directory s =>
  (nvmeRead ctl ((sectorNum - 2#32).setWidth 64 + s.dataStartLba) 1#16 directory s).bind fun _ s =>
  let returnVal := entryFor (s.sectorAt directory) name ext
  (vfree fuel directory s).bind fun _ s => .done returnVal s

/-- The loop of `get_cluster_num` over the clusters of the root directory. -/
def searchDirectory (ctl : Controller) (fuel : ℕ) (name ext : List U8) :
    ℕ → U64 → State → Outcome State U32
  | 0,_,_ => .spin
  | rounds + 1,directoryCluster,s =>
    (checkDirectoryEntryForFile ctl fuel (directoryCluster.setWidth 32) name ext s).bind
      fun fileCluster s =>
    if fileCluster ≠ 0#32 then .done fileCluster s
    else if s.fatEntry directoryCluster = 0#32 then .panic "FAT32: broken FAT!" s
    else if Fat32.isEndingCluster (s.fatEntry directoryCluster) then .done 0#32 s
    else searchDirectory ctl fuel name ext rounds ((s.fatEntry directoryCluster).setWidth 64) s

def getClusterNum (ctl : Controller) (fuel : ℕ) (name ext : List U8) (s : State) :
    Outcome State U32 :=
  if 8 < name.length then .done 0#32 s
  else if 3 < ext.length then .done 0#32 s
  else searchDirectory ctl fuel name ext fuel s.rootDirLba s

/-- The loop of `fat32_read` with the number of rounds left. -/
def readLoop (ctl : Controller) (size : U32) (buffer : U64) :
    ℕ → U32 → U32 → State → Outcome State U32
  | 0,_,cluster,s => .done (if Fat32.isEndingCluster cluster then 0#32 else 1#32) s
  | rounds + 1,i,cluster,s =>
    let sector : U32 := (s.dataStartLba + cluster.setWidth 64 - 2#64).setWidth 32
    let next := if i < size - 1#32 then s.fatEntry (cluster.setWidth 64) else cluster
    if i < size - 1#32 ∧ Fat32.isEndingCluster cluster then .done 1#32 s
    else
      (nvmeRead ctl (sector.setWidth 64) 1#16 (buffer + (i * 512#32).setWidth 64) s).bind fun _ s =>
      readLoop ctl size buffer rounds (i + 1#32) next s

def fat32Read (ctl : Controller) (cluster size : U32) (buffer : U64) (s : State) :
    Outcome State U32 :=
  readLoop ctl size buffer size.toNat 0#32 cluster s

/-- The loop of `fat32_new_file` over the clusters of the root directory: where it stops, and the
slot it found. -/
def findSlot (ctl : Controller) (directory : U64) : ℕ → U64 → State → Outcome State (U64 × ℕ)
  | 0,_,_ => .spin
  | rounds + 1,currentCluster,s =>
    (nvmeRead ctl (currentCluster - 2#64 + s.dataStartLba) 1#16 directory s).bind fun _ s =>
    if Fat32.usableIndex (s.sectorAt directory) ≠ 16 then
      .done (currentCluster,Fat32.usableIndex (s.sectorAt directory)) s
    else if s.fatEntry currentCluster = 0#32 then .panic "FAT32: broken FAT!" s
    else if Fat32.isEndingCluster (s.fatEntry currentCluster) then
      .done ((s.fatEntry currentCluster).setWidth 64,16) s
    else findSlot ctl directory rounds ((s.fatEntry currentCluster).setWidth 64) s

/-- The assignment `FAT[c] = 0xFFFFFFF`. -/
def markUsed (c : U32) (s : State) : State :=
  s.setBytes (store s.heap.bytes (s.fat + 4#64 * c.setWidth 64) (Fat32.u32Bytes 0xFFFFFFF#32))

/-- The assignment `directory[i] = entry`; the slot 16 lies behind the buffer. -/
def putEntry (directory : U64) (i : ℕ) (entry : Fat32.FATDirectoryEntry) (s : State) : State :=
  s.setBytes (store s.heap.bytes (directory + BitVec.ofNat 64 (32 * i)) entry.bytes)

/-- The three writes at the end of `fat32_new_file`. -/
def writeBack (ctl : Controller) (fuel : ℕ) (fileFirstCluster : U32)
    (currentCluster directory : U64) (s : State) : Outcome State Unit :=
  (nvmeWrite ctl (s.fatStartLba + (fileFirstCluster / 512#32).setWidth 64) 1#16
    (s.fat + fileFirstCluster.setWidth 64 - (fileFirstCluster % 512#32).setWidth 64) s).bind
      fun _ s =>
  (nvmeWrite ctl (currentCluster - 2#64 + s.dataStartLba) 1#16 directory s).bind fun _ s =>
  (vcalloc fuel 512#64 s).bind fun empty s =>
  (nvmeWrite ctl ((fileFirstCluster - 2#32).setWidth 64 + s.dataStartLba) 1#16 empty s).bind
    fun _ s =>
  (vfree fuel empty s).bind fun _ s =>
  vfree fuel directory s

def fat32NewFile (ctl : Controller) (fuel : ℕ) (name ext : List U8) (s : State) :
    Outcome State Fat32.NewFileResult :=
  if 8 < name.length then .done (.failed .nameTooLong) s
  else if 3 < ext.length then .done (.failed .extTooLong) s
  else
    (getClusterNum ctl fuel name ext s).bind fun fileSector s =>
    if fileSector ≠ 0#32 then .done (.failed .fileExists) s
    else
      let fileFirstCluster := findFreeFATCluster s
      (vcalloc fuel 512#64 (markUsed fileFirstCluster s)).bind fun directory s =>
      (findSlot ctl directory fuel s.rootDirLba s).bind fun found s =>
      (writeBack ctl fuel fileFirstCluster found.1 directory
        (putEntry directory found.2 (Fat32.newEntry name ext fileFirstCluster) s)).bind fun _ s =>
      .done ⟨0#32,0#32⟩ s

/-- The functions that issue transfers. -/
inductive Call where
  | gptRead
  | fat32Init (part : Partition)
  | updateFAT
  | checkDirectoryEntryForFile (sectorNum : U32) (name ext : List U8)
  | getClusterNum (name ext : List U8)
  | fat32Read (cluster size : U32) (buffer : U64)
  | fat32NewFile (name ext : List U8)

/-- The call, without its result. -/
def Call.run (ctl : Controller) (fuel : ℕ) : Call → State → Outcome State Unit
  | gptRead,s => (Dma.gptRead ctl fuel s).bind fun _ s => .done () s
  | fat32Init part,s => Dma.fat32Init ctl fuel part s
  | updateFAT,s => Dma.updateFAT ctl s
  | checkDirectoryEntryForFile sectorNum name ext,s =>
    (Dma.checkDirectoryEntryForFile ctl fuel sectorNum name ext s).bind fun _ s => .done () s
  | getClusterNum name ext,s =>
    (Dma.getClusterNum ctl fuel name ext s).bind fun _ s => .done () s
  | fat32Read cluster size buffer,s =>
    (Dma.fat32Read ctl cluster size buffer s).bind fun _ s => .done () s
  | fat32NewFile name ext,s => (Dma.fat32NewFile ctl fuel name ext s).bind fun _ s => .done () s

end Lios.Dma

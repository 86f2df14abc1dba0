import Lios.Lib.WordTable
import Lios.File.Fat32

/-! # Creating a file on a FAT32 volume

The model of `update_FAT`, `find_free_FAT_cluster` and `fat32_new_file`. The table is
copied to and from the disk as a string of bytes, the lowest byte of an entry first.
The directory buffer has sixteen slots; a write to the slot behind them leaves the
buffer, and the model stops there.
-/
namespace Lios

/-- A volume with the position of its table and with the blocks at which `nvme_write`
succeeds. -/
structure WritableVolume extends Volume where
  fatStartLba : U64
  writable : U64 → Bool

namespace Fat32

/-- A failed transfer leaves the disk alone. No caller looks at the result. -/
def nvmeWrite (lba : U64) (s : Sector) (v : WritableVolume) : WritableVolume :=
  if v.writable lba then { v with disk := Function.update v.disk lba (some s) } else v

/-- `nvme_read` of one block to the offset `o` of the table. -/
def nvmeReadFAT (v : WritableVolume) (lba : U64) (o : ℕ) (fat : ℕ → U32) : ℕ → U32 :=
  match v.disk lba with
  | some s => tableStore fat o s.toList
  | none => fat

/-- The reading loop of `update_FAT` with the number of rounds left. The product
`i * 512` is 32 bits wide. -/
def readFAT (v : WritableVolume) : ℕ → U32 → (ℕ → U32) → ℕ → U32
  | 0,_,fat => fat
  | rounds + 1,i,fat => readFAT v rounds (i + 1#32)
      (nvmeReadFAT v (v.fatStartLba + i.setWidth 64) (i * 512#32).toNat fat)

/-- `memset` clears `512 * FAT_size` entries, four times as many as the disk holds. -/
def updateFAT (v : WritableVolume) : WritableVolume :=
  let cleared := fun k => if k < (512#32 * v.fatSize).toNat then 0#32 else v.fat k
  { v with fat := readFAT v v.fatSize.toNat 0#32 cleared }

def findFreeFATCluster (v : Volume) : U32 :=
  match (List.range (v.fatSize * 512#32).toNat).find? fun i => v.fat i == 0#32 with
  | some i => BitVec.ofNat 32 i
  | none => 0#32

/-- The name consists of the characters from 32 to 126; the code takes that for a slot
in use. -/
def isReadable (directory : Sector) (i : ℕ) : Bool :=
  (List.range 11).all fun j =>
    !(decide (dirName directory i j < 32#8) || decide (126#8 < dirName directory i j))

def usableIndex (directory : Sector) : ℕ :=
  ((List.range 16).find? fun i => !isReadable directory i).getD 16

/-- The loop of `fat32_new_file` over the clusters of the root directory: where it
stops, the slot it found and the buffer with the sector it read last. -/
def findSlot (v : WritableVolume) : ℕ → U64 → Sector → Outcome WritableVolume (U64 × ℕ × Sector)
  | 0,_,_ => .spin
  | fuel + 1,currentCluster,directory =>
    let directory := (v.disk (currentCluster - 2#64 + v.dataStartLba)).getD directory
    if usableIndex directory ≠ 16 then .done (currentCluster,usableIndex directory,directory) v else
    let next := v.fat currentCluster.toNat
    if next = 0#32 then .panic "FAT32: broken FAT!" v
    else if isEndingCluster next then .done (next.setWidth 64,16,directory) v
    else findSlot v fuel (next.setWidth 64) directory

structure FATDirectoryEntry where
  name : List U8
  attr : U8
  ntRes : U8
  crtTimeTenth : U8
  crtTime : U16
  crtDate : U16
  lstAccDate : U16
  fstClusHI : U16
  wrtTime : U16
  wrtDate : U16
  fstClusLO : U16
  fileSize : U32

def u16Bytes (x : U16) : List U8 := [x.setWidth 8,(x >>> 8).setWidth 8]

def u32Bytes (x : U32) : List U8 :=
  [x.setWidth 8,(x >>> 8).setWidth 8,(x >>> 16).setWidth 8,(x >>> 24).setWidth 8]

/-- The packed layout. -/
def FATDirectoryEntry.bytes (e : FATDirectoryEntry) : List U8 :=
  e.name ++ ([e.attr,e.ntRes,e.crtTimeTenth] ++ u16Bytes e.crtTime ++ u16Bytes e.crtDate ++
    u16Bytes e.lstAccDate ++ u16Bytes e.fstClusHI ++ u16Bytes e.wrtTime ++ u16Bytes e.wrtDate ++
    u16Bytes e.fstClusLO ++ u32Bytes e.fileSize)

/-- The high half keeps its place in the word and is then cut to 16 bits. -/
def newEntry (name ext : List U8) (fileFirstCluster : U32) : FATDirectoryEntry where
  name := wantStr name ext
  attr := 0x20#8
  ntRes := 0#8
  crtTimeTenth := 0#8
  crtTime := 0#16
  crtDate := 0#16
  lstAccDate := 0#16
  fstClusHI := (fileFirstCluster &&& 0xFFFF0000#32).setWidth 16
  wrtTime := 0#16
  wrtDate := 0#16
  fstClusLO := (fileFirstCluster &&& 0x0000FFFF#32).setWidth 16
  fileSize := 512#32

/-- The assignment `directory[i] = entry`. -/
def putEntry (directory : Sector) (i : ℕ) (entry : FATDirectoryEntry) : Sector :=
  Vector.ofFn fun j =>
    if 32 * i ≤ j.val then entry.bytes.getD (j.val - 32 * i) directory[j] else directory[j]

/-- The 512 bytes of the table from the offset `o` on. -/
def fatBytes (fat : ℕ → U32) (o : ℕ) : Sector := Vector.ofFn fun j => tableByte fat (o + j.val)

/-- The assignment `FAT[c] = 0xFFFFFFF`. -/
def markUsed (c : U32) (v : WritableVolume) : WritableVolume :=
  { v with fat := Function.update v.fat c.toNat 0xFFFFFFF#32 }

/-- The three writes at the end of `fat32_new_file`. The block number and the address
for the table are both computed from the number of the entry, as if entries were bytes. -/
def writeBack (fileFirstCluster : U32) (currentCluster : U64) (directory : Sector)
    (v : WritableVolume) : WritableVolume :=
  let v := nvmeWrite (v.fatStartLba + (fileFirstCluster / 512#32).setWidth 64)
    (fatBytes v.fat (fileFirstCluster - fileFirstCluster % 512#32).toNat) v
  let v := nvmeWrite (currentCluster - 2#64 + v.dataStartLba) directory v
  nvmeWrite ((fileFirstCluster - 2#32).setWidth 64 + v.dataStartLba) zeroSector v

inductive NewFileError where
  | nameTooLong
  | extTooLong
  | fileExists
  | noSpace
  deriving DecidableEq

/-- The value of the C enumeration. -/
def NewFileError.code : NewFileError → U32
  | nameTooLong => 0#32
  | extTooLong => 1#32
  | fileExists => 2#32
  | noSpace => 3#32

structure NewFileResult where
  fd : U32
  error : U32
  deriving DecidableEq

def NewFileResult.failed (e : NewFileError) : NewFileResult := ⟨0#32,e.code⟩

def fat32NewFile (fuel : ℕ) (name ext : List U8) (v : WritableVolume) :
    Outcome WritableVolume NewFileResult :=
  if 8 < name.length then .done (.failed .nameTooLong) v
  else if 3 < ext.length then .done (.failed .extTooLong) v
  else ((getClusterNum fuel name ext v.toVolume).mapState fun u =>
      { v with toVolume := u }).bind fun fileSector v =>
    if fileSector ≠ 0#32 then .done (.failed .fileExists) v else
    let fileFirstCluster := findFreeFATCluster v.toVolume
    (findSlot (markUsed fileFirstCluster v) fuel v.rootDirLba zeroSector).bind fun found v =>
      let (currentCluster,usableIndex,directory) := found
      if usableIndex = 16 then .fault v else
      let entry := newEntry name ext fileFirstCluster
      .done ⟨0#32,0#32⟩
        (writeBack fileFirstCluster currentCluster (putEntry directory usableIndex entry) v)

end Fat32

end Lios

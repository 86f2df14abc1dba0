import Lios.Lib.Outcome
import Lios.Lib.ByteStore
import Lios.Util.Const

/-! # The FAT32 file system

The table in memory is read by index; a transfer of one sector either delivers
the sector to its buffer or fails and leaves the buffer alone. The buffers the
code takes from the heap for itself are separate from the caller's buffer and from
the table. Strings are the bytes before their terminating zero. Log messages are
left out.
-/
namespace Lios

/-- The bytes of one logical block. -/
abbrev Sector := Vector U8 512

abbrev Memory := U64 → U8

/-- The globals of the file system and the disk behind it: the sector that
`nvme_read` of one block delivers, or nothing if it fails. -/
structure Volume where
  fatSize : U32
  dataStartLba : U64
  rootDirLba : U64
  fat : ℕ → U32
  disk : U64 → Option Sector

/-- The memory of the caller and the blocks requested so far. -/
structure Transfers where
  mem : Memory
  reads : List U64

namespace Fat32

def nvmeRead (v : Volume) (lba buffer : U64) (t : Transfers) : Transfers where
  mem :=
    match v.disk lba with
    | some s => store t.mem buffer s.toList
    | none => t.mem
  reads := t.reads ++ [lba]

def toupper (c : U8) : U8 :=
  if 0x61#8 ≤ c ∧ c ≤ 0x7A#8 then c + 0x41#8 - 0x61#8 else c

/-- The comparison of two strings up to a difference, a zero or `n` bytes; the
four-fold unrolling of the loop is left out. -/
def strncmp (s₁ s₂ : ℕ → U8) (n : ℕ) : U32 :=
  go n 0 0#8 0#8
where
  go : ℕ → ℕ → U8 → U8 → U32
    | 0,_,c₁,c₂ => c₁.setWidth 32 - c₂.setWidth 32
    | n + 1,i,_,_ =>
      if s₁ i = 0#8 ∨ s₁ i ≠ s₂ i then (s₁ i).setWidth 32 - (s₂ i).setWidth 32
      else go n (i + 1) (s₁ i) (s₂ i)

/-- `FAT spec P14`: the end of a chain. -/
def isEndingCluster (num : U32) : Bool :=
  let temp := num &&& 0xFFFFFFF#32
  0xFFFFFF8#32 ≤ temp && num ≤ 0xFFFFFFF#32

/-- Upper-case copies of the bytes `cs` from position `i` of a string on. -/
def writeUpper (cs : List U8) (i : ℕ) (s : List U8) : List U8 :=
  match cs with
  | [] => s
  | c :: cs => writeUpper cs (i + 1) (s.set i (toupper c))

/-- The eleven bytes under which a directory lists a file. -/
def wantStr (name ext : List U8) : List U8 :=
  writeUpper ext 8 (writeUpper name 0 (List.replicate 11 0x20#8))

def dirName (directory : Sector) (i j : ℕ) : U8 := directory.toList.getD (32 * i + j) 0#8

def dirU16 (directory : Sector) (i off : ℕ) : U16 :=
  (dirName directory i (off + 1)).setWidth 16 <<< 8 ||| (dirName directory i off).setWidth 16

def dirFstClusHI (directory : Sector) (i : ℕ) : U16 := dirU16 directory i 20
def dirFstClusLO (directory : Sector) (i : ℕ) : U16 := dirU16 directory i 26

/-- The buffer comes zeroed from `vcalloc`. -/
def zeroSector : Sector := Vector.replicate 512 0#8

def checkDirectoryEntryForFile (v : Volume) (sectorNum : U32) (name ext : List U8) : U32 :=
  let want := wantStr name ext
  let directory := (v.disk ((sectorNum - 2#32).setWidth 64 + v.dataStartLba)).getD zeroSector
  match (List.range 16).find? fun i =>
      strncmp (dirName directory i) (fun j => want.getD j 0#8) 11 == 0#32 with
  | some i => (dirFstClusHI directory i).setWidth 32 <<< 16 |||
      (dirFstClusLO directory i).setWidth 32
  | none => 0#32

/-- The loop of `get_cluster_num` over the clusters of the root directory. -/
def searchDirectory (v : Volume) (name ext : List U8) : ℕ → U64 → Outcome Volume U32
  | 0,_ => .spin
  | fuel + 1,directoryCluster =>
    let fileCluster := checkDirectoryEntryForFile v (directoryCluster.setWidth 32) name ext
    if fileCluster ≠ 0#32 then .done fileCluster v else
    let next := v.fat directoryCluster.toNat
    if next = 0#32 then .panic "FAT32: broken FAT!" v
    else if isEndingCluster next then .done 0#32 v
    else searchDirectory v name ext fuel (next.setWidth 64)

def getClusterNum (fuel : ℕ) (name ext : List U8) (v : Volume) : Outcome Volume U32 :=
  if 8 < name.length then .done 0#32 v
  else if 3 < ext.length then .done 0#32 v
  else searchDirectory v name ext fuel v.rootDirLba

inductive OpenError where
  | nameTooLong
  | extTooLong
  | notFound
  deriving DecidableEq

/-- The value of the C enumeration. -/
def OpenError.code : OpenError → U32
  | nameTooLong => 0#32
  | extTooLong => 1#32
  | notFound => 2#32

/-- A cluster of zero marks an error, and then the union holds its code. -/
structure OpenResult where
  cluster : U32
  sizeOrError : U32
  deriving DecidableEq

def OpenResult.error (e : OpenError) : OpenResult := ⟨0#32,e.code⟩

/-- The counting loop of `fat32_open`. -/
def countClusters (v : Volume) : ℕ → U64 → U64 → Outcome Volume U64
  | 0,_,_ => .spin
  | fuel + 1,currentSector,numClusters =>
    let next := v.fat currentSector.toNat
    if next = 0#32 then .panic "FAT32: broken FAT!" v
    else if isEndingCluster next then .done (numClusters + 1#64) v
    else countClusters v fuel (next.setWidth 64) (numClusters + 1#64)

def fat32Open (fuel : ℕ) (name ext : List U8) (v : Volume) : Outcome Volume OpenResult :=
  if 8 < name.length then .done (.error .nameTooLong) v
  else if 3 < ext.length then .done (.error .extTooLong) v
  else (getClusterNum fuel name ext v).bind fun fileCluster v =>
    if fileCluster = 0#32 then .done (.error .notFound) v
    else (countClusters v fuel (fileCluster.setWidth 64) 0#64).bind fun numClusters v =>
      .done ⟨fileCluster,numClusters.setWidth 32⟩ v

/-- The loop of `fat32_read` with the number of rounds left. The index `i`, the
product `i * 512` and the block number are 32 bits wide. -/
def readLoop (v : Volume) (size : U32) (buffer : U64) :
    ℕ → U32 → U32 → Transfers → U32 × Transfers
  | 0,_,cluster,t => (if isEndingCluster cluster then 0#32 else 1#32,t)
  | rounds + 1,i,cluster,t =>
    let sector : U32 := (v.dataStartLba + cluster.setWidth 64 - 2#64).setWidth 32
    let target : U64 := buffer + (i * 512#32).setWidth 64
    if i < size - 1#32 then
      if isEndingCluster cluster then (1#32,t)
      else readLoop v size buffer rounds (i + 1#32) (v.fat cluster.toNat)
        (nvmeRead v (sector.setWidth 64) target t)
    else readLoop v size buffer rounds (i + 1#32) cluster
      (nvmeRead v (sector.setWidth 64) target t)

def fat32Read (v : Volume) (cluster size : U32) (buffer : U64) (t : Transfers) : U32 × Transfers :=
  readLoop v size buffer size.toNat 0#32 cluster t

end Fat32

end Lios

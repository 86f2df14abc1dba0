import Lios.Mem.PageBuffer
import Lios.File.Dma

/-! # Transfers that reach their buffer

Every command that the disk functions issue is for one block and names the translation of the
first byte of its buffer. The controller goes on from there, and the buffer receives the block if
and only if it fits its pages.
-/
namespace Lios.Dma
open Outcome
variable {α : Type} {ctl : Controller} {fuel : ℕ} {s : State} {t : Transfer}

/-- The command is for one block and names the first byte of the buffer. -/
def Transfer.OneBlock (t : Transfer) : Prop :=
  ∃ lba, t.entry = Nvme.nvmeReadEntry lba 1#16 (t.tables.pageVirtToPhysAddr t.buffer) ∨
    t.entry = Nvme.nvmeWriteEntry lba 1#16 (t.tables.pageVirtToPhysAddr t.buffer)

/-- The controller finds the bytes of the buffer. -/
def Transfer.Hits (t : Transfer) : Prop :=
  ∀ k < 512, t.entry.prp1 + BitVec.ofNat 64 k =
    t.tables.pageVirtToPhysAddr (t.buffer + BitVec.ofNat 64 k)

theorem Transfer.OneBlock.prp1 (h : t.OneBlock) :
    t.entry.prp1 = t.tables.pageVirtToPhysAddr t.buffer := by
  obtain ⟨lba,h | h⟩ := h <;> rw [h] <;> rfl

theorem Transfer.OneBlock.hits_iff (h : t.OneBlock) :
    t.Hits ↔ t.tables.FitsPages t.buffer 512 := by
  rw [← Paging.contiguous_iff (by decide) (by decide),Hits,h.prp1]
  rfl

/-- All commands so far are of this kind. -/
def State.Sound (s : State) : Prop := ∀ t ∈ s.issued, t.OneBlock

/-- Wherever the call ends, all commands are of this kind. -/
abbrev Traced (x : Outcome State α) : Prop := x.Ends State.Sound State.Sound True

section Steps

theorem traced_lift {f : Heap → Outcome Heap α} (hs : s.Sound) :
    Traced (State.heapLens.lift f s) := by
  rw [Lens.lift]
  cases f (State.heapLens.get s) with
  | done a h => exact hs
  | panic m h => exact hs
  | fault h => exact hs
  | spin => trivial

theorem traced_vcalloc (size : U64) (hs : s.Sound) : Traced (vcalloc fuel size s) := traced_lift hs

theorem traced_vfree (mem : U64) (hs : s.Sound) : Traced (vfree fuel mem s) := traced_lift hs

theorem traced_submit {buffer : U64} {entry : Nvme.SubmissionEntry} (hs : s.Sound)
    (he : Transfer.OneBlock ⟨buffer,s.tables,entry⟩) : Traced (submit ctl buffer entry s) := by
  have hall : ∀ t ∈ s.issued ++ [⟨buffer,s.tables,entry⟩], t.OneBlock := by
    intro t ht
    rcases List.mem_append.mp ht with ht | ht
    · exact hs t ht
    · rw [List.mem_singleton.mp ht]
      exact he
  rw [submit]
  cases ctl (s.issued ++ [⟨buffer,s.tables,entry⟩]) s.heap with
  | none => exact hall
  | some h => exact hall

theorem traced_nvmeRead (lba buffer : U64) (hs : s.Sound) :
    Traced (nvmeRead ctl lba 1#16 buffer s) :=
  traced_submit hs ⟨lba,.inl rfl⟩

theorem traced_nvmeWrite (lba buffer : U64) (hs : s.Sound) :
    Traced (nvmeWrite ctl lba 1#16 buffer s) :=
  traced_submit hs ⟨lba,.inr rfl⟩

end Steps

section Gpt
variable {header entries : U64}

theorem traced_scanEntries (rounds : ℕ) (entry : U64) (part : Partition) (hs : s.Sound) :
    Traced (scanEntries fuel header entries rounds entry part s) := by
  induction rounds generalizing entry part with
  | zero => exact hs
  | succ rounds ih =>
    rw [scanEntries]
    split
    · exact ih _ _
    split
    · exact ih _ _
    split
    · refine (traced_vfree header hs).andThen fun _ s hs => ?_
      exact (traced_vfree entries hs).andThen fun _ s hs => hs
    · exact ih _ _

theorem traced_scanBlocks (rounds : ℕ) (i : U32) (part : Partition) (hs : s.Sound) :
    Traced (scanBlocks ctl fuel header entries rounds i part s) := by
  induction rounds generalizing i part s with
  | zero => exact hs
  | succ rounds ih =>
    refine (traced_nvmeRead _ entries hs).andThen fun _ s hs => ?_
    exact (traced_scanEntries 4 entries part hs).andThen fun part s hs => ih _ part hs

theorem traced_gptRead (hs : s.Sound) : Traced (gptRead ctl fuel s) := by
  refine (traced_vcalloc _ hs).andThen fun header s hs => ?_
  refine (traced_nvmeRead _ header hs).andThen fun _ s hs => ?_
  split
  · exact hs
  split
  · exact hs
  refine (traced_vcalloc _ hs).andThen fun entries s hs => ?_
  refine (traced_scanBlocks 32 _ _ hs).andThen fun part s hs => ?_
  refine (traced_vfree header hs).andThen fun _ s hs => ?_
  refine (traced_vfree entries hs).andThen fun _ s hs => ?_
  split <;> exact hs

end Gpt

section Fat32
variable {name ext : List U8}

theorem traced_readFAT (rounds : ℕ) (i : U32) (hs : s.Sound) : Traced (readFAT ctl rounds i s) := by
  induction rounds generalizing i s with
  | zero => exact hs
  | succ rounds ih => exact (traced_nvmeRead _ _ hs).andThen fun _ s hs => ih _ hs

theorem traced_updateFAT (hs : s.Sound) : Traced (updateFAT ctl s) := traced_readFAT _ _ hs

theorem traced_fat32Init (part : Partition) (hs : s.Sound) :
    Traced (fat32Init ctl fuel part s) := by
  refine (traced_vcalloc 512#64 (s := { s with
    volumeFirstLba := part.firstLba, volumeLastLba := part.lastLba }) hs).andThen fun bpb s hs => ?_
  refine (traced_nvmeRead _ bpb (s := { s with bpb := bpb }) hs).andThen fun _ s hs => ?_
  cases checkBpb s with
  | some message => exact hs
  | none =>
    refine (traced_vcalloc _ (s := readBpb s) hs).andThen fun fat s hs => ?_
    exact traced_updateFAT (s := { s with fat := fat }) hs

theorem traced_checkDirectoryEntryForFile (sectorNum : U32) (hs : s.Sound) :
    Traced (checkDirectoryEntryForFile ctl fuel sectorNum name ext s) := by
  refine (traced_vcalloc _ hs).andThen fun directory s hs => ?_
  refine (traced_nvmeRead _ directory hs).andThen fun _ s hs => ?_
  exact (traced_vfree directory hs).andThen fun _ s hs => hs

theorem traced_searchDirectory (rounds : ℕ) (cluster : U64) (hs : s.Sound) :
    Traced (searchDirectory ctl fuel name ext rounds cluster s) := by
  induction rounds generalizing cluster s with
  | zero => trivial
  | succ rounds ih =>
    refine (traced_checkDirectoryEntryForFile _ hs).andThen fun fileCluster s hs => ?_
    split
    · exact hs
    split
    · exact hs
    split
    · exact hs
    · exact ih _ hs

theorem traced_getClusterNum (hs : s.Sound) : Traced (getClusterNum ctl fuel name ext s) := by
  rw [getClusterNum]
  split
  · exact hs
  split
  · exact hs
  · exact traced_searchDirectory _ _ hs

theorem traced_readLoop (size : U32) (buffer : U64) (rounds : ℕ) (i cluster : U32)
    (hs : s.Sound) : Traced (readLoop ctl size buffer rounds i cluster s) := by
  induction rounds generalizing i cluster s with
  | zero => exact hs
  | succ rounds ih =>
    rw [readLoop]
    split
    · exact hs
    · exact (traced_nvmeRead _ _ hs).andThen fun _ s hs => ih _ _ hs

theorem traced_findSlot (directory : U64) (rounds : ℕ) (cluster : U64) (hs : s.Sound) :
    Traced (findSlot ctl directory rounds cluster s) := by
  induction rounds generalizing cluster s with
  | zero => trivial
  | succ rounds ih =>
    refine (traced_nvmeRead _ directory hs).andThen fun _ s hs => ?_
    generalize Fat32.usableIndex (s.sectorAt directory) = i
    split
    · exact hs
    split
    · exact hs
    split
    · exact hs
    · exact ih _ hs

theorem traced_writeBack (first : U32) (cluster directory : U64) (hs : s.Sound) :
    Traced (writeBack ctl fuel first cluster directory s) := by
  refine (traced_nvmeWrite _ _ hs).andThen fun _ s hs => ?_
  refine (traced_nvmeWrite _ directory hs).andThen fun _ s hs => ?_
  refine (traced_vcalloc _ hs).andThen fun empty s hs => ?_
  refine (traced_nvmeWrite _ empty hs).andThen fun _ s hs => ?_
  exact (traced_vfree empty hs).andThen fun _ s hs => traced_vfree directory hs

theorem traced_fat32NewFile (hs : s.Sound) : Traced (fat32NewFile ctl fuel name ext s) := by
  rw [fat32NewFile]
  split
  · exact hs
  split
  · exact hs
  refine (traced_getClusterNum hs).andThen fun fileSector s hs => ?_
  split
  · exact hs
  refine (traced_vcalloc _ (s := markUsed (findFreeFATCluster s) s) hs).andThen
    fun directory s hs => ?_
  refine (traced_findSlot directory _ _ hs).andThen fun found s hs => ?_
  exact (traced_writeBack _ _ _ (s := putEntry directory found.2 _ s) hs).andThen fun _ s hs => hs

end Fat32

theorem Call.traced_run (c : Call) (hs : s.Sound) : Traced (c.run ctl fuel s) := by
  cases c with
  | gptRead => exact (traced_gptRead hs).andThen fun _ s hs => hs
  | fat32Init part => exact traced_fat32Init part hs
  | updateFAT => exact traced_updateFAT hs
  | checkDirectoryEntryForFile sectorNum name ext =>
    exact (traced_checkDirectoryEntryForFile sectorNum hs).andThen fun _ s hs => hs
  | getClusterNum name ext => exact (traced_getClusterNum hs).andThen fun _ s hs => hs
  | fat32Read cluster size buffer =>
    exact (traced_readLoop size buffer _ _ cluster hs).andThen fun _ s hs => hs
  | fat32NewFile name ext => exact (traced_fat32NewFile hs).andThen fun _ s hs => hs

/-- In every state in which a call ends, whatever the controller does, each command that the call
has issued is for one block, names no second address, and reaches the bytes of its buffer if and
only if the buffer fits its pages. -/
theorem Call.transfers_hit_iff (ctl : Controller) (fuel : ℕ) (c : Call) (s : State) :
    (c.run ctl fuel { s with issued := [] }).Ends
      (fun s' => ∀ t ∈ s'.issued, t.entry.prp2 = 0#64 ∧ t.entry.dword12 = 0#32 ∧
        (t.Hits ↔ t.tables.FitsPages t.buffer 512))
      (fun s' => ∀ t ∈ s'.issued, t.entry.prp2 = 0#64 ∧ t.entry.dword12 = 0#32 ∧
        (t.Hits ↔ t.tables.FitsPages t.buffer 512)) True := by
  have hsound : ({ s with issued := [] } : State).Sound := by
    intro t ht
    cases ht
  have hexact (s' : State) (hs : s'.Sound) (t : Transfer) (ht : t ∈ s'.issued) :
      t.entry.prp2 = 0#64 ∧ t.entry.dword12 = 0#32 ∧
        (t.Hits ↔ t.tables.FitsPages t.buffer 512) := by
    have hblock := hs t ht
    refine ⟨?_,?_,hblock.hits_iff⟩
    · obtain ⟨lba,h | h⟩ := hblock <;> rw [h] <;> rfl
    · obtain ⟨lba,h | h⟩ := hblock <;> rw [h] <;> rfl
  exact (c.traced_run hsound).imp hexact hexact id

/-! A controller that delivers. -/

/-- The memory after the block of a read command has gone to the physical addresses from `prp1`
on. -/
def delivered (disk : U64 → ℕ → U8) (e : Nvme.SubmissionEntry) (h : Heap) (v : U64) : U8 :=
  let k := (h.env.env.pageVirtToPhysAddr v - e.prp1).toNat
  if k < 512 then disk (e.dword11 ++ e.dword10) k else h.bytes v

/-- The controller completes every command, and a read brings its block from the disk. -/
def readsFrom (disk : U64 → ℕ → U8) : Controller := fun issued h =>
  match issued.getLast? with
  | none => some h
  | some t => some (if t.entry.opcode = 2#8 then { h with bytes := delivered disk t.entry h } else h)

theorem lba_ioEntry (opcode : U8) (cid : U16) (lba p : U64) (n : U16) :
    (Nvme.ioEntry opcode cid lba n p).dword11 ++ (Nvme.ioEntry opcode cid lba n p).dword10 =
      lba := by
  have hlow : (lba &&& 0xFFFFFFFF#64).toNat = lba.toNat % 2 ^ 32 := by
    rw [BitVec.toNat_and]
    exact Nat.and_two_pow_sub_one_eq_mod lba.toNat 32
  have hhigh : ((lba >>> 32) &&& 0xFFFFFFFF#64).toNat = lba.toNat / 2 ^ 32 % 2 ^ 32 := by
    rw [BitVec.toNat_and,BitVec.toNat_ushiftRight,Nat.shiftRight_eq_div_pow]
    exact Nat.and_two_pow_sub_one_eq_mod (lba.toNat / 2 ^ 32) 32
  have hlt := lba.isLt
  apply BitVec.eq_of_toNat_eq
  change (((lba >>> 32) &&& 0xFFFFFFFF#64).setWidth 32 ++
    (lba &&& 0xFFFFFFFF#64).setWidth 32).toNat = lba.toNat
  rw [BitVec.toNat_append,BitVec.toNat_setWidth,BitVec.toNat_setWidth,hlow,hhigh,
    ← Nat.shiftLeft_add_eq_or_of_lt (Nat.mod_lt _ (by decide)),Nat.shiftLeft_eq]
  omega

/-- The block of a read goes to the addresses whose translations follow the one of the buffer. -/
theorem nvmeRead_readsFrom (disk : U64 → ℕ → U8) (lba buffer : U64) :
    ∃ s', nvmeRead (readsFrom disk) lba 1#16 buffer s = .done () s' ∧ ∀ v, s'.heap.bytes v =
      if (s.tables.pageVirtToPhysAddr v - s.tables.pageVirtToPhysAddr buffer).toNat < 512 then
        disk lba (s.tables.pageVirtToPhysAddr v - s.tables.pageVirtToPhysAddr buffer).toNat
      else s.heap.bytes v := by
  have hlast (t : Transfer) : readsFrom disk (s.issued ++ [t]) s.heap =
      some (if t.entry.opcode = 2#8 then { s.heap with bytes := delivered disk t.entry s.heap }
        else s.heap) := by
    rw [readsFrom,List.getLast?_concat]
  let e := Nvme.nvmeReadEntry lba 1#16 (s.tables.pageVirtToPhysAddr buffer)
  have hdone : nvmeRead (readsFrom disk) lba 1#16 buffer s =
      .done () { s.setBytes (delivered disk e s.heap) with
        issued := s.issued ++ [⟨buffer,s.tables,e⟩] } := by
    rw [nvmeRead,submit,hlast]
    rfl
  refine ⟨_,hdone,fun v => ?_⟩
  have hlba : e.dword11 ++ e.dword10 = lba := lba_ioEntry 2#8 2#16 lba _ 1#16
  rw [← hlba]
  rfl

theorem nvmeRead_tables {disk : U64 → ℕ → U8} {lba buffer : U64} {n : U16} {u : Unit} {s' : State}
    (h : nvmeRead (readsFrom disk) lba n buffer s = .done u s') : s'.tables = s.tables := by
  rw [nvmeRead,submit,readsFrom,List.getLast?_concat] at h
  obtain ⟨-,rfl⟩ := Outcome.done.inj h
  rfl

/-- With such a controller, a block of any contents arrives in the buffer if and only if the buffer
fits its pages. -/
theorem nvmeRead_delivers_iff (lba buffer : U64) :
    (∀ disk : U64 → ℕ → U8, ∃ s', nvmeRead (readsFrom disk) lba 1#16 buffer s = .done () s' ∧
      ∀ k < 512, s'.heap.bytes (buffer + BitVec.ofNat 64 k) = disk lba k) ↔
    s.tables.FitsPages buffer 512 := by
  rw [← Paging.contiguous_iff (by decide) (by decide)]
  constructor
  · intro h k hk
    by_contra hne
    -- a block whose byte `k` is the only one that differs from the byte in memory
    let old := s.heap.bytes (buffer + BitVec.ofNat 64 k)
    let disk : U64 → ℕ → U8 := fun _ j => if j = k then old + 1#8 else old
    obtain ⟨s',hdone,hblock⟩ := h disk
    obtain ⟨_,hdone',hbytes⟩ := nvmeRead_readsFrom (s := s) disk lba buffer
    obtain ⟨-,rfl⟩ := Outcome.done.inj (hdone.symm.trans hdone')
    have hindex : (s.tables.pageVirtToPhysAddr (buffer + BitVec.ofNat 64 k) -
        s.tables.pageVirtToPhysAddr buffer).toNat ≠ k := by
      intro heq
      have hsub := congrArg (BitVec.ofNat 64) heq
      rw [BitVec.ofNat_toNat,BitVec.setWidth_eq] at hsub
      exact hne (sub_eq_iff_eq_add'.mp hsub).symm
    have harrived : old = old + 1#8 := by
      have hbyte := hblock k hk
      rw [hbytes] at hbyte
      simp only [disk,if_neg hindex,if_true] at hbyte
      rwa [ite_self] at hbyte
    exact absurd (left_eq_add.mp harrived) (by decide)
  · intro h disk
    obtain ⟨s',hdone,hbytes⟩ := nvmeRead_readsFrom (s := s) disk lba buffer
    refine ⟨s',hdone,fun k hk => ?_⟩
    have hdist : (s.tables.pageVirtToPhysAddr (buffer + BitVec.ofNat 64 k) -
        s.tables.pageVirtToPhysAddr buffer).toNat = k := by
      rw [← h k hk,add_sub_cancel_left,BitVec.toNat_ofNat]
      omega
    rw [hbytes,hdist,if_pos hk]

/-- The volume as the functions over whole blocks see it: every read delivers. -/
def volumeOf (disk : U64 → ℕ → U8) (s : State) : Volume where
  fatSize := s.fatSize
  dataStartLba := s.dataStartLba
  rootDirLba := s.rootDirLba
  fat i := s.fatEntry (BitVec.ofNat 64 i)
  disk lba := some (Vector.ofFn fun j => disk lba j.val)

theorem checkDirectoryEntryForFile_eq_entryFor (v : Volume) (sectorNum : U32)
    (name ext : List U8) : Fat32.checkDirectoryEntryForFile v sectorNum name ext =
      entryFor ((v.disk ((sectorNum - 2#32).setWidth 64 + v.dataStartLba)).getD Fat32.zeroSector)
        name ext := rfl

/-- Where the buffer fits its pages, a block of the directory is searched as if the read had
delivered the block. -/
theorem checkDirectoryEntryForFile_refines {disk : U64 → ℕ → U8} {sectorNum r : U32}
    {name ext : List U8} {s' : State}
    (hfits : ∀ p s₁, vcalloc fuel 512#64 s = .done p s₁ → s₁.tables.FitsPages p 512)
    (h : checkDirectoryEntryForFile (readsFrom disk) fuel sectorNum name ext s = .done r s') :
    r = Fat32.checkDirectoryEntryForFile (volumeOf disk s) sectorNum name ext := by
  obtain ⟨p,s₁,hp,h⟩ := bind_eq_done.mp h
  obtain ⟨_,s₂,hread,h⟩ := bind_eq_done.mp h
  obtain ⟨_,s₃,-,h⟩ := bind_eq_done.mp h
  obtain ⟨rfl,rfl⟩ := Outcome.done.inj h
  obtain ⟨_,hread',hblock⟩ := (nvmeRead_delivers_iff _ p).mpr (hfits p s₁ hp) disk
  obtain ⟨-,rfl⟩ := Outcome.done.inj (hread.symm.trans hread')
  obtain ⟨h₁,-,rfl⟩ := Lens.lift_eq_done.mp hp
  have hsector : s₂.sectorAt p = Vector.ofFn fun j =>
      disk ((sectorNum - 2#32).setWidth 64 + s.dataStartLba) j.val := by
    refine congrArg Vector.ofFn (funext fun j => ?_)
    exact hblock j.val j.isLt
  rw [hsector,checkDirectoryEntryForFile_eq_entryFor]
  exact congrArg (entryFor · name ext) (Option.getD_some ..).symm

/-! A machine whose memory ends at `0x80002000` and goes on at 4 GiB. -/

/-- Eight free frames below 2 GiB, two above, and ten beyond 4 GiB. -/
def holeFrames : Pmm where
  node p :=
    if p < 0x101#64 then ⟨if p < 8#64 then p + 1#64 else 0#64,0x10000#64 + (p - 1#64) * 4096#64⟩
    else if p < 0x103#64 then ⟨p + 1#64,0x80000000#64 + (p - 0x101#64) * 4096#64⟩
    else ⟨if p < 0x10C#64 then p + 1#64 else 0#64,0x100000000#64 + (p - 0x103#64) * 4096#64⟩
  pmmLow := 1#64
  pmmHigh := 0x101#64
  pmmFreeList := 0#64

def holeTables : Paging Pmm where
  pml4Addr := kernelOffset + 0x1000#64
  table _ _ := 0#64
  frames := holeFrames

/-- Before the virtual address allocator and the heap are set up. -/
def holeStart : State where
  heap :=
    { node := fun _ => ⟨0#64,0#64,0#64,fun _ => 0#8⟩
      bytes := fun _ => 0#8
      heapHead := 0#64
      heapTail := 0#64
      env :=
        { free := fun _ => ⟨0#64,0#64,0#64,0#64⟩
          alloc := fun _ => ⟨0#64,0#64,0#64⟩
          vmmHead := 0#64
          vmmTail := 0#64
          allocHead := 0#64
          freePages := []
          env := holeTables } }
  fatSize := 0#32
  volumeFirstLba := 0#64
  volumeLastLba := 0#64
  fatStartLba := 0#64
  dataStartLba := 0#64
  rootDirLba := 0#64
  bpb := 0#64
  fat := 0#64
  issued := []

/-- A volume at the block 34 whose table has eight blocks. -/
def holeDisk (lba : U64) (j : ℕ) : U8 :=
  if lba ≠ 34#64 then 0#8
  else if j = 0 then 0xE9#8
  else if j = 12 then 2#8
  else if j = 13 then 1#8
  else if j = 16 then 2#8
  else if j = 32 then 100#8
  else if j = 36 then 8#8
  else if j = 44 then 2#8
  else if j = 510 then 0x55#8
  else if j = 511 then 0xAA#8
  else 0#8

/-- `vmm_init`, `vmalloc_init` and `fat32_init`. -/
def holeBoot : Outcome State Unit :=
  (State.heapLens.lift ((Vmalloc.envLens _).lift (Vmm.vmmInit (kernelPageCalls 600)))
    holeStart).bind fun _ s =>
  (State.heapLens.lift (Vmalloc.vmallocInit (vmmCalls 600)) s).bind fun _ s =>
  (Call.fat32Init ⟨34#64,200#64⟩).run (readsFrom holeDisk) 600 s

/-- The call returns and the byte `k` of a buffer is not where the controller goes. -/
def missesByte (k : ℕ) : Outcome State Unit → Bool
  | .done _ s => s.issued.any fun t => t.entry.prp1 + BitVec.ofNat 64 k !=
      t.tables.pageVirtToPhysAddr (t.buffer + BitVec.ofNat 64 k)
  | _ => false

theorem exists_not_hits {k : ℕ} (hk : k < 512) {x : Outcome State Unit}
    (h : missesByte k x = true) : ∃ s, x = .done () s ∧ ∃ t ∈ s.issued, ¬t.Hits := by
  cases x with
  | done _ s =>
    obtain ⟨t,ht,hne⟩ := List.any_eq_true.mp h
    exact ⟨s,rfl,t,ht,fun hits => bne_iff_ne.mp hne (hits k hk)⟩
  | panic m s => cases h
  | fault s => cases h
  | spin => cases h

/-- The last block of the table goes to a buffer on the frames `0x80001000` and `0x100000000`. -/
theorem holeBoot_not_hits : ∃ s, holeBoot = .done () s ∧ ∃ t ∈ s.issued, ¬t.Hits :=
  exists_not_hits (k := 165) (by decide) (by decide +kernel)

end Lios.Dma

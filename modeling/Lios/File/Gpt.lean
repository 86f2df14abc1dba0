import Lios.File.DmaBuffers

/-! # The partition table

`gpt_read` on a disk whose blocks arrive in their buffers. It scans the 32 blocks behind the header,
which hold 128 entries, whatever number of entries the header declares: it returns the only
Microsoft basic data partition among these 128 entries. At the end, the function over the heap and
its buffers is related to the one here.
-/
namespace Lios.Gpt

/-- The bytes of the blocks. -/
abbrev Disk := U64 → ℕ → U8

section Model

def u64In (block : ℕ → U8) (o : ℕ) : U64 := word fun k => block (o + k)
def u32In (block : ℕ → U8) (o : ℕ) : U32 := (u64In block o).setWidth 32

/-- The fields of the header that are looked at, and the number of entries. -/
structure GPTHeader where
  signature : U64
  headerSize : U32
  currentLba : U64
  partArrayStartLba : U64
  partArrayEntries : U32
  partArrayEntrySize : U32

def GPTHeader.of (block : ℕ → U8) : GPTHeader where
  signature := u64In block 0
  headerSize := u32In block 12
  currentLba := u64In block 24
  partArrayStartLba := u64In block 72
  partArrayEntries := u32In block 80
  partArrayEntrySize := u32In block 84

structure PartitionEntry where
  guid0 : U64
  guid1 : U64
  firstLba : U64
  lastLba : U64

/-- The `j`-th entry in a block. -/
def PartitionEntry.of (block : ℕ → U8) (j : ℕ) : PartitionEntry where
  guid0 := u64In block (128 * j)
  guid1 := u64In block (128 * j + 8)
  firstLba := u64In block (128 * j + 32)
  lastLba := u64In block (128 * j + 40)

def PartitionEntry.bounds (e : PartitionEntry) : Dma.Partition := ⟨e.firstLba,e.lastLba⟩

/-- The message for a second partition. -/
def tooMany : String := "gpt: more than 1 FAT partition found! (not yet supported)"

/-- The body of the inner loop. -/
def scanEntry (e : PartitionEntry) (part : Dma.Partition) : Except String Dma.Partition :=
  -- no partition
  if e.guid0 = 0#64 ∧ e.guid1 = 0#64 then .ok part
  -- not a Microsoft basic data partition
  else if e.guid0 ≠ 0x4433B9E5EBD0A0A2#64 ∨ e.guid1 ≠ 0xC79926B7B668C087#64 then .ok part
  else if part.firstLba ≠ 0#64 ∨ part.lastLba ≠ 0#64 then .error tooMany
  else .ok e.bounds

/-- The loop over the entries of one block, with the number of entries left. -/
def scanEntries (block : ℕ → U8) : ℕ → ℕ → Dma.Partition → Except String Dma.Partition
  | 0,_,part => .ok part
  | rounds + 1,j,part =>
    (scanEntry (.of block j) part).bind fun part => scanEntries block rounds (j + 1) part

/-- The loop over the blocks, with the number of blocks left. -/
def scanBlocks (disk : Disk) : ℕ → U32 → Dma.Partition → Except String Dma.Partition
  | 0,_,part => .ok part
  | rounds + 1,i,part =>
    (scanEntries (disk (i.setWidth 64)) 4 0 part).bind fun part =>
      scanBlocks disk rounds (i + 1#32) part

/-- The tests of the header, with the entry size tested twice. -/
def badHeader (h : GPTHeader) : Prop :=
  h.partArrayStartLba ≠ 2#64 ∨ h.partArrayEntrySize ≠ 128#32 ∨ h.partArrayEntrySize ≠ 128#32 ∨
    h.currentLba ≠ 1#64 ∨ h.headerSize ≠ 92#32

instance (h : GPTHeader) : Decidable (badHeader h) := inferInstanceAs (Decidable (_ ∨ _))

/-- A panic is an error with its message. -/
def gptRead (disk : Disk) : Except String Dma.Partition :=
  let header := GPTHeader.of (disk 1#64)
  if header.signature ≠ 0x5452415020494645#64 then .error "gpt: no header found at LBA 1"
  else if badHeader header then .error "gpt: unknown error"
  else
    (scanBlocks disk 32 2#32 ⟨0#64,0#64⟩).bind fun part =>
      if part.firstLba = 0#64 ∧ part.lastLba = 0#64 then .error "gpt: no FAT partition found!"
      else .ok part

end Model

variable {disk disk' : Disk} {n k : ℕ}

/-- The GUID of a Microsoft basic data partition. -/
def PartitionEntry.isBasic (e : PartitionEntry) : Bool :=
  e.guid0 == 0x4433B9E5EBD0A0A2#64 && e.guid1 == 0xC79926B7B668C087#64

/-- The block of the `k`-th entry of the table. -/
def blockOf (k : ℕ) : U64 := BitVec.ofNat 64 (2 + k / 4)

def entryAt (disk : Disk) (k : ℕ) : PartitionEntry := .of (disk (blockOf k)) (k % 4)

/-- The number of entries that the header declares. -/
def declared (disk : Disk) : ℕ := (GPTHeader.of (disk 1#64)).partArrayEntries.toNat

/-- What the specification asks of the header. -/
def HeaderOk (disk : Disk) : Prop :=
  (GPTHeader.of (disk 1#64)).signature = 0x5452415020494645#64 ∧
  (GPTHeader.of (disk 1#64)).headerSize = 92#32 ∧ (GPTHeader.of (disk 1#64)).currentLba = 1#64 ∧
  (GPTHeader.of (disk 1#64)).partArrayStartLba = 2#64 ∧
  (GPTHeader.of (disk 1#64)).partArrayEntrySize = 128#32

/-- The `k`-th entry is the only basic data partition among the first `n` entries. -/
structure UniqueIn (disk : Disk) (n k : ℕ) : Prop where
  lt : k < n
  basic : (entryAt disk k).isBasic = true
  only : ∀ j < n, (entryAt disk j).isBasic = true → j = k

/-- No basic data partition starts at the block 0. -/
def Nonzero (disk : Disk) : Prop :=
  ∀ k, k < 128 ∨ k < declared disk → (entryAt disk k).isBasic = true → (entryAt disk k).firstLba ≠ 0#64

section Scan

/-- The loop body for a list of entries. -/
def scanAll : List PartitionEntry → Dma.Partition → Except String Dma.Partition
  | [],part => .ok part
  | e :: es,part => (scanEntry e part).bind fun part => scanAll es part

theorem scanAll_append (es es' : List PartitionEntry) (part : Dma.Partition) :
    scanAll (es ++ es') part = (scanAll es part).bind fun part => scanAll es' part := by
  induction es generalizing part with
  | nil => rfl
  | cons e es ih =>
    rw [List.cons_append,scanAll,scanAll]
    cases scanEntry e part with
    | error m => rfl
    | ok part => exact ih part

theorem scanEntries_eq (block : ℕ → U8) (rounds j : ℕ) (part : Dma.Partition) :
    scanEntries block rounds j part =
      scanAll ((List.range rounds).map fun r => .of block (j + r)) part := by
  induction rounds generalizing j part with
  | zero => rfl
  | succ rounds ih =>
    rw [scanEntries,List.range_succ_eq_map,List.map_cons,List.map_map,scanAll]
    simp only [ih,Nat.add_zero]
    refine congrArg (Except.bind _) (funext fun part => congrArg (scanAll · part) ?_)
    exact List.map_congr_left fun r _ => congrArg _ (by simp only [Nat.succ_eq_add_one]; omega)

theorem scanBlocks_eq (disk : Disk) (rounds i : ℕ) (hi : i + rounds ≤ 32) (part : Dma.Partition) :
    scanBlocks disk rounds (BitVec.ofNat 32 (2 + i)) part =
      scanAll ((List.range (4 * rounds)).map fun r => entryAt disk (4 * i + r)) part := by
  induction rounds generalizing i part with
  | zero => rfl
  | succ rounds ih =>
    have hlba : (BitVec.ofNat 32 (2 + i)).setWidth 64 = BitVec.ofNat 64 (2 + i) := by
      apply BitVec.eq_of_toNat_eq
      rw [BitVec.toNat_setWidth,BitVec.toNat_ofNat,BitVec.toNat_ofNat]
      omega
    have hnext : BitVec.ofNat 32 (2 + i) + 1#32 = BitVec.ofNat 32 (2 + (i + 1)) := by
      apply BitVec.eq_of_toNat_eq
      rw [BitVec.toNat_add,BitVec.toNat_ofNat,BitVec.toNat_ofNat,BitVec.toNat_ofNat]
      omega
    rw [scanBlocks,hlba,hnext,scanEntries_eq,show 4 * (rounds + 1) = 4 + 4 * rounds by omega,
      List.range_add,List.map_append,List.map_map,scanAll_append]
    simp only [ih (i + 1) (by omega)]
    have hfirst : ((List.range 4).map fun r => PartitionEntry.of (disk (BitVec.ofNat 64 (2 + i)))
        (0 + r)) = (List.range 4).map fun r => entryAt disk (4 * i + r) := by
      refine List.map_congr_left fun r hr => ?_
      have hr := List.mem_range.mp hr
      rw [entryAt,blockOf,show (4 * i + r) / 4 = i by omega,show (4 * i + r) % 4 = r by omega,
        Nat.zero_add]
    rw [hfirst]
    refine congrArg (Except.bind _) (funext fun part => congrArg (scanAll · part) ?_)
    refine List.map_congr_left fun r _ => congrArg _ ?_
    change 4 * (i + 1) + r = 4 * i + (4 + r)
    omega

theorem scanEntry_of_not_basic {e : PartitionEntry} (h : e.isBasic = false) (part : Dma.Partition) :
    scanEntry e part = .ok part := by
  rw [scanEntry]
  split
  · rfl
  · rw [if_pos]
    by_contra hno
    push Not at hno
    simp [PartitionEntry.isBasic,hno.1,hno.2] at h

theorem scanEntry_of_basic {e : PartitionEntry} (h : e.isBasic = true) (part : Dma.Partition) :
    scanEntry e part = if part.firstLba ≠ 0#64 ∨ part.lastLba ≠ 0#64 then .error tooMany
      else .ok e.bounds := by
  obtain ⟨h0,h1⟩ : e.guid0 = 0x4433B9E5EBD0A0A2#64 ∧ e.guid1 = 0xC79926B7B668C087#64 := by
    simpa [PartitionEntry.isBasic] using h
  rw [scanEntry,h0,h1,if_neg (by decide),if_neg (by decide)]

/-- Once a partition is found, there must be no other. -/
theorem scanAll_found {part : Dma.Partition} (hpart : part.firstLba ≠ 0#64)
    (es : List PartitionEntry) :
    scanAll es part = if es.filter PartitionEntry.isBasic = [] then .ok part else .error tooMany := by
  induction es with
  | nil => rfl
  | cons e es ih =>
    rw [scanAll]
    cases hb : e.isBasic with
    | false =>
      rw [scanEntry_of_not_basic hb,List.filter_cons_of_neg (by simp [hb])]
      exact ih
    | true =>
      rw [scanEntry_of_basic hb,if_pos (.inl hpart),List.filter_cons_of_pos hb,
        if_neg (by simp)]
      rfl

/-- What comes of the basic data partitions that are found. -/
def verdict : List PartitionEntry → Except String Dma.Partition
  | [] => .error "gpt: no FAT partition found!"
  | [e] => .ok e.bounds
  | _ => .error tooMany

theorem scanAll_eq {es : List PartitionEntry}
    (hnz : ∀ e ∈ es, e.isBasic = true → e.firstLba ≠ 0#64) :
    ((scanAll es ⟨0#64,0#64⟩).bind fun part =>
      if part.firstLba = 0#64 ∧ part.lastLba = 0#64 then .error "gpt: no FAT partition found!"
      else .ok part) = verdict (es.filter PartitionEntry.isBasic) := by
  induction es with
  | nil => rfl
  | cons e es ih =>
    rw [scanAll]
    cases hb : e.isBasic with
    | false =>
      rw [scanEntry_of_not_basic hb,List.filter_cons_of_neg (by simp [hb])]
      exact ih fun e' he' => hnz e' (List.mem_cons_of_mem _ he')
    | true =>
      have hfirst := hnz e List.mem_cons_self hb
      rw [scanEntry_of_basic hb,if_neg (by simp),List.filter_cons_of_pos hb]
      simp only [Except.bind]
      rw [scanAll_found hfirst]
      cases es.filter PartitionEntry.isBasic with
      | nil => exact if_neg fun h => hfirst h.1
      | cons e' es' => rfl

end Scan

section Result

/-- The first `n` entries that are basic data partitions. -/
def basics (disk : Disk) (n : ℕ) : List PartitionEntry :=
  ((List.range n).map (entryAt disk)).filter PartitionEntry.isBasic

instance (disk : Disk) : Decidable (HeaderOk disk) := inferInstanceAs (Decidable (_ ∧ _))

theorem not_badHeader (h : HeaderOk disk) : ¬badHeader (GPTHeader.of (disk 1#64)) := by
  obtain ⟨-,hsize,hlba,hstart,hentry⟩ := h
  simp [badHeader,hsize,hlba,hstart,hentry]

theorem gptRead_eq (hnz : Nonzero disk) (h : HeaderOk disk) :
    gptRead disk = verdict (basics disk 128) := by
  have hscan := scanBlocks_eq disk 32 0 (by decide) ⟨0#64,0#64⟩
  simp only [Nat.mul_zero,Nat.zero_add,Nat.add_zero] at hscan
  rw [gptRead,if_neg (not_not.mpr h.1),if_neg (not_badHeader h)]
  change (scanBlocks disk 32 (BitVec.ofNat 32 2) ⟨0#64,0#64⟩).bind _ = _
  rw [hscan,scanAll_eq]
  · rfl
  · intro e he
    obtain ⟨k,hk,rfl⟩ := List.mem_map.mp he
    exact hnz k (.inl (List.mem_range.mp hk))

/-- Without a valid header there is an error that depends on the header only. -/
theorem gptRead_of_bad (h : ¬HeaderOk disk) :
    (∃ m, gptRead disk = .error m) ∧
      ∀ disk', GPTHeader.of (disk' 1#64) = GPTHeader.of (disk 1#64) →
        gptRead disk' = gptRead disk := by
  by_cases hsig : (GPTHeader.of (disk 1#64)).signature = 0x5452415020494645#64
  · have hbad : badHeader (GPTHeader.of (disk 1#64)) := by
      by_contra hgood
      simp only [badHeader] at hgood
      push Not at hgood
      exact h ⟨hsig,hgood.2.2.2.2,hgood.2.2.2.1,hgood.1,hgood.2.1⟩
    refine ⟨⟨_,by rw [gptRead]; simp only [hsig,ne_eq,not_true,if_false,hbad,if_true]; rfl⟩,?_⟩
    intro disk' heq
    rw [gptRead,gptRead,heq]
    simp only [hsig,ne_eq,not_true,if_false,hbad,if_true]
  · refine ⟨⟨_,by rw [gptRead]; simp only [hsig,ne_eq,not_false_eq_true,if_true]; rfl⟩,?_⟩
    intro disk' heq
    rw [gptRead,gptRead,heq]
    simp only [hsig,ne_eq,not_false_eq_true,if_true]

theorem UniqueIn.filter_eq (h : UniqueIn disk n k) :
    (List.range n).filter (fun j => (entryAt disk j).isBasic) = [k] := by
  refine List.perm_singleton.mp ((List.perm_ext_iff_of_nodup (List.nodup_range.filter _)
    (List.nodup_singleton k)).mpr fun j => ?_)
  simp only [List.mem_filter,List.mem_range,List.mem_singleton]
  constructor
  · exact fun hj => h.only j hj.1 hj.2
  · rintro rfl
    exact ⟨h.lt,h.basic⟩

theorem basics_eq_map (disk : Disk) (n : ℕ) : basics disk n =
    ((List.range n).filter fun j => (entryAt disk j).isBasic).map (entryAt disk) := by
  rw [basics,List.filter_map]
  rfl

theorem UniqueIn.basics_eq (h : UniqueIn disk n k) : basics disk n = [entryAt disk k] := by
  rw [basics_eq_map,h.filter_eq]
  rfl

theorem uniqueIn_of_basics {e : PartitionEntry} (h : basics disk n = [e]) :
    ∃ k, UniqueIn disk n k := by
  rw [basics_eq_map] at h
  obtain ⟨k,hk,-⟩ := List.map_eq_singleton_iff.mp h
  have hmem (j : ℕ) : j < n ∧ (entryAt disk j).isBasic = true ↔ j = k := by
    rw [show j = k ↔ j ∈ [k] from List.mem_singleton.symm,← hk,List.mem_filter,List.mem_range]
  obtain ⟨hlt,hb⟩ := (hmem k).mpr rfl
  exact ⟨k,hlt,hb,fun j hj hbj => (hmem j).mp ⟨hj,hbj⟩⟩

theorem verdict_eq_ok_iff {p : Dma.Partition} :
    verdict (basics disk n) = .ok p ↔ ∃ k, UniqueIn disk n k ∧ (entryAt disk k).bounds = p := by
  constructor
  · intro h
    rcases hl : basics disk n with - | ⟨e,- | ⟨e',es⟩⟩
    · rw [hl] at h
      cases h
    · obtain ⟨k,hk⟩ := uniqueIn_of_basics hl
      rw [hk.basics_eq] at h
      exact ⟨k,hk,Except.ok.inj h⟩
    · rw [hl] at h
      cases h
  · rintro ⟨k,hk,rfl⟩
    rw [hk.basics_eq]
    rfl

/-- With two basic data partitions there is an error, whatever comes behind them. -/
theorem verdict_of_two {i j : ℕ} (hij : i < j) (hj : j < n) (hbi : (entryAt disk i).isBasic = true)
    (hbj : (entryAt disk j).isBasic = true) : verdict (basics disk n) = .error tooMany := by
  have hmem (m : ℕ) (hm : m < n) (hb : (entryAt disk m).isBasic = true) :
      m ∈ (List.range n).filter fun j => (entryAt disk j).isBasic :=
    List.mem_filter.mpr ⟨List.mem_range.mpr hm,hb⟩
  have hi := hmem i (by omega) hbi
  have hj := hmem j hj hbj
  rw [basics_eq_map]
  generalize (List.range n).filter (fun j => (entryAt disk j).isBasic) = l at hi hj
  rcases l with - | ⟨a,- | ⟨b,l⟩⟩
  · cases hi
  · have hia := List.mem_singleton.mp hi
    have hja := List.mem_singleton.mp hj
    omega
  · rfl

theorem basics_congr (h : ∀ k < n, entryAt disk' k = entryAt disk k) :
    basics disk' n = basics disk n := by
  rw [basics,basics,List.map_congr_left fun k hk => h k (List.mem_range.mp hk)]

/-- Only the header and the 32 blocks behind it are read. -/
theorem scanBlocks_congr (h : ∀ lba : U64, lba.toNat < 34 → disk' lba = disk lba) (rounds : ℕ)
    {i : U32} (hi : i.toNat + rounds ≤ 34) (part : Dma.Partition) :
    scanBlocks disk' rounds i part = scanBlocks disk rounds i part := by
  induction rounds generalizing i part with
  | zero => rfl
  | succ rounds ih =>
    have hlba : (i.setWidth 64).toNat < 34 := by
      rw [BitVec.toNat_setWidth]
      omega
    have hnext : (i + 1#32).toNat + rounds ≤ 34 := by
      rw [BitVec.toNat_add,show (1#32).toNat = 1 from rfl]
      omega
    rw [scanBlocks,scanBlocks,h _ hlba]
    exact congrArg (Except.bind _) (funext fun part => ih hnext part)

theorem gptRead_congr (h : ∀ lba : U64, lba.toNat < 34 → disk' lba = disk lba) :
    gptRead disk' = gptRead disk := by
  rw [gptRead,gptRead,h 1#64 (by decide),scanBlocks_congr h 32 (by decide)]

end Result

/-! The function over the heap, with a controller that delivers the blocks. -/

section Buffers
variable {fuel : ℕ} {s s' : Dma.State} {part part' : Dma.Partition} {header entries : U64}
  {block : ℕ → U8}

theorem u64At_eq {a : U64} (h : ∀ k < 512, s.heap.bytes (a + BitVec.ofNat 64 k) = block k) {o : ℕ}
    (ho : o + 8 ≤ 512) : s.u64At (a + BitVec.ofNat 64 o) = u64In block o := by
  rw [Dma.State.u64At,load,u64In]
  refine word_congr fun k hk => ?_
  rw [BitVec.add_assoc,← BitVec.ofNat_add]
  exact h (o + k) (by omega)

theorem scanEntries_refines
    (hbytes : ∀ k < 512, s.heap.bytes (entries + BitVec.ofNat 64 k) = block k) {rounds j : ℕ}
    (hj : j + rounds ≤ 4)
    (h : Dma.scanEntries fuel header entries rounds (entries + BitVec.ofNat 64 (128 * j)) part s =
      .done part' s') : s' = s ∧ scanEntries block rounds j part = .ok part' := by
  induction rounds generalizing j part with
  | zero =>
    obtain ⟨rfl,rfl⟩ := Outcome.done.inj h
    exact ⟨rfl,rfl⟩
  | succ rounds ih =>
    have hword (o : ℕ) (ho : o + 8 ≤ 128) :
        s.u64At (entries + BitVec.ofNat 64 (128 * j) + BitVec.ofNat 64 o) =
          u64In block (128 * j + o) := by
      rw [BitVec.add_assoc,← BitVec.ofNat_add]
      exact u64At_eq hbytes (by omega)
    have hguid0 : s.u64At (entries + BitVec.ofNat 64 (128 * j)) =
        (PartitionEntry.of block j).guid0 := by
      have hfirst := hword 0 (by decide)
      rwa [BitVec.add_zero,Nat.add_zero] at hfirst
    have hguid1 : s.u64At (entries + BitVec.ofNat 64 (128 * j) + 8#64) =
        (PartitionEntry.of block j).guid1 := hword 8 (by decide)
    have hbounds : (⟨s.u64At (entries + BitVec.ofNat 64 (128 * j) + 32#64),
        s.u64At (entries + BitVec.ofNat 64 (128 * j) + 40#64)⟩ : Dma.Partition) =
          (PartitionEntry.of block j).bounds :=
      congrArg₂ Dma.Partition.mk (hword 32 (by decide)) (hword 40 (by decide))
    have hnext : entries + BitVec.ofNat 64 (128 * j) + 128#64 =
        entries + BitVec.ofNat 64 (128 * (j + 1)) := by
      rw [BitVec.add_assoc,Nat.mul_add,BitVec.ofNat_add]
    rw [Dma.scanEntries,hguid0,hguid1,hbounds,hnext] at h
    rw [scanEntries,scanEntry]
    generalize PartitionEntry.of block j = e at h ⊢
    by_cases hzero : e.guid0 = 0#64 ∧ e.guid1 = 0#64
    · rw [if_pos hzero] at h ⊢
      exact ih (by omega) h
    rw [if_neg hzero] at h ⊢
    by_cases hother : e.guid0 ≠ 0x4433B9E5EBD0A0A2#64 ∨ e.guid1 ≠ 0xC79926B7B668C087#64
    · rw [if_pos hother] at h ⊢
      exact ih (by omega) h
    rw [if_neg hother] at h ⊢
    by_cases hfound : part.firstLba ≠ 0#64 ∨ part.lastLba ≠ 0#64
    · rw [if_pos hfound] at h
      obtain ⟨_,s₁,-,h⟩ := Outcome.bind_eq_done.mp h
      obtain ⟨_,s₂,-,h⟩ := Outcome.bind_eq_done.mp h
      cases h
    · rw [if_neg hfound] at h ⊢
      exact ih (by omega) h

theorem scanBlocks_refines (hfits : s.tables.FitsPages entries 512) {rounds : ℕ} {i : U32}
    (h : Dma.scanBlocks (Dma.readsFrom disk) fuel header entries rounds i part s =
      .done part' s') : scanBlocks disk rounds i part = .ok part' := by
  induction rounds generalizing i part s with
  | zero =>
    obtain ⟨rfl,-⟩ := Outcome.done.inj h
    rfl
  | succ rounds ih =>
    obtain ⟨_,s₁,hread,hrest⟩ := Outcome.bind_eq_done.mp h
    obtain ⟨_,s₂,hscan,hblocks⟩ := Outcome.bind_eq_done.mp hrest
    obtain ⟨_,hread',hblock⟩ := (Dma.nvmeRead_delivers_iff (i.setWidth 64) entries).mpr hfits disk
    obtain ⟨-,rfl⟩ := Outcome.done.inj (hread.symm.trans hread')
    have hstart : entries = entries + BitVec.ofNat 64 (128 * 0) := (BitVec.add_zero entries).symm
    nth_rewrite 2 [hstart] at hscan
    obtain ⟨rfl,hentries⟩ := scanEntries_refines hblock (by decide) hscan
    rw [scanBlocks,hentries]
    refine ih ?_ hblocks
    rwa [Dma.nvmeRead_tables hread]

/-- What the function over the heap returns is what is returned here, if the two buffers fit their
pages. -/
theorem gptRead_refines
    (hfits : ∀ p s₁, Dma.vcalloc fuel Dma.nvmeLbaSize s = .done p s₁ → s₁.tables.FitsPages p 512 ∧
      ∀ s₂ q s₃, Dma.nvmeRead (Dma.readsFrom disk) 1#64 1#16 p s₁ = .done () s₂ →
        Dma.vcalloc fuel Dma.nvmeLbaSize s₂ = .done q s₃ → s₃.tables.FitsPages q 512)
    (h : Dma.gptRead (Dma.readsFrom disk) fuel s = .done part s') : gptRead disk = .ok part := by
  obtain ⟨p,s₁,hp,h⟩ := Outcome.bind_eq_done.mp h
  obtain ⟨hp1,hfits⟩ := hfits p s₁ hp
  obtain ⟨_,s₂,hread,h⟩ := Outcome.bind_eq_done.mp h
  obtain ⟨_,hread',hblock⟩ := (Dma.nvmeRead_delivers_iff 1#64 p).mpr hp1 disk
  obtain ⟨-,rfl⟩ := Outcome.done.inj (hread.symm.trans hread')
  have hword (o : ℕ) (ho : o + 8 ≤ 512) : s₂.u64At (p + BitVec.ofNat 64 o) = u64In (disk 1#64) o :=
    u64At_eq hblock ho
  have hsig : s₂.u64At p = (GPTHeader.of (disk 1#64)).signature := by
    have hfirst := hword 0 (by decide)
    rwa [BitVec.add_zero] at hfirst
  have hbad : Dma.badHeader s₂ p ↔ badHeader (GPTHeader.of (disk 1#64)) := by
    simp only [Dma.badHeader,badHeader,GPTHeader.of,u32In,Dma.State.u32At,hword 72 (by decide),
      hword 84 (by decide),hword 24 (by decide),hword 12 (by decide)]
  rw [hsig] at h
  simp only [hbad] at h
  rw [gptRead]
  by_cases hno : (GPTHeader.of (disk 1#64)).signature ≠ 0x5452415020494645#64
  · rw [if_pos hno] at h
    cases h
  rw [if_neg hno] at h ⊢
  by_cases hwrong : badHeader (GPTHeader.of (disk 1#64))
  · rw [if_pos hwrong] at h
    cases h
  rw [if_neg hwrong] at h ⊢
  obtain ⟨q,s₃,hq,h⟩ := Outcome.bind_eq_done.mp h
  obtain ⟨found,s₄,hscan,h⟩ := Outcome.bind_eq_done.mp h
  obtain ⟨_,s₅,-,h⟩ := Outcome.bind_eq_done.mp h
  obtain ⟨_,s₆,-,h⟩ := Outcome.bind_eq_done.mp h
  rw [scanBlocks_refines (hfits s₂ q s₃ hread hq) hscan]
  by_cases hnone : found.firstLba = 0#64 ∧ found.lastLba = 0#64
  · rw [if_pos hnone] at h
    cases h
  rw [if_neg hnone] at h
  obtain ⟨rfl,-⟩ := Outcome.done.inj h
  exact if_neg hnone

end Buffers

end Lios.Gpt

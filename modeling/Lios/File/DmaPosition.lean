import Lios.File.GptTable

/-! # Where a cluster lies

The functions of the file system compute the block of a cluster each for itself. `fat32_read` keeps
it in a variable of 32 bits; the others compute with 64 bits, some after a subtraction with 32
bits. What a function asks for is read off the commands it issues: in every round of a loop, from
every state, and for every controller.
-/
namespace Lios.Dma
open Outcome
variable {α β : Type} {ctl : Controller} {fuel : ℕ} {s s' s'' : State} {l : List U64}
  {name ext : List U8} {b : U64} {t : Transfer}

/-- The block that a command asks for. -/
def Transfer.lba (t : Transfer) : U64 := t.entry.dword11 ++ t.entry.dword10

/-- The commands issued since `s` ask for the blocks of the list, as far as there are so many. -/
def State.Follows (s : State) (l : List U64) (s' : State) : Prop :=
  ∃ ts, s'.issued = s.issued ++ ts ∧ ∀ (k : ℕ) (t : Transfer) (b : U64),
    ts[k]? = some t → l[k]? = some b → t.lba = b

/-- Wherever the call ends, its first commands ask for the blocks of the list. -/
abbrev Begins (s : State) (l : List U64) (x : Outcome State α) : Prop :=
  x.Ends (s.Follows l) (s.Follows l) True

section Commands

theorem State.Follows.refl : s.Follows l s := ⟨[],by simp,by simp⟩

theorem State.Follows.nil (h : s.Follows l s') : s.Follows [] s' := by
  obtain ⟨ts,hts,-⟩ := h
  exact ⟨ts,hts,by simp⟩

theorem State.Follows.cons (h : s'.Follows l s'') (ht : s'.issued = s.issued ++ [t])
    (hb : t.lba = b) : s.Follows (b :: l) s'' := by
  obtain ⟨ts,hts,hall⟩ := h
  refine ⟨t :: ts,by rw [hts,ht,List.append_assoc,List.singleton_append],fun k t' b' ht' hb' => ?_⟩
  cases k with
  | zero =>
    obtain rfl := Option.some.inj ht'
    obtain rfl := Option.some.inj hb'
    exact hb
  | succ k => exact hall k t' b' ht' hb'

theorem Begins.nil {x : Outcome State α} (h : Begins s l x) : Begins s [] x :=
  h.imp (fun _ => State.Follows.nil) (fun _ => State.Follows.nil) id

/-- The heap issues no commands. -/
theorem begins_lift (f : Heap → Outcome Heap α) : Begins s l (State.heapLens.lift f s) := by
  have hsame (heap : Heap) : s.Follows l { s with heap := heap } :=
    ⟨[],by rw [List.append_nil],by simp⟩
  rw [Lens.lift]
  cases f (State.heapLens.get s) with
  | done a heap => exact hsame heap
  | panic m heap => exact hsame heap
  | fault heap => exact hsame heap
  | spin => trivial

theorem begins_lift_bind {f : Heap → Outcome Heap α} {g : α → State → Outcome State β}
    (h : ∀ a heap, Begins { s with heap := heap } l (g a { s with heap := heap })) :
    Begins s l ((State.heapLens.lift f s).bind g) := by
  refine (begins_lift f).bind fun a s' hdone => ?_
  obtain ⟨heap,-,rfl⟩ := Lens.lift_eq_done.mp hdone
  exact h a heap

theorem begins_submit {buffer : U64} {entry : Nvme.SubmissionEntry}
    {g : Unit → State → Outcome State β} (hb : entry.dword11 ++ entry.dword10 = b)
    (h : ∀ heap issued, Begins { s with heap := heap, issued := issued } l
      (g () { s with heap := heap, issued := issued })) :
    Begins s (b :: l) ((submit ctl buffer entry s).bind g) := by
  have ht : Transfer.lba ⟨buffer,s.tables,entry⟩ = b := hb
  rw [submit]
  cases ctl (s.issued ++ [⟨buffer,s.tables,entry⟩]) s.heap with
  | none => exact State.Follows.refl.cons rfl ht
  | some heap =>
    have hrest := h heap (s.issued ++ [⟨buffer,s.tables,entry⟩])
    exact hrest.imp (fun _ hf => hf.cons rfl ht) (fun _ hf => hf.cons rfl ht) id

theorem begins_nvmeRead {lba buffer : U64} {g : Unit → State → Outcome State β}
    (h : ∀ heap issued, Begins { s with heap := heap, issued := issued } l
      (g () { s with heap := heap, issued := issued })) :
    Begins s (lba :: l) ((nvmeRead ctl lba 1#16 buffer s).bind g) :=
  begins_submit (lba_ioEntry 2#8 2#16 lba _ 1#16) h

theorem begins_nvmeWrite {lba buffer : U64} {g : Unit → State → Outcome State β}
    (h : ∀ heap issued, Begins { s with heap := heap, issued := issued } l
      (g () { s with heap := heap, issued := issued })) :
    Begins s (lba :: l) ((nvmeWrite ctl lba 1#16 buffer s).bind g) :=
  begins_submit (lba_ioEntry 1#8 1#16 lba _ 1#16) h

end Commands

section Functions

theorem begins_checkDirectoryEntryForFile (c : U32) :
    Begins s [(c - 2#32).setWidth 64 + s.dataStartLba]
      (checkDirectoryEntryForFile ctl fuel c name ext s) := by
  refine begins_lift_bind fun directory heap => begins_nvmeRead fun heap issued => ?_
  exact begins_lift_bind fun _ heap => State.Follows.refl

/-- A round of `fat32_read`. -/
theorem begins_readLoop (size : U32) (buffer : U64) (rounds : ℕ) (i c : U32) :
    Begins s [((s.dataStartLba + c.setWidth 64 - 2#64).setWidth 32).setWidth 64]
      (readLoop ctl size buffer rounds i c s) := by
  induction rounds generalizing i c s with
  | zero => exact State.Follows.refl
  | succ rounds ih =>
    rw [readLoop]
    split
    · exact State.Follows.refl
    · exact begins_nvmeRead fun heap issued => (ih _ _).nil

/-- A round of the search for a slot in `fat32_new_file`. -/
theorem begins_findSlot (directory : U64) (rounds : ℕ) (cluster : U64) :
    Begins s [cluster - 2#64 + s.dataStartLba] (findSlot ctl directory rounds cluster s) := by
  induction rounds generalizing cluster s with
  | zero => trivial
  | succ rounds ih =>
    rw [findSlot]
    refine begins_nvmeRead fun heap issued => ?_
    generalize Fat32.usableIndex _ = i
    split
    · exact State.Follows.refl
    split
    · exact State.Follows.refl
    split
    · exact State.Follows.refl
    · exact (ih _).nil

/-- The writes of `fat32_new_file`: to the table, to the directory and to the file. -/
theorem begins_writeBack (first : U32) (cluster directory : U64) :
    Begins s [s.fatStartLba + (first / 512#32).setWidth 64,cluster - 2#64 + s.dataStartLba,
      (first - 2#32).setWidth 64 + s.dataStartLba] (writeBack ctl fuel first cluster directory s) := by
  refine begins_nvmeWrite fun heap issued => begins_nvmeWrite fun heap issued => ?_
  refine begins_lift_bind fun empty heap => begins_nvmeWrite fun heap issued => ?_
  exact begins_lift_bind fun _ heap => begins_lift _

end Functions

/-- The `k`-th command of a call, if it comes so far, asks for the block `b`. -/
def Asks (k : ℕ) (b : U64) (s : State) (x : Outcome State α) : Prop :=
  x.Ends (fun s' => ∃ ts, s'.issued = s.issued ++ ts ∧ ∀ t, ts[k]? = some t → t.lba = b)
    (fun s' => ∃ ts, s'.issued = s.issued ++ ts ∧ ∀ t, ts[k]? = some t → t.lba = b) True

theorem Begins.asks {x : Outcome State α} (h : Begins s l x) {k : ℕ} (hk : l[k]? = some b) :
    Asks k b s x := by
  have hf (s' : State) (hf : s.Follows l s') :
      ∃ ts, s'.issued = s.issued ++ ts ∧ ∀ t : Transfer, ts[k]? = some t → t.lba = b := by
    obtain ⟨ts,hts,hall⟩ := hf
    exact ⟨ts,hts,fun t ht => hall k t b ht hk⟩
  exact h.imp hf hf id

/-- Where a cluster lies, for the functions that read or write it. -/
structure SamePlace (ctl : Controller) (fuel : ℕ) (s : State) (c : U32) (b : U64) : Prop where
  /-- A round of `fat32_read`. -/
  read : ∀ size buffer rounds i, Asks 0 b s (readLoop ctl size buffer rounds i c s)
  lookup : ∀ name ext, Asks 0 b s (checkDirectoryEntryForFile ctl fuel c name ext s)
  /-- A round of the search for a slot in `fat32_new_file`. -/
  slot : ∀ directory rounds, Asks 0 b s (findSlot ctl directory rounds (c.setWidth 64) s)
  /-- The directory is written after the table. -/
  entry : ∀ first directory,
    Asks 1 b s (writeBack ctl fuel first (c.setWidth 64) directory s)
  /-- The first block of the file is written last. -/
  file : ∀ cluster directory, Asks 2 b s (writeBack ctl fuel c cluster directory s)

section Places
variable {c : U32} {d : U64}

theorem place_eq (d : U64) (c : U32) : c.setWidth 64 - 2#64 + d = d + c.setWidth 64 - 2#64 := by
  rw [sub_add_eq_add_sub,add_comm]

/-- The subtraction with 32 bits. -/
theorem narrow_place_eq (d : U64) (hc : 2 ≤ c.toNat) :
    (c - 2#32).setWidth 64 + d = d + c.setWidth 64 - 2#64 := by
  rw [← place_eq]
  congr 1
  apply BitVec.eq_of_toNat_eq
  have hlt := c.isLt
  rw [BitVec.toNat_setWidth,BitVec.toNat_sub,BitVec.toNat_sub,BitVec.toNat_setWidth,
    show (2#64).toNat = 2 from rfl,show (2#32).toNat = 2 from rfl]
  omega

theorem setWidth_32_eq_iff : (d.setWidth 32).setWidth 64 = d ↔ d.toNat < 2 ^ 32 := by
  constructor
  · intro h
    rw [← h,BitVec.toNat_setWidth,BitVec.toNat_setWidth]
    omega
  · intro h
    apply BitVec.eq_of_toNat_eq
    rw [BitVec.toNat_setWidth,BitVec.toNat_setWidth]
    omega

/-- What a call of `fat32_read` for one block asks for can be seen, whatever the controller does. -/
theorem lba_of_asks_readLoop (h : Asks 0 b s (readLoop ctl 1#32 0#64 1 0#32 c s)) :
    ((s.dataStartLba + c.setWidth 64 - 2#64).setWidth 32).setWidth 64 = b := by
  set lba : U64 := ((s.dataStartLba + c.setWidth 64 - 2#64).setWidth 32).setWidth 64 with hlba
  let t : Transfer := ⟨0#64,s.tables,Nvme.nvmeReadEntry lba 1#16 (s.tables.pageVirtToPhysAddr 0#64)⟩
  have hends : ∃ ts, s.issued ++ [t] = s.issued ++ ts ∧
      ∀ t : Transfer, ts[0]? = some t → t.lba = b := by
    have hrun : readLoop ctl 1#32 0#64 1 0#32 c s =
        (submit ctl 0#64 t.entry s).bind fun _ s => readLoop ctl 1#32 0#64 0 1#32 c s := rfl
    rw [hrun,submit] at h
    cases hctl : ctl (s.issued ++ [t]) s.heap with
    | none => simpa [t,hctl,Asks,Ends,Outcome.bind] using h
    | some heap => simpa [t,hctl,Asks,Ends,Outcome.bind,readLoop] using h
  obtain ⟨ts,hts,hall⟩ := hends
  obtain rfl := List.append_cancel_left hts
  rw [← hall t rfl]
  exact (lba_ioEntry 2#8 2#16 lba _ 1#16).symm

end Places

/-- All functions find a cluster at the same block if and only if the number of the block fits into
32 bits. -/
theorem samePlace_iff (ctl : Controller) (fuel : ℕ) (s : State) {c : U32} (hc : 2 ≤ c.toNat) :
    SamePlace ctl fuel s c (s.dataStartLba + c.setWidth 64 - 2#64) ↔
      (s.dataStartLba + c.setWidth 64 - 2#64).toNat < 2 ^ 32 := by
  constructor
  · intro h
    exact setWidth_32_eq_iff.mp (lba_of_asks_readLoop (h.read 1#32 0#64 1 0#32))
  · intro h
    refine ⟨?_,?_,?_,?_,?_⟩
    · intro size buffer rounds i
      refine (begins_readLoop size buffer rounds i c).asks ?_
      rw [setWidth_32_eq_iff.mpr h]
      rfl
    · intro name ext
      refine (begins_checkDirectoryEntryForFile c).asks ?_
      rw [narrow_place_eq _ hc]
      rfl
    · intro directory rounds
      refine (begins_findSlot directory rounds (c.setWidth 64)).asks ?_
      rw [place_eq]
      rfl
    · intro first directory
      refine (begins_writeBack first (c.setWidth 64) directory).asks ?_
      rw [place_eq]
      rfl
    · intro cluster directory
      refine (begins_writeBack c cluster directory).asks ?_
      rw [narrow_place_eq _ hc]
      rfl

section Sample

/-- A disk whose only partition begins at the block `2 ^ 32` and holds a volume. -/
def farDisk (lba : U64) (j : ℕ) : U8 :=
  if lba = 0x100000000#64 then
    ([0xE9#8] ++ List.replicate 11 0#8 ++ [2#8,1#8] ++ List.replicate 2 0#8 ++ [2#8] ++
      List.replicate 15 0#8 ++ [100#8] ++ List.replicate 3 0#8 ++ [8#8] ++ List.replicate 7 0#8 ++
      [2#8] ++ List.replicate 465 0#8 ++ [0x55#8,0xAA#8]).getD j 0#8
  else Gpt.tableWith 128#8 0 0x100000000#64 0x1000000C8#64 lba j

theorem farDisk_gptRead : Gpt.gptRead farDisk = .ok ⟨0x100000000#64,0x1000000C8#64⟩ := by
  have hdeclared : Gpt.declared (Gpt.tableWith 128#8 0 0x100000000#64 0x1000000C8#64) = 128 := by
    decide +kernel
  have hsame (lba : U64) (hlba : lba.toNat < 34) :
      farDisk lba = Gpt.tableWith 128#8 0 0x100000000#64 0x1000000C8#64 lba := by
    funext j
    refine if_neg ?_
    rintro rfl
    exact absurd hlba (by decide)
  rw [Gpt.gptRead_congr hsame]
  exact Gpt.gptRead_tableWith (by decide) (by decide +kernel)
    (Gpt.nonzero_tableWith (by decide) hdeclared.le (by decide))

/-- `vmm_init`, `vmalloc_init` and `fat32_init` with this partition. -/
def farBoot : Outcome State Unit :=
  (State.heapLens.lift ((Vmalloc.envLens _).lift (Vmm.vmmInit (kernelPageCalls 600)))
    holeStart).bind fun _ s =>
  (State.heapLens.lift (Vmalloc.vmallocInit (vmmCalls 600)) s).bind fun _ s =>
  fat32Init (readsFrom farDisk) 600 ⟨0x100000000#64,0x1000000C8#64⟩ s

/-- The call returns, and this is where the data area begins. -/
def dataStartsAt (b : U64) : Outcome State Unit → Bool
  | .done _ s => s.dataStartLba == b
  | _ => false

theorem exists_of_dataStartsAt {x : Outcome State Unit} (h : dataStartsAt b x = true) :
    ∃ s, x = .done () s ∧ s.dataStartLba = b := by
  cases x with
  | done _ s => exact ⟨s,rfl,beq_iff_eq.mp h⟩
  | panic m s => cases h
  | fault s => cases h
  | spin => cases h

theorem farBoot_dataStart : ∃ s, farBoot = .done () s ∧ s.dataStartLba = 0x100000010#64 :=
  exists_of_dataStartsAt (by decide +kernel)

/-- On this volume `fat32_read` looks for the cluster 3 in a block of another partition. -/
theorem farBoot_not_samePlace : Gpt.gptRead farDisk = .ok ⟨0x100000000#64,0x1000000C8#64⟩ ∧
    ∃ s, farBoot = .done () s ∧
      ¬SamePlace (readsFrom farDisk) 600 s 3#32 (s.dataStartLba + (3#32).setWidth 64 - 2#64) := by
  obtain ⟨s,hboot,hstart⟩ := farBoot_dataStart
  refine ⟨farDisk_gptRead,s,hboot,fun h => ?_⟩
  have hread := lba_of_asks_readLoop (h.read 1#32 0#64 1 0#32)
  rw [hstart] at hread
  exact absurd hread (by decide)

/-- On the volume at the block 34 the places agree. -/
theorem holeStart_samePlace :
    SamePlace (readsFrom holeDisk) 600 { holeStart with dataStartLba := 50#64 } 3#32
      ((50#64 : U64) + (3#32).setWidth 64 - 2#64) :=
  (samePlace_iff (readsFrom holeDisk) 600 { holeStart with dataStartLba := 50#64 } (c := 3#32)
    (by decide)).mpr (by decide)

end Sample

end Lios.Dma

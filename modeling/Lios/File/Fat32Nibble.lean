import Lios.File.Fat32Lookup

/-! # The high bits of the table entries

FAT32 entries have 28 bits, and the four bits above them are reserved. The walks of `fat32_open`
and `fat32_read` use the whole word as an index, and the test for the end of a chain asks for the
high bits to be zero. Two tables that differ in reserved bits only are compared: a call behaves the
same if the entries it looks at are the same, and for `fat32_read` only then.
-/
namespace Lios.Fat32
variable {v : Volume} {fat' : ℕ → U32} {name ext : List U8}

/-- The volume with another table in memory. -/
def withFat (v : Volume) (fat' : ℕ → U32) : Volume := { v with fat := fat' }

def highNibble (e : U32) : U32 := e >>> 28

/-- The entries of the two tables agree in their low 28 bits. Behind the tables the memory is the
same. -/
structure LowAgree (v : Volume) (fat' : ℕ → U32) : Prop where
  low : ∀ k < 128 * v.fatSize.toNat, v.fat k &&& 0xFFFFFFF#32 = fat' k &&& 0xFFFFFFF#32
  behind : ∀ k, 128 * v.fatSize.toNat ≤ k → v.fat k = fat' k

/-! The entries that a call looks at. -/

def searchEntries (v : Volume) (name ext : List U8) : ℕ → U64 → List ℕ
  | 0,_ => []
  | fuel + 1,directoryCluster =>
    if checkDirectoryEntryForFile v (directoryCluster.setWidth 32) name ext ≠ 0#32 then [] else
    let next := v.fat directoryCluster.toNat
    directoryCluster.toNat :: if next = 0#32 ∨ isEndingCluster next then []
      else searchEntries v name ext fuel (next.setWidth 64)

def countEntries (v : Volume) : ℕ → U64 → List ℕ
  | 0,_ => []
  | fuel + 1,currentSector =>
    let next := v.fat currentSector.toNat
    currentSector.toNat :: if next = 0#32 ∨ isEndingCluster next then []
      else countEntries v fuel (next.setWidth 64)

/-- The walk through the directory, and the walk along the file if it was found. -/
def openEntries (v : Volume) (fuel : ℕ) (name ext : List U8) : List ℕ :=
  if 8 < name.length then []
  else if 3 < ext.length then []
  else searchEntries v name ext fuel v.rootDirLba ++
    match (getClusterNum fuel name ext v).returned with
    | none => []
    | some c => if c = 0#32 then [] else countEntries v fuel (c.setWidth 64)

def readEntries (v : Volume) (size : U32) : ℕ → U32 → U32 → List ℕ
  | 0,_,_ => []
  | rounds + 1,i,cluster =>
    if i < size - 1#32 then
      if isEndingCluster cluster then []
      else cluster.toNat :: readEntries v size rounds (i + 1#32) (v.fat cluster.toNat)
    else readEntries v size rounds (i + 1#32) cluster

/-- The calls of `fat32_open` on the two volumes have the same result. -/
def SameOpen (v v' : Volume) (fuel : ℕ) (name ext : List U8) : Prop :=
  (fat32Open fuel name ext v).mapState (fun _ => ()) =
    (fat32Open fuel name ext v').mapState fun _ => ()

/-- The calls of `fat32_read` on the two volumes request the same blocks and return the same. -/
def SameRead (v v' : Volume) (cluster size : U32) (buffer : U64) (t : Transfers) : Prop :=
  (fat32Read v cluster size buffer t).1 = (fat32Read v' cluster size buffer t).1 ∧
    (fat32Read v cluster size buffer t).2.reads = (fat32Read v' cluster size buffer t).2.reads

section Bits

theorem eq_of_nibbles {a b : U32} (hlow : a &&& 0xFFFFFFF#32 = b &&& 0xFFFFFFF#32)
    (hhigh : highNibble a = highNibble b) : a = b := by
  have hand (x : U32) : (x &&& 0xFFFFFFF#32).toNat = x.toNat % 2 ^ 28 := by
    rw [BitVec.toNat_and]
    exact Nat.and_two_pow_sub_one_eq_mod x.toNat 28
  have hlow := congrArg BitVec.toNat hlow
  have hhigh := congrArg BitVec.toNat hhigh
  rw [hand,hand] at hlow
  rw [highNibble,highNibble,BitVec.toNat_ushiftRight,BitVec.toNat_ushiftRight,
    Nat.shiftRight_eq_div_pow,Nat.shiftRight_eq_div_pow] at hhigh
  exact BitVec.eq_of_toNat_eq (by omega)

theorem LowAgree.nibble_iff (h : LowAgree v fat') (k : ℕ) :
    highNibble (v.fat k) = highNibble (fat' k) ↔ v.fat k = fat' k := by
  refine ⟨fun hhigh => ?_,fun heq => by rw [heq]⟩
  by_cases hk : k < 128 * v.fatSize.toNat
  · exact eq_of_nibbles (h.low k hk) hhigh
  · exact h.behind k (by omega)

/-- Two end marks with the same low bits are the same. -/
theorem LowAgree.eq_of_ending (h : LowAgree v fat') {k : ℕ}
    (he : isEndingCluster (v.fat k) = true) (he' : isEndingCluster (fat' k) = true) :
    v.fat k = fat' k := by
  rw [isEndingCluster_iff] at he he'
  rw [← h.nibble_iff]
  apply BitVec.eq_of_toNat_eq
  rw [highNibble,highNibble,BitVec.toNat_ushiftRight,BitVec.toNat_ushiftRight,
    Nat.shiftRight_eq_div_pow,Nat.shiftRight_eq_div_pow]
  omega

/-- The number of a block determines the cluster, although it has 32 bits only. -/
theorem sectorOf_inj {a b : U32} (h : sectorOf v a = sectorOf v b) : a = b := by
  have h := congrArg BitVec.toNat h
  simp only [sectorOf,BitVec.toNat_setWidth,BitVec.toNat_sub,BitVec.toNat_add,
    BitVec.toNat_ofNat] at h
  have ha := a.isLt
  have hb := b.isLt
  exact BitVec.eq_of_toNat_eq (by omega)

end Bits

section Open

theorem searchDirectory_withFat {fuel : ℕ} {d : U64}
    (h : ∀ k ∈ searchEntries v name ext fuel d, v.fat k = fat' k) :
    (searchDirectory v name ext fuel d).mapState (withFat · fat') =
      searchDirectory (withFat v fat') name ext fuel d := by
  induction fuel generalizing d with
  | zero => rfl
  | succ fuel ih =>
    have hcheck : checkDirectoryEntryForFile (withFat v fat') (d.setWidth 32) name ext =
      checkDirectoryEntryForFile v (d.setWidth 32) name ext := rfl
    have hfat : (withFat v fat').fat d.toNat = fat' d.toNat := rfl
    rw [searchEntries] at h
    rw [searchDirectory,searchDirectory,hcheck,hfat]
    by_cases hfound : checkDirectoryEntryForFile v (d.setWidth 32) name ext = 0#32
    · simp only [hfound,ne_eq,not_true,if_false] at h ⊢
      have hd := h d.toNat List.mem_cons_self
      rw [← hd]
      split
      · rfl
      rename_i hne
      split
      · rfl
      rename_i hend
      refine ih fun k hk => h k (List.mem_cons_of_mem _ ?_)
      rw [if_neg (by simp [hne,hend])]
      exact hk
    · simp only [ne_eq,hfound,not_false_eq_true,if_true]
      rfl

theorem countClusters_withFat {fuel : ℕ} {cur num : U64}
    (h : ∀ k ∈ countEntries v fuel cur, v.fat k = fat' k) :
    (countClusters v fuel cur num).mapState (withFat · fat') =
      countClusters (withFat v fat') fuel cur num := by
  induction fuel generalizing cur num with
  | zero => rfl
  | succ fuel ih =>
    have hfat : (withFat v fat').fat cur.toNat = fat' cur.toNat := rfl
    rw [countEntries] at h
    have hd := h cur.toNat List.mem_cons_self
    rw [countClusters,countClusters,hfat,← hd]
    split
    · rfl
    rename_i hne
    split
    · rfl
    rename_i hend
    refine ih fun k hk => h k (List.mem_cons_of_mem _ ?_)
    rw [if_neg (by simp [hne,hend])]
    exact hk

theorem fat32Open_withFat {fuel : ℕ} (h : ∀ k ∈ openEntries v fuel name ext, v.fat k = fat' k) :
    (fat32Open fuel name ext v).mapState (withFat · fat') =
      fat32Open fuel name ext (withFat v fat') := by
  rw [openEntries] at h
  rw [fat32Open,fat32Open]
  split
  · rfl
  rename_i hname
  split
  · rfl
  rename_i hext
  rw [if_neg hname,if_neg hext] at h
  have hsearch : (getClusterNum fuel name ext v).mapState (withFat · fat') =
      getClusterNum fuel name ext (withFat v fat') := by
    rw [getClusterNum,getClusterNum,if_neg hname,if_neg hext,if_neg hname,if_neg hext]
    exact searchDirectory_withFat fun k hk => h k (List.mem_append_left _ hk)
  rw [← hsearch]
  refine Outcome.mapState_bind fun c u hget => ?_
  obtain rfl := getClusterNum_state hget
  split
  · rfl
  rename_i hc
  have hcount (num : U64) : (countClusters u fuel (c.setWidth 64) num).mapState (withFat · fat') =
      countClusters (withFat u fat') fuel (c.setWidth 64) num := by
    refine countClusters_withFat fun k hk => h k (List.mem_append_right _ ?_)
    rw [hget]
    change k ∈ if c = 0#32 then [] else countEntries u fuel (c.setWidth 64)
    rw [if_neg hc]
    exact hk
  rw [← hcount]
  exact Outcome.mapState_bind fun _ _ _ => rfl

end Open

section Read
variable {size : U32} {buffer : U64} {t t' : Transfers}

theorem readLoop_reads (v : Volume) (size : U32) (buffer : U64) (rounds : ℕ) (i c : U32) (t : Transfers) :
    ∃ more, (readLoop v size buffer rounds i c t).2.reads = t.reads ++ more := by
  induction rounds generalizing i c t with
  | zero => exact ⟨[],(List.append_nil _).symm⟩
  | succ rounds ih =>
    have hstep (c' : U32) : ∃ more, (readLoop v size buffer rounds (i + 1#32) c'
        (nvmeRead v (sectorOf v c) (buffer + (i * 512#32).setWidth 64) t)).2.reads =
          t.reads ++ more := by
      obtain ⟨more,hmore⟩ := ih (i + 1#32) c'
        (nvmeRead v (sectorOf v c) (buffer + (i * 512#32).setWidth 64) t)
      refine ⟨sectorOf v c :: more,hmore.trans ?_⟩
      rw [nvmeRead,List.append_assoc,List.singleton_append]
    rw [readLoop]
    split
    · split
      · exact ⟨[],(List.append_nil _).symm⟩
      · exact hstep _
    · exact hstep _

/-- A round requests the block of its cluster, unless the chain ends there too early. -/
theorem readLoop_head (v : Volume) (size : U32) (buffer : U64) (rounds : ℕ) (i c : U32) (t : Transfers) :
    (isEndingCluster c = true ∧ readLoop v size buffer (rounds + 1) i c t = (1#32,t)) ∨
    ∃ more, (readLoop v size buffer (rounds + 1) i c t).2.reads =
      t.reads ++ sectorOf v c :: more := by
  have hstep (c' : U32) : ∃ more, (readLoop v size buffer rounds (i + 1#32) c'
      (nvmeRead v (sectorOf v c) (buffer + (i * 512#32).setWidth 64) t)).2.reads =
        t.reads ++ sectorOf v c :: more := by
    obtain ⟨more,hmore⟩ := readLoop_reads v size buffer rounds
      (i + 1#32) c' (nvmeRead v (sectorOf v c) (buffer + (i * 512#32).setWidth 64) t)
    refine ⟨more,hmore.trans ?_⟩
    rw [nvmeRead,List.append_assoc,List.singleton_append]
  rw [readLoop]
  split
  · cases hend : isEndingCluster c with
    | true => exact .inl ⟨rfl,rfl⟩
    | false => exact .inr (hstep _)
  · exact .inr (hstep _)

/-- Two runs that go on from different entries of the tables are told apart by the next block. -/
theorem readLoop_differ (h : LowAgree v fat') (rounds : ℕ) (i : U32) {k : ℕ}
    (hreads : t.reads = t'.reads) (hne : v.fat k ≠ fat' k) :
    (readLoop v size buffer (rounds + 1) i (v.fat k) t).2.reads ≠
      (readLoop (withFat v fat') size buffer (rounds + 1) i (fat' k) t').2.reads := by
  intro heq
  rcases readLoop_head v size buffer rounds i (v.fat k) t with
    ⟨hend,hrun⟩ | ⟨more,hmore⟩ <;>
  rcases readLoop_head (withFat v fat') size buffer rounds i (fat' k) t' with
    ⟨hend',hrun'⟩ | ⟨more',hmore'⟩
  · exact hne (h.eq_of_ending hend hend')
  · rw [hrun,hmore',hreads] at heq
    have hlen := congrArg List.length heq
    simp at hlen
  · rw [hrun',hmore,hreads] at heq
    have hlen := congrArg List.length heq
    simp at hlen
  · rw [hmore,hmore',hreads] at heq
    have hhead := (List.cons.inj (List.append_cancel_left heq)).1
    exact hne (sectorOf_inj (v := v) hhead)

/-- The loop requests the same blocks and returns the same if and only if the entries it looks at
are the same. -/
theorem readLoop_same_iff (h : LowAgree v fat') {rounds i : ℕ} (hi : i + rounds = size.toNat)
    (c : U32) (hreads : t.reads = t'.reads) :
    ((readLoop v size buffer rounds (BitVec.ofNat 32 i) c t).1 =
        (readLoop (withFat v fat') size buffer rounds (BitVec.ofNat 32 i) c t').1 ∧
      (readLoop v size buffer rounds (BitVec.ofNat 32 i) c t).2.reads =
        (readLoop (withFat v fat') size buffer rounds (BitVec.ofNat 32 i) c t').2.reads) ↔
      ∀ k ∈ readEntries v size rounds (BitVec.ofNat 32 i) c, v.fat k = fat' k := by
  induction rounds generalizing i c t t' with
  | zero => exact ⟨fun _ k hk => absurd hk List.not_mem_nil,fun _ => ⟨rfl,hreads⟩⟩
  | succ rounds ih =>
    have hnext : BitVec.ofNat 32 i + 1#32 = BitVec.ofNat 32 (i + 1) := by rw [BitVec.ofNat_add]
    have hsector : (withFat v fat').dataStartLba = v.dataStartLba := rfl
    have hread {u u' : Transfers} (hu : u.reads = u'.reads) (lba target : U64) :
        (nvmeRead v lba target u).reads = (nvmeRead (withFat v fat') lba target u').reads := by
      rw [nvmeRead,nvmeRead,hu]
    rw [readLoop,readLoop,readEntries,hsector,hnext]
    by_cases hlast : BitVec.ofNat 32 i < size - 1#32
    · simp only [if_pos hlast]
      have hmore := (lt_size_sub_one (n := size) (by omega)).mp hlast
      cases hend : isEndingCluster c with
      | true => exact ⟨fun _ k hk => absurd hk List.not_mem_nil,fun _ => ⟨rfl,hreads⟩⟩
      | false =>
        simp only [Bool.false_eq_true,if_false,List.forall_mem_cons]
        have hfat : (withFat v fat').fat c.toNat = fat' c.toNat := rfl
        by_cases heq : v.fat c.toNat = fat' c.toNat
        · rw [hfat,← heq]
          simp only [true_and]
          exact ih (by omega) _ (hread hreads _ _)
        · -- there is a round left in which the two runs request different blocks
          obtain ⟨rounds,rfl⟩ : ∃ n, rounds = n + 1 := ⟨rounds - 1,by omega⟩
          refine ⟨fun hsame => absurd hsame.2 ?_,fun hall => absurd hall.1 heq⟩
          exact readLoop_differ h rounds _ (hread hreads _ _) heq
    · simp only [if_neg hlast]
      exact ih (by omega) c (hread hreads _ _)

end Read

/-- With two tables that differ in reserved bits only, `fat32_read` behaves the same if and only if
the entries it looks at have the same reserved bits, and `fat32_open` if they do. If `fat32_read`
behaves the same from every cluster, then the reserved bits are the same in every entry that can
be followed. -/
theorem highNibble_ignored_iff (h : LowAgree v fat') :
    (∀ cluster size buffer t, SameRead v (withFat v fat') cluster size buffer t ↔
      ∀ k ∈ readEntries v size size.toNat 0#32 cluster,
        highNibble (v.fat k) = highNibble (fat' k)) ∧
    (∀ fuel name ext, (∀ k ∈ openEntries v fuel name ext,
        highNibble (v.fat k) = highNibble (fat' k)) →
      SameOpen v (withFat v fat') fuel name ext) ∧
    ((∀ cluster size buffer t, SameRead v (withFat v fat') cluster size buffer t) →
      ∀ a : U32, isEndingCluster a = false →
        highNibble (v.fat a.toNat) = highNibble (fat' a.toNat)) := by
  have hreadIff (cluster size : U32) (buffer : U64) (t : Transfers) :
      SameRead v (withFat v fat') cluster size buffer t ↔
        ∀ k ∈ readEntries v size size.toNat 0#32 cluster,
          highNibble (v.fat k) = highNibble (fat' k) := by
    simp only [h.nibble_iff]
    exact readLoop_same_iff (i := 0) h (Nat.zero_add _) cluster rfl
  refine ⟨hreadIff,fun fuel name ext hopen => ?_,fun hall a ha => ?_⟩
  · have hrun := fat32Open_withFat fun k hk => (h.nibble_iff k).mp (hopen k hk)
    rw [SameOpen,← hrun]
    cases fat32Open fuel name ext v with
    | _ => rfl
  · -- a read of two clusters looks at the entry of the first
    have hentry := (hreadIff a 2#32 0#64 ⟨fun _ => 0#8,[]⟩).mp (hall _ _ _ _)
    refine hentry a.toNat ?_
    have hlist : readEntries v 2#32 2 0#32 a = [a.toNat] := by
      simp [readEntries,ha]
    exact hlist ▸ List.mem_singleton_self _

/-- The table of the file `A` with clusters 3 and 4, whose end mark has its reserved bits set. -/
def markedRow : ℕ → U32 := Function.update (rowVolume 1).fat 4 0xFFFFFFFF#32

theorem lowAgree_markedRow : LowAgree (rowVolume 1) markedRow where
  low k _ := by
    by_cases hk : k = 4
    · subst hk
      decide
    · rw [markedRow,Function.update_of_ne hk]
  behind k hk := by
    have hsize : (rowVolume 1).fatSize.toNat = 65537 := rfl
    rw [markedRow,Function.update_of_ne (by omega)]

/-- A read that does not look at the end mark. -/
theorem markedRow_sameRead : (rowVolume 1).fat 4 ≠ markedRow 4 ∧
    SameRead (rowVolume 1) (withFat (rowVolume 1) markedRow) 3#32 2#32 0#64 ⟨fun _ => 0#8,[]⟩ := by
  refine ⟨by decide,((highNibble_ignored_iff lowAgree_markedRow).1 _ _ _ _).mpr ?_⟩
  decide

/-- `fat32_open` counts three clusters with the marked table, and a read of three fails. -/
theorem markedRow_not_same : LowAgree (rowVolume 1) markedRow ∧
    ¬SameOpen (rowVolume 1) (withFat (rowVolume 1) markedRow) 3 [0x41#8] [] ∧
    ¬SameRead (rowVolume 1) (withFat (rowVolume 1) markedRow) 3#32 3#32 0#64 ⟨fun _ => 0#8,[]⟩ := by
  refine ⟨lowAgree_markedRow,fun hopen => ?_,fun hread => ?_⟩
  · have hreturned := congrArg Outcome.returned hopen
    revert hreturned
    decide +kernel
  · exact absurd hread.1 (by decide)

end Lios.Fat32

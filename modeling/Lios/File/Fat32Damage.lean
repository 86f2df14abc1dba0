import Lios.Lib.Chase
import Lios.File.Fat32

/-! # Opening a file of a damaged volume

The search in the root directory and the count of the clusters of a file follow the entries of the
table. Here both are written with a fault where an entry is read that was not read from the disk.
A call returns or panics, without such a read, if and only if both walks come to an entry that
ends them before they leave the table or repeat a cluster.
-/
namespace Lios.Fat32
variable {v : Volume} {name ext : List U8} {α : Type}

/-- `FAT[i]`, for the entries that were read from the disk. -/
def fatAt (v : Volume) (i : U64) (f : U32 → Outcome Volume α) : Outcome Volume α :=
  if i.toNat < 128 * v.fatSize.toNat then f (v.fat i.toNat) else .fault v

/-- The loop of `get_cluster_num` with checked entries. -/
def searchDirectoryIn (v : Volume) (name ext : List U8) : ℕ → U64 → Outcome Volume U32
  | 0,_ => .spin
  | fuel + 1,directoryCluster =>
    let fileCluster := checkDirectoryEntryForFile v (directoryCluster.setWidth 32) name ext
    if fileCluster ≠ 0#32 then .done fileCluster v else
    fatAt v directoryCluster fun next =>
    if next = 0#32 then .panic "FAT32: broken FAT!" v
    else if isEndingCluster next then .done 0#32 v
    else searchDirectoryIn v name ext fuel (next.setWidth 64)

def getClusterNumIn (fuel : ℕ) (name ext : List U8) (v : Volume) : Outcome Volume U32 :=
  if 8 < name.length then .done 0#32 v
  else if 3 < ext.length then .done 0#32 v
  else searchDirectoryIn v name ext fuel v.rootDirLba

/-- The counting loop of `fat32_open` with checked entries. -/
def countClustersIn (v : Volume) : ℕ → U64 → U64 → Outcome Volume U64
  | 0,_,_ => .spin
  | fuel + 1,currentSector,numClusters =>
    fatAt v currentSector fun next =>
    if next = 0#32 then .panic "FAT32: broken FAT!" v
    else if isEndingCluster next then .done (numClusters + 1#64) v
    else countClustersIn v fuel (next.setWidth 64) (numClusters + 1#64)

/-- `fat32_open` with checked entries. -/
def fat32OpenIn (fuel : ℕ) (name ext : List U8) (v : Volume) : Outcome Volume OpenResult :=
  if 8 < name.length then .done (.error .nameTooLong) v
  else if 3 < ext.length then .done (.error .extTooLong) v
  else (getClusterNumIn fuel name ext v).bind fun fileCluster v =>
    if fileCluster = 0#32 then .done (.error .notFound) v
    else (countClustersIn v fuel (fileCluster.setWidth 64) 0#64).bind fun numClusters v =>
      .done ⟨fileCluster,numClusters.setWidth 32⟩ v

theorem fatAt_settled {i : U64} {f : U32 → Outcome Volume α} (h : (fatAt v i f).Settled) :
    fatAt v i f = f (v.fat i.toNat) := by
  rw [fatAt]
  split
  · rfl
  · rename_i hout
    rw [fatAt,if_neg hout] at h
    exact h.elim

theorem searchDirectoryIn_settled {fuel : ℕ} {d : U64}
    (h : (searchDirectoryIn v name ext fuel d).Settled) :
    searchDirectory v name ext fuel d = searchDirectoryIn v name ext fuel d := by
  induction fuel generalizing d with
  | zero => rfl
  | succ fuel ih =>
    rw [searchDirectoryIn] at h ⊢
    rw [searchDirectory]
    split at h
    · rename_i hfound
      rw [if_pos hfound,if_pos hfound]
    · rename_i hfound
      rw [if_neg hfound,if_neg hfound,fatAt_settled h]
      rw [fatAt_settled h] at h
      dsimp only
      split_ifs at h ⊢ with hzero hend
      · rfl
      · rfl
      · exact ih h

theorem countClustersIn_settled {fuel : ℕ} {c num : U64}
    (h : (countClustersIn v fuel c num).Settled) :
    countClusters v fuel c num = countClustersIn v fuel c num := by
  induction fuel generalizing c num with
  | zero => rfl
  | succ fuel ih =>
    rw [countClustersIn] at h ⊢
    rw [countClusters,fatAt_settled h]
    rw [fatAt_settled h] at h
    split_ifs at h ⊢ with hzero hend
    · rfl
    · rfl
    · exact ih h

/-- A call that settles with checked entries is the call of the source. -/
theorem fat32OpenIn_settled {fuel : ℕ} (h : (fat32OpenIn fuel name ext v).Settled) :
    fat32Open fuel name ext v = fat32OpenIn fuel name ext v := by
  rw [fat32OpenIn] at h ⊢
  rw [fat32Open]
  split_ifs at h ⊢ with hname hext
  · rfl
  · rfl
  rw [getClusterNumIn,if_neg hname,if_neg hext] at h ⊢
  rw [getClusterNum,if_neg hname,if_neg hext]
  obtain ⟨hsearch,hrest⟩ := Outcome.settled_bind_iff.mp h
  rw [searchDirectoryIn_settled hsearch]
  cases hdone : searchDirectoryIn v name ext fuel v.rootDirLba with
  | done c u =>
    have hcount := hrest c u hdone
    rw [Outcome.bind_done,Outcome.bind_done]
    split_ifs at hcount ⊢ with hc
    · rfl
    · rw [countClustersIn_settled (Outcome.settled_bind_iff.mp hcount).1]
  | panic m u => rfl
  | fault u => rfl
  | spin => rfl

def nextCluster (v : Volume) (x : U64) : U64 := (v.fat x.toNat).setWidth 64

/-- The entry of a cluster is one that was read from the disk. -/
def InTable (v : Volume) (x : U64) : Prop := x.toNat < 128 * v.fatSize.toNat

/-- The entry of a cluster ends a walk. -/
def Final (v : Volume) (x : U64) : Prop :=
  v.fat x.toNat = 0#32 ∨ isEndingCluster (v.fat x.toNat) = true

instance (x : U64) : Decidable (InTable v x) := inferInstanceAs (Decidable (_ < _))
instance (x : U64) : Decidable (Final v x) := inferInstanceAs (Decidable (_ ∨ _))

/-- A round of a walk: what it does at the entry of a cluster, with the result `last` at the end of
a chain. -/
def tableRound (last : Outcome Volume α) (v : Volume) (x : U64) : Option (Outcome Volume α) :=
  if x.toNat < 128 * v.fatSize.toNat then
    if v.fat x.toNat = 0#32 then some (.panic "FAT32: broken FAT!" v)
    else if isEndingCluster (v.fat x.toNat) then some last
    else none
  else some (.fault v)

theorem tableRound_eq_none {last : Outcome Volume α} {x : U64} :
    tableRound last v x = none ↔ InTable v x ∧ ¬Final v x := by
  unfold tableRound InTable Final
  split_ifs with hin hzero hend
  · simp [hzero]
  · simp [hend]
  · simp [hin,hzero,hend]
  · simp [hin]

theorem final_of_tableRound {last o : Outcome Volume α} {x : U64}
    (h : tableRound last v x = some o) (hin : InTable v x) : Final v x := by
  by_contra hfinal
  rw [tableRound_eq_none.mpr ⟨hin,hfinal⟩] at h
  cases h

theorem tableRound_settled {last o : Outcome Volume α} {x : U64} (hlast : last.Settled)
    (h : tableRound last v x = some o) : o.Settled ↔ InTable v x := by
  unfold tableRound at h
  split_ifs at h with hin hzero hend
  · obtain rfl := Option.some.inj h
    exact iff_of_true trivial hin
  · obtain rfl := Option.some.inj h
    exact iff_of_true hlast hin
  · obtain rfl := Option.some.inj h
    exact iff_of_false id hin

theorem fatAt_eq {last : Outcome Volume α} {x : U64} (rest : U64 → Outcome Volume α) :
    (fatAt v x fun next =>
      if next = 0#32 then .panic "FAT32: broken FAT!" v
      else if isEndingCluster next then last else rest (next.setWidth 64)) =
      (tableRound last v x).getD (rest (nextCluster v x)) := by
  rw [fatAt,tableRound]
  split_ifs <;> rfl

/-- A walk from a cluster comes to an entry that ends it, in at most as many rounds as the table
has entries, and all of its clusters have an entry. -/
def Closes (v : Volume) (x : U64) : Prop :=
  ∃ k < 128 * v.fatSize.toNat, (∀ j ≤ k, InTable v ((nextCluster v)^[j] x)) ∧
    Final v ((nextCluster v)^[k] x)

theorem countClustersIn_settled_iff {fuel : ℕ} {c num : U64} :
    (countClustersIn v fuel c num).Settled ↔
      (chase (tableRound (.done () v) v) (nextCluster v) fuel c).Settled := by
  induction fuel generalizing c num with
  | zero => rfl
  | succ fuel ih =>
    rw [countClustersIn,fatAt_eq fun next => countClustersIn v fuel next (num + 1#64),chase]
    unfold tableRound
    split_ifs with hin hzero hend
    · rfl
    · rfl
    · exact ih
    · rfl

theorem toNat_injective : Function.Injective (BitVec.toNat : U64 → ℕ) :=
  fun _ _ => BitVec.eq_of_toNat_eq

/-- Counting settles if and only if the chain closes. -/
theorem countClustersIn_closes {c : U64} (num : U64) :
    (∃ m, ∀ fuel ≥ m, (countClustersIn v fuel c num).Settled) ↔ Closes v c := by
  simp only [countClustersIn_settled_iff]
  rw [chase_settled_iff]
  constructor
  · rintro ⟨k,o,hk,ho⟩
    have hbefore : ∀ j < k, InTable v ((nextCluster v)^[j] c) :=
      fun j hj => (tableRound_eq_none.mp (hk.before j hj)).1
    have hlast : InTable v ((nextCluster v)^[k] c) :=
      (tableRound_settled (Outcome.settled_done () v) hk.result).mp ho
    have hall : ∀ j ≤ k, InTable v ((nextCluster v)^[j] c) := by
      intro j hj
      rcases hj.lt_or_eq with hj | rfl
      · exact hbefore j hj
      · exact hlast
    exact ⟨k,hk.le_of_index toNat_injective le_rfl fun j hj => hall j (by omega),hall,
      final_of_tableRound hk.result hlast⟩
  · rintro ⟨k,-,hall,hfinal⟩
    have hne : tableRound (.done () v) v ((nextCluster v)^[k] c) ≠ none :=
      fun hnone => (tableRound_eq_none.mp hnone).2 hfinal
    obtain ⟨j,hj,o,ho⟩ := exists_endsAt hne
    exact ⟨j,o,ho,(tableRound_settled (Outcome.settled_done () v) ho.result).mpr (hall j hj)⟩

/-- The cluster of the file according to a cluster of the directory. -/
def entryFor (v : Volume) (name ext : List U8) (x : U64) : U32 :=
  checkDirectoryEntryForFile v (x.setWidth 32) name ext

def searchRound (v : Volume) (name ext : List U8) (x : U64) : Option (Outcome Volume U32) :=
  if entryFor v name ext x ≠ 0#32 then some (.done (entryFor v name ext x) v)
  else tableRound (.done 0#32 v) v x

theorem searchDirectoryIn_eq (fuel : ℕ) (x : U64) : searchDirectoryIn v name ext fuel x =
    chase (searchRound v name ext) (nextCluster v) fuel x := by
  induction fuel generalizing x with
  | zero => rfl
  | succ fuel ih =>
    rw [searchDirectoryIn,chase,searchRound,fatAt_eq fun next => searchDirectoryIn v name ext fuel next,
      ih]
    change (if entryFor v name ext x ≠ 0#32 then _ else _) = _
    split_ifs with hfound
    · rfl
    · rfl

theorem searchRound_found {x : U64} (h : entryFor v name ext x ≠ 0#32) :
    searchRound v name ext x = some (.done (entryFor v name ext x) v) := by
  rw [searchRound,if_pos h]

theorem searchRound_absent {x : U64} (h : entryFor v name ext x = 0#32) :
    searchRound v name ext x = tableRound (.done 0#32 v) v x := by
  rw [searchRound,if_neg (not_not_intro h)]

theorem searchRound_eq_none {x : U64} : searchRound v name ext x = none ↔
    entryFor v name ext x = 0#32 ∧ InTable v x ∧ ¬Final v x := by
  by_cases h : entryFor v name ext x = 0#32
  · rw [searchRound_absent h,tableRound_eq_none]
    exact (and_iff_right h).symm
  · rw [searchRound_found h]
    exact iff_of_false nofun fun hall => h hall.1

/-- The walk through the directory comes to a cluster that lists the file, whose chain closes, or
to an entry that ends the directory, and all clusters before it have an entry. -/
def DirectoryCloses (v : Volume) (name ext : List U8) : Prop :=
  ∃ k ≤ 128 * v.fatSize.toNat,
    (∀ j < k, InTable v ((nextCluster v)^[j] v.rootDirLba) ∧
      entryFor v name ext ((nextCluster v)^[j] v.rootDirLba) = 0#32) ∧
    (entryFor v name ext ((nextCluster v)^[k] v.rootDirLba) ≠ 0#32 ∧
        Closes v ((entryFor v name ext ((nextCluster v)^[k] v.rootDirLba)).setWidth 64) ∨
      entryFor v name ext ((nextCluster v)^[k] v.rootDirLba) = 0#32 ∧
        InTable v ((nextCluster v)^[k] v.rootDirLba) ∧
        Final v ((nextCluster v)^[k] v.rootDirLba))

section Open
variable (hname : ¬8 < name.length) (hext : ¬3 < ext.length)
include hname hext

theorem fat32OpenIn_eq (fuel : ℕ) : fat32OpenIn fuel name ext v =
    (chase (searchRound v name ext) (nextCluster v) fuel v.rootDirLba).bind fun fileCluster v =>
      if fileCluster = 0#32 then .done (.error .notFound) v
      else (countClustersIn v fuel (fileCluster.setWidth 64) 0#64).bind fun numClusters v =>
        .done ⟨fileCluster,numClusters.setWidth 32⟩ v := by
  rw [fat32OpenIn,if_neg hname,if_neg hext,getClusterNumIn,if_neg hname,if_neg hext,
    searchDirectoryIn_eq]

/-- A search that ends without the file settles the call. -/
theorem fat32OpenIn_of_absent {k : ℕ} {o : Outcome Volume U32}
    (h : EndsAt (searchRound v name ext) (nextCluster v) v.rootDirLba k o)
    (habsent : entryFor v name ext ((nextCluster v)^[k] v.rootDirLba) = 0#32)
    (hin : InTable v ((nextCluster v)^[k] v.rootDirLba)) {fuel : ℕ} (hfuel : k < fuel) :
    (fat32OpenIn fuel name ext v).Settled := by
  have hround := h.result
  rw [searchRound_absent habsent] at hround
  rw [fat32OpenIn_eq hname hext,h.chase_eq hfuel]
  unfold tableRound at hround
  split_ifs at hround with hzero hend
  · obtain rfl := Option.some.inj hround
    trivial
  · obtain rfl := Option.some.inj hround
    trivial
  · exact absurd hin ‹_›

theorem fat32OpenIn_of_found {k : ℕ} {o : Outcome Volume U32}
    (h : EndsAt (searchRound v name ext) (nextCluster v) v.rootDirLba k o)
    (hfound : entryFor v name ext ((nextCluster v)^[k] v.rootDirLba) ≠ 0#32) {fuel : ℕ}
    (hfuel : k < fuel) : (fat32OpenIn fuel name ext v).Settled ↔
      (countClustersIn v fuel
        ((entryFor v name ext ((nextCluster v)^[k] v.rootDirLba)).setWidth 64) 0#64).Settled := by
  obtain rfl := Option.some.inj ((searchRound_found hfound).symm.trans h.result)
  rw [fat32OpenIn_eq hname hext,h.chase_eq hfuel,Outcome.bind_done,if_neg hfound,
    Outcome.settled_bind_iff]
  exact and_iff_left fun _ _ _ => trivial

theorem fat32OpenIn_settled_iff :
    (∃ m, ∀ fuel ≥ m, (fat32OpenIn fuel name ext v).Settled) ↔ DirectoryCloses v name ext := by
  constructor
  · rintro ⟨m,hm⟩
    have hsearch : ∃ m, ∀ fuel ≥ m,
        (chase (searchRound v name ext) (nextCluster v) fuel v.rootDirLba).Settled := by
      refine ⟨m,fun fuel hfuel => ?_⟩
      have hopen := hm fuel hfuel
      rw [fat32OpenIn_eq hname hext,Outcome.settled_bind_iff] at hopen
      exact hopen.1
    obtain ⟨k,o,hk,ho⟩ := chase_settled_iff.mp hsearch
    have hbefore : ∀ j < k, InTable v ((nextCluster v)^[j] v.rootDirLba) ∧
        entryFor v name ext ((nextCluster v)^[j] v.rootDirLba) = 0#32 := by
      intro j hj
      obtain ⟨habsent,hin,-⟩ := searchRound_eq_none.mp (hk.before j hj)
      exact ⟨hin,habsent⟩
    refine ⟨k,hk.le_of_index toNat_injective (Nat.le_succ k) fun j hj => (hbefore j hj).1,hbefore,?_⟩
    by_cases hfound : entryFor v name ext ((nextCluster v)^[k] v.rootDirLba) = 0#32
    · have hround := hk.result
      rw [searchRound_absent hfound] at hround
      have hin := (tableRound_settled (Outcome.settled_done 0#32 v) hround).mp ho
      exact .inr ⟨hfound,hin,final_of_tableRound hround hin⟩
    · refine .inl ⟨hfound,(countClustersIn_closes 0#64).mp ⟨max m (k + 1),fun fuel hfuel => ?_⟩⟩
      have hopen := hm fuel (le_of_max_le_left hfuel)
      exact (fat32OpenIn_of_found hname hext hk hfound (le_of_max_le_right hfuel)).mp hopen
  · rintro ⟨k,-,hbefore,hlast⟩
    have hne : searchRound v name ext ((nextCluster v)^[k] v.rootDirLba) ≠ none := by
      intro hnone
      obtain ⟨habsent,-,hfinal⟩ := searchRound_eq_none.mp hnone
      rcases hlast with ⟨hfound,-⟩ | ⟨-,-,hend⟩
      · exact hfound habsent
      · exact hfinal hend
    obtain ⟨j,hj,o,ho⟩ := exists_endsAt hne
    rcases hj.lt_or_eq with hj | rfl
    · obtain ⟨hin,habsent⟩ := hbefore j hj
      exact ⟨j + 1,fun fuel hfuel => fat32OpenIn_of_absent hname hext ho habsent hin hfuel⟩
    · rcases hlast with ⟨hfound,hcloses⟩ | ⟨habsent,hin,-⟩
      · obtain ⟨m,hm⟩ := (countClustersIn_closes 0#64).mpr hcloses
        refine ⟨max m (j + 1),fun fuel hfuel => ?_⟩
        have hcount := hm fuel (le_of_max_le_left hfuel)
        exact (fat32OpenIn_of_found hname hext ho hfound (le_of_max_le_right hfuel)).mpr hcount
      · exact ⟨j + 1,fun fuel hfuel => fat32OpenIn_of_absent hname hext ho habsent hin hfuel⟩

end Open

/-- A call that settles with checked entries is the call of the source, and for every fuel that is
large enough it settles, if and only if the name is too long or the walk through the directory
and the chain of the file close. -/
theorem fat32Open_safe_iff (name ext : List U8) (v : Volume) :
    (∀ fuel, (fat32OpenIn fuel name ext v).Settled →
      fat32Open fuel name ext v = fat32OpenIn fuel name ext v) ∧
    ((∃ m, ∀ fuel ≥ m, (fat32OpenIn fuel name ext v).Settled) ↔
      8 < name.length ∨ 3 < ext.length ∨ DirectoryCloses v name ext) := by
  refine ⟨fun fuel => fat32OpenIn_settled,?_⟩
  by_cases hname : 8 < name.length
  · refine iff_of_true ⟨0,fun fuel _ => ?_⟩ (.inl hname)
    rw [fat32OpenIn,if_pos hname]
    trivial
  by_cases hext : 3 < ext.length
  · refine iff_of_true ⟨0,fun fuel _ => ?_⟩ (.inr (.inl hext))
    rw [fat32OpenIn,if_neg hname,if_pos hext]
    trivial
  rw [fat32OpenIn_settled_iff hname hext,or_iff_right hname,or_iff_right hext]

/-- A volume without files whose directory has the cluster 2, with the entry `x`. -/
def emptyVolume (x : U32) : Volume where
  fatSize := 1#32
  dataStartLba := 100#64
  rootDirLba := 2#64
  fat i := if i = 2 then x else 0#32
  disk _ := some zeroSector

theorem emptyVolume_absent (x : U32) (c : U32) :
    checkDirectoryEntryForFile (emptyVolume x) c [0x41#8] [] = 0#32 := by
  have hsame : checkDirectoryEntryForFile (emptyVolume x) c [0x41#8] [] =
      checkDirectoryEntryForFile (emptyVolume 0#32) 2#32 [0x41#8] [] := by
    simp only [checkDirectoryEntryForFile,emptyVolume]
  rw [hsame]
  decide +kernel

/-- If the directory follows itself the search never ends, and if its entry is the mark of a bad
cluster, an entry behind the table is read. -/
theorem emptyVolume_not_safe :
    (∀ fuel, fat32Open fuel [0x41#8] [] (emptyVolume 2#32) = .spin) ∧
    (∀ fuel, ¬(fat32OpenIn fuel [0x41#8] [] (emptyVolume 2#32)).Settled) ∧
    ∀ fuel ≥ 2, fat32OpenIn fuel [0x41#8] [] (emptyVolume 0xFFFFFF7#32) =
      .fault (emptyVolume 0xFFFFFF7#32) := by
  have hspin : ∀ fuel, searchDirectory (emptyVolume 2#32) [0x41#8] [] fuel 2#64 = .spin := by
    intro fuel
    induction fuel with
    | zero => rfl
    | succ fuel ih =>
      rw [searchDirectory,emptyVolume_absent]
      exact ih
  have hopen : ∀ fuel, fat32Open fuel [0x41#8] [] (emptyVolume 2#32) = .spin := by
    intro fuel
    rw [fat32Open,if_neg (by decide),if_neg (by decide),getClusterNum,if_neg (by decide),
      if_neg (by decide)]
    exact congrArg (Outcome.bind · _) (hspin fuel)
  refine ⟨hopen,fun fuel h => ?_,fun fuel hfuel => ?_⟩
  · have heq := fat32OpenIn_settled h
    rw [← heq,hopen] at h
    exact h
  · obtain ⟨k,rfl⟩ : ∃ k, fuel = k + 1 + 1 := ⟨fuel - 2,by omega⟩
    have hnext : searchDirectoryIn (emptyVolume 0xFFFFFF7#32) [0x41#8] [] (k + 1 + 1) 2#64 =
        searchDirectoryIn (emptyVolume 0xFFFFFF7#32) [0x41#8] [] (k + 1)
          ((0xFFFFFF7#32).setWidth 64) := by
      rw [searchDirectoryIn,emptyVolume_absent,if_neg (by decide),fatAt,if_pos (by decide)]
      exact (if_neg (by decide)).trans (if_neg (by decide))
    have hout : searchDirectoryIn (emptyVolume 0xFFFFFF7#32) [0x41#8] [] (k + 1)
        ((0xFFFFFF7#32).setWidth 64) = .fault (emptyVolume 0xFFFFFF7#32) := by
      rw [searchDirectoryIn,emptyVolume_absent,fatAt]
      exact if_neg (by decide)
    rw [fat32OpenIn,if_neg (by decide),if_neg (by decide),getClusterNumIn,if_neg (by decide),
      if_neg (by decide)]
    exact congrArg (Outcome.bind · _) (hnext.trans hout)

end Lios.Fat32

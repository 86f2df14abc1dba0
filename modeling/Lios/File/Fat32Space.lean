import Mathlib.Data.Nat.Find
import Lios.File.Fat32Reopen

/-! # The search for a free cluster

`find_free_FAT_cluster` searches four times as many entries as the table has, from the first entry
on, and the entries behind the table are zero. So it returns a cluster of the volume only if the
two reserved entries are in use and there is a free one. When it returns zero, `fat32_new_file`
goes on with the cluster 0: it never reports that there is no space. Tables of `2 ^ 23` sectors or
more wrap around in memory and on the way there.
-/
namespace Lios.Fat32
variable {v v' : WritableVolume} {k : ℕ} {fuel : ℕ} {name ext : List U8}

/-! The table that `update_FAT` loads, for every size. -/

/-- The number of entries that are cleared and searched. -/
def searched (v : WritableVolume) : ℕ := 512 * v.fatSize.toNat % 2 ^ 32

/-- The last sector that is read to the place of the `j`-th one; places repeat after `2 ^ 23`. -/
def lastRead (v : WritableVolume) (j : ℕ) : ℕ :=
  j + 8388608 * ((v.fatSize.toNat - 1 - j) / 8388608)

/-- The entry in the loaded table. -/
def loadedEntry (v : WritableVolume) (k : ℕ) : U32 :=
  if k / 128 < v.fatSize.toNat ∧ k / 128 < 8388608 then
    diskEntry v (128 * lastRead v (k / 128) + k % 128)
  else 0#32

section Load

theorem sectorOffset_toNat (i : ℕ) : (BitVec.ofNat 32 i * 512#32).toNat = 512 * (i % 8388608) := by
  rw [BitVec.toNat_mul,BitVec.toNat_ofNat,BitVec.toNat_ofNat]
  omega

/-- The reading loop from any sector on, when all sectors can be read. -/
theorem readFAT_last (hread : ∀ i < v.fatSize.toNat, (v.disk (fatLba v i)).isSome) (rounds i : ℕ)
    (hi : i + rounds = v.fatSize.toNat) (fat : ℕ → U32) (k : ℕ) :
    readFAT v rounds (BitVec.ofNat 32 i) fat k =
      if (k / 128 < v.fatSize.toNat ∧ k / 128 < 8388608) ∧ i ≤ lastRead v (k / 128) then
        diskEntry v (128 * lastRead v (k / 128) + k % 128)
      else fat k := by
  unfold lastRead
  induction rounds generalizing i fat with
  | zero => rw [readFAT,if_neg (by omega)]
  | succ rounds ih =>
    have hsize := v.fatSize.isLt
    have hword : (BitVec.ofNat 32 i).setWidth 64 = BitVec.ofNat 64 i := by
      apply BitVec.eq_of_toNat_eq
      rw [BitVec.toNat_setWidth,BitVec.toNat_ofNat,BitVec.toNat_ofNat]
      omega
    have hsucc : BitVec.ofNat 32 i + 1#32 = BitVec.ofNat 32 (i + 1) := by rw [BitVec.ofNat_add]
    rw [readFAT,hword,sectorOffset_toNat,hsucc,ih (i + 1) (by omega),← fatLba,nvmeReadFAT_eq]
    by_cases hk : k / 128 = i % 8388608
    · obtain ⟨s,hs⟩ := Option.isSome_iff_exists.mp (hread i (by omega))
      by_cases hlast : i + 1 ≤ k / 128 + 8388608 * ((v.fatSize.toNat - 1 - k / 128) / 8388608)
      · rw [if_pos (by omega),if_pos (by omega)]
      · -- this is the last round for the place
        have heq : k / 128 + 8388608 * ((v.fatSize.toNat - 1 - k / 128) / 8388608) = i := by omega
        rw [if_neg (by omega),if_pos hk,if_pos (by omega),heq,diskEntry,
          show (128 * i + k % 128) / 128 = i by omega,show (128 * i + k % 128) % 128 = k % 128 by omega,
          hs]
        rfl
    · rw [if_neg hk]
      by_cases hlast : (k / 128 < v.fatSize.toNat ∧ k / 128 < 8388608) ∧
          i ≤ k / 128 + 8388608 * ((v.fatSize.toNat - 1 - k / 128) / 8388608)
      · rw [if_pos hlast,if_pos (by omega)]
      · rw [if_neg hlast,if_neg (by omega)]

theorem updateFAT_loaded (hread : ∀ i < v.fatSize.toNat, (v.disk (fatLba v i)).isSome)
    (hk : k < searched v) : (updateFAT v).fat k = loadedEntry v k := by
  have hclear : (512#32 * v.fatSize).toNat = searched v := by
    rw [BitVec.toNat_mul,BitVec.toNat_ofNat,searched]
  have hzero : (if k < (512#32 * v.fatSize).toNat then 0#32 else v.fat k) = 0#32 :=
    if_pos (by omega)
  simp only [updateFAT]
  rw [show (0#32 : U32) = BitVec.ofNat 32 0 from rfl,readFAT_last hread _ 0 (by omega),loadedEntry]
  simp only [Nat.zero_le,and_true]
  split
  · rfl
  · exact hzero

theorem loadedEntry_of_small (hsize : 512 * v.fatSize.toNat < 2 ^ 32) (k : ℕ) :
    loadedEntry v k = if k < 128 * v.fatSize.toNat then diskEntry v k else 0#32 := by
  rw [loadedEntry,lastRead]
  by_cases hk : k < 128 * v.fatSize.toNat
  · rw [if_pos (by omega),if_pos hk,show 128 * (k / 128 + 8388608 *
      ((v.fatSize.toNat - 1 - k / 128) / 8388608)) + k % 128 = k by omega]
  · rw [if_neg (by omega),if_neg hk]

end Load

/-! The search in the loaded table. -/

/-- The first free entry of the loaded table. -/
def FirstFree (v : WritableVolume) (k : ℕ) : Prop :=
  k < searched v ∧ loadedEntry v k = 0#32 ∧ ∀ j < k, loadedEntry v j ≠ 0#32

/-- The cluster is one of the volume, and its entry on the disk is free. -/
def FreeOnDisk (v : WritableVolume) (k : ℕ) : Prop :=
  2 ≤ k ∧ k < 128 * v.fatSize.toNat ∧ diskEntry v k = 0#32

/-- The search in the loaded table yields a free cluster, or zero if there is none. -/
def YieldsFree (v : WritableVolume) : Prop :=
  FreeOnDisk v (findFreeFATCluster (updateFAT v).toVolume).toNat ∨
    findFreeFATCluster (updateFAT v).toVolume = 0#32 ∧ ∀ k, ¬FreeOnDisk v k

section Search

theorem findFree_loaded (hread : ∀ i < v.fatSize.toNat, (v.disk (fatLba v i)).isSome) :
    FirstFree v (findFreeFATCluster (updateFAT v).toVolume).toNat ∨
      findFreeFATCluster (updateFAT v).toVolume = 0#32 ∧
        ∀ k < searched v, loadedEntry v k ≠ 0#32 := by
  have hn : ((updateFAT v).fatSize * 512#32).toNat = searched v := by
    rw [BitVec.toNat_mul,BitVec.toNat_ofNat,searched,Nat.mul_comm]
    rfl
  have hlt : searched v < 2 ^ 32 := Nat.mod_lt _ (by decide)
  rw [findFreeFATCluster,hn]
  cases hf : (List.range (searched v)).find? fun i => (updateFAT v).fat i == 0#32 with
  | none =>
    refine .inr ⟨rfl,fun k hk => ?_⟩
    have hne := List.find?_range_eq_none.mp hf k hk
    rw [updateFAT_loaded hread hk] at hne
    simpa using hne
  | some i =>
    obtain ⟨hi,hmem,hmin⟩ := List.find?_range_eq_some.mp hf
    have hi' := List.mem_range.mp hmem
    have hto : (BitVec.ofNat 32 i).toNat = i := by
      rw [BitVec.toNat_ofNat,Nat.mod_eq_of_lt (by omega)]
    simp only [hto]
    rw [updateFAT_loaded hread hi'] at hi
    refine .inl ⟨hi',by simpa using hi,fun j hj => ?_⟩
    have hne := hmin j hj
    rw [updateFAT_loaded hread (by omega)] at hne
    simpa using hne

theorem FirstFree.unique {j : ℕ} (h : FirstFree v k) (h' : FirstFree v j) : k = j := by
  rcases Nat.lt_trichotomy k j with hlt | heq | hlt
  · exact absurd h.2.1 (h'.2.2 k hlt)
  · exact heq
  · exact absurd h'.2.1 (h.2.2 j hlt)

/-- The first free entry of the loaded table is a free cluster on the disk. -/
def TakesFree (v : WritableVolume) : Prop := ∃ k, FirstFree v k ∧ FreeOnDisk v k

/-- The disk has no free cluster, and the loaded table has a free entry 0 or none at all. -/
def TakesNone (v : WritableVolume) : Prop :=
  (∀ k, ¬FreeOnDisk v k) ∧ (FirstFree v 0 ∨ ∀ k, ¬FirstFree v k)

theorem not_firstFree_of_ne (h : ∀ k < searched v, loadedEntry v k ≠ 0#32) (k : ℕ) :
    ¬FirstFree v k := fun hf => h k hf.1 hf.2.1

theorem yieldsFree_iff (hread : ∀ i < v.fatSize.toNat, (v.disk (fatLba v i)).isSome) :
    YieldsFree v ↔ TakesFree v ∨ TakesNone v := by
  have hfind := findFree_loaded hread
  constructor
  · rintro (hfree | ⟨hzero,hnone⟩)
    · rcases hfind with hfirst | ⟨hzero,-⟩
      · exact .inl ⟨_,hfirst,hfree⟩
      · have htwo := hfree.1
        rw [hzero] at htwo
        exact absurd htwo (by decide)
    · refine .inr ⟨hnone,hfind.imp (fun hfirst => ?_) fun h => not_firstFree_of_ne h.2⟩
      rwa [hzero] at hfirst
  · rintro (⟨k,hfirst,hfree⟩ | ⟨hnone,hzero⟩)
    · rcases hfind with hfirst' | ⟨-,hall⟩
      · rw [hfirst.unique hfirst'] at hfree
        exact .inl hfree
      · exact absurd hfirst (not_firstFree_of_ne hall k)
    · refine .inr ⟨?_,hnone⟩
      rcases hfind with hfirst | ⟨h0,-⟩
      · rcases hzero with hzero | hzero
        · exact BitVec.eq_of_toNat_eq (hfirst.unique hzero)
        · exact absurd hfirst (hzero _)
      · exact h0

/-- Below `2 ^ 23` sectors the two reserved entries have to be in use and a cluster has to be
free. -/
theorem takesFree_iff (hsize : 512 * v.fatSize.toNat < 2 ^ 32) : TakesFree v ↔
    (∃ k, FreeOnDisk v k) ∧ diskEntry v 0 ≠ 0#32 ∧ diskEntry v 1 ≠ 0#32 := by
  have hloaded := loadedEntry_of_small hsize
  have hin {k j : ℕ} (hk : k < 128 * v.fatSize.toNat) (hj : j ≤ k) :
      loadedEntry v j = diskEntry v j := by rw [hloaded,if_pos (by omega)]
  constructor
  · rintro ⟨k,⟨-,-,hmin⟩,htwo,hlt,hzero⟩
    have h0 := hmin 0 (by omega)
    have h1 := hmin 1 (by omega)
    rw [hin hlt (by omega)] at h0 h1
    exact ⟨⟨k,htwo,hlt,hzero⟩,h0,h1⟩
  · rintro ⟨hex,h0,h1⟩
    classical
    obtain ⟨htwo,hlt,hzero⟩ := Nat.find_spec hex
    refine ⟨Nat.find hex,⟨?_,?_,fun j hj hfree => ?_⟩,htwo,hlt,hzero⟩
    · rw [searched]
      omega
    · rw [hin hlt le_rfl]
      exact hzero
    · rw [hin hlt hj.le] at hfree
      have hj2 : 2 ≤ j := by
        by_contra hsmall
        obtain rfl | rfl : j = 0 ∨ j = 1 := by omega
        · exact h0 hfree
        · exact h1 hfree
      exact Nat.find_min hex hj ⟨hj2,by omega,hfree⟩

end Search

/-! The call that creates a file. -/

/-- The result `FAT32_NEW_FILE_NO_SPACE` is returned nowhere. -/
theorem fat32NewFile_ne_noSpace : fat32NewFile fuel name ext v ≠ .done (.failed .noSpace) v' := by
  have hne (e : NewFileError) (he : e ≠ .noSpace) (u : WritableVolume) :
      (.done (.failed e) u : Outcome WritableVolume NewFileResult) ≠ .done (.failed .noSpace) v' := by
    intro h
    have hcode := congrArg NewFileResult.error (Outcome.done.inj h).1
    cases e <;> first | exact he rfl | exact absurd hcode (by decide)
  intro h
  unfold fat32NewFile at h
  split at h
  · exact hne _ (by decide) _ h
  split at h
  · exact hne _ (by decide) _ h
  obtain ⟨r,w,-,h⟩ := Outcome.bind_eq_done.mp h
  split at h
  · exact hne _ (by decide) _ h
  obtain ⟨⟨cc,i,buffer⟩,w,-,h⟩ := Outcome.bind_eq_done.mp h
  simp only at h
  split at h
  · cases h
  · exact absurd (congrArg NewFileResult.error (Outcome.done.inj h).1) (by decide)

/-- The call gets as far as the search for a free cluster. -/
def Allocates (fuel : ℕ) (name ext : List U8) (v : WritableVolume) : Prop :=
  name.length ≤ 8 ∧ ext.length ≤ 3 ∧
    getClusterNum fuel name ext v.toVolume = .done 0#32 v.toVolume

/-- For a table that `update_FAT` has loaded: the search yields a free cluster, or zero if there is
none, and a call that finds zero reports that there is no space, if and only if the first free
entry of the loaded table is a free cluster on the disk, or the disk has no free cluster, the search
yields zero and the call does not get as far. -/
theorem allocation_iff (hread : ∀ i < v.fatSize.toNat, (v.disk (fatLba v i)).isSome) :
    (YieldsFree v ∧ (findFreeFATCluster (updateFAT v).toVolume = 0#32 →
      Allocates fuel name ext (updateFAT v) →
        fat32NewFile fuel name ext (updateFAT v) = .done (.failed .noSpace) (updateFAT v)) ↔
      TakesFree v ∨ TakesNone v ∧ ¬Allocates fuel name ext (updateFAT v)) ∧
    (512 * v.fatSize.toNat < 2 ^ 32 → (TakesFree v ↔
      (∃ k, FreeOnDisk v k) ∧ diskEntry v 0 ≠ 0#32 ∧ diskEntry v 1 ≠ 0#32)) := by
  refine ⟨?_,takesFree_iff⟩
  have hfind := findFree_loaded hread
  rw [yieldsFree_iff hread]
  constructor
  · rintro ⟨hfree | hnone,hreport⟩
    · exact .inl hfree
    · refine .inr ⟨hnone,fun hreach => ?_⟩
      have hzero : findFreeFATCluster (updateFAT v).toVolume = 0#32 := by
        rcases hfind with hfirst | ⟨h0,-⟩
        · rcases hnone.2 with h0 | hno
          · exact BitVec.eq_of_toNat_eq (hfirst.unique h0)
          · exact absurd hfirst (hno _)
        · exact h0
      exact fat32NewFile_ne_noSpace (hreport hzero hreach)
  · rintro (⟨k,hfirst,hfree⟩ | ⟨hnone,hnot⟩)
    · refine ⟨.inl ⟨k,hfirst,hfree⟩,fun hzero => ?_⟩
      have htwo := hfree.1
      rcases hfind with hfirst' | ⟨-,hall⟩
      · rw [hfirst.unique hfirst',hzero] at htwo
        exact absurd htwo (by decide)
      · exact absurd hfirst (not_firstFree_of_ne hall k)
    · exact ⟨.inr hnone,fun _ hreach => absurd hreach hnot⟩

section Sample

theorem diskEntry_oneFree {j : ℕ} (hj : j < 131072) :
    diskEntry (oneFree k) j = if j = k then 0#32 else 0xFFFFFFF#32 := by
  have hsize : (oneFree k).fatSize.toNat = 1024 := rfl
  rw [← oneFree_synced k j (by omega)]
  change oneFreeTable k j = _
  rw [oneFreeTable]
  simp only [show ¬131072 ≤ j by omega,or_false]

/-- Of the volume with one free cluster that cluster is taken. -/
theorem oneFree_yieldsFree : YieldsFree (oneFree 3) ∧
    (findFreeFATCluster (updateFAT (oneFree 3)).toVolume = 0#32 →
      Allocates 1 [0x41#8] [] (updateFAT (oneFree 3)) →
        fat32NewFile 1 [0x41#8] [] (updateFAT (oneFree 3)) =
          .done (.failed .noSpace) (updateFAT (oneFree 3))) := by
  obtain ⟨hiff,hsmall⟩ := @allocation_iff (oneFree 3) 1 [0x41#8] [] fun _ _ => rfl
  refine hiff.mpr (.inl ((hsmall (by decide)).mpr ⟨⟨3,by decide,by decide,?_⟩,?_,?_⟩))
  · rw [diskEntry_oneFree (by decide)]
    rfl
  · rw [diskEntry_oneFree (by decide)]
    decide
  · rw [diskEntry_oneFree (by decide)]
    decide

/-- On a volume without a free cluster the number behind the last one is taken. -/
theorem full_not_yieldsFree :
    (findFreeFATCluster (updateFAT (oneFree 131072)).toVolume).toNat = 131072 ∧
      ¬YieldsFree (oneFree 131072) := by
  have hsize : (oneFree 131072).fatSize.toNat = 1024 := rfl
  have hloaded (j : ℕ) : loadedEntry (oneFree 131072) j =
      if j < 131072 then 0xFFFFFFF#32 else 0#32 := by
    rw [loadedEntry_of_small (by omega),hsize]
    split
    · rename_i hj
      rw [diskEntry_oneFree hj,if_neg (by omega)]
    · rfl
  have hfirst : FirstFree (oneFree 131072) 131072 := by
    refine ⟨by rw [searched,hsize]; decide,by rw [hloaded]; decide,fun j hj => ?_⟩
    rw [hloaded,if_pos hj]
    decide
  have hfound : (findFreeFATCluster (updateFAT (oneFree 131072)).toVolume).toNat = 131072 := by
    rcases findFree_loaded (v := oneFree 131072) fun _ _ => rfl with hfound | ⟨-,hall⟩
    · exact hfound.unique hfirst
    · exact absurd hfirst (not_firstFree_of_ne hall _)
  refine ⟨hfound,?_⟩
  rintro (⟨-,hlt,-⟩ | ⟨hzero,-⟩)
  · omega
  · rw [hzero] at hfound
    exact absurd hfound (by decide)

end Sample

end Lios.Fat32

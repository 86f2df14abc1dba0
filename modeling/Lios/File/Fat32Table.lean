import Mathlib.Tactic.Basic
import Lios.File.Fat32New
import Lios.File.Fat32Chain

/-! # The table on disk and the table in memory

What `update_FAT` reads back, and what the writes of `fat32_new_file` leave on the
disk: one sector of the table, one sector of the directory and the first sector of the
file.
-/
namespace Lios.Fat32
variable {v v' : WritableVolume} {c : U32} {cc : U64} {directory : Sector} {k : ℕ}

/-- The layout of a mounted volume: the two copies of the table lie in front of the data
area, and no number of an entry or a block exceeds its type. -/
structure Geometry (v : WritableVolume) : Prop where
  pos : 0 < v.fatSize.toNat
  entries : 512 * v.fatSize.toNat < 2 ^ 32
  tables : v.dataStartLba.toNat = v.fatStartLba.toNat + 2 * v.fatSize.toNat
  lbas : v.dataStartLba.toNat + 2 ^ 32 ≤ 2 ^ 64
  root : 2 ≤ v.rootDirLba.toNat ∧ v.rootDirLba.toNat < 2 ^ 32

/-- The block of the `i`-th sector of the table. -/
def fatLba (v : WritableVolume) (i : ℕ) : U64 := v.fatStartLba + BitVec.ofNat 64 i

theorem Geometry.fatLba_toNat (hg : Geometry v) {i : ℕ} (hi : i < v.fatSize.toNat) :
    (fatLba v i).toNat = v.fatStartLba.toNat + i := by
  have hlba := hg.lbas
  have htab := hg.tables
  rw [fatLba,BitVec.toNat_add,BitVec.toNat_ofNat]
  omega

def sectorEntry (s : Sector) (j : ℕ) : U32 := quad fun b => s.toList.getD (4 * j + b) 0#8

/-- The entry that the disk holds; a sector that cannot be read counts as zero. -/
def diskEntry (v : WritableVolume) (k : ℕ) : U32 :=
  ((v.disk (fatLba v (k / 128))).map fun s => sectorEntry s (k % 128)).getD 0#32

section Update

theorem tableStore_sector (fat : ℕ → U32) (i : ℕ) (s : Sector) (k : ℕ) :
    tableStore fat (512 * i) s.toList k =
      if k / 128 = i then sectorEntry s (k % 128) else fat k := by
  split
  · rw [tableStore_of_mem (show 512 * i = 4 * (128 * i) by omega) (by omega)
      (by rw [Vector.length_toList]; omega),sectorEntry,show k - 128 * i = k % 128 by omega]
  · exact tableStore_of_apart (by rw [Vector.length_toList]; omega)

theorem nvmeReadFAT_eq (lba : U64) (i : ℕ) (fat : ℕ → U32) (k : ℕ) :
    nvmeReadFAT v lba (512 * i) fat k =
      if k / 128 = i then ((v.disk lba).map fun s => sectorEntry s (k % 128)).getD (fat k)
      else fat k := by
  rw [nvmeReadFAT]
  cases v.disk lba with
  | none => simp
  | some s => exact tableStore_sector fat i s k

/-- The reading loop from any sector on. -/
theorem readFAT_eq (hg : Geometry v) (rounds i : ℕ) (hi : i + rounds = v.fatSize.toNat)
    (fat : ℕ → U32) (k : ℕ) :
    readFAT v rounds (BitVec.ofNat 32 i) fat k =
      if i ≤ k / 128 ∧ k / 128 < v.fatSize.toNat then
        ((v.disk (fatLba v (k / 128))).map fun s => sectorEntry s (k % 128)).getD (fat k)
      else fat k := by
  induction rounds generalizing i fat with
  | zero => rw [readFAT,if_neg (by omega)]
  | succ rounds ih =>
    have hent := hg.entries
    have hword : (BitVec.ofNat 32 i).setWidth 64 = BitVec.ofNat 64 i := by
      apply BitVec.eq_of_toNat_eq
      rw [BitVec.toNat_setWidth,BitVec.toNat_ofNat,BitVec.toNat_ofNat]
      omega
    have hoff : (BitVec.ofNat 32 i * 512#32).toNat = 512 * i := by
      rw [BitVec.toNat_mul,BitVec.toNat_ofNat,BitVec.toNat_ofNat]
      omega
    have hsucc : BitVec.ofNat 32 i + 1#32 = BitVec.ofNat 32 (i + 1) := by rw [BitVec.ofNat_add]
    rw [readFAT,hword,hoff,hsucc,ih (i + 1) (by omega),← fatLba,nvmeReadFAT_eq]
    by_cases hk : k / 128 = i
    · rw [if_neg (by omega),if_pos hk,if_pos (by omega),hk]
    · simp only [if_neg hk]
      by_cases hle : i + 1 ≤ k / 128
      · simp only [hle,show i ≤ k / 128 by omega]
      · rw [if_neg (by omega),if_neg (by omega)]

theorem updateFAT_fat (hg : Geometry v) (hk : k < 512 * v.fatSize.toNat) :
    (updateFAT v).fat k = if k < 128 * v.fatSize.toNat then diskEntry v k else 0#32 := by
  have hent := hg.entries
  have hclear : (512#32 * v.fatSize).toNat = 512 * v.fatSize.toNat := by
    rw [BitVec.toNat_mul,BitVec.toNat_ofNat]
    omega
  have hzero : (if k < (512#32 * v.fatSize).toNat then 0#32 else v.fat k) = 0#32 :=
    if_pos (by omega)
  simp only [updateFAT]
  rw [show (0#32 : U32) = BitVec.ofNat 32 0 from rfl,readFAT_eq hg _ 0 (by omega)]
  by_cases hlt : k < 128 * v.fatSize.toNat
  · rw [if_pos (by omega),if_pos hlt,diskEntry,hzero]
  · rw [if_neg (by omega),if_neg hlt]
    exact hzero

end Update

section Writes

@[simp] theorem nvmeWrite_fatSize (lba : U64) (s : Sector) (v : WritableVolume) :
    (nvmeWrite lba s v).fatSize = v.fatSize := by
  unfold nvmeWrite
  split <;> rfl
@[simp] theorem nvmeWrite_dataStartLba (lba : U64) (s : Sector) (v : WritableVolume) :
    (nvmeWrite lba s v).dataStartLba = v.dataStartLba := by
  unfold nvmeWrite
  split <;> rfl
@[simp] theorem nvmeWrite_rootDirLba (lba : U64) (s : Sector) (v : WritableVolume) :
    (nvmeWrite lba s v).rootDirLba = v.rootDirLba := by
  unfold nvmeWrite
  split <;> rfl
@[simp] theorem nvmeWrite_fat (lba : U64) (s : Sector) (v : WritableVolume) :
    (nvmeWrite lba s v).fat = v.fat := by
  unfold nvmeWrite
  split <;> rfl
@[simp] theorem nvmeWrite_fatStartLba (lba : U64) (s : Sector) (v : WritableVolume) :
    (nvmeWrite lba s v).fatStartLba = v.fatStartLba := by
  unfold nvmeWrite
  split <;> rfl
@[simp] theorem nvmeWrite_writable (lba : U64) (s : Sector) (v : WritableVolume) :
    (nvmeWrite lba s v).writable = v.writable := by
  unfold nvmeWrite
  split <;> rfl

theorem nvmeWrite_disk {lba : U64} (hw : v.writable lba = true) (s : Sector) (x : U64) :
    (nvmeWrite lba s v).disk x = if x = lba then some s else v.disk x := by
  rw [nvmeWrite,if_pos hw]
  exact Function.update_apply _ _ _ _

theorem nvmeWrite_disk_of_ne {lba x : U64} (h : x ≠ lba) (s : Sector) :
    (nvmeWrite lba s v).disk x = v.disk x := by
  unfold nvmeWrite
  split
  · exact Function.update_of_ne h _ _
  · rfl

@[simp] theorem writeBack_fatSize : (writeBack c cc directory v).fatSize = v.fatSize := by
  simp [writeBack]
@[simp] theorem writeBack_dataStartLba :
    (writeBack c cc directory v).dataStartLba = v.dataStartLba := by
  simp [writeBack]
@[simp] theorem writeBack_rootDirLba : (writeBack c cc directory v).rootDirLba = v.rootDirLba := by
  simp [writeBack]
@[simp] theorem writeBack_fat : (writeBack c cc directory v).fat = v.fat := by
  simp [writeBack]
@[simp] theorem writeBack_fatStartLba :
    (writeBack c cc directory v).fatStartLba = v.fatStartLba := by
  simp [writeBack]

/-- What the disk holds after the three writes, the last one first. -/
theorem writeBack_disk (hw : ∀ lba, v.writable lba = true) (x : U64) :
    (writeBack c cc directory v).disk x =
      if x = (c - 2#32).setWidth 64 + v.dataStartLba then some zeroSector
      else if x = cc - 2#64 + v.dataStartLba then some directory
      else if x = v.fatStartLba + (c / 512#32).setWidth 64 then
        some (fatBytes v.fat (c - c % 512#32).toNat)
      else v.disk x := by
  simp [writeBack,nvmeWrite_disk,hw]

@[simp] theorem markUsed_fat (c : U32) (v : WritableVolume) :
    (markUsed c v).fat = Function.update v.fat c.toNat 0xFFFFFFF#32 := rfl
@[simp] theorem markUsed_disk (c : U32) (v : WritableVolume) : (markUsed c v).disk = v.disk := rfl
@[simp] theorem markUsed_fatSize (c : U32) (v : WritableVolume) :
    (markUsed c v).fatSize = v.fatSize := rfl
@[simp] theorem markUsed_dataStartLba (c : U32) (v : WritableVolume) :
    (markUsed c v).dataStartLba = v.dataStartLba := rfl
@[simp] theorem markUsed_rootDirLba (c : U32) (v : WritableVolume) :
    (markUsed c v).rootDirLba = v.rootDirLba := rfl
@[simp] theorem markUsed_fatStartLba (c : U32) (v : WritableVolume) :
    (markUsed c v).fatStartLba = v.fatStartLba := rfl
@[simp] theorem markUsed_writable (c : U32) (v : WritableVolume) :
    (markUsed c v).writable = v.writable := rfl

theorem Geometry.markUsed (hg : Geometry v) (c : U32) : Geometry (markUsed c v) :=
  ⟨hg.pos,hg.entries,hg.tables,hg.lbas,hg.root⟩

theorem Geometry.writeBack (hg : Geometry v) (c : U32) (cc : U64) (directory : Sector) :
    Geometry (writeBack c cc directory v) where
  pos := by simpa using hg.pos
  entries := by simpa using hg.entries
  tables := by simpa using hg.tables
  lbas := by simpa using hg.lbas
  root := by simpa using hg.root

/-- A sector copied out of the table holds the table's own entries. -/
theorem sectorEntry_fatBytes (fat : ℕ → U32) (i : ℕ) {j : ℕ} (hj : j < 128) :
    sectorEntry (fatBytes fat (512 * i)) j = fat (128 * i + j) := by
  have hbyte : ∀ b < 4, (fatBytes fat (512 * i)).toList.getD (4 * j + b) 0#8 =
      tableByte fat (4 * (128 * i + j) + b) := by
    intro b hb
    rw [List.getD_eq_getElem _ _ (by rw [Vector.length_toList]; omega),Vector.getElem_toList,
      fatBytes,Vector.getElem_ofFn]
    exact congrArg (tableByte fat) (by simp only; omega)
  rw [sectorEntry,quad_congr hbyte,quad_tableByte]

theorem rowOffset_toNat (c : U32) : (c - c % 512#32).toNat = 512 * (c.toNat / 512) := by
  have hc := c.isLt
  rw [BitVec.toNat_sub,BitVec.toNat_umod,show (512#32).toNat = 512 from rfl]
  omega

theorem rowLba (v : WritableVolume) (c : U32) :
    v.fatStartLba + (c / 512#32).setWidth 64 = fatLba v (c.toNat / 512) := by
  have hrow : (c / 512#32).setWidth 64 = BitVec.ofNat 64 (c.toNat / 512) := by
    apply BitVec.eq_of_toNat_eq
    rw [BitVec.toNat_setWidth,BitVec.toNat_udiv,show (512#32).toNat = 512 from rfl,
      BitVec.toNat_ofNat]
  rw [fatLba,hrow]

/-- The writes to the directory and to the file miss the table. -/
theorem Geometry.fatLba_ne (hg : Geometry v) {i : ℕ} (hi : i < v.fatSize.toNat)
    (hcc : 1 ≤ cc.toNat ∧ cc.toNat < 2 ^ 32) (c : U32) :
    fatLba v i ≠ (c - 2#32).setWidth 64 + v.dataStartLba ∧
    fatLba v i ≠ cc - 2#64 + v.dataStartLba := by
  have hfat := hg.fatLba_toNat hi
  have hlba := hg.lbas
  have htab := hg.tables
  have hc := (c - 2#32).isLt
  constructor
  · intro h
    have h := congrArg BitVec.toNat h
    rw [hfat,BitVec.toNat_add,BitVec.toNat_setWidth,Nat.mod_eq_of_lt (a := (c - 2#32).toNat)
      (by omega)] at h
    omega
  · intro h
    have h := congrArg BitVec.toNat h
    rw [hfat,BitVec.toNat_add,BitVec.toNat_sub,BitVec.toNat_ofNat] at h
    omega

/-- Of the table only the sector `c / 512` reaches the disk. -/
theorem diskEntry_writeBack (hg : Geometry v) (hw : ∀ lba, v.writable lba = true)
    (hcc : 1 ≤ cc.toNat ∧ cc.toNat < 2 ^ 32) (hc : c.toNat < 512 * v.fatSize.toNat)
    (hk : k < 128 * v.fatSize.toNat) :
    diskEntry (writeBack c cc directory v) k =
      if k / 128 = c.toNat / 512 then v.fat k else diskEntry v k := by
  have hrow : k / 128 < v.fatSize.toNat := by omega
  have hlba : fatLba (writeBack c cc directory v) (k / 128) = fatLba v (k / 128) := by
    simp [fatLba]
  obtain ⟨hfile,hdir⟩ := hg.fatLba_ne hrow hcc c
  rw [diskEntry,hlba,writeBack_disk hw,if_neg hfile,if_neg hdir,rowLba]
  by_cases h : k / 128 = c.toNat / 512
  · rw [if_pos (by rw [h]),if_pos h,rowOffset_toNat]
    refine (sectorEntry_fatBytes v.fat _ (Nat.mod_lt _ (by decide))).trans ?_
    rw [← h,Nat.div_add_mod]
  · have hne : fatLba v (k / 128) ≠ fatLba v (c.toNat / 512) := by
      intro heq
      have heq := congrArg BitVec.toNat heq
      rw [hg.fatLba_toNat hrow,hg.fatLba_toNat (by omega)] at heq
      omega
    rw [if_neg hne,if_neg h,diskEntry]

end Writes

section Search

theorem findFreeFATCluster_lt (hg : Geometry v) :
    (findFreeFATCluster v.toVolume).toNat < 512 * v.fatSize.toNat := by
  have hent := hg.entries
  have hpos := hg.pos
  have hn : (v.fatSize * 512#32).toNat = 512 * v.fatSize.toNat := by
    rw [BitVec.toNat_mul,BitVec.toNat_ofNat]
    omega
  rw [findFreeFATCluster]
  cases hf : (List.range (v.fatSize * 512#32).toNat).find? fun i => v.fat i == 0#32 with
  | none =>
    simp
    omega
  | some i =>
    have hi := List.mem_range.mp (List.mem_of_find?_eq_some hf)
    simp only [BitVec.toNat_ofNat]
    omega

/-- A search that does not return zero returns a free entry, for tables of every size. -/
theorem findFreeFATCluster_free (u : Volume) :
    findFreeFATCluster u = 0#32 ∨ u.fat (findFreeFATCluster u).toNat = 0#32 := by
  rw [findFreeFATCluster]
  cases hf : (List.range (u.fatSize * 512#32).toNat).find? fun i => u.fat i == 0#32 with
  | none => exact .inl rfl
  | some i =>
    have hi := List.mem_range.mp (List.mem_of_find?_eq_some hf)
    have hto : (BitVec.ofNat 32 i).toNat = i := by
      rw [BitVec.toNat_ofNat,Nat.mod_eq_of_lt (by omega)]
    refine .inr ?_
    simp only [hto]
    simpa using List.find?_some hf

/-- With a free entry in the table the search returns the first one. -/
theorem findFreeFATCluster_spec (hg : Geometry v) {i : ℕ} (hi : i < 512 * v.fatSize.toNat)
    (hfree : v.fat i = 0#32) :
    v.fat (findFreeFATCluster v.toVolume).toNat = 0#32 ∧
      (findFreeFATCluster v.toVolume).toNat ≤ i := by
  have hent := hg.entries
  have hn : (v.fatSize * 512#32).toNat = 512 * v.fatSize.toNat := by
    rw [BitVec.toNat_mul,BitVec.toNat_ofNat]
    omega
  rw [findFreeFATCluster]
  cases hf : (List.range (v.fatSize * 512#32).toNat).find? fun i => v.fat i == 0#32 with
  | none =>
    rw [List.find?_range_eq_none] at hf
    have := hf i (by omega)
    simp [hfree] at this
  | some j =>
    obtain ⟨hj,hmem,hmin⟩ := List.find?_range_eq_some.mp hf
    have hjlt := List.mem_range.mp hmem
    have hji : j ≤ i := by
      by_contra hlt
      have := hmin i (by omega)
      simp [hfree] at this
    have hto : (BitVec.ofNat 32 j).toNat = j := by
      rw [BitVec.toNat_ofNat]
      omega
    simp only [hto]
    exact ⟨by simpa using hj,hji⟩

end Search

section Persistence
variable {fuel : ℕ} {name ext : List U8}

theorem findSlot_done {buffer : Sector} {u : ℕ} {cc' : U64}
    (hcc : 1 ≤ cc.toNat ∧ cc.toNat < 2 ^ 32)
    (h : findSlot v fuel cc buffer = .done (cc',u,directory) v') :
    v' = v ∧ 1 ≤ cc'.toNat ∧ cc'.toNat < 2 ^ 32 := by
  induction fuel generalizing cc buffer with
  | zero => cases h
  | succ fuel ih =>
    have hnext : v.fat cc.toNat ≠ 0#32 → 1 ≤ ((v.fat cc.toNat).setWidth 64).toNat ∧
        ((v.fat cc.toNat).setWidth 64).toNat < 2 ^ 32 := by
      intro hne
      have hlt := (v.fat cc.toNat).isLt
      have hpos : (v.fat cc.toNat).toNat ≠ 0 := fun h0 => hne (BitVec.eq_of_toNat_eq h0)
      rw [BitVec.toNat_setWidth,Nat.mod_eq_of_lt (by omega)]
      omega
    unfold findSlot at h
    simp only at h
    split at h
    · obtain ⟨hr,rfl⟩ := Outcome.done.inj h
      obtain ⟨rfl,-⟩ := Prod.mk.inj hr
      exact ⟨rfl,hcc⟩
    split at h
    · cases h
    rename_i hne
    split at h
    · obtain ⟨hr,rfl⟩ := Outcome.done.inj h
      obtain ⟨rfl,-⟩ := Prod.mk.inj hr
      exact ⟨rfl,hnext hne⟩
    · exact ih (hnext hne) h

/-- What a call that created a file did. The result of a name that is too long looks the
same, so the length is asked for. -/
theorem fat32NewFile_created (hg : Geometry v) (hlen : name.length ≤ 8)
    (h : fat32NewFile fuel name ext v = .done ⟨0#32,0#32⟩ v') :
    ∃ cc directory, (1 ≤ cc.toNat ∧ cc.toNat < 2 ^ 32) ∧
      v' = writeBack (findFreeFATCluster v.toVolume) cc directory
        (markUsed (findFreeFATCluster v.toVolume) v) := by
  unfold fat32NewFile at h
  rw [if_neg (by omega)] at h
  split at h
  · exact absurd (congrArg NewFileResult.error (Outcome.done.inj h).1) (by decide)
  obtain ⟨r,w,hget,h⟩ := Outcome.bind_eq_done.mp h
  obtain ⟨u,hdone,rfl⟩ := Outcome.mapState_eq_done.mp hget
  obtain rfl := getClusterNum_state hdone
  split at h
  · exact absurd (congrArg NewFileResult.error (Outcome.done.inj h).1) (by decide)
  obtain ⟨⟨cc,i,buffer⟩,w,hslot,h⟩ := Outcome.bind_eq_done.mp h
  obtain ⟨rfl,hcc⟩ := findSlot_done ⟨by have := hg.root; omega,hg.root.2⟩ hslot
  simp only at h
  split at h
  · cases h
  exact ⟨cc,_,hcc,(Outcome.done.inj h).2.symm⟩

/-- The table that `update_FAT` would read back is the table in memory, and the entry of
the new cluster is in use there. -/
def Persisted (c : U32) (v : WritableVolume) : Prop :=
  (∀ k < 128 * v.fatSize.toNat, (updateFAT v).fat k = v.fat k) ∧ (updateFAT v).fat c.toNat ≠ 0#32

theorem persisted_iff (hg : Geometry v) (hw : ∀ lba, v.writable lba = true)
    (hcc : 1 ≤ cc.toNat ∧ cc.toNat < 2 ^ 32) (hc : c.toNat < 512 * v.fatSize.toNat) :
    Persisted c (writeBack c cc directory (markUsed c v)) ↔
      (c.toNat < 128 ∨ c.toNat < 128 * v.fatSize.toNat ∧ diskEntry v c.toNat = 0xFFFFFFF#32) ∧
      ∀ k < 128 * v.fatSize.toNat, k ≠ c.toNat → k / 128 ≠ c.toNat / 512 →
        diskEntry v k = v.fat k := by
  have hpos := hg.pos
  have hback := (hg.markUsed c).writeBack c cc directory
  have hread : ∀ k < 128 * v.fatSize.toNat,
      (updateFAT (writeBack c cc directory (markUsed c v))).fat k =
        if k / 128 = c.toNat / 512 then (markUsed c v).fat k else diskEntry v k := by
    intro k hk
    rw [updateFAT_fat hback (by rw [writeBack_fatSize,markUsed_fatSize]; omega),
      if_pos (by rwa [writeBack_fatSize,markUsed_fatSize]),
      diskEntry_writeBack (hg.markUsed c) hw hcc hc hk]
    rfl
  constructor
  · rintro ⟨hall,hnew⟩
    simp only [writeBack_fatSize,markUsed_fatSize,writeBack_fat] at hall
    have hin : c.toNat < 128 * v.fatSize.toNat := by
      by_contra hout
      rw [updateFAT_fat hback (by simpa using hc),
        if_neg (by simpa using hout)] at hnew
      exact hnew rfl
    refine ⟨?_,fun k hk hne hrow => ?_⟩
    · by_cases hsmall : c.toNat < 128
      · exact .inl hsmall
      · have hent := hall c.toNat hin
        rw [hread _ hin,if_neg (by omega),markUsed_fat,Function.update_self] at hent
        exact .inr ⟨hin,hent⟩
    · have hent := hall k hk
      rwa [hread k hk,if_neg hrow,markUsed_fat,Function.update_of_ne hne] at hent
  · rintro ⟨hnew,hrest⟩
    have hall : ∀ k < 128 * v.fatSize.toNat,
        (updateFAT (writeBack c cc directory (markUsed c v))).fat k = (markUsed c v).fat k := by
      intro k hk
      rw [hread k hk]
      split
      · rfl
      rename_i hrow
      by_cases hkc : k = c.toNat
      · -- the new entry lies outside the sector that was written
        subst hkc
        rw [markUsed_fat,Function.update_self]
        rcases hnew with hnew | hnew
        · omega
        · exact hnew.2
      · rw [markUsed_fat,Function.update_of_ne hkc]
        exact hrest k hk hkc hrow
    refine ⟨by simpa using hall,?_⟩
    rw [hall c.toNat (by omega),markUsed_fat,Function.update_self]
    decide

end Persistence

end Lios.Fat32

import Lios.File.Fat32Table

/-! # Creating a file and the files that exist

On a volume whose root directory is a chain of clusters the searches of `fat32_new_file`
end. The cluster it takes lies on no chain, so that its three writes miss every other
file: of the directory they change the 32 bytes of one slot.
-/
namespace Lios.Fat32
variable {v v' : WritableVolume} {c : U32} {cs : List U32} {fuel : ℕ} {name ext : List U8}
  {sec : U64 → Sector}

/-- The clusters from `c` on, up to the one whose entry ends the chain; unlike in
`FileChain` nothing is asked of the position of the clusters on the disk. -/
structure ClusterChain (v : Volume) (c : U32) (cs : List U32) : Prop where
  linked : ∃ e, Segment (fun a => v.fat a.toNat) c cs e ∧ isEndingCluster e = true
  ne_nil : cs ≠ []
  inRange : ∀ a ∈ cs, 2 ≤ a.toNat ∧ a.toNat < 128 * v.fatSize.toNat ∧ isEndingCluster a = false

theorem ClusterChain.ne_zero {u : Volume} (h : ClusterChain u c cs) {a : U32} (ha : a ∈ cs) :
    a ≠ 0#32 := by
  rintro rfl
  have := (h.inRange _ ha).1
  simp at this

theorem ClusterChain.entry_ne_zero {u : Volume} (h : ClusterChain u c cs) {a : U32}
    (ha : a ∈ cs) : u.fat a.toNat ≠ 0#32 := by
  obtain ⟨e,hseg,he⟩ := h.linked
  rcases hseg.next_mem ha with hnext | hnext
  · rw [show u.fat a.toNat = e from hnext]
    exact not_zero_of_isEndingCluster he
  · exact h.ne_zero hnext

section Walks

theorem setWidth_toNat (a : U32) : (a.setWidth 64).toNat = a.toNat := by
  rw [BitVec.toNat_setWidth,Nat.mod_eq_of_lt (by omega)]

/-- The search for a name along a chain. -/
theorem searchDirectory_eq {u : Volume} {e : U32}
    (hseg : Segment (fun a => u.fat a.toNat) c cs e) (hne : cs ≠ [])
    (he : isEndingCluster e = true) (hmid : ∀ a ∈ cs.tail, a ≠ 0#32 ∧ isEndingCluster a = false)
    (hf : cs.length ≤ fuel) :
    searchDirectory u name ext fuel (c.setWidth 64) =
      .done (((cs.map fun a => checkDirectoryEntryForFile u a name ext).find? (· != 0#32)).getD 0#32)
        u := by
  induction cs generalizing c fuel with
  | nil => exact absurd rfl hne
  | cons a cs ih =>
    obtain ⟨rfl,hseg⟩ := hseg
    obtain ⟨fuel,rfl⟩ : ∃ n, fuel = n + 1 := ⟨fuel - 1,by simp only [List.length_cons] at hf; omega⟩
    have hback : (c.setWidth 64).setWidth 32 = c := by
      rw [BitVec.setWidth_setWidth_of_le _ (by decide),BitVec.setWidth_eq]
    rw [searchDirectory,hback,setWidth_toNat,List.map_cons]
    by_cases hfound : checkDirectoryEntryForFile u c name ext = 0#32
    · rw [List.find?_cons_of_neg (by simp [hfound])]
      simp only [hfound,ne_eq,not_true,if_false]
      cases cs with
      | nil =>
        obtain rfl : u.fat c.toNat = e := hseg
        simp [not_zero_of_isEndingCluster he,he]
      | cons b cs =>
        have hb : u.fat c.toNat = b := hseg.1
        obtain ⟨hb0,hbe⟩ := hmid b List.mem_cons_self
        simp only [hb,hb0,hbe,if_false,Bool.false_eq_true]
        exact ih (c := b) (hb ▸ hseg) (by simp) (fun x hx => hmid x (List.mem_cons_of_mem _ hx))
          (by simpa using hf)
    · rw [List.find?_cons_of_pos (by simpa using hfound)]
      simp only [ne_eq,hfound,not_false_eq_true,if_true,Option.getD_some]

theorem ClusterChain.getClusterNum {u : Volume} (h : ClusterChain u c cs)
    (hroot : u.rootDirLba = c.setWidth 64) (hf : cs.length ≤ fuel) (hname : name.length ≤ 8)
    (hext : ext.length ≤ 3) :
    Fat32.getClusterNum fuel name ext u =
      .done (((cs.map fun a => checkDirectoryEntryForFile u a name ext).find? (· != 0#32)).getD 0#32)
        u := by
  obtain ⟨e,hseg,he⟩ := h.linked
  rw [Fat32.getClusterNum,if_neg (by omega),if_neg (by omega),hroot]
  refine searchDirectory_eq hseg h.ne_nil he (fun a ha => ?_) hf
  have ha := List.mem_of_mem_tail ha
  exact ⟨h.ne_zero ha,(h.inRange a ha).2.2⟩

theorem usableIndex_ne_iff {directory : Sector} :
    usableIndex directory ≠ 16 ↔ ∃ i < 16, isReadable directory i = false := by
  rw [usableIndex]
  cases hf : (List.range 16).find? fun i => !isReadable directory i with
  | none =>
    rw [List.find?_range_eq_none] at hf
    simpa using hf
  | some i =>
    obtain ⟨hi,hmem,-⟩ := List.find?_range_eq_some.mp hf
    have hlt := List.mem_range.mp hmem
    simp only [Option.getD_some]
    exact ⟨fun _ => ⟨i,hlt,by simpa using hi⟩,fun _ => by omega⟩

theorem usableIndex_le (directory : Sector) : usableIndex directory ≤ 16 := by
  rw [usableIndex]
  cases hf : (List.range 16).find? fun i => !isReadable directory i with
  | none => simp
  | some i =>
    have hlt := List.mem_range.mp (List.mem_of_find?_eq_some hf)
    simp only [Option.getD_some]
    omega

theorem lbaOf_eq (u : Volume) (a : U32) : a.setWidth 64 - 2#64 + u.dataStartLba = lbaOf u a := by
  rw [lbaOf,sub_add_eq_add_sub,add_comm]

/-- The search for a slot along a chain: the first sector with a usable slot, or the end. -/
theorem findSlot_walk {sec : U32 → Sector} {e : U32}
    (hr : ∀ a ∈ cs, v.disk (lbaOf v.toVolume a) = some (sec a))
    (hseg : Segment (fun a => v.fat a.toNat) c cs e) (he : isEndingCluster e = true) (hne : cs ≠ [])
    (hmid : ∀ a ∈ cs.tail, a ≠ 0#32 ∧ isEndingCluster a = false) (hf : cs.length ≤ fuel)
    (buffer : Sector) :
    (∀ a, cs.find? (fun a => usableIndex (sec a) != 16) = some a →
      findSlot v fuel (c.setWidth 64) buffer =
        .done (a.setWidth 64,usableIndex (sec a),sec a) v) ∧
    (cs.find? (fun a => usableIndex (sec a) != 16) = none →
      ∃ d, findSlot v fuel (c.setWidth 64) buffer = .done (e.setWidth 64,16,d) v) := by
  induction cs generalizing c fuel buffer with
  | nil => exact absurd rfl hne
  | cons a cs ih =>
    obtain ⟨rfl,hseg⟩ := hseg
    obtain ⟨fuel,rfl⟩ : ∃ n, fuel = n + 1 := ⟨fuel - 1,by simp only [List.length_cons] at hf; omega⟩
    simp only [findSlot,lbaOf_eq,hr c List.mem_cons_self,Option.getD_some,setWidth_toNat]
    by_cases hu : usableIndex (sec c) = 16
    · rw [if_neg (by simpa using hu),List.find?_cons_of_neg (by simp [hu])]
      cases cs with
      | nil =>
        obtain rfl : v.fat c.toNat = e := hseg
        simp only [not_zero_of_isEndingCluster he,he,if_false,if_true]
        exact ⟨fun a ha => absurd ha (by simp),fun _ => ⟨_,rfl⟩⟩
      | cons d cs =>
        have hd : v.fat c.toNat = d := hseg.1
        obtain ⟨hd0,hde⟩ := hmid d List.mem_cons_self
        simp only [hd,hd0,hde,if_false,Bool.false_eq_true]
        exact ih (c := d) (fun x hx => hr x (List.mem_cons_of_mem _ hx)) (hd ▸ hseg) (by simp)
          (fun x hx => hmid x (List.mem_cons_of_mem _ hx)) (by simpa using hf) (sec c)
    · rw [if_pos hu,List.find?_cons_of_pos (by simpa using hu)]
      refine ⟨fun a ha => ?_,fun h => by cases h⟩
      obtain rfl := Option.some.inj ha
      rfl

/-- The call for a name that is not found, from the search for a cluster on. -/
theorem fat32NewFile_of_not_found (hname : name.length ≤ 8) (hext : ext.length ≤ 3)
    (hnone : getClusterNum fuel name ext v.toVolume = .done 0#32 v.toVolume) :
    fat32NewFile fuel name ext v =
      (findSlot (markUsed (findFreeFATCluster v.toVolume) v) fuel v.rootDirLba zeroSector).bind
        fun found v' => if found.2.1 = 16 then .fault v' else
          .done ⟨0#32,0#32⟩ (writeBack (findFreeFATCluster v.toVolume) found.1
            (putEntry found.2.2 found.2.1 (newEntry name ext (findFreeFATCluster v.toVolume)))
            v') := by
  rw [fat32NewFile,if_neg (by omega),if_neg (by omega),hnone]
  simp only [Outcome.mapState_done,Outcome.bind_done,ne_eq,not_true,if_false]

end Walks

/-- A volume on which a file can be created: the transfers succeed, the first two entries
of the table are in use, the root directory is a chain, and there are a free cluster and a
slot that the code takes for free. Both marks of a free slot, a name that begins with 0 or
with 0xE5, are not readable. -/
structure Roomy (v : WritableVolume) (sec : U64 → Sector) (rootDir : List U32) : Prop where
  geometry : Geometry v
  reads : ∀ lba, v.disk lba = some (sec lba)
  writes : ∀ lba, v.writable lba = true
  reserved : v.fat 0 ≠ 0#32 ∧ v.fat 1 ≠ 0#32
  root : ClusterChain v.toVolume (v.rootDirLba.setWidth 32) rootDir
  cluster : ∃ i, 2 ≤ i ∧ i < 128 * v.fatSize.toNat ∧ v.fat i = 0#32
  slot : ∃ a ∈ rootDir, ∃ i < 16, isReadable (sec (lbaOf v.toVolume a)) i = false

section Create
variable {rootDir : List U32}

theorem Geometry.rootDirLba_eq (hg : Geometry v) :
    v.rootDirLba = (v.rootDirLba.setWidth 32).setWidth 64 := by
  apply BitVec.eq_of_toNat_eq
  have hroot := hg.root
  rw [BitVec.toNat_setWidth,BitVec.toNat_setWidth]
  omega

theorem Roomy.free (h : Roomy v sec rootDir) :
    v.fat (findFreeFATCluster v.toVolume).toNat = 0#32 ∧
      2 ≤ (findFreeFATCluster v.toVolume).toNat ∧
      (findFreeFATCluster v.toVolume).toNat < 128 * v.fatSize.toNat := by
  obtain ⟨i,-,hi,hfree⟩ := h.cluster
  obtain ⟨hzero,hle⟩ := findFreeFATCluster_spec h.geometry (by omega) hfree
  refine ⟨hzero,?_,by omega⟩
  by_contra hlt
  have hcases : (findFreeFATCluster v.toVolume).toNat = 0 ∨
      (findFreeFATCluster v.toVolume).toNat = 1 := by omega
  rcases hcases with h0 | h1
  · exact h.reserved.1 (h0 ▸ hzero)
  · exact h.reserved.2 (h1 ▸ hzero)

/-- The new cluster lies on no chain. -/
theorem Roomy.notMem (h : Roomy v sec rootDir) (hch : ClusterChain v.toVolume c cs) :
    findFreeFATCluster v.toVolume ∉ cs :=
  fun hmem => hch.entry_ne_zero hmem h.free.1

/-- Marking the new cluster leaves the chains as they are. -/
theorem Roomy.fat_markUsed (h : Roomy v sec rootDir) (hch : ClusterChain v.toVolume c cs)
    {a : U32} (ha : a ∈ cs) :
    (markUsed (findFreeFATCluster v.toVolume) v).fat a.toNat = v.fat a.toNat := by
  rw [markUsed_fat]
  refine Function.update_of_ne (fun heq => ?_) _ _
  exact h.notMem hch (BitVec.eq_of_toNat_eq heq ▸ ha)

/-- The state that the creation of a file leaves. -/
theorem Roomy.create (h : Roomy v sec rootDir) (fuel : ℕ) (hf : rootDir.length ≤ fuel)
    (name ext : List U8) (hname : name.length ≤ 8) (hext : ext.length ≤ 3)
    (hnone : (((rootDir.map fun a => checkDirectoryEntryForFile v.toVolume a name ext).find?
      (· != 0#32)).getD 0#32) = 0#32) :
    ∃ a ∈ rootDir, usableIndex (sec (lbaOf v.toVolume a)) ≠ 16 ∧
      fat32NewFile fuel name ext v = .done ⟨0#32,0#32⟩
        (writeBack (findFreeFATCluster v.toVolume) (a.setWidth 64)
          (putEntry (sec (lbaOf v.toVolume a)) (usableIndex (sec (lbaOf v.toVolume a)))
            (newEntry name ext (findFreeFATCluster v.toVolume)))
          (markUsed (findFreeFATCluster v.toVolume) v)) := by
  obtain ⟨e,hseg,he⟩ := h.root.linked
  obtain ⟨b,hb,hbslot⟩ := h.slot
  have hseg' : Segment (fun a => (markUsed (findFreeFATCluster v.toVolume) v).fat a.toNat)
      (v.rootDirLba.setWidth 32) rootDir e := hseg.congr fun x hx => h.fat_markUsed h.root hx
  have hreads (a : U32) (_ : a ∈ rootDir) :
      (markUsed (findFreeFATCluster v.toVolume) v).disk (lbaOf v.toVolume a) =
        some ((fun a => sec (lbaOf v.toVolume a)) a) := h.reads _
  obtain ⟨hfound,-⟩ := findSlot_walk hreads hseg' he h.root.ne_nil
    (fun a ha => ⟨h.root.ne_zero (List.mem_of_mem_tail ha),
      (h.root.inRange a (List.mem_of_mem_tail ha)).2.2⟩) hf zeroSector
  obtain ⟨a,hfind⟩ : ∃ a, rootDir.find? (fun a => usableIndex (sec (lbaOf v.toVolume a)) != 16) =
      some a :=
    Option.isSome_iff_exists.mp (List.find?_isSome.mpr
      ⟨b,hb,bne_iff_ne.mpr (usableIndex_ne_iff.mpr hbslot)⟩)
  have hau : usableIndex (sec (lbaOf v.toVolume a)) ≠ 16 := by simpa using List.find?_some hfind
  have hrun := hfound a hfind
  refine ⟨a,List.mem_of_find?_eq_some hfind,hau,?_⟩
  have hlookup := h.root.getClusterNum h.geometry.rootDirLba_eq hf hname hext
  rw [hnone] at hlookup
  rw [fat32NewFile_of_not_found hname hext hlookup,h.geometry.rootDirLba_eq,hrun,Outcome.bind_done,
    if_neg hau]

/-- Two sectors that agree outside the `i`-th slot. -/
def AgreeOutside (i : ℕ) (s t : Sector) : Prop :=
  ∀ j (hj : j < 512), ¬ (32 * i ≤ j ∧ j < 32 * i + 32) → s[j] = t[j]

theorem newEntry_length (name ext : List U8) (c : U32) :
    (newEntry name ext c).bytes.length = (wantStr name ext).length + 21 := by
  simp [FATDirectoryEntry.bytes,newEntry,u16Bytes,u32Bytes]

theorem length_writeUpper (cs : List U8) (i : ℕ) (s : List U8) :
    (writeUpper cs i s).length = s.length := by
  induction cs generalizing i s with
  | nil => rfl
  | cons x cs ih => rw [writeUpper,ih,List.length_set]

theorem length_wantStr (name ext : List U8) : (wantStr name ext).length = 11 := by
  rw [wantStr,length_writeUpper,length_writeUpper,List.length_replicate]

theorem agreeOutside_putEntry (s : Sector) (i : ℕ) (name ext : List U8) (c : U32) :
    AgreeOutside i s (putEntry s i (newEntry name ext c)) := by
  intro j hj hout
  rw [putEntry,Vector.getElem_ofFn]
  simp only
  split
  · rw [List.getD_eq_default _ _ (by rw [newEntry_length,length_wantStr]; omega)]
    rfl
  · rfl

/-- Of the chains that exist nothing changes, in memory and on the disk, but one slot of one
sector of the root directory. -/
def KeepsFiles (v : WritableVolume) (rootDir : List U32) (v' : WritableVolume) : Prop :=
  ∃ d ∈ rootDir, ∃ i < 16,
    (∀ c cs, ClusterChain v.toVolume c cs → ∀ a ∈ cs,
      v'.fat a.toNat = v.fat a.toNat ∧ diskEntry v' a.toNat = diskEntry v a.toNat ∧
      (a ≠ d → v'.disk (lbaOf v.toVolume a) = v.disk (lbaOf v.toVolume a))) ∧
    ∃ s t, v.disk (lbaOf v.toVolume d) = some s ∧ v'.disk (lbaOf v.toVolume d) = some t ∧
      AgreeOutside i s t

theorem Roomy.keepsFiles_self (h : Roomy v sec rootDir) : KeepsFiles v rootDir v := by
  obtain ⟨d,hd,i,hi,-⟩ := h.slot
  exact ⟨d,hd,i,hi,fun _ _ _ _ _ => ⟨rfl,rfl,fun _ => rfl⟩,_,_,h.reads _,h.reads _,
    fun _ _ _ => rfl⟩

theorem Geometry.lbaOf_toNat (hg : Geometry v) {a : U32} (ha : 2 ≤ a.toNat) :
    (lbaOf v.toVolume a).toNat = v.dataStartLba.toNat + a.toNat - 2 := by
  have hlba := hg.lbas
  have hlt := a.isLt
  rw [lbaOf,BitVec.toNat_sub,BitVec.toNat_add,setWidth_toNat,show (2#64).toNat = 2 from rfl]
  omega

theorem Geometry.lbaOf_inj (hg : Geometry v) {a b : U32} (ha : 2 ≤ a.toNat) (hb : 2 ≤ b.toNat)
    (h : lbaOf v.toVolume a = lbaOf v.toVolume b) : a = b := by
  have h := congrArg BitVec.toNat h
  rw [hg.lbaOf_toNat ha,hg.lbaOf_toNat hb] at h
  exact BitVec.eq_of_toNat_eq (by omega)

theorem fileLba_eq (u : Volume) {a : U32} (ha : 2 ≤ a.toNat) :
    (a - 2#32).setWidth 64 + u.dataStartLba = lbaOf u a := by
  rw [← lbaOf_eq]
  congr 1
  apply BitVec.eq_of_toNat_eq
  have hlt := a.isLt
  rw [BitVec.toNat_setWidth,BitVec.toNat_sub,BitVec.toNat_sub,setWidth_toNat,
    show (2#64).toNat = 2 from rfl,show (2#32).toNat = 2 from rfl]
  omega

/-- The data area after the three writes. -/
theorem disk_writeBack (hg : Geometry v) (hw : ∀ lba, v.writable lba = true) {a d : U32}
    (hc : 2 ≤ c.toNat ∧ c.toNat < 512 * v.fatSize.toNat) (ha : 2 ≤ a.toNat) (hd : 2 ≤ d.toNat)
    (directory : Sector) :
    (writeBack c (d.setWidth 64) directory v).disk (lbaOf v.toVolume a) =
      if a = c then some zeroSector else if a = d then some directory
      else v.disk (lbaOf v.toVolume a) := by
  have htab := hg.tables
  have hfat : lbaOf v.toVolume a ≠ fatLba v (c.toNat / 512) := by
    intro heq
    have heq := congrArg BitVec.toNat heq
    rw [hg.lbaOf_toNat ha,hg.fatLba_toNat (by omega)] at heq
    omega
  have hinj : ∀ b : U32, 2 ≤ b.toNat → (lbaOf v.toVolume a = lbaOf v.toVolume b ↔ a = b) :=
    fun b hb => ⟨hg.lbaOf_inj ha hb,fun h => by rw [h]⟩
  rw [writeBack_disk hw,fileLba_eq _ hc.1,lbaOf_eq,rowLba,if_neg hfat]
  simp only [hinj c hc.1,hinj d hd]

theorem Roomy.keepsFiles_create (h : Roomy v sec rootDir)
    (hsync : ∀ k < 128 * v.fatSize.toNat, v.fat k = diskEntry v k) {d : U32} (hd : d ∈ rootDir)
    (hdu : usableIndex (sec (lbaOf v.toVolume d)) ≠ 16) (name ext : List U8) :
    KeepsFiles v rootDir (writeBack (findFreeFATCluster v.toVolume) (d.setWidth 64)
      (putEntry (sec (lbaOf v.toVolume d)) (usableIndex (sec (lbaOf v.toVolume d)))
        (newEntry name ext (findFreeFATCluster v.toVolume)))
      (markUsed (findFreeFATCluster v.toVolume) v)) := by
  obtain ⟨hzero,htwo,hlt⟩ := h.free
  have hdrange := h.root.inRange d hd
  have hc : (findFreeFATCluster v.toVolume).toNat < 512 * v.fatSize.toNat := by omega
  have hdisk : ∀ a : U32, 2 ≤ a.toNat → _ := fun a ha =>
    disk_writeBack (h.geometry.markUsed (findFreeFATCluster v.toVolume)) h.writes ⟨htwo,hc⟩ ha
      hdrange.1 (putEntry (sec (lbaOf v.toVolume d)) (usableIndex (sec (lbaOf v.toVolume d)))
        (newEntry name ext (findFreeFATCluster v.toVolume)))
  refine ⟨d,hd,_,lt_of_le_of_ne (usableIndex_le _) hdu,?_,_,_,h.reads _,?_,
    agreeOutside_putEntry _ _ name ext (findFreeFATCluster v.toVolume)⟩
  · intro c cs hch a ha
    have hac : a ≠ findFreeFATCluster v.toVolume := fun heq => h.notMem hch (heq ▸ ha)
    have hrange := hch.inRange a ha
    have hmark := h.fat_markUsed hch ha
    refine ⟨by rw [writeBack_fat,hmark],?_,fun had => ?_⟩
    · rw [diskEntry_writeBack (h.geometry.markUsed _) h.writes
        (by rw [setWidth_toNat]; omega) hc hrange.2.1]
      split
      · rw [hmark,hsync _ hrange.2.1]
      · rfl
    · refine (hdisk a hrange.1).trans ?_
      rw [if_neg hac,if_neg had]
      rfl
  · have hdc : d ≠ findFreeFATCluster v.toVolume := fun heq => h.notMem h.root (heq ▸ hd)
    refine (hdisk d hdrange.1).trans ?_
    rw [if_neg hdc,if_pos rfl]

end Create

/-! A volume with a table of 1024 sectors, in which one cluster is free. -/

def oneFreeTable (k i : ℕ) : U32 := if i = k ∨ 131072 ≤ i then 0#32 else 0xFFFFFFF#32

theorem oneFreeTable_self (k : ℕ) : oneFreeTable k k = 0#32 := by simp [oneFreeTable]

def oneFreeSector (k : ℕ) (lba : U64) : Sector :=
  if 32 ≤ lba.toNat ∧ lba.toNat < 1056 then fatBytes (oneFreeTable k) (512 * (lba.toNat - 32))
  else zeroSector

def oneFree (k : ℕ) : WritableVolume where
  fatSize := 1024#32
  dataStartLba := 2080#64
  rootDirLba := 2#64
  fat := oneFreeTable k
  disk lba := some (oneFreeSector k lba)
  fatStartLba := 32#64
  writable _ := true

theorem oneFree_geometry (k : ℕ) : Geometry (oneFree k) where
  pos := show 0 < (1024#32).toNat by decide
  entries := show 512 * (1024#32).toNat < 2 ^ 32 by decide
  tables := show (2080#64).toNat = (32#64).toNat + 2 * (1024#32).toNat by decide
  lbas := show (2080#64).toNat + 2 ^ 32 ≤ 2 ^ 64 by decide
  root := show 2 ≤ (2#64).toNat ∧ (2#64).toNat < 2 ^ 32 by decide

theorem oneFree_rootDir (k : ℕ) :
    oneFreeSector k (lbaOf (oneFree k).toVolume 2#32) = zeroSector := by
  have hlba : lbaOf (oneFree k).toVolume 2#32 = 2080#64 :=
    show 2080#64 + (2#32).setWidth 64 - 2#64 = 2080#64 by decide
  rw [hlba]
  exact if_neg (by decide)

theorem oneFree_synced (k : ℕ) (i : ℕ) (hi : i < 128 * (oneFree k).fatSize.toNat) :
    (oneFree k).fat i = diskEntry (oneFree k) i := by
  have hsize : (oneFree k).fatSize.toNat = 1024 := rfl
  have hlba : (fatLba (oneFree k) (i / 128)).toNat = 32 + i / 128 :=
    (oneFree_geometry k).fatLba_toNat (by omega)
  have hsec : oneFreeSector k (fatLba (oneFree k) (i / 128)) =
      fatBytes (oneFreeTable k) (512 * (i / 128)) := by
    rw [oneFreeSector,hlba,if_pos (by omega),Nat.add_sub_cancel_left]
  refine Eq.symm ?_
  calc diskEntry (oneFree k) i
      = sectorEntry (oneFreeSector k (fatLba (oneFree k) (i / 128))) (i % 128) := rfl
    _ = oneFreeTable k (128 * (i / 128) + i % 128) := by
        rw [hsec,sectorEntry_fatBytes _ _ (Nat.mod_lt _ (by decide))]
    _ = (oneFree k).fat i := by rw [Nat.div_add_mod]; rfl

theorem oneFree_roomy {k : ℕ} (hk : 2 < k) (hlt : k < 131072) :
    Roomy (oneFree k) (oneFreeSector k) [2#32] where
  geometry := oneFree_geometry k
  reads _ := rfl
  writes _ := rfl
  reserved := by
    constructor
    · exact fun h => absurd ((if_neg (by omega)).symm.trans h) (by decide)
    · exact fun h => absurd ((if_neg (by omega)).symm.trans h) (by decide)
  root := by
    refine ⟨⟨0xFFFFFFF#32,⟨rfl,if_neg ?_⟩,by decide⟩,by simp,?_⟩
    · simp
      omega
    · intro a ha
      obtain rfl := List.mem_singleton.mp ha
      exact ⟨by decide,show (2#32).toNat < 128 * (1024#32).toNat by decide,by decide⟩
  cluster := ⟨k,by omega,hlt,oneFreeTable_self k⟩
  slot := by
    refine ⟨2#32,List.mem_singleton_self _,0,by decide,?_⟩
    rw [oneFree_rootDir]
    decide +kernel

theorem oneFree_findFree {k : ℕ} (hk : 2 < k) (hlt : k < 131072) :
    (findFreeFATCluster (oneFree k).toVolume).toNat = k := by
  have hsize : (oneFree k).fatSize.toNat = 1024 := rfl
  obtain ⟨hzero,hle⟩ := findFreeFATCluster_spec (oneFree_geometry k)
    (show k < 512 * (oneFree k).fatSize.toNat by omega) (oneFreeTable_self k)
  have hfat : (oneFree k).fat = oneFreeTable k := rfl
  by_contra hne
  rw [hfat,oneFreeTable,if_neg (by omega)] at hzero
  exact absurd hzero (by decide)

theorem oneFree_newFile {k : ℕ} (hk : 2 < k) (hlt : k < 131072) :
    ∃ d directory, fat32NewFile 1 [0x41#8] [] (oneFree k) = .done ⟨0#32,0#32⟩
      (writeBack (findFreeFATCluster (oneFree k).toVolume) d directory
        (markUsed (findFreeFATCluster (oneFree k).toVolume) (oneFree k))) ∧
      1 ≤ d.toNat ∧ d.toNat < 2 ^ 32 := by
  have hcheck : checkDirectoryEntryForFile (oneFree k).toVolume 2#32 [0x41#8] [] = 0#32 := by
    have hdisk : (oneFree k).disk (lbaOf (oneFree k).toVolume 2#32) = some zeroSector :=
      congrArg some (oneFree_rootDir k)
    rw [checkDirectoryEntryForFile,fileLba_eq _ (by decide),hdisk]
    decide +kernel
  obtain ⟨a,ha,-,hrun⟩ := (oneFree_roomy hk hlt).create 1 le_rfl [0x41#8] [] (by decide)
    (by decide) (by simp [hcheck])
  obtain rfl := List.mem_singleton.mp ha
  exact ⟨_,_,hrun,by decide,by decide⟩

/-- After `fat32_new_file` every file that existed has its contents and its chain, on a
volume whose table on the disk is the one in memory. -/
theorem newFile_keepsFiles {rootDir : List U32} (h : Roomy v sec rootDir)
    (hsync : ∀ k < 128 * v.fatSize.toNat, v.fat k = diskEntry v k) (hf : rootDir.length ≤ fuel)
    (name ext : List U8) :
    ∃ r v', fat32NewFile fuel name ext v = .done r v' ∧ KeepsFiles v rootDir v' := by
  by_cases hname : 8 < name.length
  · exact ⟨_,v,if_pos hname,h.keepsFiles_self⟩
  by_cases hext : 3 < ext.length
  · exact ⟨_,v,by rw [fat32NewFile,if_neg hname,if_pos hext],h.keepsFiles_self⟩
  by_cases hnone : (((rootDir.map fun a => checkDirectoryEntryForFile v.toVolume a name ext).find?
      (· != 0#32)).getD 0#32) = 0#32
  · obtain ⟨d,hd,hdu,hrun⟩ := h.create fuel hf name ext (by omega) (by omega) hnone
    exact ⟨_,_,hrun,h.keepsFiles_create hsync hd hdu name ext⟩
  · refine ⟨.failed .fileExists,v,?_,h.keepsFiles_self⟩
    rw [fat32NewFile,if_neg hname,if_neg hext,
      h.root.getClusterNum h.geometry.rootDirLba_eq hf (by omega) (by omega)]
    simp only [Outcome.mapState_done,Outcome.bind_done,ne_eq]
    exact if_pos hnone

theorem oneFree_keepsFiles : ∃ r v', fat32NewFile 1 [0x41#8] [] (oneFree 3) = .done r v' ∧
    KeepsFiles (oneFree 3) [2#32] v' :=
  newFile_keepsFiles (oneFree_roomy (by decide) (by decide)) (oneFree_synced 3) le_rfl _ _

/-- The new entry of the table survives a reboot if and only if its number is below 128,
or the disk holds the mark already, and outside the sector that is written the disk agrees
with the memory beforehand. -/
theorem newFile_persisted_iff (hg : Geometry v) (hw : ∀ lba, v.writable lba = true)
    (hlen : name.length ≤ 8) (hnew : fat32NewFile fuel name ext v = .done ⟨0#32,0#32⟩ v') :
    Persisted (findFreeFATCluster v.toVolume) v' ↔
      ((findFreeFATCluster v.toVolume).toNat < 128 ∨
        (findFreeFATCluster v.toVolume).toNat < 128 * v.fatSize.toNat ∧
          diskEntry v (findFreeFATCluster v.toVolume).toNat = 0xFFFFFFF#32) ∧
      ∀ k < 128 * v.fatSize.toNat, k ≠ (findFreeFATCluster v.toVolume).toNat →
        k / 128 ≠ (findFreeFATCluster v.toVolume).toNat / 512 → diskEntry v k = v.fat k := by
  obtain ⟨cc,directory,hcc,rfl⟩ := fat32NewFile_created hg hlen hnew
  exact persisted_iff hg hw hcc (findFreeFATCluster_lt hg)

theorem oneFree_persisted :
    (fat32NewFile 1 [0x41#8] [] (oneFree 3)).returned = some ⟨0#32,0#32⟩ ∧
    Persisted (findFreeFATCluster (oneFree 3).toVolume)
      ((fat32NewFile 1 [0x41#8] [] (oneFree 3)).stateD (oneFree 3)) := by
  obtain ⟨d,directory,hrun,-⟩ := oneFree_newFile (k := 3) (by decide) (by decide)
  have hfree := oneFree_findFree (k := 3) (by decide) (by decide)
  rw [hrun]
  refine ⟨rfl,(newFile_persisted_iff (oneFree_geometry 3) (fun _ => rfl) (by decide) hrun).mpr ?_⟩
  exact ⟨.inl (by omega),fun k hk _ _ => (oneFree_synced 3 k hk).symm⟩

/-- The first cluster whose entry the write-back misses. -/
theorem oneFree_not_persisted :
    (fat32NewFile 1 [0x41#8] [] (oneFree 128)).returned = some ⟨0#32,0#32⟩ ∧
    ¬ Persisted (findFreeFATCluster (oneFree 128).toVolume)
      ((fat32NewFile 1 [0x41#8] [] (oneFree 128)).stateD (oneFree 128)) := by
  obtain ⟨d,directory,hrun,hd⟩ := oneFree_newFile (k := 128) (by decide) (by decide)
  have hfree := oneFree_findFree (k := 128) (by decide) (by decide)
  have hentry : diskEntry (oneFree 128) 128 = 0#32 := by
    rw [← oneFree_synced 128 128 (by decide)]
    exact oneFreeTable_self 128
  rw [hrun]
  refine ⟨rfl,fun hper => ?_⟩
  obtain ⟨hsmall | ⟨-,hmark⟩,-⟩ := (persisted_iff (oneFree_geometry 128) (fun _ => rfl) hd
    (findFreeFATCluster_lt (oneFree_geometry 128))).mp hper
  · omega
  · rw [hfree,hentry] at hmark
    exact absurd hmark (by decide)

end Lios.Fat32

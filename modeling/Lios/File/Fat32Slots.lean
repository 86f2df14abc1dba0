import Lios.File.Fat32Lookup
import Lios.File.Fat32Space

/-! # The slot that a new file takes

`fat32_new_file` takes a slot of the root directory for used if the eleven bytes of its name are
printable. A free slot, whose name begins with 0x00 or 0xE5, is not printable; but neither is a
name with other characters, nor a long-name record. So the first slot that is not printable is
overwritten, free or not. If all slots are printable, the entry is written behind the buffer of the
directory, and the cluster stays marked.
-/
namespace Lios.Fat32
variable {v v' : WritableVolume} {fuel : ℕ} {name ext : List U8} {sec : U32 → Sector}
  {rootDir : List U32} {directory : Sector} {a b : U32} {i : ℕ}

/-- The mark of the format for a slot that is not in use. -/
def SlotFree (directory : Sector) (i : ℕ) : Prop :=
  dirName directory i 0 = 0x00#8 ∨ dirName directory i 0 = 0xE5#8

instance (directory : Sector) (i : ℕ) : Decidable (SlotFree directory i) :=
  inferInstanceAs (Decidable (_ ∨ _))

/-- No slot of the directory is free. -/
def Full (sec : U32 → Sector) (rootDir : List U32) : Prop :=
  ∀ a ∈ rootDir, ∀ i < 16, ¬SlotFree (sec a) i

/-- A name that a file can have and that no slot of the directory carries. -/
structure NewName (sec : U32 → Sector) (rootDir : List U32) (name ext : List U8) : Prop where
  name_length : name.length ≤ 8
  ext_length : ext.length ≤ 3
  name_ne_zero : 0#8 ∉ name
  ext_ne_zero : 0#8 ∉ ext
  not_listed : ∀ a ∈ rootDir, ∀ i < 16, ¬Lists name ext (sec a) i

/-- The name of every slot is printable. -/
def AllReadable (sec : U32 → Sector) (rootDir : List U32) : Prop :=
  ∀ a ∈ rootDir, ∀ i < 16, isReadable (sec a) i = true

/-- The first slot whose name is not printable is the `i`-th one of the cluster `a`. -/
def FirstUnreadable (sec : U32 → Sector) (rootDir : List U32) (a : U32) (i : ℕ) : Prop :=
  (∃ front back, rootDir = front ++ a :: back ∧ AllReadable sec front) ∧
    i < 16 ∧ isReadable (sec a) i = false ∧ ∀ k < i, isReadable (sec a) k = true

section Search

theorem usableIndex_eq_iff :
    usableIndex directory = 16 ↔ ∀ i < 16, isReadable directory i = true := by
  rw [← not_iff_not,← ne_eq,usableIndex_ne_iff]
  simp

theorem usableIndex_of_first (hi : i < 16) (hno : isReadable directory i = false)
    (hfirst : ∀ k < i, isReadable directory k = true) : usableIndex directory = i := by
  have hfind : ((List.range 16).find? fun i => !isReadable directory i) = some i := by
    rw [List.find?_range_eq_some]
    exact ⟨by simp [hno],List.mem_range.mpr hi,fun k hk => by simp [hfirst k hk]⟩
  rw [usableIndex,hfind,Option.getD_some]

theorem FirstUnreadable.mem (h : FirstUnreadable sec rootDir a i) : a ∈ rootDir := by
  obtain ⟨⟨front,back,rfl,-⟩,-⟩ := h
  simp

theorem FirstUnreadable.find (h : FirstUnreadable sec rootDir a i) :
    rootDir.find? (fun a => usableIndex (sec a) != 16) = some a ∧ usableIndex (sec a) = i := by
  obtain ⟨⟨front,back,rfl,hfront⟩,hi,hno,hfirst⟩ := h
  have hu := usableIndex_of_first hi hno hfirst
  refine ⟨?_,hu⟩
  rw [List.find?_append,List.find?_eq_none.mpr,Option.none_or,List.find?_cons_of_pos]
  · rw [hu]
    exact bne_iff_ne.mpr (by omega)
  · intro b hb
    simpa using usableIndex_eq_iff.mpr (hfront b hb)

theorem AllReadable.find (h : AllReadable sec rootDir) :
    rootDir.find? (fun a => usableIndex (sec a) != 16) = none := by
  rw [List.find?_eq_none]
  intro a ha
  simpa using usableIndex_eq_iff.mpr (h a ha)

/-- One of the two ways in which the search ends. -/
theorem allReadable_or_first (sec : U32 → Sector) (rootDir : List U32) :
    AllReadable sec rootDir ∨ ∃ a i, FirstUnreadable sec rootDir a i := by
  cases hfind : rootDir.find? (fun a => usableIndex (sec a) != 16) with
  | none =>
    refine .inl fun a ha => usableIndex_eq_iff.mp ?_
    simpa using List.find?_eq_none.mp hfind a ha
  | some a =>
    obtain ⟨hu,front,back,hsplit,hfront⟩ := List.find?_eq_some_iff_append.mp hfind
    have hu : usableIndex (sec a) ≠ 16 := by simpa using hu
    have hslot := lt_of_le_of_ne (usableIndex_le (sec a)) hu
    refine .inr ⟨a,usableIndex (sec a),⟨front,back,hsplit,fun b hb => ?_⟩,hslot,?_⟩
    · simpa [usableIndex_eq_iff] using hfront b hb
    · rw [usableIndex]
      cases hi : (List.range 16).find? fun i => !isReadable (sec a) i with
      | none => exact absurd (by rw [usableIndex,hi]; rfl) hu
      | some i =>
        obtain ⟨hno,-,hmin⟩ := List.find?_range_eq_some.mp hi
        exact ⟨by simpa using hno,fun k hk => by simpa using hmin k hk⟩

end Search

section Run

theorem RootDirectory.entry_ne_zero {u : Volume} (h : RootDirectory u rootDir sec)
    (ha : a ∈ rootDir) : u.fat a.toNat ≠ 0#32 := by
  obtain ⟨c,e,-,hseg,he⟩ := h.linked
  intro hzero
  rcases hseg.next_mem ha with hnext | hnext
  · rw [show e = 0#32 from hnext.symm.trans hzero] at he
    exact absurd he.1 (by decide)
  · have htwo := (h.inRange _ hnext).1
    rw [show u.fat a.toNat = 0#32 from hzero] at htwo
    exact absurd htwo (by decide)

/-- The cluster that is marked does not belong to the directory, even if the search for it fails. -/
theorem RootDirectory.notMem {u : Volume} (h : RootDirectory u rootDir sec) :
    findFreeFATCluster u ∉ rootDir := by
  intro hmem
  rcases findFreeFATCluster_free u with hzero | hfree
  · have htwo := (h.inRange _ hmem).1
    rw [hzero] at htwo
    exact absurd htwo (by decide)
  · exact h.entry_ne_zero hmem hfree

theorem RootDirectory.running_tail {u : Volume} (h : RootDirectory u rootDir sec) :
    ∀ a ∈ rootDir.tail, a ≠ 0#32 ∧ isEndingCluster a = false := by
  intro a ha
  refine ⟨?_,Bool.eq_false_iff.mpr fun hend => h.running a ha (isEndingCluster_iff.mp hend)⟩
  rintro rfl
  exact absurd (h.inRange _ (List.mem_of_mem_tail ha)).1 (by decide)

theorem RootDirectory.not_found {u : Volume} (h : RootDirectory u rootDir sec)
    (hn : NewName sec rootDir name ext) (hf : rootDir.length ≤ fuel) :
    getClusterNum fuel name ext u = .done 0#32 u := by
  obtain ⟨c,e,hroot,hseg,he⟩ := h.linked
  have hcheck : ∀ a ∈ rootDir, checkDirectoryEntryForFile u a name ext = 0#32 := fun a ha =>
    check_of_not_listed hn.name_ne_zero hn.ext_ne_zero (h.inRange a ha).1 (h.delivers a ha)
      fun i hi hl => hn.not_listed a ha i hi ((listed_iff hn.name_length hn.ext_length).mp hl)
  have hzero : (rootDir.map fun a => checkDirectoryEntryForFile u a name ext).find? (· != 0#32) =
      none := by
    rw [List.find?_eq_none]
    intro x hx
    obtain ⟨a,ha,rfl⟩ := List.mem_map.mp hx
    simp [hcheck a ha]
  rw [getClusterNum,if_neg (not_lt.mpr hn.name_length),if_neg (not_lt.mpr hn.ext_length),hroot,
    searchDirectory_eq hseg h.ne_nil (isEndingCluster_iff.mpr he) h.running_tail hf,hzero]
  rfl

/-- The volume after the entry of the new file was put into a slot. -/
def withEntry (v : WritableVolume) (directory : Sector) (name ext : List U8) (a : U32) (i : ℕ) :
    WritableVolume :=
  writeBack (findFreeFATCluster v.toVolume) (a.setWidth 64)
    (putEntry directory i (newEntry name ext (findFreeFATCluster v.toVolume)))
    (markUsed (findFreeFATCluster v.toVolume) v)

/-- The creation of a file with a new name. -/
theorem RootDirectory.newFile (h : RootDirectory v.toVolume rootDir sec)
    (hn : NewName sec rootDir name ext) (hf : rootDir.length ≤ fuel) :
    (AllReadable sec rootDir → fat32NewFile fuel name ext v =
      .fault (markUsed (findFreeFATCluster v.toVolume) v)) ∧
    ∀ a i, FirstUnreadable sec rootDir a i →
      fat32NewFile fuel name ext v = .done ⟨0#32,0#32⟩ (withEntry v (sec a) name ext a i) := by
  obtain ⟨c,e,hroot,hseg,he⟩ := h.linked
  have hseg' : Segment (fun a => (markUsed (findFreeFATCluster v.toVolume) v).fat a.toNat) c
      rootDir e := by
    refine hseg.congr fun x hx => ?_
    rw [markUsed_fat]
    refine Function.update_of_ne (fun heq => h.notMem ?_) _ _
    rwa [← BitVec.eq_of_toNat_eq heq]
  have hreads (a : U32) (ha : a ∈ rootDir) :
      (markUsed (findFreeFATCluster v.toVolume) v).disk (lbaOf v.toVolume a) = some (sec a) :=
    h.delivers a ha
  obtain ⟨hfound,hnone⟩ := findSlot_walk hreads hseg' (isEndingCluster_iff.mpr he) h.ne_nil
    h.running_tail hf zeroSector
  rw [fat32NewFile_of_not_found hn.name_length hn.ext_length (h.not_found hn hf),hroot]
  constructor
  · intro hall
    obtain ⟨buffer,hsearch⟩ := hnone hall.find
    rw [hsearch,Outcome.bind_done,if_pos rfl]
  · intro a i hfirst
    obtain ⟨hfind,hu⟩ := hfirst.find
    have hne : i ≠ 16 := hfirst.2.1.ne
    rw [hfound a hfind,hu,Outcome.bind_done,if_neg hne]
    rfl

end Run

section Live

theorem SlotFree.not_readable (h : SlotFree directory i) : isReadable directory i = false := by
  rw [isReadable,List.all_eq_false]
  refine ⟨0,by simp,?_⟩
  rcases h with h | h
  · rw [h]
    decide
  · rw [h]
    decide

theorem AllReadable.full (h : AllReadable sec rootDir) : Full sec rootDir := by
  intro a ha i hi hfree
  have hread := h a ha i hi
  rw [hfree.not_readable] at hread
  cases hread

/-- Every slot in use has the same 32 bytes on the disk. -/
def LiveKept (v : WritableVolume) (sec : U32 → Sector) (rootDir : List U32) (v' : WritableVolume) :
    Prop :=
  ∀ b ∈ rootDir, ∀ k < 16, ¬SlotFree (sec b) k →
    ∃ s, v'.disk (lbaOf v.toVolume b) = some s ∧ ∀ j < 32, dirName s k j = dirName (sec b) k j

/-- The sector of the new file is no sector of another cluster, even if the number of the new
file wraps around. -/
theorem Geometry.fileLba_ne (hg : Geometry v) {c : U32} (ha : 2 ≤ a.toNat) (hac : a ≠ c) :
    lbaOf v.toVolume a ≠ (c - 2#32).setWidth 64 + v.dataStartLba := by
  intro heq
  have heq := congrArg BitVec.toNat heq
  have hlba := hg.lbas
  have hlt := c.isLt
  have hlt' := a.isLt
  rw [hg.lbaOf_toNat ha,BitVec.toNat_add,setWidth_toNat,BitVec.toNat_sub,
    show (2#32).toNat = 2 from rfl] at heq
  exact hac (BitVec.eq_of_toNat_eq (by omega))

theorem Geometry.fatLba_ne_lbaOf (hg : Geometry v) (ha : 2 ≤ a.toNat) {k : ℕ}
    (hk : k < v.fatSize.toNat) : lbaOf v.toVolume a ≠ fatLba v k := by
  intro heq
  have heq := congrArg BitVec.toNat heq
  have htab := hg.tables
  rw [hg.lbaOf_toNat ha,hg.fatLba_toNat hk] at heq
  omega

/-- Of the sectors of the directory the creation writes the one with the slot. -/
theorem RootDirectory.disk_withEntry (hg : Geometry v) (h : RootDirectory v.toVolume rootDir sec)
    (ha : a ∈ rootDir) (hb : b ∈ rootDir) :
    (withEntry v directory name ext a i).disk (lbaOf v.toVolume b) =
      if b = a ∧ v.writable (lbaOf v.toVolume a) = true then
        some (putEntry directory i (newEntry name ext (findFreeFATCluster v.toVolume)))
      else some (sec b) := by
  have hlt := findFreeFATCluster_lt hg
  have hb2 := (h.inRange b hb).1
  have ha2 := (h.inRange a ha).1
  have hbc : b ≠ findFreeFATCluster v.toVolume := fun heq => h.notMem (heq ▸ hb)
  have hfile := hg.fileLba_ne hb2 hbc
  have hfat := hg.fatLba_ne_lbaOf hb2
    (show (findFreeFATCluster v.toVolume).toNat / 512 < v.fatSize.toNat by omega)
  rw [← rowLba] at hfat
  rw [withEntry,writeBack]
  simp only [nvmeWrite_dataStartLba,markUsed_fatStartLba,
    markUsed_dataStartLba,lbaOf_eq]
  rw [nvmeWrite_disk_of_ne hfile]
  by_cases hba : b = a ∧ v.writable (lbaOf v.toVolume a) = true
  · obtain ⟨rfl,hw⟩ := hba
    rw [nvmeWrite_disk (by simpa using hw),if_pos rfl,if_pos ⟨rfl,hw⟩]
  · rw [if_neg hba]
    refine Eq.trans ?_ (h.delivers b hb)
    by_cases heq : b = a
    · subst heq
      rw [nvmeWrite,if_neg (by simpa using hba),nvmeWrite_disk_of_ne hfat]
      rfl
    · rw [nvmeWrite_disk_of_ne (fun hl => heq (hg.lbaOf_inj hb2 ha2 hl)),nvmeWrite_disk_of_ne hfat]
      rfl

/-- The slot of the new file does not hold by chance what it is overwritten with: it would
carry the name. -/
theorem liveKept_withEntry_iff (hg : Geometry v) (h : RootDirectory v.toVolume rootDir sec)
    (hn : NewName sec rootDir name ext) (ha : a ∈ rootDir) (hi : i < 16) :
    LiveKept v sec rootDir (withEntry v (sec a) name ext a i) ↔
      (v.writable (lbaOf v.toVolume a) = true → SlotFree (sec a) i) := by
  constructor
  · intro hkept hw
    by_contra hused
    obtain ⟨s,hs,hbytes⟩ := hkept a ha i hi hused
    rw [h.disk_withEntry hg ha ha,if_pos ⟨rfl,hw⟩] at hs
    obtain rfl := Option.some.inj hs
    refine hn.not_listed a ha i hi ((listed_iff hn.name_length hn.ext_length).mp fun j hj => ?_)
    rw [← hbytes j (by omega)]
    exact listed_putEntry hi j hj
  · intro hfree b hb k hk hused
    rw [h.disk_withEntry hg ha hb]
    split
    · rename_i hba
      obtain ⟨rfl,hw⟩ := hba
      refine ⟨_,rfl,fun j hj => ?_⟩
      rw [dirName_putEntry hi hk hj,if_neg]
      rintro rfl
      exact hused (hfree hw)
    · exact ⟨_,rfl,fun _ _ => rfl⟩

theorem RootDirectory.liveKept_of_disk (h : RootDirectory v.toVolume rootDir sec)
    (hdisk : v'.disk = v.disk) : LiveKept v sec rootDir v' := by
  intro b hb k _ _
  rw [hdisk]
  exact ⟨_,h.delivers b hb,fun _ _ => rfl⟩

end Live

/-! A volume with one free cluster and a given sector for its root directory. -/

def withDirectory (s : Sector) : WritableVolume :=
  { oneFree 3 with disk := Function.update (oneFree 3).disk 2080#64 (some s) }

theorem withDirectory_geometry (s : Sector) : Geometry (withDirectory s) :=
  ⟨(oneFree_geometry 3).pos,(oneFree_geometry 3).entries,(oneFree_geometry 3).tables,
    (oneFree_geometry 3).lbas,(oneFree_geometry 3).root⟩

theorem withDirectory_rootDirectory (s : Sector) :
    RootDirectory (withDirectory s).toVolume [2#32] fun _ => s where
  linked := ⟨2#32,0xFFFFFFF#32,show 2#64 = (2#32).setWidth 64 by decide,
    ⟨rfl,show oneFreeTable 3 2 = 0xFFFFFFF#32 by decide⟩,by decide⟩
  ne_nil := by simp
  inRange a ha := by
    obtain rfl := List.mem_singleton.mp ha
    exact ⟨by decide,show (2#32).toNat < 128 * (1024#32).toNat by decide⟩
  running a ha := by simp at ha
  delivers a ha := by
    obtain rfl := List.mem_singleton.mp ha
    have hlba : lbaOf (withDirectory s).toVolume 2#32 = 2080#64 :=
      show 2080#64 + (2#32).setWidth 64 - 2#64 = 2080#64 by decide
    rw [hlba]
    exact Function.update_self 2080#64 (some s) (oneFree 3).disk

theorem newName_of_first {s : Sector} (h : ∀ i < 16, dirName s i 1 ≠ 0x20#8) :
    NewName (fun _ => s) [2#32] [0x41#8] [] where
  name_length := by decide
  ext_length := by decide
  name_ne_zero := by decide
  ext_ne_zero := by decide
  not_listed _ _ i hi hl := by
    have hbyte := (listed_iff (by decide) (by decide)).mpr hl 1 (by decide)
    exact h i hi (hbyte.trans (by decide))

/-- A directory in which every name consists of the letter `B`. -/
def lettersB : Sector := Vector.replicate 512 0x42#8

theorem dirName_lettersB {j : ℕ} (hi : i < 16) (hj : j < 32) : dirName lettersB i j = 0x42#8 := by
  rw [dirName,List.getD_eq_getElem _ _ (by rw [Vector.length_toList]; omega),Vector.getElem_toList]
  exact Vector.getElem_replicate _

theorem lettersB_allReadable : AllReadable (fun _ => lettersB) [2#32] := by
  intro a _ i hi
  rw [isReadable,List.all_eq_true]
  intro j hj
  have hj := List.mem_range.mp hj
  rw [dirName_lettersB hi (by omega)]
  decide

theorem lettersB_newName : NewName (fun _ => lettersB) [2#32] [0x41#8] [] := by
  refine newName_of_first fun i hi => ?_
  rw [dirName_lettersB hi (by decide)]
  decide

/-- A directory whose first slot is the long-name record of `abcde`; the other slots are free. -/
def longNameRecord : Sector :=
  Vector.ofFn fun j => [0x41#8,0x61#8,0#8,0x62#8,0#8,0x63#8,0#8,0x64#8,0#8,0x65#8,0#8,0x0F#8].getD
    j.val 0#8

theorem dirName_longNameRecord {j : ℕ} (hi : i < 16) (hj : j < 32) : dirName longNameRecord i j =
    [0x41#8,0x61#8,0#8,0x62#8,0#8,0x63#8,0#8,0x64#8,0#8,0x65#8,0#8,0x0F#8].getD (32 * i + j)
      0#8 := by
  rw [dirName,List.getD_eq_getElem _ _ (by rw [Vector.length_toList]; omega),Vector.getElem_toList]
  exact Vector.getElem_ofFn _

theorem longNameRecord_first : FirstUnreadable (fun _ => longNameRecord) [2#32] 2#32 0 := by
  refine ⟨⟨[],[],rfl,by simp [AllReadable]⟩,by decide,?_,by simp⟩
  rw [isReadable,List.all_eq_false]
  refine ⟨2,by decide,?_⟩
  rw [dirName_longNameRecord (by decide) (by decide)]
  decide

theorem longNameRecord_used : ¬SlotFree longNameRecord 0 := by
  rw [SlotFree,dirName_longNameRecord (by decide) (by decide)]
  decide

theorem longNameRecord_newName : NewName (fun _ => longNameRecord) [2#32] [0x41#8] [] := by
  refine newName_of_first fun i hi => ?_
  rw [dirName_longNameRecord hi (by decide)]
  rcases Nat.eq_zero_or_pos i with rfl | hpos
  · decide
  · rw [List.getD_eq_default _ _ (by simp only [List.length_cons,List.length_nil]; omega)]
    decide

/-- In a full directory the creation of a file never fails as it should. It writes behind the
buffer if all names are printable, and overwrites a slot in use otherwise. -/
theorem fullDirectory_noSpace_iff (h : RootDirectory v.toVolume rootDir sec)
    (hn : NewName sec rootDir name ext) (hf : rootDir.length ≤ fuel) :
    ((Full sec rootDir → fat32NewFile fuel name ext v = .done (.failed .noSpace) v) ↔
      ∃ a ∈ rootDir, ∃ i < 16, SlotFree (sec a) i) ∧
    (AllReadable sec rootDir → Full sec rootDir ∧ fat32NewFile fuel name ext v =
      .fault (markUsed (findFreeFATCluster v.toVolume) v)) ∧
    ∀ a i, FirstUnreadable sec rootDir a i →
      fat32NewFile fuel name ext v = .done ⟨0#32,0#32⟩ (withEntry v (sec a) name ext a i) := by
  obtain ⟨hall,hfirst⟩ := h.newFile hn hf
  refine ⟨?_,fun hr => ⟨hr.full,hall hr⟩,hfirst⟩
  constructor
  · intro hclean
    by_contra hnone
    push Not at hnone
    exact fat32NewFile_ne_noSpace (hclean hnone)
  · rintro ⟨a,ha,i,hi,hfree⟩ hfull
    exact absurd hfree (hfull a ha i hi)

theorem lettersB_fault : Full (fun _ => lettersB) [2#32] ∧
    fat32NewFile 1 [0x41#8] [] (withDirectory lettersB) =
      .fault (markUsed (findFreeFATCluster (withDirectory lettersB).toVolume)
        (withDirectory lettersB)) :=
  (fullDirectory_noSpace_iff (withDirectory_rootDirectory lettersB) lettersB_newName le_rfl).2.1
    lettersB_allReadable

theorem lettersB_not_noSpace : Full (fun _ => lettersB) [2#32] ∧
    fat32NewFile 1 [0x41#8] [] (withDirectory lettersB) ≠
      .done (.failed .noSpace) (withDirectory lettersB) :=
  ⟨lettersB_allReadable.full,fat32NewFile_ne_noSpace⟩

/-- The slots in use are kept, wherever the call ends, if and only if the first slot whose name is
not printable is free, or its sector cannot be written. -/
theorem newFile_liveKept_iff (hg : Geometry v) (h : RootDirectory v.toVolume rootDir sec)
    (hn : NewName sec rootDir name ext) (hf : rootDir.length ≤ fuel) :
    (fat32NewFile fuel name ext v).Ends (LiveKept v sec rootDir) (LiveKept v sec rootDir) False ↔
      ∀ a i, FirstUnreadable sec rootDir a i → v.writable (lbaOf v.toVolume a) = true →
        SlotFree (sec a) i := by
  obtain ⟨hall,hfirst⟩ := h.newFile hn hf
  constructor
  · intro hends a i hai
    rw [hfirst a i hai] at hends
    exact (liveKept_withEntry_iff hg h hn hai.mem hai.2.1).mp hends
  · intro hfree
    rcases allReadable_or_first sec rootDir with hr | ⟨a,i,hai⟩
    · rw [hall hr]
      exact h.liveKept_of_disk rfl
    · rw [hfirst a i hai]
      exact (liveKept_withEntry_iff hg h hn hai.mem hai.2.1).mpr (hfree a i hai)

theorem lettersB_liveKept : (fat32NewFile 1 [0x41#8] [] (withDirectory lettersB)).Ends
    (LiveKept (withDirectory lettersB) (fun _ => lettersB) [2#32])
    (LiveKept (withDirectory lettersB) (fun _ => lettersB) [2#32]) False := by
  rw [newFile_liveKept_iff (withDirectory_geometry lettersB) (withDirectory_rootDirectory lettersB)
    lettersB_newName (show [2#32].length ≤ 1 from le_rfl)]
  intro a i hai
  have hread := lettersB_allReadable a hai.mem i hai.2.1
  rw [hai.2.2.1] at hread
  cases hread

theorem longNameRecord_not_liveKept :
    ¬(fat32NewFile 1 [0x41#8] [] (withDirectory longNameRecord)).Ends
      (LiveKept (withDirectory longNameRecord) (fun _ => longNameRecord) [2#32])
      (LiveKept (withDirectory longNameRecord) (fun _ => longNameRecord) [2#32]) False := by
  have hroot := withDirectory_rootDirectory longNameRecord
  have hrun := (hroot.newFile longNameRecord_newName (show [2#32].length ≤ 1 from le_rfl)).2 2#32 0
    longNameRecord_first
  rw [hrun]
  intro hends
  have hfree := (liveKept_withEntry_iff (withDirectory_geometry longNameRecord) hroot
    longNameRecord_newName longNameRecord_first.mem (by decide)).mp hends rfl
  exact longNameRecord_used hfree

end Lios.Fat32

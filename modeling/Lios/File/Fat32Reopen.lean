import Lios.File.Fat32Create

/-! # Opening a file that was created

`fat32_open` after `fat32_new_file` finds the new slot first, since no other slot carries
the name. The slot holds the low 16 bits of the cluster number and a high half of zero, so
the file is opened again exactly when its number fits into 16 bits.
-/
namespace Lios.Fat32
variable {v : WritableVolume} {c : U32} {fuel : ℕ} {name ext : List U8} {sec : U64 → Sector}
  {rootDir : List U32} {directory : Sector} {i j : ℕ}

/-- A slot carries a name. -/
def Listed (directory : Sector) (i : ℕ) (name ext : List U8) : Prop :=
  ∀ j < 11, dirName directory i j = (wantStr name ext).getD j 0#8

section Names

theorem sub_setWidth_eq_zero {a b : U8} : a.setWidth 32 - b.setWidth 32 = 0#32 ↔ a = b := by
  refine Iff.trans sub_eq_zero ?_
  constructor
  · intro h
    have h := congrArg (BitVec.setWidth 8) h
    rwa [BitVec.setWidth_setWidth_of_le _ (by decide),BitVec.setWidth_setWidth_of_le _ (by decide),
      BitVec.setWidth_eq,BitVec.setWidth_eq] at h
  · rintro rfl
    rfl

theorem strncmp_go_eq_zero {s₁ s₂ : ℕ → U8} (n : ℕ) (hz : ∀ k < i + n, s₂ k ≠ 0#8) (x : U8) :
    strncmp.go s₁ s₂ n i x x = 0#32 ↔ ∀ k, i ≤ k → k < i + n → s₁ k = s₂ k := by
  induction n generalizing i x with
  | zero =>
    rw [strncmp.go,sub_self]
    exact ⟨fun _ k hk hlt => by omega,fun _ => rfl⟩
  | succ n ih =>
    rw [strncmp.go]
    by_cases heq : s₁ i = s₂ i
    · rw [if_neg (by rw [heq]; simpa using hz i (by omega)),heq,
        ih (fun k hk => hz k (by omega))]
      constructor
      · intro h k hk hlt
        by_cases hki : k = i
        · rw [hki,heq]
        · exact h k (by omega) (by omega)
      · exact fun h k hk hlt => h k (by omega) (by omega)
    · rw [if_pos (.inr heq),sub_setWidth_eq_zero]
      exact ⟨fun h => absurd h heq,fun h => h i le_rfl (by omega)⟩

theorem strncmp_eq_zero {s₁ s₂ : ℕ → U8} {n : ℕ} (hz : ∀ k < n, s₂ k ≠ 0#8) :
    strncmp s₁ s₂ n = 0#32 ↔ ∀ k < n, s₁ k = s₂ k := by
  rw [strncmp,strncmp_go_eq_zero n (by simpa using hz)]
  simp

theorem toupper_ne_zero {x : U8} (h : x ≠ 0#8) : toupper x ≠ 0#8 := by
  rw [toupper]
  split
  · rename_i hx
    intro h0
    have h0 := congrArg BitVec.toNat h0
    simp only [BitVec.le_def,BitVec.toNat_sub,BitVec.toNat_add,BitVec.toNat_ofNat] at hx h0
    omega
  · exact h

theorem notMem_writeUpper {cs s : List U8} (hcs : 0#8 ∉ cs) (hs : 0#8 ∉ s) (i : ℕ) :
    0#8 ∉ writeUpper cs i s := by
  induction cs generalizing i s with
  | nil => exact hs
  | cons x cs ih =>
    rw [writeUpper]
    refine ih (fun h => hcs (List.mem_cons_of_mem _ h)) (fun h => ?_) (i + 1)
    rcases List.mem_or_eq_of_mem_set h with h | h
    · exact hs h
    · exact toupper_ne_zero (fun h0 => hcs (h0 ▸ List.mem_cons_self)) h.symm

theorem wantStr_ne_zero (hn : 0#8 ∉ name) (he : 0#8 ∉ ext) (hj : j < 11) :
    (wantStr name ext).getD j 0#8 ≠ 0#8 := by
  have hlen := length_wantStr name ext
  rw [List.getD_eq_getElem _ _ (by omega)]
  intro h0
  have hmem : 0#8 ∈ wantStr name ext := h0 ▸ List.getElem_mem (by omega)
  exact notMem_writeUpper he (notMem_writeUpper hn (by decide) 0) 8 hmem

theorem strncmp_wantStr (hn : 0#8 ∉ name) (he : 0#8 ∉ ext) :
    strncmp (dirName directory i) (fun j => (wantStr name ext).getD j 0#8) 11 = 0#32 ↔
      Listed directory i name ext :=
  strncmp_eq_zero fun _ hj => wantStr_ne_zero hn he hj

/-- The lookup in one sector that lists the name nowhere. -/
theorem check_of_not_listed {u : Volume} {a : U32} (hn : 0#8 ∉ name) (he : 0#8 ∉ ext)
    (ha : 2 ≤ a.toNat) (hd : u.disk (lbaOf u a) = some directory)
    (hnot : ∀ i < 16, ¬ Listed directory i name ext) :
    checkDirectoryEntryForFile u a name ext = 0#32 := by
  have hnone : ((List.range 16).find? fun i =>
      strncmp (dirName directory i) (fun j => (wantStr name ext).getD j 0#8) 11 == 0#32) = none := by
    rw [List.find?_range_eq_none]
    intro i hi
    rw [Bool.not_eq_true',beq_eq_false_iff_ne]
    exact fun h => hnot i hi ((strncmp_wantStr hn he).mp h)
  rw [checkDirectoryEntryForFile,fileLba_eq _ ha,hd]
  simp only [Option.getD_some,hnone]

/-- The lookup in one sector that lists the name once. -/
theorem check_of_listed {u : Volume} {a : U32} (hn : 0#8 ∉ name) (he : 0#8 ∉ ext)
    (ha : 2 ≤ a.toNat) (hd : u.disk (lbaOf u a) = some directory) (hi : i < 16)
    (hlist : Listed directory i name ext) (hnot : ∀ j < i, ¬ Listed directory j name ext) :
    checkDirectoryEntryForFile u a name ext =
      (dirFstClusHI directory i).setWidth 32 <<< 16 ||| (dirFstClusLO directory i).setWidth 32 := by
  have hsome : ((List.range 16).find? fun i =>
      strncmp (dirName directory i) (fun j => (wantStr name ext).getD j 0#8) 11 == 0#32) =
        some i := by
    rw [List.find?_range_eq_some]
    refine ⟨beq_iff_eq.mpr ((strncmp_wantStr hn he).mpr hlist),List.mem_range.mpr hi,fun j hj => ?_⟩
    rw [Bool.not_eq_true',beq_eq_false_iff_ne]
    exact fun h => hnot j hj ((strncmp_wantStr hn he).mp h)
  rw [checkDirectoryEntryForFile,fileLba_eq _ ha,hd]
  simp only [Option.getD_some,hsome]

end Names

section Slot

theorem dirName_putEntry (hi : i < 16) {k : ℕ} (hk : k < 16) (hj : j < 32) :
    dirName (putEntry directory i (newEntry name ext c)) k j =
      if k = i then (newEntry name ext c).bytes.getD j 0#8 else dirName directory k j := by
  have hlen := newEntry_length name ext c
  rw [length_wantStr] at hlen
  have hbyte : ∀ s : Sector, dirName s k j = s[32 * k + j] := by
    intro s
    rw [dirName,List.getD_eq_getElem _ _ (by rw [Vector.length_toList]; omega),Vector.getElem_toList]
  rw [hbyte,hbyte,putEntry,Vector.getElem_ofFn]
  simp only
  by_cases hki : k = i
  · subst hki
    rw [if_pos (by omega),if_pos rfl,Nat.add_sub_cancel_left,List.getD_eq_getElem _ _ (by omega),
      List.getD_eq_getElem _ _ (by omega)]
  · rw [if_neg hki]
    split
    · rw [List.getD_eq_default _ _ (by omega)]
      rfl
    · rfl

theorem listed_putEntry (hi : i < 16) :
    Listed (putEntry directory i (newEntry name ext c)) i name ext := by
  intro j hj
  have hlen := length_wantStr name ext
  rw [dirName_putEntry hi hi (by omega),if_pos rfl,FATDirectoryEntry.bytes]
  exact List.getD_append _ _ _ _ (by simpa [newEntry,hlen] using hj)

theorem listed_putEntry_of_ne (hi : i < 16) {k : ℕ} (hk : k < 16) (hki : k ≠ i) :
    Listed (putEntry directory i (newEntry name ext c)) k name ext ↔
      Listed directory k name ext := by
  refine forall₂_congr fun j hj => ?_
  rw [dirName_putEntry hi hk (by omega),if_neg hki]

theorem u16_join (x : U16) :
    ((x >>> 8).setWidth 8).setWidth 16 <<< 8 ||| (x.setWidth 8).setWidth 16 = x := by
  refine BitVec.eq_of_getLsbD_eq fun i hi => ?_
  simp only [BitVec.getLsbD_or,BitVec.getLsbD_shiftLeft,BitVec.getLsbD_setWidth,
    BitVec.getLsbD_ushiftRight]
  grind

/-- What is stored of the cluster number, as the lookup puts it together. -/
theorem slot_cluster (hi : i < 16) :
    (dirFstClusHI (putEntry directory i (newEntry name ext c)) i).setWidth 32 <<< 16 |||
      (dirFstClusLO (putEntry directory i (newEntry name ext c)) i).setWidth 32 =
      (c.setWidth 16).setWidth 32 := by
  have hlen := length_wantStr name ext
  have hbyte : ∀ k, k < 21 → dirName (putEntry directory i (newEntry name ext c)) i (11 + k) =
      (([0x20#8,0#8,0#8] ++ u16Bytes 0#16 ++ u16Bytes 0#16 ++ u16Bytes 0#16 ++
        u16Bytes ((c &&& 0xFFFF0000#32).setWidth 16) ++ u16Bytes 0#16 ++ u16Bytes 0#16 ++
        u16Bytes ((c &&& 0x0000FFFF#32).setWidth 16) ++ u32Bytes 512#32).getD k 0#8) := by
    intro k hk
    rw [dirName_putEntry hi hi (by omega),if_pos rfl,FATDirectoryEntry.bytes,
      List.getD_append_right _ _ _ _ (by simp [newEntry,hlen])]
    simp only [newEntry,hlen,Nat.add_sub_cancel_left]
  have hhi : dirFstClusHI (putEntry directory i (newEntry name ext c)) i = 0#16 := by
    have hzero : (c &&& 0xFFFF0000#32).setWidth 16 = 0#16 := by
      rw [BitVec.setWidth_and,show (0xFFFF0000#32).setWidth 16 = 0#16 by decide,BitVec.and_zero]
    rw [dirFstClusHI,dirU16,hbyte 9 (by decide),hbyte 10 (by decide),hzero]
    exact u16_join 0#16
  have hlo : dirFstClusLO (putEntry directory i (newEntry name ext c)) i = c.setWidth 16 := by
    have hlow : (c &&& 0x0000FFFF#32).setWidth 16 = c.setWidth 16 := by
      rw [BitVec.setWidth_and,show (0x0000FFFF#32).setWidth 16 = BitVec.allOnes 16 by decide,
        BitVec.and_allOnes]
    rw [dirFstClusLO,dirU16,hbyte 15 (by decide),hbyte 16 (by decide),hlow]
    exact u16_join _
  rw [hhi,hlo]
  simp

end Slot

section Reopen

/-- The lookup over the sectors of the directory when one of them may yield a cluster. -/
theorem find_ne_zero {l : List U32} {r : U32} (hall : ∀ x ∈ l, x = 0#32 ∨ x = r) (hr : r ∈ l) :
    (l.find? (· != 0#32)).getD 0#32 = r := by
  cases hf : l.find? (· != 0#32) with
  | none =>
    have h0 : r = 0#32 := by simpa using List.find?_eq_none.mp hf r hr
    exact h0.symm
  | some x =>
    have hx : x ≠ 0#32 := by simpa using List.find?_some hf
    exact (hall x (List.mem_of_find?_eq_some hf)).resolve_left hx

theorem Roomy.not_found (h : Roomy v sec rootDir) (hn : 0#8 ∉ name) (he : 0#8 ∉ ext)
    (hnew : ∀ a ∈ rootDir, ∀ i < 16, ¬ Listed (sec (lbaOf v.toVolume a)) i name ext) :
    (((rootDir.map fun a => checkDirectoryEntryForFile v.toVolume a name ext).find?
      (· != 0#32)).getD 0#32) = 0#32 := by
  have hcheck : ∀ a ∈ rootDir, checkDirectoryEntryForFile v.toVolume a name ext = 0#32 :=
    fun a ha => check_of_not_listed hn he (h.root.inRange a ha).1 (h.reads _) (hnew a ha)
  obtain ⟨a,ha⟩ := List.exists_mem_of_ne_nil _ h.root.ne_nil
  refine find_ne_zero (fun x hx => ?_) (List.mem_map.mpr ⟨a,ha,hcheck a ha⟩)
  obtain ⟨b,hb,rfl⟩ := List.mem_map.mp hx
  exact .inl (hcheck b hb)

/-- The volume after the creation of a file in the directory cluster `d`. -/
def created (v : WritableVolume) (sec : U64 → Sector) (name ext : List U8) (d : U32) :
    WritableVolume :=
  writeBack (findFreeFATCluster v.toVolume) (d.setWidth 64)
    (putEntry (sec (lbaOf v.toVolume d)) (usableIndex (sec (lbaOf v.toVolume d)))
      (newEntry name ext (findFreeFATCluster v.toVolume)))
    (markUsed (findFreeFATCluster v.toVolume) v)

variable {d : U32}

theorem lbaOf_created (a : U32) :
    lbaOf (created v sec name ext d).toVolume a = lbaOf v.toVolume a := by
  simp [lbaOf,created]

theorem Roomy.root_created (h : Roomy v sec rootDir) :
    ClusterChain (created v sec name ext d).toVolume (v.rootDirLba.setWidth 32) rootDir := by
  obtain ⟨e,hseg,he⟩ := h.root.linked
  refine ⟨⟨e,hseg.congr fun a ha => ?_,he⟩,h.root.ne_nil,?_⟩
  · rw [created,writeBack_fat]
    exact h.fat_markUsed h.root ha
  · simpa [created] using h.root.inRange

/-- The lookup after the creation, sector by sector. -/
theorem Roomy.check_created (h : Roomy v sec rootDir) (hn : 0#8 ∉ name) (he : 0#8 ∉ ext)
    (hnew : ∀ a ∈ rootDir, ∀ i < 16, ¬ Listed (sec (lbaOf v.toVolume a)) i name ext)
    (hd : d ∈ rootDir) (hdu : usableIndex (sec (lbaOf v.toVolume d)) ≠ 16) {a : U32}
    (ha : a ∈ rootDir) :
    checkDirectoryEntryForFile (created v sec name ext d).toVolume a name ext =
      if a = d then ((findFreeFATCluster v.toVolume).setWidth 16).setWidth 32 else 0#32 := by
  obtain ⟨-,htwo,hlt⟩ := h.free
  have hrange := h.root.inRange a ha
  have hu := lt_of_le_of_ne (usableIndex_le _) hdu
  have hac : a ≠ findFreeFATCluster v.toVolume := fun heq => h.notMem h.root (heq ▸ ha)
  have hdisk : (created v sec name ext d).disk (lbaOf (created v sec name ext d).toVolume a) = _ :=
    (congrArg _ (lbaOf_created a)).trans
      (disk_writeBack (h.geometry.markUsed (findFreeFATCluster v.toVolume)) h.writes
        ⟨htwo,by rw [markUsed_fatSize]; omega⟩ hrange.1 (h.root.inRange d hd).1 _)
  rw [if_neg hac] at hdisk
  by_cases had : a = d
  · subst had
    rw [if_pos rfl] at hdisk ⊢
    rw [check_of_listed hn he hrange.1 hdisk hu (listed_putEntry hu) (fun j hj => ?_)]
    · exact slot_cluster hu
    · rw [listed_putEntry_of_ne hu (by omega) (by omega)]
      exact hnew a ha j (by omega)
  · rw [if_neg had] at hdisk ⊢
    exact check_of_not_listed hn he hrange.1 (hdisk.trans (h.reads _)) (hnew a ha)

theorem Roomy.getClusterNum_created (h : Roomy v sec rootDir) (hf : rootDir.length ≤ fuel)
    (hname : name.length ≤ 8) (hext : ext.length ≤ 3) (hn : 0#8 ∉ name) (he : 0#8 ∉ ext)
    (hnew : ∀ a ∈ rootDir, ∀ i < 16, ¬ Listed (sec (lbaOf v.toVolume a)) i name ext)
    (hd : d ∈ rootDir) (hdu : usableIndex (sec (lbaOf v.toVolume d)) ≠ 16) :
    getClusterNum fuel name ext (created v sec name ext d).toVolume =
      .done (((findFreeFATCluster v.toVolume).setWidth 16).setWidth 32)
        (created v sec name ext d).toVolume := by
  have hcheck := fun a (ha : a ∈ rootDir) => h.check_created hn he hnew hd hdu ha
  have hroot : (created v sec name ext d).rootDirLba = (v.rootDirLba.setWidth 32).setWidth 64 := by
    rw [← h.geometry.rootDirLba_eq]
    simp [created]
  rw [h.root_created.getClusterNum hroot hf hname hext,find_ne_zero]
  · intro x hx
    obtain ⟨a,ha,rfl⟩ := List.mem_map.mp hx
    rw [hcheck a ha]
    split
    · exact .inr rfl
    · exact .inl rfl
  · exact List.mem_map.mpr ⟨d,hd,by rw [hcheck d hd,if_pos rfl]⟩

theorem low_half_eq_iff (c : U32) : (c.setWidth 16).setWidth 32 = c ↔ c.toNat < 65536 := by
  have hlow : ((c.setWidth 16).setWidth 32).toNat = c.toNat % 65536 := by
    rw [BitVec.toNat_setWidth,BitVec.toNat_setWidth]
    omega
  constructor
  · intro h
    have h := congrArg BitVec.toNat h
    rw [hlow] at h
    omega
  · intro h
    apply BitVec.eq_of_toNat_eq
    rw [hlow]
    omega

theorem Roomy.open_created_iff (h : Roomy v sec rootDir) (hf : rootDir.length ≤ fuel)
    (hname : name.length ≤ 8) (hext : ext.length ≤ 3) (hn : 0#8 ∉ name) (he : 0#8 ∉ ext)
    (hnew : ∀ a ∈ rootDir, ∀ i < 16, ¬ Listed (sec (lbaOf v.toVolume a)) i name ext)
    (hd : d ∈ rootDir) (hdu : usableIndex (sec (lbaOf v.toVolume d)) ≠ 16) :
    fat32Open fuel name ext (created v sec name ext d).toVolume =
        .done ⟨findFreeFATCluster v.toVolume,1#32⟩ (created v sec name ext d).toVolume ↔
      (findFreeFATCluster v.toVolume).toNat < 65536 := by
  have htwo := h.free.2.1
  have hget := h.getClusterNum_created hf hname hext hn he hnew hd hdu
  rw [fat32Open,if_neg (by omega),if_neg (by omega),hget,Outcome.bind_done,← low_half_eq_iff]
  constructor
  · intro hopen
    split at hopen
    · rename_i hzero
      have hc := congrArg OpenResult.cluster (Outcome.done.inj hopen).1
      exact hzero.trans hc
    · obtain ⟨num,w,-,hret⟩ := Outcome.bind_eq_done.mp hopen
      exact congrArg OpenResult.cluster (Outcome.done.inj hret).1
  · intro hlow
    have hne : findFreeFATCluster v.toVolume ≠ 0#32 := by
      intro h0
      rw [h0] at htwo
      exact absurd htwo (by decide)
    obtain ⟨fuel,rfl⟩ : ∃ n, fuel = n + 1 := by
      have hpos := List.length_pos_iff.mpr h.root.ne_nil
      exact ⟨fuel - 1,by omega⟩
    have hmark : (created v sec name ext d).fat (findFreeFATCluster v.toVolume).toNat =
        0xFFFFFFF#32 := by
      rw [created,writeBack_fat,markUsed_fat,Function.update_self]
    have hcount : countClusters (created v sec name ext d).toVolume (fuel + 1)
        ((findFreeFATCluster v.toVolume).setWidth 64) 0#64 =
          .done 1#64 (created v sec name ext d).toVolume := by
      rw [countClusters,setWidth_toNat,hmark]
      rfl
    rw [hlow,if_neg hne,hcount]
    rfl

/-- A created file is opened again, with its own cluster and one cluster long, if and only if
the number of that cluster is below 65536. -/
theorem newFile_open_iff (h : Roomy v sec rootDir) (hf : rootDir.length ≤ fuel)
    (hname : name.length ≤ 8) (hext : ext.length ≤ 3) (hn : 0#8 ∉ name) (he : 0#8 ∉ ext)
    (hnew : ∀ a ∈ rootDir, ∀ i < 16, ¬ Listed (sec (lbaOf v.toVolume a)) i name ext) :
    ∃ v', fat32NewFile fuel name ext v = .done ⟨0#32,0#32⟩ v' ∧
      (fat32Open fuel name ext v'.toVolume =
          .done ⟨findFreeFATCluster v.toVolume,1#32⟩ v'.toVolume ↔
        (findFreeFATCluster v.toVolume).toNat < 65536) := by
  obtain ⟨d,hd,hdu,hrun⟩ := h.create fuel hf name ext hname hext (h.not_found hn he hnew)
  exact ⟨_,hrun,h.open_created_iff hf hname hext hn he hnew hd hdu⟩

end Reopen

theorem oneFree_not_listed (k : ℕ) : ∀ a ∈ [2#32], ∀ i < 16,
    ¬ Listed (oneFreeSector k (lbaOf (oneFree k).toVolume a)) i [0x41#8] [] := by
  intro a ha i hi hlist
  obtain rfl := List.mem_singleton.mp ha
  rw [oneFree_rootDir] at hlist
  have h0 := hlist 0 (by decide)
  rw [dirName,zeroSector,List.getD_eq_getElem _ _ (by rw [Vector.length_toList]; omega),
    Vector.getElem_toList,Vector.getElem_replicate] at h0
  exact absurd h0 (by decide)

theorem oneFree_opens : ∃ v', fat32NewFile 1 [0x41#8] [] (oneFree 3) = .done ⟨0#32,0#32⟩ v' ∧
    fat32Open 1 [0x41#8] [] v'.toVolume =
      .done ⟨findFreeFATCluster (oneFree 3).toVolume,1#32⟩ v'.toVolume := by
  obtain ⟨v',hrun,hiff⟩ := newFile_open_iff (oneFree_roomy (k := 3) (by decide) (by decide)) le_rfl
    (by decide) (by decide) (by decide) (by decide) (oneFree_not_listed 3)
  have hfree := oneFree_findFree (k := 3) (by decide) (by decide)
  exact ⟨v',hrun,hiff.mpr (by omega)⟩

/-- The cluster 65538 is taken for the file, and `fat32_open` finds cluster 2 in the slot. -/
theorem oneFree_not_opens :
    ∃ v', fat32NewFile 1 [0x41#8] [] (oneFree 65538) = .done ⟨0#32,0#32⟩ v' ∧
      ¬ fat32Open 1 [0x41#8] [] v'.toVolume =
        .done ⟨findFreeFATCluster (oneFree 65538).toVolume,1#32⟩ v'.toVolume := by
  have hroomy := oneFree_roomy (k := 65538) (by decide) (by decide)
  have hfree := oneFree_findFree (k := 65538) (by decide) (by decide)
  have hnot := oneFree_not_listed 65538
  obtain ⟨d,hd,hdu,hrun⟩ := hroomy.create 1 le_rfl [0x41#8] [] (by decide) (by decide)
    (hroomy.not_found (by decide) (by decide) hnot)
  refine ⟨_,hrun,fun hopen => ?_⟩
  have hlt := (hroomy.open_created_iff le_rfl (by decide) (by decide) (by decide) (by decide) hnot
    hd hdu).mp hopen
  omega

end Lios.Fat32

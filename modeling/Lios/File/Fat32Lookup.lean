import Lios.File.Fat32Reopen

/-! # Looking up a file

A directory entry is compared with the eleven bytes of the name by `strncmp`, whose loop is
unrolled four times and stops at zero bytes. The bytes of the name are not zero, so the comparison
gives zero if and only if the entry has these bytes, whatever is on the disk. The walk over the
clusters of the directory then finds the entry, if there is one.
-/
namespace Lios.Fat32
variable {v : Volume} {cs : List U32} {name ext : List U8}

section Strncmp
variable {s₁ s₂ : ℕ → U8}

/-- One comparison of the unrolled loop, with what comes after it. -/
def compareByte (s₁ s₂ : ℕ → U8) (i : ℕ) (rest : U32) : U32 :=
  if s₁ i = 0#8 ∨ s₁ i ≠ s₂ i then (s₁ i).setWidth 32 - (s₂ i).setWidth 32 else rest

/-- The loop over four bytes at a time; `n4` is the number of its rounds. -/
def compareFours (s₁ s₂ : ℕ → U8) (rest : ℕ → U8 → U8 → U32) : ℕ → ℕ → U8 → U8 → U32
  | 0,i,c₁,c₂ => rest i c₁ c₂
  | n4 + 1,i,_,_ =>
    compareByte s₁ s₂ i <| compareByte s₁ s₂ (i + 1) <| compareByte s₁ s₂ (i + 2) <|
    compareByte s₁ s₂ (i + 3) <| compareFours s₁ s₂ rest n4 (i + 4) (s₁ (i + 3)) (s₂ (i + 3))

/-- `strncmp` as the source has it, with the loop over four bytes and the loop over the rest. -/
def strncmpUnrolled (s₁ s₂ : ℕ → U8) (n : U64) : U32 :=
  if 4#64 ≤ n then
    compareFours s₁ s₂ (strncmp.go s₁ s₂ (n &&& 3#64).toNat) (n >>> 2).toNat 0 0#8 0#8
  else strncmp.go s₁ s₂ n.toNat 0 0#8 0#8

theorem go_succ (n i : ℕ) (c₁ c₂ : U8) : strncmp.go s₁ s₂ (n + 1) i c₁ c₂ =
    compareByte s₁ s₂ i (strncmp.go s₁ s₂ n (i + 1) (s₁ i) (s₂ i)) := rfl

theorem compareFours_eq (n n4 i : ℕ) (c₁ c₂ : U8) :
    compareFours s₁ s₂ (strncmp.go s₁ s₂ n) n4 i c₁ c₂ = strncmp.go s₁ s₂ (n + 4 * n4) i c₁ c₂ := by
  induction n4 generalizing i c₁ c₂ with
  | zero => rfl
  | succ n4 ih =>
    rw [compareFours,ih,show n + 4 * (n4 + 1) = n + 4 * n4 + 1 + 1 + 1 + 1 by omega,go_succ,go_succ,
      go_succ,go_succ]

/-- The unrolled loops compare byte by byte. -/
theorem strncmpUnrolled_eq (s₁ s₂ : ℕ → U8) (n : U64) :
    strncmpUnrolled s₁ s₂ n = strncmp s₁ s₂ n.toNat := by
  have hlen : (n &&& 3#64).toNat + 4 * (n >>> 2).toNat = n.toNat := by
    have hand : n.toNat &&& 3 = n.toNat % 4 := Nat.and_two_pow_sub_one_eq_mod n.toNat 2
    rw [BitVec.toNat_and,BitVec.toNat_ushiftRight,Nat.shiftRight_eq_div_pow]
    change (n.toNat &&& 3) + 4 * (n.toNat / 4) = n.toNat
    omega
  rw [strncmpUnrolled,strncmp,compareFours_eq,hlen,ite_self]

end Strncmp

/-- The bytes under which a directory lists a file: the name and the extension in upper case, with
spaces up to eight and three bytes. -/
def shortName (name ext : List U8) : List U8 :=
  name.map toupper ++ List.replicate (8 - name.length) 0x20#8 ++
    (ext.map toupper ++ List.replicate (3 - ext.length) 0x20#8)

theorem writeUpper_eq (ds : List U8) {i : ℕ} {s : List U8} (h : i + ds.length ≤ s.length) :
    writeUpper ds i s = s.take i ++ ds.map toupper ++ s.drop (i + ds.length) := by
  induction ds generalizing i s with
  | nil => rw [writeUpper,List.map_nil,List.append_nil,List.length_nil,Nat.add_zero,
      List.take_append_drop]
  | cons d ds ih =>
    rw [List.length_cons] at h
    have hset : (s.set i (toupper d)).take (i + 1) = s.take i ++ [toupper d] := by
      rw [List.take_add_one,List.take_set_of_le le_rfl,List.getElem?_set_self (by omega)]
      rfl
    have hdrop : (s.set i (toupper d)).drop (i + 1 + ds.length) = s.drop (i + 1 + ds.length) :=
      List.drop_set_of_lt (by omega)
    rw [writeUpper,ih (by rw [List.length_set]; omega),hset,hdrop,List.map_cons,List.length_cons,
      Nat.add_assoc i 1,Nat.add_comm 1,List.append_assoc (s.take i),List.singleton_append]

theorem wantStr_eq (hname : name.length ≤ 8) (hext : ext.length ≤ 3) :
    wantStr name ext = shortName name ext := by
  have hinner : writeUpper name 0 (List.replicate 11 0x20#8) =
      (name.map toupper ++ List.replicate (8 - name.length) 0x20#8) ++
        List.replicate 3 0x20#8 := by
    rw [writeUpper_eq name (by rw [List.length_replicate]; omega),List.take_zero,List.nil_append,
      Nat.zero_add,List.drop_replicate,List.append_assoc,List.replicate_append_replicate]
    congr 2
    omega
  have hlen : (name.map toupper ++ List.replicate (8 - name.length) 0x20#8).length = 8 := by
    rw [List.length_append,List.length_map,List.length_replicate]
    omega
  have hdrop : ((name.map toupper ++ List.replicate (8 - name.length) 0x20#8) ++
      List.replicate 3 0x20#8).drop (8 + ext.length) = List.replicate (3 - ext.length) 0x20#8 := by
    rw [List.drop_append,List.drop_of_length_le (by omega),hlen,List.nil_append,
      Nat.add_sub_cancel_left,List.drop_replicate]
  rw [wantStr,hinner,writeUpper_eq ext (by rw [List.length_append,hlen,List.length_replicate]; omega),
    List.take_left' hlen,hdrop,shortName,List.append_assoc _ (ext.map toupper)]

theorem shortName_length (hname : name.length ≤ 8) (hext : ext.length ≤ 3) :
    (shortName name ext).length = 11 := by
  simp only [shortName,List.length_append,List.length_map,List.length_replicate]
  omega

/-- The `i`-th entry of a directory sector lists the file. -/
def Lists (name ext : List U8) (directory : Sector) (i : ℕ) : Prop :=
  (List.range 11).map (dirName directory i) = shortName name ext

instance (directory : Sector) (i : ℕ) : Decidable (Lists name ext directory i) :=
  inferInstanceAs (Decidable (_ = _))

/-- The first cluster of a file according to its entry. -/
def entryCluster (directory : Sector) (i : ℕ) : U32 :=
  (dirFstClusHI directory i).setWidth 32 <<< 16 ||| (dirFstClusLO directory i).setWidth 32

theorem toNat_entryCluster (directory : Sector) (i : ℕ) : (entryCluster directory i).toNat =
    (dirFstClusHI directory i).toNat * 65536 + (dirFstClusLO directory i).toNat := by
  have hhi := (dirFstClusHI directory i).isLt
  have hlo := (dirFstClusLO directory i).isLt
  have hshift : ((dirFstClusHI directory i).setWidth 32 <<< 16).toNat =
      (dirFstClusHI directory i).toNat <<< 16 := by
    rw [BitVec.toNat_shiftLeft,BitVec.toNat_setWidth,Nat.shiftLeft_eq,Nat.shiftLeft_eq]
    omega
  rw [entryCluster,BitVec.toNat_or,hshift,BitVec.toNat_setWidth,Nat.mod_eq_of_lt (by omega),
    ← Nat.shiftLeft_add_eq_or_of_lt hlo,Nat.shiftLeft_eq]

theorem listed_iff (hname : name.length ≤ 8) (hext : ext.length ≤ 3) {directory : Sector} {i : ℕ} :
    Listed directory i name ext ↔ Lists name ext directory i := by
  have hlen := shortName_length hname hext
  rw [Listed,Lists,wantStr_eq hname hext]
  constructor
  · intro h
    refine List.ext_getElem (by rw [List.length_map,List.length_range,hlen]) fun j hj hj' => ?_
    rw [List.getElem_map,List.getElem_range,h j (by omega),List.getD_eq_getElem _ _ hj']
  · intro h j hj
    rw [← h,List.getD_eq_getElem _ _ (by simpa using hj),List.getElem_map,List.getElem_range]

/-- The root directory has the clusters `cs` in the table, and reading them delivers `sec`. -/
structure RootDirectory (v : Volume) (cs : List U32) (sec : U32 → Sector) : Prop where
  linked : ∃ c e, v.rootDirLba = c.setWidth 64 ∧ Segment (fun a => v.fat a.toNat) c cs e ∧
    0xFFFFFF8 ≤ e.toNat ∧ e.toNat ≤ 0xFFFFFFF
  ne_nil : cs ≠ []
  inRange : ∀ a ∈ cs, 2 ≤ a.toNat ∧ a.toNat < 128 * v.fatSize.toNat
  running : ∀ a ∈ cs.tail, ¬(0xFFFFFF8 ≤ a.toNat ∧ a.toNat ≤ 0xFFFFFFF)
  delivers : ∀ a ∈ cs, v.disk (lbaOf v a) = some (sec a)

theorem isEndingCluster_iff {a : U32} :
    isEndingCluster a = true ↔ 0xFFFFFF8 ≤ a.toNat ∧ a.toNat ≤ 0xFFFFFFF := by
  have hand : (a &&& 0xFFFFFFF#32).toNat = a.toNat % 2 ^ 28 := by
    rw [BitVec.toNat_and]
    exact Nat.and_two_pow_sub_one_eq_mod a.toNat 28
  simp only [isEndingCluster,Bool.and_eq_true,decide_eq_true_iff,BitVec.le_def,hand,
    BitVec.toNat_ofNat]
  omega

/-- The call returns; with an entry that lists the file, and no other one, it returns the cluster
of the entry, and without one it returns zero. The comparison of the source is the one of the
model. -/
theorem getClusterNum_finds {sec : U32 → Sector} {fuel : ℕ} (h : RootDirectory v cs sec)
    (hname : name.length ≤ 8) (hext : ext.length ≤ 3) (hname0 : 0#8 ∉ name) (hext0 : 0#8 ∉ ext)
    (honce : ∀ a ∈ cs, ∀ i < 16, ∀ b ∈ cs, ∀ j < 16, Lists name ext (sec a) i →
      Lists name ext (sec b) j → a = b ∧ i = j) (hfuel : cs.length ≤ fuel) :
    (∀ s₁ s₂ : ℕ → U8, strncmpUnrolled s₁ s₂ 11#64 = strncmp s₁ s₂ 11) ∧
    ∃ r, getClusterNum fuel name ext v = .done r v ∧
      (∀ a ∈ cs, ∀ i < 16, Lists name ext (sec a) i → r.toNat =
        (dirFstClusHI (sec a) i).toNat * 65536 + (dirFstClusLO (sec a) i).toNat) ∧
      ((∀ a ∈ cs, ∀ i < 16, ¬Lists name ext (sec a) i) → r = 0#32) := by
  refine ⟨fun s₁ s₂ => strncmpUnrolled_eq s₁ s₂ 11#64,?_⟩
  obtain ⟨c,e,hroot,hseg,he⟩ := h.linked
  have hmid : ∀ a ∈ cs.tail, a ≠ 0#32 ∧ isEndingCluster a = false := by
    intro a ha
    have hmin := (h.inRange a (List.mem_of_mem_tail ha)).1
    refine ⟨?_,Bool.eq_false_iff.mpr fun hend => h.running a ha (isEndingCluster_iff.mp hend)⟩
    rintro rfl
    exact absurd hmin (by decide)
  rw [getClusterNum,if_neg (by omega),if_neg (by omega),hroot,
    searchDirectory_eq hseg h.ne_nil (isEndingCluster_iff.mpr he) hmid hfuel]
  refine ⟨_,rfl,?_⟩
  have hnone (a : U32) (ha : a ∈ cs) (hall : ∀ i < 16, ¬Lists name ext (sec a) i) :
      checkDirectoryEntryForFile v a name ext = 0#32 :=
    check_of_not_listed hname0 hext0 (h.inRange a ha).1 (h.delivers a ha)
      fun i hi hl => hall i hi ((listed_iff hname hext).mp hl)
  constructor
  · intro a ha i hi hl
    have hcheck : checkDirectoryEntryForFile v a name ext = entryCluster (sec a) i :=
      check_of_listed hname0 hext0 (h.inRange a ha).1 (h.delivers a ha) hi
        ((listed_iff hname hext).mpr hl) fun j hj hlj =>
          absurd (honce a ha j (by omega) a ha i hi ((listed_iff hname hext).mp hlj) hl).2 (by omega)
    -- every other cluster of the directory has no entry for the file
    have hothers : ∀ x ∈ cs.map fun a => checkDirectoryEntryForFile v a name ext,
        x = 0#32 ∨ x = entryCluster (sec a) i := by
      intro x hx
      obtain ⟨b,hb,rfl⟩ := List.mem_map.mp hx
      by_cases hba : b = a
      · rw [hba]
        exact .inr hcheck
      · refine .inl (hnone b hb fun j hj hlj => hba ?_)
        exact (honce b hb j hj a ha i hi hlj hl).1
    rw [find_ne_zero hothers (List.mem_map.mpr ⟨a,ha,hcheck⟩)]
    exact toNat_entryCluster (sec a) i
  · intro hall
    have hzero : ∀ x ∈ cs.map fun a => checkDirectoryEntryForFile v a name ext,
        x = 0#32 ∨ x = 0#32 := by
      intro x hx
      obtain ⟨b,hb,rfl⟩ := List.mem_map.mp hx
      exact .inl (hnone b hb (hall b hb))
    obtain ⟨a,ha⟩ := List.exists_mem_of_ne_nil _ h.ne_nil
    exact find_ne_zero hzero (List.mem_map.mpr ⟨a,ha,hnone a ha (hall a ha)⟩)

theorem rowVolume_rootDirectory :
    RootDirectory (rowVolume 1) [2#32] fun a => rowSector (lbaOf (rowVolume 1) a) where
  linked := ⟨2#32,0xFFFFFFF#32,rfl,⟨rfl,rfl⟩,by decide,by decide⟩
  ne_nil := by decide
  inRange a ha := by
    rw [List.mem_singleton.mp ha]
    decide
  running a ha := by cases ha
  delivers _ _ := rfl

/-- The file `A` is found at its cluster. -/
theorem rowVolume_finds : ∃ r, getClusterNum 1 [0x41#8] [] (rowVolume 1) = .done r (rowVolume 1) ∧
    r.toNat = 3 := by
  have hentries : ∀ i < 16, Lists [0x41#8] [] (rowSector 100#64) i ↔ i = 0 := by decide +kernel
  obtain ⟨-,r,hdone,hfound,-⟩ := @getClusterNum_finds _ _ [0x41#8] [] _ 1 rowVolume_rootDirectory
    (by decide) (by decide) (by decide) (by decide)
    (fun a ha i hi b hb j hj hl hl' => by
      rw [List.mem_singleton.mp ha] at hl ⊢
      rw [List.mem_singleton.mp hb] at hl' ⊢
      exact ⟨rfl,((hentries i hi).mp hl).trans ((hentries j hj).mp hl').symm⟩) le_rfl
  refine ⟨r,hdone,?_⟩
  rw [hfound 2#32 List.mem_cons_self 0 (by decide) ((hentries 0 (by decide)).mpr rfl)]
  decide +kernel

end Lios.Fat32

import Lios.File.NvmeFind
import Lios.Proc.ElfSample

/-! # What the search finds

Through the mapping of a configuration space the search sees the functions of the entry in order,
and the device that it returns is the first NVMe controller among them. The return stands inside
the loop over the entries: the entries behind the first one are never looked at, and a search
without a result maps the page 0 as the device.
-/
namespace Lios.Pci
open Paging (SamePage Spare Stock IsTree pathOf addrMask)
variable {A : Type} {fa : FrameAllocator A}

/-! The functions that a table describes. -/

/-- A field of `w` bits in a configuration space. -/
def fieldAt (phys : PhysicalAddress → U8) (w : ℕ) (f : PhysicalAddress) (offset : ℕ) : BitVec w :=
  (load phys (f + BitVec.ofNat 64 offset)).setWidth w

/-- The function whose configuration space begins at `f` exists and is an NVMe controller. -/
def isNvme (phys : PhysicalAddress → U8) (f : PhysicalAddress) : Bool :=
  fieldAt phys 16 f 0 ≠ 0xFFFF#16 ∧ fieldAt phys 8 f 11 = 1#8 ∧ fieldAt phys 8 f 10 = 8#8 ∧
    fieldAt phys 8 f 9 = 2#8

/-- The address in BAR0 and BAR1. -/
def baseAddr (phys : PhysicalAddress → U8) (f : PhysicalAddress) : U64 :=
  (fieldAt phys 32 f 20).setWidth 64 <<< 32 ||| (fieldAt phys 32 f 16 &&& 0xFFFFFFF0#32).setWidth 64

/-- The configuration spaces of the functions of an entry, in the order bus, device, function. -/
def functions (entry : MCFGEntry) : List PhysicalAddress :=
  (List.range' entry.startPci.toNat (entry.endPci.toNat + 1 - entry.startPci.toNat)).flatMap
    fun bus => (List.range 32).flatMap fun device => (List.range 8).map fun function =>
      entry.addr + BitVec.ofNat 64 (256 * bus + 8 * device + function) * pageSize

def entryCount (mcfg : MCFG) : ℕ := (mcfg.length.toNat - 44) / 16

/-- The first NVMe controller of a table. -/
def firstNvme (phys : PhysicalAddress → U8) (mcfg : MCFG) : Option PhysicalAddress :=
  ((List.range (entryCount mcfg)).flatMap fun i => functions (mcfg.entries i)).find? (isNvme phys)

/-- The space of an entry lies at a page boundary in the physical memory. -/
def Aligned (entry : MCFGEntry) : Prop :=
  entry.addr.toNat % 4096 = 0 ∧ entry.addr.toNat + 2 ^ 28 ≤ 2 ^ 52

/-- The two pages from `base` on are mapped at `r`. -/
def DeviceAt (s : Paging A) (r base : U64) : Prop :=
  ∀ k < 0x2000, Mapped s (r + BitVec.ofNat 64 k) ∧
    s.pageVirtToPhysAddr (r + BitVec.ofNat 64 k) = base + BitVec.ofNat 64 k

/-- The search is exact: it returns 0 if and only if there is no controller, and otherwise the
first one, which is mapped. -/
def Exact (phys : PhysicalAddress → U8) (mcfg : MCFG) (r : U64) (s : Paging A) : Prop :=
  (r = 0#64 ↔ firstNvme phys mcfg = none) ∧
    ∀ f, firstNvme phys mcfg = some f → DeviceAt s r (baseAddr phys f)

/-! Pages. -/

section Pages
variable {s : Paging A} {v w f : U64}

/-- The page of `v` lies on the frame `f`. -/
def PageAt (s : Paging A) (v : U64) (f : PhysicalAddress) : Prop :=
  ∀ w, SamePage w v → s.pageVirtToPhysAddr w = f + (w &&& 0xFFF#64)

theorem samePage_or (v : U64) : SamePage (v ||| 0xFFF#64) v := by
  have hbit : ∀ i < 48, 12 ≤ i → (0xFFF#64).getLsbD i = false := by decide
  intro i hi hi'
  rw [BitVec.getLsbD_or,hbit i hi' hi,Bool.or_false]

theorem or_and_offset (v : U64) : (v ||| 0xFFF#64) &&& 0xFFF#64 = 0xFFF#64 := by
  apply BitVec.eq_of_getLsbD_eq
  intro i hi
  rw [BitVec.getLsbD_and,BitVec.getLsbD_or]
  cases (0xFFF#64).getLsbD i <;> simp

theorem PageAt.mapped (h : PageAt s v f) (hf : f.toNat % 4096 = 0) (hw : SamePage w v) :
    Mapped s w := by
  rw [Mapped,h _ ((samePage_or w).trans hw),or_and_offset]
  intro hzero
  have hnat := congrArg BitVec.toNat hzero
  have hlt := f.isLt
  rw [BitVec.toNat_add,show (0xFFF#64).toNat = 4095 from rfl,show (0#64).toNat = 0 from rfl] at hnat
  omega

/-- An offset in the page of an aligned address. -/
theorem samePage_add {k : ℕ} (hv : v.toNat % 4096 = 0) (hk : k < 4096) :
    SamePage (v + BitVec.ofNat 64 k) v ∧
      (v + BitVec.ofNat 64 k) &&& 0xFFF#64 = BitVec.ofNat 64 k := by
  have hlt := v.isLt
  have hadd : (v + BitVec.ofNat 64 k).toNat = v.toNat + k := by
    rw [BitVec.toNat_add,BitVec.toNat_ofNat]
    omega
  refine ⟨Paging.samePage_iff_mod.mpr (by rw [hadd]; omega),BitVec.eq_of_toNat_eq ?_⟩
  rw [Paging.toNat_offset,hadd,BitVec.toNat_ofNat]
  omega

/-- An address of an entry's space: the page `j` from `virtAddr` on. -/
def pageVirt (j : ℕ) : U64 := virtAddr + BitVec.ofNat 64 j * pageSize

theorem toNat_page {a : U64} {j : ℕ} (hj : j < 2 ^ 16) (ha : a.toNat + 2 ^ 28 ≤ 2 ^ 64) :
    (a + BitVec.ofNat 64 j * pageSize).toNat = a.toNat + 4096 * j := by
  rw [BitVec.toNat_add,BitVec.toNat_mul,BitVec.toNat_ofNat,show pageSize.toNat = 4096 from rfl]
  omega

theorem toNat_pageVirt {j : ℕ} (hj : j < 2 ^ 16) :
    (pageVirt j).toNat = 0xFFFF900000000000 + 4096 * j :=
  toNat_page hj (by decide)

theorem eq_of_samePage {i j : ℕ} (hi : i < 2 ^ 16) (hj : j < 2 ^ 16)
    (h : SamePage (pageVirt i) (pageVirt j)) : i = j := by
  rw [Paging.samePage_iff_mod,toNat_pageVirt hi,toNat_pageVirt hj] at h
  omega

end Pages

/-! The mapping of a space. -/

section Space
variable {stock : Stock fa} {s s' : Paging A} {entry : MCFGEntry}

theorem mapSpace_spec (hs : Spare stock s) (he : Aligned entry)
    (h : mapSpace fa entry s = .done () s') :
    Spare stock s' ∧ ∀ j < 2 ^ 16, PageAt s' (pageVirt j)
      (entry.addr + BitVec.ofNat 64 j * pageSize) := by
  obtain ⟨hal,hle⟩ := he
  refine Outcome.forTo_of_done (P := fun n s => Spare stock s ∧ ∀ j < n, PageAt s (pageVirt j)
    (entry.addr + BitVec.ofNat 64 j * pageSize)) (n := spacePages)
    ⟨hs,fun j hj => absurd hj (Nat.not_lt_zero j)⟩ (fun i s t hi hP hdone => ?_) h
  have hi : i.toNat < 2 ^ 16 := hi
  have hphys : (entry.addr + i * pageSize).toNat = entry.addr.toNat + 4096 * i.toNat := by
    have hpage := toNat_page (a := entry.addr) hi (by omega)
    rwa [BitVec.ofNat_toNat,BitVec.setWidth_eq] at hpage
  obtain ⟨hspare,htrans⟩ := hP.1.pageMap (by omega) hdone
  refine ⟨hspare,fun j hj w hw => ?_⟩
  rw [htrans]
  rcases Nat.lt_succ_iff_lt_or_eq.mp hj with hlt | rfl
  · rw [if_neg]
    · exact hP.2 j hlt w hw
    · intro hsame
      refine absurd (eq_of_samePage (by omega) hi (hw.symm.trans ?_)) (by omega)
      rwa [pageVirt,BitVec.ofNat_toNat,BitVec.setWidth_eq]
  · rw [pageVirt,BitVec.ofNat_toNat,BitVec.setWidth_eq] at hw
    rw [if_pos hw,Paging.and_not_mask_eq (by omega),BitVec.ofNat_toNat,BitVec.setWidth_eq]

/-- The loop that unmaps the space moves no table. -/
theorem unmapSpace_spec (ht : IsTree s) (h : unmapSpace fa s = .done () s') :
    IsTree s' ∧ ∀ q : List TableIndex, q.length ≤ 3 →
      follow s'.child s'.pml4Addr q = follow s.child s.pml4Addr q := by
  refine Outcome.forTo_of_done (P := fun _ t => IsTree t ∧ ∀ q : List TableIndex, q.length ≤ 3 →
    follow t.child t.pml4Addr q = follow s.child s.pml4Addr q) (n := spacePages)
    ⟨ht,fun _ _ => rfl⟩ (fun i t u _ hP hdone => ?_) h
  obtain ⟨htree,hfollow⟩ := Paging.pageUnmap_follow hP.1 hdone
  exact ⟨htree,fun q hq => (hfollow q hq).trans (hP.2 q hq)⟩

/-- Mapping a page whose page table exists. -/
theorem pageMap_pageAt (fa : FrameAllocator A) {virt pt : U64} (phys : PhysicalAddress) (ht : IsTree s)
    (hp : follow s.child s.pml4Addr (pathOf virt) = some pt) :
    ∃ s', Paging.pageMap fa virt phys true s = .done () s' ∧ IsTree s' ∧
      (∀ q : List TableIndex, q.length ≤ 3 →
        follow s'.child s'.pml4Addr q = follow s.child s.pml4Addr q) ∧
      PageAt s' virt (phys &&& addrMask) ∧
      ∀ v f, ¬ SamePage v virt → PageAt s v f → PageAt s' v f := by
  refine ⟨_,Paging.pageMap_of_follow phys hp,Paging.isTree_setLeaf ht hp _,
    fun q hq => Paging.follow_setLeaf ht hp _ hq,fun w hw => ?_,fun v f hv hpage w hw => ?_⟩
  · rw [Paging.pageVirtToPhysAddr_setLeaf ht hp,if_pos hw,Paging.leafEntry_present,if_pos rfl,
      Paging.leafEntry_addr]
    rfl
  · rw [Paging.pageVirtToPhysAddr_setLeaf ht hp,if_neg fun h => hv (hw.symm.trans h)]
    exact hpage w hw

/-- A page that lies on a frame has a page table. -/
theorem PageAt.follow {v f : U64} (h : PageAt s v f) (hf : f.toNat % 4096 = 0) :
    ∃ pt, follow s.child s.pml4Addr (pathOf v) = some pt := by
  have hmapped : s.pageVirtToPhysAddr (v ||| 0xFFF#64) ≠ 0#64 := h.mapped hf fun _ _ _ => rfl
  rw [Paging.pageVirtToPhysAddr_eq,(Paging.samePage_iff.mp (samePage_or v)).1] at hmapped
  cases hp : Lios.follow s.child s.pml4Addr (pathOf v) with
  | some pt => exact ⟨pt,rfl⟩
  | none =>
    rw [hp] at hmapped
    exact absurd rfl hmapped

end Space

/-! The search in a space. -/

section Search
variable {m : Machine A} {v f : U64} {w k : ℕ} {entry : MCFGEntry}

theorem loadField_page (hp : PageAt m.paging v f) (hv : v.toNat % 4096 = 0)
    (hf : f.toNat % 4096 = 0) (hk : k < 4096) :
    loadField w (v + BitVec.ofNat 64 k) m = .done (fieldAt m.phys w f k) m := by
  obtain ⟨hsame,hoff⟩ := samePage_add hv hk
  rw [loadField,if_pos (hp.mapped hf hsame),hp _ hsame,hoff]
  rfl

theorem storeU16_page (value : U16) (hp : PageAt m.paging v f) (hv : v.toNat % 4096 = 0)
    (hf : f.toNat % 4096 = 0) (hk : k < 4096) :
    ∃ phys, storeU16 (v + BitVec.ofNat 64 k) value m = .done () { m with phys := phys } :=
  ⟨_,if_pos (hp.mapped hf (samePage_add hv hk).1)⟩

/-- The result of a look at the function `f`. -/
def checked (phys : PhysicalAddress → U8) (f : PhysicalAddress) : Option U64 :=
  if isNvme phys f then some (baseAddr phys f) else none

theorem checkFunction_eq (hp : PageAt m.paging v f) (hv : v.toNat % 4096 = 0)
    (hf : f.toNat % 4096 = 0) :
    ∃ m', checkFunction v m = .done (checked m.phys f) m' ∧ (checked m.phys f = none → m' = m) ∧
      m'.paging = m.paging := by
  have hload (phys : PhysicalAddress → U8) (w k : ℕ) (hk : k < 4096) :
      loadField w (v + BitVec.ofNat 64 k) { m with phys := phys } =
        .done (fieldAt phys w f k) { m with phys := phys } :=
    loadField_page (m := { m with phys := phys }) hp hv hf hk
  have hvendor := hload m.phys 16 0 (by omega)
  rw [BitVec.add_zero] at hvendor
  simp only [checkFunction,hvendor,Outcome.bind_done,hload m.phys 8 11 (by omega),
    hload m.phys 8 10 (by omega),hload m.phys 8 9 (by omega)]
  by_cases hnone : fieldAt m.phys 16 f 0 = 0xFFFF#16
  · have hnot : checked m.phys f = none := if_neg (by simp [isNvme,hnone])
    rw [if_pos hnone,hnot]
    exact ⟨m,rfl,fun _ => rfl,rfl⟩
  rw [if_neg hnone]
  by_cases hclass : fieldAt m.phys 8 f 11 = 1#8 ∧ fieldAt m.phys 8 f 10 = 8#8 ∧
      fieldAt m.phys 8 f 9 = 2#8
  · have hfound : checked m.phys f = some (baseAddr m.phys f) :=
      if_pos (decide_eq_true ⟨hnone,hclass⟩)
    obtain ⟨phys₁,hstore₁⟩ := storeU16_page (k := 4) (fieldAt m.phys 16 f 4 ||| 6#16) hp hv hf
      (by omega)
    obtain ⟨phys₂,hstore₂⟩ := storeU16_page (m := { m with phys := phys₁ }) (k := 4)
      (fieldAt phys₁ 16 f 4 &&& ~~~(1#16 <<< 10)) hp hv hf (by omega)
    rw [if_pos hclass,hload m.phys 32 16 (by omega),Outcome.bind_done,hload m.phys 32 20 (by omega),
      Outcome.bind_done,hload m.phys 16 4 (by omega),Outcome.bind_done,hstore₁,Outcome.bind_done,
      hload phys₁ 16 4 (by omega),Outcome.bind_done,hstore₂,Outcome.bind_done,hfound]
    exact ⟨_,rfl,nofun,rfl⟩
  · have hnot : checked m.phys f = none := if_neg (by simpa [isNvme,hnone] using hclass)
    rw [if_neg hclass,hnot]
    exact ⟨m,rfl,fun _ => rfl,rfl⟩

theorem pciGetAddr_eq {bus device function : ℕ} (hb : bus < 256) (hd : device < 32)
    (hf : function < 8) :
    pciGetAddr virtAddr (.ofNat 8 bus) (.ofNat 8 device) (.ofNat 8 function) 0#8 =
      pageVirt (256 * bus + 8 * device + function) := by
  have hshift (x n : ℕ) (hx : x < 256) (hn : n ≤ 20) :
      ((BitVec.ofNat 8 x).setWidth 32 <<< n).toNat = x <<< n := by
    have hlt : x <<< n < 2 ^ 28 := by
      rw [Nat.shiftLeft_eq]
      calc x * 2 ^ n < 2 ^ 8 * 2 ^ 20 :=
            Nat.mul_lt_mul_of_lt_of_le hx (Nat.pow_le_pow_right (by decide) hn) (by positivity)
        _ = 2 ^ 28 := by decide
    rw [BitVec.toNat_shiftLeft,BitVec.toNat_setWidth,BitVec.toNat_ofNat,
      Nat.mod_eq_of_lt (show x % 2 ^ 8 < 2 ^ 32 by omega),Nat.mod_eq_of_lt (show x < 2 ^ 8 by omega),
      Nat.mod_eq_of_lt (by omega)]
  -- the three numbers do not overlap, and their sum is not negative as an `int`
  have hword : ((BitVec.ofNat 8 bus).setWidth 32 <<< 20 ||| (BitVec.ofNat 8 device).setWidth 32 <<< 15 |||
      (BitVec.ofNat 8 function).setWidth 32 <<< 12).toNat =
        4096 * (256 * bus + 8 * device + function) := by
    have hpair : bus <<< 20 ||| device <<< 15 = (32 * bus + device) <<< 15 := by
      rw [← Nat.shiftLeft_add_eq_or_of_lt (by rw [Nat.shiftLeft_eq]; omega)]
      simp only [Nat.shiftLeft_eq]
      omega
    rw [BitVec.toNat_or,BitVec.toNat_or,hshift bus 20 hb (by omega),hshift device 15 (by omega) (by omega),
      hshift function 12 (by omega) (by omega),hpair,
      ← Nat.shiftLeft_add_eq_or_of_lt (by rw [Nat.shiftLeft_eq]; omega)]
    simp only [Nat.shiftLeft_eq]
    omega
  have hmsb := BitVec.msb_eq_false_iff_two_mul_lt.mpr
    (show 2 * ((BitVec.ofNat 8 bus).setWidth 32 <<< 20 ||| (BitVec.ofNat 8 device).setWidth 32 <<< 15 |||
      (BitVec.ofNat 8 function).setWidth 32 <<< 12).toNat < 2 ^ 32 by rw [hword]; omega)
  apply BitVec.eq_of_toNat_eq
  rw [pciGetAddr,BitVec.signExtend_eq_setWidth_of_msb_false hmsb,BitVec.toNat_add,BitVec.toNat_add,
    BitVec.toNat_setWidth,hword,toNat_pageVirt (by omega),show virtAddr.toNat = 0xFFFF900000000000 from rfl,
    show ((0#8).setWidth 64 : U64).toNat = 0 from rfl]
  omega

/-- The controllers of an entry, as the loops go through them. -/
theorem map_find_functions (phys : PhysicalAddress → U8) (entry : MCFGEntry) :
    ((functions entry).find? (isNvme phys)).map (baseAddr phys) =
      (List.range' entry.startPci.toNat (entry.endPci.toNat + 1 - entry.startPci.toNat)).findSome?
        fun bus => (List.range 32).findSome? fun device => (List.range 8).findSome? fun function =>
          checked phys (entry.addr + BitVec.ofNat 64 (256 * bus + 8 * device + function) * pageSize) := by
  have hguard (f : PhysicalAddress) : (Option.guard (isNvme phys) f).map (baseAddr phys) =
      checked phys f := by
    rw [checked,Option.guard]
    split
    · rfl
    · rfl
  simp only [functions,List.find?_flatMap,List.map_findSome?,Function.comp_def]
  simp only [List.find?_eq_findSome?_guard,List.findSome?_map,List.map_findSome?,Function.comp_def,
    hguard]

/-- The search returns the base address of the first controller of the entry. -/
theorem scanSpace_eq (he : Aligned entry)
    (hp : ∀ j < 2 ^ 16, PageAt m.paging (pageVirt j) (entry.addr + BitVec.ofNat 64 j * pageSize)) :
    ∃ m', scanSpace entry m =
        .done (((functions entry).find? (isNvme m.phys)).map (baseAddr m.phys)) m' ∧
      m'.paging = m.paging := by
  rw [map_find_functions]
  obtain ⟨hal,hle⟩ := he
  have hend := entry.endPci.isLt
  have hcheck : ∀ bus ∈ List.range' entry.startPci.toNat
      (entry.endPci.toNat + 1 - entry.startPci.toNat), ∀ device ∈ List.range 32,
      ∀ function ∈ List.range 8, ∃ m', checkFunction
        (pciGetAddr virtAddr (.ofNat 8 bus) (.ofNat 8 device) (.ofNat 8 function) 0#8) m =
          .done (checked m.phys (entry.addr +
            BitVec.ofNat 64 (256 * bus + 8 * device + function) * pageSize)) m' ∧
        (checked m.phys (entry.addr +
          BitVec.ofNat 64 (256 * bus + 8 * device + function) * pageSize) = none → m' = m) ∧
        m'.paging = m.paging := by
    intro bus hbus device hdevice function hfunction
    rw [List.mem_range'_1] at hbus
    rw [List.mem_range] at hdevice hfunction
    have hj : 256 * bus + 8 * device + function < 2 ^ 16 := by omega
    rw [pciGetAddr_eq (by omega) hdevice hfunction]
    exact checkFunction_eq (hp _ hj) (by rw [toNat_pageVirt hj]; omega)
      (by rw [toNat_page hj (by omega)]; omega)
  obtain ⟨m',hrun,-,hpaging⟩ := Outcome.firstSome_eq (R := fun m' : Machine A => m'.paging = m.paging)
    rfl fun bus hbus => Outcome.firstSome_eq (R := fun m' : Machine A => m'.paging = m.paging) rfl
      fun device hdevice => Outcome.firstSome_eq (R := fun m' : Machine A => m'.paging = m.paging)
        rfl (hcheck bus hbus device hdevice)
  exact ⟨m',hrun,hpaging⟩

end Search

/-! The device. -/

section Device
variable {stock : Stock fa} {s : Paging A} {m m' : Machine A} {entry : MCFGEntry} {mcfg : MCFG}
  {base f g r : U64}

theorem toNat_and_addrMask (x : U64) :
    (x &&& addrMask).toNat % 4096 = 0 ∧ (x &&& addrMask).toNat < 2 ^ 52 := by
  refine ⟨?_,?_⟩
  · rw [← Paging.toNat_offset,BitVec.and_assoc,show addrMask &&& 0xFFF#64 = 0#64 by decide,
      BitVec.and_zero]
    rfl
  · exact lt_of_le_of_lt (Nat.and_le_right) (show addrMask.toNat < 2 ^ 52 by decide)

theorem and_addrMask_eq_iff {x : U64} :
    x &&& addrMask = x ↔ x.toNat % 4096 = 0 ∧ x.toNat < 2 ^ 52 := by
  constructor
  · intro h
    rw [← h]
    exact toNat_and_addrMask x
  · rintro ⟨hal,hlt⟩
    rw [Paging.addrMask_eq hlt,Paging.and_not_mask_eq hal]

/-- Two pages that lie one behind the other on the frames of a device. -/
theorem deviceAt_iff (base : U64) (h₀ : PageAt s virtAddr f) (h₁ : PageAt s (virtAddr + 0x1000#64) g)
    (hf : f.toNat % 4096 = 0) (hg : g.toNat % 4096 = 0) :
    DeviceAt s virtAddr base ↔ f = base ∧ g = base + 0x1000#64 := by
  have hfirst {k : ℕ} (hk : k < 4096) : Mapped s (virtAddr + BitVec.ofNat 64 k) ∧
      s.pageVirtToPhysAddr (virtAddr + BitVec.ofNat 64 k) = f + BitVec.ofNat 64 k := by
    obtain ⟨hsame,hoff⟩ := samePage_add (v := virtAddr) (by decide) hk
    exact ⟨h₀.mapped hf hsame,by rw [h₀ _ hsame,hoff]⟩
  have hsecond {k : ℕ} (hk : k < 4096) : Mapped s (virtAddr + 0x1000#64 + BitVec.ofNat 64 k) ∧
      s.pageVirtToPhysAddr (virtAddr + 0x1000#64 + BitVec.ofNat 64 k) = g + BitVec.ofNat 64 k := by
    obtain ⟨hsame,hoff⟩ := samePage_add (v := virtAddr + 0x1000#64) (by decide) hk
    exact ⟨h₁.mapped hg hsame,by rw [h₁ _ hsame,hoff]⟩
  constructor
  · intro h
    have hzero := (h 0 (by decide)).2
    have hpage := (h 0x1000 (by decide)).2
    rw [(hfirst (by decide)).2,BitVec.add_zero,BitVec.add_zero] at hzero
    have hnext := (hsecond (k := 0) (by decide)).2
    rw [BitVec.add_zero,BitVec.add_zero] at hnext
    exact ⟨hzero,hnext.symm.trans hpage⟩
  · rintro ⟨rfl,rfl⟩ k hk
    rcases Nat.lt_or_ge k 4096 with hlt | hge
    · exact hfirst hlt
    · have hsplit (x : U64) : x + BitVec.ofNat 64 k = x + 0x1000#64 + BitVec.ofNat 64 (k - 4096) := by
        rw [BitVec.add_assoc,← BitVec.ofNat_add,Nat.add_sub_cancel' hge]
      rw [hsplit,hsplit]
      exact hsecond (by omega)

/-- The registers at a base address that a page table entry can hold. -/
def Mappable (base : U64) : Prop := base.toNat % 4096 = 0 ∧ base.toNat + 0x2000 ≤ 2 ^ 52

theorem mappable_iff : base &&& addrMask = base ∧ (base + 0x1000#64) &&& addrMask = base + 0x1000#64 ↔
    Mappable base := by
  have hlt := base.isLt
  rw [and_addrMask_eq_iff,and_addrMask_eq_iff,BitVec.toNat_add,show (0x1000#64).toNat = 4096 from rfl,
    Mappable]
  omega

/-- When its two long loops return, a round of the search returns the page at `virtAddr`, behind
which is the base address that it found. -/
theorem findInEntry_eq {s₁ s₂ : Paging A} (hs : Spare stock m.paging) (he : Aligned entry)
    (hmap : mapSpace fa entry m.paging = .done () s₁) (hunmap : unmapSpace fa s₁ = .done () s₂)
    (hbase : ((((functions entry).find? (isNvme m.phys)).map (baseAddr m.phys)).getD 0#64) = base) :
    ∃ m', findInEntry fa entry m = .done virtAddr m' ∧
      PageAt m'.paging virtAddr (base &&& addrMask) ∧
      PageAt m'.paging (virtAddr + 0x1000#64) ((base + 0x1000#64) &&& addrMask) := by
  obtain ⟨hspare,hpages⟩ := mapSpace_spec hs he hmap
  obtain ⟨⟨p₂,phys₂⟩,hscan,hpaging⟩ := scanSpace_eq (m := { m with paging := s₁ }) he hpages
  obtain rfl : p₂ = s₁ := hpaging
  have hzero := hpages 0 (by decide)
  obtain ⟨hstart,hend⟩ := he
  obtain ⟨pt,hpt⟩ := hzero.follow (by
    rw [toNat_page (by decide) (by omega)]
    omega)
  obtain ⟨htree,hfollow⟩ := unmapSpace_spec hspare.tree hunmap
  have hpath : follow s₂.child s₂.pml4Addr (pathOf virtAddr) = some pt :=
    (hfollow _ (by simp [pathOf])).trans hpt
  obtain ⟨s₃,h₃,htree₃,hfollow₃,hpage₃,-⟩ := pageMap_pageAt fa base htree hpath
  have hpath₃ : follow s₃.child s₃.pml4Addr (pathOf (virtAddr + 0x1000#64)) = some pt :=
    (hfollow₃ _ (by simp [pathOf])).trans hpath
  obtain ⟨s₄,h₄,-,-,hpage₄,hkeep⟩ := pageMap_pageAt fa (base + 0x1000#64) htree₃ hpath₃
  refine ⟨⟨s₄,phys₂⟩,?_,hkeep _ _ (by decide) hpage₃,hpage₄⟩
  subst hbase
  refine Outcome.bind_eq_done.mpr ⟨(),_,Lens.lift_eq_done.mpr ⟨p₂,hmap,rfl⟩,?_⟩
  refine Outcome.bind_eq_done.mpr ⟨_,_,hscan,?_⟩
  refine Outcome.bind_eq_done.mpr ⟨(),_,Lens.lift_eq_done.mpr ⟨s₂,hunmap,rfl⟩,?_⟩
  refine Outcome.bind_eq_done.mpr ⟨(),_,Lens.lift_eq_done.mpr ⟨s₃,h₃,rfl⟩,?_⟩
  exact Outcome.bind_eq_done.mpr ⟨(),_,Lens.lift_eq_done.mpr ⟨s₄,h₄,rfl⟩,rfl⟩

/-- The two long loops of a round that returns have returned. -/
theorem findInEntry_loops (h : findInEntry fa entry m = .done r m') (hs : Spare stock m.paging)
    (he : Aligned entry) :
    ∃ s₁ s₂, mapSpace fa entry m.paging = .done () s₁ ∧ unmapSpace fa s₁ = .done () s₂ := by
  obtain ⟨_,_,h₁,hrest⟩ := Outcome.bind_eq_done.mp h
  obtain ⟨s₁,hmap,rfl⟩ := Lens.lift_eq_done.mp h₁
  obtain ⟨found,m₂,h₂,hrest⟩ := Outcome.bind_eq_done.mp hrest
  obtain ⟨_,_,h₃,-⟩ := Outcome.bind_eq_done.mp hrest
  obtain ⟨s₂,hunmap,-⟩ := Lens.lift_eq_done.mp h₃
  obtain ⟨m₃,hscan,hpaging⟩ := scanSpace_eq (m := { m with paging := s₁ }) he
    (mapSpace_spec hs he hmap).2
  obtain ⟨-,rfl⟩ := Outcome.done.inj (h₂.symm.trans hscan)
  obtain rfl : m₂.paging = s₁ := hpaging
  exact ⟨m₂.paging,s₂,hmap,hunmap⟩

theorem rounds_eq_entryCount (hlen : 44 ≤ mcfg.length.toNat) :
    ((mcfg.length.setWidth 64 - 44#64) / 16#64).toNat = entryCount mcfg := by
  have hlt := mcfg.length.isLt
  rw [BitVec.toNat_udiv,BitVec.toNat_sub,BitVec.toNat_setWidth,show (44#64).toNat = 44 from rfl,
    show (16#64).toNat = 16 from rfl,entryCount]
  congr 1
  omega

/-- The first controller is the one of the first entry, if that has one. -/
theorem firstNvme_of_entry {phys : PhysicalAddress → U8} (hcount : 0 < entryCount mcfg)
    (h : (functions (mcfg.entries 0)).find? (isNvme phys) = some f) :
    firstNvme phys mcfg = some f := by
  obtain ⟨n,hn⟩ := Nat.exists_eq_succ_of_ne_zero hcount.ne'
  rw [firstNvme,hn,Nat.succ_eq_add_one,List.range_succ_eq_map,List.flatMap_cons,List.find?_append,h]
  rfl

/-- A table without entries has no controller. -/
theorem exact_of_empty (phys : PhysicalAddress → U8) (hcount : entryCount mcfg = 0) :
    Exact phys mcfg 0#64 s := by
  have hnone : firstNvme phys mcfg = none := by
    rw [firstNvme,hcount]
    rfl
  refine ⟨⟨fun _ => hnone,fun _ => rfl⟩,fun f hf => ?_⟩
  rw [hnone] at hf
  cases hf

/-- The page at `virtAddr` is never the mark of a search without a result. -/
theorem exact_virtAddr_iff {phys : PhysicalAddress → U8} : Exact phys mcfg virtAddr s ↔
    ∃ f, firstNvme phys mcfg = some f ∧ DeviceAt s virtAddr (baseAddr phys f) := by
  have hne : virtAddr ≠ 0#64 := by decide
  constructor
  · rintro ⟨hzero,hdevice⟩
    obtain ⟨f,hf⟩ := Option.ne_none_iff_exists'.mp (mt hzero.mpr hne)
    exact ⟨f,hf,hdevice f hf⟩
  · rintro ⟨f,hf,hdevice⟩
    refine ⟨⟨fun h => absurd h hne,fun h => ?_⟩,fun f' hf' => ?_⟩
    · rw [hf] at h
      cases h
    · obtain rfl := Option.some.inj (hf.symm.trans hf')
      exact hdevice

/-- The pages that the round of the first entry leaves are those of the first controller if this
is in the first entry, or if its address is the one of a round without a result. -/
theorem deviceAt_first_iff {phys : PhysicalAddress → U8} (hcount : 0 < entryCount mcfg)
    (hf : firstNvme phys mcfg = some f)
    (hbase : (((functions (mcfg.entries 0)).find? (isNvme phys)).map (baseAddr phys)).getD 0#64 = base)
    (h₀ : PageAt s virtAddr (base &&& addrMask))
    (h₁ : PageAt s (virtAddr + 0x1000#64) ((base + 0x1000#64) &&& addrMask)) :
    DeviceAt s virtAddr (baseAddr phys f) ↔ Mappable (baseAddr phys f) ∧
      ((∃ g ∈ functions (mcfg.entries 0), isNvme phys g = true) ∨ baseAddr phys f = 0#64) := by
  rw [deviceAt_iff _ h₀ h₁ (toNat_and_addrMask _).1 (toNat_and_addrMask _).1,← hbase]
  cases hentry : (functions (mcfg.entries 0)).find? (isNvme phys) with
  | some g =>
    obtain rfl := Option.some.inj (hf.symm.trans (firstNvme_of_entry hcount hentry))
    have hfound : ∃ g ∈ functions (mcfg.entries 0), isNvme phys g = true :=
      ⟨f,List.mem_of_find?_eq_some hentry,List.find?_some hentry⟩
    rw [Option.map_some,Option.getD_some,mappable_iff,and_iff_left (.inl hfound)]
  | none =>
    rw [Option.map_none,Option.getD_none]
    constructor
    · rintro ⟨hzero,-⟩
      have hbase : 0#64 = baseAddr phys f := hzero
      rw [← hbase]
      exact ⟨⟨by decide,by decide⟩,.inr rfl⟩
    · rintro ⟨-,⟨g,hg,hnvme⟩ | hzero⟩
      · exact absurd hnvme (List.find?_eq_none.mp hentry g hg)
      · rw [hzero]
        exact ⟨by decide,by decide⟩

/-- A search that returns is exact if and only if the table is empty, or the first controller can be
mapped and is in the first entry or at the address 0. -/
theorem nvmeFind_exact_iff (hs : Spare stock m.paging) (hlen : 44 ≤ mcfg.length.toNat)
    (he : 0 < entryCount mcfg → Aligned (mcfg.entries 0)) (hdone : nvmeFind fa mcfg m = .done r m') :
    Exact m.phys mcfg r m'.paging ↔ entryCount mcfg = 0 ∨
      ∃ f, firstNvme m.phys mcfg = some f ∧ Mappable (baseAddr m.phys f) ∧
        ((∃ g ∈ functions (mcfg.entries 0), isNvme m.phys g = true) ∨ baseAddr m.phys f = 0#64) := by
  rw [nvmeFind,rounds_eq_entryCount hlen] at hdone
  rcases Nat.eq_zero_or_pos (entryCount mcfg) with hcount | hcount
  · rw [hcount] at hdone
    obtain ⟨rfl,rfl⟩ := Outcome.done.inj hdone
    exact ⟨fun _ => .inl hcount,fun _ => exact_of_empty m.phys hcount⟩
  · obtain ⟨n,hn⟩ := Nat.exists_eq_succ_of_ne_zero hcount.ne'
    rw [hn] at hdone
    obtain ⟨s₁,s₂,hmap,hunmap⟩ := findInEntry_loops hdone hs (he hcount)
    obtain ⟨m₁,hrun,h₀,h₁⟩ := findInEntry_eq hs (he hcount) hmap hunmap rfl
    obtain ⟨rfl,rfl⟩ := Outcome.done.inj (hdone.symm.trans hrun)
    rw [exact_virtAddr_iff,or_iff_right hcount.ne']
    exact exists_congr fun f => and_congr_right fun hf => deviceAt_first_iff hcount hf rfl h₀ h₁

end Device

/-! A small machine. -/

namespace Sample
open Elf.Sample (frames Frames emptyTables spare_emptyTables frameCount)

theorem mapSpace_returns (entry : MCFGEntry) :
    ∃ s, mapSpace frames entry emptyTables = .done () s := by
  have hround (i : U64) (s : Paging Frames) (hi : i < spacePages) (hlow : s.frames.low ≤ 3 * i.toNat) :
      ∃ t, Paging.pageMap frames (virtAddr + i * pageSize) (entry.addr + i * pageSize) true s =
        .done () t ∧ t.frames.low ≤ 3 * (i.toNat + 1) := by
    have hi : i.toNat < 2 ^ 16 := hi
    have hroom : s.frames.low + 3 ≤ frameCount := by
      unfold frameCount
      omega
    obtain ⟨t,ht,hlow',-⟩ := Elf.Sample.pageMap_returns (virtAddr + i * pageSize)
      (entry.addr + i * pageSize) true hroom
    exact ⟨t,ht,by omega⟩
  obtain ⟨s,hs,-⟩ := Outcome.forTo_rule (P := fun n (s : Paging Frames) => s.frames.low ≤ 3 * n)
    (show emptyTables.frames.low ≤ 3 * 0 from le_rfl) hround
  exact ⟨s,hs⟩

theorem releaseTables_eq (pdptUsed pdtUsed ptUsed : Bool) (pdptAddr pdtAddr ptAddr : U64)
    (s : Paging Frames) :
    Paging.releaseTables frames pdptUsed pdtUsed ptUsed pdptAddr pdtAddr ptAddr s = .done () s := by
  cases pdptUsed <;> cases pdtUsed <;> cases ptUsed <;> rfl

theorem pageUnmap_returns (virt : U64) (s : Paging Frames) :
    ∃ t, Paging.pageUnmap frames virt s = .done () t := by
  simp only [Paging.pageUnmap,releaseTables_eq,Outcome.bind_done]
  split
  · exact ⟨s,rfl⟩
  split
  · exact ⟨s,rfl⟩
  split
  · exact ⟨s,rfl⟩
  split
  · exact ⟨s,rfl⟩
  · exact ⟨_,rfl⟩

theorem unmapSpace_returns (s : Paging Frames) : ∃ t, unmapSpace frames s = .done () t := by
  have hround (i : U64) (s : Paging Frames) (_ : i < spacePages) (_ : True) :
      ∃ t, Paging.pageUnmap frames (virtAddr + i * pageSize) s = .done () t ∧ True := by
    obtain ⟨t,ht⟩ := pageUnmap_returns (virtAddr + i * pageSize) s
    exact ⟨t,ht,trivial⟩
  obtain ⟨t,ht,-⟩ := Outcome.forTo_rule (P := fun _ (_ : Paging Frames) => True) trivial hround
  exact ⟨t,ht⟩

/-- A table of one entry, for the buses up to `endPci`. -/
def oneEntry (endPci : U8) : MCFG := ⟨60#32,fun _ => ⟨0xE0000000#64,0#8,endPci⟩⟩

theorem aligned_oneEntry (endPci : U8) : Aligned ((oneEntry endPci).entries 0) :=
  ⟨show (0xE0000000#64).toNat % 4096 = 0 by decide,
    show (0xE0000000#64).toNat + 2 ^ 28 ≤ 2 ^ 52 by decide⟩

/-- The search returns whatever the configuration space holds. -/
theorem nvmeFind_returns (endPci : U8) (phys : PhysicalAddress → U8) :
    ∃ m', nvmeFind frames (oneEntry endPci) ⟨emptyTables,phys⟩ = .done virtAddr m' := by
  obtain ⟨s₁,hmap⟩ := mapSpace_returns ((oneEntry endPci).entries 0)
  obtain ⟨s₂,hunmap⟩ := unmapSpace_returns s₁
  obtain ⟨m',hrun,-⟩ := findInEntry_eq (m := ⟨emptyTables,phys⟩) spare_emptyTables
    (aligned_oneEntry endPci) hmap hunmap rfl
  have hcount : entryCount (oneEntry endPci) = 1 := show ((60#32).toNat - 44) / 16 = 1 by decide
  rw [nvmeFind,rounds_eq_entryCount (show 44 ≤ (60#32).toNat by decide),hcount]
  exact ⟨m',hrun⟩

/-- A controller at bus 0, device 1, function 0 with its registers at 0xFEBF4000. -/
def oneDevice : PhysicalAddress → U8 :=
  store (fun _ => 0xFF#8) 0xE0008000#64
    [0x36#8,0x1B#8,0x10#8,0x00#8,0x07#8,0x04#8,0x10#8,0x00#8,0x02#8,0x02#8,0x08#8,0x01#8,
      0x00#8,0x00#8,0x00#8,0x00#8,0x04#8,0x40#8,0xBF#8,0xFE#8,0x00#8,0x00#8,0x00#8,0x00#8]

theorem oneDevice_found : ∃ m',
    nvmeFind frames (oneEntry 0#8) ⟨emptyTables,oneDevice⟩ = .done virtAddr m' ∧
      DeviceAt m'.paging virtAddr 0xFEBF4000#64 := by
  have hfirst : firstNvme oneDevice (oneEntry 0#8) = some 0xE0008000#64 := by decide +kernel
  have hbase : baseAddr oneDevice 0xE0008000#64 = 0xFEBF4000#64 := by decide +kernel
  have hentry : ∃ g ∈ functions ((oneEntry 0#8).entries 0), isNvme oneDevice g = true :=
    ⟨0xE0008000#64,by decide +kernel,by decide +kernel⟩
  obtain ⟨m',hrun⟩ := nvmeFind_returns 0#8 oneDevice
  have hexact := (nvmeFind_exact_iff (m := ⟨emptyTables,oneDevice⟩) spare_emptyTables (by decide)
    (fun _ => aligned_oneEntry 0#8) hrun).mpr (.inr ⟨_,hfirst,by rw [hbase]; exact
      ⟨by decide,by decide⟩,.inl hentry⟩)
  exact ⟨m',hrun,hbase ▸ hexact.2 _ hfirst⟩

/-- A configuration space without a function. -/
def noDevice : PhysicalAddress → U8 := fun _ => 0xFF#8

theorem isNvme_noDevice (f : PhysicalAddress) : isNvme noDevice f = false :=
  show isNvme noDevice 0#64 = false by decide

/-- The search returns a device although there is none. -/
theorem noDevice_not_exact : ∃ m',
    nvmeFind frames (oneEntry 255#8) ⟨emptyTables,noDevice⟩ = .done virtAddr m' ∧
      virtAddr ≠ 0#64 ∧ firstNvme noDevice (oneEntry 255#8) = none ∧
      ¬ Exact noDevice (oneEntry 255#8) virtAddr m'.paging := by
  have hnone : firstNvme noDevice (oneEntry 255#8) = none := by
    rw [firstNvme,List.find?_eq_none]
    intro f _
    rw [isNvme_noDevice]
    decide
  have hne : virtAddr ≠ 0#64 := by decide
  obtain ⟨m',hrun⟩ := nvmeFind_returns 255#8 noDevice
  exact ⟨m',hrun,hne,hnone,fun h => hne (h.1.mpr hnone)⟩

end Sample

end Lios.Pci

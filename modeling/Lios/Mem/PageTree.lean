import Lios.Lib.PointerTree
import Lios.Mem.Page

/-! # The address space as a tree of tables

The present entries of the three upper levels form the child function of a
pointer tree. A translation is the leaf entry at the end of a path of three
indices, and an address is its path, its leaf index and its offset.
-/
namespace Lios.Paging
variable {A : Type}

/-! Bits of entries. -/

theorem entryQueryFlag_zero : entryQueryFlag 0#64 pml4ePdpePdePresent = false := by decide

theorem entryQueryFlag_linkFlags (kernel : Bool) (e : U64) :
    entryQueryFlag (linkFlags kernel e) pml4ePdpePdePresent = true := by
  have hbit : ∀ i < 64, ∀ b : Bool, ∀ k : Bool,
      ((if k then (b || (1#64).getLsbD i || (2#64).getLsbD i) && !(4#64).getLsbD i
        else b || (1#64).getLsbD i || (2#64).getLsbD i || (4#64).getLsbD i) && (1#64).getLsbD i) =
      (1#64).getLsbD i := by decide
  rw [entryQueryFlag,beq_iff_eq]
  apply BitVec.eq_of_getLsbD_eq
  intro i hi
  rw [← hbit i hi (e.getLsbD i) kernel]
  cases kernel <;> simp [linkFlags,entrySetFlag,entryUnsetFlag,hi]

theorem entryGetAddr_linkFlags (kernel : Bool) (e a : U64) :
    entryGetAddr (linkFlags kernel (entrySetAddr e a)) = a &&& addrMask := by
  have hbit : ∀ i < 64, ∀ b c : Bool, ∀ k : Bool,
      ((if k then ((b && !addrMask.getLsbD i || c && addrMask.getLsbD i) ||
          (1#64).getLsbD i || (2#64).getLsbD i) && !(4#64).getLsbD i
        else (b && !addrMask.getLsbD i || c && addrMask.getLsbD i) ||
          (1#64).getLsbD i || (2#64).getLsbD i || (4#64).getLsbD i) && addrMask.getLsbD i) =
      (c && addrMask.getLsbD i) := by decide
  apply BitVec.eq_of_getLsbD_eq
  intro i hi
  rw [BitVec.getLsbD_and,← hbit i hi (e.getLsbD i) (a.getLsbD i) kernel]
  cases kernel <;> simp [linkFlags,entryGetAddr,entrySetAddr,entrySetFlag,entryUnsetFlag,hi]

/-! Addresses as paths. -/

/-- The indices that lead from the root to the page table of an address. -/
def pathOf (virt : U64) : List TableIndex :=
  [virtAddrGetPml4e virt,virtAddrGetPdpe virt,virtAddrGetPde virt]

/-- The addresses agree on the bits 12 to 47. -/
def SamePage (v w : U64) : Prop := ∀ i, 12 ≤ i → i < 48 → v.getLsbD i = w.getLsbD i

theorem SamePage.symm {v w : U64} (h : SamePage v w) : SamePage w v :=
  fun i hi hi' => (h i hi hi').symm

theorem SamePage.trans {u v w : U64} (h : SamePage u v) (h' : SamePage v w) : SamePage u w :=
  fun i hi hi' => (h i hi hi').trans (h' i hi hi')

theorem tableIndex_eq_iff (v w : U64) (n : ℕ) :
    ((v >>> n) &&& 0x1FF#64).setWidth 9 = ((w >>> n) &&& 0x1FF#64).setWidth 9 ↔
      ∀ i, n ≤ i → i < n + 9 → v.getLsbD i = w.getLsbD i := by
  have hmask : ∀ j < 9, (0x1FF#64).getLsbD j = true := by decide
  constructor
  · intro h i hi hi'
    have hb := congrArg (fun x : BitVec 9 => x.getLsbD (i - n)) h
    have hj : i - n < 9 := by omega
    have hn : n + (i - n) = i := by omega
    simp only [BitVec.getLsbD_setWidth,BitVec.getLsbD_and,hmask _ hj,
      BitVec.getLsbD_ushiftRight,hn] at hb
    simpa [hj] using hb
  · intro h
    apply BitVec.eq_of_getLsbD_eq
    intro j hj
    simp [hj,h (n + j) (by omega) (by omega)]

theorem samePage_iff {v w : U64} :
    SamePage v w ↔ pathOf v = pathOf w ∧ virtAddrGetPte v = virtAddrGetPte w := by
  simp only [pathOf,virtAddrGetPml4e,virtAddrGetPdpe,virtAddrGetPde,virtAddrGetPte,
    List.cons.injEq,and_true,tableIndex_eq_iff]
  constructor
  · intro h
    exact ⟨⟨fun i _ _ => h i (by omega) (by omega),fun i _ _ => h i (by omega) (by omega),
      fun i _ _ => h i (by omega) (by omega)⟩,fun i _ _ => h i (by omega) (by omega)⟩
  · rintro ⟨⟨h₁,h₂,h₃⟩,h₄⟩ i hi hi'
    rcases lt_or_ge i 21 with h | h
    · exact h₄ i hi (by omega)
    rcases lt_or_ge i 30 with h' | h'
    · exact h₃ i h (by omega)
    rcases lt_or_ge i 39 with h'' | h''
    · exact h₂ i h' (by omega)
    · exact h₁ i h'' (by omega)

instance (v w : U64) : Decidable (SamePage v w) := decidable_of_iff _ samePage_iff.symm

/-! The tree. -/

/-- The table behind an entry, if the entry is present. -/
def child (s : Paging A) (t : U64) (i : TableIndex) : Option U64 :=
  if entryQueryFlag (s.table t i) pml4ePdpePdePresent then
    some (entryGetAddr (s.table t i) + kernelOffset)
  else none

/-- Each present entry of the three upper levels points to a table of its own. -/
def IsTree (s : Paging A) : Prop := TreeTo s.child s.pml4Addr 3

/-- The PML4 and the tables reached from it through present entries. -/
def InTree (s : Paging A) (t : U64) : Prop := IsTable s.child s.pml4Addr 3 t

/-- The address a page table gives to `virt`, zero if there is none. -/
def leafAddr (s : Paging A) (pt virt : U64) : PhysicalAddress :=
  let pte := s.table pt (virtAddrGetPte virt)
  if !pteQueryFlag pte ptePresent then 0#64 else
  pteGetAddr pte + (virt &&& (pageSize - 1#64))

/-- One level of the walk, as the code tests it. -/
theorem child_map_getD (s : Paging A) (t : U64) (i : TableIndex) (k : U64 → PhysicalAddress) :
    ((s.child t i).map k).getD 0#64 =
      if !entryQueryFlag (s.table t i) pml4ePdpePdePresent then 0#64
      else k (entryGetAddr (s.table t i) + kernelOffset) := by
  unfold child
  cases entryQueryFlag (s.table t i) pml4ePdpePdePresent <;> rfl

theorem bind_map_getD (o : Option U64) (f : U64 → Option U64) (k : U64 → PhysicalAddress) :
    ((o.bind f).map k).getD 0#64 = (o.map (fun t => ((f t).map k).getD 0#64)).getD 0#64 := by
  cases o <;> rfl

theorem pageVirtToPhysAddr_eq (s : Paging A) (virt : U64) :
    pageVirtToPhysAddr s virt =
      ((follow s.child s.pml4Addr (pathOf virt)).map (fun pt => s.leafAddr pt virt)).getD 0#64 := by
  simp only [follow,pathOf,List.foldlM_cons,List.foldlM_nil,Option.bind_eq_bind,Option.pure_def,
    Option.bind_fun_some,bind_map_getD,child_map_getD]
  rfl

theorem child_eq_none {s : Paging A} {t : U64} {i : TableIndex} :
    s.child t i = none ↔ entryQueryFlag (s.table t i) pml4ePdpePdePresent = false := by
  unfold child
  cases entryQueryFlag (s.table t i) pml4ePdpePdePresent <;> simp

theorem child_eq_some {s : Paging A} {t u : U64} {i : TableIndex} :
    s.child t i = some u ↔ entryQueryFlag (s.table t i) pml4ePdpePdePresent = true ∧
      entryGetAddr (s.table t i) + kernelOffset = u := by
  unfold child
  cases entryQueryFlag (s.table t i) pml4ePdpePdePresent <;> simp

theorem child_congr {s s' : Paging A} {t : U64} {i : TableIndex}
    (h : s'.table t i = s.table t i) : s'.child t i = s.child t i := by
  unfold child
  rw [h]

theorem leafAddr_congr {s s' : Paging A} {pt virt : U64}
    (h : s'.table pt (virtAddrGetPte virt) = s.table pt (virtAddrGetPte virt)) :
    s'.leafAddr pt virt = s.leafAddr pt virt := by
  unfold leafAddr
  rw [h]

@[simp] theorem setEntry_pml4Addr (s : Paging A) (tbl : U64) (i : TableIndex) (e : U64) :
    (s.setEntry tbl i e).pml4Addr = s.pml4Addr := rfl

@[simp] theorem setEntry_frames (s : Paging A) (tbl : U64) (i : TableIndex) (e : U64) :
    (s.setEntry tbl i e).frames = s.frames := rfl

@[simp] theorem setEntry_table_self (s : Paging A) (tbl : U64) (i : TableIndex) (e : U64) :
    (s.setEntry tbl i e).table tbl i = e := by
  simp [setEntry]

theorem setEntry_table_of_ne (s : Paging A) {tbl t : U64} {i j : TableIndex} (e : U64)
    (h : ¬ (t = tbl ∧ j = i)) : (s.setEntry tbl i e).table t j = s.table t j := by
  unfold setEntry
  by_cases ht : t = tbl
  · subst ht
    simp [show j ≠ i from fun hj => h ⟨rfl,hj⟩]
  · simp [ht]

theorem zeroPage_table_of_ne (s : Paging A) {page t : U64} (h : t ≠ page) :
    (s.zeroPage page).table t = s.table t := by
  simp [zeroPage,h]

/-! Writing a leaf entry. -/

section Leaf
variable {s : Paging A} {pt e virt v : U64}

theorem follow_setLeaf (ht : IsTree s) (hp : follow s.child s.pml4Addr (pathOf virt) = some pt)
    (i : TableIndex) {q : List TableIndex} (hq : q.length ≤ 3) :
    follow (s.setEntry pt i e).child s.pml4Addr q = follow s.child s.pml4Addr q := by
  refine follow_congr (d := 3) (fun p t j hlen hpt => child_congr ?_) hq
  apply setEntry_table_of_ne
  rintro ⟨rfl,-⟩
  have hpath := ht p (pathOf virt) t (by omega) (by simp [pathOf]) hpt hp
  simp [hpath,pathOf] at hlen

theorem isTree_setLeaf (ht : IsTree s)
    (hp : follow s.child s.pml4Addr (pathOf virt) = some pt) (i : TableIndex) :
    IsTree (s.setEntry pt i e) := by
  intro p q t hlp hlq hfp hfq
  rw [setEntry_pml4Addr,follow_setLeaf ht hp i hlp] at hfp
  rw [setEntry_pml4Addr,follow_setLeaf ht hp i hlq] at hfq
  exact ht p q t hlp hlq hfp hfq

/-- A leaf entry is the translation of the addresses of its page and of no
others. -/
theorem pageVirtToPhysAddr_setLeaf (ht : IsTree s)
    (hp : follow s.child s.pml4Addr (pathOf virt) = some pt) :
    pageVirtToPhysAddr (s.setEntry pt (virtAddrGetPte virt) e) v =
      if SamePage v virt then
        if pteQueryFlag e ptePresent then pteGetAddr e + (v &&& (pageSize - 1#64)) else 0#64
      else pageVirtToPhysAddr s v := by
  rw [pageVirtToPhysAddr_eq,pageVirtToPhysAddr_eq,setEntry_pml4Addr,
    follow_setLeaf ht hp _ (by simp [pathOf])]
  by_cases hv : SamePage v virt
  · obtain ⟨hpath,hleaf⟩ := samePage_iff.mp hv
    rw [if_pos hv,hpath,hp,Option.map_some,Option.getD_some,leafAddr,hleaf,setEntry_table_self]
    cases pteQueryFlag e ptePresent <;> rfl
  · rw [if_neg hv]
    cases hfv : follow s.child s.pml4Addr (pathOf v) with
    | none => rfl
    | some t =>
      apply leafAddr_congr
      apply setEntry_table_of_ne
      rintro ⟨rfl,hleaf⟩
      have hpath := ht _ _ t (by simp [pathOf]) (by simp [pathOf]) hfv hp
      exact hv (samePage_iff.mpr ⟨hpath,hleaf⟩)

end Leaf

/-! Linking a new table. -/

/-- The memory after `page_map` has cleared the frame `f` and linked it. -/
def linkTable (kernel : Bool) (tbl : U64) (i : TableIndex) (f : PhysicalAddress)
    (s : Paging A) : Paging A :=
  (s.zeroPage (f + kernelOffset)).setEntry tbl i (linkFlags kernel
    (entrySetAddr ((s.zeroPage (f + kernelOffset)).table tbl i) (f + kernelOffset - kernelOffset)))

theorem nextTable_of_some {fa : FrameAllocator A} {kernel : Bool} {s : Paging A} {tbl t : U64}
    {i : TableIndex} (h : s.child tbl i = some t) : nextTable fa kernel tbl i s = .done t s := by
  obtain ⟨hpres,rfl⟩ := child_eq_some.mp h
  simp [nextTable,hpres]

theorem nextTable_eq_done_of_none {fa : FrameAllocator A} {kernel : Bool} {s s' : Paging A}
    {tbl t : U64} {i : TableIndex} (h : s.child tbl i = none) :
    nextTable fa kernel tbl i s = .done t s' ↔ ∃ f a, fa.allocLow s.frames = .done f a ∧
      t = f + kernelOffset ∧ s' = linkTable kernel tbl i f { s with frames := a } := by
  rw [nextTable,child_eq_none.mp h]
  simp only [Bool.not_false,if_true,kcallocPage,Outcome.bind_eq_done,Lens.lift_eq_done]
  constructor
  · rintro ⟨_,_,⟨f,_,⟨a,ha,hs⟩,hpage⟩,hlink⟩
    obtain ⟨rfl,rfl⟩ := Outcome.done.inj hpage
    obtain ⟨rfl,rfl⟩ := Outcome.done.inj hlink
    subst hs
    exact ⟨f,a,ha,rfl,rfl⟩
  · rintro ⟨f,a,ha,rfl,rfl⟩
    exact ⟨_,_,⟨f,_,⟨a,ha,rfl⟩,rfl⟩,rfl⟩

/-- The address of `f` survives the masks of an entry, and its page is no table. -/
structure FreshFrame (s : Paging A) (f : PhysicalAddress) : Prop where
  aligned : f &&& addrMask = f
  outside : ¬ InTree s (f + kernelOffset)

section Link
variable {s : Paging A} {kernel : Bool} {path q : List TableIndex} {tbl v : U64} {i : TableIndex}
  {f : PhysicalAddress}

@[simp] theorem linkTable_pml4Addr : (linkTable kernel tbl i f s).pml4Addr = s.pml4Addr := rfl

@[simp] theorem linkTable_frames : (linkTable kernel tbl i f s).frames = s.frames := rfl

theorem linkTable_table_fresh (hne : tbl ≠ f + kernelOffset) (j : TableIndex) :
    (linkTable kernel tbl i f s).table (f + kernelOffset) j = 0#64 := by
  rw [linkTable,setEntry_table_of_ne _ _ (fun h => hne h.1.symm)]
  simp [zeroPage]

theorem linkTable_table_of_ne {t : U64} {j : TableIndex} (hf : t ≠ f + kernelOffset)
    (hne : ¬ (t = tbl ∧ j = i)) : (linkTable kernel tbl i f s).table t j = s.table t j := by
  rw [linkTable,setEntry_table_of_ne _ _ hne,zeroPage_table_of_ne _ hf]

theorem linkTable_child_new (hal : f &&& addrMask = f) :
    (linkTable kernel tbl i f s).child tbl i = some (f + kernelOffset) := by
  rw [child_eq_some,linkTable,setEntry_table_self,entryQueryFlag_linkFlags,
    entryGetAddr_linkFlags,BitVec.add_sub_cancel,hal]
  exact ⟨rfl,rfl⟩

/-- Linking a fresh frame adds one table and moves none. -/
theorem follow_linkTable (ht : IsTree s) (hp : follow s.child s.pml4Addr path = some tbl)
    (hlen : path.length < 3) (habs : s.child tbl i = none) (hf : FreshFrame s f)
    (hq : q.length ≤ 3) :
    follow (linkTable kernel tbl i f s).child s.pml4Addr q =
      if q = path ++ [i] then some (f + kernelOffset) else follow s.child s.pml4Addr q := by
  have hout (p : List TableIndex) (t : U64) (hl : p.length ≤ 3)
      (h : follow s.child s.pml4Addr p = some t) : t ≠ f + kernelOffset := by
    rintro rfl
    exact hf.outside (isTable_of_follow hl h)
  have htbl : tbl ≠ f + kernelOffset := hout path tbl (by omega) hp
  refine follow_link ht hp hlen habs (linkTable_child_new hf.aligned) (fun j => ?_)
    (fun p t j hl hpt hne => ?_) hq
  · rw [child_eq_none,linkTable_table_fresh htbl,entryQueryFlag_zero]
  · exact child_congr (linkTable_table_of_ne (hout p t (by omega) hpt) hne)

theorem isTree_linkTable (ht : IsTree s) (hp : follow s.child s.pml4Addr path = some tbl)
    (hlen : path.length < 3) (habs : s.child tbl i = none) (hf : FreshFrame s f) :
    IsTree (linkTable kernel tbl i f s) :=
  TreeTo.link ht hf.outside (fun _ hq => follow_linkTable ht hp hlen habs hf hq)

theorem inTree_linkTable (ht : IsTree s) (hp : follow s.child s.pml4Addr path = some tbl)
    (hlen : path.length < 3) (habs : s.child tbl i = none) (hf : FreshFrame s f) {t : U64}
    (h : InTree (linkTable kernel tbl i f s) t) : InTree s t ∨ t = f + kernelOffset := by
  obtain ⟨q,hq,hqt⟩ := h
  rw [linkTable_pml4Addr,follow_linkTable ht hp hlen habs hf hq] at hqt
  split at hqt
  · exact Or.inr (Option.some.inj hqt).symm
  · exact Or.inl ⟨q,hq,hqt⟩

/-- A new table is empty, so it translates no address. -/
theorem pageVirtToPhysAddr_linkTable (ht : IsTree s)
    (hp : follow s.child s.pml4Addr path = some tbl) (hlen : path.length < 3)
    (habs : s.child tbl i = none) (hf : FreshFrame s f) :
    pageVirtToPhysAddr (linkTable kernel tbl i f s) v = pageVirtToPhysAddr s v := by
  rw [pageVirtToPhysAddr_eq,pageVirtToPhysAddr_eq,linkTable_pml4Addr,
    follow_linkTable ht hp hlen habs hf (by simp [pathOf])]
  by_cases hv : pathOf v = path ++ [i]
  · have htbl : tbl ≠ f + kernelOffset := by
      rintro rfl
      exact hf.outside ⟨path,by omega,hp⟩
    rw [if_pos hv,hv,follow_snoc_of_some hp,habs]
    simp [leafAddr,linkTable_table_fresh htbl,pteQueryFlag,entryQueryFlag_zero]
  · rw [if_neg hv]
    cases hfv : follow s.child s.pml4Addr (pathOf v) with
    | none => rfl
    | some t =>
      apply leafAddr_congr
      apply linkTable_table_of_ne
      · rintro rfl
        exact hf.outside ⟨pathOf v,by simp [pathOf],hfv⟩
      · rintro ⟨rfl,-⟩
        have hpath := ht _ _ t (by simp [pathOf]) (by omega) hfv hp
        simp [← hpath,pathOf] at hlen

end Link

end Lios.Paging

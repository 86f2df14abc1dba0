import Lios.Boot.LoaderTables
import Lios.Lib.Loops
import Lios.Mem.PageFrames

/-! # The kernel window

`kmain` takes the lower window away again. Its stores go through the very tables they change:
the PML4 is written at its physical address, which only the lower window maps, and the other
tables through the kernel window. Afterwards the tables are a tree that maps the kernel window
and nothing else, and later calls of the paging code for other pages leave the window alone.
-/
namespace Lios.Loader
open Paging Mmu

/-- The eight bytes of an entry at a physical address. -/
def writeEntry (m : ℕ → U32) (a : ℕ) (v : U64) : ℕ → U32 :=
  Function.update (Function.update m a (v.setWidth 32)) (a + 4) ((v >>> 32).setWidth 32)

/-- The store of a `u64` through the page tables. -/
def storeVirt (cr3 : ℕ) (virt v : U64) (m : ℕ → U32) : Outcome (ℕ → U32) Unit :=
  match translate m cr3 virt with
  | some a => .done () (writeEntry m a v)
  | none => .fault m

/-- The stores of `kmain` under the comment `un-identity map first 2G`. -/
def removeIdentityMap (cr3 : ℕ) (pml4 pdptLow pdtLow ptLow : U64) (m : ℕ → U32) :
    Outcome (ℕ → U32) Unit :=
  (storeVirt cr3 pml4 0#64 m).bind fun _ m =>
  (storeVirt cr3 pdptLow 0#64 m).bind fun _ m =>
  Outcome.forTo 512#32 (fun i m =>
    (storeVirt cr3 (pdtLow + 8#64 * i.setWidth 64) 0#64 m).bind fun _ m =>
    storeVirt cr3 (ptLow + 8#64 * i.setWidth 64) 0#64 m) m

/-- The call by the loader: the first pointer is the value of CR3, and the two on the stack
arrive in the reverse of the order in which `kmain` declares them. -/
def enterKernel (pml4 : U32) (m : ℕ → U32) : Outcome (ℕ → U32) Unit :=
  removeIdentityMap pml4.toNat (pml4.setWidth 64) ((pdptLow pml4).setWidth 64 + kernelOffset)
    ((ptLow pml4).setWidth 64 + kernelOffset) ((pdtLow pml4).setWidth 64 + kernelOffset) m

/-! Cutting entries. -/

section Cut
variable {b : ℕ} {cut : ℕ → ℕ → Bool} {m : ℕ → U32}

theorem physEntry_writeEntry {a x : ℕ} (ha : a % 8 = 0) (hx : x % 8 = 0) :
    physEntry (writeEntry m a 0#64) x = if x = a then 0#64 else physEntry m x := by
  unfold physEntry writeEntry
  by_cases h : x = a
  · subst h
    simp
  · rw [if_neg h,Function.update_of_ne (by omega),Function.update_of_ne (by omega),
      Function.update_of_ne (by omega),Function.update_of_ne h]

/-- Clearing an entry cuts it. -/
theorem Tabled.clear (h : Tabled b cut m) (cut' : ℕ → ℕ → Bool) (p i : ℕ) (hi : i < 512)
    (hcut : ∀ q j, cut' q j = (cut q j || decide (q = p ∧ j = i))) :
    Tabled b cut' (writeEntry m (b + 4096 * p + 8 * i) 0#64) := by
  have hal := h.aligned
  refine ⟨hal,h.fits,fun q hq j hj => ?_⟩
  rw [physEntry_writeEntry (by omega) (by omega),h.entries q hq j hj,hcut]
  by_cases hqj : q = p ∧ j = i
  · rw [if_pos (by omega),decide_eq_true hqj,Bool.or_true,if_pos rfl]
  · rw [if_neg (by omega),decide_eq_false hqj,Bool.or_false]

/-- A store of zero through the kernel window to an entry of the tables. -/
theorem Tabled.storeVirt_high (h : Tabled b cut m) (hk : KeepsHigh cut) (cut' : ℕ → ℕ → Bool)
    (p i : ℕ) (virt : U64) (hp : p < 2055) (hi : i < 512)
    (hv : virt.toNat = 0xFFFFFFFF80000000 + (b + 4096 * p + 8 * i))
    (hcut : ∀ q j, cut' q j = (cut q j || decide (q = p ∧ j = i))) :
    ∃ m', storeVirt b virt 0#64 m = .done () m' ∧ Tabled b cut' m' := by
  have hfit := h.fits
  have htrans := h.translate_high virt hk (by unfold windowOffset; omega)
  have haddr : virt.toNat % 2 ^ 48 - windowOffset = b + 4096 * p + 8 * i := by
    unfold windowOffset
    omega
  refine ⟨_,?_,h.clear cut' p i hi hcut⟩
  rw [storeVirt,htrans,haddr]

end Cut

/-- What `kmain` has cut after `k` rounds of its loop. -/
def cutAfter (k : ℕ) (p i : ℕ) : Bool :=
  decide (p = 0 ∧ i = 0) || decide (p = 1 ∧ i = 0) || decide (p = 7 ∧ i < k) ||
    decide (p = 3 ∧ i < k)

theorem keepsHigh_cutAfter (k : ℕ) : KeepsHigh (cutAfter k) := by
  intro p i h
  simp only [cutAfter,Bool.or_eq_false_iff,decide_eq_false_iff_not]
  omega

/-- The pointer of the kernel window to a physical address. -/
theorem toNat_kernelPointer {a : U32} (h : a.toNat < 2 ^ 31) :
    (a.setWidth 64 + kernelOffset).toNat = 0xFFFFFFFF80000000 + a.toNat := by
  rw [BitVec.toNat_add,BitVec.toNat_setWidth,
    show kernelOffset.toNat = 0xFFFFFFFF80000000 from rfl]
  omega

/-- The address of an array element behind such a pointer. -/
theorem toNat_element {a i : U32} (h : a.toNat + 4096 ≤ 2 ^ 31) (hi : i.toNat < 512) :
    (a.setWidth 64 + kernelOffset + 8#64 * i.setWidth 64).toNat =
      0xFFFFFFFF80000000 + (a.toNat + 8 * i.toNat) := by
  rw [BitVec.toNat_add,BitVec.toNat_mul,BitVec.toNat_setWidth,toNat_kernelPointer (by omega),
    show (8#64).toNat = 8 from rfl]
  omega

section Enter
variable {pml4 : U32} {m : ℕ → U32}

/-- The stores before the loop. -/
theorem enterKernel_links (h : Placed pml4) (ht : Tabled pml4.toNat (fun _ _ => false) m) :
    ∃ m', ((storeVirt pml4.toNat (pml4.setWidth 64) 0#64 m).bind fun _ m =>
      storeVirt pml4.toNat ((pdptLow pml4).setWidth 64 + kernelOffset) 0#64 m) = .done () m' ∧
      Tabled pml4.toNat (cutAfter 0) m' := by
  have hfit := h.fits
  have hroot : (pml4.setWidth 64).toNat = pml4.toNat := by
    rw [BitVec.toNat_setWidth]
    omega
  have hlow := ht.translate_low (pml4.setWidth 64) (fun _ _ => rfl) (by omega)
  have hm := ht.clear (fun q j => decide (q = 0 ∧ j = 0)) 0 0 (by decide) fun _ _ => rfl
  rw [show pml4.toNat + 4096 * 0 + 8 * 0 = (pml4.setWidth 64).toNat % 2 ^ 48 by omega] at hm
  have hk : KeepsHigh fun q j => decide (q = 0 ∧ j = 0) := by
    intro p i hp
    simp only [decide_eq_false_iff_not]
    omega
  have hptr : (pdptLow pml4).toNat = pml4.toNat + 0x1000 := h.toNat_add (by decide)
  obtain ⟨m',hstore,hm'⟩ := hm.storeVirt_high hk (cutAfter 0) 1 0
    ((pdptLow pml4).setWidth 64 + kernelOffset) (by decide) (by decide)
    (by rw [toNat_kernelPointer (by omega),hptr]) (by simp [cutAfter])
  refine ⟨m',?_,hm'⟩
  rw [storeVirt,hlow,Outcome.bind_done,hstore]

/-- One round of the loop. -/
theorem enterKernel_round (h : Placed pml4) {i : U32} (hi : i.toNat < 512)
    (ht : Tabled pml4.toNat (cutAfter i.toNat) m) :
    ∃ m', ((storeVirt pml4.toNat
        ((ptLow pml4).setWidth 64 + kernelOffset + 8#64 * i.setWidth 64) 0#64 m).bind fun _ m =>
      storeVirt pml4.toNat
        ((pdtLow pml4).setWidth 64 + kernelOffset + 8#64 * i.setWidth 64) 0#64 m) = .done () m' ∧
      Tabled pml4.toNat (cutAfter (i.toNat + 1)) m' := by
  have hfit := h.fits
  have hpt : (ptLow pml4).toNat = pml4.toNat + 0x7000 := h.toNat_add (by decide)
  have hpdt : (pdtLow pml4).toNat = pml4.toNat + 0x3000 := h.toNat_add (by decide)
  obtain ⟨m₁,hstore₁,hm₁⟩ := ht.storeVirt_high (keepsHigh_cutAfter _)
    (fun q j => cutAfter i.toNat q j || decide (q = 7 ∧ j = i.toNat)) 7 i.toNat
    ((ptLow pml4).setWidth 64 + kernelOffset + 8#64 * i.setWidth 64) (by decide) hi
    (by rw [toNat_element (by omega) hi,hpt]) fun _ _ => rfl
  have hk : KeepsHigh fun q j => cutAfter i.toNat q j || decide (q = 7 ∧ j = i.toNat) := by
    intro p j hp
    simp only [keepsHigh_cutAfter _ p j hp,Bool.false_or,decide_eq_false_iff_not]
    omega
  obtain ⟨m₂,hstore₂,hm₂⟩ := hm₁.storeVirt_high hk (cutAfter (i.toNat + 1)) 3 i.toNat
    ((pdtLow pml4).setWidth 64 + kernelOffset + 8#64 * i.setWidth 64) (by decide) hi
    (by rw [toNat_element (by omega) hi,hpdt]) (by
      intro q j
      rw [Bool.eq_iff_iff]
      simp only [cutAfter,Bool.or_eq_true,decide_eq_true_iff]
      omega)
  refine ⟨m₂,?_,hm₂⟩
  rw [hstore₁,Outcome.bind_done,hstore₂]

/-- The lower window is removed without a fault. -/
theorem enterKernel_done (h : Placed pml4) (ht : Tabled pml4.toNat (fun _ _ => false) m) :
    ∃ m', enterKernel pml4 m = .done () m' ∧ Tabled pml4.toNat (cutAfter 512) m' := by
  obtain ⟨m₁,hlinks,hm₁⟩ := enterKernel_links h ht
  obtain ⟨m₂,hloop,hm₂⟩ := Outcome.forTo_rule (n := 512#32)
    (P := fun k m => Tabled pml4.toNat (cutAfter k) m) hm₁
    fun i m hi hm => enterKernel_round h hi hm
  refine ⟨m₂,?_,hm₂⟩
  rw [enterKernel,removeIdentityMap,← Outcome.bind_assoc,hlinks,Outcome.bind_done,hloop]

end Enter

/-! The tree of the boot tables. -/

/-- The kernel pointer to the table `p`. -/
def pageAt (b p : ℕ) : U64 := BitVec.ofNat 64 (b + 4096 * p) + kernelOffset

section Tree
variable {A : Type} {b : ℕ} {cut : ℕ → ℕ → Bool} {m : ℕ → U32} {frames : A}

theorem pageAt_injective {p q : ℕ} (hp : p < 2055) (hq : q < 2055)
    (h : pageAt b p = pageAt b q) : p = q := by
  have heq := congrArg BitVec.toNat (add_right_cancel h)
  rw [BitVec.toNat_ofNat,BitVec.toNat_ofNat] at heq
  omega

theorem Tabled.child (h : Tabled b cut m) {p : ℕ} (hp : p < 7) (i : TableIndex) :
    (pagingOf m b frames).child (pageAt b p) i = (next cut p i.toNat).map (pageAt b) := by
  have hfit := h.fits
  rw [pageAt,child_eq_target,BitVec.toNat_ofNat,Nat.mod_eq_of_lt (by omega),h.target hp i.isLt,
    Option.map_map]
  rfl

/-- The level of a table. -/
def level (p : ℕ) : ℕ := if p = 0 then 0 else if p < 3 then 1 else if p < 7 then 2 else 3

theorem nextPage_level_succ {p i q : ℕ} (hp : p < 7) (hi : i < 512) (h : nextPage p i = some q) :
    level q = level p + 1 ∧ q < 2055 := by
  obtain ⟨h₀,h₁,h₂⟩ := nextPage_level hi h
  unfold level
  split_ifs <;> omega

theorem level_lt {p : ℕ} (h : level p < 3) : p < 7 := by
  unfold level at h
  split_ifs at h <;> omega

/-- Every path from the PML4 leads to one of the boot tables. -/
theorem Tabled.follow_level (h : Tabled b cut m) {q : List TableIndex} {t : U64}
    (hq : q.length ≤ 3) (ht : follow (pagingOf m b frames).child (pageAt b 0) q = some t) :
    ∃ p < 2055, t = pageAt b p ∧ level p = q.length := by
  induction q using List.reverseRecOn generalizing t with
  | nil =>
    obtain rfl := Option.some.inj ht
    exact ⟨0,by decide,rfl,rfl⟩
  | append_singleton q i ih =>
    rw [List.length_append,List.length_singleton] at hq ⊢
    obtain ⟨u,hu,hi⟩ := Option.bind_eq_some_iff.mp (follow_snoc ▸ ht)
    obtain ⟨p,hp,rfl,hlevel⟩ := ih (by omega) hu
    have hp' : p < 7 := level_lt (by omega)
    rw [h.child hp'] at hi
    obtain ⟨r,hr,rfl⟩ := Option.map_eq_some_iff.mp hi
    obtain ⟨hsucc,hlt⟩ := nextPage_level_succ hp' i.isLt (next_eq_some hr).2
    exact ⟨r,hlt,rfl,by omega⟩

theorem nextPage_injective {p q i j r : ℕ} (hp : p < 7) (hq : q < 7) (hi : i < 512) (hj : j < 512)
    (h : nextPage p i = some r) (h' : nextPage q j = some r) : p = q ∧ i = j := by
  unfold nextPage at h h'
  split_ifs at h <;> obtain rfl := Option.some.inj h <;> split_ifs at h' <;>
    have := Option.some.inj h' <;> omega

theorem Tabled.isTree (h : Tabled b cut m) (frames : A) : IsTree (pagingOf m b frames) := by
  change TreeTo _ (pageAt b 0) 3
  apply TreeTo.of_injective
  · intro p t i hp ht hroot
    obtain ⟨q,hq,rfl,hlevel⟩ := h.follow_level (by omega) ht
    have hq' : q < 7 := level_lt (by omega)
    rw [h.child hq'] at hroot
    obtain ⟨r,hr,heq⟩ := Option.map_eq_some_iff.mp hroot
    obtain ⟨hsucc,hlt⟩ := nextPage_level_succ hq' i.isLt (next_eq_some hr).2
    obtain rfl := pageAt_injective hlt (by decide) heq
    cases hsucc
  · intro p q t u i j v hp hq ht hu hti huj
    obtain ⟨x,hx,rfl,hlevel⟩ := h.follow_level (by omega) ht
    obtain ⟨y,hy,rfl,hlevel'⟩ := h.follow_level (by omega) hu
    have hx' : x < 7 := level_lt (by omega)
    have hy' : y < 7 := level_lt (by omega)
    rw [h.child hx'] at hti
    rw [h.child hy'] at huj
    obtain ⟨r,hr,rfl⟩ := Option.map_eq_some_iff.mp hti
    obtain ⟨z,hz,heq⟩ := Option.map_eq_some_iff.mp huj
    have hr' := (next_eq_some hr).2
    have hz' := (next_eq_some hz).2
    obtain rfl := pageAt_injective (nextPage_lt hy' j.isLt hz') (nextPage_lt hx' i.isLt hr') heq
    obtain ⟨rfl,hij⟩ := nextPage_injective hx' hy' i.isLt j.isLt hr' hz'
    exact ⟨rfl,BitVec.eq_of_toNat_eq hij⟩

/-- The tables of the tree are pages of the kernel image. -/
theorem Tabled.inTree (h : Tabled b cut m) {t : U64} (ht : (pagingOf m b frames).InTree t) :
    ∃ p < 2055, t = pageAt b p := by
  obtain ⟨q,hq,hqt⟩ := ht
  obtain ⟨p,hp,rfl,-⟩ := h.follow_level hq hqt
  exact ⟨p,hp,rfl⟩

end Tree

/-! After the removal. -/

/-- The addresses of the kernel window. -/
def InWindow (virt : U64) : Prop := windowOffset ≤ virt.toNat % 2 ^ 48

section Window
variable {A : Type} {b : ℕ} {m : ℕ → U32} (frames : A)

theorem Tabled.translate_window (h : Tabled b (cutAfter 512) m) (virt : U64) :
    Mmu.translate m b virt =
      if windowOffset ≤ virt.toNat % 2 ^ 48 then some (virt.toNat % 2 ^ 48 - windowOffset)
      else none := by
  split_ifs with hwin
  · exact h.translate_high virt (keepsHigh_cutAfter 512) hwin
  · by_cases hlow : virt.toNat % 2 ^ 48 < 2 ^ 31
    · exact h.translate_cut virt rfl hlow
    · exact h.translate_outside virt (by omega) (by omega)

/-- Through the tables that `kmain` leaves, the code and the processor see the kernel window. -/
theorem Tabled.kernelView (h : Tabled b (cutAfter 512) m) (virt : U64) :
    (PageMapped (pagingOf m b frames) virt ↔ InWindow virt) ∧
    (InWindow virt → (pageVirtToPhysAddr (pagingOf m b frames) virt).toNat =
      virt.toNat % 2 ^ 48 - windowOffset) := by
  have hfit := h.fits
  have hmap := h.translate_window virt
  refine ⟨?_,fun hwin => ?_⟩
  · rw [pageMapped_iff frames (by omega),hmap,InWindow]
    split_ifs with hwin
    · exact iff_of_true rfl hwin
    · exact iff_of_false (by decide) hwin
  · exact pageVirtToPhysAddr_of_translate frames (by omega) (hmap.trans (if_pos hwin))

/-- No entry of the PML4 lets user programs through, and none is present in the lower half. -/
theorem Tabled.root_entries (h : Tabled b (cutAfter 512) m) (i : TableIndex) :
    ¬ User ((pagingOf m b frames).table (pagingOf m b frames).pml4Addr i) ∧
    (Present ((pagingOf m b frames).table (pagingOf m b frames).pml4Addr i) → i.toNat = 511) := by
  have hfit := h.fits
  have hal := h.aligned
  have hzero : ¬ User 0#64 := by decide
  have hentry := h.entries 0 (by decide) i.toNat i.isLt
  rw [Nat.mul_zero,Nat.add_zero] at hentry
  rw [pagingOf_root (by omega),hentry,slot_of_lt (by decide),nextPage_zero]
  by_cases hfirst : i.toNat = 0
  · rw [hfirst,if_pos rfl]
    exact ⟨hzero,fun hpres => absurd hpres not_present_zero⟩
  rw [if_neg (by simp [cutAfter,hfirst]),if_neg hfirst]
  split_ifs with hlast
  · exact ⟨not_user_link (by omega),fun _ => hlast⟩
  · exact ⟨hzero,fun hpres => absurd hpres not_present_zero⟩

end Window

/-- From every state in which the tables are zero, the loader and the first stores of `kmain` run
without a fault. The tables they leave are a tree. The paging code finds a page mapped if and
only if it lies in the kernel window, at its offset in the window; no user program can reach a
page; and every table is a page of the kernel image. -/
theorem kmain_keeps_kernel_window {A : Type} (frames : A) {pml4 : U32} (h : Placed pml4) (c : Cpu)
    (hzero : ∀ a, pml4.toNat ≤ a → a < pml4.toNat + 0x807000 → c.mem a = 0#32) :
    ∃ d m, isa.Reaches (text pml4) (text pml4,c) ([],d) ∧ enterKernel pml4 d.mem = .done () m ∧
      IsTree (pagingOf m pml4.toNat frames) ∧
      (∀ virt, (PageMapped (pagingOf m pml4.toNat frames) virt ↔ InWindow virt) ∧
        (InWindow virt → (pageVirtToPhysAddr (pagingOf m pml4.toNat frames) virt).toNat =
          virt.toNat % 2 ^ 48 - windowOffset) ∧
        ¬ UserMapped (pagingOf m pml4.toNat frames) virt) ∧
      (∀ t, InTree (pagingOf m pml4.toNat frames) t →
        pml4.toNat ≤ (t - kernelOffset).toNat ∧ (t - kernelOffset).toNat < pml4.toNat + 0x807000) := by
  have hfit := h.fits
  obtain ⟨d,hrun,hboot⟩ := loader_reaches pml4 c
  have htab := bootMem_tabled (c.reg .ebx) h hzero
  rw [← hboot.mem] at htab
  obtain ⟨m,hdone,hm⟩ := enterKernel_done h htab
  refine ⟨d,m,hrun,hdone,hm.isTree frames,fun virt => ?_,fun t ht => ?_⟩
  · obtain ⟨hmapped,haddr⟩ := hm.kernelView frames virt
    refine ⟨hmapped,haddr,fun huser => ?_⟩
    exact (hm.root_entries frames _).1 (huser.2 _ List.mem_cons_self).2
  · obtain ⟨p,hp,rfl⟩ := hm.inTree ht
    rw [pageAt,add_sub_cancel_right,BitVec.toNat_ofNat]
    omega

theorem resetCpu_keeps_kernel_window : Placed 0x200000#32 ∧
    ∃ d m, isa.Reaches (text 0x200000#32) (text 0x200000#32,resetCpu) ([],d) ∧
      enterKernel 0x200000#32 d.mem = .done () m ∧
      ¬ PageMapped (pagingOf m 0x200000 ()) 0x200000#64 := by
  have hplaced : Placed 0x200000#32 := ⟨by decide,by decide⟩
  obtain ⟨d,m,hrun,hdone,-,hview,-⟩ := kmain_keeps_kernel_window () hplaced resetCpu fun _ _ _ => rfl
  refine ⟨hplaced,d,m,hrun,hdone,fun hmapped => ?_⟩
  have hwin := (hview 0x200000#64).1.mp hmapped
  exact absurd hwin (by unfold InWindow; decide)

end Lios.Loader

import Lios.Boot.Loader
import Lios.Mem.Mmu
import Lios.Mem.PageHalves

/-! # The boot page tables

The tables that the loader fills in follow one another in memory and are numbered from the PML4
on: 1 and 2 are the PDPTs, 3 to 6 the PDTs, and 1024 page tables of the lower and 1024 of the
upper half come behind them. Through them the processor sees the first 2 GiB of memory at
address zero and once more at the end of the address space, and nothing else.
-/
namespace Lios.Loader
open Paging Mmu

/-- The table behind entry `i` of the table `p`, for the tables of the three upper levels. -/
def nextPage (p i : ℕ) : Option ℕ :=
  if p = 0 then if i = 0 then some 1 else if i = 511 then some 2 else none
  else if p = 1 then if i < 2 then some (3 + i) else none
  else if p = 2 then if 510 ≤ i then some (5 + (i - 510)) else none
  else if p < 5 then some (7 + 512 * (p - 3) + i)
  else some (1031 + 512 * (p - 5) + i)

theorem nextPage_zero (i : ℕ) :
    nextPage 0 i = if i = 0 then some 1 else if i = 511 then some 2 else none := rfl

theorem nextPage_one (i : ℕ) : nextPage 1 i = if i < 2 then some (3 + i) else none := rfl

theorem nextPage_two (i : ℕ) :
    nextPage 2 i = if 510 ≤ i then some (5 + (i - 510)) else none := rfl

theorem nextPage_low {p i : ℕ} (h : 3 ≤ p) (h' : p < 5) :
    nextPage p i = some (7 + 512 * (p - 3) + i) := by
  rw [nextPage,if_neg (by omega),if_neg (by omega),if_neg (by omega),if_pos h']

theorem nextPage_high {p i : ℕ} (h : 5 ≤ p) : nextPage p i = some (1031 + 512 * (p - 5) + i) := by
  rw [nextPage,if_neg (by omega),if_neg (by omega),if_neg (by omega),if_neg (by omega)]

/-- The entry `i` of the table `p` when the PML4 is at `b`. -/
def slot (b p i : ℕ) : ℕ :=
  if p < 7 then ((nextPage p i).map fun q => b + 4096 * q + 3).getD 0
  else 4096 * ((p - 7) % 1024 * 512 + i) + 3

theorem slot_of_lt {b p i : ℕ} (hp : p < 7) :
    slot b p i = ((nextPage p i).map fun q => b + 4096 * q + 3).getD 0 := if_pos hp

theorem slot_of_le {b p i : ℕ} (hp : 7 ≤ p) :
    slot b p i = 4096 * ((p - 7) % 1024 * 512 + i) + 3 := if_neg (by omega)

/-- The tables lie on pages below 2 GiB. -/
structure Placed (pml4 : U32) : Prop where
  aligned : pml4.toNat % 4096 = 0
  fits : pml4.toNat + 0x80B004 ≤ 2 ^ 31

/-- The memory holds the boot page tables from `b` on, except for the entries that are `cut`. -/
structure Tabled (b : ℕ) (cut : ℕ → ℕ → Bool) (m : ℕ → U32) : Prop where
  aligned : b % 4096 = 0
  fits : b + 0x807000 ≤ 2 ^ 31
  entries : ∀ p < 2055, ∀ i < 512, physEntry m (b + 4096 * p + 8 * i) =
    if cut p i then 0#64 else BitVec.ofNat 64 (slot b p i)

/-! The contents of the tables. -/

section Fill
variable {m : ℕ → U32} {ebx eax : U32} {n x : ℕ}

theorem fill_outside (hb : ebx.toNat + 8 * n ≤ 2 ^ 32)
    (h : x < ebx.toNat ∨ ebx.toNat + 8 * n ≤ x) : fill m ebx eax n x = m x := by
  induction n with
  | zero => rfl
  | succ n ih =>
    rw [fill,Function.update_of_ne,ih (by omega) (by omega)]
    rw [BitVec.toNat_add,BitVec.toNat_ofNat]
    omega

theorem fill_between (hx : x % 8 = 4) (h8 : ebx.toNat % 8 = 0) : fill m ebx eax n x = m x := by
  induction n with
  | zero => rfl
  | succ n ih =>
    rw [fill,Function.update_of_ne,ih]
    rw [BitVec.toNat_add,BitVec.toNat_ofNat]
    omega

theorem fill_at {k : ℕ} (hb : ebx.toNat + 8 * n ≤ 2 ^ 32) (hk : k < n)
    (hx : x = ebx.toNat + 8 * k) :
    fill m ebx eax n x = eax + BitVec.ofNat 32 (0x1000 * k) := by
  induction n with
  | zero => omega
  | succ n ih =>
    have haddr : (ebx + BitVec.ofNat 32 (8 * n)).toNat = ebx.toNat + 8 * n := by
      rw [BitVec.toNat_add,BitVec.toNat_ofNat]
      omega
    rw [fill,haddr]
    by_cases hkn : k = n
    · rw [hkn] at hx
      rw [hx,hkn,Function.update_self]
    · rw [Function.update_of_ne (by omega)]
      exact ih (by omega) (by omega)

end Fill

attribute [local irreducible] fill

theorem toNat_or_three {a : U32} (h : a.toNat % 4096 = 0) : (a ||| 3#32).toNat = a.toNat + 3 := by
  have hor := Nat.two_pow_add_eq_or_of_lt (i := 2) (b := 3) (by decide) (a.toNat / 4)
  rw [show 2 ^ 2 * (a.toNat / 4) = a.toNat by omega] at hor
  rw [BitVec.toNat_or,hor]
  rfl

section Contents
variable {pml4 mboot : U32} {m : ℕ → U32}

theorem Placed.toNat_add (h : Placed pml4) {c : ℕ} (hc : c ≤ 0x80B000) :
    (pml4 + BitVec.ofNat 32 c).toNat = pml4.toNat + c := by
  have := h.fits
  rw [BitVec.toNat_add,BitVec.toNat_ofNat]
  omega

theorem Placed.toNat_add_add (h : Placed pml4) {c d : ℕ} (hc : c + d ≤ 0x80B000) :
    (pml4 + BitVec.ofNat 32 c + BitVec.ofNat 32 d).toNat = pml4.toNat + (c + d) := by
  rw [add_assoc,← BitVec.ofNat_add,h.toNat_add hc]

theorem Placed.link_value (h : Placed pml4) {c : ℕ} (hc : c ≤ 0x80B000) (hal : c % 4096 = 0) :
    (pml4 + BitVec.ofNat 32 c) ||| 3#32 = BitVec.ofNat 32 (pml4.toNat + c + 3) := by
  have := h.fits
  have := h.aligned
  apply BitVec.eq_of_toNat_eq
  rw [toNat_or_three (by rw [h.toNat_add hc]; omega),h.toNat_add hc,BitVec.toNat_ofNat]
  omega

theorem Placed.link_value_add (h : Placed pml4) {c d : ℕ} (hc : c + d ≤ 0x80B000)
    (hal : (c + d) % 4096 = 0) :
    (pml4 + BitVec.ofNat 32 c + BitVec.ofNat 32 d) ||| 3#32 =
      BitVec.ofNat 32 (pml4.toNat + (c + d) + 3) := by
  rw [add_assoc,← BitVec.ofNat_add,h.link_value hc hal]

/-- The entries of the PML4 and of the PDPTs. -/
theorem linkMem_apply (h : Placed pml4) {p i : ℕ} (hp : p < 3) (hi : i < 512)
    (hzero : m (pml4.toNat + 4096 * p + 8 * i) = 0#32) :
    linkMem pml4 m (pml4.toNat + 4096 * p + 8 * i) = BitVec.ofNat 32 (slot pml4.toNat p i) := by
  unfold linkMem pdptLow pdptHigh pdtLow pdtHigh
  rw [h.link_value (by decide) (by decide),h.link_value (by decide) (by decide),
    h.link_value (by decide) (by decide),h.link_value (by decide) (by decide),
    h.link_value_add (by decide) (by decide),h.link_value_add (by decide) (by decide),
    h.toNat_add (by decide),h.toNat_add (by decide),h.toNat_add_add (by decide),
    h.toNat_add_add (by decide),h.toNat_add_add (by decide)]
  simp only [Function.update_apply,hzero]
  rw [slot_of_lt (by omega),nextPage]
  -- an entry that is not the one written has another index, or is in another table
  split_ifs <;> simp only [Option.map_some,Option.map_none,Option.getD_some,Option.getD_none] <;>
    exact congrArg (BitVec.ofNat 32) (by omega)

/-- The lower halves of the entries. -/
theorem bootMem_lower (h : Placed pml4)
    (hzero : ∀ a, pml4.toNat ≤ a → a < pml4.toNat + 0x807000 → m a = 0#32) {p i : ℕ}
    (hp : p < 2055) (hi : i < 512) :
    bootMem pml4 mboot m (pml4.toNat + 4096 * p + 8 * i) =
      BitVec.ofNat 32 (slot pml4.toNat p i) := by
  have hal := h.aligned
  have hfit := h.fits
  have hvalue := h.link_value (c := 0x7000) (by decide) (by decide)
  have hvalue' := h.link_value (c := 0x407000) (by decide) (by decide)
  have hpt : (ptLow pml4).toNat = pml4.toNat + 0x7000 := h.toNat_add (by decide)
  have hpt' : (ptHigh pml4).toNat = pml4.toNat + 0x407000 := h.toNat_add (by decide)
  have hpdt : (pdtLow pml4).toNat = pml4.toNat + 0x3000 := h.toNat_add (by decide)
  have hpdt' : (pdtHigh pml4).toNat = pml4.toNat + 0x5000 := h.toNat_add (by decide)
  unfold bootMem
  by_cases hhigh : 1031 ≤ p
  · rw [fill_outside (by omega) (by omega),fill_outside (by omega) (by omega),
      fill_at (k := (p - 1031) * 512 + i) (by omega) (by omega) (by omega),slot_of_le (by omega),
      show 3#32 = BitVec.ofNat 32 3 from rfl,← BitVec.ofNat_add]
    exact congrArg (BitVec.ofNat 32) (by omega)
  by_cases hlow : 7 ≤ p
  · rw [fill_at (k := (p - 7) * 512 + i) (by omega) (by omega) (by omega),slot_of_le (by omega),
      show 3#32 = BitVec.ofNat 32 3 from rfl,← BitVec.ofNat_add]
    exact congrArg (BitVec.ofNat 32) (by omega)
  rw [fill_outside (by omega) (by omega)]
  by_cases hpdts : p < 5 ∧ 3 ≤ p
  · rw [fill_at (k := (p - 3) * 512 + i) (by omega) (by omega) (by omega),ptLow,hvalue,
      slot_of_lt (by omega),nextPage_low (by omega) (by omega),← BitVec.ofNat_add,Option.map_some,Option.getD_some]
    exact congrArg (BitVec.ofNat 32) (by omega)
  rw [fill_outside (by omega) (by omega),fill_outside (by omega) (by omega)]
  by_cases hpdts' : 5 ≤ p
  · rw [fill_at (k := (p - 5) * 512 + i) (by omega) (by omega) (by omega),ptHigh,hvalue',
      slot_of_lt (by omega),nextPage_high (by omega),← BitVec.ofNat_add,Option.map_some,Option.getD_some]
    exact congrArg (BitVec.ofNat 32) (by omega)
  rw [fill_outside (by omega) (by omega)]
  apply linkMem_apply h (by omega) hi
  rw [Function.update_of_ne,hzero _ (by omega) (by omega)]
  rw [mbootStructPtr,h.toNat_add (by decide)]
  omega

/-- The upper halves of the entries stay zero. -/
theorem bootMem_upper (h : Placed pml4)
    (hzero : ∀ a, pml4.toNat ≤ a → a < pml4.toNat + 0x807000 → m a = 0#32) {p i : ℕ}
    (hp : p < 2055) (hi : i < 512) :
    bootMem pml4 mboot m (pml4.toNat + 4096 * p + 8 * i + 4) = 0#32 := by
  have hal := h.aligned
  have hfit := h.fits
  have hpt : (ptLow pml4).toNat = pml4.toNat + 0x7000 := h.toNat_add (by decide)
  have hpt' : (ptHigh pml4).toNat = pml4.toNat + 0x407000 := h.toNat_add (by decide)
  have hpdt : (pdtLow pml4).toNat = pml4.toNat + 0x3000 := h.toNat_add (by decide)
  have hpdt' : (pdtHigh pml4).toNat = pml4.toNat + 0x5000 := h.toNat_add (by decide)
  unfold bootMem
  rw [fill_between (by omega) (by omega),fill_between (by omega) (by omega),
    fill_between (by omega) (by omega),fill_between (by omega) (by omega)]
  unfold linkMem pdptLow pdptHigh mbootStructPtr
  rw [h.toNat_add (by decide),h.toNat_add (by decide),h.toNat_add (by decide),
    h.toNat_add_add (by decide),h.toNat_add_add (by decide),h.toNat_add_add (by decide)]
  rw [Function.update_of_ne (by omega),Function.update_of_ne (by omega),
    Function.update_of_ne (by omega),Function.update_of_ne (by omega),
    Function.update_of_ne (by omega),Function.update_of_ne (by omega),
    Function.update_of_ne (by omega)]
  exact hzero _ (by omega) (by omega)

theorem slot_lt {b p i : ℕ} (hb : b + 0x807000 ≤ 2 ^ 31) (hp : p < 2055) (hi : i < 512) :
    slot b p i < 2 ^ 32 := by
  by_cases h : 7 ≤ p
  · rw [slot_of_le h]
    omega
  · rw [slot_of_lt (by omega),nextPage]
    split_ifs <;> simp only [Option.map_some,Option.map_none,Option.getD_some,Option.getD_none] <;>
      omega

/-- The loader leaves the boot page tables in memory that was zero. -/
theorem bootMem_tabled (mboot : U32) (h : Placed pml4)
    (hzero : ∀ a, pml4.toNat ≤ a → a < pml4.toNat + 0x807000 → m a = 0#32) :
    Tabled pml4.toNat (fun _ _ => false) (bootMem pml4 mboot m) := by
  have hfit := h.fits
  refine ⟨h.aligned,by omega,fun p hp i hi => ?_⟩
  have hlt := slot_lt (b := pml4.toNat) (by omega) hp hi
  rw [physEntry,bootMem_upper h hzero hp hi,bootMem_lower h hzero hp hi,if_neg (by decide)]
  apply BitVec.eq_of_toNat_eq
  rw [BitVec.toNat_append,BitVec.toNat_ofNat,BitVec.toNat_ofNat,BitVec.toNat_ofNat]
  simp only [Nat.zero_mod,Nat.zero_shiftLeft,Nat.zero_or]
  omega

end Contents

/-! The walk. -/

section Entry
variable {a : ℕ}

theorem ofNat_add_three (h : a % 4096 = 0) :
    BitVec.ofNat 64 (a + 3) = BitVec.ofNat 64 a ||| 3#64 := by
  have hor := Nat.two_pow_add_eq_or_of_lt (i := 2) (b := 3) (by decide) ((a % 2 ^ 64) / 4)
  rw [show 2 ^ 2 * (a % 2 ^ 64 / 4) = a % 2 ^ 64 by omega] at hor
  apply BitVec.eq_of_toNat_eq
  rw [BitVec.toNat_or,BitVec.toNat_ofNat,BitVec.toNat_ofNat,show (3#64).toNat = 3 from rfl,← hor]
  omega

theorem entryGetAddr_link (h : a % 4096 = 0) (hlt : a < 2 ^ 52) :
    (entryGetAddr (BitVec.ofNat 64 (a + 3))).toNat = a := by
  have hnat : (BitVec.ofNat 64 a).toNat = a := by
    rw [BitVec.toNat_ofNat]
    omega
  have hmask : addrMask &&& 3#64 = 0#64 := by decide
  rw [ofNat_add_three h,entryGetAddr,BitVec.and_comm,BitVec.and_or_distrib_left,hmask,
    BitVec.or_zero,BitVec.and_comm,addrMask_eq (by omega),and_not_mask_eq (by omega),hnat]

theorem entryQueryFlag_link (h : a % 4096 = 0) :
    entryQueryFlag (BitVec.ofNat 64 (a + 3)) pml4ePdpePdePresent = true := by
  rw [entryQueryFlag,beq_iff_eq]
  apply BitVec.eq_of_toNat_eq
  rw [BitVec.toNat_and,show pml4ePdpePdePresent.toNat = 1 from rfl,Nat.and_one_is_mod,
    BitVec.toNat_ofNat]
  omega

theorem not_user_link (h : a % 4096 = 0) : ¬ User (BitVec.ofNat 64 (a + 3)) := by
  rw [user_iff,BitVec.getLsbD_ofNat,Nat.testBit_eq_decide_div_mod_eq]
  simp
  omega

end Entry

section Walk
variable {b : ℕ} {cut : ℕ → ℕ → Bool} {m : ℕ → U32}

/-- The table behind an entry that is not cut. -/
def next (cut : ℕ → ℕ → Bool) (p i : ℕ) : Option ℕ := if cut p i then none else nextPage p i

/-- The page table for three indices. -/
def walkPage (cut : ℕ → ℕ → Bool) (i j k : ℕ) : Option ℕ :=
  (next cut 0 i).bind fun p => (next cut p j).bind fun p => next cut p k

theorem next_eq_some {p i q : ℕ} (h : next cut p i = some q) :
    cut p i = false ∧ nextPage p i = some q := by
  unfold next at h
  split at h
  · cases h
  · exact ⟨by simpa using ‹¬ cut p i = true›,h⟩

/-- The levels of the tables. -/
theorem nextPage_level {p i q : ℕ} (hi : i < 512) (h : nextPage p i = some q) :
    (p = 0 → 1 ≤ q ∧ q < 3) ∧ (1 ≤ p → p < 3 → 3 ≤ q ∧ q < 7) ∧
      (3 ≤ p → p < 7 → 7 ≤ q ∧ q < 2055) := by
  unfold nextPage at h
  split_ifs at h <;> obtain rfl := Option.some.inj h <;> omega

theorem nextPage_lt {p i q : ℕ} (hp : p < 7) (hi : i < 512) (h : nextPage p i = some q) :
    q < 2055 := by
  obtain ⟨h₀,h₁,h₂⟩ := nextPage_level hi h
  omega

/-- An entry of an upper level leads to the next table, or is not present. -/
theorem Tabled.target (h : Tabled b cut m) {p i : ℕ} (hp : p < 7) (hi : i < 512) :
    Mmu.target m (b + 4096 * p) i = (next cut p i).map fun q => b + 4096 * q := by
  have hal := h.aligned
  have hfit := h.fits
  rw [Mmu.target,h.entries p (by omega) i hi,next]
  cases cut p i with
  | true => simp [entryQueryFlag_zero]
  | false =>
    simp only [Bool.false_eq_true,if_false]
    rw [slot_of_lt hp]
    cases hq : nextPage p i with
    | none => simp [entryQueryFlag_zero]
    | some q =>
      have hlt := nextPage_lt hp hi hq
      simp only [Option.map_some,Option.getD_some]
      rw [entryQueryFlag_link (by omega),entryGetAddr_link (by omega) (by omega)]
      rfl

theorem Tabled.target_leaf (h : Tabled b cut m) {p i : ℕ} (hp : 7 ≤ p) (hp' : p < 2055)
    (hi : i < 512) : Mmu.target m (b + 4096 * p) i =
      if cut p i then none else some (4096 * ((p - 7) % 1024 * 512 + i)) := by
  rw [Mmu.target,h.entries p hp' i hi]
  cases cut p i with
  | true => simp [entryQueryFlag_zero]
  | false =>
    simp only [Bool.false_eq_true,if_false]
    rw [slot_of_le hp,entryQueryFlag_link (by omega),entryGetAddr_link (by omega) (by omega)]
    rfl

/-- The walk of the processor through the boot page tables. -/
theorem Tabled.translate (h : Tabled b cut m) (virt : U64) : Mmu.translate m b virt =
    (walkPage cut (virtAddrGetPml4e virt).toNat (virtAddrGetPdpe virt).toNat
      (virtAddrGetPde virt).toNat).bind fun p =>
        if cut p (virtAddrGetPte virt).toNat then none
        else some (4096 * ((p - 7) % 1024 * 512 + (virtAddrGetPte virt).toNat) +
          virt.toNat % 4096) := by
  have hroot := h.target (p := 0) (by decide) (virtAddrGetPml4e virt).isLt
  rw [Nat.mul_zero,Nat.add_zero] at hroot
  rw [Mmu.translate,hroot,walkPage]
  cases hp : next cut 0 (virtAddrGetPml4e virt).toNat with
  | none => rfl
  | some p =>
    have hlevel := (nextPage_level (virtAddrGetPml4e virt).isLt (next_eq_some hp).2).1 rfl
    simp only [Option.map_some,Option.bind_some]
    rw [h.target (by omega) (virtAddrGetPdpe virt).isLt]
    cases hq : next cut p (virtAddrGetPdpe virt).toNat with
    | none => rfl
    | some q =>
      have hlevel' := (nextPage_level (virtAddrGetPdpe virt).isLt (next_eq_some hq).2).2.1
        hlevel.1 hlevel.2
      simp only [Option.map_some,Option.bind_some]
      rw [h.target (by omega) (virtAddrGetPde virt).isLt]
      cases hr : next cut q (virtAddrGetPde virt).toNat with
      | none => rfl
      | some r =>
        obtain ⟨hr₁,hr₂⟩ := (nextPage_level (virtAddrGetPde virt).isLt (next_eq_some hr).2).2.2
          hlevel'.1 hlevel'.2
        simp only [Option.map_some,Option.bind_some]
        rw [h.target_leaf hr₁ hr₂ (virtAddrGetPte virt).isLt]
        cases cut r (virtAddrGetPte virt).toNat <;> rfl

end Walk

/-! The two windows. -/

/-- The offset of the upper window in an address space of 48 bits. -/
def windowOffset : ℕ := 2 ^ 48 - 2 ^ 31

/-- No entry on the way to the upper window is cut. -/
def KeepsHigh (cut : ℕ → ℕ → Bool) : Prop :=
  ∀ p i, p = 0 ∧ i = 511 ∨ p = 2 ∨ 5 ≤ p ∧ p < 7 ∨ 1031 ≤ p → cut p i = false

theorem toNat_tableIndex (v : U64) (n : ℕ) :
    (((v >>> n) &&& 0x1FF#64).setWidth 9).toNat = v.toNat / 2 ^ n % 512 := by
  rw [BitVec.toNat_setWidth,BitVec.toNat_and,BitVec.toNat_ushiftRight,Nat.shiftRight_eq_div_pow,
    show (0x1FF#64).toNat = 2 ^ 9 - 1 from rfl,Nat.and_two_pow_sub_one_eq_mod]
  omega

theorem toNat_virtAddrGetPdpe (v : U64) : (virtAddrGetPdpe v).toNat = v.toNat / 2 ^ 30 % 512 :=
  toNat_tableIndex v 30

theorem toNat_virtAddrGetPde (v : U64) : (virtAddrGetPde v).toNat = v.toNat / 2 ^ 21 % 512 :=
  toNat_tableIndex v 21

theorem toNat_virtAddrGetPte (v : U64) : (virtAddrGetPte v).toNat = v.toNat / 2 ^ 12 % 512 :=
  toNat_tableIndex v 12

section Windows
variable {b : ℕ} {cut : ℕ → ℕ → Bool} {m : ℕ → U32} (virt : U64)

theorem next_of_not_cut {p i : ℕ} (h : cut p i = false) : next cut p i = nextPage p i := by
  rw [next,h]
  rfl

theorem Tabled.translate_high (h : Tabled b cut m) (hcut : KeepsHigh cut)
    (hv : windowOffset ≤ virt.toNat % 2 ^ 48) :
    Mmu.translate m b virt = some (virt.toNat % 2 ^ 48 - windowOffset) := by
  unfold windowOffset at hv ⊢
  rw [h.translate,walkPage,toNat_virtAddrGetPml4e,toNat_virtAddrGetPdpe,toNat_virtAddrGetPde,
    toNat_virtAddrGetPte]
  have hi : virt.toNat / 2 ^ 39 % 512 = 511 := by omega
  have hj : 510 ≤ virt.toNat / 2 ^ 30 % 512 := by omega
  rw [hi,next_of_not_cut (hcut 0 511 (by omega)),show nextPage 0 511 = some 2 from rfl,
    Option.bind_some,next_of_not_cut (hcut 2 _ (by omega)),nextPage_two,if_pos hj,
    Option.bind_some,next_of_not_cut (hcut _ _ (by omega)),nextPage_high (by omega),
    Option.bind_some,hcut _ _ (by omega)]
  simp only [Bool.false_eq_true,if_false,Option.some.injEq]
  omega

theorem Tabled.translate_low (h : Tabled b cut m) (hcut : ∀ p i, cut p i = false)
    (hv : virt.toNat % 2 ^ 48 < 2 ^ 31) :
    Mmu.translate m b virt = some (virt.toNat % 2 ^ 48) := by
  rw [h.translate,walkPage,toNat_virtAddrGetPml4e,toNat_virtAddrGetPdpe,toNat_virtAddrGetPde,
    toNat_virtAddrGetPte]
  have hi : virt.toNat / 2 ^ 39 % 512 = 0 := by omega
  have hj : virt.toNat / 2 ^ 30 % 512 < 2 := by omega
  rw [hi,next_of_not_cut (hcut _ _),show nextPage 0 0 = some 1 from rfl,
    Option.bind_some,next_of_not_cut (hcut _ _),nextPage_one,if_pos hj,Option.bind_some,
    next_of_not_cut (hcut _ _),nextPage_low (by omega) (by omega),Option.bind_some,hcut]
  simp only [Bool.false_eq_true,if_false,Option.some.injEq]
  omega

/-- Only two entries of each of the PDPTs lead on. -/
theorem walkPage_eq_some {i j k r : ℕ} (h : walkPage cut i j k = some r) :
    cut 0 i = false ∧ (i = 0 ∧ j < 2 ∨ i = 511 ∧ 510 ≤ j) := by
  obtain ⟨p,hp,hrest⟩ := Option.bind_eq_some_iff.mp h
  obtain ⟨q,hq,-⟩ := Option.bind_eq_some_iff.mp hrest
  obtain ⟨hcut,hp⟩ := next_eq_some hp
  have hq := (next_eq_some hq).2
  refine ⟨hcut,?_⟩
  rw [nextPage_zero] at hp
  split_ifs at hp with hfirst hlast
  · obtain rfl := Option.some.inj hp
    rw [nextPage_one] at hq
    split_ifs at hq with hj
    exact .inl ⟨hfirst,hj⟩
  · obtain rfl := Option.some.inj hp
    rw [nextPage_two] at hq
    split_ifs at hq with hj
    exact .inr ⟨hlast,hj⟩

/-- An address outside the two windows is not mapped, whatever is cut. -/
theorem Tabled.translate_outside (h : Tabled b cut m) (hv : 2 ^ 31 ≤ virt.toNat % 2 ^ 48)
    (hv' : virt.toNat % 2 ^ 48 < windowOffset) : Mmu.translate m b virt = none := by
  unfold windowOffset at hv'
  rw [h.translate,Option.bind_eq_none_iff]
  intro r hr
  have hindices := (walkPage_eq_some hr).2
  rw [toNat_virtAddrGetPml4e,toNat_virtAddrGetPdpe] at hindices
  omega

/-- Without the first entry of the PML4 the lower window is gone. -/
theorem Tabled.translate_cut (h : Tabled b cut m) (hcut : cut 0 0 = true)
    (hv : virt.toNat % 2 ^ 48 < 2 ^ 31) : Mmu.translate m b virt = none := by
  have hi : (virtAddrGetPml4e virt).toNat = 0 := by
    rw [toNat_virtAddrGetPml4e]
    omega
  rw [h.translate,Option.bind_eq_none_iff]
  intro r hr
  have hnot := (walkPage_eq_some hr).1
  rw [hi,hcut] at hnot
  cases hnot

end Windows

/-- A processor with cleared memory. -/
def resetCpu : Cpu where
  reg _ := 0#32
  cr _ := 0#32
  msr _ := 0#64
  zf := false
  intr := true
  mem _ := 0#32
  out := []

end Lios.Loader

import Lios.Util.Const

/-! # Integer helpers of the kernel

The rounding divisions compare the rounded product with the dividend; the two that
round down subtract one when the division is not exact.
-/
namespace Lios

def ceilU64Div (dividend divisor : U64) : U64 :=
  let floor := dividend / divisor
  if floor * divisor = dividend then floor else floor + 1#64

/-- The two divisions that round up, for any width of the numbers. -/
theorem toNat_ceilDiv {w : ℕ} {a d : BitVec w} (hd : 0 < d.toNat) :
    (if a / d * d = a then a / d else a / d + 1#w).toNat =
      (a.toNat + (d.toNat - 1)) / d.toNat := by
  have ha := a.isLt
  have hdw := d.isLt
  have hle := Nat.div_mul_le_self a.toNat d.toNat
  have hmod := Nat.div_add_mod a.toNat d.toNat
  have hrem := Nat.mod_lt a.toNat hd
  have hprod : (a / d * d).toNat = a.toNat / d.toNat * d.toNat := by
    rw [BitVec.toNat_mul,BitVec.toNat_udiv,Nat.mod_eq_of_lt (by omega)]
  by_cases h : a / d * d = a
  · have hexact : a.toNat / d.toNat * d.toNat = a.toNat := by rw [← hprod,h]
    rw [if_pos h,BitVec.toNat_udiv]
    refine (Nat.div_eq_of_lt_le (by omega) ?_).symm
    rw [Nat.succ_mul]
    omega
  · have hne : a.toNat / d.toNat * d.toNat ≠ a.toNat := fun hc =>
      h (BitVec.eq_of_toNat_eq (hprod.trans hc))
    have hone : 1 ≤ a.toNat % d.toNat := by
      rw [Nat.mul_comm] at hmod
      omega
    have hsucc : (a / d + 1#w).toNat = a.toNat / d.toNat + 1 := by
      have hd1 : 1 < d.toNat := by omega
      have hlt : a.toNat / d.toNat < a.toNat := Nat.div_lt_self (by omega) hd1
      rw [BitVec.toNat_add,BitVec.toNat_udiv,BitVec.toNat_ofNat,
        Nat.mod_eq_of_lt (show 1 < 2 ^ w by omega),Nat.mod_eq_of_lt (by omega)]
    rw [if_neg h,hsucc]
    rw [Nat.mul_comm] at hmod
    refine (Nat.div_eq_of_lt_le ?_ ?_).symm
    · rw [Nat.add_mul]
      omega
    · rw [Nat.succ_mul,Nat.add_mul]
      omega

theorem toNat_ceilU64Div {a d : U64} (hd : 0 < d.toNat) :
    (ceilU64Div a d).toNat = (a.toNat + (d.toNat - 1)) / d.toNat :=
  toNat_ceilDiv hd

def floorU64Div (dividend divisor : U64) : U64 :=
  let floor := dividend / divisor
  if floor * divisor = dividend then floor else floor - 1#64

def ceilU32Div (dividend divisor : U32) : U32 :=
  let floor := dividend / divisor
  if floor * divisor = dividend then floor else floor + 1#32

theorem toNat_ceilU32Div {a d : U32} (hd : 0 < d.toNat) :
    (ceilU32Div a d).toNat = (a.toNat + (d.toNat - 1)) / d.toNat :=
  toNat_ceilDiv hd

def floorU32Div (dividend divisor : U32) : U32 :=
  let floor := dividend / divisor
  if floor * divisor = dividend then floor else floor - 1#32

def u64Min (a b : U64) : U64 := if a < b then a else b

theorem toNat_u64Min (a b : U64) : (u64Min a b).toNat = min a.toNat b.toNat := by
  rw [u64Min]
  split
  · rename_i h
    exact (min_eq_left (BitVec.lt_def.mp h).le).symm
  · rename_i h
    exact (min_eq_right (not_lt.mp (mt BitVec.lt_def.mpr h))).symm

theorem u64Min_le_right (a b : U64) : (u64Min a b).toNat ≤ b.toNat := by
  rw [toNat_u64Min]
  exact min_le_right _ _

def u64Max (a b : U64) : U64 := if b < a then a else b

theorem toNat_u64Max (a b : U64) : (u64Max a b).toNat = max a.toNat b.toNat := by
  rw [u64Max]
  split
  · rename_i h
    exact (max_eq_left (BitVec.lt_def.mp h).le).symm
  · rename_i h
    exact (max_eq_right (not_lt.mp fun hlt => h (BitVec.lt_def.mpr hlt))).symm

end Lios

import Lios.Lib.ByteStore
import Lios.Util.Const

/-! # Memory functions of the kernel's library -/
namespace Lios

/-- The loop `while (len--) *d++ = *s++`. -/
def memcpy : ℕ → U64 → U64 → (U64 → U8) → U64 → U8
  | 0,_,_,m => m
  | len + 1,d,s,m => memcpy len (d + 1#64) (s + 1#64) (Function.update m d (m s))

/-- The loop `while (len-- > 0) *ptr++ = val`. -/
def memset (val : U32) : ℕ → U64 → (U64 → U8) → U64 → U8
  | 0,_,m => m
  | len + 1,ptr,m => memset val len (ptr + 1#64) (Function.update m ptr (val.setWidth 8))

variable {m : U64 → U8} {d s x : U64} {len : ℕ}

/-- The distance from the next address on. -/
theorem le_sub_succ (h : len + 1 ≤ (x - d).toNat) : len ≤ (x - (d + 1#64)).toNat := by
  have hd := sub_add_toNat (x := x) (a := d) 1 (by decide)
  rw [if_pos (by omega)] at hd
  rw [show d + 1#64 = d + BitVec.ofNat 64 1 from rfl,hd]
  omega

theorem ne_of_lt_sub (h : len + 1 ≤ (x - d).toNat) : x ≠ d := by
  rintro rfl
  rw [BitVec.sub_self,BitVec.toNat_zero] at h
  omega

/-- `memcpy` writes the `len` bytes from the destination on and no other. -/
theorem memcpy_of_le (h : len ≤ (x - d).toNat) : memcpy len d s m x = m x := by
  induction len generalizing d s m with
  | zero => rfl
  | succ len ih => rw [memcpy,ih (le_sub_succ h),Function.update_of_ne (ne_of_lt_sub h)]

theorem memset_of_le {val : U32} (h : len ≤ (x - d).toNat) : memset val len d m x = m x := by
  induction len generalizing d m with
  | zero => rfl
  | succ len ih => rw [memset,ih (le_sub_succ h),Function.update_of_ne (ne_of_lt_sub h)]

end Lios

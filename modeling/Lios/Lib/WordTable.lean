import Mathlib.Data.BitVec
import Mathlib.Data.List.GetD

/-! # Tables of words as strings of bytes

A table of 32-bit words is stored without gaps, the lowest byte of a word first. A row
of bytes that is copied out of the table and read back yields the words it covers, and
a string stored into the table changes the words it covers and no other.
-/
namespace Lios

/-- The word of the bytes `f 0, …, f 3`. -/
def quad (f : ℕ → BitVec 8) : BitVec 32 := f 3 ++ f 2 ++ f 1 ++ f 0

/-- The byte at the offset `o` of a table. -/
def tableByte (t : ℕ → BitVec 32) (o : ℕ) : BitVec 8 := (t (o / 4)).extractLsb' (8 * (o % 4)) 8

/-- The table after the bytes `bs` were stored from the offset `o` on. -/
def tableStore (t : ℕ → BitVec 32) (o : ℕ) (bs : List (BitVec 8)) : ℕ → BitVec 32 :=
  fun k => quad fun j =>
    if o ≤ 4 * k + j then bs.getD (4 * k + j - o) (tableByte t (4 * k + j))
    else tableByte t (4 * k + j)

variable {t : ℕ → BitVec 32} {o k m : ℕ} {bs : List (BitVec 8)}

theorem quad_congr {f g : ℕ → BitVec 8} (h : ∀ j < 4, f j = g j) : quad f = quad g := by
  simp only [quad]
  rw [h 3 (by decide),h 2 (by decide),h 1 (by decide),h 0 (by decide)]

theorem quad_bytes (v : BitVec 32) : quad (fun j => v.extractLsb' (8 * j) 8) = v := by
  refine BitVec.eq_of_getLsbD_eq fun i hi => ?_
  simp only [quad,BitVec.getLsbD_append,BitVec.getLsbD_extractLsb']
  grind

theorem quad_tableByte (t : ℕ → BitVec 32) (k : ℕ) :
    quad (fun j => tableByte t (4 * k + j)) = t k := by
  have hbyte : ∀ j < 4, tableByte t (4 * k + j) = (t k).extractLsb' (8 * j) 8 := by
    intro j hj
    rw [tableByte,show (4 * k + j) / 4 = k by omega,show (4 * k + j) % 4 = j by omega]
  rw [quad_congr hbyte,quad_bytes]

theorem tableStore_of_apart (h : 4 * k + 4 ≤ o ∨ o + bs.length ≤ 4 * k) :
    tableStore t o bs k = t k := by
  have hbyte : ∀ j < 4, (if o ≤ 4 * k + j then bs.getD (4 * k + j - o) (tableByte t (4 * k + j))
      else tableByte t (4 * k + j)) = tableByte t (4 * k + j) := by
    intro j hj
    split
    · rw [List.getD_eq_default _ _ (by omega)]
    · rfl
  rw [tableStore,quad_congr hbyte,quad_tableByte]

/-- A word inside the stored string is made of four of its bytes. -/
theorem tableStore_of_mem (ho : o = 4 * m) (hm : m ≤ k) (h : 4 * k + 4 ≤ o + bs.length) :
    tableStore t o bs k = quad fun j => bs.getD (4 * (k - m) + j) 0#8 := by
  refine quad_congr fun j hj => ?_
  rw [if_pos (by omega),show 4 * k + j - o = 4 * (k - m) + j by omega,
    List.getD_eq_getElem _ _ (by omega),List.getD_eq_getElem _ _ (by omega)]

end Lios

import Lios.Lib.ByteStore

/-! # Byte strings at an address

A memory holds a string from an address on when its cells there are the bytes of the string.
A format is written as a string that begins with the bytes of a number, the lowest first; a
load at its address then finds the number, whatever follows.
-/
namespace Lios
variable {w : ℕ} {m m' : BitVec w → BitVec 8} {a : BitVec w} {bs cs : List (BitVec 8)}

/-- The memory holds the string from the address `a` on. -/
def Spells (m : BitVec w → BitVec 8) (a : BitVec w) (bs : List (BitVec 8)) : Prop :=
  ∀ i b, bs[i]? = some b → m (a + BitVec.ofNat w i) = b

@[simp] theorem spells_nil : Spells m a [] := by
  intro i b h
  simp at h

theorem spells_append : Spells m a (bs ++ cs) ↔
    Spells m a bs ∧ Spells m (a + BitVec.ofNat w bs.length) cs := by
  constructor
  · refine fun h => ⟨fun i b hb => h i b ?_,fun i b hb => ?_⟩
    · obtain ⟨hi,-⟩ := List.getElem?_eq_some_iff.mp hb
      rw [List.getElem?_append_left hi,hb]
    · have hcell := h (bs.length + i) b
        (by rw [List.getElem?_append_right (Nat.le_add_right _ _),Nat.add_sub_cancel_left,hb])
      rw [add_assoc,← BitVec.ofNat_add]
      exact hcell
  · rintro ⟨hbs,hcs⟩ i b hb
    by_cases hi : i < bs.length
    · rw [List.getElem?_append_left hi] at hb
      exact hbs i b hb
    · rw [List.getElem?_append_right (by omega)] at hb
      have hcell := hcs (i - bs.length) b hb
      rw [add_assoc,← BitVec.ofNat_add,show bs.length + (i - bs.length) = i by omega] at hcell
      exact hcell

/-- A string depends on its own cells only. -/
theorem Spells.congr (h : Spells m a bs)
    (hm : ∀ i < bs.length, m' (a + BitVec.ofNat w i) = m (a + BitVec.ofNat w i)) :
    Spells m' a bs := by
  intro i b hb
  obtain ⟨hi,-⟩ := List.getElem?_eq_some_iff.mp hb
  rw [hm i hi,h i b hb]

theorem spells_store (m : BitVec w → BitVec 8) (h : bs.length ≤ 2 ^ w) :
    Spells (store m a bs) a bs := by
  intro i b hb
  obtain ⟨hi,-⟩ := List.getElem?_eq_some_iff.mp hb
  have hdist : (a + BitVec.ofNat w i - a).toNat = i := by
    rw [add_sub_cancel_left,BitVec.toNat_ofNat,Nat.mod_eq_of_lt (by omega)]
  rw [store,hdist,hb,Option.getD_some]

/-- Without its lowest bits a number is rounded down. -/
theorem and_not_mask {x mask : BitVec w} {k : ℕ} (h : ∀ i < w, mask.getLsbD i = decide (i < k)) :
    x &&& ~~~mask = x >>> k <<< k := by
  apply BitVec.eq_of_getLsbD_eq
  intro i hi
  rw [BitVec.getLsbD_and,BitVec.getLsbD_not,h i hi,BitVec.getLsbD_shiftLeft,
    BitVec.getLsbD_ushiftRight]
  by_cases hk : i < k
  · simp [hk]
  · simp [hk,hi,Nat.add_sub_of_le (not_lt.mp hk)]

/-! Numbers of four bytes. -/

def halfBytes (v : BitVec 32) : List (BitVec 8) :=
  (List.range 4).map fun k => v.extractLsb' (8 * k) 8

theorem load_of_spells {v : BitVec 64} (h : Spells m a (wordBytes v ++ bs)) : load m a = v := by
  have hcell (k : ℕ) (hk : k < 8) : m (a + BitVec.ofNat w k) = v.extractLsb' (8 * k) 8 := by
    apply (spells_append.mp h).1
    rw [wordBytes,List.getElem?_map,List.getElem?_range hk]
    rfl
  rw [load,word_congr hcell,word_bytes]

/-- The string behind the first number of eight bytes. -/
theorem Spells.after_word {v : BitVec 64} (h : Spells m a (wordBytes v ++ bs)) :
    Spells m (a + 8) bs := by
  have hrest := (spells_append.mp h).2
  rw [length_wordBytes] at hrest
  exact hrest

end Lios

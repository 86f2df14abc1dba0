import Mathlib.Data.List.Range

/-! # Equally spaced numbers

The values of the counter of a loop `for (i = a; i < b; i += d)`.
-/
namespace Lios

/-- The numbers `a`, `a + d`, `a + 2 * d`, … below `b`. -/
def steps (a b d : ℕ) : List ℕ := List.range' a ((b - a + (d - 1)) / d) d

variable {a b d x : ℕ}

theorem steps_of_le (hd : 0 < d) (h : b ≤ a) : steps a b d = [] := by
  rw [steps,Nat.sub_eq_zero_of_le h,Nat.div_eq_of_lt (by omega),List.range'_zero]

theorem steps_of_lt (hd : 0 < d) (h : a < b) : steps a b d = a :: steps (a + d) b d := by
  have hcount : (b - a + (d - 1)) / d = (b - (a + d) + (d - 1)) / d + 1 := by
    by_cases hb : a + d ≤ b
    · rw [← Nat.add_div_right _ hd]
      congr 1
      omega
    · rw [Nat.sub_eq_zero_of_le (by omega : b ≤ a + d),Nat.div_eq_of_lt (by omega : 0 + (d - 1) < d)]
      refine Nat.div_eq_of_lt_le ?_ ?_ <;> omega
  rw [steps,hcount,List.range'_succ,steps]

theorem length_steps : (steps a b d).length = (b - a + (d - 1)) / d := List.length_range'

theorem mem_steps (hd : 0 < d) : x ∈ steps a b d ↔ ∃ k, x = a + d * k ∧ x < b := by
  rw [steps,List.mem_range']
  refine exists_congr fun k => ?_
  rw [Nat.lt_div_iff_mul_lt hd,Nat.mul_comm k d]
  constructor
  · rintro ⟨hk,rfl⟩
    exact ⟨rfl,by omega⟩
  · rintro ⟨rfl,hk⟩
    exact ⟨by omega,rfl⟩

theorem getElem?_steps {k : ℕ} (hk : k < (steps a b d).length) :
    (steps a b d)[k]? = some (a + d * k) := by
  rw [length_steps] at hk
  rw [steps,List.getElem?_range' hk]

theorem mem_take_steps {r : ℕ} (hd : 0 < d) :
    x ∈ (steps a b d).take r ↔ ∃ k < r, x = a + d * k ∧ x < b := by
  constructor
  · intro hx
    obtain ⟨k,hk⟩ := List.mem_iff_getElem?.mp hx
    rw [List.getElem?_take] at hk
    split at hk
    · rename_i hkr
      obtain ⟨-,-,hlt⟩ := (mem_steps hd).mp (List.mem_of_mem_take hx)
      rw [getElem?_steps (List.getElem?_eq_some_iff.mp hk).1] at hk
      exact ⟨k,hkr,(Option.some.inj hk).symm,hlt⟩
    · cases hk
  · rintro ⟨k,hkr,rfl,hlt⟩
    have hk : k < (steps a b d).length := by
      rw [length_steps,Nat.lt_div_iff_mul_lt hd,Nat.mul_comm]
      omega
    refine List.mem_iff_getElem?.mpr ⟨k,?_⟩
    rw [List.getElem?_take_of_lt hkr,getElem?_steps hk]

/-- The first `r` pieces of length `d` end before `b`: there are none, `b` is at the end of a
piece, or there is room for all of them. -/
theorem take_steps_fit_iff {r : ℕ} (hd : 0 < d) :
    (∀ x ∈ (steps a b d).take r, x + d ≤ b) ↔ b ≤ a ∨ d ∣ b - a ∨ a + d * r ≤ b := by
  have hdiv := Nat.div_add_mod (b - a) d
  have hmod := Nat.mod_lt (b - a) hd
  constructor
  · intro h
    by_contra hno
    obtain ⟨hlt,hdvd,hlong⟩ : ¬ b ≤ a ∧ ¬ d ∣ b - a ∧ ¬ a + d * r ≤ b := by
      simpa only [not_or] using hno
    -- the piece that is only begun before `b`
    have hrest : 0 < (b - a) % d := Nat.pos_of_ne_zero fun hz => hdvd (Nat.dvd_of_mod_eq_zero hz)
    have hr : (b - a) / d < r := Nat.lt_of_mul_lt_mul_left (a := d) (by omega)
    have := h _ ((mem_take_steps hd).mpr ⟨(b - a) / d,hr,rfl,by omega⟩)
    omega
  · rintro h x hx
    obtain ⟨k,hkr,rfl,hlt⟩ := (mem_take_steps hd).mp hx
    have hle {m : ℕ} (hkm : k < m) : d * k + d ≤ d * m := by
      rw [← Nat.mul_succ]
      exact Nat.mul_le_mul_left d hkm
    rcases h with h | ⟨m,hm⟩ | h
    · omega
    · have := hle (Nat.lt_of_mul_lt_mul_left (a := d) (by omega) : k < m)
      omega
    · have := hle hkr
      omega

/-- Later numbers are at least one step away. -/
theorem pairwise_steps : (steps a b d).Pairwise fun x y => x + d ≤ y := by
  rw [steps]
  generalize (b - a + (d - 1)) / d = n
  induction n generalizing a with
  | zero => exact List.Pairwise.nil
  | succ n ih =>
    rw [List.range'_succ]
    refine List.pairwise_cons.mpr ⟨fun y hy => ?_,ih⟩
    obtain ⟨k,-,rfl⟩ := List.mem_range'.mp hy
    exact Nat.le_add_right _ _

end Lios

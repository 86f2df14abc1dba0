import Mathlib.Data.Nat.Init
import Mathlib.Algebra.Order.Ring.Nat
import Mathlib.Logic.Function.Basic

/-! # Slots of a ring written in order

A ring of `n` slots is written at the slots `0, 1, 2, …` modulo `n`. After `x`
writes a slot has been written once for every full lap and once more if the
current lap has passed it. Each slot holds what was written last into it, so the slot
that comes next holds what was written `n` writes ago.
-/
namespace Lios

/-- How often slot `j` has been written after `x` writes. -/
def laps (n x j : ℕ) : ℕ := x / n + if j < x % n then 1 else 0

variable {n x j : ℕ}

theorem laps_self : laps n x (x % n) = x / n := by simp [laps]

theorem succ_mod_of_lt (h : x % n + 1 < n) : (x + 1) % n = x % n + 1 := by
  rw [Nat.add_mod,Nat.mod_eq_of_lt (a := 1) (by omega),Nat.mod_eq_of_lt h]

theorem succ_div_of_lt (h : x % n + 1 < n) : (x + 1) / n = x / n := by
  rw [Nat.succ_div,if_neg,add_zero]
  intro hd
  have hz := Nat.mod_eq_zero_of_dvd hd
  rw [succ_mod_of_lt h] at hz
  omega

theorem succ_mod_of_eq (h : x % n + 1 = n) : (x + 1) % n = 0 := by
  rw [Nat.add_mod]
  rcases Nat.eq_or_lt_of_le (show 1 ≤ n by omega) with h1 | h1
  · rw [← h1,Nat.mod_one]
  · rw [Nat.mod_eq_of_lt h1,h,Nat.mod_self]

theorem succ_div_of_eq (h : x % n + 1 = n) : (x + 1) / n = x / n + 1 := by
  rw [Nat.succ_div,if_pos (Nat.dvd_of_mod_eq_zero (succ_mod_of_eq h))]

/-- The next write goes to the slot `x % n` and to no other. -/
theorem laps_succ (hn : 0 < n) (hj : j < n) :
    laps n (x + 1) j = if j = x % n then x / n + 1 else laps n x j := by
  have hx := Nat.mod_lt x hn
  unfold laps
  rcases Nat.lt_or_ge (x % n + 1) n with h | h
  · rw [succ_mod_of_lt h,succ_div_of_lt h]
    split_ifs <;> omega
  · have he : x % n + 1 = n := by omega
    rw [succ_mod_of_eq he,succ_div_of_eq he]
    split_ifs <;> omega

section Values
variable {α : Type} {ring : ℕ → α} {init : α} {log : List α}

theorem mod_ne_of_lt {i m : ℕ} (hi : i < m) (hm : m < i + n) : i % n ≠ m % n := by
  intro heq
  have hzero := Nat.sub_mod_eq_zero_of_mod_eq heq.symm
  rw [Nat.mod_eq_of_lt (by omega)] at hzero
  omega

/-- A ring of `n` slots with the value `init` after the values of `log` were written in order. -/
structure HoldsLog (n : ℕ) (init : α) (ring : ℕ → α) (log : List α) : Prop where
  recent : ∀ i (hi : i < log.length), log.length ≤ i + n → ring (i % n) = log[i]
  fresh : ∀ j < n, log.length ≤ j → ring j = init

theorem HoldsLog.write (h : HoldsLog n init ring log) (a : α) :
    HoldsLog n init (Function.update ring (log.length % n) a) (log ++ [a]) where
  recent i hi hlast := by
    rw [List.length_append,List.length_singleton] at hi hlast
    by_cases hnew : i = log.length
    · subst hnew
      rw [Function.update_self,List.getElem_concat_length rfl]
    · have hold : i < log.length := by omega
      rw [Function.update_of_ne (mod_ne_of_lt hold (by omega)),List.getElem_append_left hold]
      exact h.recent i hold (by omega)
  fresh j hj hlast := by
    rw [List.length_append,List.length_singleton] at hlast
    rw [Function.update_of_ne]
    · exact h.fresh j hj (by omega)
    · rw [Nat.mod_eq_of_lt (by omega)]
      omega

/-- The slot that is written next holds the value of the lap before. -/
theorem HoldsLog.next (hn : 0 < n) (h : HoldsLog n init ring log) :
    ring (log.length % n) = if n ≤ log.length then log.getD (log.length - n) init else init := by
  split
  · rename_i hfull
    have hi : log.length - n < log.length := by omega
    have hslot : (log.length - n) % n = log.length % n := (Nat.mod_eq_sub_mod hfull).symm
    rw [← hslot,h.recent _ hi (by omega),List.getD_eq_getElem?_getD,List.getElem?_eq_getElem hi]
    rfl
  · rename_i hfresh
    rw [Nat.mod_eq_of_lt (by omega)]
    exact h.fresh _ (by omega) le_rfl

end Values

end Lios

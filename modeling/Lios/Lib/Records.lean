import Mathlib.Data.List.Basic

/-! # Records of one size in a string of cells

A row of records, all of the same size, is stored without gaps. Dropping a record moves
the cells behind it forward; a loop does that cell by cell, in ascending order, in place
or into another string.
-/
namespace Lios
variable {β : Type} {e k n : ℕ} {xs : List (List β)}

/-- All records have the size `e`. -/
def Uniform (e : ℕ) (xs : List (List β)) : Prop := ∀ x ∈ xs, x.length = e

theorem take_congr {x y : List β} (h : ∀ i < n, x[i]? = y[i]?) : x.take n = y.take n := by
  refine List.ext_getElem? fun i => ?_
  rw [List.getElem?_take,List.getElem?_take]
  split
  · rename_i hi
    exact h i hi
  · rfl

theorem Uniform.cons {x : List β} (h : Uniform e (x :: xs)) : x.length = e ∧ Uniform e xs :=
  ⟨h x List.mem_cons_self,fun y hy => h y (List.mem_cons_of_mem _ hy)⟩

theorem Uniform.append_singleton {x : List β} (h : Uniform e xs) (hx : x.length = e) :
    Uniform e (xs ++ [x]) := by
  intro y hy
  rcases List.mem_append.mp hy with hy | hy
  · exact h y hy
  · rw [List.mem_singleton.mp hy,hx]

theorem Uniform.eraseIdx (h : Uniform e xs) (k : ℕ) : Uniform e (xs.eraseIdx k) :=
  fun x hx => h x (List.mem_of_mem_eraseIdx hx)

theorem Uniform.length_flatten (h : Uniform e xs) : xs.flatten.length = xs.length * e := by
  induction xs with
  | nil => simp
  | cons x xs ih =>
    obtain ⟨hx,hxs⟩ := h.cons
    rw [List.flatten_cons,List.length_append,hx,ih hxs,List.length_cons,Nat.succ_mul,Nat.add_comm]

theorem Uniform.take_flatten (h : Uniform e xs) (k : ℕ) :
    xs.flatten.take (k * e) = (xs.take k).flatten := by
  induction xs generalizing k with
  | nil => simp
  | cons x xs ih =>
    obtain ⟨hx,hxs⟩ := h.cons
    cases k with
    | zero => simp
    | succ k =>
      rw [List.take_succ_cons,List.flatten_cons,List.flatten_cons,← ih hxs k,Nat.succ_mul,
        Nat.add_comm,← hx,List.take_length_add_append]

theorem Uniform.drop_flatten (h : Uniform e xs) (k : ℕ) :
    xs.flatten.drop (k * e) = (xs.drop k).flatten := by
  induction xs generalizing k with
  | nil => simp
  | cons x xs ih =>
    obtain ⟨hx,hxs⟩ := h.cons
    cases k with
    | zero => simp
    | succ k =>
      rw [List.drop_succ_cons,List.flatten_cons,← ih hxs k,Nat.succ_mul,Nat.add_comm,← hx,
        List.drop_length_add_append]

theorem Uniform.flatten_eraseIdx (h : Uniform e xs) (k : ℕ) :
    (xs.eraseIdx k).flatten = xs.flatten.take (k * e) ++ xs.flatten.drop ((k + 1) * e) := by
  rw [List.eraseIdx_eq_take_drop_succ,List.flatten_append,h.take_flatten,h.drop_flatten]

/-- The cells that remain when a record is dropped from the beginning of a string. -/
theorem Uniform.flatten_eraseIdx_of_take {c : List β} (h : Uniform e xs)
    (hc : c.take (xs.length * e) = xs.flatten) (hk : k < xs.length) :
    c.take (k * e) ++ (c.drop (k * e + e)).take ((xs.length - 1) * e - k * e) =
      (xs.eraseIdx k).flatten := by
  have hle : k * e ≤ xs.length * e := Nat.mul_le_mul_right e (Nat.le_of_lt hk)
  have hrest : xs.length * e - (k + 1) * e = (xs.length - 1) * e - k * e := by
    rw [← Nat.sub_mul,← Nat.sub_mul,Nat.sub_sub,Nat.add_comm k 1]
  rw [h.flatten_eraseIdx,← hc,List.take_take,Nat.min_eq_left hle,List.drop_take,hrest,Nat.succ_mul]

/-- The first `n` records that are stored in a string. -/
def records (e n : ℕ) (c : List β) : List (List β) :=
  (List.range n).map fun j => (c.drop (j * e)).take e

theorem Uniform.records_flatten {c : List β} (h : Uniform e xs)
    (hc : c.take (xs.length * e) = xs.flatten) : records e xs.length c = xs := by
  refine List.ext_getElem? fun j => ?_
  rw [records,List.getElem?_map]
  by_cases hj : j < xs.length
  · have hle : (j + 1) * e ≤ xs.length * e := Nat.mul_le_mul_right e hj
    have hcut : (c.drop (j * e)).take e = ((c.take (xs.length * e)).drop (j * e)).take e := by
      rw [List.drop_take,List.take_take,Nat.min_eq_left]
      rw [Nat.succ_mul] at hle
      omega
    have hx := h _ (List.getElem_mem hj)
    rw [List.getElem?_range hj,Option.map_some,hcut,hc,h.drop_flatten,
      List.drop_eq_getElem_cons hj,List.flatten_cons,List.take_left' hx,List.getElem?_eq_getElem hj]
  · rw [List.getElem?_eq_none (by simpa using hj),List.getElem?_eq_none (by omega)]
    rfl

/-- The string `x` after the cells from `a` to `b` were replaced by those of `y` that lie `d`
places further on. -/
def copied (x y : List β) (a b d : ℕ) : List β :=
  x.take a ++ (y.drop (a + d)).take (b - a) ++ x.drop b

variable {x y : List β} {a b d : ℕ}

@[simp] theorem copied_self : copied x y a a d = x := by
  rw [copied,Nat.sub_self,List.take_zero,List.append_nil,List.take_append_drop]

/-- The loop goes on with the next cell. -/
theorem copied_succ {v : β} (hab : a < b) (hb : b ≤ x.length) (hv : y[a + d]? = some v) :
    copied (x.set a v) y (a + 1) b d = copied x y a b d := by
  obtain ⟨hlt,rfl⟩ := List.getElem?_eq_some_iff.mp hv
  have htake : (x.set a y[a + d]).take (a + 1) = x.take a ++ [y[a + d]] := by
    rw [List.take_succ_eq_append_getElem (by rw [List.length_set]; omega),List.getElem_set_self,
      List.take_set_of_le (Nat.le_refl _)]
  rw [copied,copied,htake,List.drop_set_of_lt hab,List.drop_eq_getElem_cons hlt,
    show b - a = (b - (a + 1)) + 1 by omega,List.take_succ_cons,show a + 1 + d = a + d + 1 by omega]
  simp

theorem length_copied (hab : a ≤ b) (hb : b ≤ x.length) (hy : b + d ≤ y.length) :
    (copied x y a b d).length = x.length := by
  simp only [copied,List.length_append,List.length_take,List.length_drop]
  omega

theorem take_copied (hab : a ≤ b) (hb : b ≤ x.length) (hy : b + d ≤ y.length) :
    (copied x y a b d).take b = x.take a ++ (y.drop (a + d)).take (b - a) := by
  rw [copied,List.take_left']
  simp only [List.length_append,List.length_take,List.length_drop]
  omega

end Lios

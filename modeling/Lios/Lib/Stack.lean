import Lios.Lib.ByteFormat

/-! # Words on a stack

A stack grows towards lower addresses; its words, the last pushed first, are those from the stack
pointer on. A push writes below the pointer and changes nothing from the pointer on, as long as
the stack is not as large as the address space.
-/
namespace Lios
variable {m m' : BitVec 64 → BitVec 8} {p x v : BitVec 64} {ws : List (BitVec 64)}

/-- The words `ws` lie one behind the other from the address `p` on. -/
def Holds (m : BitVec 64 → BitVec 8) : BitVec 64 → List (BitVec 64) → Prop
  | _,[] => True
  | p,v :: ws => load m p = v ∧ Holds m (p + 8#64) ws

theorem holds_cons : Holds m p (v :: ws) ↔ load m p = v ∧ Holds m (p + 8#64) ws := Iff.rfl

theorem toNat_sub_of_next (h : (x - (p + 8#64)).toNat + 8 < 2 ^ 64) :
    (x - p).toNat = (x - (p + 8#64)).toNat + 8 := by
  have hsum : x - p = x - (p + 8#64) + 8#64 := by
    rw [sub_add_eq_sub_sub,sub_add_cancel]
  rw [hsum,BitVec.toNat_add,BitVec.toNat_ofNat]
  omega

/-- The words depend on their own bytes only. -/
theorem Holds.congr (h : Holds m p ws) (hlen : 8 * ws.length ≤ 2 ^ 64)
    (hm : ∀ x, (x - p).toNat < 8 * ws.length → m' x = m x) : Holds m' p ws := by
  induction ws generalizing p with
  | nil => trivial
  | cons v ws ih =>
    rw [List.length_cons] at hlen hm
    obtain ⟨hv,hws⟩ := h
    refine ⟨?_,ih hws (by omega) fun x hx => hm x ?_⟩
    · rw [← hv]
      exact load_congr fun x hx => hm x (by omega)
    · rw [toNat_sub_of_next (by omega)]
      omega

/-- A push puts its word before the others. -/
theorem Holds.push (h : Holds m p ws) (hlen : 8 * ws.length + 8 ≤ 2 ^ 64) (v : BitVec 64) :
    Holds (store m (p - 8#64) (wordBytes v)) (p - 8#64) (v :: ws) := by
  refine ⟨load_store (by decide) v,?_⟩
  rw [sub_add_cancel]
  apply h.congr (by omega)
  intro x hx
  have hdist := toNat_sub_of_next (x := x) (p := p - 8#64) (by rw [sub_add_cancel]; omega)
  rw [sub_add_cancel] at hdist
  exact store_of_le (by rw [length_wordBytes]; omega)

theorem Holds.getElem (h : Holds m p ws) {i : ℕ} (hi : i < ws.length) :
    load m (p + BitVec.ofNat 64 (8 * i)) = ws[i] := by
  induction ws generalizing p i with
  | nil => simp at hi
  | cons v ws ih =>
    cases i with
    | zero =>
      have hzero : p + BitVec.ofNat 64 (8 * 0) = p := by simp
      rw [hzero,h.1,List.getElem_cons_zero]
    | succ i =>
      have hnext : p + BitVec.ofNat 64 (8 * (i + 1)) = p + 8#64 + BitVec.ofNat 64 (8 * i) := by
        rw [Nat.mul_succ,Nat.add_comm,BitVec.ofNat_add,add_assoc]
      rw [hnext,ih h.2 (by simpa using hi),List.getElem_cons_succ]

theorem holds_append {vs : List (BitVec 64)} : Holds m p (vs ++ ws) ↔
    Holds m p vs ∧ Holds m (p + BitVec.ofNat 64 (8 * vs.length)) ws := by
  induction vs generalizing p with
  | nil => simp [Holds]
  | cons v vs ih =>
    have hnext : p + BitVec.ofNat 64 (8 * (v :: vs).length) =
        p + 8#64 + BitVec.ofNat 64 (8 * vs.length) := by
      rw [List.length_cons,Nat.mul_succ,Nat.add_comm,BitVec.ofNat_add,add_assoc]
    rw [List.cons_append,holds_cons,holds_cons,ih,hnext,and_assoc]

theorem length_flatMap_range {α : Type} {f : ℕ → List α} {k n : ℕ} (hk : ∀ i < n, (f i).length = k) :
    ((List.range n).flatMap f).length = n * k := by
  rw [List.length_flatMap,List.map_congr_left fun i hi => hk i (List.mem_range.mp hi)]
  simp

/-- Tables of `k` words each, one behind the other. -/
theorem Holds.flatMap_range {f : ℕ → List (BitVec 64)} {k n : ℕ} (hk : ∀ i < n, (f i).length = k)
    (h : Holds m p ((List.range n).flatMap f)) {i : ℕ} (hi : i < n) :
    Holds m (p + BitVec.ofNat 64 (8 * k * i)) (f i) := by
  induction n with
  | zero => omega
  | succ n ih =>
    have hk' : ∀ i < n, (f i).length = k := fun i hi => hk i (by omega)
    rw [List.range_succ,List.flatMap_append,holds_append,length_flatMap_range hk'] at h
    by_cases hlast : i = n
    · rw [hlast,Nat.mul_assoc,Nat.mul_comm k n]
      simpa using h.2
    · exact ih hk' h.1 (by omega)

theorem length_flatMap_wordBytes (ws : List (BitVec 64)) :
    (ws.flatMap wordBytes).length = 8 * ws.length := by
  induction ws with
  | nil => rfl
  | cons v ws ih =>
    rw [List.flatMap_cons,List.length_append,length_wordBytes,ih,List.length_cons]
    omega

/-- A string of words, the bytes of each lowest first. -/
theorem Spells.holds (h : Spells m p (ws.flatMap wordBytes)) : Holds m p ws := by
  induction ws generalizing p with
  | nil => trivial
  | cons v ws ih =>
    rw [List.flatMap_cons] at h
    exact ⟨load_of_spells h,ih h.after_word⟩

end Lios

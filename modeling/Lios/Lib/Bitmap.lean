import Lios.Lib.ByteStore

/-! # Bitmaps and the first fit in them

A bitmap is a row of bytes whose bits are counted from the highest bit of a byte
on. A scan for a row of free bits keeps the number of free bits it has just seen.
What it knows is `Scanned`; its rules say how a used bit, a row of free bits and the
end of the bitmap are dealt with, and that the first row found is the lowest one.
-/
namespace Lios

def bitAt (mem : ℕ → BitVec 8) (j : ℕ) : Bool := (mem (j / 8)).getLsbD (7 - j % 8)

section Bits
variable {mem mem' : ℕ → BitVec 8} {i j : ℕ}

theorem bitAt_update (v : BitVec 8) : bitAt (Function.update mem i v) j =
    if j / 8 = i then v.getLsbD (7 - j % 8) else bitAt mem j := by
  rw [bitAt,Function.update_apply]
  split <;> rfl

theorem byte_eq_iff : mem i = mem' i ↔ ∀ j, j / 8 = i → bitAt mem j = bitAt mem' j := by
  constructor
  · intro h j hj
    rw [bitAt,bitAt,hj,h]
  · intro h
    refine BitVec.eq_of_getLsbD_eq fun k hk => ?_
    have hbit := h (8 * i + (7 - k)) (by omega)
    rwa [bitAt,bitAt,show (8 * i + (7 - k)) / 8 = i by omega,
      show 7 - (8 * i + (7 - k)) % 8 = k by omega] at hbit

theorem eq_of_bitAt (h : ∀ j, bitAt mem j = bitAt mem' j) : mem = mem' :=
  funext fun _ => byte_eq_iff.mpr fun j _ => h j

theorem byte_eq_zero_iff : mem i = 0#8 ↔ ∀ j, j / 8 = i → bitAt mem j = false := by
  have hiff := @byte_eq_iff mem (fun _ => 0#8) i
  simpa only [bitAt,BitVec.getLsbD_zero] using hiff

theorem bitAt_of_word_eq_zero (h : word (fun k => mem (i + k)) = 0#64) (hlo : 8 * i ≤ j)
    (hhi : j < 8 * i + 64) : bitAt mem j = false := by
  have hbyte := byte_of_word (fun k => mem (i + k)) (k := j / 8 - i) (by omega)
  rw [h,BitVec.extractLsb'_zero,show i + (j / 8 - i) = j / 8 by omega] at hbyte
  exact byte_eq_zero_iff.mp hbyte.symm j rfl

end Bits

/-- A row of `needed` free bits begins at `b`. -/
def FitsAt (used : ℕ → Bool) (size needed b : ℕ) : Prop :=
  b + needed ≤ size ∧ ∀ j, b ≤ j → j < b + needed → used j = false

/-- The answer of a first fit search. -/
def FirstFit (used : ℕ → Bool) (size needed : ℕ) : Option ℕ → Prop
  | none => ∀ b, ¬ FitsAt used size needed b
  | some b => FitsAt used size needed b ∧ ∀ c < b, ¬ FitsAt used size needed c

section FirstFit
variable {used : ℕ → Bool} {size needed needed' : ℕ}

theorem FirstFit.mono (h : FirstFit used size needed none) (hle : needed ≤ needed') :
    FirstFit used size needed' none :=
  fun b hb => h b ⟨by have := hb.1; omega,fun j hj hj' => hb.2 j hj (by omega)⟩

theorem FirstFit.unique {r r' : Option ℕ} (h : FirstFit used size needed r)
    (h' : FirstFit used size needed r') : r = r' := by
  cases r with
  | none =>
    cases r' with
    | none => rfl
    | some b => exact absurd h'.1 (h b)
  | some b =>
    cases r' with
    | none => exact absurd h.1 (h' b)
    | some c =>
      rcases lt_trichotomy b c with hlt | rfl | hlt
      · exact absurd h.1 (h'.2 b hlt)
      · rfl
      · exact absurd h'.1 (h.2 c hlt)

/-- In an empty bitmap the first row begins at zero. -/
theorem FirstFit.of_free {r : Option ℕ} (h : FirstFit used size needed r)
    (hfree : ∀ j < size, used j = false) :
    (needed ≤ size ∧ r = some 0) ∨ (size < needed ∧ r = none) := by
  have hzero (hle : needed ≤ size) : FitsAt used size needed 0 :=
    ⟨by omega,fun j _ hj => hfree j (by omega)⟩
  cases r with
  | none =>
    refine .inr ⟨?_,rfl⟩
    by_contra hle
    exact h 0 (hzero (by omega))
  | some b =>
    obtain ⟨hfit,hfirst⟩ := h
    have hle : needed ≤ size := by
      have hend := hfit.1
      omega
    refine .inl ⟨hle,?_⟩
    by_contra hb
    exact hfirst 0 (Nat.pos_of_ne_zero fun h0 => hb (by rw [h0])) (hzero hle)

end FirstFit

/-- The bits below `i` were scanned: the last `found` of them are free, and no row that
begins before these fits. -/
structure Scanned (used : ℕ → Bool) (size needed i found start : ℕ) : Prop where
  le : found ≤ i
  lt : found < needed
  free : ∀ j, i ≤ j + found → j < i → used j = false
  before : ∀ b, b + found < i → ¬ FitsAt used size needed b
  start : 0 < found → start + found = i

namespace Scanned
variable {used : ℕ → Bool} {size needed i found start : ℕ}

theorem init (h : 0 < needed) : Scanned used size needed 0 0 start :=
  ⟨le_rfl,h,fun j _ hj => absurd hj (by omega),fun b hb => absurd hb (by omega),
    fun h => absurd h (by omega)⟩

/-- No row that reaches over `i` fits when the bit `i` is used. -/
theorem step_used (h : Scanned used size needed i found start) (hu : used i = true) (start' : ℕ) :
    Scanned used size needed (i + 1) 0 start' := by
  have hlt := h.lt
  refine ⟨by omega,by omega,fun j hj hj' => absurd hj (by omega),fun b hb hfit => ?_,
    fun h => absurd h (by omega)⟩
  by_cases hold : b + found < i
  · exact h.before b hold hfit
  · have hfree := hfit.2 i (by omega) (by omega)
    rw [hu] at hfree
    exact Bool.false_ne_true hfree.symm

theorem step_free {n : ℕ} (h : Scanned used size needed i found start)
    (hfree : ∀ j, i ≤ j → j < i + n → used j = false) (hn : found + n < needed) :
    Scanned used size needed (i + n) (found + n) (if found = 0 then i else start) := by
  have hle := h.le
  refine ⟨by omega,hn,fun j hj hj' => ?_,fun b hb => h.before b (by omega),fun _ => ?_⟩
  · by_cases hi : i ≤ j
    · exact hfree j hi hj'
    · exact h.free j (by omega) (by omega)
  · split
    · omega
    · have hstart := h.start (by omega)
      omega

theorem step_found (h : Scanned used size needed i found start) (hi : i < size)
    (hfree : used i = false) (hn : found + 1 = needed) :
    FirstFit used size needed (some (if found = 0 then i else start)) := by
  have hle := h.le
  have hbegin : (if found = 0 then i else start) + found = i := by
    split
    · omega
    · exact h.start (by omega)
  refine ⟨⟨by omega,fun j hj hj' => ?_⟩,fun c hc => h.before c (by omega)⟩
  by_cases hij : j = i
  · rw [hij,hfree]
  · exact h.free j (by omega) (by omega)

theorem finish (h : Scanned used size needed i found start) (hi : size ≤ i) :
    FirstFit used size needed none := by
  intro b hfit
  have hlt := h.lt
  have hend := hfit.1
  exact h.before b (by omega) hfit

end Scanned

end Lios

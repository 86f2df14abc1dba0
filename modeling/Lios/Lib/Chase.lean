import Mathlib.Data.Finset.Card
import Mathlib.Data.Finset.Range
import Mathlib.Logic.Function.Iterate
import Lios.Lib.Outcome

/-! # Loops that follow a function

A loop that goes from a point to the next one until a round ends it. It ends exactly if one of
the points has a round that ends it; and if the points before it are among `n` points, then there
are at most `n` of them, as a walk that repeats a point never ends.
-/
namespace Lios
variable {σ α β : Type} {round : α → Option (Outcome σ β)} {next : α → α} {a : α}
  {o : Outcome σ β} {k : ℕ}

/-- The loop with the result of the first round that has one. -/
def chase (round : α → Option (Outcome σ β)) (next : α → α) : ℕ → α → Outcome σ β
  | 0,_ => .spin
  | fuel + 1,a => (round a).getD (chase round next fuel (next a))

/-- The round at the `k`-th point is the first one with a result, and the result is `o`. -/
structure EndsAt (round : α → Option (Outcome σ β)) (next : α → α) (a : α) (k : ℕ)
    (o : Outcome σ β) : Prop where
  result : round (next^[k] a) = some o
  before : ∀ j < k, round (next^[j] a) = none

theorem EndsAt.chase_eq (h : EndsAt round next a k o) {fuel : ℕ} (hfuel : k < fuel) :
    chase round next fuel a = o := by
  induction fuel generalizing a k with
  | zero => exact absurd hfuel (Nat.not_lt_zero k)
  | succ fuel ih =>
    rw [chase]
    cases k with
    | zero =>
      have hresult : round a = some o := h.result
      rw [hresult,Option.getD_some]
    | succ k =>
      have hfirst : round a = none := h.before 0 (Nat.succ_pos k)
      rw [hfirst,Option.getD_none]
      exact ih ⟨h.result,fun j hj => h.before (j + 1) (by omega)⟩ (by omega)

theorem chase_of_none {fuel : ℕ} (h : ∀ j < fuel, round (next^[j] a) = none) :
    chase round next fuel a = .spin := by
  induction fuel generalizing a with
  | zero => rfl
  | succ fuel ih =>
    have hfirst : round a = none := h 0 (Nat.succ_pos fuel)
    rw [chase,hfirst,Option.getD_none]
    exact ih fun j hj => h (j + 1) (by omega)

theorem exists_endsAt (h : round (next^[k] a) ≠ none) : ∃ j ≤ k, ∃ o, EndsAt round next a j o := by
  induction k using Nat.strong_induction_on with
  | _ k ih =>
    by_cases hbefore : ∀ j < k, round (next^[j] a) = none
    · obtain ⟨o,ho⟩ := Option.ne_none_iff_exists'.mp h
      exact ⟨k,le_rfl,o,ho,hbefore⟩
    · push Not at hbefore
      obtain ⟨j,hj,hne⟩ := hbefore
      obtain ⟨i,hi,o,ho⟩ := ih j hj hne
      exact ⟨i,hi.trans hj.le,o,ho⟩

/-- The loop settles for every large enough fuel if and only if a round ends it and settles. -/
theorem chase_settled_iff : (∃ m, ∀ fuel ≥ m, (chase round next fuel a).Settled) ↔
    ∃ k o, EndsAt round next a k o ∧ o.Settled := by
  constructor
  · rintro ⟨m,hm⟩
    by_cases hnone : ∀ j < m, round (next^[j] a) = none
    · have hspin := hm m le_rfl
      rw [chase_of_none hnone] at hspin
      exact hspin.elim
    · push Not at hnone
      obtain ⟨j,hj,hne⟩ := hnone
      obtain ⟨i,hi,o,ho⟩ := exists_endsAt hne
      refine ⟨i,o,ho,?_⟩
      have hdone := hm m le_rfl
      rwa [ho.chase_eq (by omega)] at hdone
  · rintro ⟨k,o,hk,ho⟩
    refine ⟨k + 1,fun fuel hfuel => ?_⟩
    rw [hk.chase_eq hfuel]
    exact ho

/-- No point comes back before the walk ends. -/
theorem EndsAt.injOn (h : EndsAt round next a k o) :
    ∀ i ≤ k, ∀ j ≤ k, next^[i] a = next^[j] a → i = j := by
  -- a point that comes back at `j` would bring the end `j - i` steps earlier
  have hlt : ∀ i j, i < j → j ≤ k → next^[i] a ≠ next^[j] a := by
    intro i j hij hjk heq
    have hback : next^[k - j + i] a = next^[k] a := by
      rw [Function.iterate_add_apply,heq,← Function.iterate_add_apply,Nat.sub_add_cancel hjk]
    have hnone := h.before (k - j + i) (by omega)
    rw [hback,h.result] at hnone
    cases hnone
  intro i hi j hj heq
  rcases Nat.lt_trichotomy i j with hij | hij | hij
  · exact absurd heq (hlt i j hij hj)
  · exact hij
  · exact absurd heq.symm (hlt j i hij hi)

/-- If the first `m` points have a number below `n` each, then there are at most `n` of them. -/
theorem EndsAt.le_of_index (h : EndsAt round next a k o) {m n : ℕ} {index : α → ℕ}
    (hindex : Function.Injective index) (hm : m ≤ k + 1)
    (hlt : ∀ j < m, index (next^[j] a) < n) : m ≤ n := by
  have hmaps : ∀ j ∈ Finset.range m, index (next^[j] a) ∈ Finset.range n :=
    fun j hj => Finset.mem_range.mpr (hlt j (Finset.mem_range.mp hj))
  have hinj : Set.InjOn (fun j => index (next^[j] a)) (Finset.range m) := by
    intro i hi j hj heq
    have hi' := Finset.mem_range.mp hi
    have hj' := Finset.mem_range.mp hj
    exact h.injOn i (by omega) j (by omega) (hindex heq)
  have hcard := Finset.card_le_card_of_injOn _ hmaps hinj
  rwa [Finset.card_range,Finset.card_range] at hcard

end Lios

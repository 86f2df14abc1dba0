import Mathlib.Logic.Function.Basic
import Mathlib.Order.Basic

/-! # Labelled runs of a transition relation

A run of length `n` is a sequence of states with the labels of the steps between
them. What one step preserves, a run preserves. The last rule is for a property
that survives exactly the steps that meet a guard: it holds in every state of a
run if and only if every step of the run meets the guard in the state before it.
-/
namespace Lios
variable {S L : Type} {step : S → L → S → Prop} {n : ℕ} {st : ℕ → S} {op : ℕ → L}

def IsRun (step : S → L → S → Prop) (n : ℕ) (st : ℕ → S) (op : ℕ → L) : Prop :=
  ∀ i < n, step (st i) (op i) (st (i + 1))

theorem IsRun.invariant {I : S → Prop} {G : S → L → Prop} (hr : IsRun step n st op)
    (h0 : I (st 0)) (hI : ∀ s l t, I s → step s l t → G s l → I t)
    (hG : ∀ i < n, G (st i) (op i)) : ∀ i ≤ n, I (st i) := by
  intro i hi
  induction i with
  | zero => exact h0
  | succ i ih => exact hI _ _ _ (ih (by omega)) (hr i (by omega)) (hG i (by omega))

theorem IsRun.forall_iff_guards {I P : S → Prop} {G : S → L → Prop}
    (hr : IsRun step n st op) (h0 : I (st 0)) (hP : ∀ s, I s → P s)
    (hI : ∀ s l t, I s → step s l t → G s l → I t)
    (hB : ∀ s l t, I s → step s l t → ¬ G s l → ¬ P t) :
    (∀ i ≤ n, P (st i)) ↔ ∀ i < n, G (st i) (op i) := by
  constructor
  · intro h
    have hguard : ∀ i < n, I (st i) → G (st i) (op i) := by
      intro i hi hs
      by_contra hg
      exact hB _ _ _ hs (hr i hi) hg (h (i + 1) hi)
    have hinv : ∀ i ≤ n, I (st i) := by
      intro i hi
      induction i with
      | zero => exact h0
      | succ i ih =>
        have hs := ih (by omega)
        exact hI _ _ _ hs (hr i (by omega)) (hguard i (by omega) hs)
    exact fun i hi => hguard i hi (hinv i (by omega))
  · intro h i hi
    exact hP _ (hr.invariant h0 hI h i hi)

end Lios

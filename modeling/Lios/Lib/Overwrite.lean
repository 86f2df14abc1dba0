import Mathlib.Data.Set.Function
import Mathlib.Data.Set.Lattice
import Lios.Lib.Loops

/-! # Overwriting part of a state

A state is seen through a view, a value for each index. A computation that overwrites the
indices in `A` after a target `g` leaves the other indices and the rest of the state as they
are. Such computations compose, and a loop of them overwrites what its rounds do.
-/
namespace Lios
variable {σ ρ ι α : Type} {rest : σ → ρ} {view : σ → ι → α} {D A B : Set ι} {g : ι → α} {s t u : σ}

structure Overwrites (rest : σ → ρ) (view : σ → ι → α) (D : Set ι) (g : ι → α) (A : Set ι)
    (s t : σ) : Prop where
  same : rest t = rest s
  drawn : Set.EqOn (view t) g (D ∩ A)
  kept : Set.EqOn (view t) (view s) (D \ A)

namespace Overwrites

theorem refl (s : σ) : Overwrites rest view D g ∅ s s :=
  ⟨rfl,fun _ h => h.2.elim,fun _ _ => rfl⟩

theorem congr (h : Overwrites rest view D g A s t) (hAB : ∀ i ∈ D, (i ∈ B ↔ i ∈ A)) :
    Overwrites rest view D g B s t :=
  ⟨h.same,fun i hi => h.drawn ⟨hi.1,(hAB i hi.1).mp hi.2⟩,
    fun i hi => h.kept ⟨hi.1,fun hA => hi.2 ((hAB i hi.1).mpr hA)⟩⟩

theorem trans (h₁ : Overwrites rest view D g A s t) (h₂ : Overwrites rest view D g B t u) :
    Overwrites rest view D g (A ∪ B) s u := by
  refine ⟨h₂.same.trans h₁.same,fun i hi => ?_,fun i hi => ?_⟩
  · by_cases hB : i ∈ B
    · exact h₂.drawn ⟨hi.1,hB⟩
    · rw [h₂.kept ⟨hi.1,hB⟩]
      exact h₁.drawn ⟨hi.1,hi.2.resolve_right hB⟩
  · have hB : i ∉ B := fun h => hi.2 (.inr h)
    rw [h₂.kept ⟨hi.1,hB⟩]
    exact h₁.kept ⟨hi.1,fun h => hi.2 (.inl h)⟩

/-- Overwriting the same indices once more. -/
theorem again {g' : ι → α} (h₁ : Overwrites rest view D g A s t)
    (h₂ : Overwrites rest view D g' A t u) : Overwrites rest view D g' A s u :=
  ⟨h₂.same.trans h₁.same,h₂.drawn,fun _ hi => (h₂.kept hi).trans (h₁.kept hi)⟩

theorem of_eqOn {g' : ι → α} (h : Overwrites rest view D g A s t) (hg : Set.EqOn g g' (D ∩ A)) :
    Overwrites rest view D g' A s t :=
  ⟨h.same,h.drawn.trans hg,h.kept⟩

/-- A round may use what the rounds before it have done. -/
theorem forTo {w : ℕ} {n : BitVec w} {f : BitVec w → σ → Outcome σ Unit} {A : ℕ → Set ι}
    (hf : ∀ i t, i < n → Overwrites rest view D g {p | ∃ j < i.toNat, p ∈ A j} s t →
      ∃ u, f i t = .done () u ∧ Overwrites rest view D g (A i.toNat) t u) :
    ∃ t, Outcome.forTo n f s = .done () t ∧
      Overwrites rest view D g {p | ∃ j < n.toNat, p ∈ A j} s t := by
  refine Outcome.forTo_rule
    (P := fun k t => Overwrites rest view D g {p | ∃ j < k, p ∈ A j} s t) ?_ ?_
  · exact (refl s).congr fun i _ => by simp
  · intro i t hi ht
    obtain ⟨u,hu,hover⟩ := hf i t hi ht
    refine ⟨u,hu,(ht.trans hover).congr fun p _ => ?_⟩
    simp only [Set.mem_ofPred_eq,Set.mem_union,Nat.lt_succ_iff_lt_or_eq,or_and_right,exists_or,
      exists_eq_left]

end Overwrites

end Lios

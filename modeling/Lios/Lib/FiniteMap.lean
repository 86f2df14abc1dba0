import Mathlib.Data.Multiset.UnionInter
import Mathlib.Logic.Function.Basic

/-! # Multisets of pairs that are the graph of a map -/
namespace Lios
variable {α β : Type} {m : α → Option β} {out : Multiset (α × β)} {k : α} {z : β}

/-- The pairs of `out` are those of the finite map `m`, each once. -/
structure IsGraph (m : α → Option β) (out : Multiset (α × β)) : Prop where
  nodup : out.Nodup
  mem_iff : ∀ k z, (k,z) ∈ out ↔ m k = some z

theorem isGraph_zero : IsGraph (fun _ => none) (0 : Multiset (α × β)) :=
  ⟨Multiset.nodup_zero,fun _ _ => by simp⟩

theorem IsGraph.unique {z' : β} (h : IsGraph m out) (hk : m k = some z) (hz : (k,z') ∈ out) :
    z' = z := by
  have hk' := (h.mem_iff k z').mp hz
  rw [hk] at hk'
  exact (Option.some.inj hk').symm

theorem IsGraph.absent (h : IsGraph m out) (hk : m k = none) (z : β) : (k,z) ∉ out := by
  rw [h.mem_iff,hk]
  exact nofun

section Update
variable [DecidableEq α]

theorem IsGraph.insert (h : IsGraph m out) (hk : m k = none) (z : β) :
    IsGraph (Function.update m k (some z)) ({(k,z)} + out) := by
  refine ⟨?_,fun j y => ?_⟩
  · rw [Multiset.singleton_add,Multiset.nodup_cons]
    exact ⟨h.absent hk z,h.nodup⟩
  · rw [Multiset.singleton_add,Multiset.mem_cons,h.mem_iff,Prod.mk.injEq]
    by_cases hj : j = k
    · subst hj
      simp [hk,eq_comm]
    · simp [hj]

theorem IsGraph.erase [DecidableEq β] (h : IsGraph m out) (hk : m k = some z) :
    IsGraph (Function.update m k none) (out.erase (k,z)) := by
  refine ⟨h.nodup.erase _,fun j y => ?_⟩
  rw [h.nodup.mem_erase_iff,h.mem_iff,Ne,Prod.mk.injEq]
  by_cases hj : j = k
  · subst hj
    simp [hk,eq_comm]
  · simp [hj]

end Update

end Lios

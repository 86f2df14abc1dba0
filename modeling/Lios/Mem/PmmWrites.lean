import Lios.Mem.PmmBuild

/-! # The bytes that the initialisation writes

The manager writes into the nodes that it has placed and nowhere else. The nodes are found
through pointers in memory, so this needs the invariants under which the pointers lead to nodes.
-/
namespace Lios
namespace PmmInit

/-- From `s` to `t` no byte has changed but those of the nodes `ps`. -/
def Touches (ps : List ℕ) (s t : PmmInit) : Prop :=
  ∀ x : U64, (∀ p ∈ ps, 16 ≤ (x - pointer p).toNat) → t.bytes x = s.bytes x

section Touches
variable {ps qs : List ℕ} {s t u : PmmInit} {p : ℕ}

theorem Touches.refl (ps : List ℕ) (s : PmmInit) : Touches ps s s := fun _ _ => rfl

theorem Touches.trans (h : Touches ps s t) (h' : Touches ps t u) : Touches ps s u :=
  fun x hx => (h' x hx).trans (h x hx)

theorem Touches.mono (h : Touches ps s t) (hsub : ps ⊆ qs) : Touches qs s t :=
  fun x hx => h x fun p hp => hx p (hsub hp)

end Touches

section Blocks
variable {s t : PmmInit} {L : Layout} {start stop : U64} {fuel : ℕ}

end Blocks

end PmmInit
end Lios

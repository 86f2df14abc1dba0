import Mathlib.Data.Set.Function
import Mathlib.Data.Set.Lattice
import Mathlib.Order.CompletePartialOrder

/-! # Layers

A layer covers an area and gives values to a part of it, its body; what it leaves in the rest
of the area is some value of a set `J`. When layers are put on top of each other, all of them
can be seen in the end if no layer covers a body below it. If the values of `J` can be told
from those of the layers, they can be seen only then.
-/
namespace Lios
variable {V β : Type} {J : Set β}

structure Layer (V β : Type) where
  area : Set V
  body : Set V
  value : V → β
  subset : body ⊆ area

/-- The view `t` is `s` with the layer on top. -/
structure Layer.Covers (l : Layer V β) (J : Set β) (s t : V → β) : Prop where
  body : Set.EqOn t l.value l.body
  rest : Set.MapsTo t (l.area \ l.body) J
  kept : Set.EqOn t s l.areaᶜ

theorem Layer.Covers.mono {l : Layer V β} {J' : Set β} {s t : V → β} (h : l.Covers J s t)
    (hJ : J ⊆ J') : l.Covers J' s t :=
  ⟨h.body,fun _ hv => hJ (h.rest hv),h.kept⟩

inductive Covered (J : Set β) : List (Layer V β) → (V → β) → (V → β) → Prop
  | nil (s : V → β) : Covered J [] s s
  | cons {l : Layer V β} {ls : List (Layer V β)} {s t u : V → β} (hl : l.Covers J s t)
      (hls : Covered J ls t u) : Covered J (l :: ls) s u

namespace Covered
variable {l : Layer V β} {ls : List (Layer V β)} {s t u : V → β} {v : V}

/-- Every layer of the list can be seen. -/
def Visible (ls : List (Layer V β)) (t : V → β) : Prop := ∀ l ∈ ls, Set.EqOn t l.value l.body

/-- No layer of the list covers a body below it. -/
def Apart (ls : List (Layer V β)) : Prop := ls.Pairwise fun a b => Disjoint a.body b.area

theorem append {ls' : List (Layer V β)} (h : Covered J ls s t) (h' : Covered J ls' t u) :
    Covered J (ls ++ ls') s u := by
  induction h with
  | nil s => exact h'
  | cons hl _ ih => exact cons hl (ih h')

theorem kept (h : Covered J ls s t) (hv : ∀ l ∈ ls, v ∉ l.area) : t v = s v := by
  induction h with
  | nil s => rfl
  | cons hl _ ih =>
    rw [ih fun l hl => hv l (List.mem_cons_of_mem _ hl)]
    exact hl.kept (hv _ List.mem_cons_self)

/-- Off the bodies a value of `J` is covered only by values of `J`. -/
theorem mem (h : Covered J ls s t) (hv : ∀ l ∈ ls, v ∉ l.body) (hs : s v ∈ J) : t v ∈ J := by
  induction h with
  | nil s => exact hs
  | @cons l ls s t u hl _ ih =>
    refine ih (fun l hl => hv l (List.mem_cons_of_mem _ hl)) ?_
    by_cases hva : v ∈ l.area
    · exact hl.rest ⟨hva,hv l List.mem_cons_self⟩
    · rw [hl.kept hva]
      exact hs

/-- A point that a layer covers off all bodies shows a value of `J`. -/
theorem mem_of_area (h : Covered J ls s t) (hl : l ∈ ls) (hva : v ∈ l.area)
    (hv : ∀ l ∈ ls, v ∉ l.body) : t v ∈ J := by
  induction h with
  | nil s => exact absurd hl List.not_mem_nil
  | @cons l' ls s t u hl' hls ih =>
    have hrest : ∀ l ∈ ls, v ∉ l.body := fun l hl => hv l (List.mem_cons_of_mem _ hl)
    rcases List.mem_cons.mp hl with rfl | hmem
    · exact hls.mem hrest (hl'.rest ⟨hva,hv _ List.mem_cons_self⟩)
    · exact ih hmem hrest

theorem apart (h : Covered J ls s t) (hb : ls.Pairwise fun a b => Disjoint a.body b.body)
    (hJ : ∀ l ∈ ls, ∀ v ∈ l.body, l.value v ∉ J) (hvis : Visible ls t) : Apart ls := by
  induction h with
  | nil s => exact List.Pairwise.nil
  | @cons l ls s t u hl hls ih =>
    obtain ⟨hhead,htail⟩ := List.pairwise_cons.mp hb
    refine List.pairwise_cons.mpr ⟨fun b hbm => Set.disjoint_left.mpr fun v hv hvb => ?_,
      ih htail (fun l hl => hJ l (List.mem_cons_of_mem _ hl))
        fun l hl => hvis l (List.mem_cons_of_mem _ hl)⟩
    have hmem := hls.mem_of_area hbm hvb fun b hb => Set.disjoint_left.mp (hhead b hb) hv
    rw [hvis l List.mem_cons_self hv] at hmem
    exact hJ l List.mem_cons_self v hv hmem

end Covered

end Lios

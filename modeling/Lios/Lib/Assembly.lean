import Mathlib.Data.List.Basic
import Mathlib.Logic.Function.Iterate

/-! # Assembly texts

A text is a list of instructions, labels and conditional jumps. The point of control is the
part of the text that is still ahead, so that a jump continues with the lines behind its label.
A block of instructions runs through, and a block that jumps back to its own label is iterated
until the condition of the jump fails.
-/
namespace Lios

/-- A line of a text with instructions `I`, conditions `C` and labels `L`. -/
inductive Line (I C L : Type) where
  | instr (i : I)
  | label (l : L)
  | jump (c : C) (l : L)

abbrev Text (I C L : Type) := List (Line I C L)

/-- What the instructions do to a state and when the conditions of jumps hold. -/
structure Isa (I C S : Type) where
  exec : I → S → S
  holds : C → S → Bool

namespace Isa
variable {I C L S : Type} [DecidableEq L] (isa : Isa I C S) (text : Text I C L)

/-- The lines behind a label. -/
def behind (l : L) : Text I C L → Text I C L
  | [] => []
  | .label k :: rest => if k = l then rest else behind l rest
  | .instr _ :: rest => behind l rest
  | .jump _ _ :: rest => behind l rest

/-- One line is executed; at the end of the text nothing happens. -/
def step : Text I C L × S → Text I C L × S
  | ([],s) => ([],s)
  | (.instr i :: rest,s) => (rest,isa.exec i s)
  | (.label _ :: rest,s) => (rest,s)
  | (.jump c l :: rest,s) => (if isa.holds c s then behind l text else rest,s)

/-- Finitely many steps lead from one configuration to the other. -/
def Reaches (p q : Text I C L × S) : Prop := ∃ n, (isa.step text)^[n] p = q

/-- Instructions one after the other. -/
def block (is : List I) (s : S) : S := is.foldl (fun s i => isa.exec i s) s

@[simp] theorem block_nil (s : S) : isa.block [] s = s := rfl

@[simp] theorem block_cons (i : I) (is : List I) (s : S) :
    isa.block (i :: is) s = isa.block is (isa.exec i s) := rfl

variable {isa text} {p q r : Text I C L × S} {rest : Text I C L} {s t : S}

theorem Reaches.refl : isa.Reaches text p p := ⟨0,rfl⟩

theorem Reaches.trans (h : isa.Reaches text p q) (h' : isa.Reaches text q r) :
    isa.Reaches text p r := by
  obtain ⟨m,rfl⟩ := h
  obtain ⟨n,rfl⟩ := h'
  exact ⟨n + m,Function.iterate_add_apply _ n m p⟩

theorem Reaches.head (h : isa.Reaches text (isa.step text p) q) : isa.Reaches text p q := by
  obtain ⟨n,rfl⟩ := h
  exact ⟨n + 1,rfl⟩

theorem Reaches.label {l : L} (h : isa.Reaches text (rest,s) q) :
    isa.Reaches text (.label l :: rest,s) q := Reaches.head h

theorem Reaches.jump {c : C} {l : L} (hc : isa.holds c s = true)
    (h : isa.Reaches text (behind l text,s) q) : isa.Reaches text (.jump c l :: rest,s) q := by
  apply Reaches.head
  rw [step,if_pos hc]
  exact h

theorem Reaches.fall {c : C} {l : L} (hc : isa.holds c s = false)
    (h : isa.Reaches text (rest,s) q) : isa.Reaches text (.jump c l :: rest,s) q := by
  apply Reaches.head
  rw [step,if_neg (by simp [hc])]
  exact h

/-- A block of instructions runs through. -/
theorem Reaches.block (is : List I) (h : isa.Reaches text (rest,isa.block is s) q) :
    isa.Reaches text (is.map .instr ++ rest,s) q := by
  induction is generalizing s with
  | nil => exact h
  | cons i is ih => exact Reaches.head (ih h)

/-- A block that jumps back to its label is left after the first pass after which the condition
of the jump fails. -/
theorem Reaches.loop {is : List I} {c : C} {l : L} {n : ℕ}
    (hl : behind l text = is.map .instr ++ .jump c l :: rest)
    (hback : ∀ k < n, isa.holds c ((isa.block is)^[k + 1] s) = true)
    (hleave : isa.holds c ((isa.block is)^[n + 1] s) = false)
    (h : isa.Reaches text (rest,(isa.block is)^[n + 1] s) q) :
    isa.Reaches text (behind l text,s) q := by
  induction n generalizing s with
  | zero =>
    rw [hl]
    exact Reaches.block is (Reaches.fall hleave h)
  | succ n ih =>
    have hnext : isa.Reaches text (behind l text,isa.block is s) q :=
      ih (fun k hk => hback (k + 1) (by omega)) hleave h
    rw [hl]
    exact Reaches.block is (Reaches.jump (hback 0 (by omega)) hnext)

end Isa

end Lios

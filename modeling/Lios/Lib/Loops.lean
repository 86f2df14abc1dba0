import Mathlib.Data.Nat.Notation
import Lios.Lib.Outcome

/-! # Counting loops

The loop `for (i = 0; i < n; i++)` over a machine integer. It returns if its body does, and a
property that each round carries on holds at the end. A search goes through a list and is left at
its first result, and a loop over a list makes one call for each element.
-/
namespace Lios.Outcome
variable {σ : Type} {w : ℕ}

/-- `rounds` rounds of the body, from the index `i` on. -/
def rounds (f : BitVec w → σ → Outcome σ Unit) : ℕ → BitVec w → σ → Outcome σ Unit
  | 0,_,s => .done () s
  | k + 1,i,s => (f i s).bind fun _ s => rounds f k (i + 1#w) s

def forTo (n : BitVec w) (f : BitVec w → σ → Outcome σ Unit) (s : σ) : Outcome σ Unit :=
  rounds f n.toNat 0#w s

theorem toNat_succ {i n : BitVec w} (h : i < n) : (i + 1#w).toNat = i.toNat + 1 := by
  have hlt : i.toNat < n.toNat := h
  have hn := n.isLt
  rw [BitVec.toNat_add,BitVec.toNat_ofNat,Nat.mod_eq_of_lt (show 1 < 2 ^ w by omega),
    Nat.mod_eq_of_lt (by omega)]

theorem rounds_rule {n : BitVec w} {f : BitVec w → σ → Outcome σ Unit} {P : ℕ → σ → Prop}
    (hf : ∀ i s, i < n → P i.toNat s → ∃ t, f i s = .done () t ∧ P (i.toNat + 1) t) {k : ℕ}
    {i : BitVec w} {s : σ} (hk : i.toNat + k = n.toNat) (hs : P i.toNat s) :
    ∃ t, rounds f k i s = .done () t ∧ P n.toNat t := by
  induction k generalizing i s with
  | zero => exact ⟨s,rfl,hk ▸ hs⟩
  | succ k ih =>
    have hlt : i < n := BitVec.lt_def.mpr (by omega)
    obtain ⟨u,hu,hPu⟩ := hf i s hlt hs
    have hnext : (i + 1#w).toNat = i.toNat + 1 := toNat_succ hlt
    rw [rounds,hu,bind_done]
    exact ih (by omega) (hnext ▸ hPu)

/-- What holds before the loop and is carried on by each round holds after it. -/
theorem forTo_rule {n : BitVec w} {f : BitVec w → σ → Outcome σ Unit} {P : ℕ → σ → Prop} {s : σ}
    (h0 : P 0 s) (hf : ∀ i s, i < n → P i.toNat s → ∃ t, f i s = .done () t ∧ P (i.toNat + 1) t) :
    ∃ t, forTo n f s = .done () t ∧ P n.toNat t :=
  rounds_rule hf (by simp) (by simpa using h0)

theorem rounds_of_done {n : BitVec w} {f : BitVec w → σ → Outcome σ Unit} {P : ℕ → σ → Prop}
    (hf : ∀ i s t, i < n → P i.toNat s → f i s = .done () t → P (i.toNat + 1) t) {k : ℕ}
    {i : BitVec w} {s t : σ} (hk : i.toNat + k = n.toNat) (hs : P i.toNat s)
    (h : rounds f k i s = .done () t) : P n.toNat t := by
  induction k generalizing i s with
  | zero =>
    obtain ⟨-,rfl⟩ := done.inj h
    exact hk ▸ hs
  | succ k ih =>
    have hlt : i < n := BitVec.lt_def.mpr (by omega)
    obtain ⟨_,u,hu,hrest⟩ := bind_eq_done.mp h
    have hnext : (i + 1#w).toNat = i.toNat + 1 := toNat_succ hlt
    exact ih (by omega) (hnext ▸ hf i s u hlt hs hu) hrest

/-- What each round that returns carries on holds after a loop that returns. -/
theorem forTo_of_done {n : BitVec w} {f : BitVec w → σ → Outcome σ Unit} {P : ℕ → σ → Prop}
    {s t : σ} (h0 : P 0 s)
    (hf : ∀ i s t, i < n → P i.toNat s → f i s = .done () t → P (i.toNat + 1) t)
    (h : forTo n f s = .done () t) : P n.toNat t :=
  rounds_of_done hf (by simp) (by simpa using h0) h

/-! Lists. -/

section Each
variable {ι : Type}

/-- One call for each element of a list. -/
def forEach (f : ι → σ → Outcome σ Unit) : List ι → σ → Outcome σ Unit
  | [],s => .done () s
  | i :: is,s => (f i s).bind fun _ s => forEach f is s

theorem forEach_append (f : ι → σ → Outcome σ Unit) (is js : List ι) (s : σ) :
    forEach f (is ++ js) s = (forEach f is s).bind fun _ s => forEach f js s := by
  induction is generalizing s with
  | nil => rfl
  | cons i is ih =>
    rw [List.cons_append,forEach,forEach,bind_assoc]
    congr 1
    funext _ t
    exact ih t

theorem forEach_map {κ : Type} (f : ι → σ → Outcome σ Unit) (g : κ → ι) (ks : List κ) (s : σ) :
    forEach f (ks.map g) s = forEach (fun k => f (g k)) ks s := by
  induction ks generalizing s with
  | nil => rfl
  | cons k ks ih =>
    rw [List.map_cons,forEach,forEach]
    congr 1
    funext _ t
    exact ih t

/-- What each call keeps is kept by all of them. -/
theorem forEach_ends {f : ι → σ → Outcome σ Unit} {P : σ → Prop} {S : Prop}
    (hf : ∀ i s, P s → (f i s).Ends P P S) (is : List ι) {s : σ} (hs : P s) :
    (forEach f is s).Ends P P S := by
  induction is generalizing s with
  | nil => exact hs
  | cons i is ih => exact (hf i s hs).andThen fun _ t ht => ih ht

theorem forEach_mapState {τ : Type} {φ : σ → τ} {f : ι → σ → Outcome σ Unit}
    {g : ι → τ → Outcome τ Unit} (h : ∀ i s, (f i s).mapState φ = g i (φ s)) (is : List ι) (s : σ) :
    (forEach f is s).mapState φ = forEach g is (φ s) := by
  induction is generalizing s with
  | nil => rfl
  | cons i is ih =>
    rw [forEach,mapState_bind (k := fun _ => forEach g is) (fun _ t _ => ih t),h,forEach]

theorem rounds_eq_forEach (f : BitVec w → σ → Outcome σ Unit) (k i : ℕ) (s : σ) :
    rounds f k (BitVec.ofNat w i) s =
      forEach f ((List.range' i k).map (BitVec.ofNat w)) s := by
  induction k generalizing i s with
  | zero => rfl
  | succ k ih =>
    rw [rounds,List.range'_succ,List.map_cons,forEach]
    congr 1
    funext _ t
    rw [← ih (i + 1) t,BitVec.ofNat_add]

/-- A counting loop goes through the indices. -/
theorem forTo_eq_forEach (n : BitVec w) (f : BitVec w → σ → Outcome σ Unit) (s : σ) :
    forTo n f s = forEach f ((List.range n.toNat).map (BitVec.ofNat w)) s := by
  rw [forTo,List.range_eq_range']
  exact rounds_eq_forEach f n.toNat 0 s

theorem forTo_ends {n : BitVec w} {f : BitVec w → σ → Outcome σ Unit} {P : σ → Prop} {S : Prop}
    {s : σ} (hs : P s) (hf : ∀ i s, P s → (f i s).Ends P P S) : (forTo n f s).Ends P P S := by
  rw [forTo_eq_forEach]
  exact forEach_ends hf _ hs

theorem forTo_mapState {τ : Type} {φ : σ → τ} {n : BitVec w} {f : BitVec w → σ → Outcome σ Unit}
    {g : BitVec w → τ → Outcome τ Unit} (h : ∀ i s, (f i s).mapState φ = g i (φ s)) (s : σ) :
    (forTo n f s).mapState φ = forTo n g (φ s) := by
  rw [forTo_eq_forEach,forTo_eq_forEach]
  exact forEach_mapState h _ s

end Each

/-! Searches. -/

section Search
variable {ι α : Type}

/-- The search through a list that ends at the first result. -/
def firstSome (f : ι → σ → Outcome σ (Option α)) : List ι → σ → Outcome σ (Option α)
  | [],s => .done none s
  | i :: is,s => (f i s).bind fun r s =>
    match r with
    | some a => .done (some a) s
    | none => firstSome f is s

/-- If an element without a result leaves the state alone, then the results are those of the
initial state. -/
theorem firstSome_eq {f : ι → σ → Outcome σ (Option α)} {g : ι → Option α} {R : σ → Prop}
    {is : List ι} {s : σ} (hs : R s)
    (h : ∀ i ∈ is, ∃ t, f i s = .done (g i) t ∧ (g i = none → t = s) ∧ R t) :
    ∃ t, firstSome f is s = .done (is.findSome? g) t ∧ (is.findSome? g = none → t = s) ∧ R t := by
  induction is with
  | nil => exact ⟨s,rfl,fun _ => rfl,hs⟩
  | cons i is ih =>
    obtain ⟨t,hf,hsame,ht⟩ := h i List.mem_cons_self
    cases hg : g i with
    | some a =>
      rw [List.findSome?_cons_of_isSome (by simp [hg]),hg]
      rw [hg] at hf
      exact ⟨t,by rw [firstSome,hf,bind_done],nofun,ht⟩
    | none =>
      obtain rfl := hsame hg
      rw [List.findSome?_cons_of_isNone (by simp [hg])]
      obtain ⟨u,hu,hrest⟩ := ih fun j hj => h j (List.mem_cons_of_mem _ hj)
      rw [hg] at hf
      exact ⟨u,by rw [firstSome,hf,bind_done]; exact hu,hrest⟩

end Search

end Lios.Outcome

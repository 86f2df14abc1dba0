import Mathlib.Logic.Function.Basic

/-! # Outcomes of state-passing computations

A call of an imperative function returns a value with the state it leaves, stops
the machine with a message, follows a null pointer, or uses up the fuel that
bounds its loops. A stopped machine keeps the state in which it stopped, so that
statements about failing calls can speak about the memory they leave behind.
-/
namespace Lios

inductive Outcome (σ α : Type) where
  | done (value : α) (state : σ)
  | panic (message : String) (state : σ)
  | fault (state : σ)
  | spin
  deriving DecidableEq

namespace Outcome
variable {σ τ α β : Type}

def bind (x : Outcome σ α) (f : α → σ → Outcome σ β) : Outcome σ β :=
  match x with
  | done a s => f a s
  | panic m s => panic m s
  | fault s => fault s
  | spin => spin

@[simp] theorem bind_done (a : α) (s : σ) (f : α → σ → Outcome σ β) :
    (done a s).bind f = f a s := rfl
@[simp] theorem bind_panic (m : String) (s : σ) (f : α → σ → Outcome σ β) :
    (panic m s : Outcome σ α).bind f = panic m s := rfl
@[simp] theorem bind_fault (s : σ) (f : α → σ → Outcome σ β) :
    (fault s : Outcome σ α).bind f = fault s := rfl
@[simp] theorem bind_spin (f : α → σ → Outcome σ β) :
    (spin : Outcome σ α).bind f = spin := rfl

theorem bind_assoc {γ : Type} (x : Outcome σ α) (f : α → σ → Outcome σ β)
    (g : β → σ → Outcome σ γ) : (x.bind f).bind g = x.bind fun a s => (f a s).bind g := by
  cases x with
  | _ => rfl

/-- A sequence returns only when both of its parts do. -/
theorem bind_eq_done {x : Outcome σ α} {f : α → σ → Outcome σ β} {b : β} {t : σ} :
    x.bind f = done b t ↔ ∃ a s, x = done a s ∧ f a s = done b t := by
  cases x with
  | done a s =>
    constructor
    · exact fun h => ⟨a,s,rfl,h⟩
    · rintro ⟨_,_,⟨⟩,h⟩
      exact h
  | _ => simp

def returned : Outcome σ α → Option α
  | done a _ => some a
  | _ => none

/-- The state a call leaves, `s` if it does not return. -/
def stateD (s : σ) : Outcome σ α → σ
  | done _ t => t
  | _ => s

theorem eq_done_of_returned {x : Outcome σ α} {a : α} (h : x.returned = some a) (s : σ) :
    x = done a (x.stateD s) := by
  cases x with
  | done b t =>
    obtain rfl := Option.some.inj h
    rfl
  | _ => simp [returned] at h

/-- The call returns or stops the machine with a message; it neither follows a null
pointer nor runs on. -/
def Settled : Outcome σ α → Prop
  | done _ _ => True
  | panic _ _ => True
  | fault _ => False
  | spin => False

@[simp] theorem settled_done (a : α) (s : σ) : (done a s).Settled := trivial
@[simp] theorem settled_panic (m : String) (s : σ) : (panic m s : Outcome σ α).Settled := trivial

theorem Settled.bind {x : Outcome σ α} {f : α → σ → Outcome σ β} (hx : x.Settled)
    (hf : ∀ a s, x = done a s → (f a s).Settled) : (x.bind f).Settled := by
  cases x with
  | done a s => exact hf a s rfl
  | panic m s => trivial
  | fault s => exact hx.elim
  | spin => exact hx.elim

theorem settled_bind_iff {x : Outcome σ α} {f : α → σ → Outcome σ β} :
    (x.bind f).Settled ↔ x.Settled ∧ ∀ a s, x = done a s → (f a s).Settled := by
  refine ⟨fun h => ?_,fun h => h.1.bind h.2⟩
  cases x with
  | done a s =>
    refine ⟨trivial,fun b t hbt => ?_⟩
    obtain ⟨rfl,rfl⟩ := done.inj hbt
    exact h
  | panic m s => exact ⟨trivial,fun b t hbt => by cases hbt⟩
  | fault s => exact h.elim
  | spin => exact h.elim

/-- Where the call returns or stops the machine, `P` holds; where it follows a null pointer, `F`
holds; and it runs on only if `S` holds. -/
def Ends (P F : σ → Prop) (S : Prop) : Outcome σ α → Prop
  | done _ s => P s
  | panic _ s => P s
  | fault s => F s
  | spin => S

theorem Ends.bind {P F : σ → Prop} {S : Prop} {x : Outcome σ α} {f : α → σ → Outcome σ β}
    (hx : x.Ends P F S) (hf : ∀ a s, x = done a s → (f a s).Ends P F S) :
    (x.bind f).Ends P F S := by
  cases x with
  | done a s => exact hf a s rfl
  | panic m s => exact hx
  | fault s => exact hx
  | spin => exact hx

theorem Ends.imp {P F P' F' : σ → Prop} {S S' : Prop} {x : Outcome σ α} (hx : x.Ends P F S)
    (hP : ∀ s, P s → P' s) (hF : ∀ s, F s → F' s) (hS : S → S') : x.Ends P' F' S' := by
  cases x with
  | done a s => exact hP s hx
  | panic m s => exact hP s hx
  | fault s => exact hF s hx
  | spin => exact hS hx

theorem Ends.andThen {P F : σ → Prop} {S : Prop} {x : Outcome σ α} {f : α → σ → Outcome σ β}
    (hx : x.Ends P F S) (hf : ∀ a s, P s → (f a s).Ends P F S) : (x.bind f).Ends P F S := by
  refine hx.bind fun a s h => hf a s ?_
  rw [h] at hx
  exact hx

/-- The call returns such that `P` holds, or it stops the machine. -/
def Yields (P : α → σ → Prop) : Outcome σ α → Prop
  | done a s => P a s
  | panic _ _ => True
  | fault _ => False
  | spin => False

theorem Yields.imp {P Q : α → σ → Prop} {x : Outcome σ α} (hx : x.Yields P)
    (hPQ : ∀ a s, P a s → Q a s) : x.Yields Q := by
  cases x with
  | done a s => exact hPQ a s hx
  | panic m s => trivial
  | fault s => exact hx.elim
  | spin => exact hx.elim

theorem Yields.bind {P : α → σ → Prop} {Q : β → σ → Prop} {x : Outcome σ α}
    {f : α → σ → Outcome σ β} (hx : x.Yields P) (hf : ∀ a s, P a s → (f a s).Yields Q) :
    (x.bind f).Yields Q := by
  cases x with
  | done a s => exact hf a s hx
  | panic m s => trivial
  | fault s => exact hx.elim
  | spin => exact hx.elim

theorem Ends.of_done {P F : σ → Prop} {S : Prop} {x : Outcome σ α} {a : α} {s : σ}
    (hx : x.Ends P F S) (h : x = done a s) : P s := by
  subst h
  exact hx

/-- The call ends in the state `t`, whether it returns or not. -/
def Leaves (t : σ) : Outcome σ α → Prop
  | done _ s => s = t
  | panic _ s => s = t
  | fault s => s = t
  | spin => False

theorem Ends.of_leaves {P : σ → Prop} {S : Prop} {x : Outcome σ α} {t : σ} (hx : x.Ends P P S)
    (h : x.Leaves t) : P t := by
  cases x with
  | done a s => exact h ▸ hx
  | panic m s => exact h ▸ hx
  | fault s => exact h ▸ hx
  | spin => exact h.elim

/-- The state part of an outcome seen from a larger state. -/
def mapState (f : σ → τ) : Outcome σ α → Outcome τ α
  | done a s => done a (f s)
  | panic m s => panic m (f s)
  | fault s => fault (f s)
  | spin => spin

@[simp] theorem mapState_done (f : σ → τ) (a : α) (s : σ) :
    (done a s).mapState f = done a (f s) := rfl

theorem mapState_eq_done {f : σ → τ} {x : Outcome σ α} {a : α} {t : τ} :
    x.mapState f = done a t ↔ ∃ s, x = done a s ∧ f s = t := by
  cases x with
  | done b s =>
    constructor
    · rintro ⟨⟩
      exact ⟨s,rfl,rfl⟩
    · rintro ⟨_,⟨⟩,rfl⟩
      rfl
  | _ => simp [mapState]

theorem mapState_bind {f : σ → τ} {x : Outcome σ α} {g : α → σ → Outcome σ β}
    {k : α → τ → Outcome τ β} (h : ∀ a s, x = done a s → (g a s).mapState f = k a (f s)) :
    (x.bind g).mapState f = (x.mapState f).bind k := by
  cases x with
  | done a s => exact h a s rfl
  | _ => rfl

theorem Settled.mapState {f : σ → τ} {x : Outcome σ α} (hx : x.Settled) :
    (x.mapState f).Settled := by
  cases x with
  | done a s => trivial
  | panic m s => trivial
  | fault s => exact hx.elim
  | spin => exact hx.elim

/-- A call into a part of the state after which there is only an assignment. -/
theorem settled_assign {x : Outcome σ α} {f : σ → τ} {r : α → τ → β} {k : α → τ → τ}
    {P : α → σ → Prop} {Q : β → τ → Prop} (hx : x.Settled ∧ ∀ a s, x = done a s → P a s)
    (hk : ∀ a s, P a s → Q (r a (f s)) (k a (f s))) :
    ((x.mapState f).bind fun a t => done (r a t) (k a t)).Settled ∧
      ∀ b u, ((x.mapState f).bind fun a t => done (r a t) (k a t)) = done b u → Q b u := by
  obtain ⟨hset,hspec⟩ := hx
  refine ⟨hset.mapState.bind fun _ _ _ => settled_done _ _,fun b u hdone => ?_⟩
  obtain ⟨a,t,ht,hdone⟩ := bind_eq_done.mp hdone
  obtain ⟨s,hs,rfl⟩ := mapState_eq_done.mp ht
  obtain ⟨rfl,rfl⟩ := done.inj hdone
  exact hk a s (hspec a s hs)

/-- Where the first call returns, the second returns the same value, and the states are
related. -/
def Tracks (R : σ → σ → Prop) (x y : Outcome σ α) : Prop :=
  ∀ a s, x = done a s → ∃ t, y = done a t ∧ R s t

theorem Tracks.bind {β : Type} {R S : σ → σ → Prop} {x y : Outcome σ α}
    {f g : α → σ → Outcome σ β} (h : Tracks R x y)
    (hf : ∀ a s t, R s t → Tracks S (f a s) (g a t)) : Tracks S (x.bind f) (y.bind g) := by
  intro b u hb
  obtain ⟨a,s,hx,hfb⟩ := bind_eq_done.mp hb
  obtain ⟨t,hy,hst⟩ := h a s hx
  obtain ⟨v,hgv,huv⟩ := hf a s t hst b u hfb
  exact ⟨v,bind_eq_done.mpr ⟨a,t,hy,hgv⟩,huv⟩

theorem Tracks.done {R : σ → σ → Prop} {s t : σ} (a : α) (h : R s t) :
    Tracks R (.done a s) (.done a t) := by
  rintro b u ⟨⟩
  exact ⟨t,rfl,h⟩

end Outcome

/-- A component of a larger state, with the laws of reading and replacing it. -/
structure Lens (σ τ : Type) where
  get : σ → τ
  set : τ → σ → σ
  get_set : ∀ t s, get (set t s) = t
  set_get : ∀ s, set (get s) s = s
  set_set : ∀ t t' s, set t (set t' s) = set t s

namespace Lens
variable {σ τ α : Type}

attribute [simp] get_set set_get set_set

def id (σ : Type) : Lens σ σ where
  get s := s
  set t _ := t
  get_set _ _ := rfl
  set_get _ := rfl
  set_set _ _ _ := rfl

@[simp] theorem id_get (s : σ) : (Lens.id σ).get s = s := rfl
@[simp] theorem id_set (t s : σ) : (Lens.id σ).set t s = t := rfl

/-- A computation on the component, run in the larger state. -/
def lift (L : Lens σ τ) (f : τ → Outcome τ α) (s : σ) : Outcome σ α :=
  (f (L.get s)).mapState (fun t => L.set t s)

theorem lift_eq_done {L : Lens σ τ} {f : τ → Outcome τ α} {s s' : σ} {a : α} :
    L.lift f s = .done a s' ↔ ∃ t, f (L.get s) = .done a t ∧ L.set t s = s' :=
  Outcome.mapState_eq_done

/-- Seen from the component, the computation is the one that was lifted. -/
theorem mapState_lift (L : Lens σ τ) (f : τ → Outcome τ α) (s : σ) :
    (L.lift f s).mapState L.get = f (L.get s) := by
  rw [lift]
  cases f (L.get s) with
  | done a t => simp
  | panic m t => simp [Outcome.mapState]
  | fault t => simp [Outcome.mapState]
  | spin => rfl

/-- What no change of the component can break. -/
theorem lift_ends {L : Lens σ τ} {P : σ → Prop} {s : σ} (f : τ → Outcome τ α)
    (h : ∀ t, P (L.set t s)) : (L.lift f s).Ends P P True := by
  rw [lift]
  cases f (L.get s) with
  | done a t => exact h t
  | panic m t => exact h t
  | fault t => exact h t
  | spin => trivial

/-- A call into the component after which there is only an assignment. -/
theorem lift_assign_eq_done {L : Lens σ τ} {f : τ → Outcome τ α} {k : α → σ → σ} {s s' : σ} {a : α} :
    ((L.lift f s).bind fun a s => .done a (k a s)) = .done a s' ↔
      ∃ t, f (L.get s) = .done a t ∧ s' = k a (L.set t s) := by
  rw [Outcome.bind_eq_done]
  constructor
  · rintro ⟨_,_,hlift,hlast⟩
    obtain ⟨t,ht,rfl⟩ := lift_eq_done.mp hlift
    obtain ⟨rfl,rfl⟩ := Outcome.done.inj hlast
    exact ⟨t,ht,rfl⟩
  · rintro ⟨t,ht,rfl⟩
    exact ⟨a,_,lift_eq_done.mpr ⟨t,ht,rfl⟩,rfl⟩

end Lens

end Lios

import Mathlib.Data.Finset.Basic
import Lios.Int.KeyboardLine

/-! # The modifiers and the keys

Two shift keys share one flag. The flags follow the keys that are down exactly as long as no shift
key is released while the other one is held: such a release clears the flag too early.
-/
namespace Lios.Keys
variable {H : Type} {calls : HeapCalls H} {s : KeyboardHeap H} {keys : Finset U8} {scan : U8}

/-- Whether shift and control are held. -/
def flags (s : KeyboardHeap H) : Bool × Bool := (s.keyboard.isShiftHeld,s.keyboard.isControlHeld)

/-- Wherever the call ends, the flags are `f`. -/
abbrev LeavesFlags {α : Type} (f : Bool × Bool) (x : Outcome (KeyboardHeap H) α) : Prop :=
  x.Ends (fun t => flags t = f) (fun t => flags t = f) True

section Flags
variable {α : Type} {f : Bool × Bool}

theorem lift_flags (hs : flags s = f) (g : H → Outcome H α) : LeavesFlags f ((onHeap H).lift g s) :=
  Lens.lift_ends g fun _ => hs

theorem andThen_flags {β : Type} {g : H → Outcome H α}
    {k : α → KeyboardHeap H → Outcome (KeyboardHeap H) β} (hs : flags s = f)
    (hk : ∀ a t, flags t = f → LeavesFlags f (k a t)) :
    LeavesFlags f (((onHeap H).lift g s).bind k) :=
  Outcome.Ends.andThen (lift_flags hs g) hk

theorem growPressed_flags (hs : flags s = f) (fuel : ℕ) :
    LeavesFlags f (growPressed calls fuel s) := by
  apply andThen_flags
  · exact hs
  intro p t ht
  apply andThen_flags
  · exact ht
  intro _ u hu
  exact lift_flags hu _

theorem recordKey_flags (hs : flags s = f) (fuel : ℕ) (c : U8) :
    LeavesFlags f (recordKey calls fuel c s) := by
  have hroom : LeavesFlags f (if s.keyboard.pressedCapacity < s.keyboard.pressedSize + 1#64
      then growPressed calls fuel s else .done () s) := by
    split
    · exact growPressed_flags hs fuel
    · exact hs
  apply hroom.andThen
  intro _ t ht
  apply andThen_flags ht
  intro _ u hu
  exact hu

theorem eraseKey_flags (hs : flags s = f) : LeavesFlags f (eraseKey calls s) := by
  apply lift_flags
  exact hs

theorem keyboardStartRecording_flags (calls : HeapCalls H) (hs : flags s = f) :
    LeavesFlags f (keyboardStartRecording calls s) := by
  apply andThen_flags
  · exact hs
  intro _ t ht
  exact ht

theorem keyboardEndRecording_flags (calls : HeapCalls H) (hs : flags s = f) :
    LeavesFlags f (keyboardEndRecording calls s) := by
  apply andThen_flags
  · exact hs
  intro _ t ht
  exact ht

/-- No modifier is on a key with a character, on BACKSPACE or on ENTER. -/
theorem withModifiers_of_key (hscan : (keyOf scan).isSome ∨ scan = backspace ∨ scan = enter) :
    flags (withModifiers scan s) = flags s := by
  have hother : ∀ scan : U8, (keyOf scan).isSome ∨ scan = backspace ∨ scan = enter →
      (scan ≠ lshift ∧ scan ≠ rshift ∧ scan ≠ control) ∧
        scan ≠ lshift + 0x80#8 ∧ scan ≠ rshift + 0x80#8 ∧ scan ≠ control + 0x80#8 := by
    decide +kernel
  obtain ⟨⟨hl,hr,hc⟩,hl',hr',hc'⟩ := hother scan hscan
  simp only [flags,withModifiers,heldAfter,hl,hr,hc,hl',hr',hc',or_self,if_false]

/-- The flags after a scan code. -/
theorem keyboardRoutine_flags (fuel : ℕ) (scan : U8) (s : KeyboardHeap H) :
    LeavesFlags (flags (withModifiers scan s)) (keyboardRoutine calls fuel scan s) := by
  cases hk : keyOf scan with
  | some c =>
    have hsome : (keyOf scan).isSome := Option.isSome_of_mem hk
    obtain ⟨hp,hl,hr,hc⟩ := keyOf_some hsome
    rw [withModifiers_of_key (.inl hsome)]
    simp only [keyboardRoutine,if_pos hp,hl,hr,hc,or_self,if_false,keyOf_eq_some_iff.mp hk]
    generalize (if s.keyboard.isShiftHeld = true then shifted c else c) = c'
    by_cases hhalt : s.keyboard.isControlHeld = true ∧ c' = 'm'
    · rw [if_pos hhalt]
      rfl
    rw [if_neg hhalt]
    split
    · exact recordKey_flags rfl fuel _
    · rfl
  | none =>
    by_cases hb : scan = backspace
    · rw [withModifiers_of_key (.inr (.inl hb)),hb]
      change LeavesFlags _ (if s.keyboard.isRecording = true then eraseKey calls _ else _)
      split
      · exact eraseKey_flags rfl
      · rfl
    by_cases he : scan = enter
    · rw [withModifiers_of_key (.inr (.inr he)),he]
      rfl
    · rw [keyboardRoutine_modifiers hk hb he]
      rfl

end Flags

/-- The keys that are down after a scan code. The code of a release is that of the press with the
highest bit set. -/
def keysAfter (keys : Finset U8) (scan : U8) : Finset U8 :=
  if scan < 0x80#8 then insert scan keys else keys.erase (scan - 0x80#8)

theorem mem_keysAfter {k : U8} (hk : k < 0x80#8) :
    k ∈ keysAfter keys scan ↔ scan = k ∨ scan ≠ k + 0x80#8 ∧ k ∈ keys := by
  rw [keysAfter]
  by_cases hscan : scan < 0x80#8
  · have hne : scan ≠ k + 0x80#8 := by
      rintro rfl
      bv_omega
    rw [if_pos hscan,Finset.mem_insert,eq_comm]
    simp only [ne_eq,hne,not_false_eq_true,true_and]
  · have hne : scan ≠ k := by
      rintro rfl
      exact hscan hk
    rw [if_neg hscan,Finset.mem_erase,ne_eq,eq_sub_iff_add_eq,eq_comm]
    simp only [hne,false_or,ne_eq]

/-- The flag of a modifier with two keys goes on following them, unless one of them is released while
the other one is down. -/
theorem heldAfter_follows_iff {a b : U8} {held : Bool} (ha : a < 0x80#8) (hb : b < 0x80#8)
    (h : held = true ↔ a ∈ keys ∨ b ∈ keys) (scan : U8) :
    (heldAfter a b held scan = true ↔ a ∈ keysAfter keys scan ∨ b ∈ keysAfter keys scan) ↔
      (scan = a + 0x80#8 → a ≠ b → b ∉ keys) ∧ (scan = b + 0x80#8 → a ≠ b → a ∉ keys) := by
  have hrelease {x y : U8} (hx : x < 0x80#8) (hy : y < 0x80#8) : x ≠ y + 0x80#8 := by
    rintro rfl
    bv_omega
  rw [mem_keysAfter ha,mem_keysAfter hb,heldAfter]
  -- A press of one of the keys, a release of one of them, or another code.
  by_cases hpress : scan = a ∨ scan = b
  · have hscan : scan < 0x80#8 := by
      rcases hpress with rfl | rfl
      · exact ha
      · exact hb
    rw [if_pos hpress]
    simp only [hrelease hscan ha,hrelease hscan hb,hpress.imp Or.inl Or.inl,false_implies,and_self]
  rw [if_neg hpress]
  obtain ⟨hna,hnb⟩ := not_or.mp hpress
  by_cases hup : scan = a + 0x80#8 ∨ scan = b + 0x80#8
  · rw [if_pos hup]
    have hinj {x y : U8} : x + 0x80#8 = y + 0x80#8 ↔ x = y := add_left_inj _
    rcases hup with rfl | rfl
    · simp only [hna,hnb,hinj]
      by_cases hab : a = b <;> simp [hab]
    · simp only [hna,hnb,hinj]
      by_cases hab : b = a <;> simp [hab,eq_comm]
  · obtain ⟨hua,hub⟩ := not_or.mp hup
    rw [if_neg hup,h]
    simp [hna,hnb,hua,hub]

/-- The flags tell which modifiers are down. -/
def Follows (x : KeyboardHeap H × Finset U8) : Prop :=
  (x.1.keyboard.isShiftHeld = true ↔ lshift ∈ x.2 ∨ rshift ∈ x.2) ∧
    (x.1.keyboard.isControlHeld = true ↔ control ∈ x.2)

/-- What happens to the keyboard: a scan code arrives, or a line is recorded. -/
inductive KeyEvent where
  | scan (code : U8)
  | startRecording
  | endRecording

/-- A step of the keyboard and the keys. The routine may also stop the machine. -/
def EventStep (calls : HeapCalls H) (x : KeyboardHeap H × Finset U8) (e : KeyEvent)
    (y : KeyboardHeap H × Finset U8) : Prop :=
  match e with
  | .scan code => y.2 = keysAfter x.2 code ∧ ∃ fuel, (keyboardRoutine calls fuel code x.1).Leaves y.1
  | .startRecording => y.2 = x.2 ∧ (keyboardStartRecording calls x.1).Leaves y.1
  | .endRecording => y.2 = x.2 ∧ (keyboardEndRecording calls x.1).Leaves y.1

/-- No shift key is released while the other one is down. -/
def KeyEvent.ReleasedAlone (keys : Finset U8) : KeyEvent → Prop
  | .scan code => (code = lshift + 0x80#8 → rshift ∉ keys) ∧ (code = rshift + 0x80#8 → lshift ∉ keys)
  | .startRecording => True
  | .endRecording => True

theorem follows_of_flags {x y : KeyboardHeap H × Finset U8} (hx : Follows x)
    (hf : flags y.1 = flags x.1) (hk : y.2 = x.2) : Follows y := by
  obtain ⟨hshift,hcontrol⟩ := Prod.ext_iff.mp hf
  rw [Follows,hk]
  dsimp only [flags] at hshift hcontrol
  rw [hshift,hcontrol]
  exact hx

/-- One step. -/
theorem Follows.step_iff {x y : KeyboardHeap H × Finset U8} {e : KeyEvent} (hx : Follows x)
    (hstep : EventStep calls x e y) : Follows y ↔ e.ReleasedAlone x.2 := by
  cases e with
  | scan code =>
    obtain ⟨hkeys,fuel,hleaves⟩ := hstep
    obtain ⟨hshift,hcontrol⟩ := Prod.ext_iff.mp ((keyboardRoutine_flags fuel code x.1).of_leaves hleaves)
    dsimp only [flags,withModifiers] at hshift hcontrol
    have hctl := heldAfter_follows_iff (by decide : control < 0x80#8)
      (by decide : control < 0x80#8) (by simpa using hx.2) code
    rw [or_self] at hctl
    rw [Follows,hkeys,hshift,hcontrol,
      heldAfter_follows_iff (by decide) (by decide) hx.1 code,hctl,KeyEvent.ReleasedAlone]
    simp only [ne_eq,not_true_eq_false,false_implies,implies_true,and_self,and_true,
      (by decide : ¬lshift = rshift),not_false_eq_true,true_implies]
  | startRecording =>
    obtain ⟨hkeys,hleaves⟩ := hstep
    have hflags := (keyboardStartRecording_flags calls rfl).of_leaves hleaves
    exact iff_of_true (follows_of_flags hx hflags hkeys) trivial
  | endRecording =>
    obtain ⟨hkeys,hleaves⟩ := hstep
    have hflags := (keyboardEndRecording_flags calls rfl).of_leaves hleaves
    exact iff_of_true (follows_of_flags hx hflags hkeys) trivial

/-- From the start, with no key down, the flags follow the keys in every state of a run if and only if
no shift key is released while the other one is down. -/
theorem modifiers_follow_iff {n : ℕ} {st : ℕ → KeyboardHeap H × Finset U8} {op : ℕ → KeyEvent}
    (hflags : flags (st 0).1 = (false,false)) (hkeys : (st 0).2 = ∅)
    (hr : IsRun (EventStep calls) n st op) :
    (∀ i ≤ n, Follows (st i)) ↔ ∀ i < n, (op i).ReleasedAlone (st i).2 := by
  have hstart : Follows (st 0) := by
    obtain ⟨hshift,hcontrol⟩ := Prod.ext_iff.mp hflags
    dsimp only [flags] at hshift hcontrol
    simp [Follows,hshift,hcontrol,hkeys]
  exact hr.forall_iff_guards hstart (fun _ h => h)
    (fun _ _ _ hs hstep hg => (hs.step_iff hstep).mpr hg)
    (fun _ _ _ hs hstep hg h => hg ((hs.step_iff hstep).mp h))

namespace OneLine
open OneBlock

/-- A key that is held, and `a` typed with it. -/
def typeWith (key : U8) : ℕ → KeyEvent
  | 0 => .scan key
  | 1 => .scan 30#8
  | _ => .scan (key + 0x80#8)

/-- The left shift key is released while the right one is held. -/
def bothShifts : ℕ → KeyEvent
  | 0 => .scan lshift
  | 1 => .scan rshift
  | _ => .scan (lshift + 0x80#8)

def after (x : KeyboardHeap OneBlock × Finset U8) : KeyEvent → KeyboardHeap OneBlock × Finset U8
  | .scan code => (press code x.1,keysAfter x.2 code)
  | .startRecording => ((keyboardStartRecording oneCalls x.1).stateD x.1,x.2)
  | .endRecording => ((keyboardEndRecording oneCalls x.1).stateD x.1,x.2)

def eventRun (op : ℕ → KeyEvent) : ℕ → KeyboardHeap OneBlock × Finset U8
  | 0 => (start,∅)
  | i + 1 => after (eventRun op i) (op i)

theorem typeWith_follows :
    IsRun (EventStep oneCalls) 3 (eventRun (typeWith rshift)) (typeWith rshift) ∧
      ∀ i ≤ 3, Follows (eventRun (typeWith rshift) i) := by
  have hr : IsRun (EventStep oneCalls) 3 (eventRun (typeWith rshift)) (typeWith rshift) := by
    intro i hi
    interval_cases i
    · exact ⟨rfl,9,rfl⟩
    · exact ⟨rfl,9,rfl⟩
    · exact ⟨rfl,9,rfl⟩
  refine ⟨hr,(modifiers_follow_iff rfl rfl hr).mpr ?_⟩
  intro i hi
  interval_cases i
  · exact ⟨by decide,by decide⟩
  · exact ⟨by decide,by decide⟩
  · exact ⟨by decide,by decide +kernel⟩

/-- The right shift key is down, and the flag is not set. -/
theorem bothShifts_not_follows :
    IsRun (EventStep oneCalls) 3 (eventRun bothShifts) bothShifts ∧
      lshift ∈ (eventRun bothShifts 2).2 ∧ rshift ∈ (eventRun bothShifts 3).2 ∧
      (eventRun bothShifts 3).1.keyboard.isShiftHeld = false ∧ ¬Follows (eventRun bothShifts 3) := by
  have hr : IsRun (EventStep oneCalls) 3 (eventRun bothShifts) bothShifts := by
    intro i hi
    interval_cases i
    · exact ⟨rfl,9,rfl⟩
    · exact ⟨rfl,9,rfl⟩
    · exact ⟨rfl,9,rfl⟩
  have hdown : rshift ∈ (eventRun bothShifts 3).2 := by decide +kernel
  have hflag : (eventRun bothShifts 3).1.keyboard.isShiftHeld = false := by decide +kernel
  refine ⟨hr,by decide +kernel,hdown,hflag,fun h => ?_⟩
  rw [h.1.mpr (.inr hdown)] at hflag
  exact Bool.noConfusion hflag

end OneLine

end Lios.Keys

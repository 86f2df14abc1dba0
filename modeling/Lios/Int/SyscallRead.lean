import Lios.Int.KeyboardLine
import Lios.Int.Syscall
import Lios.Util.Misc

/-! # Reading a line

`read` starts a recording, waits until ENTER ends it, and copies the line to the program. The
keyboard interrupts it all the time: before the recording starts, while it waits, and between ENTER
and the end of the call. Only what is typed while it waits goes into the line, and the keyboard
uses the heap only then, when nobody else does.
-/
namespace Lios.Syscall
open Keys

/-- The kernel and the scan codes that are still to come: those of the first list arrive before
its next call, those of the second before the one after it, and so on. -/
structure Terminal (H : Type) where
  keys : KeyboardHeap H
  script : List (List U8)

section Model
variable {H : Type} (calls : HeapCalls H) (fuel : ℕ)

def onKeys (H : Type) : Lens (Terminal H) (KeyboardHeap H) :=
  ⟨fun s => s.keys,fun k s => { s with keys := k },fun _ _ => rfl,fun _ => rfl,fun _ _ _ => rfl⟩

/-- The interrupts before the next call. -/
def arrive (s : Terminal H) : Outcome (Terminal H) Unit :=
  match s.script with
  | [] => .done () s
  | scans :: script =>
    (onKeys H).lift (Outcome.forEach (keyboardRoutine calls fuel) scans) { s with script := script }

/-- A call, and the interrupts before it. -/
def after {α : Type} (f : KeyboardHeap H → Outcome (KeyboardHeap H) α) (s : Terminal H) :
    Outcome (Terminal H) α :=
  (arrive calls fuel s).bind fun _ s => (onKeys H).lift f s

end Model

section Bytes
variable {H : Type} {calls : HeapCalls H} {src : HeapSupply calls} {h : H} {b : Buffer}
  {c x : List U8} {out : Multiset (U64 × List U8)} {i : U64}

end Bytes

section Keyboard
variable {H : Type} {calls : HeapCalls H} {src : HeapSupply calls} {fuel : ℕ}
  {out : Multiset (U64 × List U8)} {k k' k'' : KeyboardHeap H} {l : Keys.Line}

/-- From `k` to `k'` nothing was recorded, and the heap was not used. -/
structure Quiet (k k' : KeyboardHeap H) : Prop where
  heap : k'.heap = k.heap
  recording : k'.keyboard.isRecording = false
  pressed : k'.keyboard.pressed = k.keyboard.pressed
  size : k'.keyboard.pressedSize = k.keyboard.pressedSize
  capacity : k'.keyboard.pressedCapacity = k.keyboard.pressedCapacity

theorem Quiet.refl (h : k.keyboard.isRecording = false) : Quiet k k := ⟨rfl,h,rfl,rfl,rfl⟩

theorem Quiet.trans (h : Quiet k k') (h' : Quiet k' k'') : Quiet k k'' :=
  ⟨h'.heap.trans h.heap,h'.recording,h'.pressed.trans h.pressed,h'.size.trans h.size,
    h'.capacity.trans h.capacity⟩

theorem keyboardRoutine_enter (fuel : ℕ) (k : KeyboardHeap H) :
    keyboardRoutine calls fuel enter k =
      .done () (vgaPutchar '\n' { k with keyboard.isRecording := false }) := rfl

/-- The buffer holds the text of the line after the recording has ended. -/
structure Ended (src : HeapSupply calls) (out : Multiset (U64 × List U8)) (l : Keys.Line)
    (k : KeyboardHeap H) : Prop where
  recording : k.keyboard.isRecording = false
  size : k.keyboard.pressedSize.toNat = l.text.length
  stored : ∃ c, l.text.length ≤ c.length ∧ c.take l.text.length = l.text ∧
    src.Holds k.heap ((k.keyboard.pressed,c) ::ₘ out)

/-- ENTER ends the recording. -/
theorem Records.enter (hr : Records src out k.keyboard k.heap l) :
    (keyboardRoutine calls fuel enter k).Yields fun _ => Ended src out l := by
  obtain ⟨c,hc,htake,hheld⟩ := hr.stored
  have hfits := hr.fits
  rw [keyboardRoutine_enter]
  exact ⟨rfl,hr.size,c,by omega,htake,hheld⟩

/-- BACKSPACE is typed only when there is something to erase. -/
def Editing (l : Keys.Line) : List U8 → Prop
  | [] => True
  | scan :: scans => (scan = backspace → l.text ≠ []) ∧ Editing (l.type scan) scans

/-- What is typed before ENTER. -/
def typed : List U8 → List U8
  | [] => []
  | scan :: scans => if scan = enter then [] else scan :: typed scans

theorem Editing.append {p q : List U8} (h : Editing l (p ++ q)) :
    Editing l p ∧ Editing (p.foldl Keys.Line.type l) q := by
  induction p generalizing l with
  | nil => exact ⟨trivial,h⟩
  | cons scan p ih =>
    obtain ⟨hp,hq⟩ := ih h.2
    exact ⟨⟨h.1,hp⟩,hq⟩

end Keyboard

section Call
variable {H : Type} {calls : HeapCalls H} {src : HeapSupply calls} {fuel : ℕ}
  {out : Multiset (U64 × List U8)} {s : Terminal H} {l : Keys.Line}

end Call

/-- A heap that hands out its memory from the lowest address on and takes nothing back. -/
structure Arena where
  bytes : U64 → U8
  next : ℕ

namespace Arena

def arenaCalls : HeapCalls Arena where
  vmalloc n h :=
    if h.next + n.toNat ≤ 2 ^ 63 then
      .done (BitVec.ofNat 64 h.next) { h with next := h.next + n.toNat }
    else .panic "out of memory" h
  vrealloc _ _ h := .panic "not supported" h
  vfree _ h := .done () h
  bytes := ⟨fun h => h.bytes,fun m h => { h with bytes := m },fun _ _ => rfl,fun _ => rfl,
    fun _ _ _ => rfl⟩

/-- A block below the first free address, with its bytes. -/
def Fits (h : Arena) (b : U64 × List U8) : Prop :=
  b.1.toNat + b.2.length ≤ h.next ∧
    ∀ i < b.2.length, (b.2)[i]? = some (h.bytes (b.1 + BitVec.ofNat 64 i))

def Apart (b c : U64 × List U8) : Prop :=
  b.1.toNat + b.2.length ≤ c.1.toNat ∨ c.1.toNat + c.2.length ≤ b.1.toNat

def Holds (h : Arena) (out : Multiset (U64 × List U8)) : Prop :=
  h.next ≤ 2 ^ 63 ∧ ∃ l : List (U64 × List U8), out = l ∧ l.Pairwise Apart ∧ ∀ b ∈ l, Fits h b

variable {h : Arena} {p : U64} {c : List U8} {out : Multiset (U64 × List U8)}

theorem Holds.of_cons {b : U64 × List U8} (hh : h.Holds (b ::ₘ out)) : h.next ≤ 2 ^ 63 ∧
    ∃ l : List (U64 × List U8), out = l ∧ (b :: l).Pairwise Apart ∧ ∀ c ∈ b :: l, Fits h c := by
  obtain ⟨hnext,l,hl,hapart,hfits⟩ := hh
  obtain ⟨r,rfl⟩ := Quot.exists_rep out
  have hperm : (b :: r).Perm l := Multiset.coe_eq_coe.mp hl
  refine ⟨hnext,r,rfl,?_,fun c hc => hfits c (hperm.mem_iff.mp hc)⟩
  exact (hperm.pairwise_iff fun hxy => Or.symm hxy).mpr hapart

theorem load_eq {i : U64} (hh : h.Holds ((p,c) ::ₘ out)) (hi : i.toNat < c.length) :
    (c)[i.toNat]? = some (arenaCalls.bytes.get h (p + i)) := by
  obtain ⟨-,l,-,-,hfits⟩ := hh.of_cons
  have hload := (hfits (p,c) List.mem_cons_self).2 i.toNat hi
  rw [BitVec.ofNat_toNat,BitVec.setWidth_eq] at hload
  exact hload

theorem toNat_byte {b : U64 × List U8} (hnext : h.next ≤ 2 ^ 63) (hb : Fits h b) {i : ℕ}
    (hi : i < b.2.length) : (b.1 + BitVec.ofNat 64 i).toNat = b.1.toNat + i := by
  have hle := hb.1
  rw [BitVec.toNat_add,BitVec.toNat_ofNat]
  omega

theorem store_eq {i : U64} (v : U8) (hh : h.Holds ((p,c) ::ₘ out)) (hi : i.toNat < c.length) :
    Holds (arenaCalls.bytes.set (Function.update (arenaCalls.bytes.get h) (p + i) v) h)
      ((p,c.set i.toNat v) ::ₘ out) := by
  obtain ⟨hnext,l,rfl,hapart,hfits⟩ := hh.of_cons
  have hp := hfits (p,c) List.mem_cons_self
  have hat : (p + i).toNat = p.toNat + i.toNat := by
    have hbyte := toNat_byte hnext hp hi
    rwa [BitVec.ofNat_toNat,BitVec.setWidth_eq] at hbyte
  have hlength : (c.set i.toNat v).length = c.length := List.length_set
  obtain ⟨hfirst,hrest⟩ := List.pairwise_cons.mp hapart
  refine ⟨hnext,(p,c.set i.toNat v) :: l,rfl,List.pairwise_cons.mpr ⟨fun b hb => ?_,hrest⟩,?_⟩
  · simpa [Apart] using hfirst b hb
  · intro b hb
    rcases List.mem_cons.mp hb with rfl | hb
    · refine ⟨le_of_eq_of_le (congrArg (p.toNat + ·) hlength) hp.1,fun j hj => ?_⟩
      have hj : j < c.length := lt_of_lt_of_eq hj hlength
      have hbyte : (p + BitVec.ofNat 64 j).toNat = p.toNat + j := toNat_byte hnext hp hj
      change (c.set i.toNat v)[j]? = some (Function.update h.bytes (p + i) v _)
      rw [List.getElem?_set,Function.update_apply]
      by_cases hij : i.toNat = j
      · rw [if_pos hij,if_pos hi,if_pos (BitVec.eq_of_toNat_eq (by rw [hat,hbyte,hij]))]
      · rw [if_neg hij,if_neg]
        · exact hp.2 j hj
        · intro heq
          rw [heq,hat] at hbyte
          omega
    · have hfit := hfits b (List.mem_cons_of_mem _ hb)
      refine ⟨hfit.1,fun j hj => ?_⟩
      have hbyte := toNat_byte hnext hfit hj
      have haway : p.toNat + c.length ≤ b.1.toNat ∨ b.1.toNat + b.2.length ≤ p.toNat := hfirst b hb
      change _ = some (Function.update h.bytes (p + i) v _)
      rw [Function.update_of_ne]
      · exact hfit.2 j hj
      · intro heq
        rw [heq,hat] at hbyte
        omega

theorem vmalloc_eq (n : U64) (hh : h.Holds out) : (arenaCalls.vmalloc n h).Settled ∧
    ∀ p t, arenaCalls.vmalloc n h = .done p t →
      ∃ c, c.length = n.toNat ∧ t.Holds ((p,c) ::ₘ out) := by
  obtain ⟨hnext,l,rfl,hapart,hfits⟩ := hh
  change (if h.next + n.toNat ≤ 2 ^ 63 then _ else _ : Outcome Arena U64).Settled ∧
    ∀ p t, (if h.next + n.toNat ≤ 2 ^ 63 then _ else _ : Outcome Arena U64) = .done p t → _
  split
  · rename_i hle
    refine ⟨trivial,fun p t ht => ?_⟩
    obtain ⟨rfl,rfl⟩ := Outcome.done.inj ht
    have hat : (BitVec.ofNat 64 h.next).toNat = h.next := by
      rw [BitVec.toNat_ofNat]
      omega
    refine ⟨(List.range n.toNat).map fun i => h.bytes (BitVec.ofNat 64 h.next + BitVec.ofNat 64 i),
      by simp,hle,_ :: l,rfl,List.pairwise_cons.mpr ⟨fun b hb => .inr ?_,hapart⟩,?_⟩
    · rw [hat]
      exact (hfits b hb).1
    · intro b hb
      rcases List.mem_cons.mp hb with rfl | hb
      · refine ⟨by simp [hat],fun i hi => ?_⟩
        have hi : i < n.toNat := by simpa using hi
        simp [hi]
      · exact ⟨(hfits b hb).1.trans (Nat.le_add_right _ _),(hfits b hb).2⟩
  · exact ⟨trivial,nofun⟩

end Arena

end Lios.Syscall

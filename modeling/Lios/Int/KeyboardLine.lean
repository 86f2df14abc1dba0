import Lios.Lib.Runs
import Lios.Int.Keyboard
import Lios.Util.ArrayListRuns

/-! # Recording a line

A line editor appends characters and drops the last one. The buffer of the keyboard holds
its text as long as nothing is erased from an empty line and the line does not outgrow the
counter of the copying loop.
-/
namespace Lios.Keys
variable {H : Type} {calls : HeapCalls H} {src : HeapSupply calls}
  {out : Multiset (U64 × List U8)}

/-- The line that is typed: whether shift is held, and the text so far. -/
structure Line where
  shift : Bool
  text : List U8

/-- The character on a key, without modifiers. -/
def keyOf (scan : U8) : Option Char :=
  match keycodes.getD scan.toNat (.label "") with
  | .key c => some c
  | .label _ => none

def shiftedIf (shift : Bool) (c : Char) : Char := if shift then shifted c else c

/-- What a key does to the line. -/
def Line.type (l : Line) (scan : U8) : Line :=
  match keyOf scan with
  | some c => { l with text := l.text ++ [byteOf (shiftedIf l.shift c)] }
  | none =>
    if scan = backspace then { l with text := l.text.dropLast }
    else if scan = lshift ∨ scan = rshift then { l with shift := true }
    else if scan = lshift + 0x80#8 ∨ scan = rshift + 0x80#8 then { l with shift := false }
    else l

/-- The bytes that `keyboard_get_recording` gives to its caller. -/
def recordedText (calls : HeapCalls H) (s : KeyboardHeap H) : List U8 :=
  (List.range (keyboardGetRecording s).length.toNat).map fun i =>
    calls.bytes.get s.heap ((keyboardGetRecording s).pressedKeys + BitVec.ofNat 64 i)

/-- The buffer holds the text of the line; its size is eight times a power of two. -/
structure Records (src : HeapSupply calls) (out : Multiset (U64 × List U8)) (k : Keyboard) (h : H)
    (l : Line) : Prop where
  recording : k.isRecording = true
  shift : k.isShiftHeld = l.shift
  size : k.pressedSize.toNat = l.text.length
  power : ∃ j ≤ 29, k.pressedCapacity.toNat = 8 * 2 ^ j
  fits : l.text.length ≤ k.pressedCapacity.toNat
  stored : ∃ c, c.length = k.pressedCapacity.toNat ∧ c.take l.text.length = l.text ∧
    src.Holds h ((k.pressed,c) ::ₘ out)

section Calls
variable {h : H} {k : Keyboard} {s : KeyboardHeap H} {l : Line}

theorem Records.recordedText_eq (hr : Records src out s.keyboard s.heap l) :
    recordedText calls s = l.text := by
  obtain ⟨c,hc,htake,hheld⟩ := hr.stored
  have hfits := hr.fits
  have hcap := s.keyboard.pressedCapacity.isLt
  rw [← htake,recordedText]
  change (List.range s.keyboard.pressedSize.toNat).map _ = _
  rw [hr.size]
  refine List.ext_getElem? fun i => ?_
  rw [List.getElem?_map,List.getElem?_take]
  split
  · rename_i hi
    have hval : (BitVec.ofNat 64 i).toNat = i := by
      rw [BitVec.toNat_ofNat,Nat.mod_eq_of_lt (by omega)]
    have hload := src.load (i := BitVec.ofNat 64 i) hheld (by rw [hval]; omega)
    rw [hval] at hload
    rw [List.getElem?_range hi,hload]
    rfl
  · rw [List.getElem?_eq_none (by simpa using by omega)]
    rfl

theorem Records.capacity_le (hr : Records src out k h l) : k.pressedCapacity.toNat ≤ 2 ^ 32 := by
  obtain ⟨j,hj,hcap⟩ := hr.power
  have := Nat.pow_le_pow_right (by decide : 0 < 2) hj
  omega

theorem vcalloc_eq (n : U64) (hh : src.Holds h out) :
    (∃ m t, vcalloc calls n h = .panic m t ∧ calls.vmalloc n h = .panic m t) ∨
      ∃ p t, vcalloc calls n h = .done p t ∧ (calls.vmalloc n h).returned = some p ∧
        src.Holds t ((p,List.replicate n.toNat 0#8) ::ₘ out) := by
  obtain ⟨hset,hspec⟩ := src.vmalloc n hh
  rw [vcalloc]
  cases hv : calls.vmalloc n h with
  | done p u =>
    obtain ⟨c,hc,hu⟩ := hspec p u hv
    obtain ⟨t,ht,htt⟩ := Buffer.writeBytes_eq (i := 0#64) ⟨p,n⟩ (List.replicate n.toNat 0#8) hu
      hc.symm (by simp [hc])
    refine .inr ⟨p,t,?_,rfl,?_⟩
    · rw [Outcome.bind_done,ht,Outcome.bind_done]
    · rw [BitVec.toNat_zero,List.take_zero,List.nil_append,List.length_replicate,Nat.zero_add,
        ← hc,List.drop_length,List.append_nil] at htt
      rwa [hc] at htt
  | panic m t => exact .inl ⟨m,t,rfl,rfl⟩
  | fault t =>
    rw [hv] at hset
    exact hset.elim
  | spin =>
    rw [hv] at hset
    exact hset.elim

/-- For a size below 2^32 the narrow counter makes no difference. -/
theorem copyPressed_eq {dst from' : Buffer} {size : U64} (hsize : size.toNat < 2 ^ 32) (fuel : ℕ)
    (i : U32) (h : H) : copyPressed calls dst from' size fuel i h =
      copyBytes calls dst from' 0#64 size fuel (i.setWidth 64) h := by
  induction fuel generalizing i h with
  | zero => rfl
  | succ fuel ih =>
    rw [copyPressed,copyBytes,BitVec.add_zero]
    by_cases hlt : i.setWidth 64 < size
    · have hnext : (i + 1#32).setWidth 64 = i.setWidth 64 + 1#64 := by
        rw [BitVec.lt_def] at hlt
        apply BitVec.eq_of_toNat_eq
        simp only [BitVec.toNat_setWidth,BitVec.toNat_add,BitVec.toNat_ofNat] at hlt ⊢
        omega
      simp only [if_pos hlt,ih,hnext]
    · rw [if_neg hlt,if_neg hlt]

/-- The loop brings the first bytes over and leaves the rest of the new buffer. -/
theorem copyPressed_fills (dst from' : Buffer) {size : U64} {c x : List U8}
    (hsize : size.toNat < 2 ^ 32) (hh : src.Holds h ((dst.base,x) ::ₘ (from'.base,c) ::ₘ out))
    (hx : dst.limit.toNat = x.length) (hc : from'.limit.toNat = c.length)
    (hxl : size.toNat ≤ x.length) (hcl : size.toNat ≤ c.length) (fuel : ℕ) :
    (fuel ≤ size.toNat ∧ copyPressed calls dst from' size fuel 0#32 h = .spin) ∨
      ∃ t z, copyPressed calls dst from' size fuel 0#32 h = .done () t ∧ z.length = x.length ∧
        z.take size.toNat = c.take size.toNat ∧
        src.Holds t ((dst.base,z) ::ₘ (from'.base,c) ::ₘ out) := by
  rw [copyPressed_eq hsize,show (0#32).setWidth 64 = 0#64 from rfl]
  obtain hspin | ⟨t,ht,hht⟩ := copyBytes_between dst from' 0#64 size 0#64 hh hc hx hcl hxl fuel
    (Nat.zero_le _)
  · exact .inl hspin
  refine .inr ⟨t,_,ht,length_copied (Nat.zero_le _) hxl hcl,?_,hht⟩
  rw [BitVec.toNat_zero,take_copied (Nat.zero_le _) hxl hcl,List.take_zero,List.nil_append,
    Nat.add_zero,List.drop_zero,Nat.sub_zero]

/-- A counter of 32 bits never reaches 2^32. -/
theorem copyPressed_spin (dst from' : Buffer) {size : U64} {c x : List U8}
    (hsize : size.toNat = 2 ^ 32) (hh : src.Holds h ((dst.base,x) ::ₘ (from'.base,c) ::ₘ out))
    (hx : dst.limit.toNat = x.length) (hc : from'.limit.toNat = c.length)
    (hxl : 2 ^ 32 ≤ x.length) (hcl : 2 ^ 32 ≤ c.length) (fuel : ℕ) (i : U32) :
    copyPressed calls dst from' size fuel i h = .spin := by
  induction fuel generalizing i h x with
  | zero => rfl
  | succ fuel ih =>
    have hi : (i.setWidth 64).toNat < 2 ^ 32 := by
      have := i.isLt
      rw [BitVec.toNat_setWidth]
      omega
    have hswap := hh
    rw [Multiset.cons_swap] at hswap
    obtain ⟨v,-,hread⟩ := from'.read_eq hswap hc (by omega : (i.setWidth 64).toNat < c.length)
    obtain ⟨t,hwrite,ht⟩ := dst.write_eq v hh hx (by omega : (i.setWidth 64).toNat < x.length)
    rw [copyPressed,if_pos (by rw [BitVec.lt_def,hsize]; exact hi),hread,Outcome.bind_done,hwrite,
      Outcome.bind_done]
    exact ih ht (by rw [List.length_set,hx]) (by rwa [List.length_set]) _

/-- The state once the larger buffer is there. -/
def grown (s : KeyboardHeap H) (p : U64) (h : H) : KeyboardHeap H :=
  { s with
    keyboard.pressed := p
    keyboard.pressedCapacity := s.keyboard.pressedCapacity * 2#64
    heap := h }

theorem growPressed_eq {p : U64} {u : H} (fuel : ℕ)
    (hc : vcalloc calls (s.keyboard.pressedCapacity * 2#64) s.heap = .done p u) :
    growPressed calls fuel s =
      ((copyPressed calls ⟨p,s.keyboard.pressedCapacity * 2#64⟩ s.keyboard.buffer
        s.keyboard.pressedSize fuel 0#32 u).mapState (grown s p)).bind fun _ t =>
          (calls.vfree s.keyboard.pressed t.heap).mapState (grown s p) := by
  rw [growPressed]
  simp only [Lens.lift,onHeap,hc,Outcome.mapState_done,Outcome.bind_done,Keyboard.buffer]
  cases copyPressed calls ⟨p,s.keyboard.pressedCapacity * 2#64⟩
    ⟨s.keyboard.pressed,s.keyboard.pressedCapacity⟩ s.keyboard.pressedSize fuel 0#32 u <;> rfl

theorem growPressed_panic {m : String} {u : H} (fuel : ℕ)
    (hc : vcalloc calls (s.keyboard.pressedCapacity * 2#64) s.heap = .panic m u) :
    ∃ t, growPressed calls fuel s = .panic m t := by
  rw [growPressed]
  simp only [Lens.lift,onHeap,hc]
  exact ⟨_,rfl⟩

/-- A full buffer of less than 2^32 bytes is replaced by one that holds the same text. -/
theorem Records.growPressed (hr : Records src out s.keyboard s.heap l)
    (hfull : l.text.length = s.keyboard.pressedCapacity.toNat) (hlt : l.text.length < 2 ^ 32)
    (fuel : ℕ) :
    (fuel ≤ l.text.length ∧ Keys.growPressed calls fuel s = .spin) ∨
      (Keys.growPressed calls fuel s).Settled ∧ ∀ t, Keys.growPressed calls fuel s = .done () t →
        Records src out t.keyboard t.heap l ∧ l.text.length < t.keyboard.pressedCapacity.toNat := by
  obtain ⟨c,hc,htake,hheld⟩ := hr.stored
  obtain ⟨m,u,hpanic,-⟩ | ⟨p,u,hdone,-,hu⟩ :=
    vcalloc_eq (s.keyboard.pressedCapacity * 2#64) hheld
  · obtain ⟨t,ht⟩ := growPressed_panic fuel hpanic
    rw [ht]
    exact .inr ⟨trivial,fun _ h => nomatch h⟩
  have hdouble : (s.keyboard.pressedCapacity * 2#64).toNat = 2 * l.text.length := by
    rw [BitVec.toNat_mul,show (2#64).toNat = 2 from rfl]
    omega
  have hsize := hr.size
  have hlen : (List.replicate (s.keyboard.pressedCapacity * 2#64).toNat 0#8).length =
      2 * l.text.length := by rw [List.length_replicate,hdouble]
  rw [growPressed_eq fuel hdone]
  obtain ⟨hfuel,hspin⟩ | ⟨v,z,hv,hz,hztake,hvh⟩ := copyPressed_fills
    ⟨p,s.keyboard.pressedCapacity * 2#64⟩ s.keyboard.buffer
    (by omega : s.keyboard.pressedSize.toNat < 2 ^ 32) hu (hdouble.trans hlen.symm) hc.symm
    (by omega) (by omega) fuel
  · rw [hspin]
    exact .inl ⟨by omega,rfl⟩
  rw [hv]
  change _ ∨ ((calls.vfree s.keyboard.pressed v).mapState (grown s p)).Settled ∧ ∀ t,
    (calls.vfree s.keyboard.pressed v).mapState (grown s p) = .done () t → _
  rw [Multiset.cons_swap] at hvh
  obtain ⟨hset,hfree⟩ := src.vfree hvh
  refine .inr ⟨hset.mapState,fun t ht => ?_⟩
  obtain ⟨w,hw,rfl⟩ := Outcome.mapState_eq_done.mp ht
  have hcapacity : (grown s p w).keyboard.pressedCapacity.toNat = 2 * l.text.length := hdouble
  obtain ⟨j,hj,hcap⟩ := hr.power
  have hpos := Nat.two_pow_pos j
  refine ⟨⟨hr.recording,hr.shift,hsize,⟨j + 1,?_,?_⟩,by omega,z,by omega,?_,hfree w hw⟩,by omega⟩
  · refine Nat.lt_of_le_of_ne hj ?_
    rintro rfl
    omega
  · rw [hcapacity,hfull,hcap,pow_succ]
    omega
  · rw [← hsize,hztake,hsize,htake]

/-- The byte behind the text is written and counted. -/
theorem Records.append (hr : Records src out s.keyboard s.heap l) (c : U8)
    (hroom : l.text.length < s.keyboard.pressedCapacity.toNat) :
    ∃ t : KeyboardHeap H,
      (((onHeap H).lift (s.keyboard.buffer.write calls s.keyboard.pressedSize c) s).bind fun _ s =>
        .done () { s with keyboard.pressedSize := s.keyboard.pressedSize + 1#64 }) = .done () t ∧
      Records src out t.keyboard t.heap { l with text := l.text ++ [c] } := by
  obtain ⟨b,hb,htake,hheld⟩ := hr.stored
  have hsize := hr.size
  have hcap := hr.capacity_le
  obtain ⟨u,hu,hheldu⟩ := s.keyboard.buffer.write_eq c hheld hb.symm
    (by omega : s.keyboard.pressedSize.toNat < b.length)
  simp only [Lens.lift,onHeap,hu,Outcome.mapState_done,Outcome.bind_done]
  refine ⟨_,rfl,hr.recording,hr.shift,?_,hr.power,?_,_,?_,?_,hheldu⟩
  · change (s.keyboard.pressedSize + 1#64).toNat = _
    rw [BitVec.toNat_add,show (1#64).toNat = 1 from rfl,List.length_append,List.length_singleton]
    omega
  · rw [List.length_append,List.length_singleton]
    exact hroom
  · rw [List.length_set]
    exact hb
  · rw [List.length_append,List.length_singleton,hsize,
      List.take_succ_eq_append_getElem (by rw [List.length_set]; omega),List.getElem_set_self,
      List.take_set_of_le le_rfl,htake]

theorem Records.needs_room_iff (hr : Records src out s.keyboard s.heap l) :
    s.keyboard.pressedCapacity < s.keyboard.pressedSize + 1#64 ↔
      l.text.length = s.keyboard.pressedCapacity.toNat := by
  have hsize := hr.size
  have hcap := hr.capacity_le
  have hfits := hr.fits
  rw [BitVec.lt_def,BitVec.toNat_add,show (1#64).toNat = 1 from rfl]
  omega

theorem Records.recordKey (hr : Records src out s.keyboard s.heap l) (c : U8)
    (hlt : l.text.length < 2 ^ 32) (fuel : ℕ) :
    (fuel ≤ l.text.length ∧ Keys.recordKey calls fuel c s = .spin) ∨
      (Keys.recordKey calls fuel c s).Settled ∧ ∀ t, Keys.recordKey calls fuel c s = .done () t →
        Records src out t.keyboard t.heap { l with text := l.text ++ [c] } := by
  rw [Keys.recordKey]
  by_cases hfull : l.text.length = s.keyboard.pressedCapacity.toNat
  · rw [if_pos (hr.needs_room_iff.mpr hfull)]
    obtain ⟨hfuel,hspin⟩ | ⟨hset,hspec⟩ := hr.growPressed hfull hlt fuel
    · rw [hspin]
      exact .inl ⟨hfuel,rfl⟩
    refine .inr ⟨hset.bind fun _ u hu => ?_,fun t ht => ?_⟩
    · obtain ⟨hru,hroom⟩ := hspec u hu
      obtain ⟨v,hv,-⟩ := hru.append c hroom
      rw [hv]
      trivial
    · obtain ⟨_,u,hu,ht⟩ := Outcome.bind_eq_done.mp ht
      obtain ⟨hru,hroom⟩ := hspec u hu
      obtain ⟨v,hv,hrv⟩ := hru.append c hroom
      rw [hv] at ht
      obtain ⟨-,rfl⟩ := Outcome.done.inj ht
      exact hrv
  · rw [if_neg fun hn => hfull (hr.needs_room_iff.mp hn),Outcome.bind_done]
    obtain ⟨v,hv,hrv⟩ := hr.append c (lt_of_le_of_ne hr.fits hfull)
    rw [hv]
    refine .inr ⟨trivial,fun t ht => ?_⟩
    obtain ⟨-,rfl⟩ := Outcome.done.inj ht
    exact hrv

/-- At 2^32 characters the copying never ends, unless there is no memory for the copy. -/
theorem Records.recordKey_endless (hr : Records src out s.keyboard s.heap l) (c : U8)
    (hlen : l.text.length = 2 ^ 32) (fuel : ℕ) :
    ((calls.vmalloc (BitVec.ofNat 64 (2 ^ 33)) s.heap).returned = none ∧
      ∃ m t, Keys.recordKey calls fuel c s = .panic m t) ∨
    ((calls.vmalloc (BitVec.ofNat 64 (2 ^ 33)) s.heap).returned ≠ none ∧
      Keys.recordKey calls fuel c s = .spin) := by
  have hsize := hr.size
  have hfull : l.text.length = s.keyboard.pressedCapacity.toNat :=
    le_antisymm hr.fits (hlen ▸ hr.capacity_le)
  have hdouble : s.keyboard.pressedCapacity * 2#64 = BitVec.ofNat 64 (2 ^ 33) := by
    apply BitVec.eq_of_toNat_eq
    rw [BitVec.toNat_mul,← hfull,hlen]
    rfl
  obtain ⟨b,hb,-,hheld⟩ := hr.stored
  rw [Keys.recordKey,if_pos (hr.needs_room_iff.mpr hfull)]
  obtain ⟨m,u,hpanic,hv⟩ | ⟨p,u,hdone,hv,hu⟩ :=
    vcalloc_eq (BitVec.ofNat 64 (2 ^ 33)) hheld
  · obtain ⟨t,ht⟩ := growPressed_panic fuel (hdouble ▸ hpanic)
    rw [ht,hv]
    exact .inl ⟨rfl,m,t,rfl⟩
  · have hspin := copyPressed_spin ⟨p,BitVec.ofNat 64 (2 ^ 33)⟩ s.keyboard.buffer
      (hsize.trans hlen) hu (by rw [List.length_replicate]) hb.symm
      (by rw [List.length_replicate]; decide) (by omega) fuel 0#32
    rw [growPressed_eq fuel (hdouble ▸ hdone),hdouble,hspin,hv]
    exact .inr ⟨Option.some_ne_none p,rfl⟩

theorem Records.eraseKey (hr : Records src out s.keyboard s.heap l) (hne : l.text ≠ []) :
    ∃ t, Keys.eraseKey calls s = .done () t ∧
      Records src out t.keyboard t.heap { l with text := l.text.dropLast } := by
  obtain ⟨b,hb,htake,hheld⟩ := hr.stored
  have hsize := hr.size
  have hfits := hr.fits
  have hpos := List.length_pos_of_ne_nil hne
  have hless : (s.keyboard.pressedSize - 1#64).toNat = l.text.length - 1 := by
    rw [BitVec.toNat_sub,show (1#64).toNat = 1 from rfl]
    omega
  obtain ⟨u,hu,hheldu⟩ := s.keyboard.buffer.write_eq 0#8 hheld hb.symm
    (by omega : (s.keyboard.pressedSize - 1#64).toNat < b.length)
  have herase : Keys.eraseKey calls s = .done ()
      { s with keyboard.pressedSize := s.keyboard.pressedSize - 1#64, heap := u } := by
    simp only [Keyboard.buffer] at hu
    simp only [Keys.eraseKey,Lens.lift,onHeap,Keyboard.buffer,hu,Outcome.mapState_done]
  refine ⟨_,herase,hr.recording,hr.shift,?_,hr.power,?_,_,?_,?_,hheldu⟩
  · change (s.keyboard.pressedSize - 1#64).toNat = _
    rw [hless,List.length_dropLast]
  · change l.text.dropLast.length ≤ s.keyboard.pressedCapacity.toNat
    rw [List.length_dropLast]
    omega
  · rw [List.length_set]
    exact hb
  · change (b.set _ 0#8).take l.text.dropLast.length = l.text.dropLast
    rw [List.length_dropLast,List.take_set_of_le (by omega),List.dropLast_eq_take,← htake,
      List.take_take,htake,min_eq_left (Nat.sub_le _ _)]

/-- With nothing to erase, the size wraps around and leaves the buffer. -/
theorem Records.eraseKey_fault (hr : Records src out s.keyboard s.heap l) (hnil : l.text = []) :
    ∃ t, Keys.eraseKey calls s = .fault t := by
  have hcap := hr.capacity_le
  have hzero : s.keyboard.pressedSize = 0#64 := by
    apply BitVec.eq_of_toNat_eq
    rw [hr.size,hnil]
    rfl
  have hout : ¬(0#64 - 1#64 < s.keyboard.pressedCapacity) := by
    rw [BitVec.lt_def,show (0#64 - 1#64).toNat = 2 ^ 64 - 1 from rfl]
    omega
  simp only [Keys.eraseKey,Lens.lift,onHeap,Keyboard.buffer,Buffer.write,hzero,if_neg hout]
  exact ⟨_,rfl⟩

/-- The flag of a modifier with the keys `a` and `b` after a scan code. -/
def heldAfter (a b : U8) (held : Bool) (scan : U8) : Bool :=
  if scan = a ∨ scan = b then true
  else if scan = a + 0x80#8 ∨ scan = b + 0x80#8 then false
  else held

def withModifiers (scan : U8) (s : KeyboardHeap H) : KeyboardHeap H :=
  { s with
    keyboard.isShiftHeld := heldAfter lshift rshift s.keyboard.isShiftHeld scan
    keyboard.isControlHeld := heldAfter control control s.keyboard.isControlHeld scan }

theorem keyOf_eq_none_iff {scan : U8} :
    keyOf scan = none ↔ ∃ name, keycodes.getD scan.toNat (.label "") = .label name := by
  rw [keyOf]
  cases keycodes.getD scan.toNat (.label "") with
  | key c => simp
  | label name => simp

theorem keyOf_eq_some_iff {scan : U8} {c : Char} :
    keyOf scan = some c ↔ keycodes.getD scan.toNat (.label "") = .key c := by
  rw [keyOf]
  cases keycodes.getD scan.toNat (.label "") with
  | key c => simp
  | label name => simp

/-- Only presses put a character on the screen, and no modifier does. -/
theorem keyOf_some {scan : U8} (hk : (keyOf scan).isSome) :
    scan.toNat < maxKeycode ∧ scan ≠ lshift ∧ scan ≠ rshift ∧ scan ≠ control := by
  revert scan
  decide +kernel

theorem keyboardRoutine_modifiers {scan : U8} (hk : keyOf scan = none) (hb : scan ≠ backspace)
    (he : scan ≠ enter) (fuel : ℕ) :
    keyboardRoutine calls fuel scan s = .done () (withModifiers scan s) := by
  obtain ⟨name,hname⟩ := keyOf_eq_none_iff.mp hk
  rw [keyboardRoutine,withModifiers]
  by_cases hp : scan.toNat < maxKeycode
  · have hrelease {a : U8} (ha : maxKeycode ≤ (a + 0x80#8).toNat) : scan ≠ a + 0x80#8 := by
      rintro rfl
      exact absurd hp (Nat.not_lt.mpr ha)
    have hl := hrelease (by decide : maxKeycode ≤ (lshift + 0x80#8).toNat)
    have hr := hrelease (by decide : maxKeycode ≤ (rshift + 0x80#8).toNat)
    have hc := hrelease (by decide : maxKeycode ≤ (control + 0x80#8).toNat)
    simp only [if_pos hp,hname,if_neg hb,if_neg he,heldAfter,hl,hr,hc,or_self,if_false]
    split_ifs <;> rfl
  · have hpress {a : U8} (ha : a.toNat < maxKeycode) : scan ≠ a := by
      rintro rfl
      exact hp ha
    have hl := hpress (by decide : lshift.toNat < maxKeycode)
    have hr := hpress (by decide : rshift.toNat < maxKeycode)
    have hc := hpress (by decide : control.toNat < maxKeycode)
    simp only [if_neg hp,heldAfter,hl,hr,hc,or_self,if_false,sub_eq_iff_eq_add]
    by_cases hrange : 0x81#8 ≤ scan ∧ scan ≤ 0xD7#8
    · rw [if_pos hrange]
      split_ifs <;> rfl
    · have hrelease {a : U8} (ha : 0x81#8 ≤ a + 0x80#8 ∧ a + 0x80#8 ≤ 0xD7#8) :
          scan ≠ a + 0x80#8 := by
        rintro rfl
        exact hrange ha
      rw [if_neg hrange,if_neg (not_or.mpr ⟨hrelease (by decide),hrelease (by decide)⟩),
        if_neg (hrelease (by decide))]

theorem keyboardRoutine_key {scan : U8} {c : Char} (hk : keyOf scan = some c)
    (hr : s.keyboard.isRecording = true) (fuel : ℕ) :
    keyboardRoutine calls fuel scan s =
      if s.keyboard.isControlHeld ∧ shiftedIf s.keyboard.isShiftHeld c = 'm'
      then .panic "System Halted" s
      else recordKey calls fuel (byteOf (shiftedIf s.keyboard.isShiftHeld c))
        (vgaPutchar (shiftedIf s.keyboard.isShiftHeld c) s) := by
  obtain ⟨hp,hl,hrs,hc⟩ := keyOf_some (Option.isSome_of_mem hk)
  simp only [keyboardRoutine,if_pos hp,hl,hrs,hc,or_self,if_false,keyOf_eq_some_iff.mp hk]
  change (if _ then _ else if s.keyboard.isRecording = true then _ else _) = _
  rw [if_pos hr]
  rfl

theorem keyboardRoutine_backspace (hr : s.keyboard.isRecording = true) (fuel : ℕ) :
    keyboardRoutine calls fuel backspace s =
      eraseKey calls (vgaPutchar '\x08' (vgaPutchar ' ' (vgaPutchar '\x08' s))) :=
  if_pos hr

/-- A key that is neither a character nor BACKSPACE nor ENTER leaves the text alone. -/
theorem Records.modifiers (hr : Records src out s.keyboard s.heap l) {scan : U8}
    (hk : keyOf scan = none) (hb : scan ≠ backspace) :
    Records src out (withModifiers scan s).keyboard (withModifiers scan s).heap (l.type scan) := by
  have htype : l.type scan = { l with shift := heldAfter lshift rshift l.shift scan } := by
    rw [Line.type,hk,heldAfter]
    dsimp only
    rw [if_neg hb]
    split_ifs <;> rfl
  rw [htype]
  refine ⟨hr.recording,?_,hr.size,hr.power,hr.fits,hr.stored⟩
  rw [withModifiers,hr.shift]

/-- A step of the editor: a call that returns, for a key other than ENTER. -/
def KeyStep (calls : HeapCalls H) (x : KeyboardHeap H × Line) (scan : U8)
    (y : KeyboardHeap H × Line) : Prop :=
  scan ≠ enter ∧ y.2 = x.2.type scan ∧ ∃ fuel, keyboardRoutine calls fuel scan x.1 = .done () y.1

theorem Line.type_key {scan : U8} {c : Char} (hk : keyOf scan = some c) :
    l.type scan = { l with text := l.text ++ [byteOf (shiftedIf l.shift c)] } := by
  rw [Line.type,hk]

theorem Line.type_backspace : l.type backspace = { l with text := l.text.dropLast } := rfl

/-- There is something to erase; and a line of 2^32 characters is given no larger buffer. -/
def Editable (calls : HeapCalls H) (s : KeyboardHeap H) (l : Line) (scan : U8) : Prop :=
  (scan = backspace → l.text ≠ []) ∧
    ((keyOf scan).isSome → l.text.length = 2 ^ 32 →
      (calls.vmalloc (BitVec.ofNat 64 (2 ^ 33)) s.heap).returned = none)

/-- What a call does while a line is recorded. -/
theorem Records.keyboardRoutine (hr : Records src out s.keyboard s.heap l) {scan : U8}
    (he : scan ≠ enter) (fuel : ℕ) :
    (fuel ≤ l.text.length ∧ Keys.keyboardRoutine calls fuel scan s = .spin) ∨
    (¬Editable calls s l scan ∧ ¬(Keys.keyboardRoutine calls fuel scan s).Settled) ∨
    ((Keys.keyboardRoutine calls fuel scan s).Settled ∧
      (s.keyboard.isControlHeld = false → Editable calls s l scan) ∧
      ∀ t, Keys.keyboardRoutine calls fuel scan s = .done () t →
        Records src out t.keyboard t.heap (l.type scan)) := by
  cases hk : keyOf scan with
  | some c =>
    have hb : scan ≠ backspace := by
      rintro rfl
      cases hk
    rw [keyboardRoutine_key hk hr.recording,hr.shift,Line.type_key hk]
    split
    · rename_i hhalt
      exact .inr (.inr ⟨trivial,fun hc => absurd hhalt.1 (by simp [hc]),fun t ht => nomatch ht⟩)
    have hput : Records src out (vgaPutchar (shiftedIf l.shift c) s).keyboard
      (vgaPutchar (shiftedIf l.shift c) s).heap l := hr
    obtain hlen | hlt := Nat.eq_or_lt_of_le (hr.fits.trans hr.capacity_le)
    · obtain ⟨hnone,m,t,hpanic⟩ | ⟨hsome,hspin⟩ :=
        hput.recordKey_endless (byteOf (shiftedIf l.shift c)) hlen fuel
      · rw [hpanic]
        exact .inr (.inr ⟨trivial,fun _ => ⟨fun h => absurd h hb,fun _ _ => hnone⟩,
          fun t ht => nomatch ht⟩)
      · rw [hspin]
        exact .inr (.inl ⟨fun hed => hsome (hed.2 (hk ▸ rfl) hlen),id⟩)
    · obtain hspin | ⟨hset,hspec⟩ := hput.recordKey (byteOf (shiftedIf l.shift c)) hlt fuel
      · exact .inl hspin
      · exact .inr (.inr ⟨hset,fun _ => ⟨fun h => absurd h hb,fun _ h => absurd h hlt.ne⟩,hspec⟩)
  | none =>
    have hmore : (keyOf scan).isSome → l.text.length = 2 ^ 32 →
        (calls.vmalloc (BitVec.ofNat 64 (2 ^ 33)) s.heap).returned = none := by
      rw [hk]
      exact nofun
    by_cases hb : scan = backspace
    · subst hb
      rw [keyboardRoutine_backspace hr.recording,Line.type_backspace]
      have hput : Records src out
        (vgaPutchar '\x08' (vgaPutchar ' ' (vgaPutchar '\x08' s))).keyboard
        (vgaPutchar '\x08' (vgaPutchar ' ' (vgaPutchar '\x08' s))).heap l := hr
      by_cases hnil : l.text = []
      · obtain ⟨t,ht⟩ := hput.eraseKey_fault hnil
        rw [ht]
        exact .inr (.inl ⟨fun hed => hed.1 rfl hnil,id⟩)
      · obtain ⟨t,ht,hrt⟩ := hput.eraseKey hnil
        rw [ht]
        refine .inr (.inr ⟨trivial,fun _ => ⟨fun _ => hnil,hmore⟩,fun u hu => ?_⟩)
        obtain ⟨-,rfl⟩ := Outcome.done.inj hu
        exact hrt
    · rw [keyboardRoutine_modifiers hk hb he]
      refine .inr (.inr ⟨trivial,fun _ => ⟨fun h => absurd h hb,hmore⟩,fun u hu => ?_⟩)
      obtain ⟨-,rfl⟩ := Outcome.done.inj hu
      exact hr.modifiers hk hb

/-- The text is that of the line after every call that returns. -/
theorem KeyStep.records {x y : KeyboardHeap H × Line} {scan : U8}
    (hr : Records src out x.1.keyboard x.1.heap x.2) (hs : KeyStep calls x scan y) :
    Records src out y.1.keyboard y.1.heap y.2 := by
  obtain ⟨he,hline,fuel,hrun⟩ := hs
  obtain ⟨-,hspin⟩ | ⟨-,hstuck⟩ | ⟨-,-,hspec⟩ := hr.keyboardRoutine he fuel
  · rw [hspin] at hrun
    cases hrun
  · rw [hrun] at hstuck
    exact absurd trivial hstuck
  · rw [hline]
    exact hspec y.1 hrun

theorem records_start {t : KeyboardHeap H} (hh : src.Holds s.heap out)
    (hstart : keyboardStartRecording calls s = .done () t) :
    Records src out t.keyboard t.heap ⟨s.keyboard.isShiftHeld,[]⟩ := by
  obtain ⟨p,u,hu,hdone⟩ := Outcome.bind_eq_done.mp hstart
  obtain ⟨v,hv,rfl⟩ := Lens.lift_eq_done.mp hu
  obtain ⟨-,rfl⟩ := Outcome.done.inj hdone
  obtain ⟨m,w,hpanic,-⟩ | ⟨q,w,hcalloc,-,hw⟩ := vcalloc_eq 8#64 hh
  · exact absurd (hv.symm.trans hpanic) nofun
  · obtain ⟨rfl,rfl⟩ := Outcome.done.inj (hv.symm.trans hcalloc)
    exact ⟨rfl,rfl,rfl,⟨0,by decide,rfl⟩,Nat.zero_le _,_,List.length_replicate,rfl,hw⟩

theorem Records.size_le (hr : Records src out k h l) : k.pressedSize ≤ k.pressedCapacity := by
  rw [BitVec.le_def,hr.size]
  exact hr.fits

end Calls

/-- The next key does to the recording what it does to the line, and every access lies in the
buffer. -/
def Edits (calls : HeapCalls H) (s : KeyboardHeap H) (l : Line) (scan : U8) : Prop :=
  ∃ m, ∀ fuel ≥ m, (keyboardRoutine calls fuel scan s).Settled ∧
    ∀ t, keyboardRoutine calls fuel scan s = .done () t →
      recordedText calls t = (l.type scan).text ∧
      t.keyboard.pressedSize ≤ t.keyboard.pressedCapacity

/-- In every state that a run reaches after `keyboard_start_recording` and before ENTER, the
recording is the text of the line and fits its buffer. The next key edits it exactly if there
is something to erase and the line has not reached the range of the copying loop. -/
theorem keyboardRecording_edits_iff (src : HeapSupply calls) {s₀ s₁ : KeyboardHeap H} {n : ℕ}
    {st : ℕ → KeyboardHeap H × Line} {op : ℕ → U8} (hheld : src.Holds s₀.heap out)
    (hstart : keyboardStartRecording calls s₀ = .done () s₁)
    (h0 : st 0 = (s₁,⟨s₀.keyboard.isShiftHeld,[]⟩)) (hr : IsRun (KeyStep calls) n st op) :
    (∀ i ≤ n, recordedText calls (st i).1 = (st i).2.text ∧
      (st i).1.keyboard.pressedSize ≤ (st i).1.keyboard.pressedCapacity) ∧
    ∀ scan, scan ≠ enter → (st n).1.keyboard.isControlHeld = false →
      (Edits calls (st n).1 (st n).2 scan ↔ Editable calls (st n).1 (st n).2 scan) := by
  have hfirst : Records src out (st 0).1.keyboard (st 0).1.heap (st 0).2 := by
    rw [h0]
    exact records_start hheld hstart
  have hinv := hr.invariant (I := fun x => Records src out x.1.keyboard x.1.heap x.2)
    (G := fun _ _ => True) hfirst (fun x scan y hx hs _ => hs.records hx) fun _ _ => trivial
  refine ⟨fun i hi => ⟨(hinv i hi).recordedText_eq,(hinv i hi).size_le⟩,fun scan he hc => ?_⟩
  have hrec := hinv n le_rfl
  constructor
  · intro ⟨m,hm⟩
    obtain ⟨hfuel,-⟩ | ⟨-,hstuck⟩ | ⟨-,hed,-⟩ :=
      hrec.keyboardRoutine he (max m ((st n).2.text.length + 1))
    · omega
    · exact absurd (hm _ (Nat.le_max_left _ _)).1 hstuck
    · exact hed hc
  · intro hed
    refine ⟨(st n).2.text.length + 1,fun fuel hfuel => ?_⟩
    obtain ⟨hless,-⟩ | ⟨hned,-⟩ | ⟨hset,-,hspec⟩ := hrec.keyboardRoutine he fuel
    · omega
    · exact absurd hed hned
    · refine ⟨hset,fun t ht => ⟨(hspec t ht).recordedText_eq,(hspec t ht).size_le⟩⟩

namespace OneLine
open OneBlock

def start : KeyboardHeap OneBlock := ⟨⟨false,false,false,0#64,0#64,0#64⟩,[],fresh⟩

/-- A keyboard that has just started to record. -/
def empty : KeyboardHeap OneBlock := (keyboardStartRecording oneCalls start).stateD start

theorem start_eq : keyboardStartRecording oneCalls start = .done () empty :=
  Outcome.eq_done_of_returned (by decide +kernel) start

def press (scan : U8) (s : KeyboardHeap OneBlock) : KeyboardHeap OneBlock :=
  (keyboardRoutine oneCalls 9 scan s).stateD s

/-- Shift, `a`, and BACKSPACE. -/
def scans : ℕ → U8
  | 0 => lshift
  | 1 => 30#8
  | _ => backspace

def run : ℕ → KeyboardHeap OneBlock × Line
  | 0 => (empty,⟨false,[]⟩)
  | i + 1 => (press (scans i) (run i).1,(run i).2.type (scans i))

theorem run_isRun : IsRun (KeyStep oneCalls) 2 run scans := by
  intro i hi
  interval_cases i
  · exact ⟨by decide,rfl,9,Outcome.eq_done_of_returned (by decide +kernel) empty⟩
  · exact ⟨by decide,rfl,9,Outcome.eq_done_of_returned (by decide +kernel) (run 1).1⟩

theorem run_edits : recordedText oneCalls (run 2).1 = [0x41#8] ∧
    Edits oneCalls (run 2).1 (run 2).2 backspace := by
  have hheld : oneSupply.Holds start.heap 0 := rfl
  obtain ⟨htext,hnext⟩ := keyboardRecording_edits_iff oneSupply hheld start_eq rfl run_isRun
  have hline : (run 2).2.text = [0x41#8] := by decide +kernel
  refine ⟨(htext 2 le_rfl).1.trans hline,(hnext backspace (by decide) (by decide +kernel)).mpr ?_⟩
  refine ⟨fun _ => ?_,nofun⟩
  rw [hline]
  exact List.cons_ne_nil _ _

/-- BACKSPACE as the first key leaves the buffer. -/
theorem empty_not_edits : keyboardStartRecording oneCalls start = .done () empty ∧
    recordedText oneCalls empty = [] ∧ ¬Edits oneCalls empty ⟨false,[]⟩ backspace := by
  have hrec : Records oneSupply 0 empty.keyboard empty.heap ⟨false,[]⟩ :=
    records_start (rfl : oneSupply.Holds start.heap 0) start_eq
  refine ⟨start_eq,hrec.recordedText_eq,fun ⟨m,hm⟩ => ?_⟩
  have hset := (hm m le_rfl).1
  rw [keyboardRoutine_backspace hrec.recording] at hset
  have hput : Records oneSupply 0
    (vgaPutchar '\x08' (vgaPutchar ' ' (vgaPutchar '\x08' empty))).keyboard
    (vgaPutchar '\x08' (vgaPutchar ' ' (vgaPutchar '\x08' empty))).heap ⟨false,[]⟩ := hrec
  obtain ⟨t,ht⟩ := hput.eraseKey_fault rfl
  rw [ht] at hset
  exact hset

end OneLine

end Lios.Keys

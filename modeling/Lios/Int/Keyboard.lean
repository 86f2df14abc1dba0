import Lios.Util.ArrayList

/-! # The keyboard

Each scan code sets a modifier, puts a character on the screen, or is ignored. While a
line is recorded, the characters also go into a buffer of the heap that doubles when it is
full. The heap is a parameter; an access outside of the buffer is a fault. The calls of the
screen appear as the list of characters it was given, and the messages on the serial port
are left out.
-/
namespace Lios

/-- An entry of the key table: a string of one character, or another name. -/
inductive KeyName where
  | key (c : Char)
  | label (name : String)
  deriving DecidableEq

def keycodes : List KeyName :=
  [.label "",.label "<ESC>",.key '1',.key '2',.key '3',.key '4',.key '5',.key '6',.key '7',
    .key '8',.key '9',.key '0',.key '-',.key '=',.label "<Backspace>",.label "<Tab>",.key 'q',
    .key 'w',.key 'e',.key 'r',.key 't',.key 'y',.key 'u',.key 'i',.key 'o',.key 'p',.key '[',
    .key ']',.label "<Enter>",.label "<LCtrl>",.key 'a',.key 's',.key 'd',.key 'f',.key 'g',
    .key 'h',.key 'j',.key 'k',.key 'l',.key ';',.key '\x27',.key '\x60',.label "<LShift>",
    .key '\x5c',.key 'z',.key 'x',.key 'c',.key 'v',.key 'b',.key 'n',.key 'm',.key ',',.key '.',
    .key '/',.label "<RShift>",.label "<Keypad *>",.label "<LAlt>",.key ' ',.label "<CapsLock>",
    .label "<F1>",.label "<F2>",.label "<F3>",.label "<F4>",.label "<F5>",.label "<F6>",
    .label "<F7>",.label "<F8>",.label "<F9>",.label "<F10>",.label "<NumLock>",
    .label "<ScrollLock>",.label "<Keypad 7>",.label "<Keypad 8>",.label "<Keypad 9>",
    .label "<Keypad ->",.label "<Keypad 4>",.label "<Keypad 5>",.label "<Keypad 6>",
    .label "<Keypad +>",.label "<Keypad 1>",.label "<Keypad 2>",.label "<Keypad 3>",
    .label "<Keypad 0>",.label "<Keypad .>",.label "",.label "",.label "",.label "<F11>",
    .label "<F12>"]

def maxKeycode : ℕ := keycodes.length

structure Keyboard where
  isShiftHeld : Bool
  isControlHeld : Bool
  isRecording : Bool
  pressed : U64
  pressedSize : U64
  pressedCapacity : U64

/-- The keyboard, the characters it has put on the screen, and the heap. -/
structure KeyboardHeap (H : Type) where
  keyboard : Keyboard
  printed : List Char
  heap : H

def Keyboard.buffer (k : Keyboard) : Buffer := ⟨k.pressed,k.pressedCapacity⟩

namespace Keys

def lshift : U8 := 42#8
def rshift : U8 := 54#8
def control : U8 := 29#8
def enter : U8 := 28#8
def backspace : U8 := 14#8

/-- The character of a key while a shift key is held. -/
def shifted (c : Char) : Char :=
  match c with
  | '0' => ')'
  | '1' => '!'
  | '2' => '@'
  | '3' => '#'
  | '4' => '$'
  | '5' => '%'
  | '6' => '^'
  | '7' => '&'
  | '8' => '*'
  | '9' => '('
  | '\x60' => '~'
  | '-' => '_'
  | '=' => '+'
  | '[' => '\x7b'
  | ']' => '\x7d'
  | '|' => '\x5c'
  | ';' => ':'
  | '\x27' => '\x22'
  | ',' => '<'
  | '.' => '>'
  | '/' => '?'
  | c => if 'a' ≤ c ∧ c ≤ 'z' then Char.ofNat (c.toNat + 'A'.toNat - 'a'.toNat) else c

def byteOf (c : Char) : U8 := BitVec.ofNat 8 c.toNat

section Model
variable {H : Type} (calls : HeapCalls H)

def onHeap (H : Type) : Lens (KeyboardHeap H) H :=
  ⟨fun s => s.heap,fun h s => { s with heap := h },fun _ _ => rfl,fun _ => rfl,fun _ _ _ => rfl⟩

def vgaPutchar (c : Char) (s : KeyboardHeap H) : KeyboardHeap H :=
  { s with printed := s.printed ++ [c] }

def vcalloc (size : U64) (h : H) : Outcome H U64 :=
  (calls.vmalloc size h).bind fun mem h =>
  (Buffer.writeBytes calls ⟨mem,size⟩ 0#64 (List.replicate size.toNat 0#8) h).bind fun _ h =>
  .done mem h

/-- The loop that fills the new buffer; its counter has 32 bits, the size has 64. -/
def copyPressed (pressed pressedCopy : Buffer) (pressedSize : U64) :
    ℕ → U32 → H → Outcome H Unit
  | 0,_,_ => .spin
  | fuel + 1,i,h =>
    if i.setWidth 64 < pressedSize then
      (pressedCopy.read calls (i.setWidth 64) h).bind fun v h =>
      (pressed.write calls (i.setWidth 64) v h).bind fun _ h =>
      copyPressed pressed pressedCopy pressedSize fuel (i + 1#32) h
    else .done () h

def growPressed (fuel : ℕ) (s : KeyboardHeap H) : Outcome (KeyboardHeap H) Unit :=
  let pressedCopy := s.keyboard.buffer
  let s := { s with keyboard.pressedCapacity := s.keyboard.pressedCapacity * 2#64 }
  ((onHeap H).lift (vcalloc calls s.keyboard.pressedCapacity) s).bind fun pressed s =>
  let s := { s with keyboard.pressed := pressed }
  ((onHeap H).lift (copyPressed calls s.keyboard.buffer pressedCopy s.keyboard.pressedSize fuel
    0#32) s).bind fun _ s =>
  (onHeap H).lift (calls.vfree pressedCopy.base) s

def recordKey (fuel : ℕ) (c : U8) (s : KeyboardHeap H) : Outcome (KeyboardHeap H) Unit :=
  (if s.keyboard.pressedCapacity < s.keyboard.pressedSize + 1#64 then growPressed calls fuel s
    else .done () s).bind fun _ s =>
  ((onHeap H).lift (s.keyboard.buffer.write calls s.keyboard.pressedSize c) s).bind fun _ s =>
  .done () { s with keyboard.pressedSize := s.keyboard.pressedSize + 1#64 }

/-- The size goes down before the byte there is cleared. -/
def eraseKey (s : KeyboardHeap H) : Outcome (KeyboardHeap H) Unit :=
  let s := { s with keyboard.pressedSize := s.keyboard.pressedSize - 1#64 }
  (onHeap H).lift (s.keyboard.buffer.write calls s.keyboard.pressedSize 0#8) s

def keyboardRoutine (fuel : ℕ) (scan : U8) (s : KeyboardHeap H) : Outcome (KeyboardHeap H) Unit :=
  if scan.toNat < maxKeycode then
    let s := if scan = lshift ∨ scan = rshift then { s with keyboard.isShiftHeld := true } else s
    let s := if scan = control then { s with keyboard.isControlHeld := true } else s
    match keycodes.getD scan.toNat (.label "") with
    | .key c =>
      let c := if s.keyboard.isShiftHeld then shifted c else c
      if s.keyboard.isControlHeld ∧ c = 'm' then .panic "System Halted" s else
      let s := vgaPutchar c s
      if s.keyboard.isRecording then recordKey calls fuel (byteOf c) s else .done () s
    | .label _ =>
      if scan = backspace then
        let s := vgaPutchar '\x08' (vgaPutchar ' ' (vgaPutchar '\x08' s))
        if s.keyboard.isRecording then eraseKey calls s else .done () s
      else if scan = enter then
        .done () (vgaPutchar '\n' { s with keyboard.isRecording := false })
      else .done () s
  else if 0x81#8 ≤ scan ∧ scan ≤ 0xD7#8 then
    let releasedKey := scan - 0x80#8
    let s := if releasedKey = lshift ∨ releasedKey = rshift
      then { s with keyboard.isShiftHeld := false } else s
    let s := if releasedKey = control then { s with keyboard.isControlHeld := false } else s
    .done () s
  else .done () s

def keyboardStartRecording (s : KeyboardHeap H) : Outcome (KeyboardHeap H) Unit :=
  let s := { s with keyboard.pressedSize := 0#64, keyboard.pressedCapacity := 8#64 }
  ((onHeap H).lift (vcalloc calls s.keyboard.pressedCapacity) s).bind fun pressed s =>
  .done () { s with keyboard.pressed := pressed, keyboard.isRecording := true }

/-- What the caller of `keyboard_get_recording` is given: the buffer and the length. -/
structure KeyboardRecordingList where
  pressedKeys : U64
  length : U64

def keyboardGetRecording (s : KeyboardHeap H) : KeyboardRecordingList :=
  ⟨s.keyboard.pressed,s.keyboard.pressedSize⟩

def keyboardEndRecording (s : KeyboardHeap H) : Outcome (KeyboardHeap H) Unit :=
  let s := { s with keyboard.pressedSize := 0#64, keyboard.pressedCapacity := 0#64 }
  ((onHeap H).lift (calls.vfree s.keyboard.pressed) s).bind fun _ s =>
  .done () { s with keyboard.isRecording := false }

end Model

end Keys

end Lios

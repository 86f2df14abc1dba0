import Lios.Lib.Loops
import Lios.Io.VgaFont
import Lios.Util.Kmath

/-! # The screen

The characters on the screen are kept in a buffer of their own, and each of them is drawn into
the frame buffer as 8 by 16 pixels. Both are read and written by 32-bit offsets; an access
outside of the buffer is a fault. The font table is indexed by a signed character, and
`around` is what lies in memory outside of it. That the buffer of the characters comes zeroed
from the heap and the frame buffer is mapped is part of `vga_init`; the calls themselves are
left out, as are the messages on the serial port.
-/
namespace Lios

structure Vga where
  pixelWidth : U32
  pixelHeight : U32
  vgaPitch : U32
  curRow : U32
  curCol : U32
  vgaVirt : U32 → U8
  vgaChars : U32 → U8
  isInitialized : Bool
  flash : Bool
  mapped : List (U64 × U64)

namespace Vga

/-- The pages of the frame buffer are mapped one behind the other. -/
def vgaInit (addr : U64) (width height pitch : U32) (s : Vga) : Outcome Vga Unit :=
  let s := { s with pixelWidth := width, pixelHeight := height, vgaPitch := pitch }
  if addr = 0#64 then .panic "vga: framebuffer init: no frame buffer tag!" s else
  let pagesNeeded := ceilU32Div (s.vgaPitch * s.pixelHeight) 4096#32
  let virt := 0xFFFF800000000000#64
  let pages := (List.range pagesNeeded.toNat).map fun i =>
    let offset := (BitVec.ofNat 32 i * 4096#32).setWidth 64
    (virt + offset,addr + offset)
  .done () { s with
    vgaChars := fun _ => 0#8
    isInitialized := true
    mapped := s.mapped ++ pages
    curRow := 0#32
    curCol := 0#32 }

/-- The number of bytes in the frame buffer. -/
def frameSize (s : Vga) : ℕ := s.vgaPitch.toNat * s.pixelHeight.toNat

def setByte (location : U32) (v : U8) (s : Vga) : Outcome Vga Unit :=
  if location.toNat < s.frameSize then
    .done () { s with vgaVirt := Function.update s.vgaVirt location v }
  else .fault s

def vgaPutpixel (x y : U32) (red green blue : U8) (s : Vga) : Outcome Vga Unit :=
  let location := y * s.vgaPitch + x * 4#32
  (setByte location blue s).bind fun _ s =>
  (setByte (location + 1#32) green s).bind fun _ s =>
  setByte (location + 2#32) red s

def queryBit (num : U64) (pos : U32) : Bool := num.getLsbD pos.toNat

section Model
variable (around : ℤ → U64)

/-- A word of the font table, or of the memory around it. -/
def fontWord (k : ℤ) : U64 := if 0 ≤ k ∧ k < 512 then vgaFont.getD k.toNat 0#64 else around k

def color (inverted bit : Bool) : U8 := if inverted != bit then 183#8 else 0#8

/-- The body of the loops of `draw_char`: a pixel of the upper and one of the lower half. -/
def drawPixels (inverted : Bool) (a b : U64) (x y i j : U32) (s : Vga) : Outcome Vga Unit :=
  let colorA := color inverted (queryBit a (i * 8#32 + j))
  (vgaPutpixel (x + j) (y + i) colorA colorA colorA s).bind fun _ s =>
  let colorB := color inverted (queryBit b (i * 8#32 + j))
  vgaPutpixel (x + j) (y + i + 8#32) colorB colorB colorB s

def drawChar (row col : U32) (c : U8) (inverted : Bool) (s : Vga) : Outcome Vga Unit :=
  let a := fontWord around (c.toInt * 2)
  let b := fontWord around (c.toInt * 2 + 1)
  Outcome.forTo 8#32 (fun i => Outcome.forTo 8#32 fun j =>
    drawPixels inverted a b (col * 8#32) (row * 16#32) i j) s

def getPos (row col : U32) (s : Vga) : U32 := row * (s.pixelWidth / 8#32) + col

/-- The number of bytes that `vga_init` takes for the characters. -/
def charsSize (s : Vga) : U32 := (s.pixelHeight / 16#32) * (s.pixelWidth / 8#32)

def readChar (pos : U32) (s : Vga) : Outcome Vga U8 :=
  if pos < s.charsSize then .done (s.vgaChars pos) s else .fault s

def writeChar (pos : U32) (c : U8) (s : Vga) : Outcome Vga Unit :=
  if pos < s.charsSize then .done () { s with vgaChars := Function.update s.vgaChars pos c }
  else .fault s

/-- A line takes the place of the one above it. Nothing is drawn for a zero. -/
def scrollCell (i j : U32) (s : Vga) : Outcome Vga Unit :=
  let line := getPos i j s
  let next := getPos (i + 1#32) j s
  (readChar next s).bind fun c s =>
  (writeChar line c s).bind fun _ s =>
  if c ≠ 0#8 then drawChar around i j c false s else .done () s

def putCell (row col : U32) (c : U8) (s : Vga) : Outcome Vga Unit :=
  (writeChar (getPos row col s) c s).bind fun _ s => drawChar around row col c false s

def vgaNewline (s : Vga) : Outcome Vga Unit :=
  let s := { s with curCol := 0#32, curRow := s.curRow + 1#32 }
  if s.curRow < s.pixelHeight / 16#32 then .done () s else
  let s := { s with curRow := s.curRow - 1#32 }
  (Outcome.forTo (s.pixelHeight / 16#32 - 1#32)
    (fun i => Outcome.forTo (s.pixelWidth / 8#32) fun j => scrollCell around i j) s).bind fun _ s =>
  Outcome.forTo (s.pixelWidth / 8#32) (fun j s => putCell around s.curRow j 0x20#8 s) s

def vgaPutchar (c : U8) (s : Vga) : Outcome Vga Unit :=
  if s.isInitialized = false then .done () s
  else if c = 0x0A#8 then vgaNewline around s
  else if c = 0x08#8 then
    if s.curCol ≠ 0#32 then .done () { s with curCol := s.curCol - 1#32 }
    else if s.curRow ≠ 0#32 then
      .done () { s with curCol := s.pixelWidth / 8#32 - 1#32, curRow := s.curRow - 1#32 }
    else .done () s
  else
    (putCell around s.curRow s.curCol c s).bind fun _ s =>
    let s := { s with curCol := s.curCol + 1#32 }
    if s.pixelWidth / 8#32 ≤ s.curCol then vgaNewline around s else .done () s

def vgaToggleFlash (s : Vga) : Outcome Vga Unit :=
  (readChar (getPos s.curRow s.curCol s) s).bind fun c s =>
  let s := { s with flash := !s.flash }
  drawChar around s.curRow s.curCol c s.flash s

end Model

def vgaClear (s : Vga) : Outcome Vga Unit :=
  let s := { s with curRow := 0#32, curCol := 0#32 }
  Outcome.forTo s.pixelWidth (fun i => Outcome.forTo s.pixelHeight fun j =>
    vgaPutpixel i j 0#8 0#8 0#8) s

end Vga

end Lios

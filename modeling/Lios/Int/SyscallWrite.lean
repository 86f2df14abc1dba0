import Lios.Int.Syscall
import Lios.Io.VgaFontReads

/-! # Bytes that are written to the screen

`write` hands unsigned bytes to a routine that takes a signed character, and so does scrolling. The
glyph of a byte from 0x80 on is looked for in front of the font table; the other bytes are drawn with
their own glyphs, at once and whenever they are drawn again.
-/
namespace Lios.Syscall
open Vga
variable (around : ℤ → U64) (mem : U64 → U8) (other : SyscallCalls Watched) (fuel : ℕ)
  {data : SyscallData}

/-- The calls on a screen whose accesses to the font are watched, and on a memory that they leave
alone. -/
def console (around : ℤ → U64) (mem : U64 → U8) (other : SyscallCalls Watched) :
    SyscallCalls Watched :=
  { other with
    vgaPutchar := Watched.vgaPutchar around
    loadByte := fun p s => .done (mem p) s }

/-- The bytes that a program asks to write. -/
def written (mem : U64 → U8) (data : SyscallData) : List U8 :=
  (List.range data.rdx.toNat).map fun i => mem (data.rsi + BitVec.ofNat 64 i)

/-- Zeros are skipped. -/
def putByte (around : ℤ → U64) (c : U8) (s : Watched) : Outcome Watched Unit :=
  if c ≠ 0#8 then Watched.vgaPutchar around c s else .done () s

theorem syscallRoutine_write (hrax : data.rax = 1#64) (hrdi : data.rdi = 1#64) (s : Watched) :
    syscallRoutine (console around mem other) fuel data s =
      Outcome.forEach (putByte around) (written mem data) s := by
  have hread : data.rax ≠ 0#64 := by
    rw [hrax]
    decide
  rw [syscallRoutine,if_neg hread,if_pos hrax,if_pos hrdi,writeBytes,Outcome.forTo_eq_forEach,
    Outcome.forEach_map,written,Outcome.forEach_map]
  rfl

/-- The call and whatever happens to the screen after it. -/
def writeThen (around : ℤ → U64) (mem : U64 → U8) (other : SyscallCalls Watched) (fuel : ℕ)
    (data : SyscallData) (later : List ScreenCall) (v : Vga) : Outcome Watched Unit :=
  (syscallRoutine (console around mem other) fuel data ⟨v,[]⟩).bind fun _ s =>
  Outcome.forEach (ScreenCall.run around) later s

/-- Every access for one of the bytes, at once or later, is to its own glyph. -/
def DrawsGlyphs (around : ℤ → U64) (mem : U64 → U8) (other : SyscallCalls Watched) (fuel : ℕ)
    (data : SyscallData) (v : Vga) : Prop :=
  ∀ later t, (writeThen around mem other fuel data later v).Leaves t →
    ∀ r ∈ t.reads, r.char ∈ written mem data → r.InFont

theorem putByte_reads {P : List FontRead → Prop} (hP : ∀ l c, P l → P (l ++ readsOf c)) (c : U8)
    {s : Watched} (hs : P s.reads) : LeavesReads P (putByte around c s) := by
  rw [putByte]
  split
  · exact vgaPutchar_reads around hP c hs
  · exact hs

theorem writeThen_reads (hrax : data.rax = 1#64) (hrdi : data.rdi = 1#64)
    {P : List FontRead → Prop} (hP : ∀ l c, P l → P (l ++ readsOf c)) (hnil : P [])
    (later : List ScreenCall) (v : Vga) :
    LeavesReads P (writeThen around mem other fuel data later v) := by
  rw [writeThen,syscallRoutine_write around mem other fuel hrax hrdi]
  refine Outcome.Ends.andThen ?_ fun _ t ht => ?_
  · exact Outcome.forEach_ends (fun c s hs => putByte_reads around hP c hs) _ hnil
  · exact Outcome.forEach_ends (fun call s hs => call.run_reads around hP hs) _ ht

/-- On a screen that can be printed on, a byte from 0x80 on is drawn. -/
theorem putByte_ready {s : Watched} (hs : Ready s.screen) (c : U8) :
    ∃ t, putByte around c s = .done () t ∧ Ready t.screen ∧
      (0x80#8 ≤ c → ⟨c,c.toInt * 2⟩ ∈ t.reads) := by
  rw [putByte]
  by_cases hc : c = 0#8
  · rw [if_neg (not_not.mpr hc),hc]
    exact ⟨s,rfl,hs,fun h => absurd h (by decide)⟩
  · rw [if_pos hc]
    obtain ⟨v,hv,hprint⟩ := hs.run around (.putchar c)
    obtain ⟨t,ht,rfl⟩ := Outcome.mapState_eq_done.mp
      ((ScreenCall.run_screen around (.putchar c) s).trans hv)
    refine ⟨t,ht,hprint.ready,fun hle => ?_⟩
    have hn : c ≠ 0x0A#8 := by
      rintro rfl
      exact absurd hle (by decide)
    have hb : c ≠ 0x08#8 := by
      rintro rfl
      exact absurd hle (by decide)
    exact mem_reads_of_putchar hs.init hn hb ht _ List.mem_cons_self

theorem forEach_putByte_ready {text : List U8} {s : Watched} (hs : Ready s.screen) :
    ∃ t, Outcome.forEach (putByte around) text s = .done () t ∧ Ready t.screen ∧
      ∀ c ∈ text, 0x80#8 ≤ c → ⟨c,c.toInt * 2⟩ ∈ t.reads := by
  induction text generalizing s with
  | nil => exact ⟨s,rfl,hs,nofun⟩
  | cons d text ih =>
    obtain ⟨u,hu,hready,hdrawn⟩ := putByte_ready around hs d
    obtain ⟨t,ht,hready',hrest⟩ := ih hready
    refine ⟨t,by rw [Outcome.forEach,hu]; exact ht,hready',fun c hc hle => ?_⟩
    rcases List.mem_cons.mp hc with rfl | hc
    · -- What was read for the first byte stays in the list while the others are put out.
      exact (Outcome.forEach_ends (P := fun t => ⟨c,c.toInt * 2⟩ ∈ t.reads)
        (fun d s hs => putByte_reads around (P := fun l => ⟨c,c.toInt * 2⟩ ∈ l)
          (fun _ _ hl => List.mem_append_left _ hl) d hs) text (hdrawn hle)).of_done ht
    · exact hrest c hc hle

theorem syscallRoutine_drawn (hrax : data.rax = 1#64) (hrdi : data.rdi = 1#64) {v : Vga}
    (hv : Ready v) : ∃ t, syscallRoutine (console around mem other) fuel data ⟨v,[]⟩ = .done () t ∧
      ∀ c ∈ written mem data, 0x80#8 ≤ c → ⟨c,c.toInt * 2⟩ ∈ t.reads := by
  rw [syscallRoutine_write around mem other fuel hrax hrdi]
  obtain ⟨t,ht,-,hdrawn⟩ := forEach_putByte_ready around (s := ⟨v,[]⟩) hv
  exact ⟨t,ht,hdrawn⟩

/-- A byte from 0x80 on is looked for in front of the table. -/
theorem not_drawsGlyphs (hrax : data.rax = 1#64) (hrdi : data.rdi = 1#64) {v : Vga} (hv : Ready v)
    {c : U8} (hc : c ∈ written mem data) (hle : 0x80#8 ≤ c) :
    ¬DrawsGlyphs around mem other fuel data v := by
  intro h
  obtain ⟨t,ht,hdrawn⟩ := syscallRoutine_drawn around mem other fuel hrax hrdi hv
  have hleaves : (writeThen around mem other fuel data [] v).Leaves t := by
    rw [writeThen,ht]
    rfl
  exact not_inFont_of_le hle (h [] t hleaves _ (hdrawn c hc hle) hc)

/-- If all bytes are below 0x80, then they are drawn with their own glyphs, whatever the state of the
screen is and whatever happens to it later. On a screen that can be printed on this is also
necessary. -/
theorem write_drawsGlyphs_iff (hrax : data.rax = 1#64) (hrdi : data.rdi = 1#64) :
    ((∀ c ∈ written mem data, c < 0x80#8) → ∀ v, DrawsGlyphs around mem other fuel data v) ∧
      ∀ v, Ready v →
        (DrawsGlyphs around mem other fuel data v ↔ ∀ c ∈ written mem data, c < 0x80#8) := by
  have hsuff : (∀ c ∈ written mem data, c < 0x80#8) →
      ∀ v, DrawsGlyphs around mem other fuel data v := by
    intro hsmall v later t hleaves r hr hchar
    have hdraw (l : List FontRead) (c : U8) (hl : ∀ r ∈ l, ∃ c, r ∈ readsOf c) :
        ∀ r ∈ l ++ readsOf c, ∃ c, r ∈ readsOf c := by
      intro r hr
      rcases List.mem_append.mp hr with hr | hr
      · exact hl r hr
      · exact ⟨c,hr⟩
    have hreads := writeThen_reads around mem other fuel hrax hrdi hdraw nofun later v
    obtain ⟨c,hc⟩ := hreads.of_leaves hleaves r hr
    exact inFont_of_mem_readsOf hc (hsmall r.char hchar)
  refine ⟨hsuff,fun v hv => ⟨fun h c hc => ?_,fun h => hsuff h v⟩⟩
  by_contra hlt
  exact not_drawsGlyphs around mem other fuel hrax hrdi hv hc (BitVec.not_lt.mp hlt) h

namespace Sample

/-- A console without a keyboard. -/
def noKeyboard : SyscallCalls Watched where
  vgaPutchar := Watched.vgaPutchar fun _ => 0#64
  serialPutchar _ s := .done () s
  vgaIsInitialized s := s.screen.isInitialized
  loadByte _ s := .done 0#8 s
  memset _ _ _ s := .done () s
  memcpy _ _ _ s := .done () s
  keyboardStartRecording s := .done () s
  keyboardIsRecording _ := false
  keyboardGetRecording _ := ⟨0#64,0#64⟩
  keyboardEndRecording s := .done () s
  interrupt s := .done () s

/-- One byte is written. -/
def oneByte : SyscallData := ⟨1#64,1#64,0x400000#64,1#64⟩

/-- A screen of one cell. -/
def oneCell : Vga := ⟨8#32,16#32,32#32,0#32,0#32,fun _ => 0#8,fun _ => 0#8,true,false,[]⟩

theorem oneCell_ready : Ready oneCell :=
  ⟨⟨by decide,by decide⟩,rfl,by decide,by decide⟩

theorem letter_drawsGlyphs : written (fun _ => 0x61#8) oneByte = [0x61#8] ∧
    DrawsGlyphs (fun _ => 0#64) (fun _ => 0x61#8) noKeyboard 0 oneByte oneCell :=
  ⟨rfl,((write_drawsGlyphs_iff (fun _ => 0#64) (fun _ => 0x61#8) noKeyboard 0 rfl rfl).2 oneCell
    oneCell_ready).mpr (by decide)⟩

/-- The glyph of 0x80 is looked for 256 words in front of the table. -/
theorem highByte_not_drawsGlyphs : written (fun _ => 0x80#8) oneByte = [0x80#8] ∧
    (∃ t, syscallRoutine (console (fun _ => 0#64) (fun _ => 0x80#8) noKeyboard) 0 oneByte
      ⟨oneCell,[]⟩ = .done () t ∧ ⟨0x80#8,-256⟩ ∈ t.reads) ∧
    ¬DrawsGlyphs (fun _ => 0#64) (fun _ => 0x80#8) noKeyboard 0 oneByte oneCell := by
  obtain ⟨t,ht,hdrawn⟩ := syscallRoutine_drawn (fun _ => 0#64) (fun _ => 0x80#8) noKeyboard 0
    (rfl : oneByte.rax = 1#64) rfl oneCell_ready
  have hread := hdrawn 0x80#8 List.mem_cons_self (by decide)
  exact ⟨rfl,⟨t,ht,hread⟩,not_drawsGlyphs (fun _ => 0#64) (fun _ => 0x80#8) noKeyboard 0 rfl rfl
    oneCell_ready List.mem_cons_self (by decide)⟩

end Sample

end Lios.Syscall

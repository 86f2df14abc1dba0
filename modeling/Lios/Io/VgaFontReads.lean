import Lios.Io.VgaScreen

/-! # The accesses to the font

The calls of the screen with a list of the words of the font table that `draw_char` reads, each with
the character it is read for. The table is indexed by twice the character as a signed number. Without
the list the calls are those of the model; and a property of the list that drawing keeps is kept by
every call.
-/
namespace Lios.Vga

structure FontRead where
  char : U8
  index : ℤ

/-- The index is that of one of the two words of the glyph of the unsigned character. -/
def FontRead.InFont (r : FontRead) : Prop :=
  0 ≤ r.index ∧ r.index ≤ 511 ∧ (r.index = 2 * r.char.toNat ∨ r.index = 2 * r.char.toNat + 1)

/-- The words that are read to draw a character. -/
def readsOf (c : U8) : List FontRead := [⟨c,c.toInt * 2⟩,⟨c,c.toInt * 2 + 1⟩]

theorem inFont_of_mem_readsOf {c : U8} {r : FontRead} (hr : r ∈ readsOf c) (hc : r.char < 0x80#8) :
    r.InFont := by
  rw [readsOf,List.mem_cons,List.mem_singleton] at hr
  have hchar : r.char = c := by
    rcases hr with rfl | rfl <;> rfl
  rw [hchar] at hc
  have hlt : c.toNat < 128 := hc
  have hint : c.toInt = c.toNat := BitVec.toInt_eq_toNat_of_lt (by omega)
  rw [FontRead.InFont,hchar]
  rcases hr with rfl | rfl
  · simp only [hint]
    omega
  · simp only [hint]
    omega

theorem not_inFont_of_le {c : U8} (hc : 0x80#8 ≤ c) : ¬FontRead.InFont ⟨c,c.toInt * 2⟩ := by
  have hle : 128 ≤ c.toNat := hc
  have hneg : c.toInt < 0 := BitVec.toInt_neg_iff.mpr (by omega)
  rintro ⟨hindex,-⟩
  dsimp only at hindex
  omega

/-- The screen and the accesses so far. -/
structure Watched where
  screen : Vga
  reads : List FontRead

def onScreen : Lens Watched Vga where
  get s := s.screen
  set v s := { s with screen := v }
  get_set _ _ := rfl
  set_get _ := rfl
  set_set _ _ _ := rfl

namespace Watched
variable (around : ℤ → U64)

def drawChar (row col : U32) (c : U8) (inverted : Bool) (s : Watched) : Outcome Watched Unit :=
  onScreen.lift (Vga.drawChar around row col c inverted) { s with reads := s.reads ++ readsOf c }

def scrollCell (i j : U32) (s : Watched) : Outcome Watched Unit :=
  let line := getPos i j s.screen
  let next := getPos (i + 1#32) j s.screen
  (onScreen.lift (readChar next) s).bind fun c s =>
  (onScreen.lift (writeChar line c) s).bind fun _ s =>
  if c ≠ 0#8 then drawChar around i j c false s else .done () s

def putCell (row col : U32) (c : U8) (s : Watched) : Outcome Watched Unit :=
  (onScreen.lift (writeChar (getPos row col s.screen) c) s).bind fun _ s =>
  drawChar around row col c false s

def vgaNewline (s : Watched) : Outcome Watched Unit :=
  let s := { s with screen.curCol := 0#32, screen.curRow := s.screen.curRow + 1#32 }
  if s.screen.curRow < s.screen.pixelHeight / 16#32 then .done () s else
  let s := { s with screen.curRow := s.screen.curRow - 1#32 }
  (Outcome.forTo (s.screen.pixelHeight / 16#32 - 1#32)
    (fun i => Outcome.forTo (s.screen.pixelWidth / 8#32) fun j => scrollCell around i j) s).bind
      fun _ s =>
  Outcome.forTo (s.screen.pixelWidth / 8#32)
    (fun j s => putCell around s.screen.curRow j 0x20#8 s) s

def vgaPutchar (c : U8) (s : Watched) : Outcome Watched Unit :=
  if s.screen.isInitialized = false then .done () s
  else if c = 0x0A#8 then vgaNewline around s
  else if c = 0x08#8 then
    if s.screen.curCol ≠ 0#32 then .done () { s with screen.curCol := s.screen.curCol - 1#32 }
    else if s.screen.curRow ≠ 0#32 then
      .done () { s with
        screen.curCol := s.screen.pixelWidth / 8#32 - 1#32
        screen.curRow := s.screen.curRow - 1#32 }
    else .done () s
  else
    (putCell around s.screen.curRow s.screen.curCol c s).bind fun _ s =>
    let s := { s with screen.curCol := s.screen.curCol + 1#32 }
    if s.screen.pixelWidth / 8#32 ≤ s.screen.curCol then vgaNewline around s else .done () s

def vgaToggleFlash (s : Watched) : Outcome Watched Unit :=
  (onScreen.lift (readChar (getPos s.screen.curRow s.screen.curCol s.screen)) s).bind fun c s =>
  let s := { s with screen.flash := !s.screen.flash }
  drawChar around s.screen.curRow s.screen.curCol c s.screen.flash s

end Watched

/-- Everything that can happen to the screen. -/
inductive ScreenCall where
  | putchar (c : U8)
  | newline
  | toggleFlash
  | clear

def ScreenCall.run (around : ℤ → U64) : ScreenCall → Watched → Outcome Watched Unit
  | putchar c => Watched.vgaPutchar around c
  | newline => Watched.vgaNewline around
  | toggleFlash => Watched.vgaToggleFlash around
  | clear => onScreen.lift vgaClear

/-- The call on the screen alone. -/
def ScreenCall.runPlain (around : ℤ → U64) : ScreenCall → Vga → Outcome Vga Unit
  | putchar c => vgaPutchar around c
  | newline => vgaNewline around
  | toggleFlash => vgaToggleFlash around
  | clear => vgaClear

/-! Without the list. -/

section Erase
variable (around : ℤ → U64)

theorem drawChar_screen (row col : U32) (c : U8) (inverted : Bool) (s : Watched) :
    (Watched.drawChar around row col c inverted s).mapState Watched.screen =
      drawChar around row col c inverted s.screen :=
  onScreen.mapState_lift _ _

theorem lift_bind_screen {α β : Type} {f : Vga → Outcome Vga α}
    {g : α → Watched → Outcome Watched β} {g' : α → Vga → Outcome Vga β} {s : Watched}
    (h : ∀ a t, (g a t).mapState Watched.screen = g' a t.screen) :
    ((onScreen.lift f s).bind g).mapState Watched.screen = (f s.screen).bind g' := by
  rw [Outcome.mapState_bind fun a t _ => h a t]
  congr 1
  exact onScreen.mapState_lift f s

theorem scrollCell_screen (i j : U32) (s : Watched) :
    (Watched.scrollCell around i j s).mapState Watched.screen = scrollCell around i j s.screen := by
  refine lift_bind_screen fun c t => ?_
  refine lift_bind_screen fun _ u => ?_
  split
  · exact drawChar_screen around i j c false u
  · rfl

theorem putCell_screen (row col : U32) (c : U8) (s : Watched) :
    (Watched.putCell around row col c s).mapState Watched.screen =
      putCell around row col c s.screen :=
  lift_bind_screen fun _ t => drawChar_screen around row col c false t

theorem vgaNewline_screen (s : Watched) :
    (Watched.vgaNewline around s).mapState Watched.screen = vgaNewline around s.screen := by
  rw [Watched.vgaNewline,vgaNewline]
  dsimp only
  split
  · rfl
  rw [Outcome.mapState_bind (k := fun _ v =>
    Outcome.forTo (v.pixelWidth / 8#32) (fun j v => putCell around v.curRow j 0x20#8 v) v)]
  · congr 1
    exact Outcome.forTo_mapState (fun i => Outcome.forTo_mapState (scrollCell_screen around i)) _
  · intro _ t _
    exact Outcome.forTo_mapState (fun j u => putCell_screen around u.screen.curRow j 0x20#8 u) t

theorem vgaPutchar_screen (c : U8) (s : Watched) :
    (Watched.vgaPutchar around c s).mapState Watched.screen = vgaPutchar around c s.screen := by
  rw [Watched.vgaPutchar,vgaPutchar]
  split
  · rfl
  split
  · exact vgaNewline_screen around s
  split
  · split
    · rfl
    split
    · rfl
    · rfl
  · rw [Outcome.mapState_bind (k := fun _ v =>
      let v := { v with curCol := v.curCol + 1#32 }
      if v.pixelWidth / 8#32 ≤ v.curCol then vgaNewline around v else .done () v),putCell_screen]
    intro _ t _
    dsimp only
    split
    · exact vgaNewline_screen around _
    · rfl

theorem vgaToggleFlash_screen (s : Watched) :
    (Watched.vgaToggleFlash around s).mapState Watched.screen = vgaToggleFlash around s.screen :=
  lift_bind_screen fun c t => drawChar_screen around t.screen.curRow t.screen.curCol c _ _

/-- Without the list every call is the one of the model. -/
theorem ScreenCall.run_screen (call : ScreenCall) (s : Watched) :
    (call.run around s).mapState Watched.screen = call.runPlain around s.screen := by
  cases call with
  | putchar c => exact vgaPutchar_screen around c s
  | newline => exact vgaNewline_screen around s
  | toggleFlash => exact vgaToggleFlash_screen around s
  | clear => exact onScreen.mapState_lift vgaClear s

end Erase

/-! What drawing keeps. -/

section Keep
variable (around : ℤ → U64) {P : List FontRead → Prop}

/-- Wherever the call ends, `P` holds of the accesses. -/
abbrev LeavesReads {α : Type} (P : List FontRead → Prop) (x : Outcome Watched α) : Prop :=
  x.Ends (fun t => P t.reads) (fun t => P t.reads) True

theorem lift_reads {α : Type} {s : Watched} (hs : P s.reads) (f : Vga → Outcome Vga α) :
    LeavesReads P (onScreen.lift f s) :=
  Lens.lift_ends f fun _ => hs

variable (hP : ∀ l c, P l → P (l ++ readsOf c))
include hP

theorem drawChar_reads (row col : U32) (c : U8) (inverted : Bool) {s : Watched} (hs : P s.reads) :
    LeavesReads P (Watched.drawChar around row col c inverted s) :=
  lift_reads (hP s.reads c hs) _

theorem scrollCell_reads (i j : U32) {s : Watched} (hs : P s.reads) :
    LeavesReads P (Watched.scrollCell around i j s) := by
  refine (lift_reads hs _).andThen fun c t ht => ?_
  refine (lift_reads ht _).andThen fun _ u hu => ?_
  split
  · exact drawChar_reads around hP i j c false hu
  · exact hu

theorem putCell_reads (row col : U32) (c : U8) {s : Watched} (hs : P s.reads) :
    LeavesReads P (Watched.putCell around row col c s) :=
  (lift_reads hs _).andThen fun _ _ ht => drawChar_reads around hP row col c false ht

theorem vgaNewline_reads {s : Watched} (hs : P s.reads) :
    LeavesReads P (Watched.vgaNewline around s) := by
  rw [Watched.vgaNewline]
  dsimp only
  split
  · exact hs
  refine Outcome.Ends.andThen ?_ fun _ t ht => ?_
  · exact Outcome.forTo_ends hs fun i t ht =>
      Outcome.forTo_ends ht fun j u hu => scrollCell_reads around hP i j hu
  · exact Outcome.forTo_ends ht fun j u hu => putCell_reads around hP u.screen.curRow j 0x20#8 hu

theorem vgaPutchar_reads (c : U8) {s : Watched} (hs : P s.reads) :
    LeavesReads P (Watched.vgaPutchar around c s) := by
  rw [Watched.vgaPutchar]
  split
  · exact hs
  split
  · exact vgaNewline_reads around hP hs
  split
  · split
    · exact hs
    split
    · exact hs
    · exact hs
  · refine (putCell_reads around hP _ _ c hs).andThen fun _ t ht => ?_
    dsimp only
    split
    · exact vgaNewline_reads around hP ht
    · exact ht

theorem vgaToggleFlash_reads {s : Watched} (hs : P s.reads) :
    LeavesReads P (Watched.vgaToggleFlash around s) :=
  (lift_reads hs _).andThen fun c _ ht => drawChar_reads around hP _ _ c _ ht

theorem ScreenCall.run_reads (call : ScreenCall) {s : Watched} (hs : P s.reads) :
    LeavesReads P (call.run around s) := by
  cases call with
  | putchar c => exact vgaPutchar_reads around hP c hs
  | newline => exact vgaNewline_reads around hP hs
  | toggleFlash => exact vgaToggleFlash_reads around hP hs
  | clear => exact lift_reads hs _

end Keep

/-- A character that is put into a cell is drawn at once. -/
theorem mem_reads_of_putchar {around : ℤ → U64} {c : U8} {s t : Watched}
    (hinit : s.screen.isInitialized = true) (hn : c ≠ 0x0A#8) (hb : c ≠ 0x08#8)
    (h : Watched.vgaPutchar around c s = .done () t) : ∀ r ∈ readsOf c, r ∈ t.reads := by
  intro r hr
  rw [Watched.vgaPutchar,if_neg (by rw [hinit]; exact Bool.noConfusion),if_neg hn,if_neg hb] at h
  obtain ⟨_,u,hput,hrest⟩ := Outcome.bind_eq_done.mp h
  obtain ⟨_,v,hwrite,hdraw⟩ := Outcome.bind_eq_done.mp hput
  obtain ⟨w,-,rfl⟩ := Lens.lift_eq_done.mp hdraw
  have hmem : r ∈ v.reads ++ readsOf c := List.mem_append_right _ hr
  dsimp only at hrest
  split at hrest
  · exact (vgaNewline_reads around (P := fun l => r ∈ l)
      (fun _ _ hl => List.mem_append_left _ hl) hmem).of_done hrest
  · obtain ⟨-,rfl⟩ := Outcome.done.inj hrest
    exact hmem

end Lios.Vga

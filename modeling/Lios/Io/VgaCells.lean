import Lios.Io.VgaDraw

/-! # The cells of the screen

Each cell of the screen has a character in the text buffer and an image of 8 by 16 pixels.
This module says what the calls do to the cells: putting a character, scrolling and clearing.
-/
namespace Lios.Vga
variable {s t u : Vga} {around : ℤ → U64} {r l : ℕ} {row col : U32} {c : U8}

abbrev Image := Fin 16 → Fin 8 → Rgb

def glyph (around : ℤ → U64) (c : U8) : Image := fun i j => glyphPixel around false c i j

def black : Image := fun _ _ => (0#8,0#8,0#8)

def rows (s : Vga) : ℕ := s.pixelHeight.toNat / 16
def cols (s : Vga) : ℕ := s.pixelWidth.toNat / 8

/-- The entry of a cell in the text buffer. -/
def charAt (s : Vga) (r l : ℕ) : U8 := s.vgaChars (BitVec.ofNat 32 (r * cols s + l))

def image (s : Vga) (r l : ℕ) : Image := fun i j => pixelAt s (l * 8 + j) (r * 16 + i)

/-- A character and an image for each cell. -/
abbrev Cells := ℕ × ℕ → U8 × Image

def cells (s : Vga) : Cells := fun p => (charAt s p.1 p.2,image s p.1 p.2)

theorem charAt_eq (s : Vga) (r l : ℕ) : charAt s r l = (cells s (r,l)).1 := rfl

def grid (s : Vga) : Set (ℕ × ℕ) := {p | p.1 < rows s ∧ p.2 < cols s}

/-- The screen without its pixels and characters. -/
def board (s : Vga) : Vga := { s with vgaVirt := fun _ => 0#8, vgaChars := fun _ => 0#8 }

abbrev Redraws (g : Cells) (A : Set (ℕ × ℕ)) (s t : Vga) : Prop :=
  Overwrites board cells (grid s) g A s t

section Geometry

theorem toNat_rows (s : Vga) : (s.pixelHeight / 16#32).toNat = rows s := BitVec.toNat_udiv

theorem toNat_cols (s : Vga) : (s.pixelWidth / 8#32).toNat = cols s := BitVec.toNat_udiv

theorem size_of_board (h : board t = board s) : t.pixelWidth = s.pixelWidth ∧
    t.pixelHeight = s.pixelHeight ∧ t.vgaPitch = s.vgaPitch := by
  have hw : (board t).pixelWidth = (board s).pixelWidth := congrArg _ h
  have hh : (board t).pixelHeight = (board s).pixelHeight := congrArg _ h
  have hp : (board t).vgaPitch = (board s).vgaPitch := congrArg _ h
  exact ⟨hw,hh,hp⟩

theorem cursor_of_board (h : board t = board s) : t.curRow = s.curRow ∧ t.curCol = s.curCol ∧
    t.isInitialized = s.isInitialized := by
  have hr : (board t).curRow = (board s).curRow := congrArg _ h
  have hc : (board t).curCol = (board s).curCol := congrArg _ h
  have hi : (board t).isInitialized = (board s).isInitialized := congrArg _ h
  exact ⟨hr,hc,hi⟩

theorem Framed.of_board (h : board t = board s) (hf : Framed s) : Framed t :=
  hf.of_size (size_of_board h)

theorem grid_of_board (h : board t = board s) :
    rows t = rows s ∧ cols t = cols s ∧ grid t = grid s := by
  obtain ⟨hw,hh,-⟩ := size_of_board h
  simp only [rows,cols,grid,hw,hh,and_self]

/-- The cells have 32-bit positions. -/
theorem Framed.cells_lt (hf : Framed s) : rows s * cols s < 2 ^ 32 := by
  have hline := hf.line
  have hsize := hf.size
  have harea : s.pixelHeight.toNat * (4 * s.pixelWidth.toNat) ≤ 2 ^ 32 := by
    refine le_trans (Nat.mul_le_mul_left _ hline) ?_
    rwa [frameSize,Nat.mul_comm] at hsize
  have hcells : rows s * (16 * cols s) ≤ s.pixelHeight.toNat * (4 * s.pixelWidth.toNat) := by
    refine Nat.mul_le_mul (Nat.div_le_self _ _) ?_
    have := Nat.div_mul_le_self s.pixelWidth.toNat 8
    rw [cols]
    omega
  rw [Nat.mul_left_comm] at hcells
  omega

theorem pos_lt (hr : r < rows s) (hl : l < cols s) : r * cols s + l < rows s * cols s := by
  have := Nat.mul_le_mul_right (cols s) (Nat.succ_le_of_lt hr)
  rw [Nat.succ_mul] at this
  omega

theorem Framed.pos_inj (hf : Framed s) {r' l' : ℕ} (hr : r < rows s) (hl : l < cols s)
    (hr' : r' < rows s) (hl' : l' < cols s)
    (h : BitVec.ofNat 32 (r * cols s + l) = BitVec.ofNat 32 (r' * cols s + l')) :
    r = r' ∧ l = l' := by
  have hcells := hf.cells_lt
  have hpos := pos_lt hr hl
  have hpos' := pos_lt hr' hl'
  have heq := congrArg BitVec.toNat h
  rw [BitVec.toNat_ofNat,BitVec.toNat_ofNat,Nat.mod_eq_of_lt (by omega),
    Nat.mod_eq_of_lt (by omega)] at heq
  have hrow := congrArg (· / cols s) heq
  simp only [Nat.mul_comm _ (cols s),Nat.mul_add_div (by omega : 0 < cols s)] at hrow
  rw [Nat.div_eq_of_lt hl,Nat.div_eq_of_lt hl'] at hrow
  obtain rfl : r = r' := hrow
  exact ⟨rfl,by omega⟩

theorem getPos_eq (row col : U32) (s : Vga) :
    getPos row col s = BitVec.ofNat 32 (row.toNat * cols s + col.toNat) := by
  apply BitVec.eq_of_toNat_eq
  rw [getPos,BitVec.toNat_add,BitVec.toNat_mul,toNat_cols,BitVec.toNat_ofNat,Nat.mod_add_mod]

theorem Framed.getPos_lt (hf : Framed s) (hr : row.toNat < rows s) (hl : col.toNat < cols s) :
    getPos row col s < charsSize s := by
  have hcells := hf.cells_lt
  have hpos := pos_lt hr hl
  rw [getPos_eq,BitVec.lt_def,charsSize,BitVec.toNat_mul,toNat_rows,toNat_cols,BitVec.toNat_ofNat,
    Nat.mod_eq_of_lt hcells,Nat.mod_eq_of_lt (by omega)]
  exact hpos

end Geometry

section Cell

/-- A character in the text buffer, with the image left as it is. -/
theorem writeChar_redraws (c : U8) (hf : Framed s) (hr : row.toNat < rows s)
    (hl : col.toNat < cols s) :
    ∃ t, writeChar (getPos row col s) c s = .done () t ∧
      Redraws (fun p => (c,image s p.1 p.2)) {(row.toNat,col.toNat)} s t := by
  rw [writeChar,if_pos (hf.getPos_lt hr hl),getPos_eq]
  refine ⟨_,rfl,rfl,?_,?_⟩
  · rintro p ⟨-,rfl⟩
    exact congrArg₂ Prod.mk (Function.update_self _ _ _) rfl
  · rintro ⟨r,l⟩ ⟨⟨hr',hl'⟩,hne⟩
    refine congrArg₂ Prod.mk (Function.update_of_ne (fun heq => hne ?_) _ _) rfl
    obtain ⟨rfl,rfl⟩ := hf.pos_inj hr' hl' hr hl heq
    rfl

theorem charAt_of_canvas (h : canvas t = canvas s) : charAt t r l = charAt s r l := by
  have hc : (canvas t).vgaChars = (canvas s).vgaChars := congrArg _ h
  have hc : t.vgaChars = s.vgaChars := hc
  obtain ⟨hw,-,-⟩ := size_of_canvas h
  rw [charAt,charAt,cols,cols,hc,hw]

/-- The glyph of a character, with the text buffer left as it is. -/
theorem drawChar_redraws (around : ℤ → U64) (c : U8) (hf : Framed s) (hr : row.toNat < rows s)
    (hl : col.toNat < cols s) :
    ∃ t, drawChar around row col c false s = .done () t ∧
      Redraws (fun p => (charAt s p.1 p.2,glyph around c)) {(row.toNat,col.toNat)} s t := by
  have hrow : row < s.pixelHeight / 16#32 := by rwa [BitVec.lt_def,toNat_rows]
  have hcol : col < s.pixelWidth / 8#32 := by rwa [BitVec.lt_def,toNat_cols]
  obtain ⟨t,ht,hpaint⟩ := drawChar_paints around c false hf hrow hcol
  have hboard : board (canvas t) = board (canvas s) := congrArg board hpaint.same
  have hpixel {p : ℕ × ℕ} (hp : p ∈ grid s) (i : Fin 16) (j : Fin 8) :
      (p.2 * 8 + j.val,p.1 * 16 + i.val) ∈ frame s ∧
      ((p.2 * 8 + j.val,p.1 * 16 + i.val) ∈ cell row.toNat col.toNat ↔
        p = (row.toNat,col.toNat)) := by
    obtain ⟨hpr,hpl⟩ : p.1 < s.pixelHeight.toNat / 16 ∧ p.2 < s.pixelWidth.toNat / 8 := hp
    refine ⟨⟨by dsimp only; omega,by dsimp only; omega⟩,?_⟩
    change (p.1 * 16 + i.val) / 16 = row.toNat ∧ (p.2 * 8 + j.val) / 8 = col.toNat ↔ _
    rw [show (p.1 * 16 + i.val) / 16 = p.1 by omega,show (p.2 * 8 + j.val) / 8 = p.2 by omega,
      Prod.ext_iff]
  refine ⟨t,ht,hboard,fun p hp => ?_,fun p hp => ?_⟩
  · refine congrArg₂ Prod.mk (charAt_of_canvas hpaint.same) (funext fun i => funext fun j => ?_)
    obtain ⟨hin,hcell⟩ := hpixel hp.1 i j
    have hdrawn := hpaint.drawn ⟨hin,hcell.mpr hp.2⟩
    refine hdrawn.trans ?_
    change glyphPixel around false c ((p.1 * 16 + i.val) % 16) ((p.2 * 8 + j.val) % 8) = _
    rw [show (p.1 * 16 + i.val) % 16 = i.val by omega,show (p.2 * 8 + j.val) % 8 = j.val by omega]
    rfl
  · refine congrArg₂ Prod.mk (charAt_of_canvas hpaint.same) (funext fun i => funext fun j => ?_)
    obtain ⟨hin,hcell⟩ := hpixel hp.1 i j
    exact hpaint.kept ⟨hin,fun h => hp.2 (hcell.mp h)⟩

theorem putCell_redraws (around : ℤ → U64) (c : U8) (hf : Framed s) (hr : row.toNat < rows s)
    (hl : col.toNat < cols s) :
    ∃ t, putCell around row col c s = .done () t ∧
      Redraws (fun _ => (c,glyph around c)) {(row.toNat,col.toNat)} s t := by
  obtain ⟨t,ht,hwrite⟩ := writeChar_redraws c hf hr hl
  obtain ⟨hrows,hcols,hgrid⟩ := grid_of_board hwrite.same
  obtain ⟨u,hu,hdraw⟩ := drawChar_redraws around c (hf.of_board hwrite.same) (hrows ▸ hr)
    (hcols ▸ hl)
  rw [Redraws,hgrid] at hdraw
  refine ⟨u,by rw [putCell,ht,Outcome.bind_done,hu],(hwrite.again hdraw).of_eqOn ?_⟩
  intro p hp
  have hchar : charAt t p.1 p.2 = c := congrArg Prod.fst (hwrite.drawn hp)
  exact congrArg (Prod.mk · (glyph around c)) hchar

/-- The cells one line further up, with an empty last line. A zero brings no image with it. -/
def Cells.scrolled (around : ℤ → U64) (n : ℕ) (v : Cells) : Cells := fun p =>
  if p.1 + 1 = n then (0x20#8,glyph around 0x20#8)
  else
    let c := (v (p.1 + 1,p.2)).1
    (c,if c = 0#8 then (v p).2 else glyph around c)

theorem scrollCell_redraws (around : ℤ → U64) (hf : Framed s) (hr : row.toNat + 1 < rows s)
    (hl : col.toNat < cols s) :
    ∃ t, scrollCell around row col s = .done () t ∧
      Redraws ((cells s).scrolled around (rows s)) {(row.toNat,col.toNat)} s t := by
  have hrows : rows s < 2 ^ 32 := lt_of_le_of_lt (Nat.div_le_self _ _) s.pixelHeight.isLt
  have hnext : (row + 1#32).toNat = row.toNat + 1 := by
    rw [BitVec.toNat_add,show (1#32).toNat = 1 from rfl]
    omega
  have hread : readChar (getPos (row + 1#32) col s) s =
      .done (charAt s (row.toNat + 1) col.toNat) s := by
    rw [readChar,if_pos (hf.getPos_lt (by omega) hl),getPos_eq,hnext]
    rfl
  have htarget : (cells s).scrolled around (rows s) (row.toNat,col.toNat) =
      (charAt s (row.toNat + 1) col.toNat,if charAt s (row.toNat + 1) col.toNat = 0#8
        then image s row.toNat col.toNat else glyph around (charAt s (row.toNat + 1) col.toNat)) :=
    if_neg (by dsimp only; omega)
  rw [scrollCell,hread,Outcome.bind_done]
  by_cases hc : charAt s (row.toNat + 1) col.toNat = 0#8
  · obtain ⟨t,ht,hwrite⟩ := writeChar_redraws (charAt s (row.toNat + 1) col.toNat) hf
      (by omega : row.toNat < rows s) hl
    refine ⟨t,by rw [ht,Outcome.bind_done,if_neg (not_not.mpr hc)],hwrite.of_eqOn ?_⟩
    rintro p ⟨-,rfl⟩
    rw [htarget,if_pos hc]
  · obtain ⟨t,ht,hput⟩ := putCell_redraws around (charAt s (row.toNat + 1) col.toNat) hf
      (by omega : row.toNat < rows s) hl
    refine ⟨t,?_,hput.of_eqOn ?_⟩
    · rw [putCell] at ht
      simp only [if_pos hc]
      exact ht
    · rintro p ⟨-,rfl⟩
      rw [htarget,if_neg hc]

end Cell

section Calls

def line (r : ℕ) : Set (ℕ × ℕ) := {p | p.1 = r}

/-- A loop over the cells of a line. -/
theorem line_redraws {g : Cells} {n : U32} {f : U32 → Vga → Outcome Vga Unit} {D : Set (ℕ × ℕ)}
    (hD : ∀ p ∈ D, p.2 < n.toNat)
    (hf : ∀ j t, j < n → Overwrites board cells D g {p | p.1 = r ∧ p.2 < j.toNat} s t →
      ∃ u, f j t = .done () u ∧ Overwrites board cells D g {(r,j.toNat)} t u) :
    ∃ t, Outcome.forTo n f s = .done () t ∧ Overwrites board cells D g (line r) s t := by
  obtain ⟨t,ht,hover⟩ : ∃ t, Outcome.forTo n f s = .done () t ∧
      Overwrites board cells D g {p | ∃ j < n.toNat, p ∈ ({(r,j)} : Set (ℕ × ℕ))} s t := by
    refine Overwrites.forTo (A := fun j => {(r,j)}) fun j t hj ht => ?_
    refine hf j t hj (ht.congr fun p _ => ?_)
    simp only [Set.mem_ofPred_eq,Set.mem_singleton_iff,Prod.ext_iff]
    exact ⟨fun h => ⟨p.2,h.2,h.1,rfl⟩,fun ⟨j,hj,h⟩ => ⟨h.1,h.2 ▸ hj⟩⟩
  refine ⟨t,ht,hover.congr fun p hp => ?_⟩
  simp only [Set.mem_ofPred_eq,Set.mem_singleton_iff,Prod.ext_iff,line]
  exact ⟨fun h => ⟨p.2,hD p hp,h,rfl⟩,fun ⟨j,_,h⟩ => h.1⟩

/-- The lines above the last one take the text of the next line. -/
theorem scrollLines_redraws (around : ℤ → U64) (hf : Framed s) (hrows : 0 < rows s) :
    ∃ t, Outcome.forTo (s.pixelHeight / 16#32 - 1#32)
        (fun i => Outcome.forTo (s.pixelWidth / 8#32) fun j => scrollCell around i j) s =
          .done () t ∧
      Redraws ((cells s).scrolled around (rows s)) {p | p.1 + 1 < rows s} s t := by
  have hcount : (s.pixelHeight / 16#32 - 1#32).toNat = rows s - 1 := by
    have hlt : rows s < 2 ^ 32 := lt_of_le_of_lt (Nat.div_le_self _ _) s.pixelHeight.isLt
    rw [BitVec.toNat_sub,toNat_rows,show (1#32).toNat = 1 from rfl]
    omega
  obtain ⟨t,ht,hover⟩ : ∃ t, Outcome.forTo (s.pixelHeight / 16#32 - 1#32)
        (fun i => Outcome.forTo (s.pixelWidth / 8#32) fun j => scrollCell around i j) s =
          .done () t ∧
      Redraws ((cells s).scrolled around (rows s)) {p | ∃ i < (s.pixelHeight / 16#32 - 1#32).toNat,
        p ∈ line i} s t := by
    refine Overwrites.forTo (A := line) fun i t hi ht => ?_
    rw [BitVec.lt_def,hcount] at hi
    refine line_redraws (fun p hp => by rw [toNat_cols]; exact hp.2) fun j u hj hu => ?_
    rw [BitVec.lt_def,toNat_cols] at hj
    have hsame := hu.same.trans ht.same
    obtain ⟨hru,hcu,hgu⟩ := grid_of_board hsame
    obtain ⟨w,hw,hround⟩ := @scrollCell_redraws u i j around (hf.of_board hsame) (by omega)
      (by omega)
    refine ⟨w,hw,?_⟩
    rw [Redraws,hgu,hru] at hround
    refine hround.of_eqOn ?_
    rintro p ⟨-,rfl⟩
    have hkept (a : ℕ) (ha : i.toNat ≤ a) (har : a < rows s) :
        cells u (a,j.toNat) = cells s (a,j.toNat) := by
      rw [hu.kept ⟨⟨har,hj⟩,fun h => absurd h.2 (Nat.lt_irrefl _)⟩,ht.kept ⟨⟨har,hj⟩,?_⟩]
      rintro ⟨b,hb,hab⟩
      have : a = b := hab
      omega
    simp only [Cells.scrolled,hkept i.toNat le_rfl (by omega),
      hkept (i.toNat + 1) (Nat.le_succ _) (by omega)]
  refine ⟨t,ht,hover.congr fun p hp => ?_⟩
  rw [hcount]
  constructor
  · exact fun h => ⟨p.1,Nat.lt_sub_of_add_lt h,rfl⟩
  · rintro ⟨_,hj,rfl⟩
    exact Nat.add_lt_of_lt_sub hj

/-- The line of the cursor is filled with blanks. -/
theorem blankLine_redraws (around : ℤ → U64) (hf : Framed s) (hr : s.curRow.toNat < rows s) :
    ∃ t, Outcome.forTo (s.pixelWidth / 8#32) (fun j s => putCell around s.curRow j 0x20#8 s) s =
        .done () t ∧
      Redraws (fun _ => (0x20#8,glyph around 0x20#8)) (line s.curRow.toNat) s t := by
  refine line_redraws (fun p hp => by rw [toNat_cols]; exact hp.2) fun j t hj ht => ?_
  rw [BitVec.lt_def,toNat_cols] at hj
  obtain ⟨hrt,hct,hgt⟩ := grid_of_board ht.same
  obtain ⟨hcur,-,-⟩ := cursor_of_board ht.same
  have hput := @putCell_redraws t s.curRow j around 0x20#8 (hf.of_board ht.same) (hrt ▸ hr)
    (hct ▸ hj)
  rw [hcur]
  simpa only [Redraws,hgt] using hput

/-- The cells after a line feed. -/
def newlined (around : ℤ → U64) (s : Vga) : Cells :=
  if rows s ≤ s.curRow.toNat + 1 then (cells s).scrolled around (rows s) else cells s

/-- A line feed goes to the next line, or moves all lines up. -/
theorem vgaNewline_eq (around : ℤ → U64) (hf : Framed s) (hr : s.curRow.toNat < rows s) :
    ∃ t, vgaNewline around s = .done () t ∧
      board t = board { s with
        curCol := 0#32
        curRow := if rows s ≤ s.curRow.toNat + 1 then s.curRow else s.curRow + 1#32 } ∧
      Set.EqOn (cells t) (newlined around s) (grid s) := by
  have hrows : rows s < 2 ^ 32 := lt_of_le_of_lt (Nat.div_le_self _ _) s.pixelHeight.isLt
  have hnext : (s.curRow + 1#32).toNat = s.curRow.toNat + 1 := by
    rw [BitVec.toNat_add,show (1#32).toNat = 1 from rfl]
    omega
  have hlast : s.curRow + 1#32 < s.pixelHeight / 16#32 ↔ ¬rows s ≤ s.curRow.toNat + 1 := by
    rw [BitVec.lt_def,hnext,toNat_rows,Nat.not_le]
  simp only [vgaNewline,hlast,newlined]
  by_cases hend : rows s ≤ s.curRow.toNat + 1
  · rw [if_neg (not_not.mpr hend),if_pos hend,if_pos hend,BitVec.add_sub_cancel]
    have hfs : Framed { s with curCol := 0#32 } := ⟨hf.line,hf.size⟩
    obtain ⟨t,ht,hscroll⟩ := scrollLines_redraws around hfs (lt_of_le_of_lt (Nat.zero_le _) hr)
    obtain ⟨hrt,-,hgt⟩ := grid_of_board hscroll.same
    obtain ⟨hcur,-,-⟩ := cursor_of_board hscroll.same
    obtain ⟨u,hu,hblank⟩ := blankLine_redraws around (hfs.of_board hscroll.same)
      (by rw [hrt,hcur]; exact hr)
    rw [Redraws,hgt,hcur] at hblank
    have hlast : Set.EqOn (fun _ => (0x20#8,glyph around 0x20#8))
        ((cells s).scrolled around (rows s)) (grid s ∩ line s.curRow.toNat) := fun p hp => by
      have hp : p.1 = s.curRow.toNat := hp.2
      exact (if_pos (by omega)).symm
    have hall := hscroll.trans (hblank.of_eqOn hlast)
    refine ⟨u,by rw [ht,Outcome.bind_done,hu],hall.same,fun p hp => hall.drawn ⟨hp,?_⟩⟩
    by_cases hlt : p.1 + 1 < rows s
    · exact .inl hlt
    · have hp : p.1 < rows s := hp.1
      exact .inr (by change p.1 = s.curRow.toNat; omega)
  · rw [if_pos hend,if_neg hend,if_neg hend]
    exact ⟨_,rfl,rfl,fun p _ => rfl⟩

/-- Clearing the screen blackens every image and leaves the characters. -/
def Cells.cleared (v : Cells) : Cells := fun p => ((v p).1,black)

theorem vgaClear_eq (hf : Framed s) :
    ∃ t, vgaClear s = .done () t ∧ board t = board { s with curRow := 0#32, curCol := 0#32 } ∧
      Set.EqOn (cells t) (cells s).cleared (grid s) := by
  have hfs : Framed { s with curRow := 0#32, curCol := 0#32 } := ⟨hf.line,hf.size⟩
  obtain ⟨t,ht,hpaint⟩ : ∃ t, vgaClear s = .done () t ∧
      Paints (fun _ => (0#8,0#8,0#8)) {p | ∃ i < s.pixelWidth.toNat, ∃ j < s.pixelHeight.toNat,
        p ∈ ({(i,j)} : Set (ℕ × ℕ))} { s with curRow := 0#32, curCol := 0#32 } t := by
    refine Overwrites.forTo (A := fun i => {p | ∃ j < s.pixelHeight.toNat,
      p ∈ ({(i,j)} : Set (ℕ × ℕ))}) fun i t hi ht => ?_
    refine Overwrites.forTo (A := fun j => {(i.toNat,j)}) fun j u hj hu => ?_
    have hsame := hu.same.trans ht.same
    obtain ⟨hw,hh,-⟩ := size_of_canvas hsame
    have hput := @vgaPutpixel_paints u (fun _ => (0#8,0#8,0#8)) i j 0#8 0#8 0#8
      (hfs.of_canvas hsame) (by rw [hw]; exact hi) (by rw [hh]; exact hj) rfl
    simpa only [Paints,frame_eq hsame] using hput
  have hboard : board (canvas t) = board (canvas { s with curRow := 0#32, curCol := 0#32 }) :=
    congrArg board hpaint.same
  refine ⟨t,ht,hboard,fun p hp => ?_⟩
  obtain ⟨hpr,hpl⟩ : p.1 < s.pixelHeight.toNat / 16 ∧ p.2 < s.pixelWidth.toNat / 8 := hp
  have hchar := charAt_of_canvas (r := p.1) (l := p.2) hpaint.same
  refine congrArg₂ Prod.mk hchar (funext fun i => funext fun j => ?_)
  have hx : p.2 * 8 + j.val < s.pixelWidth.toNat := by omega
  have hy : p.1 * 16 + i.val < s.pixelHeight.toNat := by omega
  exact hpaint.drawn ⟨⟨hx,hy⟩,_,hx,_,hy,rfl⟩

end Calls

end Lios.Vga

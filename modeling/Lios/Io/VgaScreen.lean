import Lios.Io.VgaCells

/-! # The calls that print

From a state with the cursor in a cell, every call returns in such a state, and what it has
done to the cells is a function of the cells and the cursor before it.
-/
namespace Lios.Vga
variable {s t : Vga} {around : ℤ → U64} {c : U8}

inductive VgaOp where
  | putchar (c : U8)
  | newline
  | clear

def VgaOp.run (around : ℤ → U64) : VgaOp → Vga → Outcome Vga Unit
  | putchar c => vgaPutchar around c
  | newline => vgaNewline around
  | clear => vgaClear

/-- The cells after a character was put at the cursor. -/
def typed (around : ℤ → U64) (c : U8) (s : Vga) : Cells :=
  let v : Cells := Function.update (cells s) (s.curRow.toNat,s.curCol.toNat) (c,glyph around c)
  if cols s ≤ s.curCol.toNat + 1 ∧ rows s ≤ s.curRow.toNat + 1 then v.scrolled around (rows s)
  else v

/-- What a call does to the cells. -/
def VgaOp.effect (around : ℤ → U64) (s : Vga) : VgaOp → Cells
  | putchar c =>
    if c = 0x0A#8 then newlined around s else if c = 0x08#8 then cells s else typed around c s
  | newline => newlined around s
  | clear => (cells s).cleared

/-- The screen can be printed on: the cursor is in one of its cells. -/
structure Ready (s : Vga) : Prop where
  framed : Framed s
  init : s.isInitialized = true
  row : s.curRow.toNat < rows s
  col : s.curCol.toNat < cols s

/-- A call that returned, from a state that can be printed on. -/
structure Printed (v : Cells) (s t : Vga) : Prop where
  ready : Ready t
  rows : rows t = rows s
  cols : cols t = cols s
  cells : Set.EqOn (cells t) v (grid s)

section Calls

theorem Cells.scrolled_eqOn {v w : Cells} (h : Set.EqOn v w (grid s)) :
    Set.EqOn (v.scrolled around (rows s)) (w.scrolled around (rows s)) (grid s) := by
  intro p hp
  rw [Cells.scrolled,Cells.scrolled]
  by_cases hlast : p.1 + 1 = rows s
  · rw [if_pos hlast,if_pos hlast]
  · have hp1 : p.1 < rows s := hp.1
    have hnext : (p.1 + 1,p.2) ∈ grid s := ⟨by change p.1 + 1 < rows s; omega,hp.2⟩
    rw [if_neg hlast,if_neg hlast,h hp,h hnext]

theorem newline_printed (around : ℤ → U64) (hf : Framed s) (hi : s.isInitialized = true)
    (hr : s.curRow.toNat < rows s) (hc : 0 < cols s) :
    ∃ t, vgaNewline around s = .done () t ∧ Printed (newlined around s) s t := by
  obtain ⟨t,ht,hboard,hcells⟩ := vgaNewline_eq around hf hr
  have hft : Framed t := Framed.of_board hboard ⟨hf.line,hf.size⟩
  obtain ⟨hrows,hcols,-⟩ := grid_of_board hboard
  obtain ⟨hcurRow,hcurCol,hinit⟩ := cursor_of_board hboard
  refine ⟨t,ht,⟨hft,hinit.trans hi,?_,?_⟩,hrows,hcols,hcells⟩
  · rw [hrows,hcurRow]
    change _ < rows s
    dsimp only
    split
    · exact hr
    · have hlt : rows s < 2 ^ 32 := lt_of_le_of_lt (Nat.div_le_self _ _) s.pixelHeight.isLt
      rw [BitVec.toNat_add,show (1#32).toNat = 1 from rfl]
      omega
  · rw [hcols,hcurCol]
    exact hc

theorem Ready.not_uninitialized (hs : Ready s) : ¬s.isInitialized = false := by
  rw [hs.init]
  exact nofun

/-- Backspace moves the cursor and nothing else. -/
theorem Ready.withCursor (hs : Ready s) {r l : U32} (hr : r.toNat < Vga.rows s)
    (hl : l.toNat < Vga.cols s) :
    Printed (Vga.cells s) s { s with curRow := r, curCol := l } :=
  ⟨⟨⟨hs.framed.line,hs.framed.size⟩,hs.init,hr,hl⟩,rfl,rfl,fun _ _ => rfl⟩

theorem Ready.backspace (hs : Ready s) (around : ℤ → U64) :
    ∃ t, vgaPutchar around 0x08#8 s = .done () t ∧ Printed (Vga.cells s) s t := by
  have hrow := hs.row
  have hcol := hs.col
  have hw : Vga.cols s < 2 ^ 32 := lt_of_le_of_lt (Nat.div_le_self _ _) s.pixelWidth.isLt
  rw [vgaPutchar,if_neg hs.not_uninitialized,if_neg (by decide),if_pos rfl]
  by_cases hc : s.curCol = 0#32
  · rw [if_neg (not_not.mpr hc)]
    by_cases hr : s.curRow = 0#32
    · rw [if_neg (not_not.mpr hr)]
      exact ⟨s,rfl,hs.withCursor hrow hcol⟩
    · rw [if_pos hr]
      refine ⟨_,rfl,hs.withCursor ?_ ?_⟩
      · have : s.curRow.toNat ≠ 0 := fun h => hr (BitVec.eq_of_toNat_eq h)
        rw [BitVec.toNat_sub,show (1#32).toNat = 1 from rfl]
        omega
      · rw [BitVec.toNat_sub,toNat_cols,show (1#32).toNat = 1 from rfl]
        omega
  · rw [if_pos hc]
    refine ⟨_,rfl,hs.withCursor hrow ?_⟩
    have : s.curCol.toNat ≠ 0 := fun h => hc (BitVec.eq_of_toNat_eq h)
    rw [BitVec.toNat_sub,show (1#32).toNat = 1 from rfl]
    omega

theorem Ready.putchar (hs : Ready s) (around : ℤ → U64) (hn : c ≠ 0x0A#8) (hb : c ≠ 0x08#8) :
    ∃ t, vgaPutchar around c s = .done () t ∧ Printed (typed around c s) s t := by
  have hrow := hs.row
  have hcol := hs.col
  have hw : Vga.cols s < 2 ^ 32 := lt_of_le_of_lt (Nat.div_le_self _ _) s.pixelWidth.isLt
  rw [vgaPutchar,if_neg hs.not_uninitialized,if_neg hn,if_neg hb]
  obtain ⟨t,ht,hput⟩ := putCell_redraws around c hs.framed hs.row hs.col
  obtain ⟨hrt,hct,hgt⟩ := grid_of_board hput.same
  obtain ⟨hcurRow,hcurCol,hinit⟩ := cursor_of_board hput.same
  have hframed := hs.framed.of_board hput.same
  have hft : Framed { t with curCol := t.curCol + 1#32 } := ⟨hframed.line,hframed.size⟩
  have hnext : (t.curCol + 1#32).toNat = s.curCol.toNat + 1 := by
    rw [hcurCol,BitVec.toNat_add,show (1#32).toNat = 1 from rfl]
    omega
  have hcells : Set.EqOn (Vga.cells t) (Function.update (Vga.cells s)
      (s.curRow.toNat,s.curCol.toNat) (c,glyph around c)) (grid s) := by
    intro p hp
    by_cases hat : p = (s.curRow.toNat,s.curCol.toNat)
    · rw [hat,Function.update_self]
      exact hput.drawn ⟨⟨hrow,hcol⟩,rfl⟩
    · rw [Function.update_of_ne hat]
      exact hput.kept ⟨hp,hat⟩
  rw [ht,Outcome.bind_done]
  dsimp only
  by_cases hwrap : t.pixelWidth / 8#32 ≤ t.curCol + 1#32
  · rw [if_pos hwrap]
    rw [BitVec.le_def,toNat_cols,hct,hnext] at hwrap
    obtain ⟨u,hu,hprint⟩ := newline_printed around hft (hinit.trans hs.init)
      (by change t.curRow.toNat < Vga.rows t; rw [hrt,hcurRow]; exact hrow)
      (by change 0 < Vga.cols t; omega)
    refine ⟨u,hu,hprint.ready,hprint.rows.trans hrt,hprint.cols.trans hct,?_⟩
    have hgrid : grid { t with curCol := t.curCol + 1#32 } = grid s := hgt
    have hnew := hprint.cells
    rw [hgrid] at hnew
    refine hnew.trans ?_
    change Set.EqOn (if Vga.rows t ≤ t.curRow.toNat + 1
      then (Vga.cells t).scrolled around (Vga.rows t) else Vga.cells t) _ _
    rw [hrt,hcurRow,typed]
    by_cases hend : Vga.rows s ≤ s.curRow.toNat + 1
    · rw [if_pos hend,if_pos ⟨hwrap,hend⟩]
      exact Cells.scrolled_eqOn hcells
    · rw [if_neg hend,if_neg fun h => hend h.2]
      exact hcells
  · rw [if_neg hwrap]
    rw [BitVec.le_def,toNat_cols,hct,hnext] at hwrap
    refine ⟨_,rfl,⟨hft,hinit.trans hs.init,?_,?_⟩,hrt,hct,?_⟩
    · change t.curRow.toNat < Vga.rows t
      rw [hrt,hcurRow]
      exact hrow
    · change (t.curCol + 1#32).toNat < Vga.cols t
      omega
    · rw [typed,if_neg fun h => hwrap h.1]
      exact hcells

/-- Every call returns and does to the cells what its effect says. -/
theorem Ready.run (hs : Ready s) (around : ℤ → U64) (op : VgaOp) :
    ∃ t, op.run around s = .done () t ∧ Printed (op.effect around s) s t := by
  cases op with
  | putchar c =>
    rw [VgaOp.run,VgaOp.effect]
    by_cases hn : c = 0x0A#8
    · rw [if_pos hn,hn]
      obtain ⟨t,ht,hprint⟩ := newline_printed around hs.framed hs.init hs.row
        (lt_of_le_of_lt (Nat.zero_le _) hs.col)
      refine ⟨t,?_,hprint⟩
      rw [vgaPutchar,if_neg hs.not_uninitialized,if_pos rfl,ht]
    · rw [if_neg hn]
      by_cases hb : c = 0x08#8
      · rw [if_pos hb,hb]
        exact hs.backspace around
      · rw [if_neg hb]
        exact hs.putchar around hn hb
  | newline =>
    exact newline_printed around hs.framed hs.init hs.row (lt_of_le_of_lt (Nat.zero_le _) hs.col)
  | clear =>
    obtain ⟨t,ht,hboard,hcells⟩ := vgaClear_eq hs.framed
    obtain ⟨hrows,hcols,-⟩ := grid_of_board hboard
    obtain ⟨hcurRow,hcurCol,hinit⟩ := cursor_of_board hboard
    refine ⟨t,ht,⟨Framed.of_board hboard ⟨hs.framed.line,hs.framed.size⟩,hinit.trans hs.init,?_,?_⟩,
      hrows,hcols,hcells⟩
    · rw [hcurRow,hrows]
      exact lt_of_le_of_lt (Nat.zero_le _) hs.row
    · rw [hcurCol,hcols]
      exact lt_of_le_of_lt (Nat.zero_le _) hs.col

end Calls

end Lios.Vga

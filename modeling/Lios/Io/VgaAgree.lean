import Lios.Lib.Runs
import Lios.Io.VgaScreen

/-! # Text and pixels agree

After `vga_init` and `vga_clear` every cell shows the character of the text buffer. Two calls
can break that: `vga_clear` leaves the text buffer as it is, and scrolling moves a zero up
without blackening the cell.
-/
namespace Lios.Vga
variable {s t : Vga} {around : ℤ → U64} {e : U8}

section Font

/-- The two words of an ASCII character. -/
def words (e : U8) : U64 × U64 :=
  (vgaFont.getD (2 * e.toNat) 0#64,vgaFont.getD (2 * e.toNat + 1) 0#64)

def glyphOf (w : U64 × U64) : Image := fun i j =>
  let bit := if i.val < 8 then w.1.getLsbD (i * 8 + j) else w.2.getLsbD ((i - 8) * 8 + j)
  (color false bit,color false bit,color false bit)

theorem glyph_eq (he : e < 0x80#8) : glyph around e = glyphOf (words e) := by
  have hlt : e.toNat < 128 := he
  have hint : e.toInt = e.toNat := BitVec.toInt_eq_toNat_of_lt (by omega)
  have hfirst : fontWord around (e.toInt * 2) = (words e).1 := by
    rw [fontWord,if_pos (by omega),hint,words]
    congr 1
    omega
  have hsecond : fontWord around (e.toInt * 2 + 1) = (words e).2 := by
    rw [fontWord,if_pos (by omega),hint,words]
    congr 1
    omega
  funext i j
  simp only [glyph,glyphPixel,glyphOf,hfirst,hsecond]

theorem color_injective : Function.Injective (color false) := by decide

theorem glyphOf_injective : Function.Injective glyphOf := by
  intro w w' h
  have hbit (i : Fin 16) (j : Fin 8) := color_injective (congrArg Prod.fst (congrFun₂ h i j))
  refine Prod.ext (BitVec.eq_of_getLsbD_eq fun k hk => ?_) (BitVec.eq_of_getLsbD_eq fun k hk => ?_)
  · have hk8 := hbit ⟨k / 8,by omega⟩ ⟨k % 8,by omega⟩
    simp only [if_pos (show k / 8 < 8 by omega)] at hk8
    rwa [show k / 8 * 8 + k % 8 = k by omega] at hk8
  · have hk8 := hbit ⟨k / 8 + 8,by omega⟩ ⟨k % 8,by omega⟩
    simp only [if_neg (show ¬k / 8 + 8 < 8 by omega),Nat.add_sub_cancel] at hk8
    rwa [show k / 8 * 8 + k % 8 = k by omega] at hk8

theorem black_eq : black = glyphOf (0#64,0#64) := by
  funext i j
  simp only [black,glyphOf,BitVec.getLsbD_zero,ite_self]
  rfl

/-- Among the ASCII characters only the blank has an empty glyph, and no other glyph is that of
the zero. -/
theorem words_eq_iff : ∀ e : U8, e < 0x80#8 →
    (words e = (0#64,0#64) ↔ e = 0x20#8) ∧ (words e = words 0#8 ↔ e = 0#8) := by
  decide +kernel

end Font

/-- The image shows the glyph of the entry, or is black for an entry of zero. -/
def Fits (around : ℤ → U64) (e : U8) (m : Image) : Prop :=
  m = glyph around e ∨ e = 0#8 ∧ m = black

/-- A character without a mark on the screen. -/
def Blank (e : U8) : Prop := e = 0#8 ∨ e = 0x20#8

theorem fits_black_iff (he : e < 0x80#8) : Fits around e black ↔ Blank e := by
  rw [Fits,Blank,glyph_eq he,black_eq,glyphOf_injective.eq_iff,eq_comm,(words_eq_iff e he).1]
  constructor
  · rintro (h | ⟨h,-⟩)
    · exact .inr h
    · exact .inl h
  · rintro (h | h)
    · exact .inr ⟨h,rfl⟩
    · exact .inl h

theorem fits_zero_glyph_iff (he : e < 0x80#8) : Fits around 0#8 (glyph around e) ↔ Blank e := by
  rw [Fits,Blank,glyph_eq he,glyph_eq (by decide : 0#8 < 0x80#8),black_eq,glyphOf_injective.eq_iff,
    glyphOf_injective.eq_iff,(words_eq_iff e he).1,(words_eq_iff e he).2]
  simp only [true_and]

/-- Every cell of `m` lines and `n` columns shows its entry of the text buffer. -/
def Agrees (around : ℤ → U64) (m n : ℕ) (s : Vga) : Prop :=
  ∀ r < m, ∀ l < n, Fits around (charAt s r l) (image s r l)

/-- No zero moves up to a cell with a mark. -/
def Scrolls (m n : ℕ) (text : ℕ × ℕ → U8) : Prop :=
  ∀ r l, r + 1 < m → l < n → text (r + 1,l) = 0#8 → Blank (text (r,l))

def text (s : Vga) : ℕ × ℕ → U8 := fun p => charAt s p.1 p.2

/-- The condition on the text and the cursor before a call. -/
def VgaOp.Meets (m n : ℕ) (s : Vga) : VgaOp → Prop
  | putchar c =>
    if c = 0x0A#8 then m ≤ s.curRow.toNat + 1 → Scrolls m n (text s)
    else if c = 0x08#8 then True
    else n ≤ s.curCol.toNat + 1 ∧ m ≤ s.curRow.toNat + 1 →
      Scrolls m n (Function.update (text s) (s.curRow.toNat,s.curCol.toNat) c)
  | newline => m ≤ s.curRow.toNat + 1 → Scrolls m n (text s)
  | clear => ∀ r < m, ∀ l < n, Blank (charAt s r l)

def VgaOp.Ascii : VgaOp → Prop
  | putchar c => c < 0x80#8
  | newline => True
  | clear => True

/-- A call that returns, with a character below 0x80. -/
def VgaStep (around : ℤ → U64) (s : Vga) (op : VgaOp) (t : Vga) : Prop :=
  op.Ascii ∧ op.run around s = .done () t

namespace Cells
variable {v w : Cells} {m n : ℕ}

/-- Cells of ASCII characters. -/
def Ascii (m n : ℕ) (v : Cells) : Prop := ∀ r < m, ∀ l < n, (v (r,l)).1 < 0x80#8

def Agree (around : ℤ → U64) (m n : ℕ) (v : Cells) : Prop :=
  ∀ r < m, ∀ l < n, Fits around (v (r,l)).1 (v (r,l)).2

theorem agree_update {p : ℕ × ℕ} (hv : v.Agree around m n) :
    Agree around m n (Function.update v p (e,glyph around e)) := by
  intro r hr l hl
  by_cases hp : (r,l) = p
  · rw [hp,Function.update_self]
    exact .inl rfl
  · rw [Function.update_of_ne hp]
    exact hv r hr l hl

theorem ascii_update {p : ℕ × ℕ} {x : U8 × Image} (hv : v.Ascii m n) (hx : x.1 < 0x80#8) :
    Ascii m n (Function.update v p x) := by
  intro r hr l hl
  by_cases hp : (r,l) = p
  · rwa [hp,Function.update_self]
  · rw [Function.update_of_ne hp]
    exact hv r hr l hl

theorem ascii_scrolled (hv : v.Ascii m n) : Ascii m n (v.scrolled around m) := by
  intro r hr l hl
  rw [scrolled]
  split
  · exact (by decide : 0x20#8 < 0x80#8)
  · exact hv (r + 1) (by dsimp only at *; omega) l hl

/-- Scrolling keeps the agreement exactly if no zero moves up to a cell with a mark. -/
theorem agree_scrolled_iff (ha : v.Ascii m n) (hv : v.Agree around m n) :
    Agree around m n (v.scrolled around m) ↔ Scrolls m n fun p => (v p).1 := by
  have hcell {r l : ℕ} (hr : r + 1 < m) : v.scrolled around m (r,l) = ((v (r + 1,l)).1,
      if (v (r + 1,l)).1 = 0#8 then (v (r,l)).2 else glyph around (v (r + 1,l)).1) :=
    if_neg (by dsimp only; omega)
  have hkept {r l : ℕ} (hr : r < m) (hl : l < n) :
      Fits around 0#8 (v (r,l)).2 ↔ Blank (v (r,l)).1 := by
    obtain himage | ⟨hzero,himage⟩ := hv r hr l hl
    · rw [himage]
      exact fits_zero_glyph_iff (ha r hr l hl)
    · exact iff_of_true (.inr ⟨rfl,himage⟩) (.inl hzero)
  constructor
  · intro h r l hr hl hzero
    dsimp only at hzero ⊢
    have hfits := h r (by omega) l hl
    rw [hcell hr,if_pos hzero,hzero] at hfits
    exact (hkept (by omega) hl).mp hfits
  · intro h r hr l hl
    by_cases hlast : r + 1 = m
    · rw [scrolled,if_pos hlast]
      exact .inl rfl
    · have hlt : r + 1 < m := by omega
      rw [hcell hlt]
      by_cases hzero : (v (r + 1,l)).1 = 0#8
      · rw [if_pos hzero,hzero]
        exact (hkept hr hl).mpr (h r l hlt hl hzero)
      · rw [if_neg hzero]
        exact .inl rfl

theorem agree_cleared_iff (ha : v.Ascii m n) :
    Agree around m n v.cleared ↔ ∀ r < m, ∀ l < n, Blank (v (r,l)).1 :=
  forall₄_congr fun r hr l hl => fits_black_iff (ha r hr l hl)

end Cells

/-- What holds in every state of a run that keeps to the conditions. -/
structure Shown (around : ℤ → U64) (m n : ℕ) (s : Vga) : Prop where
  ready : Ready s
  lines : rows s = m
  columns : cols s = n
  ascii : (cells s).Ascii m n
  agrees : (cells s).Agree around m n

section Steps
variable {m n : ℕ} {op : VgaOp}

theorem Shown.agrees_text (hs : Shown around m n s) : Agrees around m n s := hs.agrees

theorem newlined_agree_iff (hs : Shown around m n s) :
    (newlined around s).Ascii m n ∧ ((newlined around s).Agree around m n ↔
      (m ≤ s.curRow.toNat + 1 → Scrolls m n (text s))) := by
  rw [newlined,hs.lines]
  split
  · rename_i hend
    refine ⟨Cells.ascii_scrolled hs.ascii,?_⟩
    rw [Cells.agree_scrolled_iff hs.ascii hs.agrees]
    exact ⟨fun h _ => h,fun h => h hend⟩
  · rename_i hend
    exact ⟨hs.ascii,iff_of_true hs.agrees fun h => absurd h hend⟩

theorem typed_agree_iff {c : U8} (hs : Shown around m n s) (hc : c < 0x80#8) :
    (typed around c s).Ascii m n ∧ ((typed around c s).Agree around m n ↔
      (n ≤ s.curCol.toNat + 1 ∧ m ≤ s.curRow.toNat + 1 →
        Scrolls m n (Function.update (text s) (s.curRow.toNat,s.curCol.toNat) c))) := by
  have hascii : Cells.Ascii m n (Function.update (cells s) (s.curRow.toNat,s.curCol.toNat)
    (c,glyph around c)) := Cells.ascii_update hs.ascii hc
  have hagree : Cells.Agree around m n (Function.update (cells s)
    (s.curRow.toNat,s.curCol.toNat) (c,glyph around c)) := Cells.agree_update hs.agrees
  rw [typed,hs.lines,hs.columns]
  split
  · rename_i hend
    refine ⟨Cells.ascii_scrolled hascii,?_⟩
    have htext : (fun p => (Function.update (cells s) (s.curRow.toNat,s.curCol.toNat)
        (c,glyph around c) p).1) = Function.update (text s) (s.curRow.toNat,s.curCol.toNat) c :=
      Function.comp_update Prod.fst (cells s) _ _
    rw [Cells.agree_scrolled_iff hascii hagree,htext]
    exact ⟨fun h _ => h,fun h => h hend⟩
  · rename_i hend
    exact ⟨hascii,iff_of_true hagree fun h => absurd h hend⟩

/-- A call keeps the agreement exactly if it meets its condition. -/
theorem Shown.effect (hs : Shown around m n s) (hop : op.Ascii) :
    (op.effect around s).Ascii m n ∧ ((op.effect around s).Agree around m n ↔ op.Meets m n s) := by
  cases op with
  | putchar c =>
    simp only [VgaOp.effect,VgaOp.Meets]
    split
    · exact newlined_agree_iff hs
    · split
      · exact ⟨hs.ascii,iff_of_true hs.agrees trivial⟩
      · exact typed_agree_iff hs hop
  | newline => exact newlined_agree_iff hs
  | clear => exact ⟨hs.ascii,Cells.agree_cleared_iff hs.ascii⟩

theorem Shown.step (hs : Shown around m n s) (hstep : VgaStep around s op t) :
    Ready t ∧ rows t = m ∧ cols t = n ∧ (cells t).Ascii m n ∧
      (Agrees around m n t ↔ op.Meets m n s) := by
  obtain ⟨hop,hrun⟩ := hstep
  obtain ⟨u,hu,hprint⟩ := hs.ready.run around op
  obtain ⟨-,rfl⟩ := Outcome.done.inj (hu.symm.trans hrun)
  obtain ⟨hascii,hagree⟩ := hs.effect hop
  have hcell {r l : ℕ} (hr : r < m) (hl : l < n) : cells u (r,l) = op.effect around s (r,l) :=
    hprint.cells ⟨hs.lines.symm ▸ hr,hs.columns.symm ▸ hl⟩
  refine ⟨hprint.ready,hprint.rows.trans hs.lines,hprint.cols.trans hs.columns,
    fun r hr l hl => ?_,Iff.trans (forall₄_congr fun r hr l hl => ?_) hagree⟩
  · rw [hcell hr hl]
    exact hascii r hr l hl
  · change Fits around (cells u (r,l)).1 (cells u (r,l)).2 ↔ _
    rw [hcell hr hl]

theorem Shown.of_step (hs : Shown around m n s) (hstep : VgaStep around s op t)
    (hm : op.Meets m n s) : Shown around m n t := by
  obtain ⟨hready,hrows,hcols,hascii,hagree⟩ := hs.step hstep
  exact ⟨hready,hrows,hcols,hascii,hagree.mpr hm⟩

end Steps

theorem Ready.of_step {op : VgaOp} (hs : Ready s) (hstep : VgaStep around s op t) : Ready t := by
  obtain ⟨u,hu,hprint⟩ := hs.run around op
  obtain ⟨-,rfl⟩ := Outcome.done.inj (hu.symm.trans hstep.2)
  exact hprint.ready

section NoCell
variable {m n : ℕ}

theorem agrees_of_no_cell (h : m = 0 ∨ n = 0) : Agrees around m n s := by
  intro r hr l hl
  omega

theorem scrolls_of_no_cell (h : m = 0 ∨ n = 0) (x : ℕ × ℕ → U8) : Scrolls m n x := by
  intro r l hr hl
  omega

theorem meets_of_no_cell (h : m = 0 ∨ n = 0) (op : VgaOp) : op.Meets m n s := by
  cases op with
  | putchar c =>
    rw [VgaOp.Meets]
    split
    · exact fun _ => scrolls_of_no_cell h _
    · split
      · trivial
      · exact fun _ => scrolls_of_no_cell h _
  | newline => exact fun _ => scrolls_of_no_cell h _
  | clear =>
    intro r hr l hl
    omega

end NoCell

/-- The screen after `vga_init` and the first `vga_clear`. -/
theorem shown_init (around : ℤ → U64) {addr : U64} {width height pitch : U32} {s₀ s₁ : Vga}
    (hline : 4 * width.toNat ≤ pitch.toNat) (hsize : pitch.toNat * height.toNat ≤ 2 ^ 32)
    (hwide : 8 ≤ width.toNat) (htall : 16 ≤ height.toNat)
    (hinit : vgaInit addr width height pitch s₀ = .done () s₁) :
    ∃ t, vgaClear s₁ = .done () t ∧ Shown around (height.toNat / 16) (width.toNat / 8) t := by
  rw [vgaInit] at hinit
  split at hinit
  · cases hinit
  obtain ⟨-,hs₁⟩ := Outcome.done.inj hinit
  have hf : Framed s₁ := by
    rw [← hs₁]
    exact ⟨hline,hsize⟩
  obtain ⟨t,ht,hboard,hcells⟩ := vgaClear_eq hf
  rw [← hs₁] at hboard hcells
  obtain ⟨hrows,hcols,-⟩ := grid_of_board hboard
  obtain ⟨hcurRow,hcurCol,hready⟩ := cursor_of_board hboard
  have hcell {r l : ℕ} (hr : r < height.toNat / 16) (hl : l < width.toNat / 8) :
      cells t (r,l) = (0#8,black) := hcells ⟨hr,hl⟩
  refine ⟨t,ht,⟨Framed.of_board hboard ⟨hline,hsize⟩,hready,?_,?_⟩,hrows,hcols,
    fun r hr l hl => ?_,fun r hr l hl => ?_⟩
  · rw [hcurRow,hrows]
    exact Nat.div_pos htall (by decide)
  · rw [hcurCol,hcols]
    exact Nat.div_pos hwide (by decide)
  · rw [hcell hr hl]
    exact (by decide : 0#8 < 0x80#8)
  · rw [hcell hr hl]
    exact .inr ⟨rfl,rfl⟩

/-- In every state of a run after `vga_init` and `vga_clear` the cells show the text buffer,
if and only if every `vga_clear` finds a blank text, and no scrolling moves a zero up to a cell
with a mark. Every call returns, if the screen has a cell at all. -/
theorem screen_agrees_iff (around : ℤ → U64) {addr : U64} {width height pitch : U32} {s₀ s₁ : Vga}
    {n : ℕ} {st : ℕ → Vga} {op : ℕ → VgaOp} (hline : 4 * width.toNat ≤ pitch.toNat)
    (hsize : pitch.toNat * height.toNat ≤ 2 ^ 32)
    (hinit : vgaInit addr width height pitch s₀ = .done () s₁)
    (hclear : vgaClear s₁ = .done () (st 0)) (hr : IsRun (VgaStep around) n st op) :
    ((∀ i ≤ n, Agrees around (height.toNat / 16) (width.toNat / 8) (st i)) ↔
      ∀ i < n, (op i).Meets (height.toNat / 16) (width.toNat / 8) (st i)) ∧
    (8 ≤ width.toNat → 16 ≤ height.toNat →
      ∀ i ≤ n, ∀ o : VgaOp, ∃ t, o.run around (st i) = .done () t) := by
  by_cases hcell : 8 ≤ width.toNat ∧ 16 ≤ height.toNat
  · obtain ⟨t,ht,hshown⟩ := shown_init around hline hsize hcell.1 hcell.2 hinit
    obtain ⟨-,rfl⟩ := Outcome.done.inj (ht.symm.trans hclear)
    refine ⟨hr.forall_iff_guards hshown (fun s hs => hs.agrees_text)
      (fun s o t hs hstep hm => hs.of_step hstep hm)
      (fun s o t hs hstep hm hagrees => hm ((hs.step hstep).2.2.2.2.mp hagrees)),
      fun _ _ i hi o => ?_⟩
    have hready := hr.invariant (G := fun _ _ => True) hshown.ready
      (fun s o t hs hstep _ => hs.of_step hstep) (fun _ _ => trivial) i hi
    obtain ⟨t,ht,-⟩ := hready.run around o
    exact ⟨t,ht⟩
  · refine ⟨iff_of_true (fun i _ => agrees_of_no_cell ?_) (fun i _ => meets_of_no_cell ?_ _),
      fun hw hh => absurd ⟨hw,hh⟩ hcell⟩
    · omega
    · omega

namespace Sample

/-- A screen before `vga_init`. -/
def off : Vga := ⟨0#32,0#32,0#32,0#32,0#32,fun _ => 0xFF#8,fun _ => 0#8,false,false,[]⟩

def on : Vga := (vgaInit 0xFD000000#64 1024#32 768#32 4096#32 off).stateD off

theorem init_eq : vgaInit 0xFD000000#64 1024#32 768#32 4096#32 off = .done () on := rfl

def start : Vga := (vgaClear on).stateD on

theorem start_eq : vgaClear on = .done () start := by
  obtain ⟨t,ht,-⟩ := vgaClear_eq (s := on) ⟨by decide,by decide⟩
  rw [start,ht]
  rfl

theorem start_shown : Shown (fun _ => 0#64) 48 128 start := by
  obtain ⟨t,ht,hshown⟩ := shown_init (fun _ => 0#64) (by decide) (by decide) (by decide)
    (by decide) init_eq
  obtain ⟨-,rfl⟩ := Outcome.done.inj (start_eq.symm.trans ht)
  exact hshown

theorem start_cursor : start.curRow = 0#32 ∧ start.curCol = 0#32 := by
  obtain ⟨t,ht,hboard,-⟩ := vgaClear_eq (s := on) ⟨by decide,by decide⟩
  obtain ⟨-,rfl⟩ := Outcome.done.inj (start_eq.symm.trans ht)
  obtain ⟨hrow,hcol,-⟩ := cursor_of_board hboard
  exact ⟨hrow,hcol⟩

/-- The screen with one letter on it. -/
def marked : Vga := (vgaPutchar (fun _ => 0#64) 0x61#8 start).stateD start

theorem start_typed : VgaStep (fun _ => 0#64) start (.putchar 0x61#8) marked ∧
    cells marked (0,0) = (0x61#8,glyph (fun _ => 0#64) 0x61#8) := by
  obtain ⟨t,ht,hprint⟩ := start_shown.ready.putchar (c := 0x61#8) (fun _ => 0#64) (by decide)
    (by decide)
  have hmarked : marked = t := by rw [marked,ht]; rfl
  refine ⟨⟨(by decide : 0x61#8 < 0x80#8),hmarked ▸ ht⟩,?_⟩
  have hcell := hprint.cells (x := (0,0)) ⟨by rw [start_shown.lines]; decide,
    by rw [start_shown.columns]; decide⟩
  rw [hmarked,hcell,typed,start_shown.columns,start_cursor.1,start_cursor.2,if_neg (by decide)]
  exact Function.update_self _ _ _

theorem start_meets : (VgaOp.putchar 0x61#8).Meets 48 128 start := by
  rw [VgaOp.Meets,if_neg (by decide),if_neg (by decide),start_cursor.2]
  exact fun h => absurd h.1 (by decide)

def typing (i : ℕ) : Vga := if i = 0 then start else marked

theorem typing_isRun : IsRun (VgaStep fun _ => 0#64) 1 typing fun _ => .putchar 0x61#8 := by
  intro i hi
  obtain rfl : i = 0 := by omega
  exact start_typed.1

theorem typing_agrees : vgaInit 0xFD000000#64 1024#32 768#32 4096#32 off = .done () on ∧
    vgaClear on = .done () (typing 0) ∧
    ∀ i ≤ 1, Agrees (fun _ => 0#64) 48 128 (typing i) := by
  have hzero : typing 0 = start := if_pos rfl
  have hclear : vgaClear on = .done () (typing 0) := by rw [hzero,start_eq]
  refine ⟨init_eq,hclear,?_⟩
  have hiff := (screen_agrees_iff (fun _ => 0#64) (by decide) (by decide) init_eq hclear
    typing_isRun).1
  refine hiff.mpr fun i hi => ?_
  obtain rfl : i = 0 := by omega
  exact start_meets

def cleared : Vga := (vgaClear marked).stateD marked

/-- A letter stays in the text buffer when the screen is cleared. -/
theorem cleared_not_agrees : vgaInit 0xFD000000#64 1024#32 768#32 4096#32 off = .done () on ∧
    vgaClear on = .done () start ∧
    VgaStep (fun _ => 0#64) start (.putchar 0x61#8) marked ∧
    VgaStep (fun _ => 0#64) marked .clear cleared ∧
    Agrees (fun _ => 0#64) 48 128 marked ∧ ¬Agrees (fun _ => 0#64) 48 128 cleared := by
  obtain ⟨htyped,hcell⟩ := start_typed
  have hshown := start_shown.of_step htyped start_meets
  obtain ⟨t,ht,-⟩ := hshown.ready.run (fun _ => 0#64) .clear
  have hcleared : VgaStep (fun _ => 0#64) marked .clear cleared := by
    refine ⟨trivial,?_⟩
    change vgaClear marked = _ at ht
    change vgaClear marked = _
    rw [cleared,ht]
    rfl
  refine ⟨init_eq,start_eq,htyped,hcleared,hshown.agrees_text,fun hagrees => ?_⟩
  have hblank := (hshown.step hcleared).2.2.2.2.mp hagrees 0 (by decide) 0 (by decide)
  rw [charAt_eq,hcell] at hblank
  exact absurd hblank (by simp only [Blank]; decide)

end Sample

end Lios.Vga

import Lios.Io.VgaScreen

/-! # The cursor stays on the screen

After `vga_init` of a screen with at least one cell, every run of the calls that print returns with
the cursor in a cell. No call accesses a byte outside of the text buffer or the frame buffer, which
would be a fault, and every byte of the frame buffer is on a page that `vga_init` has mapped.
-/
namespace Lios.Vga
variable {s t : Vga} {around : ℤ → U64} {op : VgaOp}

/-- A run of calls. -/
def VgaOp.runAll (around : ℤ → U64) : List VgaOp → Vga → Outcome Vga Unit :=
  Outcome.forEach (VgaOp.run around)

/-- What only `vga_init` changes. -/
structure SameScreen (s t : Vga) : Prop where
  width : t.pixelWidth = s.pixelWidth
  height : t.pixelHeight = s.pixelHeight
  pitch : t.vgaPitch = s.vgaPitch
  mapped : t.mapped = s.mapped

theorem SameScreen.refl (s : Vga) : SameScreen s s := ⟨rfl,rfl,rfl,rfl⟩

theorem SameScreen.trans {u : Vga} (h : SameScreen s t) (h' : SameScreen t u) : SameScreen s u :=
  ⟨h'.width.trans h.width,h'.height.trans h.height,h'.pitch.trans h.pitch,
    h'.mapped.trans h.mapped⟩

/-- The place of the cursor does not matter. -/
theorem SameScreen.of_cursor {r l : U32} (h : SameScreen { s with curRow := r, curCol := l } t) :
    SameScreen s t :=
  ⟨h.width,h.height,h.pitch,h.mapped⟩

theorem sameScreen_of_board (h : board t = board s) : SameScreen s t := by
  obtain ⟨hw,hh,hp⟩ := size_of_board h
  have hm : (board t).mapped = (board s).mapped := congrArg _ h
  exact ⟨hw,hh,hp,hm⟩

theorem vgaNewline_sameScreen (hf : Framed s) (hr : s.curRow.toNat < rows s)
    (h : vgaNewline around s = .done () t) : SameScreen s t := by
  obtain ⟨u,hu,hboard,-⟩ := vgaNewline_eq around hf hr
  obtain ⟨-,rfl⟩ := Outcome.done.inj (h.symm.trans hu)
  exact (sameScreen_of_board hboard).of_cursor

theorem Ready.putchar_sameScreen {c : U8} (hs : Ready s) (h : vgaPutchar around c s = .done () t) :
    SameScreen s t := by
  rw [vgaPutchar,if_neg hs.not_uninitialized] at h
  split at h
  · exact vgaNewline_sameScreen hs.framed hs.row h
  split at h
  · split at h
    · cases h
      exact ⟨rfl,rfl,rfl,rfl⟩
    split at h
    · cases h
      exact ⟨rfl,rfl,rfl,rfl⟩
    · cases h
      exact .refl s
  · obtain ⟨u,hu,hput⟩ := putCell_redraws around c hs.framed hs.row hs.col
    obtain ⟨hrows,-,-⟩ := grid_of_board hput.same
    obtain ⟨hcur,-,-⟩ := cursor_of_board hput.same
    have hframed := hs.framed.of_board hput.same
    have hsame := sameScreen_of_board hput.same
    rw [hu,Outcome.bind_done] at h
    dsimp only at h
    split at h
    · have hrow : u.curRow.toNat < rows u := by
        rw [hrows,hcur]
        exact hs.row
      have hnext := vgaNewline_sameScreen (s := { u with curCol := u.curCol + 1#32 })
        ⟨hframed.line,hframed.size⟩ hrow h
      exact hsame.trans hnext.of_cursor
    · cases h
      exact hsame.trans ⟨rfl,rfl,rfl,rfl⟩

theorem Ready.sameScreen (hs : Ready s) (h : op.run around s = .done () t) : SameScreen s t := by
  cases op with
  | putchar c => exact hs.putchar_sameScreen h
  | newline => exact vgaNewline_sameScreen hs.framed hs.row h
  | clear =>
    obtain ⟨u,hu,hboard,-⟩ := vgaClear_eq hs.framed
    obtain ⟨-,rfl⟩ := Outcome.done.inj (h.symm.trans hu)
    exact (sameScreen_of_board hboard).of_cursor

/-- A run returns, and it keeps the screen ready. -/
theorem Ready.runAll (hs : Ready s) (around : ℤ → U64) (ops : List VgaOp) :
    ∃ t, VgaOp.runAll around ops s = .done () t ∧ Ready t ∧ SameScreen s t := by
  induction ops generalizing s with
  | nil => exact ⟨s,rfl,hs,.refl s⟩
  | cons op ops ih =>
    obtain ⟨t,ht,hprint⟩ := hs.run around op
    obtain ⟨u,hu,hready,hsame⟩ := ih hprint.ready
    refine ⟨u,?_,hready,(hs.sameScreen ht).trans hsame⟩
    rw [VgaOp.runAll,Outcome.forEach,ht]
    exact hu

/-- The page behind an offset of the frame buffer is mapped. -/
theorem vgaInit_mapped {addr : U64} {width height pitch : U32} {s₀ : Vga} {off : ℕ}
    (hsize : pitch.toNat * height.toNat < 2 ^ 32) (hoff : off < pitch.toNat * height.toNat)
    (h : vgaInit addr width height pitch s₀ = .done () s) :
    (0xFFFF800000000000#64 + BitVec.ofNat 64 (off / 4096 * 4096),
      addr + BitVec.ofNat 64 (off / 4096 * 4096)) ∈ s.mapped := by
  rw [vgaInit] at h
  split at h
  · cases h
  obtain ⟨-,rfl⟩ := Outcome.done.inj h
  have hprod : (pitch * height).toNat = pitch.toNat * height.toNat := by
    rw [BitVec.toNat_mul,Nat.mod_eq_of_lt hsize]
  have hcount : off / 4096 < (ceilU32Div (pitch * height) 4096#32).toNat := by
    rw [toNat_ceilU32Div (by decide),hprod,show (4096#32).toNat = 4096 from rfl]
    omega
  have hpage : (BitVec.ofNat 32 (off / 4096) * 4096#32).setWidth 64 =
      BitVec.ofNat 64 (off / 4096 * 4096) := by
    apply BitVec.eq_of_toNat_eq
    simp only [BitVec.toNat_setWidth,BitVec.toNat_mul,BitVec.toNat_ofNat]
    omega
  apply List.mem_append_right
  simp only [List.mem_map,List.mem_range]
  exact ⟨off / 4096,hcount,by rw [hpage]⟩

theorem vgaInit_ready {addr : U64} {width height pitch : U32} {s₀ : Vga}
    (hwide : 8 ≤ width.toNat) (htall : 16 ≤ height.toNat) (hline : 4 * width.toNat ≤ pitch.toNat)
    (hsize : pitch.toNat * height.toNat < 2 ^ 32)
    (h : vgaInit addr width height pitch s₀ = .done () s) :
    Ready s ∧ s.pixelWidth = width ∧ s.pixelHeight = height ∧ s.vgaPitch = pitch := by
  rw [vgaInit] at h
  split at h
  · cases h
  obtain ⟨-,rfl⟩ := Outcome.done.inj h
  exact ⟨⟨⟨hline,hsize.le⟩,rfl,Nat.div_pos htall (by decide),Nat.div_pos hwide (by decide)⟩,
    rfl,rfl,rfl⟩

/-- Every run after `vga_init` returns with the cursor on the screen. Its accesses are below the sizes
of the two buffers, and the pages of the frame buffer are mapped. -/
theorem vgaRun_onScreen (around : ℤ → U64) {addr : U64} {width height pitch : U32} {s₀ s₁ : Vga}
    (hwide : 8 ≤ width.toNat) (htall : 16 ≤ height.toNat) (hline : 4 * width.toNat ≤ pitch.toNat)
    (hsize : pitch.toNat * height.toNat < 2 ^ 32)
    (hinit : vgaInit addr width height pitch s₀ = .done () s₁) (ops : List VgaOp) :
    ∃ t, VgaOp.runAll around ops s₁ = .done () t ∧
      t.curRow.toNat < height.toNat / 16 ∧ t.curCol.toNat < width.toNat / 8 ∧
      t.charsSize.toNat = height.toNat / 16 * (width.toNat / 8) ∧
      t.frameSize = pitch.toNat * height.toNat ∧
      ∀ off < pitch.toNat * height.toNat,
        (0xFFFF800000000000#64 + BitVec.ofNat 64 (off / 4096 * 4096),
          addr + BitVec.ofNat 64 (off / 4096 * 4096)) ∈ t.mapped := by
  obtain ⟨hready,rfl,rfl,rfl⟩ := vgaInit_ready hwide htall hline hsize hinit
  obtain ⟨t,ht,hready',hsame⟩ := hready.runAll around ops
  have hrows : rows t = rows s₁ := by rw [rows,rows,hsame.height]
  have hcols : cols t = cols s₁ := by rw [cols,cols,hsame.width]
  refine ⟨t,ht,?_,?_,?_,?_,fun off hoff => ?_⟩
  · exact lt_of_lt_of_eq hready'.row hrows
  · exact lt_of_lt_of_eq hready'.col hcols
  · have hcells := hready'.framed.cells_lt
    rw [charsSize,BitVec.toNat_mul,toNat_rows,toNat_cols,Nat.mod_eq_of_lt hcells,hrows,hcols]
    rfl
  · rw [frameSize,hsame.pitch,hsame.height]
  · rw [hsame.mapped]
    exact vgaInit_mapped hsize hoff hinit

namespace Sample

/-- A screen that was never set up. -/
def unset : Vga := ⟨0#32,0#32,0#32,0#32,0#32,fun _ => 0#8,fun _ => 0#8,false,false,[]⟩

/-- A backspace, a character and a line feed on a screen of one cell and a margin. -/
theorem oneCell_onScreen : ∃ s₁ t, vgaInit 0xFD000000#64 15#32 31#32 64#32 unset = .done () s₁ ∧
    VgaOp.runAll (fun _ => 0#64) [.putchar 0x08#8,.putchar 0x61#8,.newline] s₁ = .done () t ∧
      t.curRow.toNat < 1 ∧ t.curCol.toNat < 1 ∧ t.charsSize.toNat = 1 ∧ t.frameSize = 1984 ∧
      ∀ off < 1984, (0xFFFF800000000000#64 + BitVec.ofNat 64 (off / 4096 * 4096),
        0xFD000000#64 + BitVec.ofNat 64 (off / 4096 * 4096)) ∈ t.mapped := by
  obtain ⟨s₁,hinit⟩ : ∃ s₁, vgaInit 0xFD000000#64 15#32 31#32 64#32 unset = .done () s₁ := ⟨_,rfl⟩
  obtain ⟨t,ht,hbounds⟩ := vgaRun_onScreen (fun _ => 0#64) (by decide) (by decide) (by decide)
    (by decide) hinit [.putchar 0x08#8,.putchar 0x61#8,.newline]
  exact ⟨s₁,t,hinit,ht,hbounds⟩

end Sample

end Lios.Vga

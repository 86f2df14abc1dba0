import Lios.Lib.Overwrite
import Lios.Io.Vga

/-! # Drawing pixels

The three bytes of a pixel lie at offsets that no other pixel uses, as long as the lines of
the frame buffer do not overlap and it ends below 2^32. A loop of drawing calls that all
follow one picture then leaves that picture in the pixels it has drawn.
-/
namespace Lios.Vga
variable {s t u : Vga}

/-- The bytes of a pixel: blue, green, red. -/
abbrev Rgb := U8 × U8 × U8

/-- The offset of a byte of a pixel. -/
def addr (s : Vga) (x y k : ℕ) : U32 := BitVec.ofNat 32 (y * s.vgaPitch.toNat + x * 4 + k)

def pixelAt (s : Vga) (x y : ℕ) : Rgb :=
  (s.vgaVirt (addr s x y 0),s.vgaVirt (addr s x y 1),s.vgaVirt (addr s x y 2))

/-- The lines of the frame buffer do not overlap, and its offsets have 32 bits. -/
structure Framed (s : Vga) : Prop where
  line : 4 * s.pixelWidth.toNat ≤ s.vgaPitch.toNat
  size : s.frameSize ≤ 2 ^ 32

section Pixels
variable {x y k x' y' k' : ℕ}

theorem Framed.offset_lt (hf : Framed s) (hx : x < s.pixelWidth.toNat)
    (hy : y < s.pixelHeight.toNat) (hk : k < 3) :
    y * s.vgaPitch.toNat + x * 4 + k < s.frameSize := by
  have hline := hf.line
  have hmul : (y + 1) * s.vgaPitch.toNat ≤ s.pixelHeight.toNat * s.vgaPitch.toNat :=
    Nat.mul_le_mul_right _ hy
  rw [Nat.succ_mul,Nat.mul_comm s.pixelHeight.toNat] at hmul
  rw [frameSize]
  omega

theorem Framed.toNat_addr (hf : Framed s) (hx : x < s.pixelWidth.toNat)
    (hy : y < s.pixelHeight.toNat) (hk : k < 3) :
    (addr s x y k).toNat = y * s.vgaPitch.toNat + x * 4 + k := by
  have hlt := hf.offset_lt hx hy hk
  have hsize := hf.size
  rw [addr,BitVec.toNat_ofNat,Nat.mod_eq_of_lt (by omega)]

/-- Different bytes of the pixels have different offsets. -/
theorem Framed.addr_inj (hf : Framed s) (hx : x < s.pixelWidth.toNat)
    (hy : y < s.pixelHeight.toNat) (hk : k < 3) (hx' : x' < s.pixelWidth.toNat)
    (hy' : y' < s.pixelHeight.toNat) (hk' : k' < 3) (h : addr s x y k = addr s x' y' k') :
    x = x' ∧ y = y' ∧ k = k' := by
  have hline := hf.line
  have heq := congrArg BitVec.toNat h
  rw [hf.toNat_addr hx hy hk,hf.toNat_addr hx' hy' hk',Nat.add_assoc,Nat.add_assoc] at heq
  have hpitch : 0 < s.vgaPitch.toNat := by omega
  have hrow := congrArg (· / s.vgaPitch.toNat) heq
  simp only [Nat.mul_comm _ s.vgaPitch.toNat,Nat.mul_add_div hpitch] at hrow
  rw [Nat.div_eq_of_lt (by omega),Nat.div_eq_of_lt (by omega)] at hrow
  obtain rfl : y = y' := hrow
  omega

theorem addr_zero (x y : U32) :
    y * s.vgaPitch + x * 4#32 = addr s x.toNat y.toNat 0 := by
  apply BitVec.eq_of_toNat_eq
  rw [addr,BitVec.toNat_add,BitVec.toNat_mul,BitVec.toNat_mul,BitVec.toNat_ofNat,BitVec.toNat_ofNat,
    Nat.add_zero,Nat.add_mod (y.toNat * s.vgaPitch.toNat)]

theorem addr_add : addr s x y 0 + BitVec.ofNat 32 k = addr s x y k := by
  rw [addr,addr,← BitVec.ofNat_add,Nat.add_zero]

theorem setByte_addr (hf : Framed s) (m : U32 → U8) (v : U8) (hx : x < s.pixelWidth.toNat)
    (hy : y < s.pixelHeight.toNat) (hk : k < 3) :
    setByte (addr s x y k) v { s with vgaVirt := m } =
      .done () { s with vgaVirt := Function.update m (addr s x y k) v } := by
  rw [setByte,if_pos]
  rw [hf.toNat_addr hx hy hk]
  exact hf.offset_lt hx hy hk

end Pixels

/-- The screen without its pixels. -/
def canvas (s : Vga) : Vga := { s with vgaVirt := fun _ => 0#8 }

/-- The pixels of the screen. -/
def frame (s : Vga) : Set (ℕ × ℕ) :=
  {p | p.1 < s.pixelWidth.toNat ∧ p.2 < s.pixelHeight.toNat}

/-- From `s` to `t`, the pixels in `A` were drawn after the picture `g`, and nothing else
has changed. -/
abbrev Paints (g : ℕ × ℕ → Rgb) (A : Set (ℕ × ℕ)) (s t : Vga) : Prop :=
  Overwrites canvas (fun s p => pixelAt s p.1 p.2) (frame s) g A s t

section Paints
variable {g : ℕ × ℕ → Rgb}

theorem size_of_canvas (h : canvas t = canvas s) : t.pixelWidth = s.pixelWidth ∧
    t.pixelHeight = s.pixelHeight ∧ t.vgaPitch = s.vgaPitch := by
  have hw : (canvas t).pixelWidth = (canvas s).pixelWidth := congrArg _ h
  have hh : (canvas t).pixelHeight = (canvas s).pixelHeight := congrArg _ h
  have hp : (canvas t).vgaPitch = (canvas s).vgaPitch := congrArg _ h
  exact ⟨hw,hh,hp⟩

theorem Framed.of_size (h : t.pixelWidth = s.pixelWidth ∧ t.pixelHeight = s.pixelHeight ∧
    t.vgaPitch = s.vgaPitch) (hf : Framed s) : Framed t := by
  obtain ⟨hw,hh,hp⟩ := h
  refine ⟨?_,?_⟩
  · rw [hw,hp]
    exact hf.line
  · rw [frameSize,hp,hh]
    exact hf.size

theorem Framed.of_canvas (h : canvas t = canvas s) (hf : Framed s) : Framed t :=
  hf.of_size (size_of_canvas h)

theorem frame_eq (h : canvas t = canvas s) : frame t = frame s := by
  obtain ⟨hw,hh,-⟩ := size_of_canvas h
  rw [frame,frame,hw,hh]

theorem vgaPutpixel_paints {x y : U32} {red green blue : U8} (hf : Framed s)
    (hx : x.toNat < s.pixelWidth.toNat) (hy : y.toNat < s.pixelHeight.toNat)
    (hg : g (x.toNat,y.toNat) = (blue,green,red)) :
    ∃ t, vgaPutpixel x y red green blue s = .done () t ∧
      Paints g {(x.toNat,y.toNat)} s t := by
  simp only [vgaPutpixel,addr_zero,addr_add]
  have hone := setByte_addr hf s.vgaVirt blue hx hy (by decide : 0 < 3)
  have htwo := setByte_addr hf (Function.update s.vgaVirt (addr s x.toNat y.toNat 0) blue) green
    hx hy (by decide : 1 < 3)
  rw [hone,Outcome.bind_done,htwo,Outcome.bind_done,setByte_addr hf _ red hx hy (by decide : 2 < 3)]
  refine ⟨_,rfl,rfl,?_,?_⟩
  · rintro p ⟨-,rfl⟩
    have hne {k k' : ℕ} (hk : k < 3) (hk' : k' < 3) (h : k ≠ k') :
        addr s x.toNat y.toNat k ≠ addr s x.toNat y.toNat k' := fun heq =>
      h (hf.addr_inj hx hy hk hx hy hk' heq).2.2
    rw [hg]
    refine congrArg₂ Prod.mk ?_ (congrArg₂ Prod.mk ?_ (Function.update_self _ _ _))
    · refine (Function.update_of_ne (hne (by decide) (by decide) (by decide)) _ _).trans ?_
      rw [Function.update_of_ne (hne (by decide) (by decide) (by decide)),Function.update_self]
    · refine (Function.update_of_ne (hne (by decide) (by decide) (by decide)) _ _).trans ?_
      rw [Function.update_self]
  · rintro ⟨x',y'⟩ ⟨⟨hx',hy'⟩,hout⟩
    have hne {k k' : ℕ} (hk : k < 3) (hk' : k' < 3) :
        addr s x' y' k ≠ addr s x.toNat y.toNat k' := fun heq =>
      have h := hf.addr_inj hx' hy' hk hx hy hk' heq
      hout (Prod.ext h.1 h.2.1)
    have hkeep {k : ℕ} (hk : k < 3) :
        Function.update (Function.update (Function.update s.vgaVirt (addr s x.toNat y.toNat 0) blue)
          (addr s x.toNat y.toNat 1) green) (addr s x.toNat y.toNat 2) red (addr s x' y' k) =
        s.vgaVirt (addr s x' y' k) := by
      rw [Function.update_of_ne (hne hk (by decide)),Function.update_of_ne (hne hk (by decide)),
        Function.update_of_ne (hne hk (by decide))]
    exact congrArg₂ Prod.mk (hkeep (by decide)) (congrArg₂ Prod.mk (hkeep (by decide))
      (hkeep (by decide)))

/-- The pixel of a glyph in line `i` and column `j`. -/
def glyphPixel (around : ℤ → U64) (inverted : Bool) (c : U8) (i j : ℕ) : Rgb :=
  let bit := if i < 8 then (fontWord around (c.toInt * 2)).getLsbD (i * 8 + j)
    else (fontWord around (c.toInt * 2 + 1)).getLsbD ((i - 8) * 8 + j)
  (color inverted bit,color inverted bit,color inverted bit)

section Cell
variable {around : ℤ → U64} {c : U8} {inverted : Bool} {row col : U32}

/-- The picture that shows the glyph in every cell. -/
def glyphPicture (around : ℤ → U64) (inverted : Bool) (c : U8) (p : ℕ × ℕ) : Rgb :=
  glyphPixel around inverted c (p.2 % 16) (p.1 % 8)

theorem glyphPicture_upper {r l i j : ℕ} (hi : i < 8) (hj : j < 8) :
    glyphPicture around inverted c (l * 8 + j,r * 16 + i) =
      let k := color inverted ((fontWord around (c.toInt * 2)).getLsbD (i * 8 + j))
      (k,k,k) := by
  rw [glyphPicture,glyphPixel,show (r * 16 + i) % 16 = i by omega,
    show (l * 8 + j) % 8 = j by omega,if_pos hi]

theorem glyphPicture_lower {r l i j : ℕ} (hi : i < 8) (hj : j < 8) :
    glyphPicture around inverted c (l * 8 + j,r * 16 + i + 8) =
      let k := color inverted ((fontWord around (c.toInt * 2 + 1)).getLsbD (i * 8 + j))
      (k,k,k) := by
  rw [glyphPicture,glyphPixel,show (r * 16 + i + 8) % 16 = i + 8 by omega,
    show (l * 8 + j) % 8 = j by omega,if_neg (by omega),Nat.add_sub_cancel]

theorem drawPixels_paints {i j : U32} (hf : Framed s) (hrow : row < s.pixelHeight / 16#32)
    (hcol : col < s.pixelWidth / 8#32) (hi : i < 8#32) (hj : j < 8#32) :
    ∃ t, drawPixels inverted (fontWord around (c.toInt * 2)) (fontWord around (c.toInt * 2 + 1))
        (col * 8#32) (row * 16#32) i j s = .done () t ∧
      Paints (glyphPicture around inverted c)
        {(col.toNat * 8 + j.toNat,row.toNat * 16 + i.toNat),
          (col.toNat * 8 + j.toNat,row.toNat * 16 + i.toNat + 8)} s t := by
  have hw := s.pixelWidth.isLt
  have hh := s.pixelHeight.isLt
  have hi : i.toNat < 8 := hi
  have hj : j.toNat < 8 := hj
  have hrow : row.toNat < s.pixelHeight.toNat / 16 := by
    rwa [BitVec.lt_def,BitVec.toNat_udiv] at hrow
  have hcol : col.toNat < s.pixelWidth.toNat / 8 := by
    rwa [BitVec.lt_def,BitVec.toNat_udiv] at hcol
  have hbit : (i * 8#32 + j).toNat = i.toNat * 8 + j.toNat := by
    rw [BitVec.toNat_add,BitVec.toNat_mul,show (8#32).toNat = 8 from rfl]
    omega
  have hx : (col * 8#32 + j).toNat = col.toNat * 8 + j.toNat := by
    rw [BitVec.toNat_add,BitVec.toNat_mul,show (8#32).toNat = 8 from rfl]
    omega
  have hy : (row * 16#32 + i).toNat = row.toNat * 16 + i.toNat := by
    rw [BitVec.toNat_add,BitVec.toNat_mul,show (16#32).toNat = 16 from rfl]
    omega
  have hy8 : (row * 16#32 + i + 8#32).toNat = row.toNat * 16 + i.toNat + 8 := by
    rw [BitVec.toNat_add,hy,show (8#32).toNat = 8 from rfl]
    omega
  have hupper := @glyphPicture_upper around c inverted row.toNat col.toNat i.toNat j.toNat hi hj
  have hlower := @glyphPicture_lower around c inverted row.toNat col.toNat i.toNat j.toNat hi hj
  rw [← hx,← hy,← hbit] at hupper
  rw [← hx,← hy8,← hbit] at hlower
  obtain ⟨t,ht,hpaint⟩ := vgaPutpixel_paints hf (by omega) (by omega) hupper
  obtain ⟨hwt,hht,-⟩ := size_of_canvas hpaint.same
  obtain ⟨u,hu,hpaintu⟩ := vgaPutpixel_paints (hf.of_canvas hpaint.same) (by rw [hwt]; omega)
    (by rw [hht]; omega) hlower
  rw [Paints,frame_eq hpaint.same] at hpaintu
  refine ⟨u,?_,(hpaint.trans hpaintu).congr fun p _ => ?_⟩
  · rw [drawPixels]
    simp only [queryBit,ht,Outcome.bind_done]
    exact hu
  · rw [hx,hy,hy8]
    rfl

/-- The pixels of a cell. -/
def cell (r l : ℕ) : Set (ℕ × ℕ) := {p | p.2 / 16 = r ∧ p.1 / 8 = l}

/-- A character is drawn into its cell and nowhere else. -/
theorem drawChar_paints (around : ℤ → U64) (c : U8) (inverted : Bool) (hf : Framed s)
    (hrow : row < s.pixelHeight / 16#32) (hcol : col < s.pixelWidth / 8#32) :
    ∃ t, drawChar around row col c inverted s = .done () t ∧
      Paints (glyphPicture around inverted c) (cell row.toNat col.toNat) s t := by
  let A (i j : ℕ) : Set (ℕ × ℕ) :=
    {(col.toNat * 8 + j,row.toNat * 16 + i),(col.toNat * 8 + j,row.toNat * 16 + i + 8)}
  obtain ⟨t,ht,hpaint⟩ : ∃ t, drawChar around row col c inverted s = .done () t ∧
      Paints (glyphPicture around inverted c) {p | ∃ i < 8, ∃ j < 8, p ∈ A i j} s t := by
    refine Overwrites.forTo (A := fun i => {p | ∃ j < 8, p ∈ A i j}) fun i t hi ht => ?_
    refine Overwrites.forTo (A := A i.toNat) fun j u hj hu => ?_
    have hsame := hu.same.trans ht.same
    obtain ⟨hwu,hhu,-⟩ := size_of_canvas hsame
    have hround := @drawPixels_paints u around c inverted row col i j (hf.of_canvas hsame)
      (by rwa [hhu]) (by rwa [hwu]) hi hj
    simpa only [Paints,frame_eq hsame] using hround
  refine ⟨t,ht,hpaint.congr fun ⟨x,y⟩ _ => ?_⟩
  constructor
  · rintro ⟨hy,hx⟩
    refine ⟨y % 8,Nat.mod_lt _ (by decide),x % 8,Nat.mod_lt _ (by decide),?_⟩
    simp only [A,Set.mem_insert_iff,Set.mem_singleton_iff,Prod.mk.injEq]
    dsimp only at hy hx
    omega
  · rintro ⟨i,hi,j,hj,hp⟩
    simp only [A,Set.mem_insert_iff,Set.mem_singleton_iff,Prod.mk.injEq] at hp
    exact ⟨by dsimp only; omega,by dsimp only; omega⟩

end Cell

end Paints

end Lios.Vga

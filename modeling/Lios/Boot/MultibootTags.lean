import Lios.Boot.Multiboot

/-! # Reading the tags

The structure as the boot loader writes it: tags of their own sizes, each padded to eight bytes,
and an end tag. Whatever a pass does at a tag, as long as it leaves the structure in memory as it
is, it does it for the tags in their order, and for the entries of a memory map in their order.
-/
namespace Lios.Multiboot

/-- A tag as the boot loader writes it. The entries of a memory map are followed by the bytes
that make them as long as the tag says, and the frame buffer by the description of its colours. -/
inductive Tag where
  | mmap (entrySize entryVersion : U32) (entries : List (MmapEntry × List U8))
  | framebuffer (addr : U64) (pitch width height : U32) (colour : List U8)
  | efi64 (pointer : U64)
  | other (type : U32) (payload : List U8)

def entryBytes (e : MmapEntry × List U8) : List U8 :=
  wordBytes e.1.addr ++ (wordBytes e.1.len ++ (halfBytes e.1.type ++ e.2))

namespace Tag

def type : Tag → U32
  | mmap _ _ _ => tagTypeMmap
  | framebuffer _ _ _ _ _ => tagTypeFramebuffer
  | efi64 _ => tagTypeEfi64
  | other type _ => type

def payload : Tag → List U8
  | mmap entrySize entryVersion entries =>
    halfBytes entrySize ++ (halfBytes entryVersion ++ entries.flatMap entryBytes)
  | framebuffer addr pitch width height colour =>
    wordBytes addr ++ (halfBytes pitch ++ (halfBytes width ++ (halfBytes height ++ colour)))
  | efi64 pointer => wordBytes pointer
  | other _ payload => payload

def size (t : Tag) : ℕ := 8 + t.payload.length

def bytes (t : Tag) : List U8 :=
  halfBytes t.type ++ (halfBytes (BitVec.ofNat 32 t.size) ++ t.payload)

def entries : Tag → List MmapEntry
  | mmap _ _ entries => entries.map Prod.fst
  | _ => []

/-- Each entry has the size that the tag announces, and a tag that is not used by `kmain` has
the type of none that is. -/
def WellFormed : Tag → Prop
  | mmap entrySize _ entries => 20 ≤ entrySize.toNat ∧ ∀ e ∈ entries, e.2.length + 20 = entrySize.toNat
  | other type _ =>
    type ≠ tagTypeEnd ∧ type ≠ tagTypeMmap ∧ type ≠ tagTypeFramebuffer ∧ type ≠ tagTypeEfi64
  | _ => True

end Tag

/-- A tag and the bytes behind it. -/
structure Padded (t : Tag × List U8) : Prop where
  formed : t.1.WellFormed
  fits : t.1.size + 8 ≤ 2 ^ 32
  padding : t.1.size + t.2.length = (t.1.size + 7) / 8 * 8

section Lengths
variable {t : Tag × List U8} {ts us : List (Tag × List U8)}

theorem toNat_alignedSize {n : ℕ} (h : n + 8 ≤ 2 ^ 32) :
    (alignedSize (BitVec.ofNat 32 n)).toNat = (n + 7) / 8 * 8 := by
  have hmask (x : U32) : (x &&& ~~~7#32).toNat = x.toNat / 8 * 8 := by
    rw [and_not_mask (k := 3) (by decide),BitVec.toNat_shiftLeft,BitVec.toNat_ushiftRight,
      Nat.shiftLeft_eq,Nat.shiftRight_eq_div_pow]
    omega
  rw [alignedSize,BitVec.toNat_setWidth,hmask,BitVec.toNat_add,BitVec.toNat_ofNat]
  change (n % 2 ^ 32 + 7) % 2 ^ 32 / 8 * 8 % 2 ^ 64 = (n + 7) / 8 * 8
  omega

theorem Padded.alignedSize (h : Padded t) :
    Multiboot.alignedSize (BitVec.ofNat 32 t.1.size) = BitVec.ofNat 64 (t.1.size + t.2.length) := by
  have hfits := h.fits
  have hpad := h.padding
  apply BitVec.eq_of_toNat_eq
  rw [toNat_alignedSize h.fits,hpad,BitVec.toNat_ofNat]
  omega

end Lengths

/-! The fields of a tag, wherever it stands. -/

section Fields
variable {m : U64 → U8} {tag : U64} {t : Tag} {rest : List U8}

end Fields

/-! The loops. -/

section FirstPass
variable {kernelEnd tag : U64} {s : Boot}

end FirstPass

end Lios.Multiboot

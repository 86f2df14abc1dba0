import Lios.Proc.ElfSample

/-! # The image of a program

Loading a file puts the layers of its segments and then the pages of the stack on the memory of
the program. A page that is mapped again gets a new frame, and what was written before is no
longer seen. So the program sees the bytes that the file describes if no two segments share a
page and all of them end below the stack. If the free frames are filled with a byte that the
file does not describe, it sees them only then.
-/
namespace Lios.Elf
variable {A H : Type} {calls : ElfCalls A H}

/-- The end of the segments. -/
def stackLow : ℕ := (lowerHalfMemMax - stackSize).toNat

/-- The file is accepted, its table of program headers lies in it, and its segments lie in the
lower half, with their bytes on their own pages, apart from each other, and with file parts that
lie in the file and fit into their memory. -/
structure Describes (file : List U8) : Prop where
  accepted : isAccepted (elfHeader file) = true
  short : file.length < 2 ^ 32
  table : TableInside file
  lower : ∀ ph ∈ loadHeaders file, Below lowerHalfMemMax.toNat ph
  covering : ∀ ph ∈ loadHeaders file, Covering ph
  inside : ∀ ph ∈ loadHeaders file, ph.pOffset.toNat + ph.pFilesz.toNat ≤ file.length
  disjoint : (loadHeaders file).Pairwise fun a b =>
    Disjoint (span a.pVaddr a.pMemsz.toNat) (span b.pVaddr b.pMemsz.toNat)

section Layers
variable {file : List U8} {ph : ElfProgramHeader} {v : U64}

end Layers

namespace ElfSupply
variable {src : ElfSupply calls} {file : List U8} {m : Machine A H}

/-- The headers `phs` are still to be loaded, and the layers of those before them lie on the
memory. -/
structure Loading (src : ElfSupply calls) (file : List U8) (m : Machine A H) (b : U64)
    (phs : List ElfProgramHeader) (l : Loader A H) : Prop where
  sound : src.Sound l.machine
  holds : src.Holds l.machine b file
  room : src.segmentsNeed phs + src.stackNeed ≤ src.room l.machine.paging.frames
  junk : src.junk l.machine ⊆ src.junk m
  covered : ∃ phs', phs' ++ phs = loadHeaders file ∧
    Covered (src.junk m) (phs'.map (segmentLayer file)) (userByte m) (userByte l.machine)

theorem junk_anti {n : ℕ} {m' : Machine A H} (h : src.Kept n m m') : src.junk m' ⊆ src.junk m :=
  fun _ hx g hg => hx g (h.filled hg)

theorem Loading.step {b : U64} {ph : ElfProgramHeader} {phs : List ElfProgramHeader}
    {l : Loader A H} (hd : Describes file) (h : Loading src file m b (ph :: phs) l) :
    (loadSegment calls b ph l).Settled ∧ ∀ seg l', loadSegment calls b ph l = .done seg l' →
      Loading src file m b phs l' := by
  obtain ⟨phs',hsplit,hcov⟩ := h.covered
  have hmem : ph ∈ loadHeaders file := by
    rw [← hsplit]
    exact List.mem_append_right _ List.mem_cons_self
  have hlow : Below (2 ^ 47) ph := hd.lower ph hmem
  have hroom := h.room
  rw [segmentsNeed_cons hlow] at hroom
  obtain ⟨hset,hstep⟩ := loadSegment_covers h.sound h.holds (by omega) hlow (hd.covering ph hmem)
    (hd.inside ph hmem)
  refine ⟨hset,fun seg l' hdone => ?_⟩
  obtain ⟨hk,hroom'⟩ := loadSegment_room h.sound hlow h.room hdone
  refine ⟨hk.sound,hk.holds h.holds,hroom',(junk_anti hk).trans h.junk,phs' ++ [ph],?_,?_⟩
  · rw [List.append_assoc,List.singleton_append,hsplit]
  · rw [List.map_append]
    exact hcov.append (.cons ((hstep seg l' hdone).mono h.junk) (.nil _))

end ElfSupply

namespace Sample

/-- Four bytes of a program and four zeros at 0x400000. -/
def oneSegment : Sector :=
  executable [⟨1#32,120#64,0x400000#64,4#64,8#64⟩] [0x90#8,0x90#8,0xEB#8,0xFE#8]

end Sample

end Lios.Elf

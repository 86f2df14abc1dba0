import Lios.Proc.ElfKernel

/-! # What a load reads of its buffer

The header of a file lies in its first sector. The program headers and the segments are read
where the file says that they are; `elf_load` compares none of these offsets with the size of
the file. All reads stay in the file if and only if its headers say so, as long as no segment
can change the buffer.
-/
namespace Lios.Elf
variable {A H : Type} {calls : ElfCalls A H}

/-- What is read of the buffer at `b` has offsets below `n`. -/
def ReadInside (b : U64) (n : ℕ) : Access → Prop
  | .read virt len => ∀ k < len.toNat, (virt + BitVec.ofNat 64 k - b).toNat < n
  | .map _ => True
  | .write _ _ => True
  | .stack _ => True

def ReadsInside (b : U64) (n : ℕ) (tr : List Access) : Prop := ∀ a ∈ tr, ReadInside b n a

section Inside
variable {b len : U64} {n off : ℕ} {tr : List Access} {file : List U8}

theorem readInside_iff (hn : n < 2 ^ 64) : ReadInside b n (.read (b + BitVec.ofNat 64 off) len) ↔
    len.toNat = 0 ∨ off % 2 ^ 64 + len.toNat ≤ n := by
  have hlen := len.isLt
  have hoff (k : ℕ) : (b + BitVec.ofNat 64 off + BitVec.ofNat 64 k - b).toNat =
      (off + k) % 2 ^ 64 := by
    rw [BitVec.add_assoc,BitVec.add_comm,BitVec.add_sub_cancel,← BitVec.ofNat_add,
      BitVec.toNat_ofNat]
  constructor
  · intro h
    by_contra hnot
    -- the first byte at or behind the end is read
    have hk := h (n - off % 2 ^ 64) (by omega)
    rw [hoff] at hk
    omega
  · intro h k hk
    rw [hoff]
    omega

theorem ReadsInside.append {a : Access} (h : ReadsInside b n tr) (ha : ReadInside b n a) :
    ReadsInside b n (tr ++ [a]) :=
  List.forall_mem_append.mpr ⟨h,List.forall_mem_singleton.mpr ha⟩

end Inside

/-- The area of the heap bounds the size of a buffer. -/
theorem MemorySupply.Holds.length_lt {src : MemorySupply calls} {m : Machine A H} {b : U64}
    {bs : List U8} (h : src.Holds m b bs) : bs.length < 2 ^ 45 := by
  by_contra hlong
  have hfirst := (src.used_subset _ (h 0 (by omega)).1).1
  rw [BitVec.add_zero] at hfirst
  have hb := b.isLt
  -- the first address behind the area
  have hlast := (src.used_subset _ (h (0xFFFFFFFF80000000 - b.toNat) (by omega)).1).2
  rw [BitVec.toNat_add,BitVec.toNat_ofNat] at hlast
  omega

namespace ElfSupply
variable {src : ElfSupply calls} {file : List U8} {m : Machine A H} {b : U64} {l l' : Loader A H}

/-- The headers `phs` are still to be loaded, their segments are in the lower half and their bytes
in the file, and all reads so far were in the file. -/
structure Reading (src : ElfSupply calls) (file : List U8) (b : U64) (phs : List ElfProgramHeader)
    (l : Loader A H) : Prop where
  sound : src.Sound l.machine
  holds : src.Holds l.machine b file
  room : src.segmentsNeed phs ≤ src.room l.machine.paging.frames
  trace : ReadsInside b file.length l.trace
  lower : ∀ ph ∈ phs, Below (2 ^ 47) ph
  inside : ∀ ph ∈ phs, ph.pFilesz.toNat = 0 ∨ ph.pOffset.toNat + ph.pFilesz.toNat ≤ file.length

theorem Reading.step {ph : ElfProgramHeader} {phs : List ElfProgramHeader}
    (h : Reading src file b (ph :: phs) l) :
    Traces (ReadsInside b file.length) (loadSegment calls b ph l) ∧
      ∀ seg l', loadSegment calls b ph l = .done seg l' → Reading src file b phs l' := by
  have hlower := h.lower ph List.mem_cons_self
  have hin := h.inside ph List.mem_cons_self
  have hlen := h.holds.length_lt
  have hread : ReadInside b file.length (.read (b + ph.pOffset) ph.pFilesz) := by
    have hiff : ReadInside b file.length
        (.read (b + BitVec.ofNat 64 ph.pOffset.toNat) ph.pFilesz) ↔ _ := readInside_iff (by omega)
    rw [BitVec.ofNat_toNat,BitVec.setWidth_eq,Nat.mod_eq_of_lt ph.pOffset.isLt] at hiff
    exact hiff.mpr hin
  have htrace : Traces (ReadsInside b file.length) (loadSegment calls b ph l) := by
    refine traces_loadSegment h.trace fun a ha tr htr => htr.append ?_
    rcases List.mem_append.mp ha with ha | ha
    · obtain ⟨i,-,rfl⟩ := List.mem_map.mp ha
      trivial
    · simp only [List.mem_cons,List.not_mem_nil,or_false] at ha
      rcases ha with rfl | rfl | rfl
      · exact hread
      · trivial
      · trivial
  refine ⟨htrace,fun seg l' hdone => ?_⟩
  obtain ⟨hk,hroom⟩ := loadSegment_room (n := 0) h.sound hlower h.room hdone
  exact ⟨hk.sound,hk.holds h.holds,hroom,htrace.of_done hdone,
    fun ph hph => h.lower ph (List.mem_cons_of_mem _ hph),
    fun ph hph => h.inside ph (List.mem_cons_of_mem _ hph)⟩

end ElfSupply

namespace Sample

end Sample

end Lios.Elf

import Lios.Proc.ElfImage

/-! # What a load may touch

The steps of the loader for a segment are a mapping of each of its pages and the two writes.
They stay below the stack if and only if the segment ends there and its file part fits into its
memory. A file with such segments cannot touch the kernel; one with another segment is loaded
all the same, since `elf_load` checks no address.
-/
namespace Lios.Elf
variable {A H : Type} {calls : ElfCalls A H}

/-- A page that is mapped for a segment, or the bytes that are written for one, are below the
stack. -/
def LowAccess : Access → Prop
  | .map virt => virt.toNat < stackLow
  | .write virt len => ∀ k < len.toNat, (virt + BitVec.ofNat 64 k).toNat < stackLow
  | .read _ _ => True
  | .stack _ => True

def LowTrace (trace : List Access) : Prop := ∀ a ∈ trace, LowAccess a

/-- The translations of the upper half outside the area of the heap are the same. -/
def KernelSame (m m' : Machine A H) : Prop :=
  ∀ v, Upper v → v ∉ heapArea → m'.paging.pageVirtToPhysAddr v = m.paging.pageVirtToPhysAddr v

theorem KernelSame.trans {m m' m'' : Machine A H} (h : KernelSame m m') (h' : KernelSame m' m'') :
    KernelSame m m'' := fun v hv ha => (h' v hv ha).trans (h v hv ha)

theorem kernelSame {src : MemorySupply calls} {n : ℕ} {m m' : Machine A H} (h : src.Kept n m m') :
    KernelSame m m' := by
  intro v hv ha
  have hc : Paging.Canonical v := .inr hv
  rw [← translate_of_canonical hc,← translate_of_canonical hc]
  exact h.kernel v hv ha

/-- What loading a segment does. -/
def segmentAccesses (b : U64) (ph : ElfProgramHeader) : List Access :=
  (List.range (segmentPages ph)).map (fun i => .map (ph.pVaddr + BitVec.ofNat 64 i * pageSize)) ++
    [.read (b + ph.pOffset) ph.pFilesz,.write ph.pVaddr ph.pFilesz,
      .write (ph.pVaddr + ph.pFilesz) (ph.pMemsz - ph.pFilesz)]

theorem lowAccess_write_iff {virt len : U64} : LowAccess (.write virt len) ↔
    len.toNat = 0 ∨ virt.toNat + len.toNat ≤ stackLow := by
  have hL : stackLow = 0x7FFFFF800000 := by decide
  have hadd (k : ℕ) : (virt + BitVec.ofNat 64 k).toNat = (virt.toNat + k) % 2 ^ 64 := by
    rw [BitVec.toNat_add,BitVec.toNat_ofNat]
    omega
  have hv := virt.isLt
  constructor
  · intro h
    by_contra hnot
    -- the first byte at or behind the end is written
    have hk := h (stackLow - virt.toNat) (by omega)
    rw [hadd] at hk
    omega
  · intro h k hk
    rw [hadd]
    omega

theorem below_iff_writes {ph : ElfProgramHeader} : Below stackLow ph ↔
    LowAccess (.write ph.pVaddr ph.pFilesz) ∧
      LowAccess (.write (ph.pVaddr + ph.pFilesz) (ph.pMemsz - ph.pFilesz)) := by
  have hL : stackLow = 0x7FFFFF800000 := by decide
  have hm := ph.pMemsz.isLt
  have hf := ph.pFilesz.isLt
  have hv := ph.pVaddr.isLt
  rw [lowAccess_write_iff,lowAccess_write_iff,BitVec.toNat_add,BitVec.toNat_sub,Below]
  omega

theorem Below.lowAccess {ph : ElfProgramHeader} (h : Below stackLow ph) (b : U64) :
    LowTrace (segmentAccesses b ph) := by
  have hL : stackLow = 4096 * (2 ^ 35 - 2048) := by decide
  intro a ha
  rcases List.mem_append.mp ha with ha | ha
  · obtain ⟨i,hi,rfl⟩ := List.mem_map.mp ha
    have hi := List.mem_range.mp hi
    have hle := Below.pages_le (2 ^ 35 - 2048) (hL ▸ h) (by omega)
    have hadd : (ph.pVaddr + BitVec.ofNat 64 i * pageSize).toNat = ph.pVaddr.toNat + i * 4096 := by
      rw [BitVec.toNat_add,BitVec.toNat_mul,BitVec.toNat_ofNat,show pageSize.toNat = 4096 from rfl]
      omega
    rw [LowAccess,hadd]
    omega
  · obtain ⟨hw₁,hw₂⟩ := below_iff_writes.mp h
    simp only [List.mem_cons,List.not_mem_nil,or_false] at ha
    rcases ha with rfl | rfl | rfl
    · trivial
    · exact hw₁
    · exact hw₂

/-! The trace wherever a run ends. -/

section Trace
variable {T : List Access → Prop} {l l' : Loader A H} {b : U64}

/-- Wherever the run ends, its trace has the property. -/
abbrev Traces {α : Type} (T : List Access → Prop) (x : Outcome (Loader A H) α) : Prop :=
  x.Ends (fun l => T l.trace) (fun l => T l.trace) True

theorem traces_lift {α : Type} {f : Machine A H → Outcome (Machine A H) α} (h : T l.trace) :
    Traces T ((machineLens A H).lift f l) := by
  rw [Lens.lift]
  cases f ((machineLens A H).get l) with
  | done a m => exact h
  | panic msg m => exact h
  | fault m => exact h
  | spin => trivial

theorem traces_noted {α : Type} {a : Access} {f : Machine A H → Outcome (Machine A H) α}
    (h : T (l.trace ++ [a])) : Traces T (noted a f l) :=
  traces_lift (l := { l with trace := l.trace ++ [a] }) h

theorem traces_mapPages {access : U64 → Access} {virt j : U64} {k : ℕ} (h : T l.trace)
    (happ : ∀ i < k, ∀ tr, T tr →
      T (tr ++ [access (virt + (j + BitVec.ofNat 64 i) * pageSize)])) :
    Traces T (mapPages calls access virt k j l) := by
  induction k generalizing j l with
  | zero => exact h
  | succ k ih =>
    have hpage : Traces T (mapPage calls access (virt + j * pageSize) l) := by
      refine (traces_lift h).bind fun f l₁ h₁ => ?_
      have hnote := happ 0 (by omega) l₁.trace ((traces_lift h).of_done h₁)
      rw [BitVec.add_zero] at hnote
      exact (traces_noted hnote).bind fun _ l₂ h₂ => (traces_noted hnote).of_done h₂
    refine hpage.bind fun f l₁ h₁ => ?_
    have hrest := ih (j := j + 1#64) (l := l₁) (hpage.of_done h₁) fun i hi tr htr => by
      have hnote := happ (i + 1) (by omega) tr htr
      rw [BitVec.ofNat_add,BitVec.add_comm (BitVec.ofNat 64 i),← BitVec.add_assoc] at hnote
      exact hnote
    exact hrest.bind fun fs l₂ h₂ => hrest.of_done h₂

theorem traces_loadSegment {ph : ElfProgramHeader} (h : T l.trace)
    (happ : ∀ a ∈ segmentAccesses b ph, ∀ tr, T tr → T (tr ++ [a])) :
    Traces T (loadSegment calls b ph l) := by
  refine (traces_lift h).bind fun _ l₁ h₁ => ?_
  have hmap : Traces T (mapPages calls .map ph.pVaddr (segmentPages ph) 0#64 l₁) := by
    refine traces_mapPages ((traces_lift h).of_done h₁) fun i hi => happ _ ?_
    rw [BitVec.zero_add]
    exact List.mem_append_left _ (List.mem_map_of_mem (List.mem_range.mpr hi))
  refine hmap.bind fun fs l₂ h₂ => ?_
  have hread := happ (.read (b + ph.pOffset) ph.pFilesz) (by simp [segmentAccesses]) l₂.trace
    (hmap.of_done h₂)
  have hcopy := happ (.write ph.pVaddr ph.pFilesz) (by simp [segmentAccesses]) _ hread
  refine (traces_noted hcopy).bind fun _ l₃ h₃ => ?_
  have hset := happ (.write (ph.pVaddr + ph.pFilesz) (ph.pMemsz - ph.pFilesz))
    (by simp [segmentAccesses]) l₃.trace ((traces_noted hcopy).of_done h₃)
  exact (traces_noted hset).bind fun _ l₄ h₄ => (traces_noted hset).of_done h₄

theorem LowTrace.append {tr : List Access} {a : Access} (h : LowTrace tr) (ha : LowAccess a) :
    LowTrace (tr ++ [a]) := by
  intro x hx
  rcases List.mem_append.mp hx with hx | hx
  · exact h x hx
  · exact List.mem_singleton.mp hx ▸ ha

end Trace

namespace ElfSupply
variable {src : ElfSupply calls} {file : List U8} {m : Machine A H} {b : U64} {l l' : Loader A H}

/-- The headers `phs` are low and still to be loaded, and all steps so far were low. -/
structure Confined (src : ElfSupply calls) (file : List U8) (m : Machine A H) (b : U64)
    (phs : List ElfProgramHeader) (l : Loader A H) : Prop where
  sound : src.Sound l.machine
  holds : src.Holds l.machine b file
  room : src.segmentsNeed phs + src.stackNeed ≤ src.room l.machine.paging.frames
  kernel : KernelSame m l.machine
  trace : LowTrace l.trace
  below : ∀ ph ∈ phs, Below stackLow ph

theorem Confined.step {ph : ElfProgramHeader} {phs : List ElfProgramHeader}
    (h : Confined src file m b (ph :: phs) l) : Traces LowTrace (loadSegment calls b ph l) ∧
      ∀ seg l', loadSegment calls b ph l = .done seg l' → Confined src file m b phs l' := by
  have hbelow := h.below ph List.mem_cons_self
  have hlower : Below (2 ^ 47) ph := hbelow.mono (by decide)
  have htrace : Traces LowTrace (loadSegment calls b ph l) :=
    traces_loadSegment h.trace fun a ha tr htr => htr.append (hbelow.lowAccess b a ha)
  refine ⟨htrace,fun seg l' hdone => ?_⟩
  obtain ⟨hk,hroom⟩ := loadSegment_room h.sound hlower h.room hdone
  exact ⟨hk.sound,hk.holds h.holds,hroom,h.kernel.trans (kernelSame hk),htrace.of_done hdone,
    fun ph hph => h.below ph (List.mem_cons_of_mem _ hph)⟩

end ElfSupply

namespace Sample

end Sample

end Lios.Elf

import Lios.Lib.Layers
import Lios.Proc.ElfFile

/-! # Loading one segment

A segment that ends in the lower half leaves the kernel alone, whatever its bytes are. If its
pages cover its bytes and its file part lies in the file, then loading it puts a layer on the
memory of the program: the pages are its area and the bytes its body. In the rest of the area
the program sees what the frames held before.
-/
namespace Lios.Elf
variable {A H : Type} {calls : ElfCalls A H}

/-- The pages of a segment. -/
def pages (ph : ElfProgramHeader) : Set ℕ :=
  Set.Ico (ph.pVaddr.toNat / 4096) (ph.pVaddr.toNat / 4096 + segmentPages ph)

/-- The byte that the file describes at the offset `k` of a segment. -/
def imageByte (file : List U8) (ph : ElfProgramHeader) (k : ℕ) : U8 :=
  if k < ph.pFilesz.toNat then (file[ph.pOffset.toNat + k]?).getD 0#8 else 0#8

/-- The bytes of the segment on its pages, over all of these pages. -/
def segmentLayer (file : List U8) (ph : ElfProgramHeader) : Layer U64 (Option U8) where
  area := {v | v.toNat / 4096 ∈ pages ph}
  body := {v | v.toNat / 4096 ∈ pages ph ∧ v ∈ span ph.pVaddr ph.pMemsz.toNat}
  value v := some (imageByte file ph (v - ph.pVaddr).toNat)
  subset _ hv := hv.1

/-- What a program sees of its half. -/
def userByte (m : Machine A H) (v : U64) : Option U8 := if v.toNat < 2 ^ 47 then byteAt m v else none

theorem userByte_congr {m m' : Machine A H} {v : U64}
    (h : v.toNat < 2 ^ 47 → byteAt m' v = byteAt m v) : userByte m' v = userByte m v := by
  rw [userByte,userByte]
  split
  · rename_i hv
    exact h hv
  · rfl

/-- The pages of the segment cover its bytes. -/
def Covering (ph : ElfProgramHeader) : Prop :=
  ph.pVaddr.toNat % 4096 + ph.pMemsz.toNat ≤ 4096 * segmentPages ph

instance (ph : ElfProgramHeader) : Decidable (Covering ph) := inferInstanceAs (Decidable (_ ≤ _))

theorem mem_span {a v : U64} {n : ℕ} (ha : a.toNat + n ≤ 2 ^ 64) :
    v ∈ span a n ↔ a.toNat ≤ v.toNat ∧ v.toNat < a.toNat + n :=
  sub_lt_iff ha

section Span
variable {ph : ElfProgramHeader}

theorem Below.mem_span (h : Below (2 ^ 47) ph) {v : U64} :
    v ∈ span ph.pVaddr ph.pMemsz.toNat ↔ ph.pMemsz.toNat ≠ 0 ∧ ph.pVaddr.toNat ≤ v.toNat ∧
      v.toNat < ph.pVaddr.toNat + ph.pMemsz.toNat := by
  rcases h.2 with h0 | hle
  · simp [h0,span]
  · rw [Elf.mem_span (by omega)]
    omega

/-- The two parts of a segment. -/
theorem Below.mem_parts (h : Below (2 ^ 47) ph) {v : U64} :
    v ∈ span ph.pVaddr ph.pMemsz.toNat ↔ v ∈ span ph.pVaddr ph.pFilesz.toNat ∨
      v ∈ span (ph.pVaddr + ph.pFilesz) (ph.pMemsz - ph.pFilesz).toNat := by
  have hle := h.1
  have hsub : (ph.pMemsz - ph.pFilesz).toNat = ph.pMemsz.toNat - ph.pFilesz.toNat := by
    have := ph.pMemsz.isLt
    rw [BitVec.toNat_sub]
    omega
  rcases h.2 with h0 | hlow
  · have hf : ph.pFilesz.toNat = 0 := by omega
    rw [hsub,h0,hf]
    simp [span]
  · have hadd : (ph.pVaddr + ph.pFilesz).toNat = ph.pVaddr.toNat + ph.pFilesz.toNat := by
      rw [BitVec.toNat_add]
      omega
    rw [Elf.mem_span (by omega),Elf.mem_span (by omega),hsub,Elf.mem_span (by omega),hadd]
    omega

/-- The second part begins where the first one ends. -/
theorem Below.notMem_second (h : Below (2 ^ 47) ph) {v : U64}
    (hv : v ∈ span ph.pVaddr ph.pFilesz.toNat) :
    v ∉ span (ph.pVaddr + ph.pFilesz) (ph.pMemsz - ph.pFilesz).toNat := by
  have hle := h.1
  have hv' : (v - ph.pVaddr).toNat < ph.pFilesz.toNat := hv
  rcases h.2 with h0 | hlow
  · omega
  · have hadd : (ph.pVaddr + ph.pFilesz).toNat = ph.pVaddr.toNat + ph.pFilesz.toNat := by
      rw [BitVec.toNat_add]
      omega
    have hsub : (ph.pMemsz - ph.pFilesz).toNat = ph.pMemsz.toNat - ph.pFilesz.toNat := by
      have := ph.pMemsz.isLt
      rw [BitVec.toNat_sub]
      omega
    rw [Elf.mem_span (by omega)] at hv
    rw [Elf.mem_span (by omega),hadd]
    omega

theorem Below.lower (h : Below (2 ^ 47) ph) {v : U64} (hv : v ∈ span ph.pVaddr ph.pMemsz.toNat) :
    v.toNat < 2 ^ 47 := by
  obtain ⟨hne,-,hlt⟩ := h.mem_span.mp hv
  have := h.2
  omega

theorem Below.pages_lower (h : Below (2 ^ 47) ph) {p : ℕ} (hp : p ∈ pages ph) : p < 2 ^ 35 := by
  obtain ⟨h₁,h₂⟩ := hp
  have := Below.pages_le (2 ^ 35) h (by omega)
  omega

theorem Covering.mem_pages (hc : Covering ph) (h : Below (2 ^ 47) ph) {v : U64}
    (hv : v ∈ span ph.pVaddr ph.pMemsz.toNat) : v.toNat / 4096 ∈ pages ph := by
  obtain ⟨-,hle,hlt⟩ := h.mem_span.mp hv
  unfold Covering at hc
  exact ⟨by omega,by omega⟩

end Span

namespace ElfSupply
variable (src : ElfSupply calls)

/-- The frames that loading a segment takes. -/
def segmentNeed (ph : ElfProgramHeader) : ℕ :=
  src.need (ceilU64Div ph.pMemsz pageSize * 8#64) + segmentPages ph

def stackNeed : ℕ := src.need (stackSize / pageSize * 8#64) + 2048

/-- The frames that loading the segments of the lower half takes. -/
def segmentsNeed (phs : List ElfProgramHeader) : ℕ :=
  ((phs.filter fun ph => Below (2 ^ 47) ph).map src.segmentNeed).sum

/-- What the rest of the area of a segment may show: if all free frames of the machine are filled
with one byte, then only that byte. -/
def junk (m : Machine A H) : Set (Option U8) := {x | ∀ g, src.Filled g m → x = some g}

variable {src} {l l' : Loader A H} {ph : ElfProgramHeader} {b : U64} {file : List U8}

theorem segmentsNeed_cons (hlow : Below (2 ^ 47) ph) (phs : List ElfProgramHeader) :
    src.segmentsNeed (ph :: phs) = src.segmentNeed ph + src.segmentsNeed phs := by
  rw [segmentsNeed,List.filter_cons,if_pos (by simpa using hlow),List.map_cons,List.sum_cons]
  rfl

/-- A call into the heap, seen from the loader. -/
theorem heapCall_lift {α : Type} {n : ℕ} {f : Machine A H → Outcome (Machine A H) α}
    (hf : src.HeapCall n f) (hs : src.Sound l.machine)
    (hroom : n ≤ src.room l.machine.paging.frames) :
    ((machineLens A H).lift f l).Settled ∧ ∀ a l', (machineLens A H).lift f l = .done a l' →
      src.HeapKept n l.machine l'.machine ∧ l'.trace = l.trace := by
  obtain ⟨hset,hdone⟩ := hf l.machine hs hroom
  refine ⟨hset.mapState,fun a l' h => ?_⟩
  obtain ⟨m,hm,rfl⟩ := Lens.lift_eq_done.mp h
  exact ⟨hdone a m hm,rfl⟩

/-- The heap call of a segment and its pages. -/
theorem loadSegment_maps (hs : src.Sound l.machine)
    (hroom : src.segmentNeed ph ≤ src.room l.machine.paging.frames) (hlow : Below (2 ^ 47) ph) :
    ((machineLens A H).lift (calls.vmalloc (ceilU64Div ph.pMemsz pageSize * 8#64)) l).Settled ∧
    ∀ a l₁, (machineLens A H).lift (calls.vmalloc (ceilU64Div ph.pMemsz pageSize * 8#64)) l =
        .done a l₁ →
      src.HeapKept (src.need (ceilU64Div ph.pMemsz pageSize * 8#64)) l.machine l₁.machine ∧
      (mapPages calls .map ph.pVaddr (segmentPages ph) 0#64 l₁).Settled ∧
      ∀ fs l₂, mapPages calls .map ph.pVaddr (segmentPages ph) 0#64 l₁ = .done fs l₂ →
        src.Mapped (pages ph) (segmentPages ph) l₁.machine l₂.machine := by
  unfold segmentNeed at hroom
  obtain ⟨hset,hcall⟩ := heapCall_lift (src.vmalloc (ceilU64Div ph.pMemsz pageSize * 8#64)) hs
    (by omega)
  refine ⟨hset,fun a l₁ h₁ => ?_⟩
  obtain ⟨hk,-⟩ := hcall a l₁ h₁
  have hr := hk.room
  refine ⟨hk,?_⟩
  have hmap := hk.sound.mapPages .map ph.pVaddr 0#64 (k := segmentPages ph) (by omega)
    fun hpos => by
      have := Below.pages_le (2 ^ 35) hlow hpos
      simpa using this
  simpa [pages] using hmap

theorem loadSegment_kept (hs : src.Sound l.machine)
    (hroom : src.segmentNeed ph ≤ src.room l.machine.paging.frames) (hlow : Below (2 ^ 47) ph)
    {seg : ElfSegmentMem} (hdone : loadSegment calls b ph l = .done seg l') :
    src.Kept (src.segmentNeed ph) l.machine l'.machine := by
  obtain ⟨a,l₁,h₁,hrest⟩ := Outcome.bind_eq_done.mp hdone
  obtain ⟨fs,l₂,h₂,hrest⟩ := Outcome.bind_eq_done.mp hrest
  obtain ⟨_,l₃,h₃,hrest⟩ := Outcome.bind_eq_done.mp hrest
  obtain ⟨_,l₄,h₄,hlast⟩ := Outcome.bind_eq_done.mp hrest
  obtain ⟨-,rfl⟩ := Outcome.done.inj hlast
  obtain ⟨hk,-,hmap⟩ := (loadSegment_maps hs hroom hlow).2 a l₁ h₁
  have hm := hmap fs l₂ h₂
  obtain ⟨m₃,hcopy,rfl⟩ := Lens.lift_eq_done.mp h₃
  obtain ⟨m₄,hset,rfl⟩ := Lens.lift_eq_done.mp h₄
  have hk₃ := (memcpy_stored ph.pFilesz.isLt hcopy).kept hm.sound
    fun v hv => hlow.lower (hlow.mem_parts.mpr (.inl hv))
  have hk₄ := (memset_stored (ph.pMemsz - ph.pFilesz).isLt hset).kept hk₃.sound
    fun v hv => hlow.lower (hlow.mem_parts.mpr (.inr hv))
  exact (hk.toKept.trans hm.toKept).trans (hk₃.trans hk₄)

/-- The first segment leaves the room that the other ones need. -/
theorem loadSegment_room {phs : List ElfProgramHeader} {n : ℕ} (hs : src.Sound l.machine)
    (hlow : Below (2 ^ 47) ph)
    (hroom : src.segmentsNeed (ph :: phs) + n ≤ src.room l.machine.paging.frames)
    {seg : ElfSegmentMem} (hdone : loadSegment calls b ph l = .done seg l') :
    src.Kept (src.segmentNeed ph) l.machine l'.machine ∧
      src.segmentsNeed phs + n ≤ src.room l'.machine.paging.frames := by
  rw [segmentsNeed_cons hlow] at hroom
  have hk := loadSegment_kept hs (by omega) hlow hdone
  have hr := hk.room
  exact ⟨hk,by omega⟩

/-- The two copies into pages that share no byte with other addresses. -/
theorem copy_own {m : Machine A H} (hb : src.Holds m b file) (hlow : Below (2 ^ 47) ph)
    (hin : ph.pOffset.toNat + ph.pFilesz.toNat ≤ file.length)
    (hown : ∀ v ∈ span ph.pVaddr ph.pMemsz.toNat, Own m v) :
    ∃ m₁ m₂, memcpy ph.pVaddr (b + ph.pOffset) ph.pFilesz.toNat m = .done () m₁ ∧
      memset (ph.pVaddr + ph.pFilesz) 0#8 (ph.pMemsz - ph.pFilesz).toNat m₁ = .done () m₂ ∧
      Stored (span ph.pVaddr ph.pMemsz.toNat) m m₂ ∧
      ∀ v ∈ span ph.pVaddr ph.pMemsz.toNat,
        byteAt m₂ v = some (imageByte file ph (v - ph.pVaddr).toNat) := by
  have hfirst {v : U64} (hv : v ∈ span ph.pVaddr ph.pFilesz.toNat) := hlow.mem_parts.mpr (.inl hv)
  have hsecond {v : U64} (hv : v ∈ span (ph.pVaddr + ph.pFilesz) (ph.pMemsz - ph.pFilesz).toNat) :=
    hlow.mem_parts.mpr (.inr hv)
  have haddr (k : ℕ) : b + ph.pOffset + BitVec.ofNat 64 k =
      b + BitVec.ofNat 64 (ph.pOffset.toNat + k) := by
    rw [BitVec.ofNat_add,BitVec.ofNat_toNat,BitVec.setWidth_eq,BitVec.add_assoc]
  obtain ⟨m₁,hcopy,hval₁⟩ := memcpy_own (m := m) (c := imageByte file ph) ph.pFilesz.isLt
    (fun v hv => hown v (hfirst hv)) fun k hk => by
      obtain ⟨hused,hbyte⟩ := hb (ph.pOffset.toNat + k) (by omega)
      rw [haddr,imageByte,if_pos hk,List.getElem?_eq_getElem (by omega),Option.getD_some]
      refine ⟨fun hv => ?_,hbyte⟩
      have := hlow.lower (hfirst hv)
      have := (src.used_subset _ hused).1
      omega
  have hst₁ := memcpy_stored ph.pFilesz.isLt hcopy
  obtain ⟨m₂,hset,hval₂⟩ := memset_own (m := m₁) (b := 0#8) (ph.pMemsz - ph.pFilesz).isLt
    fun v hv => hst₁.own (hown v (hsecond hv))
  have hst₂ := memset_stored (ph.pMemsz - ph.pFilesz).isLt hset
  refine ⟨m₁,m₂,hcopy,hset,(hst₁.mono fun _ => hfirst).trans (hst₂.mono fun _ => hsecond),
    fun v hv => ?_⟩
  by_cases hv₁ : v ∈ span ph.pVaddr ph.pFilesz.toNat
  · rw [hst₂.byteAt_of_own (fun u hu => hst₁.own (hown u (hsecond hu))) (hlow.notMem_second hv₁),
      hval₁ v hv₁]
  · have hk : ¬ (v - ph.pVaddr).toNat < ph.pFilesz.toNat := hv₁
    rw [hval₂ v ((hlow.mem_parts.mp hv).resolve_left hv₁),imageByte,if_neg hk]

/-- Fresh pages show the bytes of the frames below them. -/
theorem junk_of_mapped {P : Set ℕ} {n k : ℕ} {m m₁ m₂ : Machine A H} (hk : src.Kept n m m₁)
    (hm : src.Mapped P k m₁ m₂) {v : U64} (hv : v.toNat / 4096 ∈ P) :
    byteAt m₂ v ∈ src.junk m := by
  intro g hg
  obtain ⟨f,hf,hframe⟩ := hm.taken v hv
  refine byteAt_eq_some.mpr ⟨(hm.own v hv).1,?_⟩
  rw [hm.phys]
  exact hk.filled hg f hf _ hframe

theorem byteAt_of_away {P : Set ℕ} {n k : ℕ} {m m₁ m₂ : Machine A H} (hk : src.HeapKept n m m₁)
    (hm : src.Mapped P k m₁ m₂) {v : U64} (hlow : v.toNat < 2 ^ 47) (hv : v.toNat / 4096 ∉ P) :
    byteAt m₂ v = byteAt m v := by
  rw [byteAt_congr (hm.away v hv) fun _ => by rw [hm.phys],(hk.user v hlow).2]

/-- Loading a segment puts its layer on the memory of the program. -/
theorem loadSegment_covers (hs : src.Sound l.machine) (hb : src.Holds l.machine b file)
    (hroom : src.segmentNeed ph ≤ src.room l.machine.paging.frames) (hlow : Below (2 ^ 47) ph)
    (hc : Covering ph) (hin : ph.pOffset.toNat + ph.pFilesz.toNat ≤ file.length) :
    (loadSegment calls b ph l).Settled ∧ ∀ seg l', loadSegment calls b ph l = .done seg l' →
      (segmentLayer file ph).Covers (src.junk l.machine) (userByte l.machine)
        (userByte l'.machine) := by
  obtain ⟨hset,hmaps⟩ := loadSegment_maps hs hroom hlow
  have hcopy {a : U64} {l₁ l₂ : Loader A H} {fs : List PhysicalAddress}
      (h₁ : (machineLens A H).lift (calls.vmalloc (ceilU64Div ph.pMemsz pageSize * 8#64)) l =
        .done a l₁)
      (h₂ : mapPages calls .map ph.pVaddr (segmentPages ph) 0#64 l₁ = .done fs l₂) :=
    let hm := (hmaps a l₁ h₁).2.2 fs l₂ h₂
    copy_own (hm.holds ((hmaps a l₁ h₁).1.holds hb)) hlow hin
      fun v hv => hm.own v (hc.mem_pages hlow hv)
  refine ⟨hset.bind fun a l₁ h₁ => (hmaps a l₁ h₁).2.1.bind fun fs l₂ h₂ => ?_,
    fun seg l' hdone => ?_⟩
  · obtain ⟨m₁,m₂,h₃,h₄,-,-⟩ := hcopy h₁ h₂
    simp only [noted,Lens.lift,machineLens,h₃,h₄,Outcome.mapState_done,Outcome.bind_done]
    trivial
  · obtain ⟨a,l₁,h₁,hrest⟩ := Outcome.bind_eq_done.mp hdone
    obtain ⟨fs,l₂,h₂,hrest⟩ := Outcome.bind_eq_done.mp hrest
    obtain ⟨m₁,m₂,h₃,h₄,hst,hval⟩ := hcopy h₁ h₂
    obtain ⟨hk,-,hmap⟩ := hmaps a l₁ h₁
    have hm := hmap fs l₂ h₂
    have hend : l'.machine = m₂ := by
      simp only [noted,Lens.lift,machineLens,h₃,h₄,Outcome.mapState_done,Outcome.bind_done] at hrest
      exact (congrArg Loader.machine (Outcome.done.inj hrest).2).symm
    rw [hend]
    have hown (v : U64) (hv : v ∈ span ph.pVaddr ph.pMemsz.toNat) : Own l₂.machine v :=
      hm.own v (hc.mem_pages hlow hv)
    refine ⟨fun v hv => ?_,fun v hv => ?_,fun v hv => userByte_congr fun hlv => ?_⟩
    · rw [userByte,if_pos (hlow.lower hv.2)]
      exact hval v hv.2
    · have hlv : v.toNat < 2 ^ 47 := by
        have := hlow.pages_lower hv.1
        omega
      rw [userByte,if_pos hlv,hst.byteAt_of_own hown fun hs => hv.2 ⟨hv.1,hs⟩]
      exact junk_of_mapped hk.toKept hm hv.1
    · rw [hst.byteAt_of_own hown fun hs => hv (hc.mem_pages hlow hs)]
      exact byteAt_of_away hk hm hlv hv

end ElfSupply

end Lios.Elf

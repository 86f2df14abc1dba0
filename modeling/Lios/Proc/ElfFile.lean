import Lios.Proc.ElfMemory

/-! # The file behind the loader

The heap and the file system as the loader sees them, the headers of a file, and the parts of
`elf_load` that read them. As long as the buffer holds the file, the loops over the program
headers see those of the file, so a property that each segment carries on holds at their end.
-/
namespace Lios.Elf
variable {A H : Type} {calls : ElfCalls A H}

/-- What a call into the heap keeps: all of the kernel, and what programs see. -/
structure MemorySupply.HeapKept (src : MemorySupply calls) (n : ℕ) (m m' : Machine A H) : Prop
    extends src.Kept n m m' where
  user : ∀ v, v.toNat < 2 ^ 47 → translate m' v = translate m v ∧ byteAt m' v = byteAt m v

def MemorySupply.HeapCall {α : Type} (src : MemorySupply calls) (n : ℕ)
    (f : Machine A H → Outcome (Machine A H) α) : Prop :=
  ∀ m, src.Sound m → n ≤ src.room m.paging.frames →
    (f m).Settled ∧ ∀ a m', f m = .done a m' → src.HeapKept n m m'

/-- A request of the heap takes up to `need` frames of the high memory, and reading a file up to
`readNeed`. A buffer of a file that does not reach 4 GiB holds the bytes of the file. -/
structure ElfSupply (calls : ElfCalls A H) extends MemorySupply calls where
  need : U64 → ℕ
  vmalloc : ∀ n, toMemorySupply.HeapCall (need n) (calls.vmalloc n)
  vcalloc : ∀ n, toMemorySupply.HeapCall (need n) (calls.vcalloc n)
  vfree : ∀ b m, toMemorySupply.Sound m → b ∈ blocks m.heap → (calls.vfree b m).Settled ∧
    ∀ m', calls.vfree b m = .done () m' →
      ∀ v, Upper v → v ∉ heapArea → translate m' v = translate m v
  file : List U8 → List U8 → Machine A H → Option (List U8)
  readNeed : Option (List U8) → ℕ
  sector : ∀ name ext m bs, file name ext m = some bs → 512 ≤ bs.length
  read : ∀ name ext m, toMemorySupply.Sound m →
    (∀ bs, file name ext m = some bs → bs.length < 2 ^ 32) →
    readNeed (file name ext m) ≤ room m.paging.frames →
    (elfRead calls name ext m).Settled ∧ ∀ r m', elfRead calls name ext m = .done r m' →
      toMemorySupply.HeapKept (readNeed (file name ext m)) m m' ∧
      (file name ext m = none → r = none) ∧
      ∀ bs, file name ext m = some bs →
        ∃ b, r = some b ∧ b ∈ blocks m'.heap ∧ toMemorySupply.Holds m' b bs

/-! The headers of a file. -/

def elfHeader (file : List U8) : ElfHeader := headerOf (file.take 64)

def programHeader (file : List U8) (i : ℕ) : ElfProgramHeader :=
  programHeaderOf ((file.drop ((elfHeader file).ePhoff.toNat + 56 * i)).take 56)

/-- The headers of type `PT_LOAD` among the `k` headers from the index `i` on. -/
def loadHeadersFrom (file : List U8) (i k : ℕ) : List ElfProgramHeader :=
  ((List.range' i k).map (programHeader file)).filter fun ph => ph.pType = 1#32

def loadHeaders (file : List U8) : List ElfProgramHeader :=
  loadHeadersFrom file 0 (elfHeader file).ePhnum.toNat

/-- The table of the program headers lies in the file. -/
def TableInside (file : List U8) : Prop :=
  (elfHeader file).ePhoff.toNat + 56 * (elfHeader file).ePhnum.toNat ≤ file.length

def segmentPages (ph : ElfProgramHeader) : ℕ := (ceilU64Div ph.pMemsz pageSize).toNat

/-- The file part fits into the memory of the segment, which ends at `limit` or below. -/
def Below (limit : ℕ) (ph : ElfProgramHeader) : Prop :=
  ph.pFilesz.toNat ≤ ph.pMemsz.toNat ∧
    (ph.pMemsz.toNat = 0 ∨ ph.pVaddr.toNat + ph.pMemsz.toNat ≤ limit)

instance (limit : ℕ) (ph : ElfProgramHeader) : Decidable (Below limit ph) :=
  inferInstanceAs (Decidable (_ ∧ _))

theorem segmentPages_eq (ph : ElfProgramHeader) :
    segmentPages ph = (ph.pMemsz.toNat + 4095) / 4096 :=
  toNat_ceilU64Div (by decide)

theorem Below.mono {limit limit' : ℕ} {ph : ElfProgramHeader} (h : Below limit ph)
    (hle : limit ≤ limit') : Below limit' ph :=
  ⟨h.1,h.2.imp_right fun h => h.trans hle⟩

/-- A segment that ends below a page boundary has its pages below it. -/
theorem Below.pages_le {ph : ElfProgramHeader} (n : ℕ) (h : Below (4096 * n) ph)
    (hpos : 0 < segmentPages ph) : ph.pVaddr.toNat / 4096 + segmentPages ph ≤ n := by
  have h2 := h.2
  rw [segmentPages_eq] at hpos ⊢
  omega

/-! Reading the buffer. -/

section Read
variable {src : MemorySupply calls} {b : U64} {file : List U8} {l : Loader A H} {n off : ℕ}

theorem loadBytes_holds {m : Machine A H} (hb : src.Holds m b file) (h : off + n ≤ file.length) :
    loadBytes n (b + BitVec.ofNat 64 off) m = .done ((file.drop off).take n) m := by
  induction n generalizing off with
  | zero => rw [List.take_zero,loadBytes]
  | succ n ih =>
    obtain ⟨hnz,hbyte⟩ := byteAt_eq_some.mp (hb off (by omega)).2
    have hoff : off + 1 + n ≤ file.length := by omega
    have hnext : b + BitVec.ofNat 64 off + 1#64 = b + BitVec.ofNat 64 (off + 1) := by
      rw [BitVec.ofNat_add,BitVec.add_assoc]
    rw [loadBytes,loadByte,if_neg hnz,Outcome.bind_done,hbyte,hnext,ih hoff,
      Outcome.bind_done,List.drop_eq_getElem_cons (i := off) (by omega),List.take_succ_cons]

theorem readStruct_holds {virt : U64} (hb : src.Holds l.machine b file)
    (hv : virt = b + BitVec.ofNat 64 off) (h : off + n ≤ file.length) :
    readStruct virt n l = .done ((file.drop off).take n)
      { l with trace := l.trace ++ [.read virt (BitVec.ofNat 64 n)] } := by
  subst hv
  exact Lens.lift_eq_done.mpr ⟨l.machine,loadBytes_holds hb h,rfl⟩

/-- The steps of a load of an accepted file that returns. -/
theorem elfLoadBuffer_eq_done {ctx : ElfContext} {l' : Loader A H}
    (hb : src.Holds l.machine b file) (hlen : 64 ≤ file.length)
    (haccept : isAccepted (elfHeader file) = true)
    (hdone : elfLoadBuffer calls b l = .done ctx l') :
    ∃ num l₁ a l₂ segs l₃ fs,
      countSegments (b + (elfHeader file).ePhoff) (elfHeader file).ePhnum.toNat 0#16 0#64
        { l with trace := l.trace ++ [.read b 64#64] } = .done num l₁ ∧
      (machineLens A H).lift (calls.vcalloc (num * 24#64)) l₁ = .done a l₂ ∧
      loadSegments calls b (b + (elfHeader file).ePhoff) (elfHeader file).ePhnum.toNat 0#16 l₂ =
        .done segs l₃ ∧
      loadStack calls l₃ = .done fs l' ∧
      ctx = ⟨b,fs,segs,(elfHeader file).eEntry,lowerHalfMemMax,stackSize⟩ := by
  rw [elfLoadBuffer,readStruct_holds (n := 64) hb (show b = b + BitVec.ofNat 64 0 by simp)
    (by omega),Outcome.bind_done,List.drop_zero] at hdone
  simp only at hdone
  rw [if_neg (by rw [← elfHeader,haccept]; decide),← elfHeader] at hdone
  obtain ⟨num,l₁,h₁,hrest⟩ := Outcome.bind_eq_done.mp hdone
  obtain ⟨a,l₂,h₂,hrest⟩ := Outcome.bind_eq_done.mp hrest
  obtain ⟨segs,l₃,h₃,hrest⟩ := Outcome.bind_eq_done.mp hrest
  obtain ⟨fs,l₄,h₄,hlast⟩ := Outcome.bind_eq_done.mp hrest
  obtain ⟨rfl,rfl⟩ := Outcome.done.inj hlast
  exact ⟨num,l₁,a,l₂,segs,l₃,fs,h₁,h₂,h₃,h₄,rfl⟩

/-- A rejected file is freed when its header has been read. -/
theorem elfLoadBuffer_rejected (hb : src.Holds l.machine b file) (hlen : 64 ≤ file.length)
    (hreject : isAccepted (elfHeader file) = false) :
    elfLoadBuffer calls b l = ((machineLens A H).lift (calls.vfree b)
      { l with trace := l.trace ++ [.read b 64#64] }).bind fun _ l => .done noContext l := by
  rw [elfLoadBuffer,readStruct_holds (n := 64) hb (show b = b + BitVec.ofNat 64 0 by simp)
    (by omega),Outcome.bind_done,List.drop_zero]
  exact if_pos hreject

theorem elfLoad_of_read {name ext : List U8} {m m₁ : Machine A H}
    (h : elfRead calls name ext m = .done (some b) m₁) :
    elfLoad calls name ext m = elfLoadBuffer calls b ⟨m₁,[]⟩ := by
  rw [elfLoad,Lens.lift_eq_done.mpr ⟨m₁,h,rfl⟩]
  rfl

end Read

end Lios.Elf

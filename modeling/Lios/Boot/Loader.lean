import Lios.Lib.Assembly
import Lios.Util.Const

/-! # The loader

The 32-bit part of `loader.s`, from the entry point to the load of the descriptor table: the
boot page tables are filled in, long mode and paging are switched on, and the interrupt
controllers are remapped. Memory is the physical memory in doublewords; every store of the
loader is one of a doubleword at an address divisible by four. The symbols of `.bss` follow
one another from `pml4` on. They stand for physical addresses, as `no_offset` makes them.
-/
namespace Lios.Loader

inductive Reg where
  | eax | ebx | ecx | edx | esp | ebp
  deriving DecidableEq

inductive Cr where
  | cr0 | cr3 | cr4
  deriving DecidableEq

inductive Instr where
  | cli
  | mov (dst : Reg) (imm : U32)
  | movFromCr (dst : Reg) (src : Cr)
  | movToCr (dst : Cr) (src : Reg)
  | store (addr : U32) (src : Reg)
  | storeAt (ptr src : Reg)
  | or (dst : Reg) (imm : U32)
  | and (dst : Reg) (imm : U32)
  | add (dst : Reg) (imm : U32)
  | dec (dst : Reg)
  | rdmsr
  | wrmsr
  | movDx (imm : U16)
  | movAl (imm : U8)
  | outDxAl

inductive Cond where
  | nz

inductive Label where
  | start | checksComplete
  | populatePdtHighLoop | populatePtHighLoop | populatePdtLowLoop | populatePtLowLoop
  deriving DecidableEq

/-- The processor with the physical memory and the bytes written to ports, oldest first. -/
structure Cpu where
  reg : Reg → U32
  cr : Cr → U32
  msr : U32 → U64
  zf : Bool
  intr : Bool
  mem : ℕ → U32
  out : List (U16 × U8)

namespace Cpu

def setReg (c : Cpu) (r : Reg) (v : U32) : Cpu := { c with reg := Function.update c.reg r v }

/-- The result of an arithmetic instruction. -/
def alu (c : Cpu) (r : Reg) (v : U32) : Cpu := { c.setReg r v with zf := v == 0#32 }

end Cpu

def exec : Instr → Cpu → Cpu
  | .cli,c => { c with intr := false }
  | .mov dst imm,c => c.setReg dst imm
  | .movFromCr dst src,c => c.setReg dst (c.cr src)
  | .movToCr dst src,c => { c with cr := Function.update c.cr dst (c.reg src) }
  | .store addr src,c => { c with mem := Function.update c.mem addr.toNat (c.reg src) }
  | .storeAt ptr src,c => { c with mem := Function.update c.mem (c.reg ptr).toNat (c.reg src) }
  | .or dst imm,c => c.alu dst (c.reg dst ||| imm)
  | .and dst imm,c => c.alu dst (c.reg dst &&& imm)
  | .add dst imm,c => c.alu dst (c.reg dst + imm)
  | .dec dst,c => c.alu dst (c.reg dst - 1#32)
  | .rdmsr,c => (c.setReg .edx ((c.msr (c.reg .ecx)) >>> 32 |>.setWidth 32)).setReg .eax
      ((c.msr (c.reg .ecx)).setWidth 32)
  | .wrmsr,c => { c with msr := Function.update c.msr (c.reg .ecx) (c.reg .edx ++ c.reg .eax) }
  | .movDx imm,c => c.setReg .edx (c.reg .edx &&& 0xFFFF0000#32 ||| imm.setWidth 32)
  | .movAl imm,c => c.setReg .eax (c.reg .eax &&& 0xFFFFFF00#32 ||| imm.setWidth 32)
  | .outDxAl,c => { c with out := c.out ++ [((c.reg .edx).setWidth 16,(c.reg .eax).setWidth 8)] }

def isa : Isa Instr Cond Cpu where
  exec := exec
  holds
    | .nz,c => !c.zf

@[simp] theorem isa_exec (i : Instr) (c : Cpu) : isa.exec i c = exec i c := rfl

@[simp] theorem isa_holds_nz (c : Cpu) : isa.holds .nz c = !c.zf := rfl

section Symbols
variable (pml4 : U32)

def pdptLow : U32 := pml4 + 0x1000#32
def pdptHigh : U32 := pml4 + 0x2000#32
def pdtLow : U32 := pml4 + 0x3000#32
def pdtHigh : U32 := pml4 + 0x5000#32
def ptLow : U32 := pml4 + 0x7000#32
def ptHigh : U32 := pml4 + 0x407000#32
def stackBottom : U32 := pml4 + 0x807000#32
def stackTop : U32 := pml4 + 0x80B000#32
def mbootStructPtr : U32 := pml4 + 0x80B000#32

def enter : List Instr := [.cli,.mov .esp (stackTop pml4),.mov .ebp (stackBottom pml4),
  .store (mbootStructPtr pml4) .ebx]

def control : List Instr := [
  .movFromCr .eax .cr4,.or .eax 0x20#32,.movToCr .cr4 .eax,
  .movFromCr .eax .cr0,.and .eax 0x7FFFFFFF#32,.movToCr .cr0 .eax]

/-- An entry that points to the table `v`. -/
def linkEntry (addr v : U32) : List Instr := [.mov .eax v,.or .eax 0x03#32,.store addr .eax]

def linkPml4 : List Instr := linkEntry pml4 (pdptLow pml4) ++
  linkEntry (pml4 + 4088#32) (pdptHigh pml4)

def loadCr3 : List Instr := [.mov .eax pml4,.movToCr .cr3 .eax]

def linkPdpts : List Instr := linkEntry (pdptHigh pml4 + 4080#32) (pdtHigh pml4) ++
  linkEntry (pdptHigh pml4 + 4088#32) (pdtHigh pml4 + 4096#32) ++
  linkEntry (pdptLow pml4) (pdtLow pml4) ++
  linkEntry (pdptLow pml4 + 8#32) (pdtLow pml4 + 4096#32)

def link : List Instr := control ++ linkPml4 pml4 ++ loadCr3 pml4 ++ linkPdpts pml4

/-- Before a loop: the first entry, the table and the number of entries. -/
def prepare (eax ebx ecx : U32) : List Instr :=
  [.mov .eax eax,.or .eax 0x03#32,.mov .ebx ebx,.mov .ecx ecx]

/-- The body of the four loops. -/
def populate : List Instr :=
  [.storeAt .ebx .eax,.add .eax 0x1000#32,.add .ebx 8#32,.dec .ecx]

def enable : List Instr := [
  .mov .ecx 0xC0000080#32,.rdmsr,.or .eax 0x100#32,.or .eax 1#32,.wrmsr,
  .movFromCr .eax .cr0,.or .eax 0x80000000#32,.movToCr .cr0 .eax]

/-- A byte for a controller, and the delay after it. -/
def outByte (port : U16) (value : U8) : List Instr :=
  [.movDx port,.movAl value,.outDxAl,.movDx 0x80#16,.movAl 0#8,.outDxAl]

/-- The command words of the two interrupt controllers in the order of the source. -/
def remapWords : List (U16 × U8) := [
  (0x20#16,0x11#8),(0xA0#16,0x11#8),(0x21#16,0x20#8),(0xA1#16,0x28#8),
  (0x21#16,0x04#8),(0xA1#16,0x02#8),(0x21#16,0x01#8),(0xA1#16,0x01#8)]

def remap : List Instr := remapWords.flatMap fun w => outByte w.1 w.2

def finish : Text Instr Cond Label := (enable ++ remap).map .instr

def lowTables : Text Instr Cond Label :=
  (prepare (ptLow pml4) (pdtLow pml4) 1024#32).map .instr ++ (.label .populatePdtLowLoop ::
  (populate.map .instr ++ .jump .nz .populatePdtLowLoop ::
  ((prepare 0#32 (ptLow pml4) 524288#32).map .instr ++ (.label .populatePtLowLoop ::
  (populate.map .instr ++ .jump .nz .populatePtLowLoop :: finish)))))

def highTables : Text Instr Cond Label :=
  (prepare (ptHigh pml4) (pdtHigh pml4) 1024#32).map .instr ++ (.label .populatePdtHighLoop ::
  (populate.map .instr ++ .jump .nz .populatePdtHighLoop ::
  ((prepare 0#32 (ptHigh pml4) 524288#32).map .instr ++ (.label .populatePtHighLoop ::
  (populate.map .instr ++ .jump .nz .populatePtHighLoop :: lowTables pml4)))))

def text : Text Instr Cond Label :=
  .label .start :: ((enter pml4).map .instr ++ (.label .checksComplete ::
  ((link pml4).map .instr ++ highTables pml4)))

end Symbols

/-! One loop. -/

/-- The memory after `n` passes of a loop. -/
def fill (m : ℕ → U32) (ebx eax : U32) : ℕ → ℕ → U32
  | 0 => m
  | n + 1 => Function.update (fill m ebx eax n) (ebx + BitVec.ofNat 32 (8 * n)).toNat
      (eax + BitVec.ofNat 32 (0x1000 * n))

/-- The state after `n` passes of a loop from `c`. -/
structure Populated (c : Cpu) (n : ℕ) (d : Cpu) : Prop where
  eax : d.reg .eax = c.reg .eax + BitVec.ofNat 32 (0x1000 * n)
  ebx : d.reg .ebx = c.reg .ebx + BitVec.ofNat 32 (8 * n)
  ecx : d.reg .ecx = c.reg .ecx - BitVec.ofNat 32 n
  zf : 0 < n → d.zf = (c.reg .ecx - BitVec.ofNat 32 n == 0#32)
  mem : d.mem = fill c.mem (c.reg .ebx) (c.reg .eax) n
  cr : d.cr = c.cr
  msr : d.msr = c.msr
  out : d.out = c.out

theorem Populated.step {c d : Cpu} {n : ℕ} (h : Populated c n d) :
    Populated c (n + 1) (isa.block populate d) := by
  have hcount : d.reg .ecx - 1#32 = c.reg .ecx - BitVec.ofNat 32 (n + 1) := by
    rw [h.ecx,BitVec.ofNat_add,sub_sub]
  refine ⟨?_,?_,?_,fun _ => ?_,?_,h.cr,h.msr,h.out⟩
  · simp [populate,exec,Cpu.alu,Cpu.setReg,h.eax,Nat.mul_add,BitVec.ofNat_add,add_assoc]
  · simp [populate,exec,Cpu.alu,Cpu.setReg,h.ebx,Nat.mul_add,BitVec.ofNat_add,add_assoc]
  · simpa [populate,exec,Cpu.alu,Cpu.setReg] using hcount
  · simp [populate,exec,Cpu.alu,Cpu.setReg,hcount]
  · simp [populate,exec,Cpu.alu,Cpu.setReg,fill,h.mem,h.eax,h.ebx]

theorem populated_iterate (c : Cpu) (n : ℕ) : Populated c n ((isa.block populate)^[n] c) := by
  induction n with
  | zero => exact ⟨by simp,by simp,by simp,by simp,rfl,rfl,rfl,rfl⟩
  | succ n ih =>
    rw [Function.iterate_succ_apply']
    exact ih.step

/-- A loop that was prepared runs `n` passes and is left. -/
theorem reaches_loop (pml4 eax ebx : U32) (l : Label) (n : ℕ) {ecx : U32}
    {rest : Text Instr Cond Label} (c : Cpu) (hecx : ecx = BitVec.ofNat 32 n) (hpos : 0 < n)
    (hn : n < 2 ^ 32)
    (hl : Isa.behind l (text pml4) = populate.map .instr ++ .jump .nz l :: rest) :
    ∃ d, isa.Reaches (text pml4) ((prepare eax ebx ecx).map .instr ++ (.label l ::
        (populate.map .instr ++ .jump .nz l :: rest)),c) (rest,d) ∧
      d.mem = fill c.mem ebx (eax ||| 3#32) n ∧ d.cr = c.cr ∧ d.msr = c.msr ∧
      d.out = c.out := by
  have hpop (k : ℕ) := populated_iterate (isa.block (prepare eax ebx ecx) c) k
  obtain ⟨n,rfl⟩ := Nat.exists_eq_add_one.mpr hpos
  have hreg : (isa.block (prepare eax ebx ecx) c).reg .ecx = BitVec.ofNat 32 (n + 1) := by
    simp [prepare,exec,Cpu.alu,Cpu.setReg,hecx]
  -- the count reaches zero with the last pass and not before
  have hzf (k : ℕ) (hk : k ≤ n) : ((isa.block populate)^[k + 1]
      (isa.block (prepare eax ebx ecx) c)).zf = decide (k = n) := by
    rw [(hpop (k + 1)).zf (by omega),hreg,Bool.eq_iff_iff,beq_iff_eq,decide_eq_true_iff]
    constructor
    · intro heq
      have hnat := congrArg BitVec.toNat heq
      simp only [BitVec.toNat_sub,BitVec.toNat_ofNat] at hnat
      omega
    · rintro rfl
      exact sub_self _
  refine ⟨_,?_,?_,(hpop (n + 1)).cr,(hpop (n + 1)).msr,(hpop (n + 1)).out⟩
  · apply Isa.Reaches.block
    apply Isa.Reaches.label
    rw [← hl]
    refine Isa.Reaches.loop (n := n) hl (fun k hk => ?_) ?_ Isa.Reaches.refl
    · rw [isa_holds_nz,hzf k (by omega),decide_eq_false hk.ne,Bool.not_false]
    · rw [isa_holds_nz,hzf n le_rfl,decide_eq_true rfl,Bool.not_true]
  · rw [(hpop (n + 1)).mem]
    simp [prepare,exec,Cpu.alu,Cpu.setReg]

/-! The whole text. -/

/-- The memory with the entries of the upper levels. -/
def linkMem (pml4 : U32) (m : ℕ → U32) : ℕ → U32 :=
  let m := Function.update m pml4.toNat (pdptLow pml4 ||| 3#32)
  let m := Function.update m (pml4 + 4088#32).toNat (pdptHigh pml4 ||| 3#32)
  let m := Function.update m (pdptHigh pml4 + 4080#32).toNat (pdtHigh pml4 ||| 3#32)
  let m := Function.update m (pdptHigh pml4 + 4088#32).toNat ((pdtHigh pml4 + 4096#32) ||| 3#32)
  let m := Function.update m (pdptLow pml4).toNat (pdtLow pml4 ||| 3#32)
  Function.update m (pdptLow pml4 + 8#32).toNat ((pdtLow pml4 + 4096#32) ||| 3#32)

/-- The memory that the loader leaves. -/
def bootMem (pml4 mboot : U32) (m : ℕ → U32) : ℕ → U32 :=
  let m := linkMem pml4 (Function.update m (mbootStructPtr pml4).toNat mboot)
  let m := fill m (pdtHigh pml4) (ptHigh pml4 ||| 3#32) 1024
  let m := fill m (ptHigh pml4) 3#32 524288
  let m := fill m (pdtLow pml4) (ptLow pml4 ||| 3#32) 1024
  fill m (ptLow pml4) 3#32 524288

/-- The words for the controllers, each with the delay after it. -/
def remapOut : List (U16 × U8) := remapWords.flatMap fun w => [w,(0x80#16,0#8)]

theorem block_append (is js : List Instr) (c : Cpu) :
    isa.block (is ++ js) c = isa.block js (isa.block is c) := List.foldl_append

section Link
variable (addr v : U32) (c : Cpu)

theorem linkEntry_mem : (isa.block (linkEntry addr v) c).mem =
    Function.update c.mem addr.toNat (v ||| 3#32) := by
  simp [linkEntry,exec,Cpu.alu,Cpu.setReg]

theorem control_cr0 : (isa.block control c).cr .cr0 = c.cr .cr0 &&& 0x7FFFFFFF#32 := rfl

theorem control_cr4 : (isa.block control c).cr .cr4 = c.cr .cr4 ||| 0x20#32 := rfl

theorem loadCr3_cr : (isa.block (loadCr3 v) c).cr = Function.update c.cr .cr3 v := by
  simp [loadCr3,exec,Cpu.setReg]

theorem link_mem : (isa.block (link v) c).mem = linkMem v c.mem := by
  have hcr3 (c : Cpu) : (isa.block (loadCr3 v) c).mem = c.mem := rfl
  have hcontrol : (isa.block control c).mem = c.mem := rfl
  simp only [link,linkPdpts,linkPml4,block_append,linkEntry_mem,hcr3,hcontrol,linkMem]

theorem link_cr : (isa.block (link v) c).cr =
    Function.update (isa.block control c).cr .cr3 v := by
  have hentry (addr v : U32) (c : Cpu) : (isa.block (linkEntry addr v) c).cr = c.cr := rfl
  simp only [link,linkPdpts,linkPml4,block_append,hentry,loadCr3_cr]

theorem enable_efer : (isa.block enable c).msr 0xC0000080#32 =
    c.msr 0xC0000080#32 ||| 0x101#64 := by
  have hor : (isa.block enable c).msr 0xC0000080#32 = ((c.msr 0xC0000080#32) >>> 32).setWidth 32 ++
      ((c.msr 0xC0000080#32).setWidth 32 ||| 0x100#32 ||| 1#32) := rfl
  rw [hor]
  generalize c.msr 0xC0000080#32 = efer
  apply BitVec.eq_of_getLsbD_eq
  intro i hi
  rw [BitVec.getLsbD_append]
  by_cases hlow : i < 32
  · have hbits : ∀ i < 32, ((0x100#32).getLsbD i || (1#32).getLsbD i) = (0x101#64).getLsbD i := by
      decide
    rw [if_pos hlow,BitVec.getLsbD_or,BitVec.getLsbD_or,BitVec.getLsbD_setWidth,decide_eq_true hlow,
      Bool.true_and,Bool.or_assoc,hbits i hlow,BitVec.getLsbD_or]
  · have hzero : ∀ i < 64, 32 ≤ i → (0x101#64).getLsbD i = false := by decide
    simp [hlow,hzero i hi (by omega),show i - 32 < 32 by omega,show 32 + (i - 32) = i by omega]

end Link

/-- What the loader leaves behind when it enters long mode. -/
structure Booted (pml4 : U32) (c d : Cpu) : Prop where
  mem : d.mem = bootMem pml4 (c.reg .ebx) c.mem
  cr3 : d.cr .cr3 = pml4
  cr0 : d.cr .cr0 = c.cr .cr0 &&& 0x7FFFFFFF#32 ||| 0x80000000#32
  cr4 : d.cr .cr4 = c.cr .cr4 ||| 0x20#32
  efer : d.msr 0xC0000080#32 = c.msr 0xC0000080#32 ||| 0x101#64
  out : d.out = c.out ++ remapOut

theorem block_outByte (port : U16) (value : U8) (is : List Instr) (c : Cpu) :
    ∃ d, isa.block (outByte port value ++ is) c = isa.block is d ∧ d.mem = c.mem ∧ d.cr = c.cr ∧
      d.msr = c.msr ∧ d.out = c.out ++ [(port,value),(0x80#16,0#8)] := by
  refine ⟨_,rfl,rfl,rfl,rfl,?_⟩
  simp [exec,Cpu.setReg,BitVec.setWidth_or,BitVec.setWidth_and]

theorem block_remap (ws : List (U16 × U8)) (c : Cpu) :
    (isa.block (ws.flatMap fun w => outByte w.1 w.2) c).mem = c.mem ∧
    (isa.block (ws.flatMap fun w => outByte w.1 w.2) c).cr = c.cr ∧
    (isa.block (ws.flatMap fun w => outByte w.1 w.2) c).msr = c.msr ∧
    (isa.block (ws.flatMap fun w => outByte w.1 w.2) c).out =
      c.out ++ ws.flatMap fun w => [w,(0x80#16,0#8)] := by
  induction ws generalizing c with
  | nil => simp
  | cons w ws ih =>
    obtain ⟨d,hd,hmem,hcr,hmsr,hout⟩ := block_outByte w.1 w.2
      (ws.flatMap fun w => outByte w.1 w.2) c
    obtain ⟨hmem',hcr',hmsr',hout'⟩ := ih d
    rw [List.flatMap_cons,hd,hmem',hcr',hmsr',hout',hmem,hcr,hmsr,hout]
    simp

/-- From every state the loader runs to the end of its text. -/
theorem loader_reaches (pml4 : U32) (c : Cpu) :
    ∃ d, isa.Reaches (text pml4) (text pml4,c) ([],d) ∧ Booted pml4 c d := by
  obtain ⟨c₁,hr₁,hm₁,hcr₁,hmsr₁,hout₁⟩ := reaches_loop pml4 (ptHigh pml4) (pdtHigh pml4)
    .populatePdtHighLoop 1024 (isa.block (link pml4) (isa.block (enter pml4) c)) rfl (by decide)
    (by decide) rfl
  obtain ⟨c₂,hr₂,hm₂,hcr₂,hmsr₂,hout₂⟩ := reaches_loop pml4 0#32 (ptHigh pml4)
    .populatePtHighLoop 524288 c₁ rfl (by decide) (by decide) rfl
  obtain ⟨c₃,hr₃,hm₃,hcr₃,hmsr₃,hout₃⟩ := reaches_loop pml4 (ptLow pml4) (pdtLow pml4)
    .populatePdtLowLoop 1024 c₂ rfl (by decide) (by decide) rfl
  obtain ⟨c₄,hr₄,hm₄,hcr₄,hmsr₄,hout₄⟩ := reaches_loop pml4 0#32 (ptLow pml4)
    .populatePtLowLoop 524288 c₃ rfl (by decide) (by decide) rfl
  have hcr : c₄.cr = (isa.block (link pml4) (isa.block (enter pml4) c)).cr := by
    rw [hcr₄,hcr₃,hcr₂,hcr₁]
  have hmsr : c₄.msr = c.msr := by
    rw [hmsr₄,hmsr₃,hmsr₂,hmsr₁]
    rfl
  have hout : c₄.out = c.out := by
    rw [hout₄,hout₃,hout₂,hout₁]
    rfl
  obtain ⟨hmem₅,hcr₅,hmsr₅,hout₅⟩ := block_remap remapWords (isa.block enable c₄)
  refine ⟨isa.block remap (isa.block enable c₄),?_,?_,?_,?_,?_,?_,?_⟩
  · apply Isa.Reaches.label
    apply Isa.Reaches.block
    apply Isa.Reaches.label
    apply Isa.Reaches.block
    refine hr₁.trans (hr₂.trans (hr₃.trans (hr₄.trans ?_)))
    rw [finish,← List.append_nil (List.map _ _)]
    apply Isa.Reaches.block
    rw [block_append]
    exact Isa.Reaches.refl
  · have hlink : (isa.block (link pml4) (isa.block (enter pml4) c)).mem =
        linkMem pml4 (Function.update c.mem (mbootStructPtr pml4).toNat (c.reg .ebx)) := by
      rw [link_mem]
      simp [enter,exec,Cpu.setReg]
    have henable : (isa.block enable c₄).mem = c₄.mem := rfl
    rw [remap,hmem₅,henable,hm₄,hm₃,hm₂,hm₁,hlink]
    simp [bootMem]
  · have henable : (isa.block enable c₄).cr .cr3 = c₄.cr .cr3 := rfl
    rw [remap,hcr₅,henable,hcr,link_cr,Function.update_self]
  · have henable : (isa.block enable c₄).cr .cr0 = c₄.cr .cr0 ||| 0x80000000#32 := rfl
    rw [remap,hcr₅,henable,hcr,link_cr,Function.update_of_ne (by decide),control_cr0]
    rfl
  · have henable : (isa.block enable c₄).cr .cr4 = c₄.cr .cr4 := rfl
    rw [remap,hcr₅,henable,hcr,link_cr,Function.update_of_ne (by decide),control_cr4]
    rfl
  · rw [remap,hmsr₅,enable_efer,hmsr]
  · rw [remap,hout₅,← hout]
    rfl

end Lios.Loader

import Mathlib.Tactic.IntervalCases
import Lios.Int.Entry

/-! # Interrupts are transparent

What is pushed on the way in is taken from the stack on the way out, in the other order. One
statement about a list of registers stands for all of `pushregs`, and one for `popregs`.
-/
namespace Lios.Entry

/-- The state `c'` is `c` on the stack that begins at `base`, with the words `ws` pushed. -/
structure Pushed (base : U64) (c : Core) (ws : List U64) (c' : Core) : Prop where
  rsp : c'.reg .rsp = base - BitVec.ofNat 64 (8 * ws.length)
  holds : Holds c'.mem (c'.reg .rsp) ws
  keeps : ∀ x, 8 * ws.length ≤ (x - c'.reg .rsp).toNat → c'.mem x = c.mem x
  regs : ∀ r, r ≠ .rsp → c'.reg r = c.reg r

section Pushed
variable {base v : U64} {c c' : Core} {ws : List U64}

@[simp] theorem reg_setReg (c : Core) (r : Gpr) (v : U64) : (c.setReg r v).reg r = v :=
  Function.update_self ..

theorem reg_setReg_of_ne {r r' : Gpr} (h : r' ≠ r) (c : Core) (v : U64) :
    (c.setReg r v).reg r' = c.reg r' := Function.update_of_ne h ..

@[simp] theorem mem_setReg (c : Core) (r : Gpr) (v : U64) : (c.setReg r v).mem = c.mem := rfl

@[simp] theorem rsp_push (c : Core) (v : U64) : (c.push v).reg .rsp = c.reg .rsp - 8#64 :=
  reg_setReg c .rsp (c.reg .rsp - 8#64)

theorem reg_push {r : Gpr} (h : r ≠ .rsp) (c : Core) (v : U64) : (c.push v).reg r = c.reg r :=
  reg_setReg_of_ne h c (c.reg .rsp - 8#64)

theorem mem_push (c : Core) (v : U64) :
    (c.push v).mem = store c.mem (c.reg .rsp - 8#64) (wordBytes v) := rfl

theorem pushed_nil (base : U64) (c : Core) : Pushed base c [] (c.setReg .rsp base) := by
  refine ⟨?_,trivial,fun _ _ => rfl,fun r hr => reg_setReg_of_ne hr c base⟩
  simp

theorem Pushed.push (h : Pushed base c ws c') (hlen : 8 * ws.length + 8 ≤ 2 ^ 64) (v : U64) :
    Pushed base c (v :: ws) (c'.push v) := by
  refine ⟨?_,?_,fun x hx => ?_,fun r hr => (reg_push hr c' v).trans (h.regs r hr)⟩
  · rw [rsp_push,h.rsp,List.length_cons,Nat.mul_succ,BitVec.ofNat_add,sub_add_eq_sub_sub]
  · rw [rsp_push,mem_push]
    exact h.holds.push hlen v
  · rw [rsp_push,List.length_cons] at hx
    have hx' : (x - (c'.reg .rsp - 8#64)).toNat = (x - c'.reg .rsp).toNat + 8 ∨
        8 * ws.length ≤ (x - c'.reg .rsp).toNat := by
      by_cases hwrap : (x - c'.reg .rsp).toNat + 8 < 2 ^ 64
      · have hdist := toNat_sub_of_next (x := x) (p := c'.reg .rsp - 8#64)
          (by rw [sub_add_cancel]; exact hwrap)
        rw [sub_add_cancel] at hdist
        exact .inl hdist
      · exact .inr (by omega)
    rw [mem_push,store_of_le (by rw [length_wordBytes]; omega)]
    exact h.keeps x (by omega)

/-- The words of a frame, the last of the list first. -/
theorem pushed_frame (base : U64) (c : Core) {ws : List U64} (hlen : 8 * ws.length ≤ 2 ^ 64) :
    Pushed base c ws (ws.foldr (fun v c => c.push v) (c.setReg .rsp base)) := by
  induction ws with
  | nil => exact pushed_nil base c
  | cons v ws ih =>
    rw [List.length_cons] at hlen
    exact (ih (by omega)).push (by omega) v

variable (fns : Fn → Core → Core) (flags : U64 → U64 → U64)

/-- The registers `rs` are pushed one after the other. -/
theorem Pushed.pushRegs (rs : List Gpr) (h : Pushed base c ws c') (hrs : .rsp ∉ rs)
    (hlen : 8 * (rs.length + ws.length) ≤ 2 ^ 64) :
    Pushed base c (rs.reverse.map c.reg ++ ws) ((isa fns flags).block (rs.map .push) c') := by
  induction rs generalizing ws c' with
  | nil => exact h
  | cons r rs ih =>
    rw [List.mem_cons,not_or] at hrs
    rw [List.length_cons] at hlen
    have hnext := h.push (by omega) (c'.reg r)
    have hrest := ih hnext hrs.2 (by rw [List.length_cons]; omega)
    rw [h.regs r (Ne.symm hrs.1)] at hrest
    rw [List.reverse_cons,List.map_append,List.append_assoc]
    change Pushed base c _ ((isa fns flags).block (rs.map .push) (c'.push (c'.reg r)))
    rw [h.regs r (Ne.symm hrs.1)]
    exact hrest

/-- The registers `rs` are taken from the stack. -/
theorem popRegs (rs : List Gpr) (g : Gpr → U64) (hnodup : rs.Nodup) (hrs : .rsp ∉ rs)
    (h : Holds c.mem (c.reg .rsp) (rs.map g ++ ws)) :
    ∃ c', (isa fns flags).block (rs.map .pop) c = c' ∧ Holds c'.mem (c'.reg .rsp) ws ∧
      c'.mem = c.mem ∧ (∀ r ∈ rs, c'.reg r = g r) ∧ ∀ r, r ∉ rs → r ≠ .rsp → c'.reg r = c.reg r := by
  induction rs generalizing c with
  | nil => exact ⟨c,rfl,h,rfl,by simp,fun _ _ _ => rfl⟩
  | cons r rs ih =>
    rw [List.mem_cons,not_or] at hrs
    obtain ⟨hr,hnodup⟩ := List.nodup_cons.mp hnodup
    obtain ⟨hload,hrest⟩ := h
    have hpop : (isa fns flags).exec (.pop r) c =
        (c.setReg .rsp (c.reg .rsp + 8#64)).setReg r (load c.mem (c.reg .rsp)) := rfl
    have hrsp : ((isa fns flags).exec (.pop r) c).reg .rsp = c.reg .rsp + 8#64 := by
      rw [hpop,reg_setReg_of_ne hrs.1,reg_setReg]
    have hmem : ((isa fns flags).exec (.pop r) c).mem = c.mem := rfl
    obtain ⟨c',hblock,hholds,hmem',hin,hout⟩ := ih hnodup hrs.2 (by rw [hrsp,hmem]; exact hrest)
    refine ⟨c',hblock,hholds,hmem'.trans hmem,fun q hq => ?_,fun q hq hne => ?_⟩
    · rcases List.mem_cons.mp hq with rfl | hq
      · rw [hout q hr (Ne.symm hrs.1),hpop,reg_setReg,hload]
      · exact hin q hq
    · rw [List.mem_cons,not_or] at hq
      rw [hout q hq.2 hne,hpop,reg_setReg_of_ne hq.1,reg_setReg_of_ne hne]

end Pushed

/-- A function that returns with its stack pointer and leaves the structure it was given alone. -/
structure Returns (f : Core → Core) (c : Core) : Prop where
  rsp : (f c).reg .rsp = c.reg .rsp
  data : ∀ x, (x - c.reg .rsp).toNat < 176 → (f c).mem x = c.mem x

section Handler
variable {fns : Fn → Core → Core} {flags : U64 → U64 → U64} {base code : U64} {c c' : Core} {n : U64}

theorem mem_saved {r : Gpr} : r ∈ saved ↔ r ≠ .rsp := by
  cases r <;> decide

/-- The way from the label of a handler to the call. -/
theorem reaches_call (fns : Fn → Core → Core) (flags : U64 → U64 → U64) (f : Fn) (rest : Lines)
    (h : Pushed base c (n :: code :: returnFrame c) c') :
    ∃ cc, (isa fns flags).Reaches text (handler f ++ rest,c')
        (.instr (.call f) :: (leave.map .instr ++ .jump () .left :: rest),cc) ∧
      cc.reg .rdi = cc.reg .rsp ∧ cc.reg .rsp = base - 176#64 ∧
      Holds cc.mem (cc.reg .rdi) (interruptData c n code) ∧
      ∀ x, 176 ≤ (x - (base - 176#64)).toNat → cc.mem x = c.mem x := by
  have hregs := h.pushRegs fns flags saved (by decide) (by simp [saved,returnFrame])
  have hlength : 8 * (saved.reverse.map c.reg ++ n :: code :: returnFrame c).length = 176 := rfl
  have hkeeps := hregs.keeps
  have hrsp := hregs.rsp
  rw [hlength] at hkeeps hrsp
  rw [hrsp] at hkeeps
  have hblock : handler f ++ rest = pushregs.map .instr ++
      .instr (.mov .rdi .rsp) :: .instr (.call f) :: (leave.map .instr ++ .jump () .left :: rest) := by
    simp [handler,enter]
  let cp := (isa fns flags).block pushregs c'
  refine ⟨cp.setReg .rdi (cp.reg .rsp),?_,?_,?_,?_,hkeeps⟩
  · rw [hblock]
    exact Isa.Reaches.block pushregs (Isa.Reaches.head Isa.Reaches.refl)
  · rw [reg_setReg,reg_setReg_of_ne (by decide)]
  · rw [reg_setReg_of_ne (by decide)]
    exact hrsp
  · rw [reg_setReg]
    exact hregs.holds

/-- With the words that the processor saved on the stack, `iretq` goes back to where it was. -/
theorem exec_iretq (h : Holds c'.mem (c'.reg .rsp) (returnFrame c))
    (hregs : ∀ r, r ≠ .rsp → c'.reg r = c.reg r) :
    (isa fns flags).exec .iretq c' = { c with mem := c'.mem } := by
  have hword (i : ℕ) (hi : i < 5) : load c'.mem (c'.reg .rsp + BitVec.ofNat 64 (8 * i)) =
      (returnFrame c)[i] := h.getElem hi
  have hrip : load c'.mem (c'.reg .rsp) = c.rip := h.1
  have hcs : load c'.mem (c'.reg .rsp + 8#64) = c.cs.setWidth 64 := hword 1 (by decide)
  have hrflags : load c'.mem (c'.reg .rsp + 16#64) = c.rflags := hword 2 (by decide)
  have hrsp : load c'.mem (c'.reg .rsp + 24#64) = c.reg .rsp := hword 3 (by decide)
  have hss : load c'.mem (c'.reg .rsp + 32#64) = c.ss.setWidth 64 := hword 4 (by decide)
  have hselector (v : U16) : (v.setWidth 64).setWidth 16 = v := by
    rw [BitVec.setWidth_setWidth_of_le _ (by decide),BitVec.setWidth_eq]
  apply Core.ext
  · funext r
    change (c'.setReg .rsp (load c'.mem (c'.reg .rsp + 24#64))).reg r = c.reg r
    by_cases hr : r = .rsp
    · rw [hr,reg_setReg,hrsp]
    · rw [reg_setReg_of_ne hr,hregs r hr]
  · exact hrip
  · exact (congrArg (BitVec.setWidth 16) hcs).trans (hselector c.cs)
  · exact (congrArg (BitVec.setWidth 16) hss).trans (hselector c.ss)
  · exact hrflags
  · rfl

/-- The way back from the call. -/
theorem reaches_left {f : Fn} {rest : Lines} (hreturns : Returns (fns f) c')
    (h : Holds c'.mem (c'.reg .rsp) (interruptData c n code)) :
    (isa fns flags).Reaches text (leave.map .instr ++ .jump () .left :: rest,fns f c')
      ([],{ c with mem := (fns f c').mem }) := by
  have hlength : 8 * (interruptData c n code).length = 176 := rfl
  have hdata : Holds (fns f c').mem ((fns f c').reg .rsp) (interruptData c n code) := by
    rw [hreturns.rsp]
    apply h.congr (by rw [hlength]; decide)
    intro x hx
    exact hreturns.data x (by omega)
  obtain ⟨cq,hblock,hholds,hmem,hin,-⟩ := popRegs fns flags saved.reverse c.reg (by decide) (by decide)
    hdata
  apply Isa.Reaches.block leave
  have hleave : (isa fns flags).block leave (fns f c') =
      (isa fns flags).exec .iretq ((isa fns flags).exec (.add .rsp 16#64) cq) := by
    rw [← hblock]
    rfl
  -- the number and the code are skipped, and the processor's own words are left
  have hframe := hholds.2.2
  rw [add_assoc] at hframe
  have hregs (r : Gpr) (hr : r ≠ .rsp) : cq.reg r = c.reg r :=
    hin r (List.mem_reverse.mpr (mem_saved.mpr hr))
  have hfinal : (isa fns flags).exec .iretq ((isa fns flags).exec (.add .rsp 16#64) cq) =
      { c with mem := cq.mem } := by
    have hrsp : ((isa fns flags).exec (.add .rsp 16#64) cq).reg .rsp = cq.reg .rsp + 16#64 :=
      reg_setReg cq .rsp (cq.reg .rsp + 16#64)
    apply exec_iretq
    · rw [hrsp]
      exact hframe
    · intro r hr
      exact (reg_setReg_of_ne hr cq (cq.reg .rsp + 16#64)).trans (hregs r hr)
  rw [hleave,hfinal,hmem]
  exact Isa.Reaches.jump rfl Isa.Reaches.refl

end Handler

/-! The stubs and the gates. -/

/-- The stub of an interrupt. -/
def stub (vector : ℕ) : Label := if vector < 32 then .exception vector else .irq (vector - 32)

def callee (vector : ℕ) : Fn := if vector < 32 then .handleException else .handleInterrupt

/-- The vectors that have a gate. -/
def HasGate (vector : ℕ) : Prop := vector < 48 ∨ vector = 128

section Stub
variable {base code : U64} {c c' : Core} {v : ℕ}

/-- A stub pushes the code that the processor has not pushed, and the number. -/
theorem behind_stub (hv : HasGate v) : ∃ rest rest',
    Isa.behind (stub v) text = (if pushesCode v then [Instr.pushImm (BitVec.ofNat 64 v)]
      else [.pushImm 0#64,.pushImm (BitVec.ofNat 64 v)]).map .instr ++
        .jump () (if v < 32 then .exceptionHandler else .irqHandler) :: rest ∧
    Isa.behind (if v < 32 then .exceptionHandler else .irqHandler) text =
      handler (callee v) ++ rest' := by
  obtain hv | rfl := hv
  · interval_cases v <;> exact ⟨_,_,rfl,rfl⟩
  · exact ⟨_,_,rfl,rfl⟩

theorem reaches_handler (fns : Fn → Core → Core) (flags : U64 → U64 → U64) (hv : HasGate v)
    (h : Pushed base c (if pushesCode v then code :: returnFrame c else returnFrame c) c') :
    ∃ ch rest, (isa fns flags).Reaches text (Isa.behind (stub v) text,c')
        (handler (callee v) ++ rest,ch) ∧
      Pushed base c (BitVec.ofNat 64 v :: (if pushesCode v then code else 0#64) :: returnFrame c) ch := by
  obtain ⟨rest,rest',hstub,hhandler⟩ := behind_stub hv
  rw [hstub]
  by_cases hcode : pushesCode v = true
  · rw [if_pos hcode] at h ⊢
    rw [if_pos hcode]
    refine ⟨_,rest',Isa.Reaches.block _ (Isa.Reaches.jump rfl ?_),
      h.push (by simp [returnFrame]) (BitVec.ofNat 64 v)⟩
    rw [hhandler]
    exact Isa.Reaches.refl
  · rw [if_neg hcode] at h ⊢
    rw [if_neg hcode]
    refine ⟨_,rest',Isa.Reaches.block _ (Isa.Reaches.jump rfl ?_),
      (h.push (by simp [returnFrame]) 0#64).push (by simp [returnFrame]) (BitVec.ofNat 64 v)⟩
    rw [hhandler]
    exact Isa.Reaches.refl

end Stub

section Gates
variable {isr : U64} {flags : U8} {v : ℕ}

/-- An address cut into the three fields of an entry is put together again. -/
theorem append_isr (isr : U64) : (isr >>> 32 &&& 0xFFFFFFFF#64).setWidth 32 ++
    (isr >>> 16 &&& 0xFFFF#64).setWidth 16 ++ (isr &&& 0xFFFF#64).setWidth 16 = isr := by
  have hmask (x : U64) : (x &&& 0xFFFF#64).setWidth 16 = x.setWidth 16 := by
    have hones : (0xFFFF#64).setWidth 16 = BitVec.allOnes 16 := by decide
    rw [BitVec.setWidth_and,hones,BitVec.and_allOnes]
  have hmask' (x : U64) : (x &&& 0xFFFFFFFF#64).setWidth 32 = x.setWidth 32 := by
    have hones : (0xFFFFFFFF#64).setWidth 32 = BitVec.allOnes 32 := by decide
    rw [BitVec.setWidth_and,hones,BitVec.and_allOnes]
  rw [hmask,hmask,hmask']
  apply BitVec.eq_of_getLsbD_eq
  intro i hi
  simp only [BitVec.getLsbD_append,BitVec.getLsbD_setWidth,BitVec.getLsbD_ushiftRight]
  by_cases hlow : i < 16
  · simp [hlow]
  · by_cases hmid : i - 16 < 16
    · have hsum : 16 + (i - 16) = i := by omega
      simp [hlow,hmid,hsum]
    · have hsum : 32 + (i - 16 - 16) = i := by omega
      have hhigh : i - 16 - 16 < 32 := by omega
      simp [hlow,hmid,hsum,hhigh]

/-- The processor reads the gate that was written. -/
theorem readGate_set {m : U64 → U8} {idtr : U64} {e : IDTEntry}
    (h : Holds m (idtr + BitVec.ofNat 64 (16 * v)) (e.set isr flags).words) :
    readGate m idtr v = ⟨isr,0x08#16,0,flags⟩ := by
  obtain ⟨hlow,hhigh,-⟩ := h
  have hoffset := append_isr isr
  rw [readGate,hlow,hhigh]
  simp (disch := omega) only [IDTEntry.set,BitVec.extractLsb'_append_eq_of_le,
    BitVec.extractLsb'_append_eq_of_add_le,Nat.reduceSub,BitVec.extractLsb'_eq_self]
  rw [hoffset]

theorem idtSetEntry_apply (index : ℕ) (idt : ℕ → IDTEntry) (v : ℕ) :
    idtSetEntry index isr flags idt v = if v = index then (idt v).set isr flags else idt v := by
  rw [idtSetEntry,Function.update_apply]
  split
  · rename_i h
    rw [h]
  · rfl

/-- A loop that sets the entries from `first` on. -/
theorem foldl_idtSetEntry (flags : U8) (isr : ℕ → U64) (first n : ℕ) (idt : ℕ → IDTEntry) :
    (List.range n).foldl (fun idt i => idtSetEntry (first + i) (isr i) flags idt) idt v =
      if first ≤ v ∧ v < first + n then (idt v).set (isr (v - first)) flags else idt v := by
  induction n with
  | zero => rw [if_neg (by omega)]; rfl
  | succ n ih =>
    rw [List.range_succ,List.foldl_append,List.foldl_cons,List.foldl_nil,idtSetEntry_apply,ih]
    by_cases hv : v = first + n
    · rw [if_pos hv,if_neg (by omega),if_pos (by omega)]
      subst hv
      rw [Nat.add_sub_cancel_left]
    · rw [if_neg hv]
      by_cases hlt : first ≤ v ∧ v < first + n
      · rw [if_pos hlt,if_pos (by omega)]
      · rw [if_neg hlt,if_neg (by omega)]

/-- Every vector that has a gate has the gate to its stub. -/
theorem interruptInit_entry (address : Label → U64) (idt : ℕ → IDTEntry) (hv : HasGate v) :
    ∃ e, interruptInit address idt v =
    IDTEntry.set (address (stub v)) (if v = 128 then 0xEF#8 else 0x8E#8) e := by
  rw [interruptInit,idtSetEntry_apply]
  obtain hv | rfl := hv
  · rw [if_neg (by omega),if_neg (by omega),foldl_idtSetEntry _ fun i => address (.irq i)]
    by_cases hirq : 32 ≤ v
    · rw [if_pos ⟨hirq,by omega⟩,stub,if_neg (by omega)]
      exact ⟨_,rfl⟩
    · have hexc := foldl_idtSetEntry (v := v) 0x8E#8 (fun i => address (.exception i)) 0 32
      simp only [Nat.zero_add] at hexc
      rw [if_neg (by omega),hexc,if_pos (by omega),stub,if_pos (by omega)]
      exact ⟨_,rfl⟩
  · rw [if_pos rfl,if_pos rfl]
    exact ⟨_,rfl⟩

end Gates

theorem entryStack_aligned (tr : U64) (ist : BitVec 3) (c : Core) :
    (entryStack tr ist c).toNat % 16 = 0 := by
  rw [entryStack,and_not_mask (k := 4) (by decide),BitVec.toNat_shiftLeft,
    BitVec.toNat_ushiftRight,Nat.shiftLeft_eq]
  omega

/-- The processor pushes its frame and continues at the address in the gate. -/
theorem deliver_pushed {idtr a : U64} {selector : U16} {attributes : U8} {c : Core} {v : ℕ}
    (hgate : readGate c.mem idtr v = ⟨a,selector,0,attributes⟩)
    (hpresent : attributes.getLsbD 7 = true) (tr code : U64) :
    ∃ c₁, deliver idtr tr v code c = some c₁ ∧ c₁.rip = a ∧ Pushed (entryStack tr 0 c) c
      (if pushesCode v then code :: returnFrame c else returnFrame c) c₁ := by
  have hframe : 8 * (if pushesCode v then code :: returnFrame c else returnFrame c).length ≤ 2 ^ 64 := by
    split <;> simp [returnFrame]
  have hpushed := pushed_frame (entryStack tr 0 c) c hframe
  have hpresent : (readGate c.mem idtr v).Present := by
    rw [hgate]
    exact hpresent
  rw [deliver,if_pos hpresent,hgate]
  exact ⟨_,rfl,rfl,hpushed.rsp,hpushed.holds,hpushed.keeps,hpushed.regs⟩

/-- Whatever the processor was doing when an interrupt arrives, the function of the kernel is
called with the registers as they were, the number of the interrupt and its code, on a stack aligned
for the call; only the 176 bytes at the top of that stack have been written. When the
function returns, the processor is where it was, and only the memory may have changed. -/
theorem interrupt_transparent (fns : Fn → Core → Core) (flags : U64 → U64 → U64)
    (hreturns : ∀ f c, Returns (fns f) c) (address : Label → U64) (idt : ℕ → IDTEntry)
    (idtr tr : U64) (c : Core)
    (htable : Holds c.mem idtr (tableWords (interruptInit address idt)))
    (v : ℕ) (hv : HasGate v) (code : U64) :
    ∃ c₁ cc rest, deliver idtr tr v code c = some c₁ ∧ c₁.rip = address (stub v) ∧
      (isa fns flags).Reaches text (Isa.behind (stub v) text,c₁)
        (.instr (.call (callee v)) :: rest,cc) ∧
      Holds cc.mem (cc.reg .rdi)
        (interruptData c (BitVec.ofNat 64 v) (if pushesCode v then code else 0#64)) ∧
      (cc.reg .rsp).toNat % 16 = 0 ∧
      (∀ x, 176 ≤ (x - (entryStack tr 0 c - 176#64)).toNat → cc.mem x = c.mem x) ∧
      (isa fns flags).Reaches text (rest,fns (callee v) cc)
        ([],{ c with mem := (fns (callee v) cc).mem }) := by
  have hlt : v < 256 := by
    obtain hv | hv := hv <;> omega
  obtain ⟨e,he⟩ := interruptInit_entry address idt hv
  have hentry := htable.flatMap_range (k := 2) (fun i _ => rfl) hlt
  rw [he] at hentry
  have hpresent : (if v = 128 then 0xEF#8 else 0x8E#8).getLsbD 7 = true := by
    split <;> decide
  obtain ⟨c₁,hdeliver,hrip,hpushed⟩ := deliver_pushed (readGate_set hentry) hpresent tr code
  obtain ⟨ch,rest,hstub,hhandler⟩ := reaches_handler fns flags hv hpushed
  obtain ⟨cc,hcall,hrdi,hrsp,hdata,hkeeps⟩ := reaches_call fns flags (callee v) rest hhandler
  refine ⟨c₁,cc,_,hdeliver,hrip,hstub.trans hcall,hdata,?_,hkeeps,?_⟩
  · have haligned := entryStack_aligned tr 0 c
    rw [hrsp,BitVec.toNat_sub,BitVec.toNat_ofNat]
    omega
  · rw [hrdi] at hdata
    exact reaches_left (hreturns (callee v) cc) hdata

/-- A processor at rest, with the descriptor table at address zero and the stack at 2 MiB. -/
def idleCore : Core :=
  ⟨fun _ => 0x200000#64,0x1000#64,0x08#16,0x10#16,0x202#64,
    store (fun _ => 0#8) 0#64 ((tableWords (interruptInit (fun _ => 0x8000#64)
      fun _ => ⟨0,0,0,0,0,0,0,0⟩)).flatMap wordBytes)⟩

/-- The timer interrupts the processor at rest. -/
theorem idleCore_timer : HasGate 32 ∧
    ∃ c₁ cc rest, deliver 0#64 0#64 32 0#64 idleCore = some c₁ ∧ c₁.rip = 0x8000#64 ∧
      (isa (fun _ c => c) fun _ _ => 0#64).Reaches text (Isa.behind (stub 32) text,c₁)
        (.instr (.call (callee 32)) :: rest,cc) ∧
      Holds cc.mem (cc.reg .rdi)
        (interruptData idleCore (BitVec.ofNat 64 32) (if pushesCode 32 then 0#64 else 0#64)) ∧
      (cc.reg .rsp).toNat % 16 = 0 ∧
      (∀ x, 176 ≤ (x - (entryStack 0#64 0 idleCore - 176#64)).toNat → cc.mem x = idleCore.mem x) ∧
      (isa (fun _ c => c) fun _ _ => 0#64).Reaches text (rest,cc)
        ([],{ idleCore with mem := cc.mem }) := by
  have hlength : ((tableWords (interruptInit (fun _ => 0x8000#64)
      fun _ => ⟨0,0,0,0,0,0,0,0⟩)).flatMap wordBytes).length ≤ 2 ^ 64 := by
    rw [length_flatMap_wordBytes,tableWords,length_flatMap_range (k := 2) fun i _ => rfl]
    decide
  exact ⟨.inl (by decide),interrupt_transparent (fun _ c => c) (fun _ _ => 0#64)
    (fun _ _ => ⟨rfl,fun _ _ => rfl⟩) (fun _ => 0x8000#64) (fun _ => ⟨0,0,0,0,0,0,0,0⟩) 0#64 0#64
    idleCore (spells_store _ hlength).holds 32 (.inl (by decide)) 0#64⟩

end Lios.Entry

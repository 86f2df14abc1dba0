import Lios.Mem.VmallocNodes

/-! # One level of `vmalloc`

In a heap with any list of nodes, a call of `vmalloc` searches the nodes in their order.
If one has a row of free sections that is long enough, the call marks the row, which ends
only if the index of its last byte fits in 32 bits, and writes the header. Otherwise it adds
a node at the end of the list and calls itself.
-/
namespace Lios
namespace Vmalloc
variable {E : Type} {calls : VmmCalls E}

/-- Only bitmaps and bytes differ. -/
structure SameNodes (s t : Vmalloc E) : Prop where
  head : t.heapHead = s.heapHead
  tail : t.heapTail = s.heapTail
  env : t.env = s.env
  next : t.next = s.next
  bits : ∀ n, (t.node n).bitmapSize = (s.node n).bitmapSize
  total : ∀ n, (t.node n).totalSize = (s.node n).totalSize

section Same
variable {s t : Vmalloc E}

theorem SameNodes.dataStart (h : SameNodes s t) : t.dataStart = s.dataStart := by
  funext n
  rw [Vmalloc.dataStart,Vmalloc.dataStart,h.bits]

theorem SameNodes.pointer (h : SameNodes s t) : t.pointer = s.pointer := by
  funext b
  rw [Vmalloc.pointer,Vmalloc.pointer,h.dataStart]

theorem sameNodes_setMem (s : Vmalloc E) (n : U64) (mem : ℕ → U8) :
    SameNodes s (s.modifyNode n fun x => { x with mem := mem }) := by
  have hnode (m : U64) (f : HeapBitmapNode → U64)
      (hf : f { s.node n with mem := mem } = f (s.node n)) :
      f ((s.modifyNode n fun x => { x with mem := mem }).node m) = f (s.node m) := by
    simp only [modifyNode,Function.update_apply]
    split
    · rename_i hm
      rw [hf,hm]
    · rfl
  exact ⟨rfl,rfl,rfl,funext fun m => hnode m (·.next) rfl,fun m => hnode m (·.bitmapSize) rfl,
    fun m => hnode m (·.totalSize) rfl⟩

theorem sameNodes_setBytes (s : Vmalloc E) (bytes : U64 → U8) :
    SameNodes s { s with bytes := bytes } :=
  ⟨rfl,rfl,rfl,rfl,fun _ => rfl,fun _ => rfl⟩

theorem SameNodes.trans {u : Vmalloc E} (h : SameNodes s t) (h' : SameNodes t u) :
    SameNodes s u :=
  ⟨h'.head.trans h.head,h'.tail.trans h.tail,h'.env.trans h.env,h'.next.trans h.next,
    fun n => (h'.bits n).trans (h.bits n),fun n => (h'.total n).trans (h.total n)⟩

/-- The bits of a node with a new bitmap. -/
theorem mem_setMem (s : Vmalloc E) (n m : U64) (mem : ℕ → U8) :
    ((s.modifyNode n fun x => { x with mem := mem }).node m).mem =
      if m = n then mem else (s.node m).mem := by
  simp only [modifyNode,Function.update_apply]
  split <;> rfl

end Same

section Search
variable {s : Vmalloc E} {l : List U64} {needed : U64}

/-- The node has the answer `r` to a search for `needed` sections. -/
def Answers (s : Vmalloc E) (needed : U64) (n : U64) (r : Option ℕ) : Prop :=
  FirstFit (bitAt (s.node n).mem) (s.node n).bitmapSize.toNat needed.toNat r

/-- The answer of a search through the nodes of a list. -/
def Found (s : Vmalloc E) (needed : U64) (l : List U64) : Option (U64 × U64) → Prop
  | none => ∀ n ∈ l, s.Answers needed n none
  | some (n,b) => ∃ l₁ l₂, l = l₁ ++ n :: l₂ ∧ (∀ m ∈ l₁, s.Answers needed m none) ∧
      s.Answers needed n (some b.toNat)

theorem Found.cons {n : U64} {r : Option (U64 × U64)} (h : s.Found needed l r)
    (hn : s.Answers needed n none) : s.Found needed (n :: l) r := by
  cases r with
  | none =>
    intro m hm
    rcases List.mem_cons.mp hm with rfl | hm
    · exact hn
    · exact h m hm
  | some x =>
    obtain ⟨l₁,l₂,rfl,hbefore,hfit⟩ := h
    refine ⟨n :: l₁,l₂,rfl,fun m hm => ?_,hfit⟩
    rcases List.mem_cons.mp hm with rfl | hm
    · exact hn
    · exact hbefore m hm

/-- The search through the list ends with the first node that has room, unless the
fuel does not suffice for a node or for the list. -/
theorem search_eq {fuel rounds : ℕ} {cur : U64} (hl : Linked 0#64 s.next cur l)
    (hsize : ∀ n ∈ l, 64 ≤ (s.node n).bitmapSize.toNat) (hneeded : 0 < needed.toNat) :
    ((rounds ≤ l.length ∨ ∃ n ∈ l, fuel ≤ (s.node n).bitmapSize.toNat) ∧
      s.search needed fuel rounds cur = none) ∨
    ∃ r, s.search needed fuel rounds cur = some r ∧ s.Found needed l r := by
  induction l generalizing cur rounds with
  | nil =>
    obtain rfl := linked_nil.mp hl
    cases rounds with
    | zero => exact .inl ⟨.inl le_rfl,rfl⟩
    | succ rounds =>
      refine .inr ⟨none,by rw [search,if_pos rfl],fun n hn => ?_⟩
      simp at hn
  | cons n l ih =>
    obtain ⟨rfl,hn,hl⟩ := linked_cons.mp hl
    cases rounds with
    | zero => exact .inl ⟨.inl (Nat.zero_le _),rfl⟩
    | succ rounds =>
      rw [search,if_neg hn]
      obtain ⟨hfuel,hnone⟩ | ⟨b,hsome,hfirst⟩ :=
        searchNode_searched (s.node cur) fuel (hsize cur List.mem_cons_self) hneeded
      · rw [hnone]
        exact .inl ⟨.inr ⟨cur,List.mem_cons_self,hfuel⟩,rfl⟩
      rw [hsome]
      cases b with
      | some b => exact .inr ⟨_,rfl,[],l,rfl,by simp,hfirst⟩
      | none =>
        obtain ⟨hfuel,hnone⟩ | ⟨r,hsome,hfound⟩ := @ih rounds _ hl
          (fun m hm => hsize m (List.mem_cons_of_mem _ hm))
        · refine .inl ⟨?_,hnone⟩
          rcases hfuel with hfuel | ⟨m,hm,hfuel⟩
          · exact .inl (by simp only [List.length_cons]; omega)
          · exact .inr ⟨m,List.mem_cons_of_mem _ hm,hfuel⟩
        · exact .inr ⟨r,hsome,hfound.cons hfirst⟩

theorem Answers.unique {n : U64} {r r' : Option ℕ} (h : s.Answers needed n r)
    (h' : s.Answers needed n r') : r = r' := FirstFit.unique h h'

/-- The search of a list depends on the list only. -/
theorem Found.unique {r r' : Option (U64 × U64)} (h : s.Found needed l r)
    (h' : s.Found needed l r') : r = r' := by
  induction l with
  | nil =>
    have hnone {r : Option (U64 × U64)} (h : s.Found needed [] r) : r = none := by
      cases r with
      | none => rfl
      | some x =>
        obtain ⟨l₁,l₂,hl,-⟩ := h
        simp at hl
    rw [hnone h,hnone h']
  | cons n l ih =>
    have hcases {r : Option (U64 × U64)} (h : s.Found needed (n :: l) r) :
        (∃ b, r = some (n,b) ∧ s.Answers needed n (some b.toNat)) ∨
          (s.Answers needed n none ∧ s.Found needed l r) := by
      cases r with
      | none =>
        exact .inr ⟨h n List.mem_cons_self,fun m hm => h m (List.mem_cons_of_mem _ hm)⟩
      | some x =>
        obtain ⟨l₁,l₂,hl,hbefore,hfit⟩ := h
        cases l₁ with
        | nil =>
          obtain ⟨rfl,-⟩ := List.cons.inj hl
          exact .inl ⟨x.2,rfl,hfit⟩
        | cons m l₁ =>
          obtain ⟨rfl,rfl⟩ := List.cons.inj hl
          exact .inr ⟨hbefore n List.mem_cons_self,l₁,l₂,rfl,
            fun m hm => hbefore m (List.mem_cons_of_mem _ hm),hfit⟩
    obtain ⟨b,rfl,hb⟩ | ⟨hn,hrest⟩ := hcases h
    · obtain ⟨b',rfl,hb'⟩ | ⟨hn',-⟩ := hcases h'
      · rw [BitVec.eq_of_toNat_eq (Option.some.inj (hb.unique hb'))]
      · cases hb.unique hn'
    · obtain ⟨b',rfl,hb'⟩ | ⟨-,hrest'⟩ := hcases h'
      · cases hn.unique hb'
      · exact ih hrest hrest'

end Search

section AddBlock
variable {s t : Vmalloc E} {l : List U64} {w addr : U64} {e : E}

/-- The node that `add_block` writes at the start of its block. -/
def freshNode (w : U64) (x : HeapBitmapNode) : HeapBitmapNode :=
  { next := 0#64
    totalSize := w * 8#64 + ceilU64Div w 8#64
    bitmapSize := w
    mem := fun i => if i < (ceilU64Div w 8#64).toNat then 0#8 else x.mem i }

/-- The state after a block was taken and its node written, before it is linked. -/
def withNode (w addr : U64) (e : E) (s : Vmalloc E) : Vmalloc E :=
  { s with env := e }.modifyNode addr (freshNode w)

theorem addBlock_eq_done : addBlock calls w s = .done () t ↔
    ∃ addr e, calls.vmmAlloc (ceilU64Div (w * 8#64 + ceilU64Div w 8#64) pageSize) s.env =
      .done addr e ∧ addr ≠ 0#64 ∧
    ((s.heapHead = 0#64 ∧ s.heapTail = 0#64 ∧
        t = { withNode w addr e s with heapHead := addr, heapTail := addr }) ∨
      (¬ (s.heapHead = 0#64 ∧ s.heapTail = 0#64) ∧ s.heapTail ≠ 0#64 ∧
        t = { (withNode w addr e s).modifyNode s.heapTail fun x => { x with next := addr } with
          heapTail := addr })) := by
  rw [addBlock]
  simp only [Outcome.bind_eq_done,Lens.lift_eq_done]
  constructor
  · rintro ⟨addr,_,⟨e,halloc,rfl⟩,hdone⟩
    refine ⟨addr,e,halloc,?_⟩
    split at hdone
    · cases hdone
    rename_i hne
    refine ⟨hne,?_⟩
    split at hdone
    · rename_i hempty
      exact .inl ⟨hempty.1,hempty.2,(Outcome.done.inj hdone).2.symm⟩
    split at hdone
    · cases hdone
    · rename_i hlist htail
      exact .inr ⟨hlist,htail,(Outcome.done.inj hdone).2.symm⟩
  · rintro ⟨addr,e,halloc,hne,hcase⟩
    refine ⟨addr,_,⟨e,halloc,rfl⟩,?_⟩
    rw [if_neg hne]
    rcases hcase with ⟨hhead,htail,rfl⟩ | ⟨hlist,htail,rfl⟩
    · exact if_pos ⟨hhead,htail⟩
    · exact (if_neg hlist).trans (if_neg htail)

theorem bitAt_freshNode (x : HeapBitmapNode) {j : ℕ} (hj : j < w.toNat) :
    bitAt (freshNode w x).mem j = false := by
  have hbytes : j / 8 < (ceilU64Div w 8#64).toNat := by
    rw [toNat_ceilU64Div (by decide),show (8#64).toNat = 8 from rfl]
    omega
  simp only [bitAt,freshNode]
  rw [if_pos hbytes,BitVec.getLsbD_zero]

/-- The nodes of the list keep their sizes and bitmaps. -/
structure Kept (s t : Vmalloc E) (l : List U64) : Prop where
  bits : ∀ n ∈ l, (t.node n).bitmapSize = (s.node n).bitmapSize
  total : ∀ n ∈ l, (t.node n).totalSize = (s.node n).totalSize
  mem : ∀ n ∈ l, (t.node n).mem = (s.node n).mem

theorem Kept.pointer {b : HeapBlock} (h : Kept s t l) (hb : b.node ∈ l) :
    t.pointer b = s.pointer b := by
  rw [Vmalloc.pointer,Vmalloc.pointer,dataStart,dataStart,h.bits _ hb]

theorem Kept.answers {n needed : U64} {r : Option ℕ} (h : Kept s t l) (hn : n ∈ l) :
    t.Answers needed n r ↔ s.Answers needed n r := by
  rw [Answers,Answers,h.bits n hn,h.mem n hn]

/-- The linked state of a new node at the end of a list. -/
theorem node_linkNode (w addr tail : U64) (e : E) (s : Vmalloc E) (hne : addr ≠ tail) (n : U64) :
    ((withNode w addr e s).modifyNode tail fun x => { x with next := addr }).node n =
      if n = tail then { s.node tail with next := addr }
      else if n = addr then freshNode w (s.node addr) else s.node n := by
  simp only [withNode,modifyNode,Function.update_apply]
  split
  · rename_i hn
    rw [if_neg (Ne.symm hne)]
  · rfl

/-- A finite list of nodes whose bitmaps have at least one word. -/
structure HeapList (s : Vmalloc E) (l : List U64) : Prop where
  linked : Linked 0#64 s.next s.heapHead l
  tail : l.getLast?.getD 0#64 = s.heapTail
  large : ∀ n ∈ l, 64 ≤ (s.node n).bitmapSize.toNat

/-- The state after a node was added at the end of the list. -/
structure Grown (s : Vmalloc E) (l : List U64) (w addr : U64) (e : E) (t : Vmalloc E) : Prop where
  list : HeapList t (l ++ [addr])
  fresh : t.node addr = freshNode w (s.node addr)
  kept : Kept s t l
  bytes : t.bytes = s.bytes
  env : t.env = e

/-- Adding a node at an address that is not in the list. -/
theorem HeapList.addBlock (h : HeapList s l) (hw : 64 ≤ w.toNat)
    (halloc : calls.vmmAlloc (ceilU64Div (w * 8#64 + ceilU64Div w 8#64) pageSize) s.env =
      .done addr e) (hne : addr ≠ 0#64) (hnew : addr ∉ l) :
    ∃ t, Vmalloc.addBlock calls w s = .done () t ∧ Grown s l w addr e t := by
  have hcases : ∀ n ∈ l ++ [addr], n ∈ l ∨ n = addr := fun n hn => by simpa using hn
  rcases List.eq_nil_or_concat l with rfl | ⟨l₀,z,hl⟩
  · have hhead := linked_nil.mp h.linked
    have hself : (withNode w addr e s).node addr = freshNode w (s.node addr) := by
      simp [withNode,modifyNode]
    refine ⟨_,addBlock_eq_done.mpr ⟨addr,e,halloc,hne,.inl ⟨hhead,h.tail.symm,rfl⟩⟩,
      ⟨?_,rfl,fun n hn => ?_⟩,hself,⟨by simp,by simp,by simp⟩,rfl,rfl⟩
    · exact linked_cons.mpr ⟨rfl,hne,linked_nil.mpr (congrArg HeapBitmapNode.next hself)⟩
    · obtain rfl : n = addr := by simpa using hn
      simp only [hself]
      exact hw
  have hlast : l.getLast? = some s.heapTail := by
    rw [← h.tail,hl,List.concat_eq_append,List.getLast?_concat,Option.getD_some]
  have htail := List.mem_of_getLast? hlast
  have ht0 : s.heapTail ≠ 0#64 := fun h0 => h.linked.2 (h0 ▸ htail)
  have hat : addr ≠ s.heapTail := fun he => hnew (he ▸ htail)
  have hnode := node_linkNode w addr s.heapTail e s hat
  obtain ⟨t,ht⟩ : ∃ t, t = { (withNode w addr e s).modifyNode s.heapTail
    fun x => { x with next := addr } with heapTail := addr } := ⟨_,rfl⟩
  have hself : t.node addr = freshNode w (s.node addr) := by
    rw [ht,hnode,if_neg hat,if_pos rfl]
  have hkept : Kept s t l := by
    have hfield (α : Type) (f : HeapBitmapNode → α) (n : U64) (hn : n ∈ l)
        (hf : f { s.node s.heapTail with next := addr } = f (s.node s.heapTail)) :
        f (t.node n) = f (s.node n) := by
      rw [ht,hnode,if_neg (fun he : n = addr => hnew (he ▸ hn))]
      split
      · rename_i hn
        rw [hf,hn]
      · rfl
    exact ⟨fun n hn => hfield _ (·.bitmapSize) n hn rfl,fun n hn => hfield _ (·.totalSize) n hn rfl,
      fun n hn => hfield _ (·.mem) n hn rfl⟩
  have hnext : t.next = Function.update (Function.update s.next addr 0#64) s.heapTail addr := by
    funext n
    rw [next,ht,hnode,Function.update_apply,Function.update_apply]
    split
    · rfl
    split
    · rfl
    · rfl
  refine ⟨t,addBlock_eq_done.mpr ⟨addr,e,halloc,hne,.inr ⟨fun h0 => ht0 h0.2,ht0,ht⟩⟩,
    ⟨?_,?_,fun n hn => ?_⟩,hself,hkept,by rw [ht]; rfl,by rw [ht]; rfl⟩
  · rw [hnext,show t.heapHead = s.heapHead by rw [ht]; rfl]
    exact h.linked.snoc hlast hnew hne
  · rw [List.getLast?_concat,Option.getD_some,ht]
  · rcases hcases n hn with hn | rfl
    · rw [hkept.bits n hn]
      exact h.large n hn
    · rw [hself]
      exact hw

end AddBlock

section Level
variable {s t : Vmalloc E} {l : List U64} {m start needed : U64}

/-- The row of sections at `start` of the node `m` was marked and its header written. -/
structure Reserved (s : Vmalloc E) (m start needed : U64) (t : Vmalloc E) : Prop where
  same : SameNodes s t
  mem : ∀ j, bitAt (t.node m).mem j = marked start.toNat needed.toNat true (s.node m).mem j
  others : ∀ n, n ≠ m → (t.node n).mem = (s.node n).mem
  bytes : t.bytes = store s.bytes (s.dataStart m + start * 8#64) (wordBytes needed)

theorem Reserved.getBlockSize (h : Reserved s m start needed t) :
    t.getBlockSize (t.dataStart m + start * 8#64 + 8#64) = needed := by
  rw [Vmalloc.getBlockSize,BitVec.add_sub_cancel,h.bytes,h.same.dataStart,load_store (by decide)]

theorem Reserved.heapList (h : Reserved s m start needed t) (hl : HeapList s l) : HeapList t l where
  linked := by
    rw [h.same.next,h.same.head]
    exact hl.linked
  tail := by rw [h.same.tail,hl.tail]
  large n hn := by
    rw [h.same.bits]
    exact hl.large n hn

/-- What a call of `vmalloc` does before it calls itself. -/
inductive Level (calls : VmmCalls E) (s : Vmalloc E) (l : List U64) (size : U64) (fuel : ℕ) :
    Outcome (Vmalloc E) U64 → Prop
  | short (h : fuel ≤ l.length ∨ ∃ n ∈ l, fuel ≤ (s.node n).bitmapSize.toNat) :
      Level calls s l size fuel .spin
  | endless {m start : U64} (hfound : s.Found (ceilU64Div (size + 8#64) 8#64) l (some (m,start)))
      (hmark : ¬ Markable start.toNat (ceilU64Div (size + 8#64) 8#64).toNat) :
      Level calls s l size fuel .spin
  | found {m start : U64} {t : Vmalloc E}
      (hfound : s.Found (ceilU64Div (size + 8#64) 8#64) l (some (m,start)))
      (hmark : Markable start.toNat (ceilU64Div (size + 8#64) 8#64).toNat)
      (ht : Reserved s m start (ceilU64Div (size + 8#64) 8#64) t) :
      Level calls s l size fuel (.done (t.dataStart m + start * 8#64 + 8#64) t)
  | grows (hfound : s.Found (ceilU64Div (size + 8#64) 8#64) l none) :
      Level calls s l size fuel
        ((Vmalloc.addBlock calls (ceilU64Div (size + 8#64) 4032#64 * 504#64) s).bind fun _ s =>
          vmalloc calls fuel (size + 8#64) s)

theorem Found.mem (h : s.Found needed l (some (m,start))) : m ∈ l := by
  obtain ⟨l₁,l₂,rfl,-⟩ := h
  exact List.mem_append_right _ List.mem_cons_self

theorem Found.fits (h : s.Found needed l (some (m,start))) :
    FitsAt (bitAt (s.node m).mem) (s.node m).bitmapSize.toNat needed.toNat start.toNat := by
  obtain ⟨-,-,-,-,hfit,-⟩ := h
  exact hfit

theorem HeapList.level (h : HeapList s l) (fuel : ℕ) {size : U64}
    (hpos : 0 < (ceilU64Div (size + 8#64) 8#64).toNat) :
    Level calls s l size fuel (vmalloc calls (fuel + 1) size s) := by
  rw [vmalloc]
  dsimp only
  obtain ⟨hfuel,hnone⟩ | ⟨r,hsome,hfound⟩ :=
    @search_eq _ _ _ _ fuel fuel _ h.linked h.large hpos
  · rw [hnone]
    exact .short hfuel
  rw [hsome]
  cases r with
  | none => exact .grows hfound
  | some x =>
    obtain ⟨m,start⟩ := x
    dsimp only
    have hend := hfound.fits.1
    have hbits := (s.node m).bitmapSize.isLt
    obtain ⟨hfuel,hnone⟩ | ⟨hmark,mem,hsome,hmem⟩ := @markBitmap_eq (s.node m).mem true start
      (ceilU64Div (size + 8#64) 8#64) fuel hpos (by omega)
    · rw [markNode,hnone]
      rcases hfuel with hfuel | hmark
      · exact .short (.inr ⟨m,hfound.mem,by omega⟩)
      · exact .endless hfound hmark
    · have hset := sameNodes_setMem s m mem
      obtain ⟨u,hu⟩ : ∃ u, u = s.modifyNode m fun x => { x with mem := mem } := ⟨_,rfl⟩
      have ht : Reserved s m start (ceilU64Div (size + 8#64) 8#64) { u with
          bytes := store u.bytes (u.dataStart m + start * 8#64)
            (wordBytes (ceilU64Div (size + 8#64) 8#64)) } := by
        rw [hu]
        refine ⟨hset.trans (sameNodes_setBytes _ _),fun j => ?_,fun n hn => ?_,?_⟩
        · rw [← hmem,mem_setMem,if_pos rfl]
        · rw [mem_setMem,if_neg hn]
        · rw [hset.dataStart]
          rfl
      rw [markNode,hsome]
      dsimp only [Outcome.bind_done]
      rw [← hu]
      exact .found hfound hmark ht

end Level

end Vmalloc

end Lios

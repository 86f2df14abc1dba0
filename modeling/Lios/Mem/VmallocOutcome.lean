import Lios.Mem.VmallocGrow

/-! # Outcomes of `vmalloc`

What a call for `n` bytes does in a heap with any list of nodes, without a bound on their
sizes. If no node has room the call adds one, or two if `n + 8` is a multiple of 4032, and
takes up to two sections more than it would have taken otherwise. It does not return if the
last of its sections has an index in the bitmap that does not fit in 32 bits, and for sizes
close to `2 ^ 64` it takes a block that is too small.
-/
namespace Lios

/-- A virtual address allocator that returns blocks that are not nodes of the heap, out of a
range of `2 ^ 32` pages. -/
structure NodeSupply {E : Type} (calls : VmmCalls E) where
  Held : E → List U64 → Prop
  vmmAlloc : ∀ {e l pages a e'}, Held e l → 1 ≤ pages.toNat →
    calls.vmmAlloc pages e = .done a e' →
    a ≠ 0#64 ∧ a ∉ l ∧ pages.toNat ≤ 2 ^ 32 ∧ Held e' (l ++ [a])

/-- The pages of a new node are apart from those of all nodes before it. -/
theorem Vmm.Ranges.nodes_vmmAlloc {F : Type} {calls : PageCalls F} {src : PageSupply calls}
    {fuel : ℕ} {e e' : Vmm F} {l : List U64} {pages a : U64}
    (h : ∃ out, Vmm.Ranges src e out ∧ ∀ n ∈ l, ∃ pages, (n,pages) ∈ out)
    (hpos : 1 ≤ pages.toNat) (hfew : pages.toNat < 2 ^ 52)
    (hdone : Vmm.vmmAlloc calls fuel pages e = .done a e') :
    a ≠ 0#64 ∧ a ∉ l ∧ pages.toNat ≤ 2 ^ 32 ∧
      ∃ out, Vmm.Ranges src e' out ∧ ∀ n ∈ l ++ [a], ∃ pages, (n,pages) ∈ out := by
  obtain ⟨out,hranges,hl⟩ := h
  have hranges' := hranges.vmmAlloc hpos (by omega) hdone
  obtain ⟨hlo,hhi,-,-⟩ := hranges'.bounds (Multiset.mem_cons_self _ _)
  simp only at hlo hhi
  refine ⟨hranges'.ne_zero (Multiset.mem_cons_self _ _),fun hmem => ?_,by omega,_,hranges',
    fun n hn => ?_⟩
  · obtain ⟨pages',hout⟩ := hl a hmem
    have hap := hranges'.outBlock_apart (Multiset.mem_cons_self _ _) (by
      rw [Multiset.erase_cons_head]
      exact hout)
    obtain ⟨-,-,-,hpos'⟩ := hranges'.bounds (Multiset.mem_cons_of_mem hout)
    simp only [Block.Apart,Vmm.outBlock] at hap
    simp only at hpos'
    omega
  · rcases List.mem_append.mp hn with hn | hn
    · obtain ⟨pages',hout⟩ := hl n hn
      exact ⟨pages',Multiset.mem_cons_of_mem hout⟩
    · obtain rfl := List.mem_singleton.mp hn
      exact ⟨pages,Multiset.mem_cons_self _ _⟩

/-- The allocator of the kernel, on a machine without the frames for `2 ^ 52` pages. -/
def kernelNodes {F : Type} {calls : PageCalls F} (src : PageSupply calls) (fuel : ℕ)
    (hframes : ∀ {e pages a e'}, 2 ^ 52 ≤ pages.toNat →
      Vmm.vmmAlloc calls fuel pages e ≠ .done a e') :
    NodeSupply (kernelVmmCalls calls fuel) where
  Held e l := ∃ out, Vmm.Ranges src e out ∧ ∀ n ∈ l, ∃ pages, (n,pages) ∈ out
  vmmAlloc h hpos hdone := Vmm.Ranges.nodes_vmmAlloc h hpos
    (not_le.mp fun hge => hframes hge hdone) hdone

namespace Vmalloc
variable {E : Type} {calls : VmmCalls E} {sup : NodeSupply calls} {s t : Vmalloc E}
  {l : List U64} {n p : U64}

/-- The nodes that a call for `n` bytes asks for when there is no room, as multiples of 504
sections. -/
def requests (n : ℕ) : List ℕ :=
  let k := (n + 8 + 4031) / 4032
  if sectionsFor (n + 8) ≤ 504 * k then [k] else [k,k + 1]

/-- The allocator has pages for these nodes. -/
def Grants (calls : VmmCalls E) : List ℕ → E → Prop
  | [],_ => True
  | k :: ks,e => ∃ a e', calls.vmmAlloc (BitVec.ofNat 64 (pagesFor k)) e = .done a e' ∧
      Grants calls ks e'

/-- The allocator has pages for these nodes, or stops with a message at the first for which it
has none. -/
def Serves (calls : VmmCalls E) : List ℕ → E → Prop
  | [],_ => True
  | k :: ks,e =>
    (∃ msg e', calls.vmmAlloc (BitVec.ofNat 64 (pagesFor k)) e = .panic msg e') ∨
      ∃ a e', calls.vmmAlloc (BitVec.ofNat 64 (pagesFor k)) e = .done a e' ∧ Serves calls ks e'

theorem Grants.serves {ks : List ℕ} {e : E} (h : Grants calls ks e) : Serves calls ks e := by
  induction ks generalizing e with
  | nil => trivial
  | cons k ks ih =>
    obtain ⟨a,e',halloc,hrest⟩ := h
    exact .inr ⟨a,e',halloc,ih hrest⟩

/-- The index of the last section that a call marks fits in 32 bits, divided by eight: the end of
the row that the search finds, or of the row at the beginning of a new node. -/
def Placeable (s : Vmalloc E) (l : List U64) (n : U64) : Prop :=
  (∀ m start, s.Found (ceilU64Div (n + 8#64) 8#64) l (some (m,start)) →
    Markable start.toNat (sectionsFor n.toNat)) ∧
  (s.Found (ceilU64Div (n + 8#64) 8#64) l none → (retryFor n.toNat).2 ≤ 2 ^ 35)

section Pages
variable {w : U64} {k : ℕ}

theorem toNat_blockTotal (hw : w.toNat = 504 * k) :
    (w * 8#64 + ceilU64Div w 8#64).toNat = 4095 * k % 2 ^ 64 := by
  have hbytes : (ceilU64Div w 8#64).toNat = 63 * k := by
    rw [toNat_ceilU64Div (by decide),hw,show (8#64).toNat = 8 from rfl]
    omega
  rw [BitVec.toNat_add,BitVec.toNat_mul,hw,hbytes,show (8#64).toNat = 8 from rfl]
  omega

theorem toNat_blockPages (hw : w.toNat = 504 * k) :
    (ceilU64Div (w * 8#64 + ceilU64Div w 8#64) pageSize).toNat =
      (4095 * k % 2 ^ 64 + 4095) / 4096 := by
  rw [toNat_ceilU64Div (by decide),toNat_blockTotal hw]
  rfl

theorem blockPages_eq (hw : w.toNat = 504 * k) (hk : 4095 * k < 2 ^ 64) :
    ceilU64Div (w * 8#64 + ceilU64Div w 8#64) pageSize = BitVec.ofNat 64 (pagesFor k) := by
  refine BitVec.eq_of_toNat_eq ?_
  rw [toNat_blockPages hw,BitVec.toNat_ofNat,pagesFor,Nat.mod_eq_of_lt hk,
    Nat.mod_eq_of_lt (by omega)]

/-- No node has a total size of zero, although the size can wrap around. -/
theorem blockPages_pos (hw : w.toNat = 504 * k) (hk : 1 ≤ k) :
    1 ≤ (ceilU64Div (w * 8#64 + ceilU64Div w 8#64) pageSize).toNat := by
  have hmod : 4095 * k % 2 ^ 64 ≠ 0 := by
    intro h0
    have hdvd : 2 ^ 64 ∣ k :=
      (by decide : Nat.Coprime (2 ^ 64) 4095).dvd_of_dvd_mul_left (Nat.dvd_of_mod_eq_zero h0)
    have hle := Nat.le_of_dvd (by omega) hdvd
    have hlt := w.isLt
    omega
  rw [toNat_blockPages hw]
  omega

end Pages

/-- The last node is free, and the other nodes have no row of `needed` sections. -/
structure Fresh (s : Vmalloc E) (l : List U64) (a needed : U64) (k : ℕ) : Prop where
  list : HeapList s (l ++ [a])
  size : (s.node a).bitmapSize.toNat = 504 * k
  free : ∀ j < 504 * k, bitAt (s.node a).mem j = false
  old : ∀ m ∈ l, s.Answers needed m none

theorem Grown.toFresh {w a needed : U64} {e : E} {k : ℕ} (h : Grown s l w a e t)
    (hw : w.toNat = 504 * k) (hnone : s.Found needed l none) : Fresh t l a needed k where
  list := h.list
  size := by
    rw [h.fresh]
    exact hw
  free j hj := by
    rw [h.fresh]
    exact bitAt_freshNode _ (by omega)
  old m hm := (h.kept.answers hm).mpr (hnone m hm)

/-- The search finds the beginning of the last node, if that is large enough. -/
theorem Fresh.found {a needed needed' : U64} {k : ℕ} {r : Option (U64 × U64)}
    (h : Fresh s l a needed k) (hr : s.Found needed' (l ++ [a]) r)
    (hle : needed.toNat ≤ needed'.toNat) :
    (needed'.toNat ≤ 504 * k ∧ r = some (a,0#64)) ∨ (504 * k < needed'.toNat ∧ r = none) := by
  have hcases := hr.of_fresh h.old hle (by rw [h.size]; exact h.free)
  rwa [h.size] at hcases

theorem sectionsNeeded_pos (hn : n.toNat + 8 < 2 ^ 64) :
    0 < (ceilU64Div (n + 8#64) 8#64).toNat := by
  rw [toNat_sectionsNeeded hn,sectionsFor]
  omega

/-- A call that adds a node: the pages fit in the range of the allocator, and the rest is the
next call in a heap with a free node. -/
theorem HeapList.vmalloc_grows {fuel : ℕ} (h : HeapList s l) (hheld : sup.Held s.env l)
    (hn : n.toNat + 8 < 2 ^ 64) (hnone : s.Found (ceilU64Div (n + 8#64) 8#64) l none)
    (hdone : ((Vmalloc.addBlock calls (ceilU64Div (n + 8#64) 4032#64 * 504#64) s).bind fun _ s =>
      vmalloc calls fuel (n + 8#64) s) = .done p t) :
    ∃ u a, Fresh u l a (ceilU64Div (n + 8#64) 8#64) ((n.toNat + 8 + 4031) / 4032) ∧
      sup.Held u.env (l ++ [a]) ∧
      (4095 * ((n.toNat + 8 + 4031) / 4032) % 2 ^ 64 + 4095) / 4096 ≤ 2 ^ 32 ∧
      vmalloc calls fuel (n + 8#64) u = .done p t := by
  obtain ⟨_,u,hadd,hdone⟩ := Outcome.bind_eq_done.mp hdone
  obtain ⟨a,e,halloc,hne,-⟩ := addBlock_eq_done.mp hadd
  have hw := toNat_wantedSections hn
  obtain ⟨-,hnew,hrange,hheld'⟩ := sup.vmmAlloc hheld (blockPages_pos hw (by omega)) halloc
  obtain ⟨_,hadd',hgrown⟩ := h.addBlock (by omega) halloc hne hnew
  rw [hadd] at hadd'
  obtain ⟨-,rfl⟩ := Outcome.done.inj hadd'
  rw [toNat_blockPages hw] at hrange
  exact ⟨u,a,hgrown.toFresh hw hnone,by rw [hgrown.env]; exact hheld',hrange,hdone⟩

/-- A call that returns has found a row, or it has added a node. -/
theorem HeapList.vmalloc_cases {fuel : ℕ} (h : HeapList s l) (hheld : sup.Held s.env l)
    (hn : n.toNat + 8 < 2 ^ 64) (hdone : vmalloc calls fuel n s = .done p t) :
    (∃ m start, s.Found (ceilU64Div (n + 8#64) 8#64) l (some (m,start)) ∧
      Markable start.toNat (sectionsFor n.toNat) ∧
      p = t.dataStart m + start * 8#64 + 8#64 ∧
      Reserved s m start (ceilU64Div (n + 8#64) 8#64) t) ∨
    (s.Found (ceilU64Div (n + 8#64) 8#64) l none ∧ ∃ u a fuel',
      Fresh u l a (ceilU64Div (n + 8#64) 8#64) ((n.toNat + 8 + 4031) / 4032) ∧
      sup.Held u.env (l ++ [a]) ∧
      (4095 * ((n.toNat + 8 + 4031) / 4032) % 2 ^ 64 + 4095) / 4096 ≤ 2 ^ 32 ∧
      vmalloc calls fuel' (n + 8#64) u = .done p t) := by
  cases fuel with
  | zero => cases hdone
  | succ fuel =>
    have hlevel := @HeapList.level _ calls _ _ h fuel _ (sectionsNeeded_pos hn)
    rw [hdone] at hlevel
    obtain ⟨o,ho⟩ : ∃ o, o = Outcome.done p t := ⟨_,rfl⟩
    rw [← ho] at hlevel
    cases hlevel with
    | short hfuel => cases ho
    | endless hfound hmark => cases ho
    | @found m start t hfound hmark ht =>
      obtain ⟨rfl,rfl⟩ := Outcome.done.inj ho
      rw [toNat_sectionsNeeded hn] at hmark
      exact .inl ⟨m,start,hfound,hmark,rfl,ht⟩
    | grows hnone =>
      obtain ⟨u,a,hfresh,hheld',hrange,hdone'⟩ := h.vmalloc_grows hheld hn hnone ho
      exact .inr ⟨hnone,u,a,fuel,hfresh,hheld',hrange,hdone'⟩

/-- A call in a heap with a free node: the block is at the beginning of that node, or the node
is too small and one more is added. -/
theorem Fresh.vmalloc_cases {a needed : U64} {k fuel : ℕ} (h : Fresh s l a needed k)
    (hheld : sup.Held s.env (l ++ [a])) (hn : n.toNat + 8 < 2 ^ 64)
    (hle : needed.toNat ≤ sectionsFor n.toNat) (hdone : vmalloc calls fuel n s = .done p t) :
    (sectionsFor n.toNat ≤ 504 * k ∧ sectionsFor n.toNat ≤ 2 ^ 35 ∧
      (t.getBlockSize p).toNat = sectionsFor n.toNat ∧ HeapList t (l ++ [a])) ∨
    (504 * k < sectionsFor n.toNat ∧ ∃ u a' fuel',
      Fresh u (l ++ [a]) a' (ceilU64Div (n + 8#64) 8#64) ((n.toNat + 8 + 4031) / 4032) ∧
      sup.Held u.env (l ++ [a] ++ [a']) ∧ vmalloc calls fuel' (n + 8#64) u = .done p t) := by
  have hneeded := toNat_sectionsNeeded hn
  obtain ⟨m,start,hfound,hmark,rfl,ht⟩ | ⟨hnone,u,a',fuel',hfresh,hheld',-,hdone'⟩ :=
    h.list.vmalloc_cases hheld hn hdone
  · rcases h.found hfound (by rw [hneeded]; exact hle) with ⟨hroom,hr⟩ | ⟨-,hr⟩
    · obtain ⟨rfl,rfl⟩ := Prod.mk.inj (Option.some.inj hr)
      rw [hneeded] at hroom
      refine .inl ⟨hroom,?_,by rw [ht.getBlockSize,hneeded],ht.heapList h.list⟩
      rw [Markable,BitVec.toNat_zero] at hmark
      omega
    · cases hr
  · rcases h.found hnone (by rw [hneeded]; exact hle) with ⟨-,hr⟩ | ⟨hfull,-⟩
    · cases hr
    · rw [hneeded] at hfull
      exact .inr ⟨hfull,u,a',fuel',hfresh,hheld',hdone'⟩

/-- A call that returns has marked the row that the search finds, or it has added one or two nodes
and marked the beginning of the last one. -/
theorem HeapList.vmalloc_done {fuel : ℕ} (h : HeapList s l) (hheld : sup.Held s.env l)
    (hn : n.toNat + 24 < 2 ^ 64) (hdone : vmalloc calls fuel n s = .done p t) :
    (∃ m start, s.Found (ceilU64Div (n + 8#64) 8#64) l (some (m,start)) ∧
      Markable start.toNat (sectionsFor n.toNat) ∧
      p = t.dataStart m + start * 8#64 + 8#64 ∧
      Reserved s m start (ceilU64Div (n + 8#64) 8#64) t) ∨
    (s.Found (ceilU64Div (n + 8#64) 8#64) l none ∧ (retryFor n.toNat).2 ≤ 2 ^ 35 ∧
      (t.getBlockSize p).toNat = (retryFor n.toNat).2 ∧
      ∃ new, HeapList t (l ++ new) ∧ new.length ≤ 2) := by
  obtain hfound | ⟨hnone,u,a,fuel',hfresh,hheld',-,hdone'⟩ :=
    h.vmalloc_cases hheld (by omega) hdone
  · exact .inl hfound
  refine .inr ⟨hnone,?_⟩
  have hn8 : (n + 8#64).toNat = n.toNat + 8 := toNat_add_eight (by omega)
  have hn16 : (n + 8#64 + 8#64).toNat = n.toNat + 16 := by rw [toNat_add_eight (by omega),hn8]
  obtain ⟨hroom,hsmall,hsize,hlist⟩ | ⟨hfull,u',a',fuel₂,hfresh',hheld₂,hdone₂⟩ :=
    hfresh.vmalloc_cases hheld' (by omega) (sectionsNeeded_le_next (by omega)) hdone'
  · rw [hn8] at hroom hsmall hsize
    rw [retryFor_of_le hroom]
    exact ⟨hsmall,hsize,[a],hlist,by simp⟩
  · rw [hn8] at hfull hfresh'
    rw [next_request hfull] at hfresh'
    rw [retryFor_of_lt hfull]
    obtain ⟨-,hsmall,hsize,hlist⟩ | ⟨hfull',-⟩ :=
      hfresh'.vmalloc_cases hheld₂ (by omega) (sectionsNeeded_le_next (by omega)) hdone₂
    · rw [hn16] at hsmall hsize
      exact ⟨hsmall,hsize,[a,a'],by simpa using hlist,by simp⟩
    · rw [hn16,sectionsFor] at hfull'
      omega

section Total

/-- The allocator has no pages for the new node and stops, or it has and the call goes on. -/
theorem HeapList.vmalloc_serves {fuel : ℕ} {ks : List ℕ} (h : HeapList s l)
    (hheld : sup.Held s.env l) (hn : n.toNat + 8 < 2 ^ 64)
    (hk : 4095 * ((n.toNat + 8 + 4031) / 4032) < 2 ^ 64)
    (hnone : s.Found (ceilU64Div (n + 8#64) 8#64) l none)
    (hserves : Serves calls ((n.toNat + 8 + 4031) / 4032 :: ks) s.env) :
    (¬ Grants calls ((n.toNat + 8 + 4031) / 4032 :: ks) s.env ∧ ∃ msg t,
      ((Vmalloc.addBlock calls (ceilU64Div (n + 8#64) 4032#64 * 504#64) s).bind fun _ s =>
        vmalloc calls fuel (n + 8#64) s) = .panic msg t) ∨
    ∃ u a, Fresh u l a (ceilU64Div (n + 8#64) 8#64) ((n.toNat + 8 + 4031) / 4032) ∧
      sup.Held u.env (l ++ [a]) ∧ Serves calls ks u.env ∧
      (Grants calls ((n.toNat + 8 + 4031) / 4032 :: ks) s.env → Grants calls ks u.env) ∧
      ((Vmalloc.addBlock calls (ceilU64Div (n + 8#64) 4032#64 * 504#64) s).bind fun _ s =>
        vmalloc calls fuel (n + 8#64) s) = vmalloc calls fuel (n + 8#64) u := by
  have hw := toNat_wantedSections hn
  have hpages := blockPages_eq hw hk
  have hpos := blockPages_pos hw (by omega)
  rw [hpages] at hpos
  obtain ⟨msg,e,hpanic⟩ | ⟨a,e,halloc,hrest⟩ := hserves
  · refine .inl ⟨?_,msg,{ s with env := e },?_⟩
    · rintro ⟨a,e',halloc,-⟩
      rw [hpanic] at halloc
      cases halloc
    · rw [Vmalloc.addBlock]
      dsimp only
      rw [hpages,Lens.lift,show (envLens E).get s = s.env from rfl,hpanic]
      rfl
  · obtain ⟨hne,hnew,-,hheld'⟩ := sup.vmmAlloc hheld hpos halloc
    obtain ⟨u,hadd,hgrown⟩ := h.addBlock (by omega) (hpages ▸ halloc) hne hnew
    have henv := hgrown.env
    refine .inr ⟨u,a,hgrown.toFresh hw hnone,by rw [henv]; exact hheld',by rw [henv]; exact hrest,
      ?_,by rw [hadd,Outcome.bind_done]⟩
    rintro ⟨_,_,halloc',hgrants⟩
    rw [halloc] at halloc'
    obtain ⟨rfl,rfl⟩ := Outcome.done.inj halloc'
    rw [henv]
    exact hgrants

theorem HeapList.not_short {fuel : ℕ} (hfuel : l.length + 2 ^ 64 < fuel) :
    ¬ (fuel ≤ l.length ∨ ∃ m ∈ l, fuel ≤ (s.node m).bitmapSize.toNat) := by
  rintro (hlen | ⟨m,-,hle⟩)
  · omega
  · have hlt := (s.node m).bitmapSize.isLt
    omega

/-- With enough fuel, a call in a heap with a free node returns or adds one more. -/
theorem Fresh.vmalloc_total {a needed : U64} {k fuel : ℕ} (h : Fresh s l a needed k)
    (hn : n.toNat + 8 < 2 ^ 64) (hle : needed.toNat ≤ sectionsFor n.toNat)
    (hfuel : l.length + 1 + 2 ^ 64 < fuel) :
    (sectionsFor n.toNat ≤ 504 * k ∧ (sectionsFor n.toNat ≤ 2 ^ 35 →
      ∃ p t, vmalloc calls (fuel + 1) n s = .done p t)) ∨
    (504 * k < sectionsFor n.toNat ∧
      s.Found (ceilU64Div (n + 8#64) 8#64) (l ++ [a]) none ∧ vmalloc calls (fuel + 1) n s =
        (Vmalloc.addBlock calls (ceilU64Div (n + 8#64) 4032#64 * 504#64) s).bind fun _ s =>
          vmalloc calls fuel (n + 8#64) s) := by
  have hneeded := toNat_sectionsNeeded hn
  have hfresh {r : Option (U64 × U64)} (hr : s.Found _ (l ++ [a]) r) :=
    h.found hr (by rw [hneeded]; exact hle)
  rw [hneeded] at hfresh
  have hlevel := @HeapList.level _ calls _ _ h.list fuel _ (sectionsNeeded_pos hn)
  obtain ⟨o,ho⟩ : ∃ o, o = vmalloc calls (fuel + 1) n s := ⟨_,rfl⟩
  rw [← ho] at hlevel ⊢
  cases hlevel with
  | short hshort =>
    refine absurd hshort (HeapList.not_short ?_)
    rw [List.length_append,List.length_singleton]
    omega
  | endless hfound hmark =>
    obtain ⟨hroom,hr⟩ | ⟨-,hr⟩ := hfresh hfound
    · obtain ⟨rfl,rfl⟩ := Prod.mk.inj (Option.some.inj hr)
      rw [hneeded,Markable,BitVec.toNat_zero] at hmark
      exact .inl ⟨hroom,fun hsmall => absurd hsmall (by omega)⟩
    · cases hr
  | found hfound hmark ht =>
    obtain ⟨hroom,-⟩ | ⟨-,hr⟩ := hfresh hfound
    · exact .inl ⟨hroom,fun _ => ⟨_,_,rfl⟩⟩
    · cases hr
  | grows hnone =>
    obtain ⟨-,hr⟩ | ⟨hfull,-⟩ := hfresh hnone
    · cases hr
    · exact .inr ⟨hfull,hnone,rfl⟩

/-- With enough fuel a call whose sections have small indices returns, unless the allocator has no
pages for a node that it adds. -/
theorem HeapList.vmalloc_total {fuel : ℕ} (h : HeapList s l) (hheld : sup.Held s.env l)
    (hn : n.toNat + 8 < 2 ^ 64)
    (hserves : s.Found (ceilU64Div (n + 8#64) 8#64) l none →
      Serves calls (requests n.toNat) s.env)
    (hp : Placeable s l n) (hfuel : l.length + 2 ^ 64 + 6 ≤ fuel) :
    (∃ p t, vmalloc calls fuel n s = .done p t) ∨
    (s.Found (ceilU64Div (n + 8#64) 8#64) l none ∧ ¬ Grants calls (requests n.toNat) s.env ∧
      ∃ msg t, vmalloc calls fuel n s = .panic msg t) := by
  obtain ⟨fuel,rfl⟩ : ∃ f, fuel = f + 1 + 1 + 1 := ⟨fuel - 3,by omega⟩
  have hn8 : (n + 8#64).toNat = n.toNat + 8 := toNat_add_eight hn
  have hlevel := @HeapList.level _ calls _ _ h (fuel + 1 + 1) n (sectionsNeeded_pos hn)
  obtain ⟨o,ho⟩ : ∃ o, o = vmalloc calls (fuel + 1 + 1 + 1) n s := ⟨_,rfl⟩
  rw [← ho] at hlevel ⊢
  cases hlevel with
  | short hshort => exact absurd hshort (HeapList.not_short (by omega))
  | @endless m start hfound hmark =>
    rw [toNat_sectionsNeeded hn] at hmark
    exact absurd (hp.1 m start hfound) hmark
  | found hfound hmark ht => exact .inl ⟨_,_,rfl⟩
  | grows hnone =>
    have hsmall := hp.2 hnone
    have hserves := hserves hnone
    -- so few sections that no size wraps around
    have hfew := (sectionsFor_le_retryFor n.toNat).trans hsmall
    rw [sectionsFor] at hfew
    have hn16 : (n + 8#64 + 8#64).toNat = n.toNat + 16 := by rw [toNat_add_eight (by omega),hn8]
    have hle := sectionsNeeded_le_next (n := n) (by omega)
    by_cases hroom : sectionsFor (n.toNat + 8) ≤ 504 * ((n.toNat + 8 + 4031) / 4032)
    · rw [requests,if_pos hroom] at hserves ⊢
      rw [retryFor_of_le hroom] at hsmall
      obtain ⟨hgrants,hpanic⟩ | ⟨u,a,hfresh,-,-,-,heq⟩ :=
        @HeapList.vmalloc_serves _ _ sup _ _ _ (fuel + 1 + 1) _ h hheld hn (by omega) hnone hserves
      · exact .inr ⟨hnone,hgrants,hpanic⟩
      · rw [heq]
        obtain ⟨-,hdone⟩ | ⟨hfull,-⟩ :=
          @Fresh.vmalloc_total _ calls _ _ _ _ _ _ (fuel + 1) hfresh (by omega) hle (by omega)
        · exact .inl (hdone (by rw [hn8]; exact hsmall))
        · rw [hn8] at hfull
          omega
    · have hlt := not_le.mp hroom
      rw [requests,if_neg hroom] at hserves ⊢
      rw [retryFor_of_lt hlt] at hsmall
      obtain ⟨hgrants,hpanic⟩ | ⟨u,a,hfresh,hheld',hserves',hgrants',heq⟩ :=
        @HeapList.vmalloc_serves _ _ sup _ _ _ (fuel + 1 + 1) _ h hheld hn (by omega) hnone hserves
      · exact .inr ⟨hnone,hgrants,hpanic⟩
      rw [heq]
      obtain ⟨hroom',-⟩ | ⟨-,hnone',heq'⟩ :=
        @Fresh.vmalloc_total _ calls _ _ _ _ _ _ (fuel + 1) hfresh (by omega) hle (by omega)
      · rw [hn8] at hroom'
        omega
      rw [heq']
      have hnext := next_request hlt
      rw [← hnext,← hn8] at hserves'
      obtain ⟨hgrants,hpanic⟩ | ⟨u',a',hfresh',-,-,-,heq''⟩ :=
        @HeapList.vmalloc_serves _ _ sup _ _ _ (fuel + 1) _ hfresh.list hheld' (by omega)
          (by rw [hn8]; omega) hnone' hserves'
      · rw [hn8,hnext] at hgrants
        exact .inr ⟨hnone,fun hg => hgrants (hgrants' hg),hpanic⟩
      rw [heq'']
      have hle' := sectionsNeeded_le_next (n := n + 8#64) (by omega)
      obtain ⟨-,hdone⟩ | ⟨hfull,-⟩ :=
        @Fresh.vmalloc_total _ calls _ _ _ _ _ _ fuel hfresh' (by omega) hle'
          (by simp only [List.length_append,List.length_singleton]; omega)
      · exact .inl (hdone (by rw [hn16]; exact hsmall))
      · rw [hn8,hn16,sectionsFor] at hfull
        omega

end Total

end Vmalloc

end Lios

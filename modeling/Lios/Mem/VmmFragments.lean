import Lios.Mem.VmmCover

/-! # Enough fragments make the allocator follow a null pointer

Five hundred and ten pages are allocated and every second one is freed. No two of
the freed pages touch, so each needs a node of its own: the first 127 use up the
empty nodes of the first page of nodes, the next one adds a second page behind the
list, and the 127 nodes it still has are used from the back to the front. The first
of them has no back pointer, so recycling it makes `vmm_tail` null.
-/
namespace Lios.Vmm

section Pool
variable {start mem : U64} {r i e : ℕ}

theorem pool_mapFrames : mapFrames pagePool start r i e = .done () e := by
  induction r generalizing i with
  | zero => rfl
  | succ r ih => exact ih

theorem pool_unmapFrames : unmapFrames pagePool mem r i e = .done () e := by
  induction r generalizing i with
  | zero => rfl
  | succ r ih => exact ih

theorem pool_kcallocPage (h : e + 1 < 2 ^ 52) :
    pagePool.kcallocPage e = .done (BitVec.ofNat 64 ((e + 1) * 4096)) (e + 1) := if_pos h

end Pool

/-- The `i`-th page of the address range. -/
def page (i : ℕ) : U64 := freeVirtStart + BitVec.ofNat 64 (i * 4096)

theorem page_toNat {i : ℕ} (h : i < 1024) : (page i).toNat = 0xFFFFF00000000000 + i * 4096 := by
  have hs : freeVirtStart.toNat = 0xFFFFF00000000000 := rfl
  have hi : (BitVec.ofNat 64 (i * 4096)).toNat = i * 4096 := by
    rw [BitVec.toNat_ofNat]
    exact Nat.mod_eq_of_lt (by omega)
  rw [page,BitVec.toNat_add,hs,hi]
  exact Nat.mod_eq_of_lt (by omega)

theorem page_ne_zero {i : ℕ} (h : i < 1024) : page i ≠ 0#64 := by
  intro h0
  have hp := page_toNat h
  rw [h0] at hp
  simp at hp
  omega

theorem page_succ (i : ℕ) : page i + 1#64 * pageSize = page (i + 1) := by
  rw [page,page,Nat.add_mul,BitVec.ofNat_add,add_assoc]
  rfl

/-- Allocations of a page each, and then a call of `vmm_free` for every second one. -/
def fragmentCalls (i : ℕ) : VmmCall :=
  if i < 510 then .alloc 1#64 else .free (page (2 * (i - 510)))

section Allocate
variable {k fuel : ℕ} {x : Session ℕ}

/-- After `k` allocations. -/
structure Allocated (k : ℕ) (x : Session ℕ) : Prop where
  tidy : Tidy pagePoolSupply x
  env : x.vmm.env ≤ k + 2
  out : ∀ i < k, (page i,1#64) ∈ x.out
  chain : ∃ p before empty, Chain x.vmm before [p] empty ∧ empty.length = 127 ∧
    (∀ f, empty.head? = some f → x.vmm.prev f ≠ 0#64) ∧ x.vmm.start p = page k ∧
    (x.vmm.size p).toNat = 0xFFFFFFFF80000000 - 0xFFFFF00000000000 - k * 4096

/-- The search finds the one block in use, which is not used up. -/
theorem first_fit {s : Vmm ℕ} {p : U64} {empty : List U64}
    (hlt : (1#64 * pageSize).toNat < (s.size p).toNat) :
    (([p] ++ empty).find? fun n => 1#64 * pageSize ≤ s.size n) = some p := by
  rw [List.singleton_append]
  refine List.find?_cons_of_pos (decide_eq_true (BitVec.le_def.mpr ?_))
  exact hlt.le

theorem Allocated.avoids (h : Allocated k x) (hk : k < 510) : Avoids x (.alloc 1#64) := by
  obtain ⟨p,before,empty,hchain,-,-,-,hsize⟩ := h.chain
  have hlt : (1#64 * pageSize).toNat < (x.vmm.size p).toNat := by
    rw [hsize,show (1#64 * pageSize).toNat = 4096 from rfl]
    omega
  refine ⟨by decide,by decide,fun fuel cur hwalk he => ?_⟩
  have hcur := walk_eq_find hchain.linked hwalk
  rw [first_fit hlt,Option.getD_some] at hcur
  rw [← hcur,he] at hlt
  exact absurd hlt (lt_irrefl _)

/-- The table has room for a block, after a new page at most. -/
theorem pool_add {s : Vmm ℕ} {al : List U64} {out : Multiset (U64 × U64)}
    (h : Table (pagePoolSupply.taken s.env) s al out) (henv : s.env + 1 < 2 ^ 52)
    (start size : U64) (hfuel : al.length + 170 ≤ fuel) :
    ∃ t, allocListAddNode pagePool fuel start size s = .done () t ∧ t.env ≤ s.env + 1 := by
  by_cases hu : ∃ n ∈ al, s.unused n = true
  · have hlen : al.length ≤ fuel := by omega
    obtain ⟨t,ht,he⟩ := h.add_unused hu pagePool start size hlen
    exact ⟨t,ht,by omega⟩
  · have hu (n : U64) (hn : n ∈ al) : s.unused n = false :=
      Bool.not_eq_true _ ▸ fun hun => hu ⟨n,hn,hun⟩
    obtain ⟨t,ht,he⟩ := h.add_grows pagePoolSupply hu (pool_kcallocPage henv) start size hfuel
    exact ⟨t,ht,by omega⟩

theorem Allocated.step (h : Allocated k x) (hk : k < 510) :
    ∃ y, Step pagePool x (.alloc 1#64) y ∧ Allocated (k + 1) y := by
  have hav := h.avoids hk
  obtain ⟨p,before,empty,hchain,hlen,hintact,hstart,hsize⟩ := h.chain
  obtain ⟨al,htab⟩ := h.tidy.ranges.table
  have hr : (1#64 * pageSize).toNat = 4096 := rfl
  have hlt : (1#64 * pageSize).toNat < (x.vmm.size p).toNat := by omega
  have hne : x.vmm.size p ≠ 1#64 * pageSize := fun he => by
    rw [he] at hlt
    exact lt_irrefl _ hlt
  have hnz : x.vmm.size p - 1#64 * pageSize ≠ 0#64 := fun h0 => hne (sub_eq_zero.mp h0)
  have hpn : p ∈ [p] := List.mem_cons_self
  have hp0 : p ≠ 0#64 := hchain.ne_zero (List.mem_append_left _ hpn)
  have htake : takeBlock p (1#64 * pageSize) x.vmm = .done () (x.vmm.setBlock p
      (x.vmm.start p + 1#64 * pageSize) (x.vmm.size p - 1#64 * pageSize)) := if_neg hne
  have hchain₁ := hchain.setBlock (a := x.vmm.start p + 1#64 * pageSize) hpn hnz
  generalize ht : x.vmm.setBlock p (x.vmm.start p + 1#64 * pageSize)
    (x.vmm.size p - 1#64 * pageSize) = t at htake hchain₁
  have hrest : SameRest x.vmm t := by
    rw [← ht]
    exact ⟨rfl,rfl,rfl,rfl⟩
  have htab₁ : Table (pagePoolSupply.taken t.env) ((envLens ℕ).set t.env t) al x.out := by
    rw [hrest.env]
    exact htab.congr hrest.alloc hrest.allocHead
  have henv : t.env + 1 < 2 ^ 52 := by
    have he := h.env
    rw [hrest.env]
    omega
  have hlen₁ : al.length + 170 ≤ x.vmm.nodes.card + al.length + 170 := by omega
  obtain ⟨u,hadd,huenv⟩ := pool_add htab₁ henv (page k) 1#64 hlen₁
  have hwalk : walk 0#64 x.vmm.next (fun n => 1#64 * pageSize ≤ x.vmm.size n)
      (x.vmm.nodes.card + al.length + 170) x.vmm.vmmHead = some p := by
    rw [walk_linked hchain.linked (by rw [hchain.length]; omega),first_fit hlt]
    rfl
  have hstep := Step.alloc (vmmAlloc_eq_done.mpr
    ⟨p,t,t.env,hwalk,hp0,hstart.symm,htake,pool_mapFrames,hadd⟩)
  obtain ⟨-,hsame,-⟩ := Table.add pagePoolSupply htab₁ (page_ne_zero (by omega)) hadd
  have hsame := (SameFree.setEnv t.env t).trans hsame
  refine ⟨_,hstep,hstep.tidy h.tidy pool_settles hav,?_,fun i hi => ?_,
    p,before,empty,hchain₁.same hsame,hlen,fun f hf => ?_,?_,?_⟩
  · have he := h.env
    have htenv := hrest.env
    have hu : u.env ≤ t.env + 1 := huenv
    exact hu.trans (by omega)
  · by_cases hik : i = k
    · rw [hik]
      exact Multiset.mem_cons_self _ _
    · exact Multiset.mem_cons_of_mem (h.out i (by omega))
  · have hprev : u.prev f = x.vmm.prev f := by rw [hsame.prev,← ht,prev_setBlock]
    exact hprev ▸ hintact f hf
  · have hnew : u.start p = page k + 1#64 * pageSize := by
      rw [hsame.start,← ht,start_setBlock,Function.update_self,hstart]
    rw [hnew,page_succ]
  · have hnew : u.size p = x.vmm.size p - 1#64 * pageSize := by
      rw [hsame.size,← ht,size_setBlock,Function.update_self]
    rw [hnew,BitVec.toNat_sub_of_le (BitVec.le_def.mpr hlt.le),hsize,hr]
    omega

end Allocate

section Free
variable {j e : ℕ} {broken : Prop} {x : Session ℕ} {s : Vmm ℕ}

/-- After `j` of the pages were freed, with `e` empty nodes left; whether the first of them
has lost its back pointer. -/
structure Freed (j e : ℕ) (broken : Prop) (x : Session ℕ) : Prop where
  tidy : Tidy pagePoolSupply x
  env : x.vmm.env ≤ 512 + j
  out : ∀ i < 510, i % 2 = 1 ∨ 2 * j ≤ i → (page i,1#64) ∈ x.out
  chain : ∃ before used empty, Chain x.vmm before used empty ∧ used ≠ [] ∧ empty.length = e ∧
    ∀ f, empty.head? = some f → (x.vmm.prev f = 0#64 ↔ broken)

theorem Allocated.freed (h : Allocated 510 x) : Freed 0 127 False x := by
  obtain ⟨p,before,empty,hchain,hlen,hintact,-⟩ := h.chain
  refine ⟨h.tidy,h.env,fun i hi _ => h.out i hi,before,[p],empty,hchain,List.cons_ne_nil _ _,hlen,?_⟩
  exact fun f hf => ⟨hintact f hf,False.elim⟩

/-- Both neighbours of the page to be freed are outstanding, so no free block touches it. -/
theorem Freed.far (h : Freed j e broken x) (hj : j < 255) (hsame : SameFree x.vmm s) :
    ∀ m ∈ s.nodes, s.touches (page (2 * j)) (page (2 * j) + 1#64 * pageSize) m = false := by
  have hblocks := h.tidy.ranges.free.blocks
  have hother {i : ℕ} (hi : i < 510) (ho : i % 2 = 1 ∨ 2 * j ≤ i) :
      (⟨0xFFFFF00000000000 + i * 4096,4096⟩ : Block) ∈ x.out.map outBlock := by
    have hb : outBlock (page i,1#64) = ⟨0xFFFFF00000000000 + i * 4096,4096⟩ := by
      simp [outBlock,page_toNat (show i < 1024 by omega)]
    exact hb ▸ Multiset.mem_map_of_mem outBlock (h.out i hi ho)
  intro m hm
  rw [hsame.nodes] at hm
  rw [← Bool.not_eq_true,touches_iff,hsame.start,hsame.size,page_succ,not_or]
  have hz (hne : x.vmm.start m ≠ 0#64 ∨ x.vmm.start m + x.vmm.size m ≠ 0#64) :
      x.vmm.size m ≠ 0#64 := by
    intro h0
    rw [hblocks.empty m hm h0,h0] at hne
    exact hne.elim (fun h => h rfl) (fun h => h rfl)
  refine ⟨fun he => ?_,fun he => ?_⟩
  · have hzm := hz (Or.inr (he ▸ page_ne_zero (by omega)))
    obtain ⟨hlo,hhi,-,-,hpos⟩ := hblocks.node hm hzm
    have hnat := congrArg BitVec.toNat he
    rw [page_toNat (by omega),BitVec.toNat_add,Nat.mod_eq_of_lt (by omega)] at hnat
    have hj0 : 0 < j := by omega
    have hap := hblocks.apart_other hm hzm
      (hother (i := 2 * j - 1) (by omega) (Or.inl (by omega)))
    simp only at hap
    omega
  · have hzm := hz (Or.inl (he ▸ page_ne_zero (by omega)))
    obtain ⟨hlo,hhi,-,-,hpos⟩ := hblocks.node hm hzm
    have hnat := congrArg BitVec.toNat he
    rw [page_toNat (by omega)] at hnat
    have hap := hblocks.apart_other hm hzm
      (hother (i := 2 * j + 1) (by omega) (Or.inl (by omega)))
    simp only at hap
    omega

theorem find_env {fuel : ℕ} {mem z : U64} {t : Vmm ℕ}
    (h : allocListFindAndRemove fuel mem s = .done z t) : t.env = s.env := by
  unfold allocListFindAndRemove at h
  split at h
  · cases h
  · split at h
    · cases h
    · obtain ⟨-,rfl⟩ := Outcome.done.inj h
      rfl

/-- The page is found in the table, and its frames are given back. -/
theorem Freed.found (h : Freed j e broken x) (hj : j < 255) :
    ∃ k, ∀ fuel ≥ k, ∃ t, x.vmm.nodes.card < fuel ∧
      allocListFindAndRemove fuel (page (2 * j)) x.vmm = .done 1#64 t ∧
      SameFree x.vmm ((envLens ℕ).set t.env t) ∧ t.env = x.vmm.env ∧
      FreeNodes (pagePoolSupply.taken t.env) ((envLens ℕ).set t.env t)
        (⟨(page (2 * j)).toNat,(1#64 * pageSize).toNat⟩ ::ₘ
          (x.out.erase (page (2 * j),1#64)).map outBlock) := by
  have hout := h.out (2 * j) (by omega) (Or.inr le_rfl)
  obtain ⟨k,hk⟩ := h.tidy.ranges.lookup hout
  refine ⟨k + x.vmm.nodes.card + 1,fun fuel hfuel => ?_⟩
  obtain ⟨t,ht⟩ := hk fuel (by omega)
  obtain ⟨-,hsame,hfree,-⟩ := h.tidy.ranges.found hout ht pool_unmapFrames
  exact ⟨t,by omega,ht,hsame,find_env ht,hfree⟩

/-- The accounts after one more page was freed. -/
theorem Freed.next {y : Session ℕ} {e' : ℕ} {broken' : Prop} (h : Freed j e broken x)
    (hj : j < 255) {fuel : ℕ} (hdone : vmmFree pagePool fuel (page (2 * j)) x.vmm = .done () y.vmm)
    (hy : y.out = x.out.erase (page (2 * j),1#64)) (hneat : Neat y.vmm)
    (henv : y.vmm.env ≤ x.vmm.env + 1)
    (hchain : ∃ before used empty, Chain y.vmm before used empty ∧ used ≠ [] ∧
      empty.length = e' ∧ ∀ f, empty.head? = some f → (y.vmm.prev f = 0#64 ↔ broken')) :
    Step pagePool x (.free (page (2 * j))) y ∧ Freed (j + 1) e' broken' y := by
  have hout := h.out (2 * j) (by omega) (Or.inr le_rfl)
  have he := h.env
  obtain ⟨u,out⟩ := y
  simp only at hy hneat henv hchain hdone
  subst hy
  refine ⟨Step.free hout hdone,⟨h.tidy.ranges.vmmFree hout hdone,hneat⟩,?_,fun i hi ho => ?_,hchain⟩
  · exact henv.trans (by omega)
  · refine (Multiset.mem_erase_of_ne fun heq => ?_).mpr (h.out i hi (by omega))
    have hnat := congrArg BitVec.toNat (congrArg Prod.fst heq)
    simp only [page_toNat (show i < 1024 by omega),page_toNat (show 2 * j < 1024 by omega)] at hnat
    omega

theorem one_page_ne_zero : 1#64 * pageSize ≠ 0#64 := by decide

/-- A page is freed into the last empty node. -/
theorem Freed.step (h : Freed j (e + 1) broken x) (hj : j < 255) (he : broken → 0 < e) :
    ∃ y, Step pagePool x (.free (page (2 * j))) y ∧ Freed (j + 1) e broken y := by
  obtain ⟨before,used,empty,hchain,hused,hlen,hfirst⟩ := h.chain
  obtain ⟨k,hk⟩ := h.found hj
  obtain ⟨t,hcard,hfind,hsame,henv,hfree⟩ := hk k le_rfl
  obtain ⟨l,c,rfl⟩ : ∃ l c, empty = l ++ [c] := by
    rcases List.eq_nil_or_concat empty with rfl | ⟨l,c,hl⟩
    · cases hlen
    · exact ⟨l,c,hl.trans List.concat_eq_append⟩
  have hl : l.length = e := by simpa using hlen
  have hprev : x.vmm.prev c ≠ 0#64 := by
    cases l with
    | nil =>
      intro h0
      exact absurd (he ((hfirst c rfl).mp h0)) (by rw [← hl]; exact Nat.lt_irrefl 0)
    | cons y l => exact hchain.prev_tail_ne_zero (List.cons_ne_nil _ _)
  have hfar := h.far hj hsame
  have hchain₂ := hchain.same hsame
  have hneat₂ := h.tidy.neat.same hsame
  obtain ⟨u,before',hins,hrest,hneat,hchain',hkeep⟩ := Neat.insert pagePool hneat₂.sparse
    hchain₂ (hsame.prev ▸ hprev) one_page_ne_zero (fun m hm _ => hfar m hm)
  rw [← hchain₂.giveBack_far hfar (hsame.nodes ▸ hcard)] at hins
  refine ⟨⟨u,_⟩,h.next hj (vmmFree_eq_done.mpr ⟨_,t,_,hfind,pool_unmapFrames,hins⟩) rfl hneat ?_
    ⟨before',c :: used,l,hchain',List.cons_ne_nil _ _,hl,fun f hf => ?_⟩⟩
  · have hu : u.env = t.env := hrest.env
    exact hu ▸ henv ▸ Nat.le_succ _
  · have hu : u.prev f = x.vmm.prev f := by
      rw [hkeep hused f (List.mem_of_mem_head? hf),hsame.prev]
    have hf' : (l ++ [c]).head? = some f := by
      rw [List.head?_append,hf]
      rfl
    exact hu ▸ hfirst f hf'

/-- Without empty nodes a page is freed into the last node of a new page of nodes, whose
first node has no back pointer. -/
theorem Freed.grow (h : Freed j 0 broken x) (hj : j < 255) :
    ∃ y, Step pagePool x (.free (page (2 * j))) y ∧ Freed (j + 1) 127 True y := by
  obtain ⟨before,used,empty,hchain,hused,hlen,-⟩ := h.chain
  obtain rfl := List.length_eq_zero_iff.mp hlen
  obtain ⟨k,hk⟩ := h.found hj
  obtain ⟨t,hcard,hfind,hsame,henv,hfree⟩ := hk k le_rfl
  have hfar := h.far hj hsame
  have hchain₂ := hchain.same hsame
  have hneat₂ := h.tidy.neat.same hsame
  have he := h.env
  have hk : pagePool.kcallocPage ((envLens ℕ).set t.env t).env = .done _ (t.env + 1) :=
    pool_kcallocPage (by rw [show ((envLens ℕ).set t.env t).env = t.env from rfl,henv]; omega)
  obtain ⟨u,before',hins,huenv,hneat,hchain',hprev⟩ := Neat.insert_grow hneat₂.sparse hchain₂ hfree
    hk one_page_ne_zero (fun m hm _ => hfar m hm)
  rw [← hchain₂.giveBack_far hfar (hsame.nodes ▸ hcard)] at hins
  refine ⟨⟨u,_⟩,h.next hj (vmmFree_eq_done.mpr ⟨_,t,_,hfind,pool_unmapFrames,hins⟩) rfl hneat ?_
    ⟨before',_,_,hchain',List.cons_ne_nil _ _,by simp [cells],fun f hf => ?_⟩⟩
  · exact huenv ▸ henv ▸ le_rfl
  · rw [cells_cons] at hf
    obtain rfl := Option.some.inj hf
    exact iff_true_intro (hprev hused)

/-- The one empty node left has no back pointer. -/
theorem Freed.fault (h : Freed j 1 True x) (hj : j < 255) :
    ∃ k, ∀ fuel ≥ k, ∃ t, vmmFree pagePool fuel (page (2 * j)) x.vmm = .fault t := by
  obtain ⟨before,used,empty,hchain,hused,hlen,hfirst⟩ := h.chain
  obtain ⟨c,rfl⟩ := List.length_eq_one_iff.mp hlen
  obtain ⟨k,hk⟩ := h.found hj
  refine ⟨k,fun fuel hfuel => ?_⟩
  obtain ⟨t,hcard,hfind,hsame,henv,hfree⟩ := hk fuel hfuel
  have hchain₂ := hchain.same hsame
  have htail : c = ((envLens ℕ).set t.env t).vmmTail := by
    have ht := hchain₂.tail
    rw [List.getLast?_concat] at ht
    exact Option.some.inj ht
  have hsize : ((envLens ℕ).set t.env t).size ((envLens ℕ).set t.env t).vmmTail = 0#64 :=
    htail ▸ hchain₂.empty_eq c List.mem_cons_self
  have hprev : ((envLens ℕ).set t.env t).prev ((envLens ℕ).set t.env t).vmmTail = 0#64 := by
    rw [← htail,hsame.prev]
    exact (hfirst c rfl).mpr trivial
  obtain ⟨u,hu⟩ := recycleTail_fault (a := page (2 * j)) (z := 1#64 * pageSize) hprev
  refine ⟨u,?_⟩
  unfold vmmFree
  rw [hfind,Outcome.bind_done,Lens.lift,pool_unmapFrames,Outcome.mapState_done,Outcome.bind_done,
    show (envLens ℕ).get t = t.env from rfl,hchain₂.giveBack_far (h.far hj hsame)
      (hsame.nodes ▸ hcard),growFreeList,if_neg (fun hc => hc.2 hsize),Outcome.bind_done,hu]

end Free

section Run

/-- How far a run has come after `i` calls. -/
def Stage (i : ℕ) (x : Session ℕ) : Prop :=
  (i ≤ 510 ∧ Allocated i x) ∨ (∃ j e, i = j + 510 ∧ e + j = 127 ∧ Freed j e False x) ∨
    ∃ j e, i = j + 510 ∧ e + j = 255 ∧ 0 < e ∧ Freed j e True x

theorem fragmentCalls_free (j : ℕ) : fragmentCalls (j + 510) = .free (page (2 * j)) := by
  rw [fragmentCalls,if_neg (by omega),Nat.add_sub_cancel]

/-- While the back pointers are all there. -/
theorem Freed.stage {j e : ℕ} {x : Session ℕ} (h : Freed j e False x) (he : e + j = 127) :
    ∃ y, Step pagePool x (fragmentCalls (j + 510)) y ∧ Stage (j + 510 + 1) y := by
  rw [fragmentCalls_free]
  cases e with
  | zero =>
    obtain ⟨y,hs,hy⟩ := h.grow (by omega)
    exact ⟨y,hs,Or.inr (Or.inr ⟨j + 1,127,by omega,by omega,by omega,hy⟩)⟩
  | succ e =>
    obtain ⟨y,hs,hy⟩ := h.step (by omega) False.elim
    exact ⟨y,hs,Or.inr (Or.inl ⟨j + 1,e,by omega,by omega,hy⟩)⟩

theorem Stage.step {i : ℕ} {x : Session ℕ} (hi : i < 764) (h : Stage i x) :
    ∃ y, Step pagePool x (fragmentCalls i) y ∧ Stage (i + 1) y := by
  rcases h with ⟨hle,h⟩ | ⟨j,e,rfl,he,h⟩ | ⟨j,e,rfl,he,hpos,h⟩
  · by_cases hlt : i < 510
    · rw [fragmentCalls,if_pos hlt]
      obtain ⟨y,hs,hy⟩ := h.step hlt
      exact ⟨y,hs,Or.inl ⟨by omega,hy⟩⟩
    · obtain ⟨j,rfl⟩ : ∃ j, i = j + 510 := ⟨i - 510,by omega⟩
      obtain rfl : j = 0 := by omega
      exact h.freed.stage (by omega)
  · exact h.stage he
  · rw [fragmentCalls_free]
    obtain ⟨e,rfl⟩ : ∃ f, e = f + 1 := ⟨e - 1,by omega⟩
    obtain ⟨y,hs,hy⟩ := h.step (by omega) (fun _ => by omega)
    exact ⟨y,hs,Or.inr (Or.inr ⟨j + 1,e,by omega,by omega,by omega,hy⟩)⟩

end Run

end Lios.Vmm

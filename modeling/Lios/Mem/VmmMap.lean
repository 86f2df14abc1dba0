import Lios.Lib.FiniteMap
import Lios.Lib.Runs
import Lios.Mem.VmmRanges

/-! # The list of allocated blocks is a finite map

From the list that `vmm_init` builds, whatever starts are added and removed, the list holds the pairs
of a finite map, each once. Adding a start that is not in the map calls itself at most once, and it is
the addition of a page in between that makes the second call find an unused node. Removing a start
returns its size, or stops the machine if the map has none.
-/
namespace Lios.Vmm
variable {E : Type} {calls : PageCalls E} {s s' : Vmm E}

inductive TableCall where
  | add (start size : U64)
  | remove (start : U64)

/-- The list, and the map that a user of the list keeps. -/
structure Mapped (E : Type) where
  vmm : Vmm E
  sizes : U64 → Option U64

/-- A completed call. -/
inductive TableStep (calls : PageCalls E) : Mapped E → TableCall → Mapped E → Prop where
  | add {x : Mapped E} {start size : U64} {fuel : ℕ} {t : Vmm E} :
      start ≠ 0#64 → x.sizes start = none →
      allocListAddNode calls fuel start size x.vmm = .done () t →
      TableStep calls x (.add start size) ⟨t,Function.update x.sizes start (some size)⟩
  | remove {x : Mapped E} {start z : U64} {fuel : ℕ} {t : Vmm E} :
      start ≠ 0#64 → allocListFindAndRemove fuel start x.vmm = .done z t →
      TableStep calls x (.remove start) ⟨t,Function.update x.sizes start none⟩

/-- The list holds the map. -/
def HoldsMap (src : PageSupply calls) (x : Mapped E) : Prop :=
  ∃ al out, Table (src.taken x.vmm.env) x.vmm al out ∧ IsGraph x.sizes out

theorem Table.vmmInit (src : PageSupply calls) (hdone : vmmInit calls s = .done () s') :
    ∃ al, Table (src.taken s'.env) s' al 0 := by
  obtain ⟨p,q,e,e',-,hq,henv,-,-,-,hahead,-,-,halloc⟩ := vmmInit_spec hdone
  obtain ⟨hqp,-,hsub⟩ := src.kcallocPage hq
  exact ⟨_,Table.fresh hqp (henv ▸ hsub (Finset.mem_insert_self _ _)) hahead halloc⟩

theorem TableStep.holdsMap (src : PageSupply calls) {x y : Mapped E} {c : TableCall}
    (hx : HoldsMap src x) (hs : TableStep calls x c y) : HoldsMap src y := by
  obtain ⟨al,out,htab,hgraph⟩ := hx
  cases hs with
  | add hstart hnone hdone =>
    obtain ⟨⟨al',htab'⟩,-,-⟩ := htab.add src hstart hdone
    exact ⟨al',_,htab',hgraph.insert hnone _⟩
  | @remove start z fuel t hstart hdone =>
    cases hm : x.sizes start with
    | none => exact absurd hdone (htab.find_not_done hstart (hgraph.absent hm))
    | some size =>
      obtain ⟨-,htab',-,henv⟩ := htab.find hstart ((hgraph.mem_iff start size).mpr hm)
        (fun _ => hgraph.unique hm) hdone
      refine ⟨al,_,?_,hgraph.erase hm⟩
      rw [henv]
      exact htab'

/-- What the list does, in the state `s`, for the map `sizes`. The first clause says that the nodes of
the list hold the pairs of the map, each in one node. -/
structure IsMap (calls : PageCalls E) (s : Vmm E) (sizes : U64 → Option U64) : Prop where
  nodes : ∃ al, Linked 0#64 s.allocNext s.allocHead al ∧ IsGraph sizes (al.map s.entry).sum
  add : ∀ start size, start ≠ 0#64 → sizes start = none →
    (∃ p e, calls.kcallocPage s.env = .done p e) →
    ∃ t, ∃ count ≤ 1, ∃ m, ∀ fuel ≥ m, allocListAddNode calls fuel start size s = .done () t ∧
      allocListAddCounted calls fuel start size s = .done count t
  found : ∀ start size, start ≠ 0#64 → sizes start = some size →
    ∃ t m, ∀ fuel ≥ m, allocListFindAndRemove fuel start s = .done size t
  absent : ∀ start, start ≠ 0#64 → sizes start = none → ∃ m, ∀ fuel ≥ m,
    allocListFindAndRemove fuel start s = .panic "vmm: freeing block that is not in list!" s

theorem Table.counted_done (src : PageSupply calls) {al : List U64} {out : Multiset (U64 × U64)}
    (h : Table (src.taken s.env) s al out) (hk : ∃ p e, calls.kcallocPage s.env = .done p e)
    (start size : U64) : ∃ t, ∃ count ≤ 1, ∀ fuel ≥ al.length + 170,
      allocListAddCounted calls fuel start size s = .done count t := by
  -- Either the first walk finds a node, or it ends at the last one and a page is linked there.
  by_cases hu : ∃ n ∈ al, s.unused n = true
  · obtain ⟨cur,hfind⟩ := find_unused hu
    exact ⟨_,0,by omega,fun fuel hfuel => h.counted_unused hfind calls start size (by omega)⟩
  · obtain ⟨p,e,hk⟩ := hk
    have hfull (n : U64) (hn : n ∈ al) : s.unused n = false := by
      rw [← Bool.not_eq_true]
      exact fun hun => hu ⟨n,hn,hun⟩
    obtain ⟨t,-,hadd⟩ := h.counted_grows src hfull hk start size
    exact ⟨t,1,le_rfl,hadd⟩

theorem HoldsMap.isMap {src : PageSupply calls} {x : Mapped E} (h : HoldsMap src x) :
    IsMap calls x.vmm x.sizes := by
  obtain ⟨al,out,htab,hgraph⟩ := h
  refine ⟨⟨al,htab.linked,?_⟩,?_,?_,?_⟩
  · rw [htab.entries]
    exact hgraph
  · intro start size _ _ hk
    obtain ⟨t,count,hcount,hadd⟩ := htab.counted_done src hk start size
    refine ⟨t,count,hcount,al.length + 170,fun fuel hfuel => ⟨?_,hadd fuel hfuel⟩⟩
    rw [allocListAddNode_eq_counted,hadd fuel hfuel,Outcome.bind_done]
  · intro start size hstart hm
    obtain ⟨t,hfind⟩ := htab.find_done hstart ((hgraph.mem_iff start size).mpr hm)
      (fun _ => hgraph.unique hm)
    exact ⟨t,al.length + 1,hfind⟩
  · intro start hstart hm
    exact ⟨al.length + 1,fun fuel hfuel => htab.find_panics hstart (hgraph.absent hm) hfuel⟩

/-- In every state that completed calls reach from `vmm_init`, the list is the map of the starts that
were added and not removed since, with the sizes they were added with. -/
theorem allocList_isMap (src : PageSupply calls) {s₀ : Vmm E} {n : ℕ} {st : ℕ → Mapped E}
    {op : ℕ → TableCall} (hinit : vmmInit calls s₀ = .done () (st 0).vmm)
    (hempty : (st 0).sizes = fun _ => none) (hr : IsRun (TableStep calls) n st op) :
    ∀ i ≤ n, IsMap calls (st i).vmm (st i).sizes := by
  have h0 : HoldsMap src (st 0) := by
    obtain ⟨al,htab⟩ := Table.vmmInit src hinit
    refine ⟨al,0,htab,?_⟩
    rw [hempty]
    exact isGraph_zero
  have hinv := hr.invariant (I := HoldsMap src) (G := fun _ _ => True) h0
    (fun _ _ _ h hs _ => hs.holdsMap src h) (fun _ _ => trivial)
  intro i hi
  exact (hinv i hi).isMap

/-- Two starts are added, one with the size zero, and the first is removed. -/
def mapCalls : ℕ → TableCall
  | 0 => .add 5#64 7#64
  | 1 => .add 6#64 0#64
  | _ => .remove 5#64

def mapRun : ℕ → Mapped ℕ
  | 0 => ⟨pooled,fun _ => none⟩
  | i + 1 => match mapCalls i with
    | .add start size => ⟨(allocListAddNode pagePool 200 start size (mapRun i).vmm).stateD poolStart,
        Function.update (mapRun i).sizes start (some size)⟩
    | .remove start => ⟨(allocListFindAndRemove 200 start (mapRun i).vmm).stateD poolStart,
        Function.update (mapRun i).sizes start none⟩

theorem mapRun_isRun : IsRun (TableStep pagePool) 3 mapRun mapCalls := by
  intro i hi
  rcases i with _ | _ | _ | i
  · exact TableStep.add (x := mapRun 0) (by decide) rfl
      (Outcome.eq_done_of_returned (by decide +kernel) poolStart)
  · exact TableStep.add (x := mapRun 1) (by decide) rfl
      (Outcome.eq_done_of_returned (by decide +kernel) poolStart)
  · exact TableStep.remove (x := mapRun 2) (z := 7#64) (by decide)
      (Outcome.eq_done_of_returned (by decide +kernel) poolStart)
  · omega

theorem mapRun_isMap : (mapRun 3).sizes 6#64 = some 0#64 ∧ (mapRun 3).sizes 5#64 = none ∧
    IsMap pagePool (mapRun 3).vmm (mapRun 3).sizes :=
  ⟨by decide +kernel,by decide +kernel,
    allocList_isMap pagePoolSupply pooled_eq rfl mapRun_isRun 3 le_rfl⟩

end Lios.Vmm

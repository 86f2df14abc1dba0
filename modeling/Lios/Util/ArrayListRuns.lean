import Mathlib.Tactic.IntervalCases
import Lios.Lib.Runs
import Lios.Util.ArrayListCalls

/-! # Array lists are lists

Every run of additions and removals does to the entries in memory what it does to a list.
The assumptions on the heap are met by one that has a single page to give.
-/
namespace Lios
variable {H : Type} {calls : HeapCalls H} {src : HeapSupply calls}
  {out : Multiset (U64 × List U8)}

section Runs
variable {s : ListHeap H} {xs : List (List U8)}

/-- The entries of a list as they lie in memory. -/
def entries (calls : HeapCalls H) (s : ListHeap H) : List (List U8) :=
  (List.range s.list.size.toNat).map fun j => (List.range s.list.entrySize.toNat).map fun k =>
    calls.bytes.get s.heap (s.list.l + BitVec.ofNat 64 (j * s.list.entrySize.toNat + k))

theorem Represents.entries_eq (hr : Represents src out s xs) : entries calls s = xs := by
  have hsize := hr.size
  by_cases hz : s.list.capacity = 0#64
  · have hfits := hr.fits
    rw [hz,BitVec.toNat_zero,Nat.le_zero,List.length_eq_zero_iff] at hfits
    rw [entries,hsize,hfits]
    rfl
  obtain ⟨c,hc,hlt,htake,hheld⟩ := hr.stored hz
  refine Eq.trans ?_ (hr.uniform.records_flatten htake)
  rw [entries,hsize,records]
  refine List.map_congr_left fun j hj => List.ext_getElem? fun k => ?_
  have hj : j < xs.length := List.mem_range.mp hj
  have hend : (j + 1) * s.list.entrySize.toNat ≤ c.length := by
    rw [hc]
    exact Nat.mul_le_mul_right _ (hj.trans_le hr.fits)
  rw [Nat.succ_mul] at hend
  rw [List.getElem?_map,List.getElem?_take]
  split
  · rename_i hk
    have hval : (BitVec.ofNat 64 (j * s.list.entrySize.toNat + k)).toNat =
        j * s.list.entrySize.toNat + k := by
      rw [BitVec.toNat_ofNat,Nat.mod_eq_of_lt (by omega)]
    have hload := src.load (i := BitVec.ofNat 64 (j * s.list.entrySize.toNat + k)) hheld
      (by rw [hval]; omega)
    rw [hval] at hload
    rw [List.getElem?_range hk,List.getElem?_drop,hload]
    rfl
  · rw [List.getElem?_eq_none (by simpa using by omega)]
    rfl

inductive ListOp where
  | add (entry : List U8)
  | remove (index : U64)

/-- A completed call on the list, with the list that it stands for. A new entry is written at
the index that `arraylist_add` returns. -/
inductive ListStep (calls : HeapCalls H) :
    ListHeap H × List (List U8) → ListOp → ListHeap H × List (List U8) → Prop
  | add {s t u : ListHeap H} {xs : List (List U8)} {entry : List U8} {index : U64}
      (hentry : entry.length = s.list.entrySize.toNat) (hgrow : s.list.CanGrow)
      (hadd : arraylistAdd calls s = .done index t)
      (hstore : storeEntry calls index entry t = .done () u) :
      ListStep calls (s,xs) (.add entry) (u,xs ++ [entry])
  | remove {s t : ListHeap H} {xs : List (List U8)} {index : U64} {fuel : ℕ} {b : Bool}
      (hremove : arraylistRemove calls fuel index s = .done b t) :
      ListStep calls (s,xs) (.remove index) (t,xs.eraseIdx index.toNat)

theorem ListStep.represents {x y : ListHeap H × List (List U8)} {op : ListOp}
    (hr : Represents src out x.1 x.2) (hs : ListStep calls x op y) :
    Represents src out y.1 y.2 := by
  cases hs with
  | @add s t u xs entry index hentry hgrow hadd hstore =>
    obtain ⟨-,hspec⟩ := hr.add hgrow
    obtain ⟨rfl,hsame,hroom⟩ := hspec index t hadd
    obtain ⟨v,hv,-,hnew⟩ := hroom.storeEntry hr.size (hentry.trans (by rw [hsame]))
    rw [hv] at hstore
    obtain ⟨-,rfl⟩ := Outcome.done.inj hstore
    exact hnew
  | @remove s t xs index fuel b hremove =>
    obtain ⟨-,hspin⟩ | ⟨-,hspec⟩ := hr.remove index fuel
    · rw [hspin] at hremove
      cases hremove
    · exact (hspec b t hremove).2.2

/-- In every state that a run reaches from `arraylist_new`, the entries in memory are those of
the reference list; the next `arraylist_add` returns its length and leaves room for the new
entry, the next `arraylist_remove` fails exactly for an index outside, which changes nothing;
and neither of them accesses a byte outside of the buffer. -/
theorem arraylist_refines (src : HeapSupply calls) {out : Multiset (U64 × List U8)} {h₀ : H}
    {e : U64} {n : ℕ} {st : ℕ → ListHeap H × List (List U8)} {op : ℕ → ListOp}
    (he : 1 ≤ e.toNat) (hheld : src.Holds h₀ out) (h0 : st 0 = (⟨arraylistNew e,h₀⟩,[]))
    (hr : IsRun (ListStep calls) n st op) :
    ∀ i ≤ n, ∀ s xs, st i = (s,xs) →
      entries calls s = xs ∧ s.list.size.toNat = xs.length ∧ s.list.size ≤ s.list.capacity ∧
      (s.list.capacity = 0#64 ∨ ∃ k, s.list.capacity.toNat = 2 ^ k) ∧
      (s.list.CanGrow → (arraylistAdd calls s).Settled ∧
        ∀ index t, arraylistAdd calls s = .done index t → index.toNat = xs.length ∧
          ∀ entry, entry.length = s.list.entrySize.toNat →
            ∃ u, storeEntry calls index entry t = .done () u ∧
              entries calls u = xs ++ [entry]) ∧
      ∀ index, ∃ m, ∀ fuel ≥ m, (arraylistRemove calls fuel index s).Settled ∧
        (s.list.size ≤ index → arraylistRemove calls fuel index s = .done false s) ∧
        ∀ b t, arraylistRemove calls fuel index s = .done b t →
          (b = false ↔ s.list.size ≤ index) ∧ entries calls t = xs.eraseIdx index.toNat := by
  have hstart : Represents src out (st 0).1 (st 0).2 := by
    rw [h0]
    exact represents_new he hheld
  have hinv := hr.invariant (I := fun x => Represents src out x.1 x.2) (G := fun _ _ => True) hstart
    (fun x op y hx hs _ => hs.represents hx) fun _ _ => trivial
  intro i hi s xs hst
  have hrep := hinv i hi
  rw [hst] at hrep
  refine ⟨hrep.entries_eq,hrep.size,?_,hrep.power,fun hgrow => ?_,fun index => ?_⟩
  · rw [BitVec.le_def,hrep.size]
    exact hrep.fits
  · obtain ⟨hset,hspec⟩ := hrep.add hgrow
    refine ⟨hset,fun index t hadd => ?_⟩
    obtain ⟨rfl,hsame,hroom⟩ := hspec index t hadd
    refine ⟨hrep.size,fun entry hentry => ?_⟩
    obtain ⟨u,hu,-,hnew⟩ := hroom.storeEntry hrep.size (hentry.trans (by rw [hsame]))
    exact ⟨u,hu,hnew.entries_eq⟩
  · refine ⟨2 ^ 64,fun fuel hfuel => ?_⟩
    obtain ⟨hless,-⟩ | ⟨hset,hspec⟩ := hrep.remove index fuel
    · omega
    refine ⟨hset,fun hle => arraylistRemove_of_le hle fuel,fun b t hremove => ?_⟩
    obtain ⟨rfl,-,hnew⟩ := hspec b t hremove
    refine ⟨?_,hnew.entries_eq⟩
    rw [decide_eq_false_iff_not,BitVec.not_lt]

end Runs

/-- A heap with one page, from which it gives one block at a time. -/
structure OneBlock where
  bytes : U64 → U8
  size : Option ℕ

namespace OneBlock

def base : U64 := 0x1000#64

def oneCalls : HeapCalls OneBlock where
  vmalloc n h :=
    if h.size = none ∧ n.toNat ≤ 4096 then .done base { h with size := some n.toNat }
    else .panic "out of memory" h
  vrealloc _ n h :=
    if n.toNat ≤ 4096 then .done base { h with size := some n.toNat } else .panic "out of memory" h
  vfree _ h := .done () { h with size := none }
  bytes := ⟨fun h => h.bytes,fun m h => { h with bytes := m },fun _ _ => rfl,fun _ => rfl,
    fun _ _ _ => rfl⟩

def content (m : U64 → U8) (n : ℕ) : List U8 :=
  (List.range n).map fun i => m (base + BitVec.ofNat 64 i)

theorem getElem?_content {m : U64 → U8} {n i : ℕ} (hi : i < n) :
    (content m n)[i]? = some (m (base + BitVec.ofNat 64 i)) := by
  rw [content,List.getElem?_map,List.getElem?_range hi]
  rfl

theorem length_content (m : U64 → U8) (n : ℕ) : (content m n).length = n := by simp [content]

theorem content_update {m : U64 → U8} {n : ℕ} {i : U64} {v : U8} (hn : n ≤ 4096) :
    content (Function.update m (base + i) v) n = (content m n).set i.toNat v := by
  refine List.ext_getElem? fun j => ?_
  by_cases hj : j < n
  · rw [getElem?_content hj,List.getElem?_set]
    have hval : (BitVec.ofNat 64 j).toNat = j := by
      rw [BitVec.toNat_ofNat,Nat.mod_eq_of_lt (by omega)]
    by_cases hij : i.toNat = j
    · obtain rfl : i = BitVec.ofNat 64 j := BitVec.eq_of_toNat_eq (hij.trans hval.symm)
      rw [if_pos hij,Function.update_self,if_pos (by rw [length_content]; omega)]
    · rw [if_neg hij,getElem?_content hj,Function.update_of_ne]
      intro heq
      exact hij (by rw [← (BitVec.add_right_inj base).mp heq,hval])
  · rw [List.getElem?_eq_none (by rw [length_content]; omega),
      List.getElem?_eq_none (by rw [List.length_set,length_content]; omega)]

/-- The block that is out, with its bytes. -/
def Holds (h : OneBlock) (out : Multiset (U64 × List U8)) : Prop :=
  match h.size with
  | none => out = 0
  | some n => n ≤ 4096 ∧ out = {(base,content h.bytes n)}

theorem Holds.of_cons {h : OneBlock} {p : U64} {c : List U8} {out : Multiset (U64 × List U8)}
    (hh : h.Holds ((p,c) ::ₘ out)) :
    ∃ n, h.size = some n ∧ n ≤ 4096 ∧ p = base ∧ c = content h.bytes n ∧ out = 0 := by
  obtain ⟨m,o⟩ := h
  cases o with
  | none => exact absurd hh Multiset.cons_ne_zero
  | some n =>
    obtain ⟨hn,hout⟩ := hh
    obtain ⟨hpc,hzero⟩ := (Multiset.singleton_eq_cons_iff _).mp hout.symm
    obtain ⟨rfl,rfl⟩ := Prod.mk.inj hpc
    exact ⟨n,rfl,hn,rfl,rfl,hzero⟩

theorem holds_some {h : OneBlock} {n : ℕ} (hn : n ≤ 4096) :
    Holds { h with size := some n } ((base,content h.bytes n) ::ₘ 0) := ⟨hn,rfl⟩

section Supply
variable {h : OneBlock} {p : U64} {c : List U8} {out : Multiset (U64 × List U8)} {i : U64}

theorem load_eq (hh : h.Holds ((p,c) ::ₘ out)) (hi : i.toNat < c.length) :
    (c)[i.toNat]? = some (oneCalls.bytes.get h (p + i)) := by
  obtain ⟨n,-,-,rfl,rfl,-⟩ := hh.of_cons
  rw [length_content] at hi
  rw [getElem?_content hi,BitVec.ofNat_toNat,BitVec.setWidth_eq]
  rfl

theorem store_eq (v : U8) (hh : h.Holds ((p,c) ::ₘ out)) :
    Holds (oneCalls.bytes.set (Function.update (oneCalls.bytes.get h) (p + i) v) h)
      ((p,c.set i.toNat v) ::ₘ out) := by
  obtain ⟨n,hsize,hn,rfl,rfl,rfl⟩ := hh.of_cons
  obtain ⟨m,_⟩ := h
  subst hsize
  have hnew := @holds_some ⟨Function.update m (base + i) v,none⟩ n hn
  dsimp only at hnew
  rw [content_update hn] at hnew
  exact hnew

theorem vmalloc_eq (n : U64) (hh : h.Holds out) : (oneCalls.vmalloc n h).Settled ∧
    ∀ p t, oneCalls.vmalloc n h = .done p t → ∃ c, c.length = n.toNat ∧ t.Holds ((p,c) ::ₘ out) := by
  simp only [oneCalls]
  split
  · rename_i hfree
    refine ⟨trivial,fun p t hdone => ?_⟩
    obtain ⟨rfl,rfl⟩ := Outcome.done.inj hdone
    obtain ⟨m,_⟩ := h
    obtain ⟨rfl,hn⟩ := hfree
    obtain rfl : out = 0 := hh
    exact ⟨_,length_content m n.toNat,holds_some hn⟩
  · exact ⟨trivial,fun p t hdone => nomatch hdone⟩

theorem vrealloc_eq (n : U64) (hh : h.Holds ((p,c) ::ₘ out)) : (oneCalls.vrealloc p n h).Settled ∧
    ∀ q t, oneCalls.vrealloc p n h = .done q t → ∃ d, d.length = n.toNat ∧
      (∀ i < min c.length n.toNat, d[i]? = (c)[i]?) ∧ t.Holds ((q,d) ::ₘ out) := by
  obtain ⟨k,-,-,rfl,rfl,rfl⟩ := hh.of_cons
  simp only [oneCalls]
  split
  · rename_i hn
    refine ⟨trivial,fun q t hdone => ?_⟩
    obtain ⟨rfl,rfl⟩ := Outcome.done.inj hdone
    refine ⟨_,length_content h.bytes n.toNat,fun i hi => ?_,holds_some hn⟩
    rw [length_content] at hi
    rw [getElem?_content (by omega),getElem?_content (by omega)]
  · exact ⟨trivial,fun q t hdone => nomatch hdone⟩

theorem vfree_eq (hh : h.Holds ((p,c) ::ₘ out)) : (oneCalls.vfree p h).Settled ∧
    ∀ t, oneCalls.vfree p h = .done () t → t.Holds out := by
  obtain ⟨k,-,-,-,-,rfl⟩ := hh.of_cons
  refine ⟨trivial,fun t hdone => ?_⟩
  obtain ⟨-,rfl⟩ := Outcome.done.inj hdone
  rfl

end Supply

def oneSupply : HeapSupply oneCalls where
  Holds := Holds
  load hh hi := load_eq hh hi
  store v hh _ := store_eq v hh
  vmalloc n hh := vmalloc_eq n hh
  vrealloc n hh := vrealloc_eq n hh
  vfree hh := vfree_eq hh

def fresh : OneBlock := ⟨fun _ => 0#8,none⟩

/-- Adding an entry of one byte. -/
def oneAdd (s : ListHeap OneBlock) (v : U8) : ListHeap OneBlock :=
  let t := (arraylistAdd oneCalls s).stateD s
  (storeEntry oneCalls s.list.size [v] t).stateD t

def oneStart : ListHeap OneBlock := ⟨arraylistNew 1#64,fresh⟩

def oneOps : ℕ → ListOp
  | 0 => .add [7#8]
  | 1 => .add [8#8]
  | _ => .remove 0#64

def oneRun : ℕ → ListHeap OneBlock × List (List U8)
  | 0 => (oneStart,[])
  | 1 => (oneAdd oneStart 7#8,[[7#8]])
  | 2 => (oneAdd (oneAdd oneStart 7#8) 8#8,[[7#8],[8#8]])
  | _ => ((arraylistRemove oneCalls 5 0#64 (oneAdd (oneAdd oneStart 7#8) 8#8)).stateD oneStart,
      [[8#8]])

theorem oneStep_add {s : ListHeap OneBlock} {xs : List (List U8)} {v : U8}
    (hentry : s.list.entrySize = 1#64) (hgrow : s.list.CanGrow)
    (hadd : (arraylistAdd oneCalls s).returned = some s.list.size)
    (hstore : (storeEntry oneCalls s.list.size [v] ((arraylistAdd oneCalls s).stateD s)).returned =
      some ()) :
    ListStep oneCalls (s,xs) (.add [v]) (oneAdd s v,xs ++ [[v]]) :=
  .add (by rw [hentry]; rfl) hgrow (Outcome.eq_done_of_returned hadd _)
    (Outcome.eq_done_of_returned hstore _)

theorem oneRun_isRun : IsRun (ListStep oneCalls) 3 oneRun oneOps := by
  intro i hi
  interval_cases i
  · exact oneStep_add rfl (.inr (by decide)) (by decide +kernel) (by decide +kernel)
  · exact oneStep_add (by decide +kernel) (.inr (by decide +kernel)) (by decide +kernel)
      (by decide +kernel)
  · have hremove : (arraylistRemove oneCalls 5 0#64
        (oneAdd (oneAdd oneStart 7#8) 8#8)).returned = some true := by decide +kernel
    exact .remove (Outcome.eq_done_of_returned hremove _)

theorem oneRun_refines : oneSupply.Holds fresh 0 ∧ IsRun (ListStep oneCalls) 3 oneRun oneOps ∧
    entries oneCalls (oneRun 3).1 = [[8#8]] ∧ (oneRun 3).1.list.size.toNat = 1 := by
  have hheld : oneSupply.Holds fresh 0 := rfl
  obtain ⟨hentries,hsize,-⟩ := arraylist_refines oneSupply (by decide : 1 ≤ (1#64).toNat) hheld rfl
    oneRun_isRun 3 le_rfl _ _ rfl
  exact ⟨hheld,oneRun_isRun,hentries,hsize⟩

end OneBlock

end Lios

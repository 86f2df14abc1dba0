import Lios.Mem.VmallocRuns

/-! # Containment of heap blocks

The pages of a node are counted without the 24 bytes of its header, so its last sections
lie behind them. A block is inside the pages of its node exactly if its last section is
far enough from the end, and this can be told from the state before the call.
-/
namespace Lios
namespace Vmalloc
variable {E : Type} {calls : VmmCalls E}

section Contained
variable {sup : BlockSupply calls} {held : Multiset (U64 × U64)} {s t : Vmalloc E} {l : List U64}
  {bs : Finset HeapBlock} {b : HeapBlock} {x y : HeapSession E}

/-- The last section of the block ends inside the pages of its node. -/
def Ends (s : Vmalloc E) (b : HeapBlock) : Prop :=
  24 + (ceilU64Div (s.node b.node).bitmapSize 8#64).toNat +
      8 * (b.range.start + b.range.size) ≤
    (ceilU64Div (s.node b.node).totalSize pageSize).toNat * 4096

theorem Ends.congr (h : Ends s b) (hbits : (t.node b.node).bitmapSize = (s.node b.node).bitmapSize)
    (htotal : (t.node b.node).totalSize = (s.node b.node).totalSize) : Ends t b := by
  rw [Ends,hbits,htotal]
  exact h

/-- With enough fuel the search gives its answer. -/
theorem Accounts.exists_search {n : U64} {r : Option (U64 × U64)} (h : Accounts sup held s l bs)
    (hn : n.toNat + 8 < 2 ^ 64) (hr : s.Found (ceilU64Div (n + 8#64) 8#64) l r) :
    ∃ fuel, s.search (ceilU64Div (n + 8#64) 8#64) fuel fuel s.heapHead = some r := by
  have hlarge := h.heapList.large
  have hpos : 0 < (ceilU64Div (n + 8#64) 8#64).toNat := by
    rw [toNat_sectionsNeeded hn,sectionsFor]
    omega
  refine ⟨l.length + 2 ^ 35 + 1,?_⟩
  obtain ⟨hfuel,-⟩ | ⟨r',hsome,hfound⟩ := @search_eq _ _ _ _ (l.length + 2 ^ 35 + 1)
    (l.length + 2 ^ 35 + 1) _ h.linked hlarge hpos
  · rcases hfuel with hfuel | ⟨m,hm,hfuel⟩
    · omega
    · obtain ⟨k,hk⟩ := h.sized m hm
      have hsmall := hk.small
      rw [hk.bits] at hfuel
      omega
  · rw [hsome,hr.unique hfound]

/-- A condition on the answer of the search, as a condition on what the search returns. -/
theorem Accounts.search_iff {n : U64} {r : Option (U64 × U64)} {P : U64 → U64 → Prop} {Q : Prop}
    (h : Accounts sup held s l bs) (hn : n.toNat + 8 < 2 ^ 64)
    (hr : s.Found (ceilU64Div (n + 8#64) 8#64) l r) :
    ((∀ fuel m start, s.search (ceilU64Div (n + 8#64) 8#64) fuel fuel s.heapHead =
        some (some (m,start)) → P m start) ∧
      ∀ fuel, s.search (ceilU64Div (n + 8#64) 8#64) fuel fuel s.heapHead = some none → Q) ↔
    match r with
    | some (m,start) => P m start
    | none => Q := by
  have hanswer {fuel : ℕ} {r' : Option (U64 × U64)}
      (hs : s.search (ceilU64Div (n + 8#64) 8#64) fuel fuel s.heapHead = some r') : r' = r := by
    obtain ⟨-,hnone⟩ | ⟨r'',hsome,hfound⟩ := @search_eq _ _ _ _ fuel fuel _ h.linked
      h.heapList.large (show 0 < (ceilU64Div (n + 8#64) 8#64).toNat by
        rw [toNat_sectionsNeeded hn,sectionsFor]
        omega)
    · rw [hnone] at hs
      cases hs
    · rw [hsome] at hs
      rw [← Option.some.inj hs,hfound.unique hr]
  obtain ⟨fuel,hsearch⟩ := h.exists_search hn hr
  cases r with
  | none =>
    refine ⟨fun hroom => hroom.2 fuel hsearch,fun hends => ⟨fun _ _ _ hs => ?_,fun _ _ => hends⟩⟩
    cases hanswer hs
  | some x =>
    refine ⟨fun hroom => hroom.1 fuel _ _ hsearch,fun hends => ⟨fun _ _ _ hs => ?_,fun _ hs => ?_⟩⟩
    · obtain rfl := Option.some.inj (hanswer hs)
      exact hends
    · cases hanswer hs

/-- A property of a block that depends on the sizes of its node only, and the condition on the
state before a call under which the block of the call has the property. -/
structure LandingRule (D : Vmalloc E → HeapBlock → Prop) (R : Vmalloc E → U64 → Prop)
    (sup : BlockSupply calls) : Prop where
  congr : ∀ {s t b}, D s b → (t.node b.node).bitmapSize = (s.node b.node).bitmapSize →
    (t.node b.node).totalSize = (s.node b.node).totalSize → D t b
  lands : ∀ {held s t l bs n b}, Accounts sup held s l bs → Small n → Lands s l n b t →
    (D t b ↔ R s n)

section Rule
variable {D : Vmalloc E → HeapBlock → Prop} {R : Vmalloc E → U64 → Prop} {P : HeapSession E → Prop}

/-- A step keeps the property of all blocks exactly if it meets the condition. -/
theorem LandingRule.step {c : HeapCall} (hD : LandingRule D R sup)
    (hP : ∀ {x held l bs}, Accounted sup x held l bs → (P x ↔ ∀ b ∈ bs, D x.heap b))
    (h : Accounted sup x held l bs) (hs : HeapStep calls x c y) (hc : c.Small) (hx : P x) :
    P y ↔ ∀ n, c.asks = some n → R x.heap n := by
  obtain ⟨held',l',bs',hy,hev⟩ := hs.accounted h hc
  rw [hP h] at hx
  rw [hP hy]
  constructor
  · intro hblocks n hn
    obtain ⟨b,hb,hlands⟩ := hev.new n hn
    exact (hD.lands h.account (hc.of_asks hn) hlands).mp (hblocks b hb)
  · intro hguard b hb
    obtain ⟨hold,hbits,htotal⟩ | ⟨n,hn,hlands⟩ := hev.old b hb
    · exact hD.congr (hx b hold) hbits htotal
    · exact (hD.lands h.account (hc.of_asks hn) hlands).mpr (hguard n hn)

theorem LandingRule.run {s₀ : Vmalloc E} {n : ℕ} {st : ℕ → HeapSession E} {op : ℕ → HeapCall}
    (hD : LandingRule D R sup)
    (hP : ∀ {x held l bs}, Accounted sup x held l bs → (P x ↔ ∀ b ∈ bs, D x.heap b))
    (hhead : s₀.heapHead = 0#64) (htail : s₀.heapTail = 0#64) (hheld : sup.Held s₀.env held)
    (hinit : vmallocInit calls s₀ = .done () (st 0).heap) (hout : (st 0).out = 0)
    (hr : IsRun (HeapStep calls) n st op) (hop : ∀ i < n, (op i).Small) :
    (∀ i ≤ n, P (st i)) ↔ ∀ i < n, ∀ m, (op i).asks = some m → R (st i).heap m := by
  have h0 : (∃ held l bs, Accounted sup (st 0) held l bs) ∧ P (st 0) := by
    obtain ⟨addr,held',hacc⟩ := accounts_vmallocInit hhead htail hheld hinit
    have h : Accounted sup (st 0) held' [addr] ∅ := ⟨hacc,by rw [hout]; rfl⟩
    exact ⟨⟨held',[addr],∅,h⟩,(hP h).mpr (by simp)⟩
  -- the calls of the run are small, so this can be a part of its steps
  have hsmall : IsRun (fun x c y => HeapStep calls x c y ∧ c.Small) n st op :=
    fun i hi => ⟨hr i hi,hop i hi⟩
  refine hsmall.forall_iff_guards (I := fun x => (∃ held l bs, Accounted sup x held l bs) ∧ P x)
    (G := fun x c => ∀ m, c.asks = some m → R x.heap m) h0 (fun _ h => h.2) ?_ ?_
  · rintro x c y ⟨⟨held,l,bs,h⟩,hx⟩ ⟨hs,hc⟩ hguard
    obtain ⟨held',l',bs',h',-⟩ := hs.accounted h hc
    exact ⟨⟨held',l',bs',h'⟩,(hD.step hP h hs hc hx).mpr hguard⟩
  · rintro x c y ⟨⟨held,l,bs,h⟩,hx⟩ ⟨hs,hc⟩ hguard hy
    exact hguard ((hD.step hP h hs hc hx).mp hy)

end Rule

end Contained

end Vmalloc

end Lios

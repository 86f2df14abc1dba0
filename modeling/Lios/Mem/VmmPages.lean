import Lios.Lib.NodePage
import Lios.Mem.Vmm

/-! # Pages of list nodes

What the two set-up loops leave on a page: a row of empty nodes, each pointing to
the next, the first without predecessor. Nodes elsewhere are not touched.
-/
namespace Lios.Vmm
variable {E : Type} {calls : PageCalls E} {s s' : Vmm E} {p q : U64} {i j r : ℕ}

/-- The `j`-th of `k` empty free nodes on a page. -/
def freshFree (p : U64) (k j : ℕ) : VirtFreeListNode :=
  ⟨if j = 0 then 0#64 else cell 32 p (j - 1),if j + 1 = k then 0#64 else cell 32 p (j + 1),
    0#64,0#64⟩

/-- The `j`-th of `k` empty allocated nodes on a page. -/
def freshAlloc (p : U64) (k j : ℕ) : VirtAllocatedNode :=
  ⟨if j + 1 = k then 0#64 else cell 24 p (j + 1),0#64,0#64⟩

theorem cell32_ne (hi : i < 128) (hj : j < 128) (h : i ≠ j) : cell 32 p i ≠ cell 32 p j :=
  fun he => h (cell_inj (by decide) (by omega) (by omega) he)

theorem cell24_ne (hi : i < 169) (hj : j < 169) (h : i ≠ j) : cell 24 p i ≠ cell 24 p j :=
  fun he => h (cell_inj (by decide) (by omega) (by omega) he)

/-- The loop over the nodes of a page, from the `i`-th to the `k`-th. -/
theorem linkFreeNodes_spec {k : ℕ} (hk : k < 128) (hi : i + r = k) (s : Vmm E) :
    (linkFreeNodes r (cell 32 p i) s).vmmTail = cell 32 p k ∧
    (∀ q, (∀ j, i ≤ j → j ≤ k → q ≠ cell 32 p j) →
      (linkFreeNodes r (cell 32 p i) s).free q = s.free q) ∧
    (linkFreeNodes r (cell 32 p i) s).free (cell 32 p i) =
      { s.free (cell 32 p i) with next := if i = k then 0#64 else cell 32 p (i + 1) } ∧
    ∀ j, i < j → j ≤ k → (linkFreeNodes r (cell 32 p i) s).free (cell 32 p j) =
      freshFree p (k + 1) j := by
  induction r generalizing i s with
  | zero =>
    obtain rfl : i = k := by omega
    refine ⟨rfl,fun q hq => ?_,?_,fun j h₁ h₂ => by omega⟩
    · exact Function.update_of_ne (hq i le_rfl le_rfl) _ _
    · rw [if_pos rfl]
      exact Function.update_self _ _ _
  | succ r ih =>
    have hne : cell 32 p i ≠ cell 32 p (i + 1) := cell32_ne (by omega) (by omega) (by omega)
    rw [linkFreeNodes,show cell 32 p i + 32#64 = cell 32 p (i + 1) from cell_succ.symm]
    obtain ⟨htail,hout,hfirst,hrest⟩ := ih (i := i + 1) (by omega)
      (((s.setNext (cell 32 p i) (cell 32 p (i + 1))).setPrev (cell 32 p (i + 1))
        (cell 32 p i)).setBlock (cell 32 p (i + 1)) 0#64 0#64)
    refine ⟨htail,fun q hq => ?_,?_,fun j h₁ h₂ => ?_⟩
    · rw [hout q (fun j hj hj' => hq j (by omega) hj')]
      simp [setBlock,setPrev,setNext,modifyFree,hq i le_rfl (by omega),
        hq (i + 1) (by omega) (by omega)]
    · rw [hout _ (fun j hj hj' => cell32_ne (by omega) (by omega) (by omega)),if_neg (by omega)]
      simp [setBlock,setPrev,setNext,modifyFree,hne]
    · rcases Nat.eq_or_lt_of_le h₁ with h₁ | h₁
      · obtain rfl : i + 1 = j := h₁
        rw [hfirst]
        simp [setBlock,setPrev,modifyFree,freshFree]
      · exact hrest j h₁ h₂

theorem freeRounds : (floorU32Div 4096#32 32#32).toNat - 1 = 127 := by decide

theorem allocRounds : (floorU32Div 4096#32 24#32).toNat - 1 = 168 := by decide

/-- A page of 128 free nodes; the first keeps its block. -/
theorem setUpPageForFreeList_spec (p : U64) (s : Vmm E) :
    (setUpPageForFreeList p s).vmmTail = cell 32 p 127 ∧
    (∀ q, (∀ j < 128, q ≠ cell 32 p j) → (setUpPageForFreeList p s).free q = s.free q) ∧
    (setUpPageForFreeList p s).free p = { s.free p with prev := 0#64, next := cell 32 p 1 } ∧
    ∀ j, 0 < j → j < 128 → (setUpPageForFreeList p s).free (cell 32 p j) = freshFree p 128 j := by
  have h := linkFreeNodes_spec (p := p) (i := 0) (r := 127) (k := 127) (by decide) rfl
    (s.setPrev p 0#64)
  rw [cell_zero] at h
  obtain ⟨htail,hout,hfirst,hrest⟩ := h
  unfold setUpPageForFreeList
  rw [freeRounds]
  refine ⟨htail,fun q hq => ?_,?_,fun j h₁ h₂ => hrest j h₁ (by omega)⟩
  · rw [hout q (fun j _ hj => hq j (by omega))]
    exact Function.update_of_ne (cell_zero (d := 32) (p := p) ▸ hq 0 (by decide)) _ _
  · rw [hfirst]
    simp [setPrev,modifyFree]

theorem linkAllocNodes_spec {k : ℕ} (hk : k < 169) (hi : i + r = k) (s : Vmm E) :
    (∀ q, (∀ j, i ≤ j → j ≤ k → q ≠ cell 24 p j) →
      (linkAllocNodes r (cell 24 p i) s).alloc q = s.alloc q) ∧
    (linkAllocNodes r (cell 24 p i) s).alloc (cell 24 p i) =
      { s.alloc (cell 24 p i) with next := if i = k then 0#64 else cell 24 p (i + 1) } ∧
    ∀ j, i < j → j ≤ k → (linkAllocNodes r (cell 24 p i) s).alloc (cell 24 p j) =
      freshAlloc p (k + 1) j := by
  induction r generalizing i s with
  | zero =>
    obtain rfl : i = k := by omega
    refine ⟨fun q hq => ?_,?_,fun j h₁ h₂ => by omega⟩
    · exact Function.update_of_ne (hq i le_rfl le_rfl) _ _
    · rw [if_pos rfl]
      exact Function.update_self _ _ _
  | succ r ih =>
    have hne : cell 24 p i ≠ cell 24 p (i + 1) := cell24_ne (by omega) (by omega) (by omega)
    rw [linkAllocNodes,show cell 24 p i + 24#64 = cell 24 p (i + 1) from cell_succ.symm]
    obtain ⟨hout,hfirst,hrest⟩ := ih (i := i + 1) (by omega)
      ((s.modifyAlloc (cell 24 p i) fun x => { x with next := cell 24 p (i + 1) }).modifyAlloc
        (cell 24 p (i + 1)) fun x => { x with start := 0#64, size := 0#64 })
    refine ⟨fun q hq => ?_,?_,fun j h₁ h₂ => ?_⟩
    · rw [hout q (fun j hj hj' => hq j (by omega) hj')]
      simp [modifyAlloc,hq i le_rfl (by omega),hq (i + 1) (by omega) (by omega)]
    · rw [hout _ (fun j hj hj' => cell24_ne (by omega) (by omega) (by omega)),if_neg (by omega)]
      simp [modifyAlloc,hne]
    · rcases Nat.eq_or_lt_of_le h₁ with h₁ | h₁
      · obtain rfl : i + 1 = j := h₁
        rw [hfirst]
        simp [modifyAlloc,freshAlloc]
      · exact hrest j h₁ h₂

/-- A page of 169 allocated nodes. -/
theorem setUpPageForAllocList_spec (p : U64) (s : Vmm E) :
    (∀ q, (∀ j < 169, q ≠ cell 24 p j) → (setUpPageForAllocList p s).alloc q = s.alloc q) ∧
    ∀ j < 169, (setUpPageForAllocList p s).alloc (cell 24 p j) = freshAlloc p 169 j := by
  have h := linkAllocNodes_spec (p := p) (i := 0) (r := 168) (k := 168) (by decide) rfl
    (s.modifyAlloc p fun x => { x with start := 0#64, size := 0#64 })
  rw [cell_zero] at h
  obtain ⟨hout,hfirst,hrest⟩ := h
  unfold setUpPageForAllocList
  rw [allocRounds]
  refine ⟨fun q hq => ?_,fun j hj => ?_⟩
  · rw [hout q (fun j _ hj => hq j (by omega))]
    exact Function.update_of_ne (cell_zero (d := 24) (p := p) ▸ hq 0 (by decide)) _ _
  · rcases Nat.eq_zero_or_pos j with rfl | hpos
    · rw [cell_zero,hfirst]
      simp [modifyAlloc,freshAlloc]
    · exact hrest j hpos (by omega)

/-! The set-up loops change nothing else. -/

theorem linkFreeNodes_frame (r : ℕ) (cur : U64) (s : Vmm E) :
    (linkFreeNodes r cur s).alloc = s.alloc ∧ (linkFreeNodes r cur s).allocHead = s.allocHead ∧
    (linkFreeNodes r cur s).vmmHead = s.vmmHead ∧ (linkFreeNodes r cur s).freePages = s.freePages ∧
    (linkFreeNodes r cur s).env = s.env := by
  induction r generalizing cur s with
  | zero => exact ⟨rfl,rfl,rfl,rfl,rfl⟩
  | succ r ih => exact ih _ _

theorem linkAllocNodes_frame (r : ℕ) (cur : U64) (s : Vmm E) :
    (linkAllocNodes r cur s).free = s.free ∧ (linkAllocNodes r cur s).allocHead = s.allocHead ∧
    (linkAllocNodes r cur s).vmmHead = s.vmmHead ∧ (linkAllocNodes r cur s).vmmTail = s.vmmTail ∧
    (linkAllocNodes r cur s).freePages = s.freePages ∧ (linkAllocNodes r cur s).env = s.env := by
  induction r generalizing cur s with
  | zero => exact ⟨rfl,rfl,rfl,rfl,rfl,rfl⟩
  | succ r ih => exact ih _ _

theorem setUpPageForAllocList_frame (p : U64) (s : Vmm E) :
    (setUpPageForAllocList p s).free = s.free ∧
    (setUpPageForAllocList p s).allocHead = s.allocHead ∧
    (setUpPageForAllocList p s).vmmHead = s.vmmHead ∧
    (setUpPageForAllocList p s).vmmTail = s.vmmTail ∧
    (setUpPageForAllocList p s).freePages = s.freePages ∧
    (setUpPageForAllocList p s).env = s.env := by
  unfold setUpPageForAllocList
  exact linkAllocNodes_frame _ _ _

theorem setUpPageForFreeList_frame (p : U64) (s : Vmm E) :
    (setUpPageForFreeList p s).alloc = s.alloc ∧
    (setUpPageForFreeList p s).allocHead = s.allocHead ∧
    (setUpPageForFreeList p s).vmmHead = s.vmmHead ∧
    (setUpPageForFreeList p s).freePages = p :: s.freePages ∧
    (setUpPageForFreeList p s).env = s.env := by
  unfold setUpPageForFreeList
  generalize (floorU32Div 4096#32 32#32).toNat - 1 = r
  obtain ⟨ha,hh,hv,hp,he⟩ := linkFreeNodes_frame r p (s.setPrev p 0#64)
  exact ⟨ha,hh,hv,congrArg (p :: ·) hp,he⟩

theorem kcallocFreePage_eq_done : kcallocFreePage calls s = .done p s' ↔
    ∃ e, calls.kcallocPage s.env = .done p e ∧ s' = { s with
      env := e
      free := fun q => if (q - p).toNat < 4096 then ⟨0#64,0#64,0#64,0#64⟩ else s.free q } :=
  Lens.lift_assign_eq_done

theorem kcallocAllocPage_eq_done : kcallocAllocPage calls s = .done p s' ↔
    ∃ e, calls.kcallocPage s.env = .done p e ∧ s' = { s with
      env := e
      alloc := fun q => if (q - p).toNat < 4096 then ⟨0#64,0#64,0#64⟩ else s.alloc q } :=
  Lens.lift_assign_eq_done

theorem kcallocFreePage_panic {msg : String} {e : E} (h : calls.kcallocPage s.env = .panic msg e) :
    kcallocFreePage calls s = .panic msg ((envLens E).set e s) := by
  rw [kcallocFreePage,Lens.lift,show (envLens E).get s = s.env from rfl,h]
  rfl

/-- The state that `vmm_init` leaves: one page of free nodes, whose first holds all
addresses, and one page of allocated nodes. -/
theorem vmmInit_spec (hdone : vmmInit calls s = .done () s') :
    ∃ p q e e', calls.kcallocPage s.env = .done p e ∧ calls.kcallocPage e = .done q e' ∧
      s'.env = e' ∧ s'.freePages = p :: s.freePages ∧ s'.vmmHead = p ∧
      s'.vmmTail = cell 32 p 127 ∧ s'.allocHead = q ∧
      s'.free p = ⟨0#64,cell 32 p 1,freeVirtStart,freeVirtEnd - freeVirtStart⟩ ∧
      (∀ j, 0 < j → j < 128 → s'.free (cell 32 p j) = freshFree p 128 j) ∧
      ∀ j < 169, s'.alloc (cell 24 q j) = freshAlloc q 169 j := by
  unfold vmmInit at hdone
  obtain ⟨p,_,hk,hdone⟩ := Outcome.bind_eq_done.mp hdone
  obtain ⟨e,he,rfl⟩ := kcallocFreePage_eq_done.mp hk
  extract_lets s₁ s₂ at hdone
  obtain ⟨q,_,hk,hdone⟩ := Outcome.bind_eq_done.mp hdone
  obtain ⟨e',he',rfl⟩ := kcallocAllocPage_eq_done.mp hk
  obtain ⟨-,rfl⟩ := Outcome.done.inj hdone
  obtain ⟨htail,-,hfirst,hpage⟩ := setUpPageForFreeList_spec p s₁
  obtain ⟨-,-,hhead,hpages,henv⟩ := setUpPageForFreeList_frame p s₁
  obtain ⟨hfree,hah,hh,ht,hp,hv⟩ := setUpPageForAllocList_frame q
    ({ s₂ with env := e', allocHead := q, alloc := fun r =>
      if (r - q).toNat < 4096 then ⟨0#64,0#64,0#64⟩ else s₂.alloc r } : Vmm E)
  obtain ⟨-,halloc⟩ := setUpPageForAllocList_spec q
    ({ s₂ with env := e', allocHead := q, alloc := fun r =>
      if (r - q).toNat < 4096 then ⟨0#64,0#64,0#64⟩ else s₂.alloc r } : Vmm E)
  have hkcalloc : calls.kcallocPage e = .done q e' := by
    rw [← henv.trans (show s₁.env = e from rfl)]
    exact he'
  refine ⟨p,q,e,e',he,hkcalloc,hv,?_,?_,?_,hah,?_,fun j h0 hj => ?_,halloc⟩
  · rw [hp]
    exact hpages
  · rw [hh]
    exact hhead
  · rw [ht]
    exact htail
  · rw [hfree]
    refine hfirst.trans ?_
    simp [s₁,setBlock,modifyFree]
  · rw [hfree]
    exact hpage j h0 hj

end Lios.Vmm

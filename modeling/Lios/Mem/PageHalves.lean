import Mathlib.Tactic.IntervalCases
import Lios.Lib.Runs
import Lios.Mem.PageMap

/-! # The halves of the address space

The processor lets a user program through an entry only if its USER bit is set, on every
level. `page_map` gives the bit to new links and to the leaf, and leaves the links that it
finds as they are. Since the tables are a tree and user pages are mapped only in the lower
half, no table is below entries of both kinds, and the bits never mix.
-/
namespace Lios.Paging
variable {A : Type} {fa : FrameAllocator A} {s s' : Paging A} {kernel : Bool}

/-- The entry is present. -/
abbrev Present (e : U64) : Prop := entryQueryFlag e pml4ePdpePdePresent = true

/-- The entry lets user programs through. -/
abbrev User (e : U64) : Prop := entryQueryFlag e pml4ePdpePdeUser = true

theorem user_iff (e : U64) : User e ↔ e.getLsbD 2 = true := by
  have hmask : ∀ i < 64, pml4ePdpePdeUser.getLsbD i = decide (i = 2) := by decide
  rw [User,entryQueryFlag,beq_iff_eq]
  constructor
  · intro h
    have hbit := congrArg (fun x : U64 => x.getLsbD 2) h
    simp only [BitVec.getLsbD_and,hmask 2 (by decide)] at hbit
    simpa using hbit
  · intro h
    refine BitVec.eq_of_getLsbD_eq fun i hi => ?_
    rw [BitVec.getLsbD_and,hmask i hi]
    by_cases hi2 : i = 2
    · simp [hi2,h]
    · simp [hi2]

theorem user_linkFlags (e : U64) : User (linkFlags kernel e) ↔ kernel = false := by
  have huser : pml4ePdpePdeUser.getLsbD 2 = true := by decide
  rw [user_iff]
  cases kernel with
  | true =>
    rw [linkFlags,if_pos rfl,entryUnsetFlag,BitVec.getLsbD_and,BitVec.getLsbD_not,huser]
    simp
  | false =>
    rw [linkFlags,if_neg (by decide),entrySetFlag,BitVec.getLsbD_or,huser]
    simp

theorem user_leafEntry (phys : PhysicalAddress) (e : U64) :
    User (leafEntry kernel phys e) ↔ kernel = false := user_linkFlags (pteSetAddr e phys)

theorem not_present_zero : ¬ Present 0#64 := by decide

/-- The path begins in the lower half of the PML4. -/
def Lower (q : List TableIndex) : Prop := ∀ i ∈ q.head?, i.toNat < 256

/-- The present entries on lower paths have the USER bit. An entry in the upper half of the
PML4 has it only if it is not present and had it at the start. -/
structure Separated (old : TableIndex → Prop) (s : Paging A) : Prop where
  tree : IsTree s
  lower : ∀ q t j, q.length ≤ 3 → follow s.child s.pml4Addr q = some t → Lower (q ++ [j]) →
    Present (s.table t j) → User (s.table t j)
  upper : ∀ i : TableIndex, 256 ≤ i.toNat → User (s.table s.pml4Addr i) →
    ¬ Present (s.table s.pml4Addr i) ∧ old i

section Separated
variable {old : TableIndex → Prop} {q : List TableIndex} {tbl : U64} {i : TableIndex}
  {f : PhysicalAddress}

theorem root_path (ht : IsTree s) (hq : q.length ≤ 3)
    (h : follow s.child s.pml4Addr q = some s.pml4Addr) : q = [] :=
  ht q [] s.pml4Addr hq (Nat.zero_le _) h follow_nil

/-- A link with the flags of its half. -/
theorem Separated.linkTable (h : Separated old s) (hp : follow s.child s.pml4Addr q = some tbl)
    (hlen : q.length < 3) (habs : s.child tbl i = none) (hf : FreshFrame s f)
    (hside : Lower (q ++ [i]) ↔ kernel = false) : Separated old (linkTable kernel tbl i f s) := by
  have hout {t : U64} {p : List TableIndex} (hl : p.length ≤ 3)
      (ht : follow s.child s.pml4Addr p = some t) : t ≠ f + kernelOffset := by
    rintro rfl
    exact hf.outside (isTable_of_follow hl ht)
  have htbl := hout (by omega) hp
  have hnew : (Paging.linkTable kernel tbl i f s).table tbl i = linkFlags kernel (entrySetAddr
      ((s.zeroPage (f + kernelOffset)).table tbl i) (f + kernelOffset - kernelOffset)) :=
    setEntry_table_self ..
  refine ⟨isTree_linkTable h.tree hp hlen habs hf,fun p t j hl hpt hlow hpres => ?_,
    fun k hk huser => ?_⟩
  · rw [linkTable_pml4Addr,follow_linkTable h.tree hp hlen habs hf hl] at hpt
    split at hpt
    · -- the new table is empty
      obtain rfl := Option.some.inj hpt
      rw [linkTable_table_fresh htbl] at hpres
      exact absurd hpres not_present_zero
    · by_cases hti : t = tbl ∧ j = i
      · obtain ⟨rfl,rfl⟩ := hti
        obtain rfl := h.tree p q t hl (by omega) hpt hp
        rw [hnew,user_linkFlags]
        exact hside.mp hlow
      · rw [linkTable_table_of_ne (hout hl hpt) hti] at hpres ⊢
        exact h.lower p t j hl hpt hlow hpres
  · rw [linkTable_pml4Addr] at huser ⊢
    by_cases hti : s.pml4Addr = tbl ∧ k = i
    · obtain ⟨rfl,rfl⟩ := hti
      obtain rfl := root_path h.tree (by omega) hp
      rw [hnew,user_linkFlags,← hside] at huser
      have := huser k rfl
      omega
    · rw [linkTable_table_of_ne (hout (Nat.zero_le _) follow_nil) hti] at huser ⊢
      exact h.upper k hk huser

/-- A leaf entry that is absent or has the flags of its half. -/
theorem Separated.setLeaf {virt pt e : U64} (h : Separated old s)
    (hp : follow s.child s.pml4Addr (pathOf virt) = some pt)
    (he : Lower (pathOf virt) → Present e → User e) :
    Separated old (s.setEntry pt (virtAddrGetPte virt) e) := by
  have hlen : (pathOf virt).length = 3 := rfl
  refine ⟨isTree_setLeaf h.tree hp _,fun p t j hl hpt hlow hpres => ?_,fun k hk huser => ?_⟩
  · rw [setEntry_pml4Addr,follow_setLeaf h.tree hp _ hl] at hpt
    by_cases hti : t = pt ∧ j = virtAddrGetPte virt
    · obtain ⟨rfl,rfl⟩ := hti
      obtain rfl := h.tree p (pathOf virt) t hl hlen.le hpt hp
      rw [setEntry_table_self] at hpres ⊢
      exact he hlow hpres
    · rw [setEntry_table_of_ne _ _ hti] at hpres ⊢
      exact h.lower p t j hl hpt hlow hpres
  · rw [setEntry_pml4Addr] at huser ⊢
    have hti : ¬ (s.pml4Addr = pt ∧ k = virtAddrGetPte virt) := by
      rintro ⟨rfl,-⟩
      have := root_path h.tree hlen.le hp
      rw [this] at hlen
      cases hlen
    rw [setEntry_table_of_ne _ _ hti] at huser ⊢
    exact h.upper k hk huser

theorem Separated.withFrames (h : Separated old s) (a : A) : Separated old { s with frames := a } :=
  ⟨h.tree,h.lower,h.upper⟩

/-- The next `n` frames, if the allocator returns them, are fresh for tables outside `used`. -/
def GivesFresh (fa : FrameAllocator A) : (U64 → Prop) → ℕ → A → Prop
  | _,0,_ => True
  | used,n + 1,a => ∀ f a', fa.allocLow a = .done f a' → f &&& addrMask = f ∧
      ¬ used (f + kernelOffset) ∧ GivesFresh fa (fun t => used t ∨ t = f + kernelOffset) n a'

theorem GivesFresh.anti {used used' : U64 → Prop} {n : ℕ} {a : A} (h : GivesFresh fa used n a)
    (hsub : ∀ t, used' t → used t) : GivesFresh fa used' n a := by
  induction n generalizing used used' a with
  | zero => trivial
  | succ n ih =>
    intro f a' ha
    obtain ⟨hal,hout,hrest⟩ := h f a' ha
    exact ⟨hal,fun hf => hout (hsub _ hf),ih hrest fun t ht => ht.imp_left (hsub t)⟩

theorem GivesFresh.of_succ {used : U64 → Prop} {n : ℕ} {a : A}
    (h : GivesFresh fa used (n + 1) a) : GivesFresh fa used n a := by
  induction n generalizing used a with
  | zero => trivial
  | succ n ih =>
    intro f a' ha
    obtain ⟨hal,hout,hrest⟩ := h f a' ha
    exact ⟨hal,hout,ih hrest⟩

/-- One level of `page_map` on a path of its half. -/
theorem Separated.nextTable {t : U64} {n : ℕ} (h : Separated old s)
    (hp : follow s.child s.pml4Addr q = some tbl) (hlen : q.length < 3)
    (hside : Lower (q ++ [i]) ↔ kernel = false) (hfresh : GivesFresh fa s.InTree (n + 1) s.frames)
    (hdone : Paging.nextTable fa kernel tbl i s = .done t s') :
    Separated old s' ∧ follow s'.child s'.pml4Addr (q ++ [i]) = some t ∧
      s'.pml4Addr = s.pml4Addr ∧ GivesFresh fa s'.InTree n s'.frames := by
  cases hc : s.child tbl i with
  | some u =>
    rw [nextTable_of_some hc] at hdone
    obtain ⟨rfl,rfl⟩ := Outcome.done.inj hdone
    exact ⟨h,(follow_snoc_of_some hp).trans hc,rfl,hfresh.of_succ⟩
  | none =>
    obtain ⟨f,a,ha,rfl,rfl⟩ := (nextTable_eq_done_of_none hc).mp hdone
    obtain ⟨hal,hout,hrest⟩ := hfresh f a ha
    have hf : FreshFrame { s with frames := a } f := ⟨hal,hout⟩
    have h' := h.withFrames a
    refine ⟨h'.linkTable hp hlen hc hf hside,?_,rfl,hrest.anti fun t ht => ?_⟩
    · refine (follow_linkTable h'.tree hp hlen hc hf ?_).trans (if_pos rfl)
      rw [List.length_append,List.length_singleton]
      omega
    · exact inTree_linkTable h'.tree hp hlen hc hf ht

theorem Separated.pageMap {virt : U64} {phys : PhysicalAddress} (h : Separated old s)
    (hside : Lower (pathOf virt) ↔ kernel = false) (hfresh : GivesFresh fa s.InTree 3 s.frames)
    (hdone : Paging.pageMap fa virt phys kernel s = .done () s') :
    Separated old s' ∧ s'.pml4Addr = s.pml4Addr := by
  obtain ⟨pdpt,s₁,pdt,s₂,pt,s₃,h₁,h₂,h₃,rfl⟩ := pageMap_eq_done hdone
  obtain ⟨hs₁,hp₁,hr₁,hf₁⟩ := h.nextTable follow_nil (by decide) hside hfresh h₁
  obtain ⟨hs₂,hp₂,hr₂,hf₂⟩ := hs₁.nextTable hp₁ (by simp) hside hf₁ h₂
  obtain ⟨hs₃,hp₃,hr₃,-⟩ := hs₂.nextTable hp₂ (by simp) hside hf₂ h₃
  have hpath : follow s₃.child s₃.pml4Addr (pathOf virt) = some pt := hp₃
  refine ⟨hs₃.setLeaf hpath fun hlow _ => (user_leafEntry _ _).mpr (hside.mp hlow),?_⟩
  rw [setEntry_pml4Addr,hr₃,hr₂,hr₁]

theorem Separated.pageUnmap {virt : U64} (h : Separated old s)
    (hdone : Paging.pageUnmap fa virt s = .done () s') :
    Separated old s' ∧ s'.pml4Addr = s.pml4Addr := by
  obtain ⟨-,rfl⟩ | ⟨pt,a,hp,-,-,rfl⟩ := pageUnmap_eq_done hdone
  · exact ⟨h,rfl⟩
  split
  · exact ⟨(h.withFrames a).setLeaf hp fun _ hpres => absurd hpres not_present_zero,rfl⟩
  · exact ⟨h.withFrames a,rfl⟩

end Separated

theorem toNat_virtAddrGetPml4e (virt : U64) :
    (virtAddrGetPml4e virt).toNat = virt.toNat / 2 ^ 39 % 512 := by
  rw [virtAddrGetPml4e,BitVec.toNat_setWidth,BitVec.toNat_and,BitVec.toNat_ushiftRight,
    Nat.shiftRight_eq_div_pow,show (0x1FF#64).toNat = 2 ^ 9 - 1 from rfl,Nat.and_two_pow_sub_one_eq_mod]
  omega

/-- The entries that a walk to `virt` reads, up to the first that is not present. -/
def walkEntries (s : Paging A) (virt : U64) : List U64 :=
  let pml4e := s.table s.pml4Addr (virtAddrGetPml4e virt)
  pml4e :: if !pml4eQueryFlag pml4e pml4ePdpePdePresent then [] else
  let pdpe := s.table (pml4eGetAddr pml4e + kernelOffset) (virtAddrGetPdpe virt)
  pdpe :: if !pdpeQueryFlag pdpe pml4ePdpePdePresent then [] else
  let pde := s.table (pdpeGetAddr pdpe + kernelOffset) (virtAddrGetPde virt)
  pde :: if !pdeQueryFlag pde pml4ePdpePdePresent then [] else
  [s.table (pdeGetAddr pde + kernelOffset) (virtAddrGetPte virt)]

/-- A user program can access the page of `virt`: the entries of all four levels are present
and let it through. -/
def UserMapped (s : Paging A) (virt : U64) : Prop :=
  (s.walkEntries virt).length = 4 ∧ ∀ e ∈ s.walkEntries virt, Present e ∧ User e

end Lios.Paging

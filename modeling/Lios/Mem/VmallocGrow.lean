import Lios.Mem.VmallocAccounts

/-! # Allocation

A call of `vmalloc` takes the first row of free sections that is long enough. Without
one it adds a node and asks again for eight bytes more, so it takes the beginning of
that node, or, if the node is just full, adds a second node and takes its beginning.
-/
namespace Lios

namespace Vmalloc
variable {E : Type} {calls : VmmCalls E} {sup : BlockSupply calls} {held : Multiset (U64 × U64)}
  {s t : Vmalloc E} {l : List U64} {bs : Finset HeapBlock}

/-- The sections that a call for `n` bytes looks for. -/
def sectionsFor (n : ℕ) : ℕ := (n + 15) / 8

theorem toNat_sectionsNeeded {size : U64} (h : size.toNat + 8 < 2 ^ 64) :
    (ceilU64Div (size + 8#64) 8#64).toNat = sectionsFor size.toNat := by
  rw [toNat_ceilU64Div (by decide),BitVec.toNat_add,show (8#64).toNat = 8 from rfl,sectionsFor]
  omega

/-- One level of `vmalloc`: the fuel runs out, a row was found and is handed out, or
there is none and a node is added. -/
theorem Accounts.vmalloc_cases (h : Accounts sup held s l bs) (fuel : ℕ) (size : U64)
    (hsize : size.toNat + 8 < 2 ^ 64) :
    ((fuel ≤ l.length ∨ ∃ n ∈ l, fuel ≤ (s.node n).bitmapSize.toNat) ∧
      vmalloc calls (fuel + 1) size s = .spin) ∨
    (∃ n start t, s.Found (ceilU64Div (size + 8#64) 8#64) l (some (n,start)) ∧
      vmalloc calls (fuel + 1) size s =
        .done (t.pointer ⟨n,⟨start.toNat,sectionsFor size.toNat⟩⟩) t ∧
      Accounts sup held t l (insert ⟨n,⟨start.toNat,sectionsFor size.toNat⟩⟩ bs) ∧
      (⟨n,⟨start.toNat,sectionsFor size.toNat⟩⟩ : HeapBlock) ∉ bs ∧ SameNodes s t) ∨
    (s.Found (ceilU64Div (size + 8#64) 8#64) l none ∧
      vmalloc calls (fuel + 1) size s =
        (Vmalloc.addBlock calls (ceilU64Div (size + 8#64) 4032#64 * 504#64) s).bind fun _ s =>
          vmalloc calls fuel (size + 8#64) s) := by
  have hneeded := toNat_sectionsNeeded hsize
  have hpos : 0 < (ceilU64Div (size + 8#64) 8#64).toNat := by
    rw [hneeded,sectionsFor]
    omega
  obtain ⟨o,ho⟩ : ∃ o, o = vmalloc calls (fuel + 1) size s := ⟨_,rfl⟩
  have hlevel := @HeapList.level _ calls _ _ h.heapList fuel _ hpos
  rw [← ho] at hlevel ⊢
  cases hlevel with
  | short hfuel => exact .inl ⟨hfuel,rfl⟩
  | @endless n start hfound hmark =>
    -- the nodes of the account are too small for this
    obtain ⟨k,hk⟩ := h.sized n hfound.mem
    have hend := hfound.fits.1
    have hsmall := hk.small
    rw [hk.bits] at hend
    exact absurd (.inr (by omega)) hmark
  | @found n start t hfound hmark ht =>
    obtain ⟨hacc,hnew,hptr⟩ := h.place hfound.mem hpos hfound.fits ht rfl
    rw [hneeded] at hacc hnew hptr
    exact .inr (.inl ⟨n,start,t,hfound,by rw [hptr],hacc,hnew,ht.same⟩)
  | grows hfound => exact .inr (.inr ⟨hfound,rfl⟩)

/-- A search that no earlier node can answer finds the beginning of a new node, if
that is large enough. -/
theorem Found.of_fresh {a needed needed' : U64} {r : Option (U64 × U64)}
    (h : s.Found needed' (l ++ [a]) r) (hold : ∀ n ∈ l, s.Answers needed n none)
    (hle : needed.toNat ≤ needed'.toNat)
    (hfree : ∀ j < (s.node a).bitmapSize.toNat, bitAt (s.node a).mem j = false) :
    (needed'.toNat ≤ (s.node a).bitmapSize.toNat ∧ r = some (a,0#64)) ∨
      ((s.node a).bitmapSize.toNat < needed'.toNat ∧ r = none) := by
  cases r with
  | none =>
    have hlast : s.Answers needed' a none := h a (by simp)
    rcases hlast.of_free hfree with ⟨-,hr⟩ | ⟨hlt,-⟩
    · cases hr
    · exact .inr ⟨hlt,rfl⟩
  | some x =>
    obtain ⟨n,b⟩ := x
    obtain ⟨l₁,l₂,hl,-,hfit⟩ := h
    have hn : n ∈ l ++ [a] := by
      rw [hl]
      exact List.mem_append_right _ List.mem_cons_self
    rcases List.mem_append.mp hn with hn | hn
    · exact absurd hfit.1 ((hold n hn).mono hle b.toNat)
    · obtain rfl := List.mem_singleton.mp hn
      rcases hfit.of_free hfree with ⟨hle,hb⟩ | ⟨-,hb⟩
      · exact .inl ⟨hle,by rw [show b = 0#64 from BitVec.eq_of_toNat_eq (Option.some.inj hb)]⟩
      · cases hb

/-- The bitmap of a node for `n` bytes has an index of 32 bits. -/
def Small (n : U64) : Prop := (n.toNat + 16 + 4031) / 4032 * 504 < 2 ^ 35

/-- The node that a call for `n` bytes ends up with when there is no room, as a multiple of 504
sections, and how many of its sections it takes. -/
def retryFor (n : ℕ) : ℕ × ℕ :=
  let k := (n + 8 + 4031) / 4032
  if sectionsFor (n + 8) ≤ 504 * k then (k,sectionsFor (n + 8)) else (k + 1,sectionsFor (n + 16))

theorem retryFor_of_le {n : ℕ} (h : sectionsFor (n + 8) ≤ 504 * ((n + 8 + 4031) / 4032)) :
    retryFor n = ((n + 8 + 4031) / 4032,sectionsFor (n + 8)) := if_pos h

theorem retryFor_of_lt {n : ℕ} (h : 504 * ((n + 8 + 4031) / 4032) < sectionsFor (n + 8)) :
    retryFor n = ((n + 8 + 4031) / 4032 + 1,sectionsFor (n + 16)) := if_neg (by omega)

/-- If the first new node is too small, the next one has 504 sections more. -/
theorem next_request {n : ℕ} (h : 504 * ((n + 8 + 4031) / 4032) < sectionsFor (n + 8)) :
    (n + 8 + 8 + 4031) / 4032 = (n + 8 + 4031) / 4032 + 1 := by
  rw [sectionsFor] at h
  omega

theorem sectionsFor_le_retryFor (n : ℕ) : sectionsFor (n + 8) ≤ (retryFor n).2 := by
  simp only [retryFor]
  by_cases h : sectionsFor (n + 8) ≤ 504 * ((n + 8 + 4031) / 4032)
  · rw [if_pos h]
  · rw [if_neg h]
    simp only [sectionsFor]
    omega

/-- Where a call for `n` bytes puts its block. -/
def Lands (s : Vmalloc E) (l : List U64) (n : U64) (b : HeapBlock) (t : Vmalloc E) : Prop :=
  (∃ start, s.Found (ceilU64Div (n + 8#64) 8#64) l (some (b.node,start)) ∧
    b.range = ⟨start.toNat,sectionsFor n.toNat⟩ ∧
    (t.node b.node).bitmapSize = (s.node b.node).bitmapSize ∧
    (t.node b.node).totalSize = (s.node b.node).totalSize) ∨
  (s.Found (ceilU64Div (n + 8#64) 8#64) l none ∧
    Sized (t.node b.node) (retryFor n.toNat).1 ∧ b.range = ⟨0,(retryFor n.toNat).2⟩)

/-- The new account after an allocation. -/
structure Allocated (sup : BlockSupply calls) (s : Vmalloc E) (l : List U64)
    (bs : Finset HeapBlock) (n p : U64) (t : Vmalloc E) (held' : Multiset (U64 × U64))
    (l' : List U64) (b : HeapBlock) : Prop where
  account : Accounts sup held' t l' (insert b bs)
  fresh : b ∉ bs
  pointer : p = t.pointer b
  lands : Lands s l n b t
  bits : ∀ m ∈ l, (t.node m).bitmapSize = (s.node m).bitmapSize
  total : ∀ m ∈ l, (t.node m).totalSize = (s.node m).totalSize

theorem toNat_add_eight {n : U64} (h : n.toNat + 8 < 2 ^ 64) :
    (n + 8#64).toNat = n.toNat + 8 := by
  rw [BitVec.toNat_add,show (8#64).toNat = 8 from rfl]
  omega

/-- The second search asks for no less than the first. -/
theorem sectionsNeeded_le_next {n : U64} (h : n.toNat + 16 < 2 ^ 64) :
    (ceilU64Div (n + 8#64) 8#64).toNat ≤ sectionsFor (n + 8#64).toNat := by
  rw [toNat_sectionsNeeded (by omega),toNat_add_eight (by omega),sectionsFor,sectionsFor]
  omega

theorem toNat_wantedSections {n : U64} (h : n.toNat + 8 < 2 ^ 64) :
    (ceilU64Div (n + 8#64) 4032#64 * 504#64).toNat = 504 * ((n.toNat + 8 + 4031) / 4032) := by
  have hdiv : (ceilU64Div (n + 8#64) 4032#64).toNat = (n.toNat + 8 + 4031) / 4032 := by
    rw [toNat_ceilU64Div (by decide),toNat_add_eight (by omega)]
    rfl
  rw [BitVec.toNat_mul,hdiv,show (504#64).toNat = 504 from rfl]
  omega

/-- A call after a node was added: the block is at the beginning of that node, or the
node is too small and one more is added. -/
theorem Accounts.vmalloc_fresh {a n needed p : U64} {k fuel : ℕ}
    (h : Accounts sup held s (l ++ [a]) bs) (hn : n.toNat + 8 < 2 ^ 64)
    (hold : ∀ m ∈ l, s.Answers needed m none) (hle : needed.toNat ≤ sectionsFor n.toNat)
    (hk : Sized (s.node a) k) (hfree : ∀ j < 504 * k, bitAt (s.node a).mem j = false)
    (hdone : Vmalloc.vmalloc calls fuel n s = .done p t) :
    (sectionsFor n.toNat ≤ 504 * k ∧
      Accounts sup held t (l ++ [a]) (insert ⟨a,⟨0,sectionsFor n.toNat⟩⟩ bs) ∧
      (⟨a,⟨0,sectionsFor n.toNat⟩⟩ : HeapBlock) ∉ bs ∧
      p = t.pointer ⟨a,⟨0,sectionsFor n.toNat⟩⟩ ∧ SameNodes s t) ∨
    (504 * k < sectionsFor n.toNat ∧
      (∀ m ∈ l ++ [a], s.Answers (ceilU64Div (n + 8#64) 8#64) m none) ∧
      ∃ fuel u, Vmalloc.addBlock calls (ceilU64Div (n + 8#64) 4032#64 * 504#64) s = .done () u ∧
        Vmalloc.vmalloc calls fuel (n + 8#64) u = .done p t) := by
  cases fuel with
  | zero => cases hdone
  | succ fuel =>
    have hneeded := toNat_sectionsNeeded hn
    have hfresh {r : Option (U64 × U64)} (hr : s.Found _ (l ++ [a]) r) :=
      hr.of_fresh hold (by rw [hneeded]; exact hle) (by rw [hk.bits]; exact hfree)
    rw [hneeded,hk.bits] at hfresh
    obtain ⟨-,hspin⟩ | ⟨m,start,u,hfound,heq,hacc,hnew,hsame⟩ | ⟨hfound,heq⟩ :=
      h.vmalloc_cases fuel n hn
    · rw [hspin] at hdone
      cases hdone
    · obtain ⟨hroom,hr⟩ | ⟨-,hr⟩ := hfresh hfound
      · obtain ⟨rfl,rfl⟩ := Prod.mk.inj (Option.some.inj hr)
        rw [heq] at hdone
        obtain ⟨rfl,rfl⟩ := Outcome.done.inj hdone
        exact .inl ⟨hroom,hacc,hnew,rfl,hsame⟩
      · cases hr
    · obtain ⟨-,hr⟩ | ⟨hroom,-⟩ := hfresh hfound
      · cases hr
      · rw [heq] at hdone
        obtain ⟨_,u,hadd,hdone⟩ := Outcome.bind_eq_done.mp hdone
        exact .inr ⟨hroom,hfound,fuel,u,hadd,hdone⟩

/-- A call of `vmalloc` that returns accounts for one more block. -/
theorem Accounts.vmalloc {n p : U64} {fuel : ℕ} (h : Accounts sup held s l bs) (hsmall : Small n)
    (hdone : Vmalloc.vmalloc calls fuel n s = .done p t) :
    ∃ held' l' b, Allocated sup s l bs n p t held' l' b := by
  have hbound : (n.toNat + 16 + 4031) / 4032 * 504 < 2 ^ 35 := hsmall
  have hn8 : (n + 8#64).toNat = n.toNat + 8 := toNat_add_eight (by omega)
  have hn16 : (n + 8#64 + 8#64).toNat = n.toNat + 16 := by rw [toNat_add_eight (by omega),hn8]
  cases fuel with
  | zero => cases hdone
  | succ fuel =>
    obtain ⟨-,hspin⟩ | ⟨m,start,u,hfound,heq,hacc,hnew,hsame⟩ | ⟨hnone,heq⟩ :=
      h.vmalloc_cases fuel n (by omega)
    · rw [hspin] at hdone
      cases hdone
    · rw [heq] at hdone
      obtain ⟨rfl,rfl⟩ := Outcome.done.inj hdone
      exact ⟨held,l,_,hacc,hnew,rfl,.inl ⟨start,hfound,rfl,hsame.bits m,hsame.total m⟩,
        fun m _ => hsame.bits m,fun m _ => hsame.total m⟩
    rw [heq] at hdone
    obtain ⟨_,s₁,hadd,hdone⟩ := Outcome.bind_eq_done.mp hdone
    obtain ⟨a,held₁,h₁,ha,hk,hfree,hkept,-⟩ :=
      h.addBlock (by omega) (by omega) (toNat_wantedSections (by omega)) hadd
    have hold : ∀ m ∈ l, s₁.Answers (ceilU64Div (n + 8#64) 8#64) m none :=
      fun m hm => (hkept.answers hm).mpr (hnone m hm)
    obtain ⟨hroom,hacc,hnew,hp,hsame⟩ | ⟨hfull,hnone₁,fuel₁,s₂,hadd₁,hdone⟩ :=
      h₁.vmalloc_fresh (by omega) hold (sectionsNeeded_le_next (by omega)) hk hfree hdone
    · rw [hn8] at hroom hacc hnew hp
      have hretry := retryFor_of_le hroom
      refine ⟨held₁,_,_,hacc,hnew,hp,.inr ⟨hnone,?_,by rw [hretry]⟩,fun m hm => ?_,fun m hm => ?_⟩
      · rw [hretry]
        exact hk.congr (hsame.bits a) (hsame.total a)
      · rw [hsame.bits,hkept.bits m hm]
      · rw [hsame.total,hkept.total m hm]
    · rw [hn8] at hfull
      have hretry := retryFor_of_lt hfull
      have hnext := next_request hfull
      have hw₁ := toNat_wantedSections (n := n + 8#64) (by omega)
      rw [hn8,hnext] at hw₁
      obtain ⟨a₁,held₂,h₂,ha₁,hk₁,hfree₁,hkept₁,-⟩ := h₁.addBlock (by omega) (by omega) hw₁ hadd₁
      obtain ⟨-,hacc,hnew,hp,hsame⟩ | ⟨hfull₁,-⟩ := h₂.vmalloc_fresh (by omega)
        (fun m hm => (hkept₁.answers hm).mpr (hnone₁ m hm)) (sectionsNeeded_le_next (by omega))
        hk₁ hfree₁ hdone
      · rw [hn16] at hacc hnew hp
        refine ⟨held₂,_,_,hacc,hnew,hp,.inr ⟨hnone,?_,by rw [hretry]⟩,fun m hm => ?_,
          fun m hm => ?_⟩
        · rw [hretry]
          exact hk₁.congr (hsame.bits a₁) (hsame.total a₁)
        · rw [hsame.bits,hkept₁.bits m (List.mem_append_left _ hm),hkept.bits m hm]
        · rw [hsame.total,hkept₁.total m (List.mem_append_left _ hm),hkept.total m hm]
      · rw [hn16,sectionsFor] at hfull₁
        omega

end Vmalloc

end Lios

import Lios.Mem.Pmm

/-! # Reserving a range of physical memory

`pmm_clear_blocks` looks for the last frame that ends before the range and for the first one that
begins behind it, and links the node of the first to the node after the second. The frame behind
the range is lost with those in it. If one of the two does not exist, no frame is taken out at
all. So the range is reserved exactly only if all frames lie before it or all lie behind it.
-/
namespace Lios.Pmm
variable {s t : Pmm} {start stop p q : U64} {l hs : List U64} {fuel : ℕ}

/-- The loop of `pmm_clear_blocks`, which ends with `start_node` and `end_node`. -/
def clearScan (s : Pmm) (start stop : U64) : ℕ → U64 → U64 → Option (U64 × U64)
  | 0,_,_ => none
  | fuel + 1,cur,startNode =>
    if cur = 0#64 then some (startNode,0#64)
    else
      let startNode := if s.addr cur ≤ start - pageSize then cur else startNode
      if stop ≤ s.addr cur then some (startNode,cur)
      else clearScan s start stop fuel (s.next cur) startNode

def pmmClearBlocks (fuel : ℕ) (start stop : U64) (s : Pmm) : Outcome Pmm Unit :=
  match clearScan s start stop fuel s.pmmHigh 0#64 with
  | none => .spin
  | some (startNode,endNode) =>
    if startNode = 0#64 ∨ endNode = 0#64 then .done () s
    else .done () (s.setNext startNode (s.next endNode))

/-- The frame does not intersect the range. -/
def Spared (start stop a : U64) : Prop :=
  a.toNat + 4096 ≤ start.toNat ∨ stop.toNat ≤ a.toNat

instance (start stop a : U64) : Decidable (Spared start stop a) :=
  inferInstanceAs (Decidable (_ ∨ _))

section Scan

theorem le_sub_pageSize_iff {a : U64} (h : 4096 ≤ start.toNat) :
    a ≤ start - pageSize ↔ a.toNat + 4096 ≤ start.toNat := by
  have hle : pageSize ≤ start := BitVec.le_def.mpr h
  rw [BitVec.le_def,BitVec.toNat_sub_of_le hle,show pageSize.toNat = 4096 from rfl]
  omega

/-- Frames before the range are passed, and the last of them is kept. -/
theorem clearScan_before (hstart : 4096 ≤ start.toNat) (hlt : start.toNat < stop.toNat)
    (hs : Segment s.next p l q) (h0 : 0#64 ∉ l)
    (hl : ∀ n ∈ l, (s.addr n).toNat + 4096 ≤ start.toNat) (n : U64) :
    clearScan s start stop (fuel + l.length) p n = clearScan s start stop fuel q (l.getLastD n) := by
  induction l generalizing p n with
  | nil =>
    obtain rfl : p = q := hs
    rfl
  | cons x l ih =>
    obtain ⟨rfl,hs⟩ := segment_cons.mp hs
    rw [List.mem_cons,not_or] at h0
    have hx := hl p List.mem_cons_self
    have hnot : ¬ stop ≤ s.addr p := by
      rw [BitVec.le_def]
      omega
    rw [List.length_cons,← Nat.add_assoc,clearScan,if_neg (Ne.symm h0.1),
      if_pos ((le_sub_pageSize_iff hstart).mpr hx),if_neg hnot,
      ih hs h0.2 (fun m hm => hl m (List.mem_cons_of_mem _ hm)),List.getLastD_cons]

/-- Frames in the range are passed. -/
theorem clearScan_inside (hstart : 4096 ≤ start.toNat) (hs : Segment s.next p l q) (h0 : 0#64 ∉ l)
    (hl : ∀ n ∈ l, ¬ Spared start stop (s.addr n)) (n : U64) :
    clearScan s start stop (fuel + l.length) p n = clearScan s start stop fuel q n := by
  induction l generalizing p with
  | nil =>
    obtain rfl : p = q := hs
    rfl
  | cons x l ih =>
    obtain ⟨rfl,hs⟩ := segment_cons.mp hs
    rw [List.mem_cons,not_or] at h0
    have hx := hl p List.mem_cons_self
    rw [Spared,not_or] at hx
    rw [List.length_cons,← Nat.add_assoc,clearScan,if_neg (Ne.symm h0.1),
      if_neg fun h => hx.1 ((le_sub_pageSize_iff hstart).mp h),
      if_neg fun h => hx.2 (BitVec.le_def.mp h),
      ih hs h0.2 fun m hm => hl m (List.mem_cons_of_mem _ hm)]

/-- The first frame behind the range ends the loop. -/
theorem clearScan_behind (hstart : 4096 ≤ start.toNat) (hlt : start.toNat < stop.toNat)
    (h : Linked 0#64 s.next p l) (hl : ∀ n ∈ l, stop.toNat ≤ (s.addr n).toNat) (n : U64) :
    clearScan s start stop (fuel + 1) p n = some (n,l.headD 0#64) := by
  cases l with
  | nil =>
    obtain rfl := linked_nil.mp h
    rfl
  | cons x l =>
    obtain ⟨rfl,hne,-⟩ := linked_cons.mp h
    have hx := hl p List.mem_cons_self
    have hnot : ¬ s.addr p ≤ start - pageSize := by
      rw [le_sub_pageSize_iff hstart]
      omega
    rw [clearScan,if_neg hne,if_neg hnot,if_pos (BitVec.le_def.mpr hx)]
    rfl

end Scan

/-- The frames before, in and behind the range. -/
structure Split (s : Pmm) (start stop : U64) (a m b : List U64) : Prop where
  before : ∀ n ∈ a, (s.addr n).toNat + 4096 ≤ start.toNat
  inside : ∀ n ∈ m, ¬ Spared start stop (s.addr n)
  behind : ∀ n ∈ b, stop.toNat ≤ (s.addr n).toNat

/-- A list in ascending order falls into these three parts. -/
theorem exists_split (start stop : U64)
    (h : hs.Pairwise fun n m => (s.addr n).toNat ≤ (s.addr m).toNat) :
    ∃ a m b, hs = a ++ m ++ b ∧ Split s start stop a m b := by
  induction hs with
  | nil => exact ⟨[],[],[],rfl,by simp,by simp,by simp⟩
  | cons x l ih =>
    obtain ⟨hx,hl⟩ := List.pairwise_cons.mp h
    obtain ⟨a,m,b,rfl,hsplit⟩ := ih hl
    by_cases hbefore : (s.addr x).toNat + 4096 ≤ start.toNat
    · refine ⟨x :: a,m,b,rfl,fun n hn => ?_,hsplit.inside,hsplit.behind⟩
      rcases List.mem_cons.mp hn with rfl | hn
      · exact hbefore
      · exact hsplit.before n hn
    · obtain rfl : a = [] := List.eq_nil_iff_forall_not_mem.mpr fun n hn => by
        have hle := hx n (List.mem_append_left _ (List.mem_append_left _ hn))
        have hn := hsplit.before n hn
        omega
      by_cases hbehind : stop.toNat ≤ (s.addr x).toNat
      · obtain rfl : m = [] := List.eq_nil_iff_forall_not_mem.mpr fun n hn => by
          have hle := hx n (List.mem_append_left _ (List.mem_append_right _ hn))
          exact hsplit.inside n hn (.inr (hbehind.trans hle))
        refine ⟨[],[],x :: b,rfl,by simp,by simp,fun n hn => ?_⟩
        rcases List.mem_cons.mp hn with rfl | hn
        · exact hbehind
        · exact hsplit.behind n hn
      · refine ⟨[],x :: m,b,rfl,by simp,fun n hn => ?_,hsplit.behind⟩
        rcases List.mem_cons.mp hn with rfl | hn
        · exact fun hsp => hsp.elim hbefore hbehind
        · exact hsplit.inside n hn

section Clear
variable {a m b : List U64}

theorem Split.filter (h : Split s start stop a m b) :
    (((a ++ m ++ b).map s.addr).filter fun x => Spared start stop x) = (a ++ b).map s.addr := by
  rw [List.map_append,List.map_append,List.map_append,List.filter_append,List.filter_append]
  congr 1
  · rw [List.filter_eq_self.mpr,List.filter_eq_nil_iff.mpr,List.append_nil]
    · intro x hx
      obtain ⟨n,hn,rfl⟩ := List.mem_map.mp hx
      rw [decide_eq_true_iff]
      exact h.inside n hn
    · intro x hx
      obtain ⟨n,hn,rfl⟩ := List.mem_map.mp hx
      exact decide_eq_true (.inl (h.before n hn))
  · refine List.filter_eq_self.mpr fun x hx => ?_
    obtain ⟨n,hn,rfl⟩ := List.mem_map.mp hx
    exact decide_eq_true (.inr (h.behind n hn))

theorem Split.clearScan (h : Split s start stop a m b) (hstart : 4096 ≤ start.toNat)
    (hlt : start.toNat < stop.toNat) (hh : High s (a ++ m ++ b))
    (hfuel : (a ++ m ++ b).length < fuel) :
    clearScan s start stop fuel s.pmmHigh 0#64 = some (a.getLastD 0#64,b.headD 0#64) := by
  obtain ⟨q,ham,hb⟩ := hh.of_append
  obtain ⟨p,ha,hm⟩ := segment_append.mp ham
  have h0 := hh.2
  simp only [List.mem_append,not_or] at h0
  rw [List.length_append,List.length_append] at hfuel
  obtain ⟨f,rfl⟩ : ∃ f, fuel = f + 1 + m.length + a.length :=
    ⟨fuel - (a.length + m.length) - 1,by omega⟩
  rw [clearScan_before hstart hlt ha h0.1.1 h.before,clearScan_inside hstart hm h0.1.2 h.inside,
    clearScan_behind hstart hlt hb h.behind]

theorem Split.all_iff (h : Split s start stop a m b) (hlt : start.toNat < stop.toNat) :
    ((∀ n ∈ a ++ m ++ b, (s.addr n).toNat + 4096 ≤ start.toNat) ∨
      ∀ n ∈ a ++ m ++ b, stop.toNat ≤ (s.addr n).toNat) ↔ m = [] ∧ (a = [] ∨ b = []) := by
  constructor
  · rintro (hall | hall)
    · refine ⟨?_,.inr ?_⟩
      · exact List.eq_nil_iff_forall_not_mem.mpr fun n hn =>
          h.inside n hn (.inl (hall n (by simp [hn])))
      · refine List.eq_nil_iff_forall_not_mem.mpr fun n hn => ?_
        have hbefore := hall n (by simp [hn])
        have hbehind := h.behind n hn
        omega
    · refine ⟨?_,.inl ?_⟩
      · exact List.eq_nil_iff_forall_not_mem.mpr fun n hn =>
          h.inside n hn (.inr (hall n (by simp [hn])))
      · refine List.eq_nil_iff_forall_not_mem.mpr fun n hn => ?_
        have hbehind := hall n (by simp [hn])
        have hbefore := h.before n hn
        omega
  · rintro ⟨rfl,rfl | rfl⟩
    · exact .inr h.behind
    · rw [List.append_nil,List.append_nil]
      exact .inl h.before

/-- Without a frame on one side of the range nothing is taken out. -/
theorem Split.pmmClearBlocks_nil (h : Split s start stop a m b) (hstart : 4096 ≤ start.toNat)
    (hlt : start.toNat < stop.toNat) (hh : High s (a ++ m ++ b))
    (hfuel : (a ++ m ++ b).length < fuel) (hnil : a = [] ∨ b = []) :
    pmmClearBlocks fuel start stop s = .done () s := by
  rw [pmmClearBlocks,h.clearScan hstart hlt hh hfuel]
  refine if_pos (hnil.imp (fun ha => ?_) fun hb => ?_)
  · rw [ha]
    rfl
  · rw [hb]
    rfl

/-- With frames on both sides the first frame behind the range is lost. -/
theorem Split.pmmClearBlocks_cons {x y : U64} (h : Split s start stop (a ++ [x]) m (y :: b))
    (hstart : 4096 ≤ start.toNat) (hlt : start.toNat < stop.toNat)
    (hh : High s (a ++ [x] ++ m ++ y :: b))
    (hfuel : (a ++ [x] ++ m ++ y :: b).length < fuel) :
    ∃ t, pmmClearBlocks fuel start stop s = .done () t ∧ High t (a ++ x :: b) ∧
      t.addr = s.addr := by
  have hx : x ≠ 0#64 := by
    rintro rfl
    exact hh.2 (by simp)
  have hy : y ≠ 0#64 := by
    rintro rfl
    exact hh.2 (by simp)
  refine ⟨s.setNext x (s.next y),?_,?_,addr_setNext s x _⟩
  · rw [pmmClearBlocks,h.clearScan hstart hlt hh hfuel,List.getLastD_concat]
    exact if_neg (not_or.mpr ⟨hx,hy⟩)
  · have hlist : a ++ [x] ++ m ++ y :: b = a ++ x :: (m ++ y :: b) := by simp
    rw [hlist] at hh
    have hnext : (s.setNext x (s.next y)).next = Function.update s.next x (s.next y) := by
      funext n
      by_cases hn : n = x
      · rw [hn,next_setNext_self,Function.update_self]
      · rw [next_setNext_of_ne s _ hn,Function.update_of_ne hn]
    unfold High
    rw [hnext]
    exact hh.splice

end Clear

/-- The range is reserved exactly if and only if all frames lie before it or all lie behind it. -/
theorem pmmClearBlocks_exact_iff (hh : High s hs)
    (hsorted : hs.Pairwise fun n m => (s.addr n).toNat ≤ (s.addr m).toNat)
    (hstart : 4096 ≤ start.toNat) (hlt : start.toNat < stop.toNat) (hfuel : hs.length < fuel) :
    (∃ t l, pmmClearBlocks fuel start stop s = .done () t ∧ High t l ∧
        l.map t.addr = (hs.map s.addr).filter fun x => Spared start stop x) ↔
      (∀ n ∈ hs, (s.addr n).toNat + 4096 ≤ start.toNat) ∨
        ∀ n ∈ hs, stop.toNat ≤ (s.addr n).toNat := by
  obtain ⟨a,m,b,rfl,hsplit⟩ := exists_split start stop hsorted
  rw [hsplit.filter,hsplit.all_iff hlt]
  constructor
  · rintro ⟨t,l,hdone,hl,hframes⟩
    by_cases hnil : a = [] ∨ b = []
    · rw [hsplit.pmmClearBlocks_nil hstart hlt hh hfuel hnil] at hdone
      obtain ⟨-,rfl⟩ := Outcome.done.inj hdone
      obtain rfl := hl.unique hh
      have hlen := congrArg List.length hframes
      simp only [List.length_map,List.length_append] at hlen
      exact ⟨List.eq_nil_of_length_eq_zero (by omega),hnil⟩
    · rw [not_or] at hnil
      obtain ⟨a,x,rfl⟩ : ∃ a' x, a = a' ++ [x] := by
        rcases List.eq_nil_or_concat a with ha | ⟨a',x,ha⟩
        · exact absurd ha hnil.1
        · exact ⟨a',x,ha.trans List.concat_eq_append⟩
      obtain ⟨y,b,rfl⟩ := List.exists_cons_of_ne_nil hnil.2
      obtain ⟨t',hdone',hl',-⟩ := hsplit.pmmClearBlocks_cons hstart hlt hh hfuel
      rw [hdone'] at hdone
      obtain ⟨-,rfl⟩ := Outcome.done.inj hdone
      obtain rfl := hl.unique hl'
      have hlen := congrArg List.length hframes
      simp only [List.length_map,List.length_append,List.length_cons] at hlen
      omega
  · rintro ⟨rfl,hnil⟩
    refine ⟨s,a ++ b,hsplit.pmmClearBlocks_nil hstart hlt hh hfuel hnil,?_,rfl⟩
    rw [List.append_nil] at hh
    exact hh

/-- Three frames in a row, above 2 GiB. -/
def threeFrames : Pmm where
  node p := if p = 0x1000#64 then ⟨0x1010#64,0x80000000#64⟩
    else if p = 0x1010#64 then ⟨0x1020#64,0x80001000#64⟩
    else if p = 0x1020#64 then ⟨0#64,0x80002000#64⟩ else ⟨0#64,0#64⟩
  pmmLow := 0#64
  pmmHigh := 0x1000#64
  pmmFreeList := 0#64

theorem high_threeFrames : High threeFrames [0x1000#64,0x1010#64,0x1020#64] :=
  ⟨⟨rfl,rfl,rfl,rfl⟩,by decide⟩

theorem split_threeFrames : Split threeFrames 0x80001000#64 0x80002000#64 ([] ++ [0x1000#64])
    [0x1010#64] [0x1020#64] := by
  refine ⟨fun n hn => ?_,fun n hn => ?_,fun n hn => ?_⟩
  · rw [List.mem_singleton.mp hn]
    decide
  · rw [List.mem_singleton.mp hn]
    decide
  · rw [List.mem_singleton.mp hn]
    decide

theorem sorted_threeFrames : [0x1000#64,0x1010#64,0x1020#64].Pairwise fun n m =>
    (threeFrames.addr n).toNat ≤ (threeFrames.addr m).toNat := by
  decide +kernel

/-- A range behind all frames leaves them alone. -/
theorem threeFrames_clear_behind :
    ∃ t l, pmmClearBlocks 4 0xFD000000#64 0xFD300000#64 threeFrames = .done () t ∧ High t l ∧
      l.map t.addr = ([0x1000#64,0x1010#64,0x1020#64].map threeFrames.addr).filter fun x =>
        Spared 0xFD000000#64 0xFD300000#64 x := by
  refine (pmmClearBlocks_exact_iff high_threeFrames sorted_threeFrames (by decide) (by decide)
    (by decide)).mpr (.inl fun n hn => ?_)
  simp only [List.mem_cons,List.not_mem_nil,or_false] at hn
  rcases hn with rfl | rfl | rfl
  · decide
  · decide
  · decide

/-- Reserving the second of three frames loses the third. -/
theorem threeFrames_clear_second : High threeFrames [0x1000#64,0x1010#64,0x1020#64] ∧
    ([0x1000#64,0x1010#64,0x1020#64].Pairwise fun n m =>
      (threeFrames.addr n).toNat ≤ (threeFrames.addr m).toNat) ∧
    ¬ ∃ t l, pmmClearBlocks 4 0x80001000#64 0x80002000#64 threeFrames = .done () t ∧ High t l ∧
      l.map t.addr = ([0x1000#64,0x1010#64,0x1020#64].map threeFrames.addr).filter fun x =>
        Spared 0x80001000#64 0x80002000#64 x := by
  refine ⟨high_threeFrames,sorted_threeFrames,?_⟩
  rintro ⟨t,l,hdone,hl,hframes⟩
  have hfuel : ([0x1000#64,0x1010#64,0x1020#64] : List U64).length < 4 := by decide
  obtain ⟨t',hdone',hl',-⟩ := split_threeFrames.pmmClearBlocks_cons (by decide) (by decide)
    high_threeFrames hfuel
  rw [hdone'] at hdone
  obtain ⟨-,rfl⟩ := Outcome.done.inj hdone
  obtain rfl := hl.unique hl'
  have hlen := congrArg List.length (hframes.trans split_threeFrames.filter)
  simp at hlen

end Lios.Pmm

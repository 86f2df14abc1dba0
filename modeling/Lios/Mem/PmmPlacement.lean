import Lios.Mem.PmmLists

/-! # Where the nodes and frames lie

The loops of `pmm_add_block` compare only the beginning of the next node or frame with
the end of the block, and after the last node the frames are listed from that node on.
So a node or a frame can reach over the end of its block, and the first frame can hold
the last node. Both can be told before each call from the block, the number of nodes
still to be placed and the number of nodes without a frame.
-/
namespace Lios
namespace Layout

/-- Where the frames of a block are listed from, if it comes to that. -/
def listFrom (L : Layout) (b : ℕ × ℕ) : Option ℕ :=
  if L.needed = 0 then some b.1
  else if (steps b.1 b.2 16).length < L.needed then none
  else some (b.1 + 16 * (L.needed - 1))

/-- The number of nodes without a frame. -/
def unfilled (L : Layout) : ℕ := L.nodes.length + L.needed - L.frames.length

/-- The nodes end inside the block: it has room for all that are needed, or it is cut into
nodes without a rest. -/
def NodesFit (L : Layout) (b : ℕ × ℕ) : Prop :=
  L.needed = 0 ∨ 16 * L.needed ≤ b.2 - b.1 ∨ 16 ∣ b.2 - b.1

/-- The frames do not come to a page that is only begun in the block. -/
def NoOverhang (L : Layout) (b : ℕ × ℕ) (x : ℕ) : Prop :=
  4096 ∣ b.2 ∨ b.2 ≤ pageUp x ∨ pageUp x + 4096 * L.unfilled ≤ b.2

def FramesFit (L : Layout) (b : ℕ × ℕ) : Prop := ∀ x ∈ L.listFrom b, L.NoOverhang b x

/-- The last node ends before the first frame, and no node lies in the rest of a page that
is only begun in the block. -/
def Clear (L : Layout) (b : ℕ × ℕ) : Prop :=
  ∀ x ∈ L.listFrom b, (L.needed = 0 ∨ b.2 ≤ pageUp x ∨ x + 16 ≤ pageUp x) ∧
    (L.NoOverhang b x ∨ ∀ p ∈ (L.add b).nodes, p + 16 ≤ b.2 ∨ pageUp b.2 ≤ p)

/-- Each block of the list has the property in the layout before it. -/
def Each (P : Layout → ℕ × ℕ → Prop) : Layout → List (ℕ × ℕ) → Prop
  | _, [] => True
  | L, b :: bs => P L b ∧ Each P (L.add b) bs

instance (L : Layout) (b : ℕ × ℕ) : Decidable (L.NodesFit b) :=
  inferInstanceAs (Decidable (_ ∨ _ ∨ _))

instance (L : Layout) (b : ℕ × ℕ) (x : ℕ) : Decidable (L.NoOverhang b x) :=
  inferInstanceAs (Decidable (_ ∨ _ ∨ _))

instance (L : Layout) (b : ℕ × ℕ) : Decidable (L.FramesFit b) :=
  inferInstanceAs (Decidable (∀ x ∈ L.listFrom b, L.NoOverhang b x))

instance (L : Layout) (b : ℕ × ℕ) : Decidable (L.Clear b) :=
  inferInstanceAs (Decidable (∀ x ∈ L.listFrom b, _ ∧ _))

instance decidableEach (P : Layout → ℕ × ℕ → Prop) [∀ L b, Decidable (P L b)] :
    ∀ L bs, Decidable (Each P L bs)
  | _, [] => inferInstanceAs (Decidable True)
  | L, b :: bs =>
    haveI := decidableEach P (L.add b) bs
    inferInstanceAs (Decidable (P L b ∧ Each P (L.add b) bs))

variable {L : Layout} {b : ℕ × ℕ} {bs : List (ℕ × ℕ)}

theorem frames_add (L : Layout) (b : ℕ × ℕ) :
    (L.add b).frames = L.frames ++ (L.listFrom b).elim [] fun x => steps (pageUp x) b.2 4096 := by
  unfold add listFrom
  split
  · rfl
  · split
    · exact (List.append_nil _).symm
    · rfl

theorem unlisted_add (h : L.needed ≠ 0 → L.frames = []) :
    (L.add b).needed ≠ 0 → (L.add b).frames = [] := by
  unfold add
  split
  · exact fun hne => absurd ‹_› hne
  · rename_i hz
    split
    · exact fun _ => h hz
    · exact fun hne => absurd rfl hne

theorem slots_fit_iff {m : ℕ} : (∀ p ∈ (steps b.1 b.2 16).take m, p + 16 ≤ b.2) ↔
    m = 0 ∨ 16 * m ≤ b.2 - b.1 ∨ 16 ∣ b.2 - b.1 := by
  rw [take_steps_fit_iff (by decide)]
  omega

theorem noOverhang_iff {x : ℕ} : L.NoOverhang b x ↔
    ∀ f ∈ (steps (pageUp x) b.2 4096).take L.unfilled, f + 4096 ≤ b.2 := by
  have hx := dvd_pageUp x
  rw [take_steps_fit_iff (by decide),NoOverhang]
  omega

section Blocks
variable {all : List (ℕ × ℕ)} {p w : ℕ}

/-- What begins in a block can only lie inside this one. -/
theorem inside_iff (hdisj : all.Pairwise fun b c => ¬ Meet b c) (hb : b ∈ all) (hlo : b.1 ≤ p)
    (hhi : p < b.2) (hw : 0 < w) : Inside all p w ↔ p + w ≤ b.2 := by
  constructor
  · rintro ⟨c,hc,hlo',hhi'⟩
    have hsymm : Std.Symm fun b c : ℕ × ℕ => ¬ Meet b c :=
      ⟨fun _ _ h ⟨x,hx,hx'⟩ => h ⟨x,hx',hx⟩⟩
    by_cases hbc : b = c
    · rw [hbc]
      exact hhi'
    · exact absurd ⟨p,⟨hlo,hhi⟩,hlo',by omega⟩ (hdisj.forall hb hc hbc)
  · exact fun h => ⟨b,hb,hlo,h⟩

theorem le_of_mem_listFrom {x : ℕ} (hx : x ∈ L.listFrom b) : b.1 ≤ x := by
  unfold listFrom at hx
  split at hx
  · obtain rfl := Option.some.inj hx
    exact le_rfl
  · split at hx
    · cases hx
    · obtain rfl := Option.some.inj hx
      exact Nat.le_add_right _ _

/-- All nodes lie inside the blocks exactly if each block has them inside. -/
theorem nodes_inside_iff (hdisj : all.Pairwise fun b c => ¬ Meet b c) (hsub : ∀ b ∈ bs, b ∈ all) :
    (∀ p ∈ (L.addAll bs).nodes, Inside all p 16) ↔
      (∀ p ∈ L.nodes, Inside all p 16) ∧ Each NodesFit L bs := by
  induction bs generalizing L with
  | nil => exact ⟨fun h => ⟨h,trivial⟩,fun h => h.1⟩
  | cons b bs ih =>
    have hslots : (∀ p ∈ (steps b.1 b.2 16).take L.needed, Inside all p 16) ↔ L.NodesFit b := by
      rw [NodesFit,← slots_fit_iff]
      refine forall₂_congr fun p hp => ?_
      obtain ⟨k,-,hk,hlt⟩ := (mem_take_steps (by decide)).mp hp
      exact inside_iff hdisj (hsub b List.mem_cons_self) (by omega) hlt (by decide)
    change (∀ p ∈ ((L.add b).addAll bs).nodes, _) ↔ _
    rw [ih fun c hc => hsub c (List.mem_cons_of_mem _ hc),nodes_add,List.forall_mem_append,hslots,
      Each,and_assoc]

/-- All frames that a node gets lie inside the blocks exactly if none of the blocks is left in
the middle of a page. -/
theorem frames_inside_iff {n : ℕ} (hdisj : all.Pairwise fun b c => ¬ Meet b c)
    (hsub : ∀ b ∈ bs, b ∈ all) (hn : L.nodes.length + L.needed = n) :
    (∀ f ∈ (L.addAll bs).frames.take n, Inside all f 4096) ↔
      (∀ f ∈ L.frames.take n, Inside all f 4096) ∧ Each FramesFit L bs := by
  induction bs generalizing L with
  | nil => exact ⟨fun h => ⟨h,trivial⟩,fun h => h.1⟩
  | cons b bs ih =>
    have hpages : (∀ f ∈ ((L.listFrom b).elim [] fun x => steps (pageUp x) b.2 4096).take
        (n - L.frames.length), Inside all f 4096) ↔ L.FramesFit b := by
      rw [← hn]
      cases hx : L.listFrom b with
      | none => simp [FramesFit,hx]
      | some x =>
        have hbx := le_of_mem_listFrom hx
        simp only [FramesFit,hx,Option.elim_some,Option.mem_def,Option.some.injEq,forall_eq']
        rw [noOverhang_iff]
        refine forall₂_congr fun f hf => ?_
        obtain ⟨-,hle,hlt⟩ := mem_frames_of_block (List.mem_of_mem_take hf)
        exact inside_iff hdisj (hsub b List.mem_cons_self) (by omega) hlt (by decide)
    change (∀ f ∈ ((L.add b).addAll bs).frames.take n, _) ↔ _
    rw [ih (fun c hc => hsub c (List.mem_cons_of_mem _ hc)) ((L.length_add b).trans hn),frames_add,
      List.take_append,List.forall_mem_append,hpages,Each,and_assoc]

/-- No node has a byte in one of the blocks. -/
def Before (L : Layout) (bs : List (ℕ × ℕ)) : Prop :=
  ∀ p ∈ L.nodes, ∀ b ∈ bs, ¬ Meet (p,p + 16) b

theorem Before.add (h : L.Before (b :: bs)) (hb : ∀ c ∈ bs, ¬ Meet b c) (hfit : L.NodesFit b) :
    (L.add b).Before bs := by
  intro p hp c hc
  rw [nodes_add] at hp
  rcases List.mem_append.mp hp with hp | hp
  · exact h p hp c (List.mem_cons_of_mem _ hc)
  · rintro ⟨x,⟨hlo,hhi⟩,hx⟩
    have hle := slots_fit_iff.mpr hfit p hp
    obtain ⟨k,-,hk,-⟩ := (mem_take_steps (by decide)).mp hp
    exact hb c hc ⟨x,⟨by dsimp only at hlo; omega,by dsimp only at hhi; omega⟩,hx⟩

/-- A node outside a block is apart from everything inside it. -/
theorem apart_of_not_meet {q v : ℕ} (h : ¬ Meet (p,p + 16) b) (hlo : b.1 ≤ q) (hhi : q + v ≤ b.2)
    (hv : 0 < v) : p + 16 ≤ q ∨ q + v ≤ p := by
  by_contra hno
  exact h ⟨max p q,⟨le_max_left p q,(by omega : max p q < p + 16)⟩,by omega,by omega⟩

/-- Nodes that fit into disjoint blocks do not overlap. -/
theorem nodes_apart (hdisj : bs.Pairwise fun b c => ¬ Meet b c) (hbefore : L.Before bs)
    (hfit : Each NodesFit L bs) (h : L.nodes.Pairwise fun p q => p + 16 ≤ q ∨ q + 16 ≤ p) :
    (L.addAll bs).nodes.Pairwise fun p q => p + 16 ≤ q ∨ q + 16 ≤ p := by
  induction bs generalizing L with
  | nil => exact h
  | cons b bs ih =>
    obtain ⟨hb,hdisj⟩ := List.pairwise_cons.mp hdisj
    obtain ⟨hfit,hrest⟩ := hfit
    refine ih hdisj (hbefore.add hb hfit) hrest ?_
    rw [nodes_add]
    refine List.pairwise_append.mpr ⟨h,(pairwise_steps.sublist (List.take_sublist _ _)).imp .inl,
      fun p hp q hq => ?_⟩
    have hle := slots_fit_iff.mpr hfit q hq
    obtain ⟨k,-,hk,-⟩ := (mem_take_steps (by decide)).mp hq
    exact apart_of_not_meet (hbefore p hp b List.mem_cons_self) (by omega) hle (by decide)

/-- The nodes of the block in which the listing of frames begins end with the one at its
beginning. -/
theorem slots_of_listFrom {x : ℕ} (hx : x ∈ L.listFrom b) (hz : L.needed ≠ 0) :
    x ∈ (steps b.1 b.2 16).take L.needed ∧
      ∀ p ∈ (steps b.1 b.2 16).take L.needed, p = x ∨ p + 16 ≤ x := by
  rw [listFrom,if_neg hz] at hx
  split at hx
  · cases hx
  rename_i hmany
  obtain rfl := Option.some.inj hx
  have hlen : (steps b.1 b.2 16).length = (b.2 - b.1 + 15) / 16 := length_steps
  refine ⟨(mem_take_steps (by decide)).mpr ⟨L.needed - 1,by omega,rfl,by omega⟩,fun p hp => ?_⟩
  obtain ⟨k,hk,rfl,-⟩ := (mem_take_steps (by decide)).mp hp
  omega

/-- The frames listed in one call meet no node exactly if the call is clear of them. -/
theorem clear_iff (hbefore : L.Before [b])
    (hnil : L.needed ≠ 0 → L.frames = []) :
    (∀ f ∈ ((L.listFrom b).elim [] fun x => steps (pageUp x) b.2 4096).take L.unfilled,
      ∀ p ∈ (L.add b).nodes, f + 4096 ≤ p ∨ p + 16 ≤ f) ↔ L.Clear b := by
  cases hx : L.listFrom b with
  | none => simp [Clear,hx]
  | some x =>
    have hbx := le_of_mem_listFrom hx
    have hxp := le_pageUp x
    simp only [Clear,hx,Option.elim_some,Option.mem_def,Option.some.injEq,forall_eq']
    -- a frame that reaches over the end of the block ends with the page
    have hover {f : ℕ} (hf : f ∈ (steps (pageUp x) b.2 4096).take L.unfilled)
        (hlong : ¬ f + 4096 ≤ b.2) : f + 4096 = pageUp b.2 := by
      obtain ⟨hdvd,-,hlt⟩ := mem_frames_of_block (List.mem_of_mem_take hf)
      rw [pageUp]
      omega
    constructor
    · intro h
      constructor
      · by_contra hno
        obtain ⟨hz,hlt,hshort⟩ : L.needed ≠ 0 ∧ ¬ b.2 ≤ pageUp x ∧ ¬ x + 16 ≤ pageUp x := by
          simpa only [not_or] using hno
        have hopen : 0 < L.unfilled := by
          rw [unfilled,hnil hz,List.length_nil]
          omega
        have hfirst := h (pageUp x) ((mem_take_steps (by decide)).mpr ⟨0,hopen,by omega,by omega⟩) x (by
          rw [nodes_add]
          exact List.mem_append_right _ (slots_of_listFrom hx hz).1)
        omega
      · by_contra hno
        rw [not_or,noOverhang_iff] at hno
        push Not at hno
        obtain ⟨⟨f,hf,hlong⟩,p,hp,hend,hpage⟩ := hno
        have hlast := hover hf (by omega)
        obtain ⟨-,-,hlt⟩ := mem_frames_of_block (List.mem_of_mem_take hf)
        have := h f hf p hp
        omega
    · rintro ⟨hlast,hrest⟩ f hf p hp
      obtain ⟨-,-,hlt⟩ := mem_frames_of_block (List.mem_of_mem_take hf)
      obtain ⟨k,-,hk,-⟩ := (mem_take_steps (by decide)).mp hf
      rw [nodes_add] at hp
      rcases List.mem_append.mp hp with hold | hnew
      · have hout := hbefore p hold b (List.mem_singleton_self b)
        by_cases hlong : f + 4096 ≤ b.2
        · exact (apart_of_not_meet hout (by omega) hlong (by decide)).symm
        · have hend := hover hf hlong
          have hbefore := apart_of_not_meet (q := f) (v := b.2 - f) hout (by omega) (by omega)
            (by omega)
          rcases hrest with hno | hno
          · exact absurd (noOverhang_iff.mp hno f hf) hlong
          · have := hno p (by rw [nodes_add]; exact hp)
            omega
      · have hz : L.needed ≠ 0 := by
          rintro hz
          rw [hz,List.take_zero] at hnew
          simp at hnew
        have := (slots_of_listFrom hx hz).2 p hnew
        omega

/-- No frame that a node gets meets a node exactly if each call is clear of them. -/
theorem frames_clear_iff {n : ℕ} (hdisj : bs.Pairwise fun b c => ¬ Meet b c)
    (hbefore : L.Before bs) (hfit : Each NodesFit L bs) (hn : L.nodes.length + L.needed = n)
    (hnil : L.needed ≠ 0 → L.frames = []) :
    (∀ f ∈ (L.addAll bs).frames.take n, ∀ p ∈ (L.addAll bs).nodes, f + 4096 ≤ p ∨ p + 16 ≤ f) ↔
      (∀ f ∈ L.frames.take n, ∀ p ∈ L.nodes, f + 4096 ≤ p ∨ p + 16 ≤ f) ∧ Each Clear L bs := by
  induction bs generalizing L with
  | nil => exact ⟨fun h => ⟨h,trivial⟩,fun h => h.1⟩
  | cons b bs ih =>
    obtain ⟨hb,hdisj⟩ := List.pairwise_cons.mp hdisj
    obtain ⟨hfitb,hrest⟩ := hfit
    have hone : L.Before [b] := fun p hp c hc =>
      List.mem_singleton.mp hc ▸ hbefore p hp b List.mem_cons_self
    have hold : (∀ f ∈ L.frames.take n, ∀ p ∈ (L.add b).nodes, f + 4096 ≤ p ∨ p + 16 ≤ f) ↔
        ∀ f ∈ L.frames.take n, ∀ p ∈ L.nodes, f + 4096 ≤ p ∨ p + 16 ≤ f := by
      by_cases hz : L.needed = 0
      · rw [nodes_add,hz,List.take_zero,List.append_nil]
      · simp [hnil hz]
    change (∀ f ∈ ((L.add b).addAll bs).frames.take n, ∀ p ∈ ((L.add b).addAll bs).nodes, _) ↔ _
    rw [ih hdisj (hbefore.add hb hfitb) hrest ((L.length_add b).trans hn) (unlisted_add hnil),
      frames_add,List.take_append,List.forall_mem_append,hold,← hn]
    rw [show L.nodes.length + L.needed - L.frames.length = L.unfilled from rfl,
      clear_iff hone hnil,Each,and_assoc]

end Blocks

end Layout

namespace PmmInit
variable {s t : PmmInit} {L : Layout} {fuel : ℕ} {total : U64} {bs : List (U64 × U64)}
  {bytes : U64 → U8}

/-- The nodes placed and those still needed, whatever the memory holds. -/
structure Counts (s : PmmInit) (L : Layout) : Prop where
  placed : s.placed.map BitVec.toNat = L.nodes
  needed : s.nodesNeeded.toNat = L.needed
  freeList : s.pmmFreeList = 0#64

theorem listFrames_count {i stop : U64} (h : Counts s L)
    (hdone : listFrames fuel i stop s = .done () t) : Counts t L := by
  induction fuel generalizing s i with
  | zero => cases hdone
  | succ fuel ih =>
    rw [listFrames] at hdone
    split at hdone
    · refine ih ⟨?_,?_,?_⟩ hdone
      · rw [placed_listFrame,h.placed]
      · rw [nodesNeeded_listFrame,h.needed]
      · rw [pmmFreeList_listFrame,h.freeList]
    · obtain ⟨-,rfl⟩ := Outcome.done.inj hdone
      exact h

theorem placeNodes_freeList {cur stop c : U64} (hdone : placeNodes fuel cur stop s = .done c t) :
    t.pmmFreeList = s.pmmFreeList := by
  induction fuel generalizing s cur with
  | zero => cases hdone
  | succ fuel ih =>
    rw [placeNodes] at hdone
    split at hdone
    · dsimp only at hdone
      split at hdone
      · obtain ⟨-,rfl⟩ := Outcome.done.inj hdone
        exact pmmFreeList_linkedListAddNode ..
      · exact (ih hdone).trans (pmmFreeList_linkedListAddNode ..)
    · obtain ⟨-,rfl⟩ := Outcome.done.inj hdone
      rfl

theorem Counts.listBlock {start stop : U64} (h : Counts s L) (hz : s.nodesNeeded = 0#64)
    (hdone : PmmInit.pmmAddBlock fuel start stop s = .done () t) : Counts t L := by
  cases fuel with
  | zero => cases hdone
  | succ fuel =>
    rw [PmmInit.pmmAddBlock,if_pos hz] at hdone
    exact listFrames_count h hdone

theorem Counts.pmmAddBlock {start stop : U64} (h : Counts s L) (hstop : stop.toNat + 16 ≤ 2 ^ 64)
    (hdone : PmmInit.pmmAddBlock fuel start stop s = .done () t) :
    Counts t (L.add (start.toNat,stop.toNat)) := by
  have hneeded := h.needed
  by_cases hz : s.nodesNeeded = 0#64
  · have hzero : L.needed = 0 := by
      rw [← hneeded,hz]
      rfl
    obtain ⟨hplaced,hneed,hfree⟩ := h.listBlock hz hdone
    rw [Layout.add,if_pos hzero]
    exact ⟨hplaced,hneed,hfree⟩
  · have hpos : s.nodesNeeded.toNat ≠ 0 := fun hn => hz (BitVec.eq_of_toNat_eq hn)
    cases fuel with
    | zero => cases hdone
    | succ fuel =>
      rw [PmmInit.pmmAddBlock,if_neg hz] at hdone
      obtain ⟨c,u,hplace,hdone⟩ := Outcome.bind_eq_done.mp hdone
      obtain ⟨hplaced,hneed,-⟩ := placeNodes_count hstop (by omega) hplace
      rw [h.placed,hneeded] at hplaced
      rw [hneeded] at hneed hpos
      have hu : Counts u (L.add (start.toNat,stop.toNat)) := by
        refine ⟨by rw [Layout.nodes_add,hplaced],?_,(placeNodes_freeList hplace).trans h.freeList⟩
        rw [hneed,Layout.add,if_neg hpos]
        split
        · rfl
        · rename_i hmany
          dsimp only at hmany ⊢
          omega
      split at hdone
      · obtain ⟨-,rfl⟩ := Outcome.done.inj hdone
        exact hu
      · rename_i hend
        have hclosed : Counts (closeList u) (L.add (start.toNat,stop.toNat)) :=
          ⟨by rw [placed_closeList,hu.placed],by rw [nodesNeeded_closeList,hu.needed],
            by rw [pmmFreeList_closeList,hu.freeList]⟩
        split at hdone
        · exact hclosed.listBlock ((nodesNeeded_closeList u).trans (not_not.mp hend)) hdone
        · obtain ⟨-,rfl⟩ := Outcome.done.inj hdone
          exact hclosed

theorem Counts.addBlocks (h : Counts s L) (hbs : ∀ b ∈ bs, b.2.toNat + 16 ≤ 2 ^ 64)
    (hdone : PmmInit.addBlocks fuel bs s = .done () t) : Counts t (L.addAll (spans bs)) := by
  induction bs generalizing s L with
  | nil =>
    obtain ⟨-,rfl⟩ := Outcome.done.inj hdone
    exact h
  | cons b bs ih =>
    obtain ⟨_,u,hadd,hdone⟩ := Outcome.bind_eq_done.mp hdone
    exact ih (h.pmmAddBlock (hbs b List.mem_cons_self) hadd)
      (fun c hc => hbs c (List.mem_cons_of_mem _ hc)) hdone

/-- What becomes of the manager in `pmm_init_final`, whatever the memory holds. -/
theorem splitHigh_cases {cur : U64} (hdone : splitHigh fuel cur s = .done () t) :
    t = s ∨ ∃ p, t = cutHigh p s := by
  induction fuel generalizing cur with
  | zero => cases hdone
  | succ fuel ih =>
    rw [splitHigh] at hdone
    split at hdone
    · exact .inl (Outcome.done.inj hdone).2.symm
    split at hdone
    · exact .inl (Outcome.done.inj hdone).2.symm
    split at hdone
    · exact .inr ⟨cur,(Outcome.done.inj hdone).2.symm⟩
    · exact ih hdone

theorem Counts.pmmInitFinal (h : Counts s L) (hdone : PmmInit.pmmInitFinal fuel s = .done () t) :
    Counts t L := by
  obtain rfl | ⟨p,rfl⟩ := splitHigh_cases hdone
  · exact h
  · exact ⟨by rw [placed_cutHigh,h.placed],by rw [nodesNeeded_cutHigh,h.needed],
      by rw [pmmFreeList_cutHigh,h.freeList]⟩

/-- The nodes are placed where the layout has them. -/
theorem initialise_counts (hbs : ∀ b ∈ bs, b.2.toNat + 16 ≤ 2 ^ 64)
    (hdone : initialise fuel total bs (fresh bytes) = .done () t) :
    Counts t (layout total bs) := by
  obtain ⟨_,u,hadd,hdone⟩ := Outcome.bind_eq_done.mp hdone
  have hfresh := refines_fresh bytes total
  exact (Counts.addBlocks ⟨hfresh.placed,hfresh.needed,rfl⟩ hbs hadd).pmmInitFinal hdone

/-- A frame on one of the free lists. -/
def Listed (t : PmmInit) (a : U64) : Prop :=
  a ≠ 0#64 ∧ ∃ p, (Reaches 0#64 t.next t.pmmLow p ∨ Reaches 0#64 t.next t.pmmHigh p) ∧ t.addr p = a

theorem Built.reaches_iff {ps fs ls hs : List ℕ} {p : U64} (h : Built t ps fs ls hs) :
    (Reaches 0#64 t.next t.pmmLow p ∨ Reaches 0#64 t.next t.pmmHigh p) ↔ p ∈ ps.map pointer := by
  rw [Linked.reaches_iff (show Linked 0#64 t.next t.pmmLow _ from h.low),
    Linked.reaches_iff (show Linked 0#64 t.next t.pmmHigh _ from h.high),h.nodes,List.map_append,
    List.mem_append]

theorem Built.listed_iff {ps fs ls hs : List ℕ} {a : U64} (h : Built t ps fs ls hs) :
    Listed t a ↔ a ≠ 0#64 ∧ a.toNat ∈ fs.take ps.length := by
  refine and_congr_right fun ha => ?_
  simp only [h.reaches_iff]
  constructor
  · rintro ⟨p,hp,rfl⟩
    obtain ⟨q,hq,rfl⟩ := List.mem_map.mp hp
    obtain ⟨k,hk⟩ := List.mem_iff_getElem?.mp hq
    have haddr := h.addr k q hk
    cases hf : fs[k]? with
    | none =>
      rw [hf] at haddr
      exact absurd (BitVec.eq_of_toNat_eq haddr) ha
    | some f =>
      rw [hf] at haddr
      refine List.mem_iff_getElem?.mpr ⟨k,?_⟩
      rw [List.getElem?_take_of_lt (List.getElem?_eq_some_iff.mp hk).1,hf,haddr]
      rfl
  · intro hf
    obtain ⟨k,hk⟩ := List.mem_iff_getElem?.mp hf
    rw [List.getElem?_take] at hk
    split at hk
    · rename_i hlt
      have haddr := h.addr k _ (List.getElem?_eq_getElem hlt)
      rw [hk] at haddr
      exact ⟨_,List.mem_map_of_mem (List.getElem_mem hlt),BitVec.eq_of_toNat_eq haddr⟩
    · cases hk

/-- Blocks whose bounds do not wrap, that hold all nodes, and these in the memory that is
mapped at `KERNEL_OFFSET`. -/
structure Sane (total : U64) (bs : List (U64 × U64)) : Prop where
  bounds : ∀ b ∈ bs, 0 < b.1.toNat ∧ b.1.toNat + 4096 ≤ 2 ^ 64 ∧ b.2.toNat + 4096 ≤ 2 ^ 64
  held : (layout total bs).needed = 0
  mapped : ∀ p ∈ (layout total bs).nodes, p + 16 ≤ 2 ^ 31

/-- The nodes and the frames on the lists lie inside the blocks. -/
def UsesOnly (t : PmmInit) (bs : List (U64 × U64)) : Prop :=
  (∀ p ∈ t.placed, Inside (spans bs) p.toNat 16) ∧
    ∀ a, Listed t a → Inside (spans bs) a.toNat 4096

/-- No frame on the lists meets a node. -/
def NoOverlap (t : PmmInit) : Prop :=
  ∀ a, Listed t a → ∀ p ∈ t.placed, a.toNat + 4096 ≤ p.toNat ∨ p.toNat + 16 ≤ a.toNat

theorem mem_frames_addAll {cs : List (ℕ × ℕ)} {f : ℕ} (hf : f ∈ (L.addAll cs).frames) :
    f ∈ L.frames ∨ ∃ c ∈ cs, c.1 ≤ f ∧ f < c.2 := by
  induction cs generalizing L with
  | nil => exact .inl hf
  | cons c cs ih =>
    rcases ih hf with hf | ⟨d,hd,hfd⟩
    · rw [Layout.frames_add] at hf
      rcases List.mem_append.mp hf with hf | hf
      · exact .inl hf
      · cases hx : L.listFrom c with
        | none => simp [hx] at hf
        | some x =>
          rw [hx,Option.elim_some] at hf
          have hle := Layout.le_of_mem_listFrom hx
          obtain ⟨-,hxf,hlt⟩ := mem_frames_of_block hf
          exact .inr ⟨c,List.mem_cons_self,by omega,hlt⟩
    · exact .inr ⟨d,List.mem_cons_of_mem _ hd,hfd⟩

theorem Sane.frame_bounds (h : Sane total bs) {f : ℕ} (hf : f ∈ (layout total bs).frames) :
    0 < f ∧ f < 2 ^ 64 := by
  rcases mem_frames_addAll hf with hf | ⟨c,hc,hlo,hhi⟩
  · exact absurd hf (by simp [planned])
  · obtain ⟨b,hb,rfl⟩ := List.mem_map.mp hc
    have := h.bounds b hb
    omega

/-- A property of the listed frames is one of the first frames of the layout. -/
theorem Sane.forall_listed_iff {ls hs : List ℕ} {P : ℕ → Prop} (h : Sane total bs)
    (hb : Built t (layout total bs).nodes (layout total bs).frames ls hs) :
    (∀ a, Listed t a → P a.toNat) ↔
      ∀ f ∈ (layout total bs).frames.take (planned total).needed, P f := by
  rw [← length_nodes_layout h.held]
  constructor
  · intro hP f hf
    obtain ⟨hpos,hlt⟩ := h.frame_bounds (List.mem_of_mem_take hf)
    have hval : (BitVec.ofNat 64 f).toNat = f := by
      rw [BitVec.toNat_ofNat,Nat.mod_eq_of_lt hlt]
    rw [← hval]
    refine hP _ (hb.listed_iff.mpr ⟨fun hz => ?_,by rw [hval]; exact hf⟩)
    rw [hz] at hval
    have : 0 = f := hval
    omega
  · intro hP a ha
    exact hP _ (hb.listed_iff.mp ha).2

theorem Sane.spaced (h : Sane total bs)
    (hdisj : (spans bs).Pairwise fun b c => ¬ Meet b c)
    (hfit : Layout.Each Layout.NodesFit (planned total) (spans bs)) :
    Spaced (layout total bs).nodes :=
  ⟨Layout.nodes_apart hdisj (by simp [Layout.Before,planned]) hfit (by simp [planned]),h.mapped⟩

theorem Sane.built (h : Sane total bs)
    (hdisj : (spans bs).Pairwise fun b c => ¬ Meet b c)
    (hfit : Layout.Each Layout.NodesFit (planned total) (spans bs))
    (hdone : initialise fuel total bs (fresh bytes) = .done () t) :
    ∃ ls hs, Built t (layout total bs).nodes (layout total bs).frames ls hs := by
  obtain ⟨-,hspin⟩ | ⟨u,ls,hs,hu,hb⟩ := @initialise_eq bytes total bs h.held
    (h.spaced hdisj hfit) (fun b hb => (h.bounds b hb).2) fuel
  · rw [hspin] at hdone
    cases hdone
  · rw [hu] at hdone
    obtain ⟨-,rfl⟩ := Outcome.done.inj hdone
    exact ⟨ls,hs,hb⟩

/-- The manager uses only the memory of the blocks exactly if in each call the nodes end inside
the block and the frames do not come to a page that is only begun in it. -/
theorem usesOnly_iff (hsane : Sane total bs)
    (hdisj : (spans bs).Pairwise fun b c => ¬ Meet b c)
    (hdone : initialise fuel total bs (fresh bytes) = .done () t) :
    t.UsesOnly bs ↔ Layout.Each Layout.NodesFit (planned total) (spans bs) ∧
      Layout.Each Layout.FramesFit (planned total) (spans bs) := by
  have hplaced := (initialise_counts (fun b hb => by have := hsane.bounds b hb; omega) hdone).placed
  have hnodes : (∀ p ∈ t.placed, Inside (spans bs) p.toNat 16) ↔
      Layout.Each Layout.NodesFit (planned total) (spans bs) := by
    have hiff := Layout.nodes_inside_iff (L := planned total) hdisj fun b hb => hb
    change (∀ p ∈ (layout total bs).nodes, _) ↔ _ at hiff
    rw [← hplaced,List.forall_mem_map] at hiff
    rw [hiff]
    simp [planned]
  rw [UsesOnly,hnodes]
  refine and_congr_right fun hfit => ?_
  obtain ⟨ls,hs,hb⟩ := hsane.built hdisj hfit hdone
  rw [hsane.forall_listed_iff (P := fun f => Inside (spans bs) f 4096) hb]
  have hiff := Layout.frames_inside_iff (L := planned total) hdisj (fun b hb => hb) (Nat.zero_add _)
  change (∀ f ∈ (layout total bs).frames.take _, _) ↔ _ at hiff
  rw [hiff]
  simp [planned]

/-- One block that begins 16 bytes behind a page boundary. -/
def oddBlock (stop : U64) : List (U64 × U64) := [(0x100010#64,stop)]

theorem oddBlock_disjoint (stop : U64) :
    (spans (oddBlock stop)).Pairwise fun b c => ¬ Meet b c := List.pairwise_singleton _ _

/-- The manager after the initialisation with one node in that block. -/
def oddInit (stop : U64) : PmmInit :=
  (initialise 10 8224#64 (oddBlock stop) (fresh fun _ => 0#8)).stateD (fresh fun _ => 0#8)

theorem oddInit_eq : initialise 10 8224#64 (oddBlock 0x103000#64) (fresh fun _ => 0#8) =
    .done () (oddInit 0x103000#64) := by
  have hreturn : (initialise 10 8224#64 (oddBlock 0x103000#64) (fresh fun _ => 0#8)).returned =
      some () := by decide +kernel
  exact Outcome.eq_done_of_returned hreturn _

theorem sane_oddBlock : Sane 8224#64 (oddBlock 0x103000#64) :=
  ⟨List.all_iff_forall_prop.mp (by decide),by decide +kernel,by decide +kernel⟩

theorem oddInit_usesOnly : Sane 8224#64 (oddBlock 0x103000#64) ∧
    (oddInit 0x103000#64).UsesOnly (oddBlock 0x103000#64) :=
  ⟨sane_oddBlock,(usesOnly_iff sane_oddBlock (oddBlock_disjoint _) oddInit_eq).mpr
    ⟨by decide +kernel,by decide +kernel⟩⟩

/-- A frame of a block that ends in the middle of a page reaches over its end. -/
theorem oddInit_not_usesOnly :
    initialise 10 8224#64 (oddBlock 0x101800#64) (fresh fun _ => 0#8) =
      .done () (oddInit 0x101800#64) ∧
    ¬ (oddInit 0x101800#64).UsesOnly (oddBlock 0x101800#64) := by
  have hreturn : (initialise 10 8224#64 (oddBlock 0x101800#64) (fresh fun _ => 0#8)).returned =
      some () := by decide +kernel
  have hend : (oddInit 0x101800#64).pmmLow ≠ 0#64 ∧
      (oddInit 0x101800#64).addr (oddInit 0x101800#64).pmmLow = 0x101000#64 := by decide +kernel
  obtain ⟨hlow,haddr⟩ := hend
  refine ⟨Outcome.eq_done_of_returned hreturn _,fun huses => ?_⟩
  obtain ⟨b,hb,-,hend⟩ := huses.2 0x101000#64
    ⟨by decide,_,.inl ⟨hlow,[],rfl,List.not_mem_nil⟩,haddr⟩
  obtain rfl := List.mem_singleton.mp hb
  revert hend
  decide

/-- In blocks in which the nodes end, no frame meets a node exactly if the last node ends before
the first frame and no node lies in the rest of a page that is listed but only begun in its
block. -/
theorem noOverlap_iff (hsane : Sane total bs)
    (hdisj : (spans bs).Pairwise fun b c => ¬ Meet b c)
    (hfit : Layout.Each Layout.NodesFit (planned total) (spans bs))
    (hdone : initialise fuel total bs (fresh bytes) = .done () t) :
    t.NoOverlap ↔ Layout.Each Layout.Clear (planned total) (spans bs) := by
  have hplaced := (initialise_counts (fun b hb => by have := hsane.bounds b hb; omega) hdone).placed
  obtain ⟨ls,hs,hb⟩ := hsane.built hdisj hfit hdone
  have hlist := hsane.forall_listed_iff (P := fun f =>
    ∀ p ∈ (layout total bs).nodes, f + 4096 ≤ p ∨ p + 16 ≤ f) hb
  have hiff := Layout.frames_clear_iff (L := planned total) hdisj (by simp [Layout.Before,planned])
    hfit (Nat.zero_add _) fun _ => rfl
  change (∀ f ∈ (layout total bs).frames.take _, ∀ p ∈ (layout total bs).nodes, _) ↔ _ at hiff
  rw [← hlist,← hplaced] at hiff
  simp only [List.forall_mem_map] at hiff
  rw [NoOverlap,hiff]
  simp [planned]

theorem oddInit_noOverlap : Sane 8224#64 (oddBlock 0x103000#64) ∧
    (oddInit 0x103000#64).NoOverlap :=
  ⟨sane_oddBlock,(noOverlap_iff sane_oddBlock (oddBlock_disjoint _) (by decide +kernel)
    oddInit_eq).mpr (by decide +kernel)⟩

/-- The manager after the initialisation with one node at the beginning of a page. -/
def pageInit : PmmInit :=
  (initialise 10 8224#64 [(0x100000#64,0x103000#64)] (fresh fun _ => 0#8)).stateD
    (fresh fun _ => 0#8)

/-- The first frame holds the last node if that lies at the beginning of a page. -/
theorem pageInit_not_noOverlap :
    initialise 10 8224#64 [(0x100000#64,0x103000#64)] (fresh fun _ => 0#8) = .done () pageInit ∧
      ¬ pageInit.NoOverlap := by
  have hreturn : (initialise 10 8224#64 [(0x100000#64,0x103000#64)] (fresh fun _ => 0#8)).returned =
      some () := by decide +kernel
  have hend : pageInit.pmmLow ≠ 0#64 ∧ pageInit.addr pageInit.pmmLow = 0x100000#64 ∧
      (0x100000#64 : U64) ∈ pageInit.placed := by decide +kernel
  obtain ⟨hlow,haddr,hplaced⟩ := hend
  refine ⟨Outcome.eq_done_of_returned hreturn _,fun hno => ?_⟩
  have := hno 0x100000#64 ⟨by decide,_,.inl ⟨hlow,[],rfl,List.not_mem_nil⟩,haddr⟩ _ hplaced
  revert this
  decide

end PmmInit

end Lios

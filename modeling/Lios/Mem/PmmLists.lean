import Mathlib.Data.Bool.AllAny
import Lios.Mem.PmmBuild
import Lios.Mem.PmmFrames

/-! # The lists of the initialised manager

In blocks given in ascending order the nodes come first, then the frames, both in
ascending order. The cut of `pmm_init_final` then separates the frames below 2 GiB
from the others.
-/
namespace Lios

/-- The layout of ascending blocks, all of them below `lim`. -/
structure Layout.Ascending (L : Layout) (lim : ℕ) : Prop where
  nodes : L.nodes.Pairwise fun p q => p + 16 ≤ q
  node : ∀ p ∈ L.nodes, 16 ∣ p ∧ p + 16 ≤ lim
  frames : L.frames.Pairwise (· < ·)
  frame : ∀ f ∈ L.frames, 4096 ∣ f ∧ f < lim
  order : ∀ p ∈ L.nodes, ∀ f ∈ L.frames, p ≤ f
  unlisted : L.needed ≠ 0 → L.frames = []

section Layout
variable {L : Layout} {lim s e : ℕ}

theorem le_pageUp (a : ℕ) : a ≤ pageUp a := by
  rw [pageUp]
  omega

theorem dvd_pageUp (a : ℕ) : 4096 ∣ pageUp a := Dvd.intro_left _ rfl

theorem mem_frames_of_block {a b f : ℕ} (h : f ∈ steps (pageUp a) b 4096) :
    4096 ∣ f ∧ a ≤ f ∧ f < b := by
  obtain ⟨k,rfl,hlt⟩ := (mem_steps (by decide)).mp h
  have hle := le_pageUp a
  exact ⟨Nat.dvd_add (dvd_pageUp a) (Dvd.intro _ rfl),by omega,hlt⟩

theorem mem_nodes_of_block {p : ℕ} (hs : 16 ∣ s) (he : 16 ∣ e) (h : p ∈ steps s e 16) :
    16 ∣ p ∧ s ≤ p ∧ p + 16 ≤ e := by
  obtain ⟨k,rfl,hlt⟩ := (mem_steps (by decide)).mp h
  omega

theorem pairwise_lt_frames {a b : ℕ} : (steps a b 4096).Pairwise (· < ·) :=
  pairwise_steps.imp fun h => by omega

/-- The pages of a block behind everything listed so far. -/
theorem Layout.Ascending.list {a b : ℕ} (h : L.Ascending lim) (hlim : lim ≤ b)
    (ha : ∀ f ∈ L.frames, f < a) (hn : ∀ p ∈ L.nodes, p ≤ a) :
    Ascending ⟨L.nodes,L.frames ++ steps (pageUp a) b 4096,0⟩ b := by
  refine ⟨h.nodes,fun p hp => ?_,?_,fun f hf => ?_,fun p hp f hf => ?_,fun hz => absurd rfl hz⟩
  · obtain ⟨hdvd,hle⟩ := h.node p hp
    exact ⟨hdvd,by omega⟩
  · refine List.pairwise_append.mpr ⟨h.frames,pairwise_lt_frames,fun f hf g hg => ?_⟩
    have hfa := ha f hf
    obtain ⟨-,hga,-⟩ := mem_frames_of_block hg
    omega
  · rcases List.mem_append.mp hf with hf | hf
    · obtain ⟨hdvd,hlt⟩ := h.frame f hf
      exact ⟨hdvd,by omega⟩
    · obtain ⟨hdvd,-,hlt⟩ := mem_frames_of_block hf
      exact ⟨hdvd,hlt⟩
  · rcases List.mem_append.mp hf with hf | hf
    · exact h.order p hp f hf
    · have hpa := hn p hp
      obtain ⟨-,hga,-⟩ := mem_frames_of_block hf
      omega

/-- The first slots of a block behind everything placed so far. -/
theorem Layout.Ascending.place (h : L.Ascending lim) (hlim : lim ≤ s) (hse : s ≤ e) (hs : 16 ∣ s)
    (he : 16 ∣ e) (m r : ℕ) : Ascending ⟨L.nodes ++ (steps s e 16).take m,[],r⟩ e := by
  refine ⟨?_,fun p hp => ?_,List.Pairwise.nil,by simp,by simp,fun _ => rfl⟩
  · refine List.pairwise_append.mpr ⟨h.nodes,pairwise_steps.sublist (List.take_sublist _ _),
      fun p hp q hq => ?_⟩
    obtain ⟨-,hle⟩ := h.node p hp
    obtain ⟨-,hsq,-⟩ := mem_nodes_of_block hs he (List.mem_of_mem_take hq)
    omega
  · rcases List.mem_append.mp hp with hp | hp
    · obtain ⟨hdvd,hle⟩ := h.node p hp
      exact ⟨hdvd,by omega⟩
    · obtain ⟨hdvd,-,hle⟩ := mem_nodes_of_block hs he (List.mem_of_mem_take hp)
      exact ⟨hdvd,hle⟩

theorem Layout.Ascending.add (h : L.Ascending lim) (hlim : lim ≤ s) (hse : s ≤ e) (hs : 16 ∣ s)
    (he : 16 ∣ e) : (L.add (s,e)).Ascending e := by
  unfold Layout.add
  split
  · rename_i hz
    have hlist := h.list (a := s) (b := e) (by omega) (fun f hf => by
      have := (h.frame f hf).2
      omega) (fun p hp => by
      have := (h.node p hp).2
      omega)
    rw [hz]
    exact hlist
  · rename_i hz
    have hnil := h.unlisted hz
    rw [hnil]
    split
    · have hplace := h.place hlim hse hs he (steps s e 16).length
        (L.needed - (steps s e 16).length)
      rw [List.take_length] at hplace
      exact hplace
    · rename_i hmany
      have hplace := h.place hlim hse hs he L.needed 0
      refine hplace.list le_rfl (by simp) fun p hp => ?_
      rcases List.mem_append.mp hp with hp | hp
      · have := (h.node p hp).2
        omega
      · -- the slots taken end at the one at which the rest begins
        obtain ⟨k,hk⟩ := List.mem_iff_getElem?.mp hp
        rw [List.getElem?_take] at hk
        split at hk
        · rename_i hlt
          dsimp only at hmany
          rw [getElem?_steps (by omega)] at hk
          obtain rfl := Option.some.inj hk
          dsimp only
          omega
        · cases hk

theorem Layout.Ascending.addAll {bs : List (ℕ × ℕ)} (h : L.Ascending lim)
    (hlim : ∀ b ∈ bs, lim ≤ b.1) (hord : bs.Pairwise fun b c => b.2 ≤ c.1)
    (hbs : ∀ b ∈ bs, b.1 ≤ b.2 ∧ 16 ∣ b.1 ∧ 16 ∣ b.2) : ∃ lim', (L.addAll bs).Ascending lim' := by
  induction bs generalizing L lim with
  | nil => exact ⟨lim,h⟩
  | cons b bs ih =>
    obtain ⟨hse,hs,he⟩ := hbs b List.mem_cons_self
    obtain ⟨hafter,hord⟩ := List.pairwise_cons.mp hord
    exact ih (h.add (hlim b List.mem_cons_self) hse hs he) hafter hord
      fun c hc => hbs c (List.mem_cons_of_mem _ hc)

theorem Layout.ascending_empty (n : ℕ) : (⟨[],[],n⟩ : Layout).Ascending 0 :=
  ⟨List.Pairwise.nil,by simp,List.Pairwise.nil,by simp,by simp,fun _ => rfl⟩

theorem Layout.length_add (L : Layout) (b : ℕ × ℕ) :
    (L.add b).nodes.length + (L.add b).needed = L.nodes.length + L.needed := by
  unfold add
  split
  · rfl
  · split
    · simp only [List.length_append]
      omega
    · simp only [List.length_append,List.length_take]
      omega

theorem Layout.length_addAll (L : Layout) (bs : List (ℕ × ℕ)) :
    (L.addAll bs).nodes.length + (L.addAll bs).needed = L.nodes.length + L.needed := by
  induction bs generalizing L with
  | nil => rfl
  | cons b bs ih => exact (ih (L.add b)).trans (L.length_add b)

end Layout

namespace PmmInit
variable {total : U64} {bs : List (U64 × U64)} {t : PmmInit} {ps fs ls hs : List ℕ}

theorem length_nodes_layout (h : (layout total bs).needed = 0) :
    (layout total bs).nodes.length = (planned total).needed := by
  have hsum := Layout.length_addAll (planned total) (spans bs)
  change (layout total bs).nodes.length + (layout total bs).needed = 0 + _ at hsum
  omega

theorem Spaced.nodup_pointers (h : Spaced ps) : (ps.map pointer).Nodup := by
  refine h.nodup.map_on fun p hp q hq hpq => ?_
  have hpn := toNat_pointer (h.mapped p hp)
  rw [hpq,toNat_pointer (h.mapped q hq)] at hpn
  omega

theorem Built.map_pointers (h : Built t ps fs ls hs) :
    ls.map pointer ++ hs.map pointer = t.placed.map (· + kernelOffset) := by
  rw [← List.map_append,← h.nodes,← h.placed,List.map_map]
  exact List.map_congr_left fun p _ => pointer_toNat p

/-- With enough frames each node has the frame of its place. -/
theorem Built.addresses (h : Built t ps fs ls hs) (hlen : ps.length ≤ fs.length) :
    (ls.map pointer ++ hs.map pointer).map (fun p => (t.pmm.addr p).toNat) =
      fs.take ps.length := by
  rw [← List.map_append,← h.nodes,List.map_map]
  refine List.ext_getElem? fun k => ?_
  rw [List.getElem?_map]
  by_cases hk : k < ps.length
  · obtain ⟨p,hp⟩ : ∃ p, ps[k]? = some p := ⟨_,List.getElem?_eq_getElem hk⟩
    have haddr := h.addr k p hp
    rw [List.getElem?_take_of_lt hk,hp,List.getElem?_eq_getElem (by omega)]
    rw [List.getElem?_eq_getElem (by omega)] at haddr
    exact congrArg some haddr
  · rw [List.getElem?_eq_none (by omega),List.getElem?_take_eq_none (by omega)]
    rfl

/-- Ascending frames, the first below 2 GiB, are separated by the cut. -/
theorem Built.banded (h : Built t ps fs ls hs)
    (hpair : ((ls.map pointer ++ hs.map pointer).map fun p => (t.pmm.addr p).toNat).Pairwise
      (· < ·))
    (hfirst : ∀ p ∈ ls.head?, t.pmm.addr (pointer p) < twoGB) :
    t.pmm.Banded (ls.map pointer) (hs.map pointer) := by
  constructor
  · intro x hx
    obtain ⟨p,hp,rfl⟩ := List.mem_map.mp hx
    cases ls with
    | nil => simp at hp
    | cons q ls =>
      rcases List.mem_cons.mp hp with rfl | hp
      · exact hfirst p rfl
      · exact h.lowTail p hp
  · intro x hx
    obtain ⟨p,hp,rfl⟩ := List.mem_map.mp hx
    cases hs with
    | nil => simp at hp
    | cons q hs =>
      have hq := h.highHead q rfl
      rcases List.mem_cons.mp hp with rfl | hp
      · exact hq
      · rw [List.map_append,List.pairwise_append,List.map_map,List.map_cons,List.map_cons,
          List.map_map,List.pairwise_cons] at hpair
        have hlt := hpair.2.1.1 _ (List.mem_map_of_mem hp)
        exact BitVec.le_def.mpr ((BitVec.le_def.mp hq).trans (Nat.le_of_lt hlt))

/-- In ascending blocks with bounds at multiples of 16 the nodes lie one behind the other,
and before the first frame. -/
theorem spaced_of_ascending {L : Layout} {lim : ℕ} (h : L.Ascending lim) (hne : L.frames ≠ [])
    (hfirst : ∀ f ∈ L.frames.head?, f < 2 ^ 31) : Spaced L.nodes := by
  obtain ⟨f,hf⟩ : ∃ f, L.frames.head? = some f := by
    cases hfs : L.frames with
    | nil => exact absurd hfs hne
    | cons f fs => exact ⟨f,rfl⟩
  refine ⟨h.nodes.imp fun hpq => .inl hpq,fun p hp => ?_⟩
  obtain ⟨hdvd,-⟩ := h.node p hp
  have hle := h.order p hp f (List.mem_of_mem_head? hf)
  have hlt := hfirst f hf
  omega

/-- Blocks in ascending order, with bounds at multiples of 16 below 2^63, that hold the
nodes and then provide a frame for each of them, the first one below 2 GiB: the calls
return, and the two lists are the nodes in the order in which they were placed, without a
cycle. Their frames are page-aligned and ascending, those below 2 GiB on the low list and
the others on the high one. -/
theorem initialise_lists (bytes : U64 → U8)
    (hn : 1 ≤ (pmmSetTotal total (fresh bytes)).nodesNeeded.toNat)
    (hord : bs.Pairwise fun b c => b.2.toNat ≤ c.1.toNat)
    (hbs : ∀ b ∈ bs, b.1.toNat ≤ b.2.toNat ∧ b.2.toNat < 2 ^ 63 ∧ 16 ∣ b.1.toNat ∧ 16 ∣ b.2.toNat)
    (hframes : (pmmSetTotal total (fresh bytes)).nodesNeeded.toNat ≤
      (layout total bs).frames.length)
    (hfirst : ∀ f ∈ (layout total bs).frames.head?, f < 2 ^ 31) :
    ∃ m, ∀ fuel ≥ m, ∃ t ls hs, initialise fuel total bs (fresh bytes) = .done () t ∧
      t.pmm.Low ls ∧ t.pmm.High hs ∧ (ls ++ hs).Nodup ∧
      (ls ++ hs).length = (pmmSetTotal total (fresh bytes)).nodesNeeded.toNat ∧
      ls ++ hs = t.placed.map (· + kernelOffset) ∧
      (∀ p ∈ ls ++ hs, 4096 ∣ (t.pmm.addr p).toNat) ∧
      ((ls ++ hs).map fun p => (t.pmm.addr p).toNat).Pairwise (· < ·) ∧
      t.pmm.Banded ls hs := by
  obtain ⟨n,hnodes⟩ : ∃ n, n = (pmmSetTotal total (fresh bytes)).nodesNeeded.toNat := ⟨_,rfl⟩
  rw [← hnodes] at hn hframes ⊢
  obtain ⟨lim,hasc⟩ : ∃ lim, (layout total bs).Ascending lim := by
    refine (Layout.ascending_empty _).addAll (fun _ _ => Nat.zero_le _) ?_ fun b hb => ?_
    · rw [spans,List.pairwise_map]
      exact hord
    · obtain ⟨c,hc,rfl⟩ := List.mem_map.mp hb
      obtain ⟨hle,-,hs,he⟩ := hbs c hc
      exact ⟨hle,hs,he⟩
  have hne : (layout total bs).frames ≠ [] := by
    intro hnil
    rw [hnil,List.length_nil] at hframes
    omega
  have hneeded : (layout total bs).needed = 0 := by
    by_contra hz
    exact hne (hasc.unlisted hz)
  have hlength : (layout total bs).nodes.length = n :=
    (length_nodes_layout hneeded).trans hnodes.symm
  have hspaced := spaced_of_ascending hasc hne hfirst
  have hbounds : ∀ b ∈ bs, b.1.toNat + 4096 ≤ 2 ^ 64 ∧ b.2.toNat + 4096 ≤ 2 ^ 64 := by
    intro b hb
    have := hbs b hb
    omega
  refine ⟨2 ^ 61 + (layout total bs).nodes.length,fun fuel hfuel => ?_⟩
  obtain ⟨hless,-⟩ | ⟨t,ls,hs,hdone,hb⟩ := @initialise_eq bytes total bs hneeded hspaced hbounds fuel
  · omega
  have haddrs := hb.addresses (by omega)
  rw [hlength] at haddrs
  have hpair : ((layout total bs).frames.take n).Pairwise (· < ·) :=
    hasc.frames.sublist (List.take_sublist _ _)
  refine ⟨t,ls.map pointer,hs.map pointer,hdone,hb.low,hb.high,?_,?_,hb.map_pointers,fun p hp => ?_,
    by rw [haddrs]; exact hpair,?_⟩
  · rw [← List.map_append,← hb.nodes]
    exact hspaced.nodup_pointers
  · rw [← List.map_append,← hb.nodes,List.length_map,hlength]
  · have hmem := List.mem_map_of_mem (f := fun p => (t.pmm.addr p).toNat) hp
    rw [haddrs] at hmem
    exact (hasc.frame _ (List.mem_of_mem_take hmem)).1
  · refine hb.banded (by rw [haddrs]; exact hpair) fun p hp => BitVec.lt_def.mpr ?_
    have hzero : (layout total bs).nodes[0]? = some p := by
      rw [hb.nodes,← List.head?_eq_getElem?,List.head?_append,hp]
      rfl
    rw [show t.pmm.addr (pointer p) = t.addr (pointer p) from rfl,hb.addr 0 p hzero,
      ← List.head?_eq_getElem?]
    cases hfs : (layout total bs).frames.head? with
    | none => decide
    | some f => exact hfirst f hfs

/-- A block for two nodes, and one with a frame on each side of 2 GiB. -/
def twoBlocks : List (U64 × U64) := [(0x100000#64,0x100020#64),(0x7FFFF000#64,0x80001000#64)]

theorem twoBlocks_lists : (layout 12336#64 twoBlocks).frames = [0x7FFFF000,0x80000000] ∧
    ∃ m, ∀ fuel ≥ m, ∃ t ls hs,
      initialise fuel 12336#64 twoBlocks (fresh fun _ => 0#8) = .done () t ∧ t.pmm.Low ls ∧
      t.pmm.High hs ∧ (ls ++ hs).length = 2 ∧ t.pmm.Banded ls hs := by
  have hframes : (layout 12336#64 twoBlocks).frames = [0x7FFFF000,0x80000000] := by
    decide +kernel
  obtain ⟨m,hm⟩ := @initialise_lists 12336#64 twoBlocks (fun _ => 0#8) (by decide +kernel)
    (by decide) (List.all_iff_forall_prop.mp (by decide)) (by decide +kernel)
    (by rw [hframes]; decide)
  refine ⟨hframes,m,fun fuel hfuel => ?_⟩
  obtain ⟨t,ls,hs,hdone,hlow,hhigh,-,hlen,-,-,-,hband⟩ := hm fuel hfuel
  have htwo : (pmmSetTotal 12336#64 (fresh fun _ => 0#8)).nodesNeeded.toNat = 2 := by
    decide +kernel
  exact ⟨t,ls,hs,hdone,hlow,hhigh,hlen.trans htwo,hband⟩

end PmmInit

end Lios

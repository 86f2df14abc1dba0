import Lios.File.Fat32Chain

/-! # What `fat32_read` reports

The walk of `fat32_read` stays on a cluster in its last round, so the test behind the loop is on
the last cluster that was read and not on the entry that follows it. The cases are a size up to
the length of the chain, one more than it, and anything longer; only the second one is reported
as a success. A block number has 32 bits, and none of the transfers is checked.
-/
namespace Lios.Fat32
variable {v : Volume} {c e n : U32} {cs : List U32} {buffer : U64} {t : Transfers}

/-- Different clusters are less than `2 ^ 32` blocks apart, so a number that was cut off is the
block of no cluster. -/
theorem sectorOf_mem_iff {a : U32} (ha : a ∈ cs) :
    sectorOf v a ∈ cs.map (lbaOf v) ↔ (lbaOf v a).toNat < 2 ^ 32 := by
  constructor
  · intro hmem
    obtain ⟨b,-,hb⟩ := List.mem_map.mp hmem
    have hcut := congrArg BitVec.toNat hb
    rw [sectorOf,BitVec.toNat_setWidth,BitVec.toNat_setWidth] at hcut
    simp only [lbaOf,BitVec.toNat_sub,BitVec.toNat_add,BitVec.toNat_setWidth,
      BitVec.toNat_ofNat] at hcut ⊢
    have ha' := a.isLt
    have hb' := b.isLt
    omega
  · intro hlt
    rw [sectorOf_eq hlt]
    exact List.mem_map_of_mem ha

theorem requests_mem_iff {ds : List U32} (hds : ∀ a ∈ ds, a ∈ cs) (m : Memory) :
    (∀ lba ∈ (request v buffer 0 ds ⟨m,[]⟩).reads, lba ∈ cs.map (lbaOf v)) ↔
      ∀ a ∈ ds, (lbaOf v a).toNat < 2 ^ 32 := by
  rw [request_reads,List.nil_append,List.forall_mem_map]
  exact forall₂_congr fun a ha => sectorOf_mem_iff (hds a ha)

theorem requests_succeed_iff {ds : List U32} (hds : ∀ a ∈ ds, (lbaOf v a).toNat < 2 ^ 32)
    (m : Memory) :
    (∀ lba ∈ (request v buffer 0 ds ⟨m,[]⟩).reads, (v.disk lba).isSome) ↔
      ¬∃ a ∈ ds, v.disk (lbaOf v a) = none := by
  rw [request_reads,List.nil_append,List.forall_mem_map]
  push Not
  refine forall₂_congr fun a ha => ?_
  rw [sectorOf_eq (hds a ha),Option.isSome_iff_ne_none]

/-- `fat32_read` reports a success exactly if it read the whole chain, and reads nothing else, if
and only if the size is not one more than the length of the chain, the blocks of the clusters
have numbers of 32 bits, and, for the length itself, a block of the chain cannot be read. -/
theorem fat32Read_reports_iff (h : Terminated v c cs e) (hn : 1 ≤ n.toNat) (buffer : U64)
    (m : Memory) :
    (((fat32Read v c n buffer ⟨m,[]⟩).1 = 0#32 ↔ n.toNat = cs.length ∧
        ∀ lba ∈ (fat32Read v c n buffer ⟨m,[]⟩).2.reads, (v.disk lba).isSome) ∧
      ∀ lba ∈ (fat32Read v c n buffer ⟨m,[]⟩).2.reads, lba ∈ cs.map (lbaOf v)) ↔
    n.toNat ≠ cs.length + 1 ∧ (∀ a ∈ cs.take n.toNat, (lbaOf v a).toNat < 2 ^ 32) ∧
      (n.toNat = cs.length → ∃ a ∈ cs, v.disk (lbaOf v a) = none) := by
  have hfail : ¬1#32 = 0#32 := by decide
  rcases lt_trichotomy n.toNat (cs.length + 1) with hlt | heq | hgt
  · rw [h.read_le hn (by omega),requests_mem_iff (fun a ha => List.mem_of_mem_take ha)]
    constructor
    · rintro ⟨hret,hfit⟩
      rw [requests_succeed_iff hfit] at hret
      refine ⟨by omega,hfit,fun hlen => ?_⟩
      rw [hlen,List.take_length] at hret
      by_contra hall
      exact hfail (hret.mpr ⟨rfl,hall⟩)
    · rintro ⟨-,hfit,hbad⟩
      rw [requests_succeed_iff hfit]
      refine ⟨⟨fun h0 => absurd h0 hfail,fun ⟨hlen,hall⟩ => ?_⟩,hfit⟩
      rw [hlen,List.take_length] at hall
      exact absurd (hbad hlen) hall
  · rw [h.read_succ heq]
    constructor
    · rintro ⟨hret,-⟩
      have hlen := (hret.mp rfl).1
      omega
    · rintro ⟨hne,-⟩
      exact absurd heq hne
  · rw [h.read_gt hgt,requests_mem_iff (fun a ha => ha),List.take_of_length_le (by omega)]
    constructor
    · rintro ⟨-,hfit⟩
      exact ⟨by omega,hfit,fun hlen => by omega⟩
    · rintro ⟨-,hfit,-⟩
      exact ⟨⟨fun h0 => absurd h0 hfail,fun hret => by omega⟩,hfit⟩

theorem FileChain.terminated (h : FileChain v c cs) : ∃ e, Terminated v c cs e := by
  obtain ⟨e,hseg,he⟩ := h.linked
  exact ⟨e,hseg,he,fun a ha => (h.inRange a ha).2.2⟩

theorem FileChain.lbaOf_lt (h : FileChain v c cs) {a : U32} (ha : a ∈ cs) :
    (lbaOf v a).toNat < 2 ^ 32 := by
  have hlba := h.lba a ha
  have hmin := (h.inRange a ha).1
  simp only [lbaOf,BitVec.toNat_sub,BitVec.toNat_add,BitVec.toNat_setWidth,BitVec.toNat_ofNat]
  omega

/-- The first of two clusters alone is reported as a failure. -/
theorem rowVolume_reports :
    (((fat32Read (rowVolume 1) 3#32 1#32 0#64 ⟨fun _ => 0#8,[]⟩).1 = 0#32 ↔
        (1#32).toNat = (rowChain 1).length ∧
        ∀ lba ∈ (fat32Read (rowVolume 1) 3#32 1#32 0#64 ⟨fun _ => 0#8,[]⟩).2.reads,
          ((rowVolume 1).disk lba).isSome) ∧
      ∀ lba ∈ (fat32Read (rowVolume 1) 3#32 1#32 0#64 ⟨fun _ => 0#8,[]⟩).2.reads,
        lba ∈ (rowChain 1).map (lbaOf (rowVolume 1))) := by
  have hchain := rowVolume_chain (show 1 ≤ 2 ^ 23 by decide)
  obtain ⟨e,hterm⟩ := hchain.terminated
  refine (fat32Read_reports_iff hterm (by decide) 0#64 _).mpr ⟨by decide,fun a ha => ?_,?_⟩
  · exact hchain.lbaOf_lt (List.mem_of_mem_take ha)
  · exact fun hlen => absurd hlen (by decide)

/-- A file of one cluster is read as a whole and reported as a failure; for a size of two the end
mark is read as a cluster and a success is reported. -/
theorem rowVolume_not_reports : Terminated (rowVolume 0) 3#32 [3#32] 0xFFFFFFF#32 ∧
    (fat32Read (rowVolume 0) 3#32 1#32 0#64 ⟨fun _ => 0#8,[]⟩).1 = 1#32 ∧
    (∀ lba ∈ (fat32Read (rowVolume 0) 3#32 1#32 0#64 ⟨fun _ => 0#8,[]⟩).2.reads,
      ((rowVolume 0).disk lba).isSome) ∧
    (fat32Read (rowVolume 0) 3#32 2#32 0#64 ⟨fun _ => 0#8,[]⟩).1 = 0#32 ∧
    (fat32Read (rowVolume 0) 3#32 2#32 0#64 ⟨fun _ => 0#8,[]⟩).2.reads = [101#64,268435553#64] := by
  have hterm : Terminated (rowVolume 0) 3#32 [3#32] 0xFFFFFFF#32 := by
    refine ⟨⟨rfl,rfl⟩,by decide,fun a ha => ?_⟩
    rw [List.mem_singleton.mp ha]
    decide
  exact ⟨hterm,rfl,fun lba _ => rfl,rfl,rfl⟩

end Lios.Fat32

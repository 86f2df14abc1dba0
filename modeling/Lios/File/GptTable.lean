import Lios.File.Gpt

/-! # Which entries of the partition table count

The header declares how many entries the table has. `gpt_read` does not look at this number, so that
its result is the declared one only if the first 128 entries and the declared entries lead to the
same partition.
-/
namespace Lios.Gpt
variable {disk disk' : Disk} {n k : ℕ}

/-- The table declares the partition: a valid header, and one basic data partition among the entries
it declares. -/
def Declares (disk : Disk) (p : Dma.Partition) : Prop :=
  HeaderOk disk ∧ ∃ k, UniqueIn disk (declared disk) k ∧ (entryAt disk k).bounds = p

/-- Two disks with the same header and the same declared entries. -/
structure SameDeclared (disk disk' : Disk) : Prop where
  header : ∀ j < 512, disk' 1#64 j = disk 1#64 j
  entries : ∀ k < declared disk, ∀ j < 128,
    disk' (blockOf k) (128 * (k % 4) + j) = disk (blockOf k) (128 * (k % 4) + j)

section Declared

theorem u64In_congr {block block' : ℕ → U8} {o : ℕ} (h : ∀ j < 8, block' (o + j) = block (o + j)) :
    u64In block' o = u64In block o := word_congr h

theorem SameDeclared.header_eq (h : SameDeclared disk disk') :
    GPTHeader.of (disk' 1#64) = GPTHeader.of (disk 1#64) := by
  have hword (o : ℕ) (ho : o + 8 ≤ 512) : u64In (disk' 1#64) o = u64In (disk 1#64) o :=
    u64In_congr fun j hj => h.header (o + j) (by omega)
  simp only [GPTHeader.of,u32In,hword 0 (by decide),hword 12 (by decide),hword 24 (by decide),
    hword 72 (by decide),hword 80 (by decide),hword 84 (by decide)]

theorem SameDeclared.declared_eq (h : SameDeclared disk disk') : declared disk' = declared disk := by
  rw [declared,h.header_eq]
  rfl

theorem SameDeclared.headerOk (h : SameDeclared disk disk') : HeaderOk disk' ↔ HeaderOk disk := by
  rw [HeaderOk,h.header_eq]
  rfl

theorem entryAt_congr (h : ∀ j < 128,
    disk' (blockOf k) (128 * (k % 4) + j) = disk (blockOf k) (128 * (k % 4) + j)) :
    entryAt disk' k = entryAt disk k := by
  have hword (o : ℕ) (ho : o + 8 ≤ 128) : u64In (disk' (blockOf k)) (128 * (k % 4) + o) =
      u64In (disk (blockOf k)) (128 * (k % 4) + o) :=
    u64In_congr fun j hj => by
      rw [Nat.add_assoc]
      exact h (o + j) (by omega)
  have hzero := hword 0 (by decide)
  rw [Nat.add_zero] at hzero
  simp only [entryAt,PartitionEntry.of,hzero,hword 8 (by decide),hword 32 (by decide),
    hword 40 (by decide)]

/-- For a disk on which other entries are found, it matters whether the only basic data partition
among the first 128 entries is the only one among the declared entries. -/
theorem gptRead_declares_iff (hnz : Nonzero disk) :
    (∀ p, gptRead disk = .ok p ↔ Declares disk p) ↔
      (HeaderOk disk → ((∃ k, UniqueIn disk 128 k) ↔ ∃ k, UniqueIn disk (declared disk) k)) := by
  by_cases hok : HeaderOk disk
  · have hread (p : Dma.Partition) : gptRead disk = .ok p ↔
        ∃ k, UniqueIn disk 128 k ∧ (entryAt disk k).bounds = p := by
      rw [gptRead_eq hnz hok,verdict_eq_ok_iff]
    simp only [hread,Declares,hok,true_and,true_imp_iff]
    constructor
    · intro h
      constructor
      · rintro ⟨k,hk⟩
        obtain ⟨k',hk',-⟩ := (h _).mp ⟨k,hk,rfl⟩
        exact ⟨k',hk'⟩
      · rintro ⟨k,hk⟩
        obtain ⟨k',hk',-⟩ := (h _).mpr ⟨k,hk,rfl⟩
        exact ⟨k',hk'⟩
    · intro h p
      -- the two positions agree, since one of the ranges contains the other
      have hsame {k k' : ℕ} (hk : UniqueIn disk 128 k) (hk' : UniqueIn disk (declared disk) k') :
          k = k' := by
        rcases Nat.le_total 128 (declared disk) with hle | hle
        · exact hk'.only k (hk.lt.trans_le hle) hk.basic
        · exact (hk.only k' (hk'.lt.trans_le hle) hk'.basic).symm
      constructor
      · rintro ⟨k,hk,rfl⟩
        obtain ⟨k',hk'⟩ := h.mp ⟨k,hk⟩
        exact ⟨k',hk',by rw [hsame hk hk']⟩
      · rintro ⟨k',hk',rfl⟩
        obtain ⟨k,hk⟩ := h.mpr ⟨k',hk'⟩
        exact ⟨k,hk,by rw [hsame hk hk']⟩
  · obtain ⟨⟨m,herror⟩,-⟩ := gptRead_of_bad hok
    simp [herror,Declares,hok]

end Declared

section Stale

/-- The disk with other entries from the `d`-th on: the given one there, and none behind it. -/
def restaled (disk : Disk) (d : ℕ) (bytes : List U8) : Disk := fun lba j =>
  if 2 ≤ lba.toNat ∧ d ≤ 4 * (lba.toNat - 2) + j / 128 then
    if d = 4 * (lba.toNat - 2) + j / 128 then bytes.getD (j % 128) 0#8 else 0#8
  else disk lba j

theorem restaled_apply {d : ℕ} (bytes : List U8) (hk : k < 2 ^ 32) {j : ℕ} (hj : j < 128) :
    restaled disk d bytes (blockOf k) (128 * (k % 4) + j) =
      if d ≤ k then if d = k then bytes.getD j 0#8 else 0#8
      else disk (blockOf k) (128 * (k % 4) + j) := by
  have hlba : (blockOf k).toNat = 2 + k / 4 := by
    rw [blockOf,BitVec.toNat_ofNat]
    omega
  have hindex : 4 * (2 + k / 4 - 2) + (128 * (k % 4) + j) / 128 = k := by omega
  have hbyte : (128 * (k % 4) + j) % 128 = j := by omega
  rw [restaled,hlba,hindex,hbyte]
  simp only [Nat.le_add_right,true_and]

theorem sameDeclared_restaled (disk : Disk) (bytes : List U8) :
    SameDeclared disk (restaled disk (declared disk) bytes) where
  header j _ := if_neg fun h => absurd h.1 (by decide)
  entries k hk j hj := by
    have hlt : declared disk < 2 ^ 32 := BitVec.isLt _
    rw [restaled_apply bytes (by omega) hj,if_neg (by omega)]

theorem entryAt_restaled_of_lt {d : ℕ} (bytes : List U8) (hd : d < 2 ^ 32) (hk : k < d) :
    entryAt (restaled disk d bytes) k = entryAt disk k := by
  refine entryAt_congr fun j hj => ?_
  rw [restaled_apply bytes (by omega) hj,if_neg (by omega)]

/-- The bytes of a basic data partition, up to its last block. -/
def basicBytes (first last : U64) : List U8 :=
  [0xA2#8,0xA0#8,0xD0#8,0xEB#8,0xE5#8,0xB9#8,0x33#8,0x44#8,0x87#8,0xC0#8,0x68#8,0xB6#8,0xB7#8,0x26#8,
    0x99#8,0xC7#8] ++ List.replicate 16 0#8 ++ wordBytes first ++ wordBytes last

theorem of_basicBytes (first last : U64) :
    PartitionEntry.of (fun j => (basicBytes first last).getD j 0#8) 0 =
      ⟨0x4433B9E5EBD0A0A2#64,0xC79926B7B668C087#64,first,last⟩ := by
  have hguid0 : u64In (fun j => (basicBytes first last).getD j 0#8) 0 = 0x4433B9E5EBD0A0A2#64 :=
    (word_congr (g := fun k => [0xA2#8,0xA0#8,0xD0#8,0xEB#8,0xE5#8,0xB9#8,0x33#8,0x44#8].getD k 0#8)
      fun k hk => by interval_cases k <;> rfl).trans (by decide)
  have hguid1 : u64In (fun j => (basicBytes first last).getD j 0#8) 8 = 0xC79926B7B668C087#64 :=
    (word_congr (g := fun k => [0x87#8,0xC0#8,0x68#8,0xB6#8,0xB7#8,0x26#8,0x99#8,0xC7#8].getD k 0#8)
      fun k hk => by interval_cases k <;> rfl).trans (by decide)
  have hfirst : u64In (fun j => (basicBytes first last).getD j 0#8) 32 = first :=
    (word_congr fun k hk => by interval_cases k <;> rfl).trans (word_bytes first)
  have hlast : u64In (fun j => (basicBytes first last).getD j 0#8) 40 = last :=
    (word_congr fun k hk => by interval_cases k <;> rfl).trans (word_bytes last)
  simp only [PartitionEntry.of,Nat.mul_zero,Nat.zero_add,hguid0,hguid1,hfirst,hlast]

theorem entryAt_restaled {d : ℕ} (bytes : List U8) (hk : k < 2 ^ 32) (hd : d ≤ k) :
    entryAt (restaled disk d bytes) k =
      if d = k then PartitionEntry.of (fun j => bytes.getD j 0#8) 0
      else PartitionEntry.of (fun _ => 0#8) 0 := by
  have hword (o : ℕ) (ho : o + 8 ≤ 128) : u64In (restaled disk d bytes (blockOf k))
      (128 * (k % 4) + o) = u64In (fun j => if d = k then bytes.getD j 0#8 else 0#8) o := by
    refine word_congr fun j hj => ?_
    rw [Nat.add_assoc,restaled_apply bytes hk (by omega),if_pos hd]
  have hzero := hword 0 (by decide)
  rw [Nat.add_zero] at hzero
  simp only [entryAt,PartitionEntry.of,hzero,hword 8 (by decide),hword 32 (by decide),
    hword 40 (by decide)]
  split
  · rfl
  · rfl

theorem nonzero_restaled (hnz : Nonzero disk) {bytes : List U8}
    (hbytes : (PartitionEntry.of (fun j => bytes.getD j 0#8) 0).firstLba ≠ 0#64 ∨
      (PartitionEntry.of (fun j => bytes.getD j 0#8) 0).isBasic = false) :
    Nonzero (restaled disk (declared disk) bytes) := by
  have hsame := sameDeclared_restaled disk bytes
  have hlt : declared disk < 2 ^ 32 := BitVec.isLt _
  intro k hk hb
  rw [hsame.declared_eq] at hk
  rcases Nat.lt_or_ge k (declared disk) with hin | hout
  · rw [entryAt_congr (hsame.entries k hin)] at hb ⊢
    exact hnz k (.inr hin) hb
  · rw [entryAt_restaled bytes (by omega) hout] at hb ⊢
    split at hb
    · rw [if_pos (by assumption)]
      refine hbytes.resolve_right fun hnot => ?_
      rw [hb] at hnot
      cases hnot
    · exact absurd hb (by decide)

theorem lt_of_restaled_basic {d : ℕ} (hk : k < 128)
    (hb : (entryAt (restaled disk d []) k).isBasic = true) : k < d := by
  by_contra hge
  rw [entryAt_restaled [] (by omega) (by omega)] at hb
  split at hb
  · exact absurd hb (by decide)
  · exact absurd hb (by decide)

theorem restaled_new_basic {d : ℕ} (bytes : List U8) (hd : d < 128)
    (hb : (PartitionEntry.of (fun j => bytes.getD j 0#8) 0).isBasic = true) :
    (entryAt (restaled disk d bytes) d).isBasic = true := by
  rwa [entryAt_restaled bytes (by omega) le_rfl,if_pos rfl]

/-- The entry that is put there is the only one, if there is none before it. -/
theorem unique_restaled {d : ℕ} {bytes : List U8} (hd : d < 128)
    (hb : (PartitionEntry.of (fun j => bytes.getD j 0#8) 0).isBasic = true)
    (hnone : ∀ k < d, (entryAt disk k).isBasic ≠ true) :
    UniqueIn (restaled disk d bytes) 128 d := by
  refine ⟨hd,restaled_new_basic bytes hd hb,fun j hj hbj => ?_⟩
  by_contra hne
  rcases Nat.lt_or_ge j d with hjd | hjd
  · rw [entryAt_restaled_of_lt bytes (by omega) hjd] at hbj
    exact hnone j hjd hbj
  · rw [entryAt_restaled bytes (by omega) hjd,if_neg (fun h => hne h.symm)] at hbj
    exact absurd hbj (by decide)

/-- At most one of the declared entries is a basic data partition. -/
def AtMostOne (disk : Disk) : Prop :=
  ∀ i j, i < j → j < declared disk → (entryAt disk i).isBasic = true →
    (entryAt disk j).isBasic ≠ true

theorem AtMostOne.unique_restaled (hone : AtMostOne disk) (hlt : declared disk < 128)
    (hk : k < declared disk) (hb : (entryAt disk k).isBasic = true) :
    UniqueIn (restaled disk (declared disk) []) 128 k := by
  refine ⟨by omega,by rwa [entryAt_restaled_of_lt [] (by omega) hk],fun j hj hbj => ?_⟩
  have hjd := lt_of_restaled_basic hj hbj
  rw [entryAt_restaled_of_lt [] (by omega) hjd] at hbj
  rcases Nat.lt_trichotomy j k with hjk | hjk | hjk
  · exact absurd hb (hone j k hjk hk hbj)
  · exact hjk
  · exact absurd hbj (hone k j hjk hjd hb)

/-- Without stale entries and with one the scan ends differently. -/
theorem verdict_restaled_ne (hlt : declared disk < 128) (hone : AtMostOne disk) :
    verdict (basics (restaled disk (declared disk) []) 128) ≠
      verdict (basics (restaled disk (declared disk) (basicBytes 1#64 1#64)) 128) := by
  intro heq
  by_cases hex : ∃ k < declared disk, (entryAt disk k).isBasic = true
  · obtain ⟨k,hk,hb⟩ := hex
    have htwo := verdict_of_two hk hlt (by rwa [entryAt_restaled_of_lt _ (by omega) hk])
      (restaled_new_basic (basicBytes 1#64 1#64) hlt (by decide))
    rw [verdict_eq_ok_iff.mpr ⟨k,hone.unique_restaled hlt hk hb,rfl⟩,htwo] at heq
    cases heq
  · push Not at hex
    have hunique : UniqueIn (restaled disk (declared disk) (basicBytes 1#64 1#64)) 128
        (declared disk) := unique_restaled hlt (by decide) hex
    rw [verdict_eq_ok_iff.mpr ⟨_,hunique,rfl⟩] at heq
    obtain ⟨k,hk,-⟩ := verdict_eq_ok_iff.mp heq
    have hkd := lt_of_restaled_basic hk.lt hk.basic
    have hb := hk.basic
    rw [entryAt_restaled_of_lt [] (by omega) hkd] at hb
    exact hex k hkd hb

/-- Behind the declared entries a stale one can be put, or none, as long as the scan goes there and
has not failed already. -/
theorem gptRead_stale_iff (hnz : Nonzero disk) :
    (∀ disk', SameDeclared disk disk' → Nonzero disk' → gptRead disk' = gptRead disk) ↔
      (HeaderOk disk → 128 ≤ declared disk ∨ ¬AtMostOne disk) := by
  constructor
  · intro h hok
    by_contra hno
    push Not at hno
    obtain ⟨hlt,hone⟩ := hno
    have hresult {bytes : List U8} (hbytes : Nonzero (restaled disk (declared disk) bytes)) :
        verdict (basics (restaled disk (declared disk) bytes) 128) = gptRead disk := by
      have hsame := sameDeclared_restaled disk bytes
      rw [← gptRead_eq hbytes (hsame.headerOk.mpr hok)]
      exact h _ hsame hbytes
    refine verdict_restaled_ne hlt hone ?_
    rw [hresult (nonzero_restaled hnz (.inr (by decide))),
      hresult (nonzero_restaled hnz (.inl (by decide)))]
  · intro h disk' hsame hnz'
    by_cases hok : HeaderOk disk
    · rw [gptRead_eq hnz' (hsame.headerOk.mpr hok),gptRead_eq hnz hok]
      have hin {k : ℕ} (hk : k < declared disk) : entryAt disk' k = entryAt disk k :=
        entryAt_congr (hsame.entries k hk)
      rcases Nat.lt_or_ge (declared disk) 128 with hlt | hge
      · have htwo := (h hok).resolve_left (by omega)
        rw [AtMostOne] at htwo
        push Not at htwo
        obtain ⟨i,j,hij,hj,hbi,hbj⟩ := htwo
        rw [verdict_of_two hij (by omega) hbi hbj,verdict_of_two hij (by omega)
          (by rwa [hin (by omega)]) (by rwa [hin hj])]
      · rw [basics_congr fun k hk => hin (by omega)]
    · exact (gptRead_of_bad hok).2 disk' hsame.header_eq

end Stale

/-- The result is the declared partition, and there is an error without one, if and only if one basic
data partition among the first 128 entries means one among the declared entries. The entries behind
the declared ones have no influence if and only if 128 entries or more are declared, or two of them
are basic data partitions. -/
theorem gptRead_exact_iff (hnz : Nonzero disk) :
    ((∀ p, gptRead disk = .ok p ↔ Declares disk p) ↔
      (HeaderOk disk → ((∃ k, UniqueIn disk 128 k) ↔ ∃ k, UniqueIn disk (declared disk) k))) ∧
    ((∀ disk', SameDeclared disk disk' → Nonzero disk' → gptRead disk' = gptRead disk) ↔
      (HeaderOk disk → 128 ≤ declared disk ∨ ¬AtMostOne disk)) :=
  ⟨gptRead_declares_iff hnz,gptRead_stale_iff hnz⟩

section Sample

/-- A header that declares `n` entries, and nothing else. -/
def emptyTable (n : U8) : Disk := fun lba j =>
  if lba = 1#64 then
    ([0x45#8,0x46#8,0x49#8,0x20#8,0x50#8,0x41#8,0x52#8,0x54#8] ++ List.replicate 4 0#8 ++ [92#8] ++
      List.replicate 11 0#8 ++ [1#8] ++ List.replicate 47 0#8 ++ [2#8] ++ List.replicate 7 0#8 ++
      [n,0#8,0#8,0#8,128#8]).getD j 0#8
  else 0#8

theorem entryAt_emptyTable (n : U8) (hk : k < 128) :
    entryAt (emptyTable n) k = .of (fun _ => 0#8) 0 := by
  have hlba : blockOf k ≠ 1#64 := by
    intro h
    have h := congrArg BitVec.toNat h
    rw [blockOf,BitVec.toNat_ofNat,show (1#64).toNat = 1 from rfl] at h
    omega
  have hblock : emptyTable n (blockOf k) = fun _ => 0#8 := by
    funext j
    exact if_neg hlba
  rw [entryAt,hblock]
  rfl

/-- The table with a partition as the `d`-th entry. -/
def tableWith (n : U8) (d : ℕ) (first last : U64) : Disk :=
  restaled (emptyTable n) d (basicBytes first last)

section
variable {n : U8} {d : ℕ} {first last : U64}

theorem nonzero_tableWith (hd : d < 128) (hn : declared (tableWith n d first last) ≤ 128)
    (hfirst : first ≠ 0#64) : Nonzero (tableWith n d first last) := by
  intro k hk hb
  rw [tableWith] at hb ⊢
  rcases Nat.lt_or_ge k d with hlt | hge
  · rw [entryAt_restaled_of_lt _ (by omega) hlt,entryAt_emptyTable n (by omega)] at hb
    exact absurd hb (by decide)
  · rw [entryAt_restaled _ (by omega) hge,of_basicBytes] at hb ⊢
    split at hb
    · rwa [if_pos (by assumption)]
    · exact absurd hb (by decide)

theorem gptRead_tableWith (hd : d < 128) (hok : HeaderOk (tableWith n d first last))
    (hnz : Nonzero (tableWith n d first last)) :
    gptRead (tableWith n d first last) = .ok ⟨first,last⟩ := by
  rw [gptRead_eq hnz hok,verdict_eq_ok_iff]
  refine ⟨d,unique_restaled hd ?_ fun k hk => ?_,?_⟩
  · rw [of_basicBytes]
    rfl
  · rw [entryAt_emptyTable n (by omega)]
    decide
  · rw [tableWith,entryAt_restaled _ (by omega) le_rfl,if_pos rfl,of_basicBytes]
    rfl

end

/-- A table of 128 entries. -/
theorem tableWith_declares :
    Nonzero (tableWith 128#8 0 64#64 127#64) ∧
      (∀ p, gptRead (tableWith 128#8 0 64#64 127#64) = .ok p ↔
        Declares (tableWith 128#8 0 64#64 127#64) p) ∧
      ∀ disk', SameDeclared (tableWith 128#8 0 64#64 127#64) disk' → Nonzero disk' →
        gptRead disk' = gptRead (tableWith 128#8 0 64#64 127#64) := by
  have hdeclared : declared (tableWith 128#8 0 64#64 127#64) = 128 := by decide +kernel
  have hnz : Nonzero (tableWith 128#8 0 64#64 127#64) :=
    nonzero_tableWith (by decide) hdeclared.le (by decide)
  obtain ⟨hexact,hstale⟩ := gptRead_exact_iff hnz
  refine ⟨hnz,hexact.mpr fun _ => ?_,hstale.mpr fun _ => .inl hdeclared.ge⟩
  rw [hdeclared]

/-- A table that declares four entries, with a stale one behind them. -/
theorem tableWith_stale :
    gptRead (tableWith 4#8 4 64#64 127#64) = .ok ⟨64#64,127#64⟩ ∧
      ¬Declares (tableWith 4#8 4 64#64 127#64) ⟨64#64,127#64⟩ := by
  have hdeclared : declared (tableWith 4#8 4 64#64 127#64) = 4 := by decide +kernel
  have hnz : Nonzero (tableWith 4#8 4 64#64 127#64) :=
    nonzero_tableWith (by decide) (by rw [hdeclared]; decide) (by decide)
  refine ⟨gptRead_tableWith (by decide) (by decide +kernel) hnz,?_⟩
  rintro ⟨-,k,hk,-⟩
  have hb := hk.basic
  have hlt := hk.lt
  rw [hdeclared] at hlt
  rw [tableWith,entryAt_restaled_of_lt _ (by decide) hlt,entryAt_emptyTable 4#8 (by omega)] at hb
  exact absurd hb (by decide)

end Sample

end Lios.Gpt

import Mathlib.Data.Fintype.Card
import Mathlib.Tactic.Basic
import Lios.Lib.LinkedList
import Lios.File.Fat32

/-! # Counting a cluster chain and reading it back

`fat32_open` counts the clusters of a chain and `fat32_read` walks the same chain
with a look-ahead, which stays on a cluster in its last round. Both walks are followed
along the list of clusters of the chain. They agree on its length, and the sectors are
requested in its order. The position in the buffer is computed with 32 bits, so the two
walks deliver the file exactly when it has at most `2 ^ 23` clusters.
-/
namespace Lios.Fat32
variable {v : Volume} {c : U32} {cs : List U32}

/-- The clusters from `c` on, up to the one whose entry ends the chain. -/
structure FileChain (v : Volume) (c : U32) (cs : List U32) : Prop where
  linked : ∃ e, Segment (fun a => v.fat a.toNat) c cs e ∧ isEndingCluster e = true
  ne_nil : cs ≠ []
  nodup : cs.Nodup
  inRange : ∀ a ∈ cs, 2 ≤ a.toNat ∧ a.toNat < 128 * v.fatSize.toNat ∧ isEndingCluster a = false
  entries : ∀ a ∈ cs, (v.fat a.toNat).toNat < 2 ^ 28
  lba : ∀ a ∈ cs, v.dataStartLba.toNat + a.toNat < 2 ^ 32

theorem FileChain.ne_zero (h : FileChain v c cs) {a : U32} (ha : a ∈ cs) : a ≠ 0#32 := by
  rintro rfl
  have := (h.inRange _ ha).1
  simp at this

theorem FileChain.length_lt (h : FileChain v c cs) : cs.length < 2 ^ 32 := by
  have hnd : ((0#32 :: cs).map BitVec.toFin).Nodup := by
    refine List.Nodup.map (fun a b hab => BitVec.toFin_inj.mp hab)
      (List.nodup_cons.mpr ⟨?_,h.nodup⟩)
    exact fun h0 => h.ne_zero h0 rfl
  have hle := hnd.length_le_card
  rw [Fintype.card_fin,List.length_map,List.length_cons] at hle
  exact hle

theorem not_zero_of_isEndingCluster {e : U32} (h : isEndingCluster e = true) : e ≠ 0#32 := by
  rintro rfl
  revert h
  decide

theorem not_isEndingCluster_of_lt {a : U32} (h : a.toNat < 0xFFFFFF8) :
    isEndingCluster a = false := by
  have hand : (a &&& 0xFFFFFFF#32).toNat ≤ a.toNat := by
    rw [BitVec.toNat_and]
    exact Nat.and_le_left
  simp only [isEndingCluster,Bool.and_eq_false_iff,decide_eq_false_iff_not,BitVec.le_def,not_le,
    BitVec.toNat_ofNat]
  omega

/-- The counting loop along a chain, from any count. -/
theorem countClusters_eq {e : U32} (hseg : Segment (fun a => v.fat a.toNat) c cs e)
    (hne : cs ≠ []) (he : isEndingCluster e = true)
    (hmid : ∀ a ∈ cs, a ≠ 0#32 ∧ isEndingCluster a = false) (fuel : ℕ) (num : U64) :
    countClusters v fuel (c.setWidth 64) num =
      if cs.length ≤ fuel then .done (num + BitVec.ofNat 64 cs.length) v else .spin := by
  induction cs generalizing c fuel num with
  | nil => exact absurd rfl hne
  | cons a cs ih =>
    obtain ⟨rfl,hseg⟩ := hseg
    cases fuel with
    | zero => rfl
    | succ fuel =>
      have hc : (c.setWidth 64).toNat = c.toNat := by
        rw [BitVec.toNat_setWidth,Nat.mod_eq_of_lt (by omega)]
      rw [countClusters,hc]
      cases cs with
      | nil =>
        obtain rfl : v.fat c.toNat = e := hseg
        simp [not_zero_of_isEndingCluster he,he]
      | cons b cs =>
        have hb : v.fat c.toNat = b := hseg.1
        obtain ⟨hb0,hbe⟩ := hmid b (by simp)
        have hlen : num + 1#64 + BitVec.ofNat 64 (b :: cs).length =
            num + BitVec.ofNat 64 (c :: b :: cs).length := by
          rw [List.length_cons (a := c),BitVec.ofNat_add,add_assoc,add_comm 1#64]
        simp only [hb,hb0,hbe,if_false,Bool.false_eq_true]
        rw [ih (c := b) (hb ▸ hseg) (by simp) (fun x hx => hmid x (List.mem_cons_of_mem _ hx)),hlen]
        simp only [List.length_cons,Nat.add_le_add_iff_right]

/-- The block in which a cluster is stored. -/
def lbaOf (v : Volume) (a : U32) : U64 := v.dataStartLba + a.setWidth 64 - 2#64

/-- The position of the `i`-th sector in the buffer, as the code computes it. -/
def offset (i : ℕ) : U64 := (BitVec.ofNat 32 i * 512#32).setWidth 64

/-- The transfers of the sectors of `cs`, the first of them to the `i`-th position. -/
def deliver (v : Volume) (buffer : U64) : ℕ → List U32 → Transfers → Transfers
  | _,[],t => t
  | i,a :: cs,t => deliver v buffer (i + 1) cs (nvmeRead v (lbaOf v a) (buffer + offset i) t)

section Walk
variable {e n : U32} {buffer : U64} {t : Transfers}

/-- The clusters that the table links from `c` on, up to an entry that ends the chain. -/
structure Terminated (v : Volume) (c : U32) (cs : List U32) (e : U32) : Prop where
  linked : Segment (fun a => v.fat a.toNat) c cs e
  ends : isEndingCluster e = true
  running : ∀ a ∈ cs, isEndingCluster a = false

/-- The number of the block that is read for a cluster, as the code computes it. -/
def sectorOf (v : Volume) (a : U32) : U64 :=
  ((v.dataStartLba + a.setWidth 64 - 2#64).setWidth 32).setWidth 64

/-- The transfers for the clusters `cs`, the first of them to the `i`-th position. -/
def request (v : Volume) (buffer : U64) : ℕ → List U32 → Transfers → Transfers
  | _,[],t => t
  | i,a :: cs,t => request v buffer (i + 1) cs (nvmeRead v (sectorOf v a) (buffer + offset i) t)

theorem request_reads (i : ℕ) (cs : List U32) (t : Transfers) :
    (request v buffer i cs t).reads = t.reads ++ cs.map (sectorOf v) := by
  induction cs generalizing i t with
  | nil => simp [request]
  | cons a cs ih => simp [request,ih,nvmeRead]

theorem request_snoc (i : ℕ) (cs : List U32) (a : U32) (t : Transfers) :
    request v buffer i (cs ++ [a]) t =
      nvmeRead v (sectorOf v a) (buffer + offset (i + cs.length)) (request v buffer i cs t) := by
  induction cs generalizing i t with
  | nil => rfl
  | cons b cs ih =>
    rw [List.cons_append,request,ih,request,List.length_cons,Nat.add_assoc,Nat.add_comm 1]

theorem lt_size_sub_one {i : ℕ} (hi : i < n.toNat) :
    BitVec.ofNat 32 i < n - 1#32 ↔ i + 1 < n.toNat := by
  have hn := n.isLt
  rw [BitVec.lt_def,BitVec.toNat_sub,BitVec.toNat_ofNat,BitVec.toNat_ofNat]
  omega

/-- Rounds that are not the last one follow the table. -/
theorem readLoop_walk {i : ℕ} (hseg : Segment (fun a => v.fat a.toNat) c cs e)
    (hrun : ∀ a ∈ cs, isEndingCluster a = false) (hi : i + cs.length < n.toNat) (rounds : ℕ)
    (buffer : U64) (t : Transfers) :
    readLoop v n buffer (cs.length + rounds) (BitVec.ofNat 32 i) c t =
      readLoop v n buffer rounds (BitVec.ofNat 32 (i + cs.length)) e (request v buffer i cs t) := by
  induction cs generalizing c i t with
  | nil =>
    obtain rfl : c = e := hseg
    rw [List.length_nil,Nat.zero_add,Nat.add_zero,request]
  | cons a cs ih =>
    obtain ⟨rfl,hseg⟩ := hseg
    rw [List.length_cons] at hi
    rw [List.length_cons,Nat.add_right_comm,readLoop]
    rw [if_pos ((lt_size_sub_one (by omega)).mpr (by omega)),hrun c List.mem_cons_self,
      if_neg (by decide),← BitVec.ofNat_add]
    rw [ih hseg (fun b hb => hrun b (List.mem_cons_of_mem c hb)) (by omega),request,
      Nat.add_assoc i 1,Nat.add_comm 1]
    rfl

theorem readLoop_last {i : ℕ} (hi : i + 1 = n.toNat) :
    readLoop v n buffer 1 (BitVec.ofNat 32 i) c t =
      (if isEndingCluster c then 0#32 else 1#32,
        nvmeRead v (sectorOf v c) (buffer + offset i) t) := by
  rw [readLoop]
  rw [if_neg fun hlt => absurd ((lt_size_sub_one (by omega)).mp hlt) (by omega)]
  rfl

theorem readLoop_end {i : ℕ} (hi : i + 1 < n.toNat) (hc : isEndingCluster c = true) (rounds : ℕ) :
    readLoop v n buffer (rounds + 1) (BitVec.ofNat 32 i) c t = (1#32,t) := by
  rw [readLoop]
  rw [if_pos ((lt_size_sub_one (by omega)).mpr hi),if_pos hc]

/-- A size up to the length of the chain is reported as a failure. -/
theorem Terminated.read_le (h : Terminated v c cs e) (hn : 1 ≤ n.toNat)
    (hle : n.toNat ≤ cs.length) :
    fat32Read v c n buffer t = (1#32,request v buffer 0 (cs.take n.toNat) t) := by
  obtain ⟨k,hk⟩ : ∃ k, n.toNat = k + 1 := ⟨n.toNat - 1,by omega⟩
  have hlt : k < cs.length := by omega
  have hlen : (cs.take k).length = k := List.length_take_of_le hlt.le
  obtain ⟨b,hfront,hrest⟩ := segment_append.mp
    (show Segment _ c (cs.take k ++ cs.drop k) e by rw [List.take_append_drop]; exact h.linked)
  rw [List.drop_eq_getElem_cons hlt] at hrest
  obtain ⟨rfl,-⟩ := hrest
  have hwalk := readLoop_walk (i := 0) (n := n) hfront
    (fun a ha => h.running a (List.mem_of_mem_take ha)) (by omega) 1 buffer t
  rw [hlen,Nat.zero_add] at hwalk
  rw [fat32Read,hk,hwalk,readLoop_last hk.symm,h.running _ (List.getElem_mem hlt),
    ← List.take_concat_get' cs k hlt,request_snoc,hlen,Nat.zero_add]
  rfl

/-- One cluster more than the chain has is reported as a success; the entry that ends the chain
is taken for a cluster. -/
theorem Terminated.read_succ (h : Terminated v c cs e) (hn : n.toNat = cs.length + 1) :
    fat32Read v c n buffer t = (0#32,request v buffer 0 (cs ++ [e]) t) := by
  have hwalk := readLoop_walk (i := 0) (n := n) h.linked h.running (by omega) 1 buffer t
  rw [Nat.zero_add] at hwalk
  rw [fat32Read,hn,hwalk,readLoop_last hn.symm,if_pos h.ends,request_snoc,Nat.zero_add]

theorem Terminated.read_gt (h : Terminated v c cs e) (hn : cs.length + 1 < n.toNat) :
    fat32Read v c n buffer t = (1#32,request v buffer 0 cs t) := by
  obtain ⟨k,hk⟩ : ∃ k, n.toNat = cs.length + (k + 1) := ⟨n.toNat - cs.length - 1,by omega⟩
  have hwalk := readLoop_walk (i := 0) (n := n) h.linked h.running (by omega) (k + 1) buffer t
  rw [Nat.zero_add] at hwalk
  rw [fat32Read,hk,hwalk,readLoop_end hn h.ends]

theorem sectorOf_eq {a : U32} (ha : (lbaOf v a).toNat < 2 ^ 32) : sectorOf v a = lbaOf v a := by
  apply BitVec.eq_of_toNat_eq
  rw [sectorOf,BitVec.toNat_setWidth,BitVec.toNat_setWidth]
  change (lbaOf v a).toNat % 2 ^ 32 % 2 ^ 64 = (lbaOf v a).toNat
  omega

theorem lbaOf_lt {a : U32} (h2 : 2 ≤ a.toNat) (h : v.dataStartLba.toNat + a.toNat < 2 ^ 32) :
    (lbaOf v a).toNat < 2 ^ 32 := by
  simp only [lbaOf,BitVec.toNat_setWidth,BitVec.toNat_sub,BitVec.toNat_add,BitVec.toNat_ofNat]
  omega

theorem request_eq_deliver (hcs : ∀ a ∈ cs, (lbaOf v a).toNat < 2 ^ 32) (i : ℕ) (t : Transfers) :
    request v buffer i cs t = deliver v buffer i cs t := by
  induction cs generalizing i t with
  | nil => rfl
  | cons a cs ih =>
    rw [request,deliver,sectorOf_eq (hcs a List.mem_cons_self)]
    exact ih (fun b hb => hcs b (List.mem_cons_of_mem a hb)) _ _

end Walk

theorem deliver_reads (v : Volume) (buffer : U64) (i : ℕ) (cs : List U32) (t : Transfers) :
    (deliver v buffer i cs t).reads = t.reads ++ cs.map (lbaOf v) := by
  induction cs generalizing i t with
  | nil => simp [deliver]
  | cons a cs ih => simp [deliver,ih,nvmeRead]

section Memory
variable {sec : U64 → Sector} {buffer : U64} {t : Transfers}

/-- The sectors of a chain, one behind the other. -/
def contents (v : Volume) (sec : U64 → Sector) (cs : List U32) : List U8 :=
  cs.flatMap fun a => (sec (lbaOf v a)).toList

theorem contents_length (cs : List U32) : (contents v sec cs).length = 512 * cs.length := by
  induction cs with
  | nil => rfl
  | cons a cs ih =>
    have hcons : contents v sec (a :: cs) = (sec (lbaOf v a)).toList ++ contents v sec cs := by
      simp [contents]
    rw [hcons,List.length_append,ih,Vector.length_toList,List.length_cons]
    omega

theorem contents_append (cs ds : List U32) :
    contents v sec (cs ++ ds) = contents v sec cs ++ contents v sec ds := by
  simp [contents]

theorem nvmeRead_mem (hdisk : ∀ lba, v.disk lba = some (sec lba)) (lba target : U64) :
    (nvmeRead v lba target t).mem = store t.mem target (sec lba).toList := by
  simp [nvmeRead,hdisk]

theorem offset_toNat (i : ℕ) : (offset i).toNat = 512 * i % 2 ^ 32 := by
  simp only [offset,BitVec.toNat_setWidth,BitVec.toNat_mul,BitVec.toNat_ofNat]
  omega

/-- Up to `2 ^ 23` sectors the positions do not wrap, and the file is stored as one
string. -/
theorem deliver_mem {m : Memory} (hdisk : ∀ lba, v.disk lba = some (sec lba)) (ds : List U32)
    (hlen : ds.length + cs.length ≤ 2 ^ 23) (hm : t.mem = store m buffer (contents v sec ds)) :
    (deliver v buffer ds.length cs t).mem = store m buffer (contents v sec (ds ++ cs)) := by
  induction cs generalizing ds t with
  | nil => simpa [deliver] using hm
  | cons a cs ih =>
    rw [List.length_cons] at hlen
    have hoff : offset ds.length = BitVec.ofNat 64 (contents v sec ds).length := by
      apply BitVec.eq_of_toNat_eq
      rw [offset_toNat,contents_length,BitVec.toNat_ofNat]
      omega
    have hone : (contents v sec [a]) = (sec (lbaOf v a)).toList := by simp [contents]
    have hstep : (nvmeRead v (lbaOf v a) (buffer + offset ds.length) t).mem =
        store m buffer (contents v sec (ds ++ [a])) := by
      rw [nvmeRead_mem hdisk,hm,hoff,← hone,store_append,contents_append]
      · rw [contents_length,contents_length,List.length_singleton]
        omega
      · rw [contents_length]
        omega
    have hrest := ih (ds ++ [a]) (by simpa using by omega) hstep
    rw [List.length_append,List.length_singleton,List.append_assoc] at hrest
    exact hrest

/-- No transfer reaches the byte at position `2 ^ 32` of the buffer. -/
theorem deliver_mem_past (hdisk : ∀ lba, v.disk lba = some (sec lba)) (i : ℕ) :
    (deliver v buffer i cs t).mem (buffer + BitVec.ofNat 64 (2 ^ 32)) =
      t.mem (buffer + BitVec.ofNat 64 (2 ^ 32)) := by
  induction cs generalizing i t with
  | nil => rfl
  | cons a cs ih =>
    rw [deliver,ih,nvmeRead_mem hdisk]
    apply store_of_le
    have hoff := offset_toNat i
    rw [Vector.length_toList,add_sub_add_left_eq_sub,BitVec.toNat_sub,BitVec.toNat_ofNat]
    omega

end Memory

/-- The sectors were requested in the order of the chain, the buffer holds their
concatenation and every other byte is as before. -/
def ReadsBack (v : Volume) (sec : U64 → Sector) (cs : List U32) (buffer : U64) (m : Memory)
    (t : Transfers) : Prop :=
  t.reads = cs.map (lbaOf v) ∧ t.mem = store m buffer (contents v sec cs)

theorem fat32Read_eq (h : FileChain v c cs) {n : U32} (hn : n.toNat = cs.length) (buffer : U64)
    (t : Transfers) : fat32Read v c n buffer t = (1#32,deliver v buffer 0 cs t) := by
  obtain ⟨e,hseg,he⟩ := h.linked
  have hterm : Terminated v c cs e := ⟨hseg,he,fun a ha => (h.inRange a ha).2.2⟩
  have hpos := List.length_pos_iff.mpr h.ne_nil
  rw [hterm.read_le (by omega) hn.le,hn,List.take_length,
    request_eq_deliver fun a ha => lbaOf_lt (h.inRange a ha).1 (h.lba a ha)]

theorem readsBack_iff {sec : U64 → Sector} (hdisk : ∀ lba, v.disk lba = some (sec lba))
    (h : FileChain v c cs) {n : U32} (hn : n.toNat = cs.length) :
    (∀ buffer m, ReadsBack v sec cs buffer m (fat32Read v c n buffer ⟨m,[]⟩).2) ↔
      cs.length ≤ 2 ^ 23 := by
  constructor
  · intro hall
    by_contra hlong
    have hpos : ((0#64 + BitVec.ofNat 64 (2 ^ 32)) - 0#64).toNat = 2 ^ 32 := by decide
    have hin : 2 ^ 32 < (contents v sec cs).length := by
      rw [contents_length]
      omega
    obtain ⟨-,hmem⟩ := hall 0#64 (fun _ => (contents v sec cs)[2 ^ 32] + 1#8)
    have hbyte := congrFun hmem (0#64 + BitVec.ofNat 64 (2 ^ 32))
    rw [fat32Read_eq h hn,deliver_mem_past hdisk,store_of_lt (by rw [hpos]; exact hin)] at hbyte
    simp only [hpos] at hbyte
    simp at hbyte
  · intro hlen buffer m
    rw [fat32Read_eq h hn]
    refine ⟨by simp [deliver_reads],?_⟩
    exact deliver_mem (t := ⟨m,[]⟩) hdisk [] (by simpa using hlen) (by simp [contents])

theorem FileChain.head_mem (h : FileChain v c cs) : c ∈ cs := by
  obtain ⟨e,hseg,-⟩ := h.linked
  cases cs with
  | nil => exact absurd rfl h.ne_nil
  | cons a cs =>
    obtain ⟨rfl,-⟩ := hseg
    exact List.mem_cons_self

theorem FileChain.countClusters (h : FileChain v c cs) (fuel : ℕ) :
    countClusters v fuel (c.setWidth 64) 0#64 =
      if cs.length ≤ fuel then .done (BitVec.ofNat 64 cs.length) v else .spin := by
  obtain ⟨e,hseg,he⟩ := h.linked
  rw [countClusters_eq hseg h.ne_nil he (fun a ha => ⟨h.ne_zero ha,(h.inRange a ha).2.2⟩),
    BitVec.zero_add]

theorem FileChain.size (h : FileChain v c cs) :
    ((BitVec.ofNat 64 cs.length).setWidth 32).toNat = cs.length := by
  have hlen := h.length_lt
  rw [BitVec.toNat_setWidth,BitVec.toNat_ofNat,Nat.mod_eq_of_lt (a := cs.length) (by omega),
    Nat.mod_eq_of_lt hlen]

theorem searchDirectory_state {name ext : List U8} {fuel : ℕ} {dir : U64} {v' : Volume}
    (h : searchDirectory v name ext fuel dir = .done c v') : v' = v := by
  induction fuel generalizing dir with
  | zero => cases h
  | succ fuel ih =>
    unfold searchDirectory at h
    simp only at h
    split at h
    · exact (Outcome.done.inj h).2.symm
    split at h
    · cases h
    split at h
    · exact (Outcome.done.inj h).2.symm
    · exact ih h

theorem getClusterNum_state {name ext : List U8} {fuel : ℕ} {v' : Volume}
    (h : getClusterNum fuel name ext v = .done c v') : v' = v := by
  unfold getClusterNum at h
  split at h
  · exact (Outcome.done.inj h).2.symm
  split at h
  · exact (Outcome.done.inj h).2.symm
  · exact searchDirectory_state h

theorem fat32Open_size {name ext : List U8} {fuel : ℕ} {n : U32} (h : FileChain v c cs)
    (hopen : fat32Open fuel name ext v = .done ⟨c,n⟩ v) : n.toNat = cs.length := by
  have hc := h.ne_zero h.head_mem
  unfold fat32Open at hopen
  split at hopen
  · exact absurd (congrArg OpenResult.cluster (Outcome.done.inj hopen).1).symm hc
  split at hopen
  · exact absurd (congrArg OpenResult.cluster (Outcome.done.inj hopen).1).symm hc
  obtain ⟨c',v',hget,hrest⟩ := Outcome.bind_eq_done.mp hopen
  obtain rfl := getClusterNum_state hget
  split at hrest
  · exact absurd (congrArg OpenResult.cluster (Outcome.done.inj hrest).1).symm hc
  obtain ⟨num,v'',hcount,hret⟩ := Outcome.bind_eq_done.mp hrest
  obtain ⟨hres,rfl⟩ := Outcome.done.inj hret
  obtain ⟨rfl,rfl⟩ := OpenResult.mk.inj hres
  rw [h.countClusters] at hcount
  split at hcount
  · rw [← (Outcome.done.inj hcount).1]
    exact h.size
  · cases hcount

/-- If `fat32_open` finds the first cluster of a chain, then the size it returns is
the length of the chain and reading that many clusters delivers the whole file, if
and only if the chain has at most `2 ^ 23` clusters. -/
theorem fat32_open_read_iff {sec : U64 → Sector} {name ext : List U8} {fuel : ℕ} {n : U32}
    (hdisk : ∀ lba, v.disk lba = some (sec lba)) (h : FileChain v c cs)
    (hopen : fat32Open fuel name ext v = .done ⟨c,n⟩ v) :
    (n.toNat = cs.length ∧
      ∀ buffer m, ReadsBack v sec cs buffer m (fat32Read v c n buffer ⟨m,[]⟩).2) ↔
      cs.length ≤ 2 ^ 23 := by
  have hn := fat32Open_size h hopen
  rw [readsBack_iff hdisk h hn]
  exact and_iff_right hn

/-! A volume with one file, whose clusters follow each other. -/

/-- The first entry of the root directory names the file `A` at cluster 3. -/
def rowSector (lba : U64) : Sector :=
  if lba = 100#64 then
    (((List.range 11).foldl (fun s i => s.set! i 0x20#8) zeroSector).set 0 0x41#8).set 26 3#8
  else zeroSector

/-- The file `A` occupies the clusters from 3 to `3 + k`. -/
def rowVolume (k : ℕ) : Volume where
  fatSize := 65537#32
  dataStartLba := 100#64
  rootDirLba := 2#64
  fat i := if 3 ≤ i ∧ i < 3 + k then BitVec.ofNat 32 (i + 1) else 0xFFFFFFF#32
  disk lba := some (rowSector lba)

def rowChain (k : ℕ) : List U32 := (List.range' 3 (k + 1)).map (BitVec.ofNat 32)

theorem rowCluster_toNat {k i : ℕ} (hk : k ≤ 2 ^ 23) (hi : i ≤ 3 + k) :
    (BitVec.ofNat 32 i).toNat = i := by
  rw [BitVec.toNat_ofNat,Nat.mod_eq_of_lt (by omega)]

theorem rowVolume_segment {k : ℕ} (hk : k ≤ 2 ^ 23) (i j : ℕ) (h3 : 3 ≤ i) (h : i + j = 3 + k) :
    Segment (fun a => (rowVolume k).fat a.toNat) (BitVec.ofNat 32 i)
      ((List.range' i (j + 1)).map (BitVec.ofNat 32)) 0xFFFFFFF#32 := by
  induction j generalizing i with
  | zero =>
    refine ⟨rfl,?_⟩
    beta_reduce
    rw [rowCluster_toNat hk (by omega)]
    exact if_neg (by omega)
  | succ j ih =>
    have hnext : (rowVolume k).fat (BitVec.ofNat 32 i).toNat = BitVec.ofNat 32 (i + 1) := by
      rw [rowCluster_toNat hk (by omega)]
      exact if_pos ⟨h3,by omega⟩
    rw [List.range'_succ,List.map_cons]
    refine ⟨rfl,?_⟩
    beta_reduce
    rw [hnext]
    exact ih (i + 1) (by omega) (by omega)

theorem mem_rowChain {k : ℕ} (hk : k ≤ 2 ^ 23) {a : U32} (ha : a ∈ rowChain k) :
    3 ≤ a.toNat ∧ a.toNat ≤ 3 + k := by
  obtain ⟨i,hi,rfl⟩ := List.mem_map.mp ha
  rw [List.mem_range'_1] at hi
  rw [rowCluster_toNat hk (by omega)]
  omega

theorem rowVolume_chain {k : ℕ} (hk : k ≤ 2 ^ 23) :
    FileChain (rowVolume k) 3#32 (rowChain k) where
  linked := ⟨_,rowVolume_segment hk 3 k le_rfl rfl,by decide⟩
  ne_nil := by simp [rowChain]
  nodup := by
    refine List.Nodup.map_on (fun i hi j hj hij => ?_) List.nodup_range'
    rw [List.mem_range'_1] at hi hj
    rw [← rowCluster_toNat hk (show i ≤ 3 + k by omega),hij,
      rowCluster_toNat hk (show j ≤ 3 + k by omega)]
  inRange a ha := by
    obtain ⟨h3,hle⟩ := mem_rowChain hk ha
    refine ⟨by omega,?_,?_⟩
    · simp only [rowVolume]
      simp
      omega
    · exact not_isEndingCluster_of_lt (by omega)
  entries a ha := by
    obtain ⟨h3,hle⟩ := mem_rowChain hk ha
    simp only [rowVolume]
    split
    · rw [rowCluster_toNat hk (by omega)]
      omega
    · decide
  lba a ha := by
    obtain ⟨h3,hle⟩ := mem_rowChain hk ha
    simp only [rowVolume]
    simp
    omega

theorem rowVolume_open {k : ℕ} (hk : k ≤ 2 ^ 23) :
    fat32Open (k + 1) [0x41#8] [] (rowVolume k) =
      .done ⟨3#32,(BitVec.ofNat 64 (k + 1)).setWidth 32⟩ (rowVolume k) := by
  have hdir : checkDirectoryEntryForFile (rowVolume k) 2#32 [0x41#8] [] = 3#32 := by
    have hsame : checkDirectoryEntryForFile (rowVolume k) 2#32 [0x41#8] [] =
        checkDirectoryEntryForFile (rowVolume 0) 2#32 [0x41#8] [] := by
      simp only [checkDirectoryEntryForFile,rowVolume]
    rw [hsame]
    decide +kernel
  have hget : getClusterNum (k + 1) [0x41#8] [] (rowVolume k) = .done 3#32 (rowVolume k) := by
    have hroot : (rowVolume k).rootDirLba.setWidth 32 = 2#32 := rfl
    simp only [getClusterNum,searchDirectory,hroot,hdir]
    rfl
  have hcount := (rowVolume_chain hk).countClusters (k + 1)
  have hlen : (rowChain k).length = k + 1 := by simp [rowChain]
  rw [hlen,if_pos le_rfl] at hcount
  rw [fat32Open,if_neg (by decide),if_neg (by decide),hget,Outcome.bind_done,if_neg (by decide),
    hcount]
  rfl

theorem rowVolume_read_back :
    fat32Open 2 [0x41#8] [] (rowVolume 1) = .done ⟨3#32,2#32⟩ (rowVolume 1) ∧
    ∀ buffer m, ReadsBack (rowVolume 1) rowSector (rowChain 1) buffer m
      (fat32Read (rowVolume 1) 3#32 2#32 buffer ⟨m,[]⟩).2 := by
  have hopen := rowVolume_open (show 1 ≤ 2 ^ 23 by decide)
  have h := fat32_open_read_iff (fun _ => rfl) (rowVolume_chain (by decide)) hopen
  exact ⟨hopen,(h.mpr (by decide)).2⟩

/-- A file of one cluster more than `2 ^ 23`: its last sector is delivered to the
beginning of the buffer. -/
theorem rowVolume_not_read_back :
    FileChain (rowVolume 8388608) 3#32 (rowChain 8388608) ∧
    fat32Open 8388609 [0x41#8] [] (rowVolume 8388608) =
      .done ⟨3#32,8388609#32⟩ (rowVolume 8388608) ∧
    ¬ ∀ buffer m, ReadsBack (rowVolume 8388608) rowSector (rowChain 8388608) buffer m
      (fat32Read (rowVolume 8388608) 3#32 8388609#32 buffer ⟨m,[]⟩).2 := by
  have hch := rowVolume_chain (show 8388608 ≤ 2 ^ 23 by decide)
  have hlen : (rowChain 8388608).length = 8388609 := by
    rw [rowChain,List.length_map,List.length_range']
  refine ⟨hch,rowVolume_open (by decide),?_⟩
  rw [readsBack_iff (fun _ => rfl) hch (by rw [hlen]; rfl),hlen]
  decide

end Lios.Fat32

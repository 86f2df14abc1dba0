import Lios.Lib.Bitmap
import Lios.Mem.Vmalloc

/-! # The bitmap of a heap node

Marking sets exactly the bits of the range it is given, and the search of one node
is a first fit search; the steps over whole words change nothing. Both are stated
together with the fuel that the loops need.
-/
namespace Lios

section Mark
variable {mem : ℕ → U8} {used : Bool}

/-- The mask of one bit. -/
theorem getLsbD_mask {i p : ℕ} (hi : i < 8) (hp : p < 8) :
    (1#8 <<< (7 - i)).getLsbD (7 - p) = decide (p = i) := by
  rw [BitVec.getLsbD_shiftLeft,BitVec.getLsbD_one]
  by_cases h : p = i
  · simp [h]
    omega
  · simp [h]
    omega

theorem getLsbD_setBit {num : U8} {i p : ℕ} (hi : i < 8) (hp : p < 8) :
    (setBit num i).getLsbD (7 - p) = if p = i then true else num.getLsbD (7 - p) := by
  rw [setBit,BitVec.getLsbD_or,getLsbD_mask hi hp]
  split <;> simp [*]

theorem getLsbD_unsetBit {num : U8} {i p : ℕ} (hi : i < 8) (hp : p < 8) :
    (unsetBit num i).getLsbD (7 - p) = if p = i then false else num.getLsbD (7 - p) := by
  rw [unsetBit,BitVec.getLsbD_and,BitVec.getLsbD_not,getLsbD_mask hi hp]
  split <;> simp [*]
  omega

/-- A bit as the byte that a query returns. -/
def bitByte (bit : Bool) : U8 := if bit then 1#8 else 0#8

theorem queryBit_eq (num : U8) (p : ℕ) : queryBit num p = bitByte (num.getLsbD (7 - p)) := by
  rw [queryBit,BitVec.and_one_eq_setWidth_ofBool_getLsbD,BitVec.getLsbD_ushiftRight,
    Nat.add_zero]
  cases num.getLsbD (7 - p) <;> rfl

theorem queryBit_bitAt (mem : ℕ → U8) (j : ℕ) :
    queryBit (mem (j / 8)) (j % 8) = bitByte (bitAt mem j) :=
  queryBit_eq _ _

theorem queryBit_ne_zero {num : U8} {p : ℕ} :
    queryBit num p ≠ 0#8 ↔ num.getLsbD (7 - p) = true := by
  rw [queryBit_eq]
  cases num.getLsbD (7 - p) <;> decide

theorem getLsbD_markBits {num : U8} {rounds i p : ℕ} (h : i + rounds ≤ 8) (hp : p < 8) :
    (markBits used rounds i num).getLsbD (7 - p) =
      if i ≤ p ∧ p < i + rounds then used else num.getLsbD (7 - p) := by
  induction rounds generalizing i num with
  | zero =>
    rw [markBits,if_neg (by omega)]
  | succ rounds ih =>
    have hbit : (if used then setBit num i else unsetBit num i).getLsbD (7 - p) =
        if p = i then used else num.getLsbD (7 - p) := by
      cases used with
      | true => exact getLsbD_setBit (by omega) hp
      | false => exact getLsbD_unsetBit (by omega) hp
    rw [markBits,ih (by omega),hbit]
    split_ifs <;> first | rfl | omega

/-- The loop over whole bytes, as long as its bound fits in the counter. -/
theorem markBytes_eq (used : Bool) (fuel : ℕ) (i : U32) (mem : ℕ → U8) {endIndex : U64}
    (hend : endIndex.toNat < 2 ^ 32) (hi : i.toNat ≤ endIndex.toNat) :
    (fuel ≤ endIndex.toNat - i.toNat ∧ markBytes used endIndex fuel i mem = none) ∨
    markBytes used endIndex fuel i mem = some fun k =>
      if i.toNat ≤ k ∧ k < endIndex.toNat then (if used then 0xFF#8 else 0#8) else mem k := by
  induction fuel generalizing i mem with
  | zero => exact .inl ⟨by omega,rfl⟩
  | succ fuel ih =>
    have hlt : i.setWidth 64 < endIndex ↔ i.toNat < endIndex.toNat := by
      rw [BitVec.lt_def,BitVec.toNat_setWidth,Nat.mod_eq_of_lt (by omega)]
    by_cases h : i.toNat < endIndex.toNat
    · have hnext : (i + 1#32).toNat = i.toNat + 1 := by
        rw [BitVec.toNat_add,BitVec.toNat_ofNat]
        omega
      rw [markBytes,if_pos (hlt.mpr h)]
      have hrest := ih (i + 1#32)
        (Function.update mem i.toNat (if used then 0xFF#8 else 0#8)) (by omega)
      rw [hnext] at hrest
      obtain ⟨hfuel,hnone⟩ | hsome := hrest
      · exact .inl ⟨by omega,hnone⟩
      · refine .inr (hsome.trans (congrArg some (funext fun k => ?_)))
        by_cases hk : k = i.toNat
        · rw [hk,if_neg (show ¬ (i.toNat + 1 ≤ i.toNat ∧ _) by omega),
            if_pos (show i.toNat ≤ i.toNat ∧ _ from ⟨le_rfl,h⟩),Function.update_self]
        · rw [Function.update_of_ne hk]
          split_ifs <;> first | rfl | omega
    · refine .inr ?_
      rw [markBytes,if_neg (mt hlt.mp h)]
      refine congrArg some (funext fun k => ?_)
      rw [if_neg (by omega)]

/-- Bit `j` after marking. -/
def marked (start bits : ℕ) (used : Bool) (mem : ℕ → U8) (j : ℕ) : Bool :=
  if start ≤ j ∧ j < start + bits then used else bitAt mem j

theorem getLsbD_fill {p : ℕ} (hp : p < 8) :
    (if used then 0xFF#8 else 0#8).getLsbD (7 - p) = used := by
  cases used with
  | false => simp
  | true => interval_cases p <;> rfl

/-- A range inside one byte. -/
theorem bitAt_markByte {S L j : ℕ} (hSL : S ≤ L) (hbyte : S / 8 = L / 8) :
    bitAt (Function.update mem (S / 8) (markBits used (L % 8 + 1 - S % 8) (S % 8) (mem (S / 8)))) j =
      marked S (L + 1 - S) used mem j := by
  rw [bitAt_update,marked]
  by_cases hj : j / 8 = S / 8
  · rw [if_pos hj,getLsbD_markBits (by omega) (by omega),bitAt,hj]
    split_ifs <;> first | rfl | omega
  · rw [if_neg hj,if_neg (by omega)]

/-- A range that begins in one byte and ends in a later one. -/
theorem bitAt_markRange {S L j : ℕ} {mid : ℕ → U8} {fill : U8} (hbyte : S / 8 < L / 8)
    (hfill : ∀ p < 8, fill.getLsbD (7 - p) = used)
    (hmid : ∀ k, mid k = if S / 8 + 1 ≤ k ∧ k < L / 8 then fill
      else Function.update mem (S / 8) (markBits used (8 - S % 8) (S % 8) (mem (S / 8))) k) :
    bitAt (Function.update mid (L / 8) (markBits used (L % 8 + 1) 0 (mid (L / 8)))) j =
      marked S (L + 1 - S) used mem j := by
  rw [bitAt_update,marked]
  by_cases hlast : j / 8 = L / 8
  · have hbefore : mid (L / 8) = mem (L / 8) := by
      rw [hmid,if_neg (by omega),Function.update_of_ne (by omega)]
    rw [if_pos hlast,hbefore,getLsbD_markBits (by omega) (by omega),bitAt,hlast]
    split_ifs <;> first | rfl | omega
  rw [if_neg hlast,bitAt]
  by_cases hfirst : j / 8 = S / 8
  · have hbegin : mid (S / 8) = markBits used (8 - S % 8) (S % 8) (mem (S / 8)) := by
      rw [hmid,if_neg (by omega),Function.update_self]
    rw [hfirst,hbegin,getLsbD_markBits (by omega) (by omega),bitAt,hfirst]
    split_ifs <;> first | rfl | omega
  rw [hmid,Function.update_of_ne hfirst,bitAt]
  split_ifs <;> first | rfl | omega | exact hfill _ (by omega)

/-- A bound beyond the counter is never reached. -/
theorem markBytes_none (fuel : ℕ) (i : U32) (mem : ℕ → U8) {endIndex : U64}
    (hend : 2 ^ 32 ≤ endIndex.toNat) : markBytes used endIndex fuel i mem = none := by
  induction fuel generalizing i mem with
  | zero => rfl
  | succ fuel ih =>
    have hlt : i.setWidth 64 < endIndex := by
      rw [BitVec.lt_def,BitVec.toNat_setWidth,Nat.mod_eq_of_lt (by omega)]
      omega
    rw [markBytes,if_pos hlt]
    exact ih _ _

/-- The row lies in one byte, or its end has an index that fits in the counter of the loop over
whole bytes. -/
def Markable (start bits : ℕ) : Prop :=
  start / 8 = (start + bits - 1) / 8 ∨ start + bits ≤ 2 ^ 35

/-- Marking sets the bits of its range and no others, or does not end. -/
theorem markBitmap_eq {start bits : U64} {fuel : ℕ} (hbits : 1 ≤ bits.toNat)
    (hend : start.toNat + bits.toNat ≤ 2 ^ 64) :
    ((fuel ≤ start.toNat + bits.toNat ∨ ¬ Markable start.toNat bits.toNat) ∧
      markBitmap fuel start bits used mem = none) ∨
    (Markable start.toNat bits.toNat ∧ ∃ mem', markBitmap fuel start bits used mem = some mem' ∧
      ∀ j, bitAt mem' j = marked start.toNat bits.toNat used mem j) := by
  obtain ⟨S,hS⟩ : ∃ S, S = start.toNat := ⟨_,rfl⟩
  obtain ⟨L,hL⟩ : ∃ L, L + 1 = start.toNat + bits.toNat := ⟨start.toNat + bits.toNat - 1,by omega⟩
  have hlast : (start + bits - 1#64).toNat = L := by
    rw [BitVec.toNat_sub,BitVec.toNat_add,BitVec.toNat_ofNat]
    omega
  have hsi : (start / 8#64).toNat = S / 8 := by rw [BitVec.toNat_udiv,hS]; rfl
  have hsb : (start % 8#64).toNat = S % 8 := by rw [BitVec.toNat_umod,hS]; rfl
  have hei : ((start + bits - 1#64) / 8#64).toNat = L / 8 := by rw [BitVec.toNat_udiv,hlast]; rfl
  have heb : ((start + bits - 1#64) % 8#64).toNat = L % 8 := by rw [BitVec.toNat_umod,hlast]; rfl
  have hrange : bits.toNat = L + 1 - S := by omega
  rw [markBitmap,hsb,heb,hei,hsi,hrange,← hS,Markable,show S + (L + 1 - S) - 1 = L by omega]
  by_cases hbyte : S / 8 = L / 8
  · rw [if_pos (BitVec.eq_of_toNat_eq (by rw [hsi,hei,hbyte]))]
    exact .inr ⟨.inl hbyte,_,rfl,fun j => bitAt_markByte (by omega) hbyte⟩
  rw [if_neg (fun h => hbyte (by rw [← hsi,← hei,h]))]
  by_cases hindex : L / 8 < 2 ^ 32
  swap
  · refine .inl ⟨.inr (by omega),?_⟩
    rw [markBytes_none fuel _ _ (by omega),Option.map_none]
  have hnext : ((start / 8#64 + 1#64).setWidth 32).toNat = S / 8 + 1 := by
    rw [BitVec.toNat_setWidth,BitVec.toNat_add,hsi,BitVec.toNat_ofNat]
    omega
  have hbytes := markBytes_eq used fuel ((start / 8#64 + 1#64).setWidth 32)
    (Function.update mem (S / 8) (markBits used (8 - S % 8) (S % 8) (mem (S / 8))))
    (show ((start + bits - 1#64) / 8#64).toNat < 2 ^ 32 by omega) (by omega)
  rw [hnext,hei] at hbytes
  obtain ⟨hfuel,hnone⟩ | hsome := hbytes
  · exact .inl ⟨.inl (by omega),by rw [hnone,Option.map_none]⟩
  · refine .inr ⟨.inr (by omega),_,by rw [hsome,Option.map_some],fun j => ?_⟩
    exact bitAt_markRange (by omega) (fun p hp => getLsbD_fill hp) (fun _ => rfl)

/-- With enough fuel, marking a range below 2^35 returns. -/
theorem markBitmap_some {start bits : U64} {fuel : ℕ} (hbits : 1 ≤ bits.toNat)
    (hend : start.toNat + bits.toNat < 2 ^ 35) (hfuel : start.toNat + bits.toNat < fuel)
    (used : Bool) (mem : ℕ → U8) : ∃ mem', markBitmap fuel start bits used mem = some mem' ∧
      ∀ j, bitAt mem' j = marked start.toNat bits.toNat used mem j := by
  obtain ⟨hstuck | hwide,-⟩ | ⟨-,hmark⟩ :=
    @markBitmap_eq mem used start bits fuel hbits (by omega)
  · omega
  · exact absurd (.inr (by omega)) hwide
  · exact hmark

/-- The bits of the range are those asked for and the other bits are as they were. A free range that
is marked and then unmarked leaves the bitmap as it was. -/
theorem markBitmap_exact (node : HeapBitmapNode) (start bits : U64) (fuel : ℕ)
    (hbits : 1 ≤ bits.toNat) (hend : start.toNat + bits.toNat ≤ node.bitmapSize.toNat)
    (hsize : node.bitmapSize.toNat < 2 ^ 35) (hfuel : start.toNat + bits.toNat < fuel) :
    (∀ used, ∃ mem', markBitmap fuel start bits used node.mem = some mem' ∧
      ∀ j, queryBit (mem' (j / 8)) (j % 8) =
        if start.toNat ≤ j ∧ j < start.toNat + bits.toNat then bitByte used
        else queryBit (node.mem (j / 8)) (j % 8)) ∧
    ((∀ j, start.toNat ≤ j → j < start.toNat + bits.toNat →
        queryBit (node.mem (j / 8)) (j % 8) = 0#8) →
      (markBitmap fuel start bits true node.mem).bind (markBitmap fuel start bits false) =
        some node.mem) := by
  have hmark := markBitmap_some hbits (by omega) hfuel
  refine ⟨fun used => ?_,fun hfree => ?_⟩
  · obtain ⟨mem',hdone,hbit⟩ := hmark used node.mem
    refine ⟨mem',hdone,fun j => ?_⟩
    rw [queryBit_bitAt,queryBit_bitAt,hbit,marked]
    split <;> rfl
  · obtain ⟨mem₁,hset,hbit₁⟩ := hmark true node.mem
    obtain ⟨mem₂,hunset,hbit₂⟩ := hmark false mem₁
    rw [hset,Option.bind_some,hunset]
    refine congrArg some (eq_of_bitAt fun j => ?_)
    rw [hbit₂,marked,hbit₁,marked]
    by_cases hj : start.toNat ≤ j ∧ j < start.toNat + bits.toNat
    · have hzero := hfree j hj.1 hj.2
      rw [queryBit_bitAt] at hzero
      rw [if_pos hj]
      cases hbit : bitAt node.mem j with
      | false => rfl
      | true =>
        rw [hbit] at hzero
        exact absurd hzero (by decide)
    · rw [if_neg hj,if_neg hj]

/-- A range over two bytes of a free bitmap. -/
theorem markBitmap_exact_twelve :
    (∀ used, ∃ mem', markBitmap 100 6#64 12#64 used (fun _ => 0#8) = some mem' ∧
      ∀ j, queryBit (mem' (j / 8)) (j % 8) = if 6 ≤ j ∧ j < 18 then bitByte used
        else queryBit 0#8 (j % 8)) ∧
    (markBitmap 100 6#64 12#64 true (fun _ => 0#8)).bind (markBitmap 100 6#64 12#64 false) =
      some fun _ => 0#8 := by
  obtain ⟨hmark,hback⟩ := markBitmap_exact ⟨0#64,64#64,0#64,fun _ => 0#8⟩ 6#64 12#64 100
    (by decide) (by decide) (by decide) (by decide)
  exact ⟨hmark,hback fun j _ _ => by rw [queryBit_bitAt,bitAt,BitVec.getLsbD_zero]; rfl⟩

end Mark

section Search
variable {node : HeapBitmapNode} {needed : U64}

/-- Either the fuel ran out, which it does only if it is at most `rounds`, or the answer
is that of a first fit search. -/
def Searched (node : HeapBitmapNode) (needed : U64) (fuel rounds : ℕ)
    (r : Option (Option U64)) : Prop :=
  (fuel ≤ rounds ∧ r = none) ∨
    ∃ b, r = some b ∧
      FirstFit (bitAt node.mem) node.bitmapSize.toNat needed.toNat (b.map BitVec.toNat)

theorem Searched.succ {fuel rounds rounds' : ℕ} {r : Option (Option U64)}
    (h : Searched node needed fuel rounds r) (hr : rounds + 1 ≤ rounds') :
    Searched node needed (fuel + 1) rounds' r := by
  obtain ⟨hfuel,hnone⟩ | hsome := h
  · exact .inl ⟨by omega,hnone⟩
  · exact .inr hsome

/-- The test in front of a step over a whole word, as a statement on numbers. -/
theorem skip_free {i found : U64} (hsize : 64 ≤ node.bitmapSize.toNat)
    (hle : found.toNat ≤ i.toNat) (h : i % 8#64 = 0#64 ∧ i < node.bitmapSize - 64#64 ∧
      found + 64#64 < needed ∧ word (fun k => node.mem ((i / 8#64).toNat + k)) = 0#64) :
    i.toNat + 64 < node.bitmapSize.toNat ∧ (found + 64#64).toNat = found.toNat + 64 ∧
    found.toNat + 64 < needed.toNat ∧
    ∀ j, i.toNat ≤ j → j < i.toNat + 64 → bitAt node.mem j = false := by
  obtain ⟨halign,hroom,hneed,hword⟩ := h
  have hsz := node.bitmapSize.isLt
  have hend : (node.bitmapSize - 64#64).toNat = node.bitmapSize.toNat - 64 := by
    rw [BitVec.toNat_sub,BitVec.toNat_ofNat]
    omega
  rw [BitVec.lt_def,hend] at hroom
  have hfound : (found + 64#64).toNat = found.toNat + 64 := by
    rw [BitVec.toNat_add,BitVec.toNat_ofNat]
    omega
  rw [BitVec.lt_def,hfound] at hneed
  have hmod : i.toNat % 8 = 0 := congrArg BitVec.toNat halign
  rw [BitVec.toNat_udiv] at hword
  refine ⟨by omega,hfound,hneed,fun j hj hj' => ?_⟩
  have hbyte : (8#64).toNat = 8 := rfl
  rw [hbyte] at hword
  exact bitAt_of_word_eq_zero hword (by omega) (by omega)

/-- The search of a node from a scanned position on is a first fit search. -/
theorem searchNode_eq (fuel : ℕ) (i found start : U64) (hsize : 64 ≤ node.bitmapSize.toNat)
    (hi : i.toNat ≤ node.bitmapSize.toNat)
    (h : Scanned (bitAt node.mem) node.bitmapSize.toNat needed.toNat i.toNat found.toNat
      start.toNat) :
    Searched node needed fuel (node.bitmapSize.toNat - i.toNat)
      (searchNode node needed fuel i found start) := by
  induction fuel generalizing i found start with
  | zero => exact .inl ⟨by omega,rfl⟩
  | succ fuel ih =>
    have hle := h.le
    have hlt := h.lt
    have hsz := node.bitmapSize.isLt
    rw [searchNode]
    by_cases hin : i.toNat < node.bitmapSize.toNat
    swap
    · rw [if_neg (fun hc => hin (BitVec.lt_def.mp hc))]
      exact .inr ⟨none,rfl,h.finish (by omega)⟩
    rw [if_pos (BitVec.lt_def.mpr hin)]
    have hbit : queryBit (node.mem (i / 8#64).toNat) (i % 8#64).toNat ≠ 0#8 ↔
        bitAt node.mem i.toNat = true := by
      rw [queryBit_ne_zero,BitVec.toNat_udiv,BitVec.toNat_umod]
      rfl
    have hsucc : (i + 1#64).toNat = i.toNat + 1 := by
      rw [BitVec.toNat_add,BitVec.toNat_ofNat]
      omega
    by_cases hu : bitAt node.mem i.toNat = true
    · have hneeded : ¬ (0#64 = needed) := by
        rintro rfl
        rw [BitVec.toNat_zero] at hlt
        omega
      rw [if_pos (hbit.mpr hu),if_neg hneeded]
      refine (ih (i + 1#64) _ _ (by omega) ?_).succ (by omega)
      rw [hsucc]
      exact h.step_used hu _
    have hfree : bitAt node.mem i.toNat = false := Bool.eq_false_iff.mpr hu
    have hbegin : (if found = 0#64 then i else start).toNat =
        if found.toNat = 0 then i.toNat else start.toNat := by
      rw [apply_ite BitVec.toNat]
      exact if_congr BitVec.toNat_inj.symm rfl rfl
    have hone : (found + 1#64).toNat = found.toNat + 1 := by
      rw [BitVec.toNat_add,BitVec.toNat_ofNat]
      omega
    rw [if_neg (mt hbit.mp hu)]
    dsimp only
    split
    · rename_i hskip
      obtain ⟨hroom,hfound,hneed,hrow⟩ := skip_free hsize hle hskip
      have hnext : (i + 63#64 + 1#64).toNat = i.toNat + 64 := by
        rw [BitVec.toNat_add,BitVec.toNat_add,BitVec.toNat_ofNat,BitVec.toNat_ofNat]
        omega
      refine (ih (i + 63#64 + 1#64) _ _ (by omega) ?_).succ (by omega)
      rw [hnext,hfound,hbegin]
      exact h.step_free hrow hneed
    split
    · rename_i hneed
      refine .inr ⟨_,rfl,?_⟩
      rw [Option.map_some,hbegin]
      exact h.step_found hin hfree (by rw [← hneed,hone])
    · rename_i hneed
      have hne : found.toNat + 1 ≠ needed.toNat := fun hc =>
        hneed (BitVec.eq_of_toNat_eq (hone.trans hc))
      refine (ih (i + 1#64) _ _ (by omega) ?_).succ (by omega)
      rw [hsucc,hone,hbegin]
      refine h.step_free (fun j hj hj' => ?_) (by omega)
      rw [show j = i.toNat by omega,hfree]

theorem searchNode_searched (node : HeapBitmapNode) (fuel : ℕ)
    (hsize : 64 ≤ node.bitmapSize.toNat) (hneeded : 0 < needed.toNat) :
    Searched node needed fuel node.bitmapSize.toNat (searchNode node needed fuel 0#64 0#64 0#64) := by
  have h := searchNode_eq fuel 0#64 0#64 0#64 hsize (Nat.zero_le _)
    (Scanned.init hneeded)
  rwa [BitVec.toNat_zero,Nat.sub_zero] at h

end Search

end Lios

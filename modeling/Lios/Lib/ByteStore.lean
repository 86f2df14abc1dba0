import Mathlib.Data.BitVec
import Mathlib.Tactic.IntervalCases

/-! # Stores of byte strings

A memory is a total map from addresses to cells. Storing a string at an address
replaces the cells from that address on, modulo the size of the address space.
Strings stored one behind the other are one string, as long as they do not meet
their own beginning again. A word is eight bytes, the lowest first.
-/
namespace Lios
variable {w : ℕ} {β : Type}

/-- The memory after the cells `bs` were stored from the address `a` on. -/
def store (m : BitVec w → β) (a : BitVec w) (bs : List β) : BitVec w → β :=
  fun x => (bs[(x - a).toNat]?).getD (m x)

variable {m : BitVec w → β} {a x : BitVec w} {bs cs : List β}

@[simp] theorem store_nil : store m a [] = m := by
  funext x
  simp [store]

theorem store_of_le (h : bs.length ≤ (x - a).toNat) : store m a bs x = m x := by
  rw [store,List.getElem?_eq_none h,Option.getD_none]

theorem store_of_lt (h : (x - a).toNat < bs.length) : store m a bs x = bs[(x - a).toNat] := by
  rw [store,List.getElem?_eq_getElem h,Option.getD_some]

theorem sub_add_toNat (n : ℕ) (hn : n < 2 ^ w) : (x - (a + BitVec.ofNat w n)).toNat =
    if n ≤ (x - a).toNat then (x - a).toNat - n else 2 ^ w + (x - a).toNat - n := by
  have hd : x - (a + BitVec.ofNat w n) = x - a - BitVec.ofNat w n := by
    rw [sub_add_eq_sub_sub]
  rw [hd,BitVec.toNat_sub,BitVec.toNat_ofNat,Nat.mod_eq_of_lt hn]
  have hx : (x - a).toNat < 2 ^ w := (x - a).isLt
  split
  · rw [show 2 ^ w - n + (x - a).toNat = (x - a).toNat - n + 2 ^ w by omega,Nat.add_mod_right,
      Nat.mod_eq_of_lt (by omega)]
  · rw [Nat.mod_eq_of_lt (by omega)]
    omega

/-- The distance from an address on measures membership in a range that does not wrap. -/
theorem sub_lt_iff {len : ℕ} (ha : a.toNat + len ≤ 2 ^ w) :
    (x - a).toNat < len ↔ a.toNat ≤ x.toNat ∧ x.toNat < a.toNat + len := by
  have hx := x.isLt
  rw [BitVec.toNat_sub]
  by_cases h : a.toNat ≤ x.toNat
  · rw [show 2 ^ w - a.toNat + x.toNat = x.toNat - a.toNat + 2 ^ w by omega,Nat.add_mod_right,
      Nat.mod_eq_of_lt (by omega)]
    omega
  · rw [Nat.mod_eq_of_lt (by omega)]
    omega

/-- Two stores one behind the other are one store. -/
theorem store_append (h : bs.length + cs.length ≤ 2 ^ w) (hb : bs.length < 2 ^ w) :
    store (store m a bs) (a + BitVec.ofNat w bs.length) cs = store m a (bs ++ cs) := by
  funext x
  have hd := sub_add_toNat (x := x) (a := a) bs.length hb
  have hx : (x - a).toNat < 2 ^ w := (x - a).isLt
  split at hd
  · rename_i hle
    rw [store,hd,store_of_le hle,store,List.getElem?_append_right hle]
  · rename_i hlt
    rw [store_of_le (by omega),store,store,List.getElem?_append_left (by omega)]

/-- The word of the bytes `f 0, …, f 7`. -/
def word (f : ℕ → BitVec 8) : BitVec 64 :=
  f 7 ++ f 6 ++ f 5 ++ f 4 ++ f 3 ++ f 2 ++ f 1 ++ f 0

def load (m : BitVec w → BitVec 8) (a : BitVec w) : BitVec 64 :=
  word fun k => m (a + BitVec.ofNat w k)

def wordBytes (v : BitVec 64) : List (BitVec 8) :=
  (List.range 8).map fun k => v.extractLsb' (8 * k) 8

theorem byte_of_word (f : ℕ → BitVec 8) {k : ℕ} (hk : k < 8) :
    (word f).extractLsb' (8 * k) 8 = f k := by
  unfold word
  interval_cases k <;> simp (disch := omega) only [BitVec.extractLsb'_append_eq_of_le,
    BitVec.extractLsb'_append_eq_of_add_le,Nat.reduceMul,Nat.reduceSub,BitVec.extractLsb'_eq_self]

theorem word_congr {f g : ℕ → BitVec 8} (h : ∀ k < 8, f k = g k) : word f = word g := by
  simp only [word]
  rw [h 7 (by decide),h 6 (by decide),h 5 (by decide),h 4 (by decide),h 3 (by decide),
    h 2 (by decide),h 1 (by decide),h 0 (by decide)]

theorem word_bytes (v : BitVec 64) : word (fun k => v.extractLsb' (8 * k) 8) = v := by
  refine BitVec.eq_of_getLsbD_eq fun i hi => ?_
  have hbyte := byte_of_word (fun k => v.extractLsb' (8 * k) 8) (k := i / 8) (by omega)
  have hbit := congrArg (fun x : BitVec 8 => x.getLsbD (i % 8)) hbyte
  simp only [BitVec.getLsbD_extractLsb',Nat.mod_lt i (by decide : 0 < 8),decide_true,
    Bool.true_and,Nat.div_add_mod] at hbit
  exact hbit

theorem length_wordBytes (v : BitVec 64) : (wordBytes v).length = 8 := by simp [wordBytes]

/-- A word depends on its own eight bytes only. -/
theorem load_congr {m m' : BitVec w → BitVec 8} (h : ∀ x, (x - a).toNat < 8 → m' x = m x) :
    load m' a = load m a := by
  refine word_congr fun k hk => h _ ?_
  rw [add_sub_cancel_left,BitVec.toNat_ofNat]
  exact (Nat.mod_le _ _).trans_lt hk

theorem load_store {m : BitVec w → BitVec 8} (hw : 8 ≤ 2 ^ w) (v : BitVec 64) :
    load (store m a (wordBytes v)) a = v := by
  have hbyte : ∀ k < 8, store m a (wordBytes v) (a + BitVec.ofNat w k) =
      v.extractLsb' (8 * k) 8 := by
    intro k hk
    have hdist : (a + BitVec.ofNat w k - a).toNat = k := by
      rw [add_sub_cancel_left,BitVec.toNat_ofNat,Nat.mod_eq_of_lt (by omega)]
    rw [store,hdist,wordBytes,List.getElem?_map,List.getElem?_range hk,Option.map_some,
      Option.getD_some]
  rw [load,word_congr hbyte,word_bytes]

/-- Storing zero anywhere leaves a zero word zero. -/
theorem load_store_zero {m : BitVec w → BitVec 8} {b : BitVec w} (h : load m b = 0#64) :
    load (store m a (wordBytes 0#64)) b = 0#64 := by
  have hbyte : ∀ k < 8, store m a (wordBytes 0#64) (b + BitVec.ofNat w k) = 0#8 := by
    intro k hk
    have hold : m (b + BitVec.ofNat w k) = 0#8 := by
      rw [← byte_of_word (fun k => m (b + BitVec.ofNat w k)) hk,← load,h,BitVec.extractLsb'_zero]
    rw [store,wordBytes,List.getElem?_map,hold]
    cases (List.range 8)[(b + BitVec.ofNat w k - a).toNat]? with
    | none => rfl
    | some i => exact BitVec.extractLsb'_zero
  rw [load,word_congr hbyte]
  rfl

/-- A stored word leaves the words beside it alone. -/
theorem load_store_of_apart {m : BitVec w → BitVec 8} {b : BitVec w} (v : BitVec 64)
    (ha : a.toNat + 8 ≤ 2 ^ w) (hb : b.toNat + 8 ≤ 2 ^ w)
    (h : a.toNat + 8 ≤ b.toNat ∨ b.toNat + 8 ≤ a.toNat) :
    load (store m a (wordBytes v)) b = load m b := by
  refine load_congr fun x hx => store_of_le ?_
  rw [sub_lt_iff hb] at hx
  rw [length_wordBytes]
  by_contra hlt
  rw [not_le,sub_lt_iff ha] at hlt
  omega

end Lios

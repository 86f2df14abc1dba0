import Mathlib.Data.Nat.Digits.Lemmas

/-! # Numerals

The digits of a number in a base, most significant first. A numeral can be written by going down the
powers of the base: what the number is divided by the power is the digit, and nothing is written
before the first digit that is not zero.
-/
namespace Lios
variable {b n i : ℕ} {t : List ℕ}

/-- The digits `t` are the numeral of `n`: only zero itself begins with a zero. -/
structure IsNumeral (b n : ℕ) (t : List ℕ) : Prop where
  lt : ∀ d ∈ t, d < b
  value : Nat.ofDigits b t.reverse = n
  ne_nil : t ≠ []
  head : t.head? = some 0 → t = [0]

def numeral (b n : ℕ) : List ℕ := if n = 0 then [0] else (Nat.digits b n).reverse

theorem isNumeral_numeral (hb : 1 < b) (n : ℕ) : IsNumeral b n (numeral b n) := by
  rw [numeral]
  by_cases hn : n = 0
  · subst hn
    rw [if_pos rfl]
    exact ⟨by simp; omega,by simp,by simp,fun _ => rfl⟩
  · have hne : Nat.digits b n ≠ [] := Nat.digits_ne_nil_iff_ne_zero.mpr hn
    rw [if_neg hn]
    refine ⟨fun d hd => ?_,?_,by simpa using hne,fun hhead => ?_⟩
    · exact Nat.digits_lt_base hb (List.mem_reverse.mp hd)
    · rw [List.reverse_reverse]
      exact Nat.ofDigits_digits b n
    · rw [List.head?_reverse,List.getLast?_eq_some_getLast hne] at hhead
      exact absurd (Option.some.inj hhead) (Nat.getLast_digit_ne_zero b hn)

/-- A number has one numeral. -/
theorem IsNumeral.eq_numeral (hb : 1 < b) (h : IsNumeral b n t) : t = numeral b n := by
  by_cases hzero : t = [0]
  · have hn : n = 0 := by
      rw [← h.value,hzero]
      rfl
    rw [hzero,numeral,if_pos hn]
  · have hdigits : Nat.digits b n = t.reverse := by
      rw [← h.value]
      refine Nat.digits_ofDigits b hb _ (fun d hd => h.lt d (List.mem_reverse.mp hd)) ?_
      intro hne hlast
      apply hzero (h.head _)
      rw [← List.getLast?_reverse,List.getLast?_eq_some_getLast hne,hlast]
    have hn : n ≠ 0 := by
      rintro rfl
      exact h.ne_nil (by simpa using hdigits)
    rw [numeral,if_neg hn,hdigits,List.reverse_reverse]

/-- The digits of `n` from the power `i - 1` of the base down. A zero is only written if `printed`. -/
def descend (b : ℕ) : ℕ → Bool → ℕ → List ℕ
  | 0,_,_ => []
  | i + 1,printed,n =>
    if n / b ^ i = 0 then
      if printed = true then 0 :: descend b i true n else descend b i false n
    else n / b ^ i :: descend b i true (n % b ^ i)

theorem length_descend (b i n : ℕ) : (descend b i true n).length = i := by
  induction i generalizing n with
  | zero => rfl
  | succ i ih =>
    rw [descend]
    split
    · rw [if_pos rfl,List.length_cons,ih]
    · rw [List.length_cons,ih]

theorem lt_of_mem_descend (hb : 0 < b) (printed : Bool) (hn : n < b ^ i) :
    ∀ d ∈ descend b i printed n, d < b := by
  induction i generalizing n printed with
  | zero => simp [descend]
  | succ i ih =>
    have hpos : 0 < b ^ i := Nat.pow_pos hb
    intro d hd
    rw [descend] at hd
    split at hd
    · rename_i hzero
      have hlt := (Nat.div_eq_zero_iff_lt hpos).mp hzero
      split at hd
      · rcases List.mem_cons.mp hd with rfl | hd
        · exact hb
        · exact ih true hlt d hd
      · exact ih false hlt d hd
    · rcases List.mem_cons.mp hd with rfl | hd
      · rw [Nat.div_lt_iff_lt_mul hpos,mul_comm,← pow_succ]
        exact hn
      · exact ih true (Nat.mod_lt n hpos) d hd

theorem ofDigits_descend (hb : 0 < b) (printed : Bool) (hn : n < b ^ i) :
    Nat.ofDigits b (descend b i printed n).reverse = n := by
  induction i generalizing n printed with
  | zero =>
    rw [pow_zero,Nat.lt_one_iff] at hn
    rw [hn]
    rfl
  | succ i ih =>
    have hpos : 0 < b ^ i := Nat.pow_pos hb
    rw [descend]
    split
    · rename_i hzero
      have hlt := (Nat.div_eq_zero_iff_lt hpos).mp hzero
      split
      · rw [List.reverse_cons,Nat.ofDigits_append,ih true hlt,Nat.ofDigits_singleton,mul_zero,add_zero]
      · exact ih false hlt
    · rw [List.reverse_cons,Nat.ofDigits_append,ih true (Nat.mod_lt n hpos),Nat.ofDigits_singleton,
        List.length_reverse,length_descend]
      exact Nat.mod_add_div n (b ^ i)

theorem head_descend (b i n : ℕ) : (descend b i false n).head? ≠ some 0 := by
  induction i generalizing n with
  | zero => simp [descend]
  | succ i ih =>
    rw [descend]
    split
    · exact ih n
    · rename_i hne
      intro h
      exact hne (Option.some.inj h)

/-- Going down the powers writes the numeral. -/
theorem descend_eq_numeral (hb : 1 < b) (hn : n < b ^ i) (hne : n ≠ 0) :
    descend b i false n = numeral b n := by
  have hpos : 0 < b := by omega
  have hvalue := ofDigits_descend hpos false hn
  refine IsNumeral.eq_numeral hb ⟨lt_of_mem_descend hpos false hn,hvalue,fun hnil => ?_,fun h => ?_⟩
  · rw [hnil] at hvalue
    exact hne hvalue.symm
  · exact absurd h (head_descend b i n)

end Lios

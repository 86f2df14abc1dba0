import Lios.Util.ArrayList

/-! # The calls on an array list

The buffer holds the entries of a list one behind the other. Adding and removing keep that,
and all bytes that they access are bytes of the buffer. What the shrinking needs is that the
capacity is even whenever less than half of it is in use.
-/
namespace Lios
variable {H : Type} {calls : HeapCalls H} {src : HeapSupply calls} {h t : H}
  {out : Multiset (U64 × List U8)}

section Bytes
variable {b : Buffer} {c : List U8} {i : U64}

theorem Buffer.read_eq (hh : src.Holds h ((b.base,c) ::ₘ out)) (hl : b.limit.toNat = c.length)
    (hi : i.toNat < c.length) :
    ∃ v, (c)[i.toNat]? = some v ∧ b.read calls i h = .done v h := by
  refine ⟨_,src.load hh hi,?_⟩
  rw [Buffer.read,if_pos (BitVec.lt_def.mpr (hl ▸ hi))]

theorem Buffer.write_eq (v : U8) (hh : src.Holds h ((b.base,c) ::ₘ out))
    (hl : b.limit.toNat = c.length) (hi : i.toNat < c.length) :
    ∃ t, b.write calls i v h = .done () t ∧
      src.Holds t ((b.base,c.set i.toNat v) ::ₘ out) := by
  refine ⟨_,?_,src.store v hh hi⟩
  rw [Buffer.write,if_pos (BitVec.lt_def.mpr (hl ▸ hi))]

theorem Buffer.writeBytes_eq (b : Buffer) (vs : List U8) (hh : src.Holds h ((b.base,c) ::ₘ out))
    (hl : b.limit.toNat = c.length) (hi : i.toNat + vs.length ≤ c.length) :
    ∃ t, b.writeBytes calls i vs h = .done () t ∧
      src.Holds t ((b.base,c.take i.toNat ++ vs ++ c.drop (i.toNat + vs.length)) ::ₘ out) := by
  induction vs generalizing i h c with
  | nil =>
    refine ⟨h,rfl,?_⟩
    simpa using hh
  | cons v vs ih =>
    rw [List.length_cons] at hi
    obtain ⟨u,hu,hhu⟩ := b.write_eq v hh hl (by omega : i.toNat < c.length)
    have hlt := b.limit.isLt
    have hnext : (i + 1#64).toNat = i.toNat + 1 := by
      rw [BitVec.toNat_add,show (1#64).toNat = 1 from rfl]
      omega
    obtain ⟨t,ht,hht⟩ := ih hhu (by rw [List.length_set,hl]) (by rw [hnext,List.length_set]; omega)
    refine ⟨t,by rw [Buffer.writeBytes,hu,Outcome.bind_done,ht],?_⟩
    rw [hnext,List.drop_set_of_lt (by omega),
      List.take_succ_eq_append_getElem (by rw [List.length_set]; omega),List.getElem_set_self,
      List.take_set_of_le le_rfl,List.append_assoc,List.append_assoc,List.singleton_append] at hht
    rw [List.append_assoc,List.cons_append,List.length_cons,
      show i.toNat + (vs.length + 1) = i.toNat + 1 + vs.length by omega]
    exact hht

/-- The loop that copies, for any property of the state that gives it the bytes to read and
allows it to write. -/
theorem copyBytes_loop {R : ℕ → H → List U8 → Prop} {dst from' : Buffer} {gap stop : U64}
    {y : List U8}
    (hread : ∀ {i : U64} {h x}, R i.toNat h x → i < stop →
      ∃ v, y[i.toNat + gap.toNat]? = some v ∧ from'.read calls (i + gap) h = .done v h)
    (hwrite : ∀ {i : U64} {h x} (v : U8), R i.toNat h x → i < stop →
      ∃ t, dst.write calls i v h = .done () t ∧ R (i.toNat + 1) t (x.set i.toNat v))
    (hlen : ∀ {i h x}, R i h x → stop.toNat ≤ x.length) (fuel : ℕ) {x : List U8}
    (hR : R i.toNat h x) (hi : i.toNat ≤ stop.toNat) :
    (fuel ≤ stop.toNat - i.toNat ∧ copyBytes calls dst from' gap stop fuel i h = .spin) ∨
      ∃ t, copyBytes calls dst from' gap stop fuel i h = .done () t ∧
        R stop.toNat t (copied x y i.toNat stop.toNat gap.toNat) := by
  induction fuel generalizing i h x with
  | zero => exact .inl ⟨Nat.zero_le _,rfl⟩
  | succ fuel ih =>
    rw [copyBytes]
    by_cases hlt : i < stop
    · have hltn := BitVec.lt_def.mp hlt
      have hstop := stop.isLt
      have hnext : (i + 1#64).toNat = i.toNat + 1 := by
        rw [BitVec.toNat_add,show (1#64).toNat = 1 from rfl]
        omega
      obtain ⟨v,hv,hreads⟩ := hread hR hlt
      obtain ⟨u,hu,hRu⟩ := hwrite v hR hlt
      rw [if_pos hlt,hreads,Outcome.bind_done,hu,Outcome.bind_done]
      rw [← hnext] at hRu
      have hgo := ih hRu (by omega)
      rw [hnext,copied_succ hltn (hlen hR) hv] at hgo
      obtain ⟨hfuel,hspin⟩ | hdone := hgo
      · exact .inl ⟨by omega,hspin⟩
      · exact .inr hdone
    · have hge : i.toNat = stop.toNat :=
        le_antisymm hi (not_lt.mp fun hl => hlt (BitVec.lt_def.mpr hl))
      rw [if_neg hlt,hge,copied_self]
      rw [hge] at hR
      exact .inr ⟨h,rfl,hR⟩

theorem toNat_add_gap {gap stop : U64} (hlt : i < stop) (hfit : stop.toNat + gap.toNat < 2 ^ 64) :
    (i + gap).toNat = i.toNat + gap.toNat := by
  have := BitVec.lt_def.mp hlt
  rw [BitVec.toNat_add,Nat.mod_eq_of_lt (by omega)]

/-- Moving bytes forward inside one buffer. -/
theorem copyBytes_inPlace (b : Buffer) (gap stop i : U64) (hh : src.Holds h ((b.base,c) ::ₘ out))
    (hl : b.limit.toNat = c.length) (hfit : stop.toNat + gap.toNat ≤ c.length) (fuel : ℕ)
    (hi : i.toNat ≤ stop.toNat) :
    (fuel ≤ stop.toNat - i.toNat ∧ copyBytes calls b b gap stop fuel i h = .spin) ∨
      ∃ t, copyBytes calls b b gap stop fuel i h = .done () t ∧
        src.Holds t ((b.base,copied c c i.toNat stop.toNat gap.toNat) ::ₘ out) := by
  have hlimit := b.limit.isLt
  -- behind the place the loop has come to, the bytes are those from before it
  let R (i : ℕ) (h : H) (x : List U8) : Prop := src.Holds h ((b.base,x) ::ₘ out) ∧
    x.length = c.length ∧ x.drop (i + gap.toNat) = c.drop (i + gap.toNat)
  have hread {i : U64} {h : H} {x : List U8} (hR : R i.toNat h x) (hlt : i < stop) :
      ∃ v, (c)[i.toNat + gap.toNat]? = some v ∧ b.read calls (i + gap) h = .done v h := by
    obtain ⟨hx,hxl,hdrop⟩ := hR
    have hadd := toNat_add_gap hlt (by omega : stop.toNat + gap.toNat < 2 ^ 64)
    have hltn := BitVec.lt_def.mp hlt
    obtain ⟨v,hv,hdone⟩ := b.read_eq hx (by omega) (by omega : (i + gap).toNat < x.length)
    refine ⟨v,?_,hdone⟩
    have hhead := congrArg List.head? hdrop
    rw [List.head?_drop,List.head?_drop,← hadd,hv] at hhead
    rw [← hadd,hhead]
  have hwrite {i : U64} {h : H} {x : List U8} (v : U8) (hR : R i.toNat h x) (hlt : i < stop) :
      ∃ t, b.write calls i v h = .done () t ∧ R (i.toNat + 1) t (x.set i.toNat v) := by
    obtain ⟨hx,hxl,hdrop⟩ := hR
    have hltn := BitVec.lt_def.mp hlt
    obtain ⟨t,ht,htx⟩ := b.write_eq v hx (by omega) (by omega : i.toNat < x.length)
    refine ⟨t,ht,htx,by rw [List.length_set,hxl],?_⟩
    rw [List.drop_set_of_lt (by omega),
      show i.toNat + 1 + gap.toNat = i.toNat + gap.toNat + 1 by omega]
    have htail := congrArg (List.drop 1) hdrop
    rw [List.drop_drop,List.drop_drop] at htail
    exact htail
  have hloop := copyBytes_loop (R := R) hread hwrite (fun hR => by have := hR.2.1; omega) fuel
    ⟨hh,rfl,rfl⟩ hi
  exact hloop.imp_right fun ⟨t,ht,hR⟩ => ⟨t,ht,hR.1⟩

/-- Copying from one buffer to another. -/
theorem copyBytes_between (new b : Buffer) (gap stop i : U64) {x : List U8}
    (hh : src.Holds h ((new.base,x) ::ₘ (b.base,c) ::ₘ out)) (hl : b.limit.toNat = c.length)
    (hn : new.limit.toNat = x.length) (hfit : stop.toNat + gap.toNat ≤ c.length)
    (hstop : stop.toNat ≤ x.length) (fuel : ℕ) (hi : i.toNat ≤ stop.toNat) :
    (fuel ≤ stop.toNat - i.toNat ∧ copyBytes calls new b gap stop fuel i h = .spin) ∨
      ∃ t, copyBytes calls new b gap stop fuel i h = .done () t ∧
        src.Holds t
          ((new.base,copied x c i.toNat stop.toNat gap.toNat) ::ₘ (b.base,c) ::ₘ out) := by
  have hlimit := b.limit.isLt
  let R (_ : ℕ) (h : H) (z : List U8) : Prop :=
    src.Holds h ((new.base,z) ::ₘ (b.base,c) ::ₘ out) ∧ z.length = x.length
  have hread {i : U64} {h : H} {z : List U8} (hR : R i.toNat h z) (hlt : i < stop) :
      ∃ v, (c)[i.toNat + gap.toNat]? = some v ∧ b.read calls (i + gap) h = .done v h := by
    have hadd := toNat_add_gap hlt (by omega : stop.toNat + gap.toNat < 2 ^ 64)
    have hltn := BitVec.lt_def.mp hlt
    have hswap := hR.1
    rw [Multiset.cons_swap] at hswap
    obtain ⟨v,hv,hdone⟩ := b.read_eq hswap hl (by omega : (i + gap).toNat < c.length)
    exact ⟨v,hadd ▸ hv,hdone⟩
  have hwrite {i : U64} {h : H} {z : List U8} (v : U8) (hR : R i.toNat h z) (hlt : i < stop) :
      ∃ t, new.write calls i v h = .done () t ∧ R (i.toNat + 1) t (z.set i.toNat v) := by
    obtain ⟨hz,hzl⟩ := hR
    have hltn := BitVec.lt_def.mp hlt
    obtain ⟨t,ht,htz⟩ := new.write_eq v hz (by omega) (by omega : i.toNat < z.length)
    exact ⟨t,ht,htz,by rw [List.length_set,hzl]⟩
  have hloop := copyBytes_loop (R := R) hread hwrite (fun hR => by have := hR.2; omega) fuel
    ⟨hh,rfl⟩ hi
  exact hloop.imp_right fun ⟨t,ht,hR⟩ => ⟨t,ht,hR.1⟩

end Bytes

/-- The buffer begins with the entries `xs`. -/
def Stored (src : HeapSupply calls) (out : Multiset (U64 × List U8)) (list : ArrayList) (h : H)
    (xs : List (List U8)) : Prop :=
  ∃ c, c.length = list.capacity.toNat * list.entrySize.toNat ∧ c.length < 2 ^ 64 ∧
    c.take (xs.length * list.entrySize.toNat) = xs.flatten ∧ src.Holds h ((list.l,c) ::ₘ out)

/-- The array list is the list `xs`, and `out` are the other blocks of the heap. -/
structure Represents (src : HeapSupply calls) (out : Multiset (U64 × List U8)) (s : ListHeap H)
    (xs : List (List U8)) : Prop where
  entry : 1 ≤ s.list.entrySize.toNat
  uniform : Uniform s.list.entrySize.toNat xs
  size : s.list.size.toNat = xs.length
  fits : xs.length ≤ s.list.capacity.toNat
  power : s.list.capacity = 0#64 ∨ ∃ k, s.list.capacity.toNat = 2 ^ k
  unheld : s.list.capacity = 0#64 → src.Holds s.heap out
  stored : s.list.capacity ≠ 0#64 → Stored src out s.list s.heap xs

/-- The buffer has room for one more entry, or its size can be doubled. -/
def ArrayList.CanGrow (list : ArrayList) : Prop :=
  list.size < list.capacity ∨ 2 * (list.capacity.toNat * list.entrySize.toNat) < 2 ^ 64

/-- The state between `arraylist_add` and the write of the new entry. -/
structure HasRoom (src : HeapSupply calls) (out : Multiset (U64 × List U8)) (s : ListHeap H)
    (xs : List (List U8)) : Prop where
  entry : 1 ≤ s.list.entrySize.toNat
  uniform : Uniform s.list.entrySize.toNat xs
  size : s.list.size.toNat = xs.length + 1
  fits : xs.length + 1 ≤ s.list.capacity.toNat
  power : ∃ k, s.list.capacity.toNat = 2 ^ k
  stored : Stored src out s.list s.heap xs

section Calls
variable {s u : ListHeap H} {xs : List (List U8)}

theorem represents_new {e : U64} (he : 1 ≤ e.toNat) (hh : src.Holds h out) :
    Represents src out ⟨arraylistNew e,h⟩ [] :=
  ⟨he,by simp [Uniform],rfl,Nat.zero_le _,.inl rfl,fun _ => hh,fun hne => absurd rfl hne⟩

theorem ArrayList.limit_eq {list : ArrayList} {c : List U8}
    (hc : c.length = list.capacity.toNat * list.entrySize.toNat) (hlt : c.length < 2 ^ 64) :
    list.buffer.limit.toNat = c.length := by
  rw [ArrayList.buffer,BitVec.toNat_mul,← hc,Nat.mod_eq_of_lt hlt]

/-- A power of two among the 64-bit numbers is at most 2^63. -/
theorem power_bounds {a : U64} {k : ℕ} (hk : a.toNat = 2 ^ k) : 0 < a.toNat ∧ a.toNat ≤ 2 ^ 63 := by
  have hlt := a.isLt
  rw [hk] at hlt ⊢
  have hk64 : k < 64 := (Nat.pow_lt_pow_iff_right (by decide)).mp hlt
  exact ⟨Nat.two_pow_pos k,Nat.pow_le_pow_right (by decide) (by omega)⟩

/-- The buffer of a list without one: a block of one entry. -/
theorem Represents.room_of_vmalloc (hr : Represents src out s xs) (hzero : s.list.capacity = 0#64)
    {l : U64} {t : H} {c : List U8} (hc : c.length = (1#64 * s.list.entrySize).toNat)
    (hheld : src.Holds t ((l,c) ::ₘ out)) :
    HasRoom src out ⟨⟨l,1#64,1#64,s.list.entrySize⟩,t⟩ xs := by
  have hfits := hr.fits
  rw [hzero,BitVec.toNat_zero,Nat.le_zero,List.length_eq_zero_iff] at hfits
  subst hfits
  rw [BitVec.one_mul] at hc
  refine ⟨hr.entry,hr.uniform,rfl,le_rfl,⟨0,rfl⟩,c,?_,?_,?_,hheld⟩
  · rw [hc]
    exact (Nat.one_mul _).symm
  · rw [hc]
    exact s.list.entrySize.isLt
  · simp

/-- A full buffer becomes a block of twice its size with the same entries. -/
theorem Represents.room_of_vrealloc (hr : Represents src out s xs)
    (hne : s.list.capacity ≠ 0#64) (hfull : s.list.capacity.toNat = xs.length)
    (hdouble : 2 * (s.list.capacity.toNat * s.list.entrySize.toNat) < 2 ^ 64)
    {l : U64} {t : H} {c d : List U8}
    (hc : c.length = s.list.capacity.toNat * s.list.entrySize.toNat)
    (htake : c.take (xs.length * s.list.entrySize.toNat) = xs.flatten)
    (hd : d.length = (s.list.capacity * 2#64 * s.list.entrySize).toNat)
    (hold : ∀ i < min c.length (s.list.capacity * 2#64 * s.list.entrySize).toNat, d[i]? = (c)[i]?)
    (hheld : src.Holds t ((l,d) ::ₘ out)) :
    HasRoom src out
      ⟨⟨l,s.list.size + 1#64,s.list.capacity * 2#64,s.list.entrySize⟩,t⟩ xs := by
  have hsize := hr.size
  obtain ⟨k,hk⟩ := hr.power.resolve_left hne
  obtain ⟨hpos,hhalf⟩ := power_bounds hk
  have hcap : s.list.capacity.toNat ≤ s.list.capacity.toNat * s.list.entrySize.toNat :=
    Nat.le_mul_of_pos_right _ hr.entry
  have hcap2 : (s.list.capacity * 2#64).toNat = 2 * s.list.capacity.toNat := by
    rw [BitVec.toNat_mul,show (2#64).toNat = 2 from rfl,Nat.mod_eq_of_lt (by omega),Nat.mul_comm]
  have hnew : (s.list.capacity * 2#64 * s.list.entrySize).toNat =
      2 * s.list.capacity.toNat * s.list.entrySize.toNat := by
    rw [BitVec.toNat_mul,hcap2,Nat.mod_eq_of_lt (by rw [Nat.mul_assoc]; exact hdouble)]
  rw [hnew] at hd hold
  refine ⟨hr.entry,hr.uniform,?_,?_,⟨k + 1,?_⟩,d,?_,?_,?_,hheld⟩
  · show (s.list.size + 1#64).toNat = xs.length + 1
    rw [BitVec.toNat_add,show (1#64).toNat = 1 from rfl]
    omega
  · show xs.length + 1 ≤ (s.list.capacity * 2#64).toNat
    omega
  · show (s.list.capacity * 2#64).toNat = 2 ^ (k + 1)
    rw [hcap2,hk,Nat.pow_succ,Nat.mul_comm]
  · rw [hd,hcap2]
  · rw [hd,Nat.mul_assoc]
    exact hdouble
  · rw [← htake]
    refine take_congr fun i hi => hold i ?_
    rw [← hfull] at hi
    rw [Nat.mul_assoc,hc]
    dsimp only at hi
    omega

/-- `arraylist_add` returns the old size and leaves room for the new entry. -/
theorem Represents.add (hr : Represents src out s xs) (hg : s.list.CanGrow) :
    (arraylistAdd calls s).Settled ∧ ∀ index u, arraylistAdd calls s = .done index u →
      index = s.list.size ∧ u.list.entrySize = s.list.entrySize ∧ HasRoom src out u xs := by
  have hsize := hr.size
  have hfits := hr.fits
  unfold arraylistAdd
  dsimp only
  split
  · -- the first entry
    rename_i hzero
    rw [hzero,BitVec.toNat_zero] at hfits
    have hempty : s.list.size = 0#64 := by
      apply BitVec.eq_of_toNat_eq
      rw [BitVec.toNat_zero]
      omega
    refine Outcome.settled_assign (src.vmalloc (1#64 * s.list.entrySize) (hr.unheld hzero)) ?_
    rintro l t ⟨c,hc,hheld⟩
    exact ⟨hempty.symm,rfl,hr.room_of_vmalloc hzero hc hheld⟩
  · rename_i hne
    obtain ⟨k,hk⟩ := hr.power.resolve_left hne
    obtain ⟨hpos,hhalf⟩ := power_bounds hk
    obtain ⟨c,hc,hlt,htake,hheld⟩ := hr.stored hne
    have hsucc : (s.list.size + 1#64).toNat = xs.length + 1 := by
      rw [BitVec.toNat_add,show (1#64).toNat = 1 from rfl]
      omega
    split
    · -- an entry is free
      rename_i hroom
      refine ⟨Outcome.settled_done _ _,fun index u hdone => ?_⟩
      obtain ⟨rfl,rfl⟩ := Outcome.done.inj hdone
      rw [BitVec.le_def,hsucc] at hroom
      exact ⟨rfl,rfl,hr.entry,hr.uniform,hsucc,hroom,⟨k,hk⟩,c,hc,hlt,htake,hheld⟩
    · -- the buffer is full
      rename_i hfull
      rw [BitVec.le_def,hsucc] at hfull
      have hdouble : 2 * (s.list.capacity.toNat * s.list.entrySize.toNat) < 2 ^ 64 := by
        rcases hg with hlt | hdouble
        · have := BitVec.lt_def.mp hlt
          omega
        · exact hdouble
      refine Outcome.settled_assign (src.vrealloc (s.list.capacity * 2#64 * s.list.entrySize) hheld) ?_
      rintro l t ⟨d,hd,hold,hheld⟩
      exact ⟨rfl,rfl,hr.room_of_vrealloc hne (by omega) hdouble hc htake hd hold hheld⟩

/-- The caller writes the new entry into the buffer. -/
theorem HasRoom.storeEntry {index : U64} {entry : List U8} (hr : HasRoom src out s xs)
    (hindex : index.toNat = xs.length) (hentry : entry.length = s.list.entrySize.toNat) :
    ∃ u, Lios.storeEntry calls index entry s = .done () u ∧
      u.list = s.list ∧ Represents src out u (xs ++ [entry]) := by
  obtain ⟨k,hk⟩ := hr.power
  obtain ⟨hpos,-⟩ := power_bounds hk
  obtain ⟨c,hc,hlt,htake,hheld⟩ := hr.stored
  have hfit : xs.length * s.list.entrySize.toNat + s.list.entrySize.toNat ≤ c.length := by
    rw [hc,← Nat.succ_mul]
    exact Nat.mul_le_mul_right _ hr.fits
  have hoff : (index * s.list.entrySize).toNat = xs.length * s.list.entrySize.toNat := by
    rw [BitVec.toNat_mul,hindex,Nat.mod_eq_of_lt (by omega)]
  obtain ⟨t,ht,hheld'⟩ := s.list.buffer.writeBytes_eq entry hheld
    (ArrayList.limit_eq hc hlt) (by rw [hoff,hentry]; exact hfit)
  have hlen : (xs ++ [entry]).length = xs.length + 1 := by simp
  refine ⟨⟨s.list,t⟩,by rw [Lios.storeEntry,ht]; rfl,rfl,hr.entry,
    hr.uniform.append_singleton hentry,hr.size.trans hlen.symm,by rw [hlen]; exact hr.fits,
    .inr hr.power,fun hz => ?_,fun _ => ⟨_,?_,?_,?_,hheld'⟩⟩
  · rw [hz] at hpos
    exact absurd hpos (by decide)
  · rw [hoff,← hc]
    simp only [List.length_append,List.length_take,List.length_drop]
    omega
  · rw [hoff]
    simp only [List.length_append,List.length_take,List.length_drop]
    omega
  · rw [hoff,htake,hlen,Nat.succ_mul,List.flatten_append,List.flatten_singleton]
    refine List.take_left' ?_
    rw [List.length_append,hr.uniform.length_flatten,hentry]

/-- What remains of the buffer when the entry at `index` is taken out. -/
theorem copied_erase {c x : List U8} {k e : ℕ} (hu : Uniform e xs)
    (hc : c.take (xs.length * e) = xs.flatten) (hk : k < xs.length)
    (hx : x.take (k * e) = c.take (k * e))
    (hlen : (xs.length - 1) * e ≤ x.length) (hclen : xs.length * e ≤ c.length) :
    (copied x c (k * e) ((xs.length - 1) * e) e).take ((xs.length - 1) * e) =
      (xs.eraseIdx k).flatten := by
  have hle : k * e ≤ (xs.length - 1) * e := Nat.mul_le_mul_right e (by omega)
  have hsucc : (xs.length - 1) * e + e = xs.length * e := by
    rw [← Nat.succ_mul]
    congr 1
    omega
  rw [take_copied hle hlen (by omega),hx]
  exact hu.flatten_eraseIdx_of_take hc hk

/-- The offsets of a removal, in bytes, do not wrap. -/
theorem removal_offsets {list : ArrayList} {c : List U8} {index newSize : U64}
    (hc : c.length = list.capacity.toNat * list.entrySize.toNat) (hlt : c.length < 2 ^ 64)
    (hindex : index.toNat < xs.length) (hsize : newSize.toNat = xs.length - 1)
    (hfits : xs.length ≤ list.capacity.toNat) :
    (index * list.entrySize).toNat = index.toNat * list.entrySize.toNat ∧
      (newSize * list.entrySize).toNat = (xs.length - 1) * list.entrySize.toNat ∧
      index.toNat * list.entrySize.toNat ≤ (xs.length - 1) * list.entrySize.toNat ∧
      (xs.length - 1) * list.entrySize.toNat + list.entrySize.toNat =
        xs.length * list.entrySize.toNat ∧
      xs.length * list.entrySize.toNat ≤ c.length := by
  have hused : xs.length * list.entrySize.toNat ≤ c.length := by
    rw [hc]
    exact Nat.mul_le_mul_right _ hfits
  have hbefore : index.toNat * list.entrySize.toNat ≤ (xs.length - 1) * list.entrySize.toNat :=
    Nat.mul_le_mul_right _ (by omega)
  have hlast : (xs.length - 1) * list.entrySize.toNat + list.entrySize.toNat =
      xs.length * list.entrySize.toNat := by
    rw [← Nat.succ_mul]
    congr 1
    omega
  refine ⟨?_,?_,hbefore,hlast,hused⟩
  · rw [BitVec.toNat_mul,Nat.mod_eq_of_lt (by omega)]
  · rw [BitVec.toNat_mul,hsize,Nat.mod_eq_of_lt (by omega)]

/-- The copy inside of the buffer. -/
theorem shiftCopy_eq {list : ArrayList} {c : List U8} {index newSize : U64}
    (hu : Uniform list.entrySize.toNat xs)
    (hc : c.length = list.capacity.toNat * list.entrySize.toNat) (hlt : c.length < 2 ^ 64)
    (htake : c.take (xs.length * list.entrySize.toNat) = xs.flatten)
    (hheld : src.Holds h ((list.l,c) ::ₘ out)) (hindex : index.toNat < xs.length)
    (hsize : newSize.toNat = xs.length - 1) (hfits : xs.length ≤ list.capacity.toNat)
    (fuel : ℕ) :
    (fuel < 2 ^ 64 ∧ copyBytes calls list.buffer list.buffer list.entrySize
        (newSize * list.entrySize) fuel (index * list.entrySize) h = .spin) ∨
      ∃ t, copyBytes calls list.buffer list.buffer list.entrySize (newSize * list.entrySize) fuel
          (index * list.entrySize) h = .done () t ∧
        Stored src out { list with size := newSize } t (xs.eraseIdx index.toNat) := by
  obtain ⟨hstart,hstop,hbefore,hlast,hused⟩ := removal_offsets hc hlt hindex hsize hfits
  obtain ⟨hfuel,hspin⟩ | ⟨t,ht,hheld'⟩ := copyBytes_inPlace list.buffer list.entrySize
    (newSize * list.entrySize) (index * list.entrySize) hheld (ArrayList.limit_eq hc hlt)
    (by omega) fuel (by omega)
  · exact .inl ⟨by omega,hspin⟩
  rw [hstart,hstop] at hheld'
  have hlen := length_copied hbefore
    (by omega : (xs.length - 1) * list.entrySize.toNat ≤ c.length)
    (by omega : (xs.length - 1) * list.entrySize.toNat + list.entrySize.toNat ≤ c.length)
  have hkept := copied_erase hu htake hindex rfl (by omega) (by omega)
  refine .inr ⟨t,ht,_,?_,?_,?_,hheld'⟩
  · rw [hlen,hc]
  · omega
  · rw [List.length_eraseIdx_of_lt hindex]
    exact hkept

/-- The two copies into a smaller buffer. -/
theorem copyAround_eq {list : ArrayList} {c x : List U8} {p index newSize newCapacity : U64}
    (hu : Uniform list.entrySize.toNat xs)
    (hc : c.length = list.capacity.toNat * list.entrySize.toNat) (hlt : c.length < 2 ^ 64)
    (htake : c.take (xs.length * list.entrySize.toNat) = xs.flatten)
    (hx : x.length = (newCapacity * list.entrySize).toNat)
    (hroom : (xs.length - 1) * list.entrySize.toNat ≤ x.length)
    (hheld : src.Holds h ((p,x) ::ₘ (list.l,c) ::ₘ out)) (hindex : index.toNat < xs.length)
    (hsize : newSize.toNat = xs.length - 1) (hfits : xs.length ≤ list.capacity.toNat)
    (fuel : ℕ) :
    let new : Buffer := ⟨p,newCapacity * list.entrySize⟩
    let copies := (copyBytes calls new list.buffer 0#64 (index * list.entrySize) fuel 0#64 h).bind
      fun _ h => copyBytes calls new list.buffer list.entrySize (newSize * list.entrySize) fuel
        (index * list.entrySize) h
    (fuel < 2 ^ 64 ∧ copies = .spin) ∨
      ∃ t y, copies = .done () t ∧ y.length = x.length ∧
        y.take ((xs.length - 1) * list.entrySize.toNat) = (xs.eraseIdx index.toNat).flatten ∧
        src.Holds t ((p,y) ::ₘ (list.l,c) ::ₘ out) := by
  intro new copies
  obtain ⟨hstart,hstop,hbefore,hlast,hused⟩ := removal_offsets hc hlt hindex hsize hfits
  have hlimit := ArrayList.limit_eq hc hlt
  obtain ⟨hfuel,hspin⟩ | ⟨t₁,ht₁,hheld₁⟩ := copyBytes_between new list.buffer 0#64
    (index * list.entrySize) 0#64 hheld hlimit hx.symm (by rw [BitVec.toNat_zero]; omega)
    (by omega) fuel (Nat.zero_le _)
  · exact .inl ⟨by omega,by simp only [copies,hspin,Outcome.bind_spin]⟩
  rw [BitVec.toNat_zero,hstart] at hheld₁
  have hx₁ : (copied x c 0 (index.toNat * list.entrySize.toNat) 0).length = x.length :=
    length_copied (Nat.zero_le _) (by omega) (by omega)
  obtain ⟨hfuel,hspin⟩ | ⟨t₂,ht₂,hheld₂⟩ := copyBytes_between new list.buffer list.entrySize
    (newSize * list.entrySize) (index * list.entrySize) hheld₁ hlimit
    (by rw [hx₁,hx]) (by omega) (by omega) fuel (by omega)
  · exact .inl ⟨by omega,by simp only [copies,ht₁,Outcome.bind_done,hspin]⟩
  rw [hstart,hstop] at hheld₂
  have hx₂ := length_copied hbefore
    (by omega : _ ≤ (copied x c 0 (index.toNat * list.entrySize.toNat) 0).length)
    (by omega : (xs.length - 1) * list.entrySize.toNat + list.entrySize.toNat ≤ c.length)
  have hprefix : (copied x c 0 (index.toNat * list.entrySize.toNat) 0).take
      (index.toNat * list.entrySize.toNat) = c.take (index.toNat * list.entrySize.toNat) := by
    rw [take_copied (Nat.zero_le _) (by omega) (by omega)]
    simp
  exact .inr ⟨t₂,_,by simp only [copies,ht₁,Outcome.bind_done,ht₂],hx₂.trans hx₁,
    copied_erase hu htake hindex hprefix (by omega) hused,hheld₂⟩

/-- The copy into a smaller buffer. -/
theorem shrinkCopy_eq {list : ArrayList} {c : List U8} {index newSize newCapacity : U64}
    (hu : Uniform list.entrySize.toNat xs)
    (hc : c.length = list.capacity.toNat * list.entrySize.toNat) (hlt : c.length < 2 ^ 64)
    (htake : c.take (xs.length * list.entrySize.toNat) = xs.flatten)
    (hheld : src.Holds h ((list.l,c) ::ₘ out)) (hindex : index.toNat < xs.length)
    (hsize : newSize.toNat = xs.length - 1) (hnew : xs.length - 1 ≤ newCapacity.toNat)
    (hcap : newCapacity.toNat ≤ list.capacity.toNat) (hfits : xs.length ≤ list.capacity.toNat)
    (fuel : ℕ) :
    (fuel < 2 ^ 64 ∧ shrinkCopy calls fuel index newSize newCapacity list h = .spin) ∨
      ((shrinkCopy calls fuel index newSize newCapacity list h).Settled ∧
        ∀ p t, shrinkCopy calls fuel index newSize newCapacity list h = .done p t →
          Stored src out ⟨p,newSize,newCapacity,list.entrySize⟩ t (xs.eraseIdx index.toNat)) := by
  have hcaple : newCapacity.toNat * list.entrySize.toNat ≤ c.length := by
    rw [hc]
    exact Nat.mul_le_mul_right _ hcap
  have hkeep : (xs.length - 1) * list.entrySize.toNat ≤
      newCapacity.toNat * list.entrySize.toNat := Nat.mul_le_mul_right _ hnew
  have hlimit : (newCapacity * list.entrySize).toNat =
      newCapacity.toNat * list.entrySize.toNat := by
    rw [BitVec.toNat_mul,Nat.mod_eq_of_lt (by omega)]
  unfold shrinkCopy
  obtain ⟨hset,hspec⟩ := src.vmalloc (newCapacity * list.entrySize) hheld
  cases halloc : calls.vmalloc (newCapacity * list.entrySize) h with
  | done p t =>
    obtain ⟨x,hx,hheld₁⟩ := hspec p t halloc
    rw [Outcome.bind_done]
    dsimp only
    rw [← Outcome.bind_assoc]
    obtain ⟨hfuel,hspin⟩ | ⟨t₁,y,ht₁,hy,hkept,hheld₂⟩ := copyAround_eq hu hc hlt htake hx
      (by omega) hheld₁ hindex hsize hfits fuel
    · exact .inl ⟨hfuel,by rw [hspin,Outcome.bind_spin]⟩
    rw [ht₁,Outcome.bind_done]
    rw [Multiset.cons_swap] at hheld₂
    obtain ⟨hset,hspec⟩ := src.vfree hheld₂
    refine .inr ⟨hset.bind fun _ _ _ => Outcome.settled_done _ _,fun q t' hdone => ?_⟩
    obtain ⟨_,t₂,hfree,hdone⟩ := Outcome.bind_eq_done.mp hdone
    obtain ⟨rfl,rfl⟩ := Outcome.done.inj hdone
    refine ⟨y,?_,?_,?_,hspec t₂ hfree⟩
    · rw [hy,hx,hlimit]
    · omega
    · rw [List.length_eraseIdx_of_lt hindex]
      exact hkept
  | panic m t => exact .inr ⟨trivial,fun _ _ hdone => nomatch hdone⟩
  | fault t =>
    rw [halloc] at hset
    exact hset.elim
  | spin =>
    rw [halloc] at hset
    exact hset.elim

theorem arraylistRemove_of_le {index : U64} (hle : s.list.size ≤ index) (fuel : ℕ) :
    arraylistRemove calls fuel index s = .done false s := if_pos hle

/-- The list after a removal, for a capacity that is a power of two and is large enough. -/
theorem Represents.erased {index p newSize newCapacity : U64} {t : H} {k : ℕ}
    (hr : Represents src out s xs) (hindex : index.toNat < xs.length)
    (hsize : newSize.toNat = xs.length - 1) (hfits : xs.length - 1 ≤ newCapacity.toNat)
    (hk : newCapacity.toNat = 2 ^ k)
    (hstored : Stored src out ⟨p,newSize,newCapacity,s.list.entrySize⟩ t
      (xs.eraseIdx index.toNat)) :
    Represents src out ⟨⟨p,newSize,newCapacity,s.list.entrySize⟩,t⟩ (xs.eraseIdx index.toNat) := by
  have hcount := List.length_eraseIdx_of_lt hindex
  refine ⟨hr.entry,hr.uniform.eraseIdx _,hsize.trans hcount.symm,hcount ▸ hfits,.inr ⟨k,hk⟩,
    fun hz => ?_,fun _ => hstored⟩
  rw [show newCapacity = 0#64 from hz] at hk
  exact absurd hk (Nat.two_pow_pos k).ne

/-- `arraylist_remove` takes out the entry at an index inside the list. -/
theorem Represents.remove (hr : Represents src out s xs) (index : U64) (fuel : ℕ) :
    (fuel < 2 ^ 64 ∧ arraylistRemove calls fuel index s = .spin) ∨
      ((arraylistRemove calls fuel index s).Settled ∧
        ∀ b u, arraylistRemove calls fuel index s = .done b u →
          b = decide (index < s.list.size) ∧ u.list.entrySize = s.list.entrySize ∧
          Represents src out u (xs.eraseIdx index.toNat)) := by
  have hsize := hr.size
  have hfits := hr.fits
  by_cases hle : s.list.size ≤ index
  · rw [arraylistRemove_of_le hle]
    refine .inr ⟨trivial,fun b u hdone => ?_⟩
    obtain ⟨rfl,rfl⟩ := Outcome.done.inj hdone
    rw [BitVec.le_def] at hle
    refine ⟨?_,rfl,?_⟩
    · rw [eq_comm,decide_eq_false_iff_not,BitVec.lt_def]
      omega
    · rw [List.eraseIdx_of_length_le (by omega)]
      exact hr
  have hindex : index.toNat < xs.length := by
    rw [BitVec.le_def] at hle
    omega
  have hin : decide (index < s.list.size) = true := by
    rw [decide_eq_true_iff,BitVec.lt_def]
    omega
  have hne : s.list.capacity ≠ 0#64 := by
    intro hz
    rw [hz,BitVec.toNat_zero] at hfits
    omega
  obtain ⟨k,hk⟩ := hr.power.resolve_left hne
  obtain ⟨c,hc,hlt,htake,hheld⟩ := hr.stored hne
  have hnew : (s.list.size - 1#64).toNat = xs.length - 1 := by
    rw [BitVec.toNat_sub,show (1#64).toNat = 1 from rfl]
    omega
  rw [arraylistRemove]
  dsimp only
  rw [if_neg hle]
  split
  · -- the buffer stays
    obtain ⟨hfuel,hspin⟩ | ⟨t,ht,hstored⟩ := shiftCopy_eq hr.uniform hc hlt htake hheld hindex
      hnew hfits fuel
    · exact .inl ⟨hfuel,by rw [hspin]; rfl⟩
    rw [ht]
    refine .inr ⟨trivial,fun b u hdone => ?_⟩
    obtain ⟨rfl,rfl⟩ := Outcome.done.inj hdone
    exact ⟨hin.symm,rfl,hr.erased hindex hnew (by omega) hk hstored⟩
  · -- a smaller buffer
    rename_i hless
    have hcap : (s.list.capacity / 2#64).toNat = s.list.capacity.toNat / 2 := BitVec.toNat_udiv
    rw [BitVec.le_def,hcap,hnew] at hless
    obtain ⟨hfuel,hspin⟩ | hshrunk := shrinkCopy_eq hr.uniform hc hlt htake hheld hindex hnew
      (by omega : xs.length - 1 ≤ (s.list.capacity / 2#64).toNat) (by omega) hfits fuel
    · exact .inl ⟨hfuel,by rw [hspin]; rfl⟩
    -- less than half in use: the capacity is not 1
    obtain ⟨j,rfl⟩ : ∃ j, k = j + 1 := by
      cases k with
      | zero => omega
      | succ j => exact ⟨j,rfl⟩
    rw [Nat.pow_succ] at hk
    refine .inr (Outcome.settled_assign hshrunk fun p t hstored => ⟨hin.symm,rfl,?_⟩)
    exact hr.erased hindex hnew (by omega) (by omega : _ = 2 ^ j) hstored

theorem Represents.free (hr : Represents src out s xs) (hne : s.list.capacity ≠ 0#64) :
    (arraylistFree calls s).Settled ∧ ∀ u, arraylistFree calls s = .done () u →
      Represents src out u [] := by
  obtain ⟨c,-,-,-,hheld⟩ := hr.stored hne
  obtain ⟨hset,hspec⟩ := src.vfree hheld
  refine ⟨hset.mapState.bind fun _ _ _ => Outcome.settled_done _ _,fun u hdone => ?_⟩
  obtain ⟨_,v,hv,hdone⟩ := Outcome.bind_eq_done.mp hdone
  obtain ⟨t,ht,rfl⟩ := Outcome.mapState_eq_done.mp hv
  obtain ⟨-,rfl⟩ := Outcome.done.inj hdone
  exact ⟨hr.entry,by simp [Uniform],rfl,Nat.zero_le _,.inl rfl,fun _ => hspec t ht,
    fun hz => absurd rfl hz⟩

end Calls

end Lios

import Mathlib.Data.List.Nodup
import Mathlib.Logic.Function.Basic

/-! # Singly linked lists in a pointer store

The store is seen only through its successor function. A segment is the list of
nodes passed on the way from one pointer to another; a linked list is a segment
that ends at the null pointer. The null pointer is a parameter, so the same facts
serve every node type. The two searches are the loops `while (cur) ... cur =
cur->next` and `for (;;) ... if (!cur->next) break; cur = cur->next`, with fuel.
-/
namespace Lios
variable {P : Type} [DecidableEq P]

/-- The nodes passed from `p` until `q` is reached. -/
def Segment (next : P → P) : P → List P → P → Prop
  | p, [], q => p = q
  | p, x :: l, q => p = x ∧ Segment next (next x) l q

/-- A null-terminated list of nodes. -/
def Linked (null : P) (next : P → P) (p : P) (l : List P) : Prop :=
  Segment next p l null ∧ null ∉ l

instance decidableSegment (next : P → P) : ∀ p l q, Decidable (Segment next p l q)
  | p, [], q => inferInstanceAs (Decidable (p = q))
  | p, x :: l, q =>
    haveI := decidableSegment next (next x) l q
    inferInstanceAs (Decidable (p = x ∧ Segment next (next x) l q))

instance (null : P) (next : P → P) (p : P) (l : List P) : Decidable (Linked null next p l) :=
  inferInstanceAs (Decidable (Segment next p l null ∧ null ∉ l))

section Segment
variable {next next' : P → P} {p q r null : P} {l l₁ l₂ : List P}

omit [DecidableEq P]

@[simp] theorem segment_nil : Segment next p [] q ↔ p = q := Iff.rfl
@[simp] theorem segment_cons {x : P} :
    Segment next p (x :: l) q ↔ p = x ∧ Segment next (next x) l q := Iff.rfl

theorem segment_append : Segment next p (l₁ ++ l₂) q ↔
    ∃ r, Segment next p l₁ r ∧ Segment next r l₂ q := by
  induction l₁ generalizing p with
  | nil => simp
  | cons x l₁ ih => simp [ih,and_assoc]

/-- Only the links of the nodes passed matter. -/
theorem Segment.congr (h : Segment next p l q) (he : ∀ x ∈ l, next' x = next x) :
    Segment next' p l q := by
  induction l generalizing p with
  | nil => exact h
  | cons x l ih =>
    obtain ⟨rfl,h⟩ := h
    refine ⟨rfl,?_⟩
    rw [he p List.mem_cons_self]
    exact ih h (fun y hy => he y (List.mem_cons_of_mem _ hy))

theorem Segment.next_mem {x : P} (h : Segment next p l q) (hx : x ∈ l) :
    next x = q ∨ next x ∈ l := by
  induction l generalizing p with
  | nil => cases hx
  | cons y l ih =>
    obtain ⟨rfl,h⟩ := h
    rcases List.mem_cons.mp hx with rfl | hx
    · cases l with
      | nil => exact .inl h
      | cons z l => exact .inr (List.mem_cons_of_mem _ (h.1 ▸ List.mem_cons_self))
    · exact (ih h hx).imp_right (List.mem_cons_of_mem _)

@[simp] theorem linked_nil : Linked null next p [] ↔ p = null := by simp [Linked]

theorem linked_cons {x : P} :
    Linked null next p (x :: l) ↔ p = x ∧ x ≠ null ∧ Linked null next (next x) l := by
  simp only [Linked,segment_cons,List.mem_cons,not_or]
  constructor
  · rintro ⟨⟨hp,hs⟩,hx,hl⟩
    exact ⟨hp,Ne.symm hx,hs,hl⟩
  · rintro ⟨hp,hx,hs,hl⟩
    exact ⟨⟨hp,hs⟩,Ne.symm hx,hl⟩

theorem Linked.congr (h : Linked null next p l) (he : ∀ x ∈ l, next' x = next x) :
    Linked null next' p l := ⟨h.1.congr he,h.2⟩

/-- A nonempty linked list starts at its pointer. -/
theorem Linked.exists_cons (h : Linked null next p l) (hp : p ≠ null) :
    ∃ t, l = p :: t ∧ Linked null next (next p) t := by
  cases l with
  | nil => exact absurd (linked_nil.mp h) hp
  | cons x t =>
    obtain ⟨rfl,-,ht⟩ := linked_cons.mp h
    exact ⟨t,rfl,ht⟩

theorem Linked.eq_nil (h : Linked null next p l) (hp : p = null) : l = [] := by
  cases l with
  | nil => rfl
  | cons x t =>
    obtain ⟨rfl,hx,-⟩ := linked_cons.mp h
    exact absurd hp hx

/-- The pointer determines the list. -/
theorem Linked.unique {l' : List P} (h : Linked null next p l) (h' : Linked null next p l') :
    l = l' := by
  induction l generalizing p l' with
  | nil => exact (h'.eq_nil (linked_nil.mp h)).symm
  | cons x l ih =>
    obtain ⟨rfl,hx,hl⟩ := linked_cons.mp h
    obtain ⟨t,rfl,ht⟩ := h'.exists_cons hx
    rw [ih hl ht]

theorem Linked.of_append (h : Linked null next p (l₁ ++ l₂)) :
    ∃ r, Segment next p l₁ r ∧ Linked null next r l₂ := by
  obtain ⟨r,h₁,h₂⟩ := segment_append.mp h.1
  exact ⟨r,h₁,h₂,fun hn => h.2 (List.mem_append_right _ hn)⟩

/-- A null-terminated list has no cycle. -/
theorem Linked.nodup (h : Linked null next p l) : l.Nodup := by
  induction l generalizing p with
  | nil => exact List.nodup_nil
  | cons x l ih =>
    obtain ⟨rfl,hx,hl⟩ := linked_cons.mp h
    refine List.nodup_cons.mpr ⟨?_,ih hl⟩
    intro hm
    obtain ⟨l₁,l₂,rfl⟩ := List.append_of_mem hm
    obtain ⟨r,-,hr⟩ := hl.of_append
    obtain ⟨rfl,-⟩ := linked_cons.mp hr
    have hlen := congrArg List.length (hr.unique h)
    simp at hlen
    omega

theorem Linked.next_eq {x y : P} (h : Linked null next p (l₁ ++ x :: y :: l₂)) : next x = y := by
  obtain ⟨r,-,h⟩ := h.of_append
  obtain ⟨rfl,-,h⟩ := linked_cons.mp h
  exact (linked_cons.mp h).1

/-- The link of a node is the node at the next place, or null at the end. -/
theorem Linked.next_getElem? {k : ℕ} {x : P} (h : Linked null next p l) (hk : l[k]? = some x) :
    next x = (l[k + 1]?).getD null := by
  induction l generalizing p k with
  | nil => simp at hk
  | cons y l ih =>
    obtain ⟨-,-,hl⟩ := linked_cons.mp h
    cases k with
    | zero =>
      obtain rfl : y = x := by simpa using hk
      cases l with
      | nil => exact linked_nil.mp hl
      | cons z l => exact (linked_cons.mp hl).1
    | succ k => exact ih hl (by simpa using hk)

theorem Linked.next_mem {x : P} (h : Linked null next p l) (hx : x ∈ l) :
    next x = null ∨ next x ∈ l := by
  obtain ⟨k,hk⟩ := List.mem_iff_getElem?.mp hx
  rw [h.next_getElem? hk]
  cases hn : l[k + 1]? with
  | none => exact .inl rfl
  | some y => exact .inr (List.mem_of_getElem? hn)

theorem Linked.head_mem (h : Linked null next p l) : p = null ∨ p ∈ l := by
  by_cases hp : p = null
  · exact .inl hp
  · obtain ⟨t,rfl,-⟩ := h.exists_cons hp
    exact .inr List.mem_cons_self

theorem Linked.ne_next {x y : P} (h : Linked null next p (l₁ ++ x :: y :: l₂)) : x ≠ y := by
  rintro rfl
  obtain ⟨r,-,h⟩ := h.of_append
  exact (List.nodup_cons.mp h.nodup).1 List.mem_cons_self

theorem Linked.ne_head {x y : P} (h : Linked null next p (l₁ ++ x :: y :: l₂)) : y ≠ p := by
  rintro rfl
  have hnd := h.nodup
  cases l₁ with
  | nil =>
    obtain ⟨rfl,-⟩ := linked_cons.mp h
    simp at hnd
  | cons z l₁ =>
    obtain ⟨rfl,-⟩ := linked_cons.mp h
    simp at hnd

/-- A node reached from the start of the list is one of its nodes. -/
theorem Linked.mem_of_segment {l' : List P} (h : Linked null next p l)
    (hs : Segment next p l' q) (hl : null ∉ l') (hq : q ≠ null) : q ∈ l := by
  induction l' generalizing p l with
  | nil =>
    obtain rfl : p = q := hs
    obtain ⟨t,rfl,-⟩ := h.exists_cons hq
    exact List.mem_cons_self
  | cons x l' ih =>
    obtain ⟨rfl,hs⟩ := hs
    obtain ⟨hp,hl⟩ := not_or.mp (fun hn => hl (List.mem_cons.mpr hn))
    obtain ⟨t,rfl,ht⟩ := h.exists_cons (Ne.symm hp)
    exact List.mem_cons_of_mem _ (ih ht hs hl)

/-- A node is reached from `p` before a null pointer is. -/
def Reaches (null : P) (next : P → P) (p q : P) : Prop :=
  q ≠ null ∧ ∃ l, Segment next p l q ∧ null ∉ l

theorem Linked.reaches_iff (h : Linked null next p l) : Reaches null next p q ↔ q ∈ l := by
  constructor
  · rintro ⟨hq,l',hs,hl⟩
    exact h.mem_of_segment hs hl hq
  · intro hq
    refine ⟨fun hn => h.2 (hn ▸ hq),?_⟩
    obtain ⟨l₁,l₂,rfl⟩ := List.append_of_mem hq
    obtain ⟨r,hs,hr⟩ := h.of_append
    obtain ⟨rfl,-⟩ := linked_cons.mp hr
    exact ⟨l₁,hs,fun hn => h.2 (List.mem_append_left _ hn)⟩

theorem Segment.ne_null (hs : Segment next p l q) (hp : p ≠ null)
    (hl : ∀ x ∈ l, next x ≠ null) : null ∉ l ∧ q ≠ null := by
  induction l generalizing p with
  | nil =>
    obtain rfl : p = q := hs
    exact ⟨by simp,hp⟩
  | cons x l ih =>
    obtain ⟨rfl,hs⟩ := hs
    obtain ⟨hn,hq⟩ := ih hs (hl p List.mem_cons_self)
      (fun y hy => hl y (List.mem_cons_of_mem _ hy))
    exact ⟨by simp [Ne.symm hp,hn],hq⟩

/-- A segment to a last node is the whole list. -/
theorem Segment.linked_snoc (hs : Segment next p l q) (hl : null ∉ l) (hq : q ≠ null)
    (hn : next q = null) : Linked null next p (l ++ [q]) := by
  refine ⟨segment_append.mpr ⟨q,hs,rfl,hn⟩,?_⟩
  simp [hl,Ne.symm hq]

/-- Linking a second list behind the last node of a list. -/
theorem Linked.link {x : P} {l' : List P} (h : Linked null next p (l ++ [x]))
    (hl : ∀ y ∈ l, next' y = next y) (hx : next' x = q) (h' : Linked null next' q l') :
    Linked null next' p (l ++ x :: l') := by
  obtain ⟨r,hs,hr⟩ := h.of_append
  obtain ⟨rfl,hne,-⟩ := linked_cons.mp hr
  refine ⟨segment_append.mpr ⟨r,hs.congr hl,rfl,hx ▸ h'.1⟩,fun hn => ?_⟩
  rcases List.mem_append.mp hn with hn | hn
  · exact h.2 (List.mem_append_left _ hn)
  · rcases List.mem_cons.mp hn with hn | hn
    · exact hne hn.symm
    · exact h'.2 hn

/-- The list behind a node. -/
theorem Linked.rest {x : P} (h : Linked null next p (l₁ ++ x :: l₂)) :
    Linked null next (next x) l₂ := by
  obtain ⟨r,-,hr⟩ := h.of_append
  exact (linked_cons.mp hr).2.2

/-- Ending the list at one of its nodes. -/
theorem Linked.cut {x : P} (h : Linked null next p (l₁ ++ x :: l₂))
    (hl : ∀ y ∈ l₁, next' y = next y) (hx : next' x = null) :
    Linked null next' p (l₁ ++ [x]) := by
  obtain ⟨r,hs,hr⟩ := h.of_append
  obtain ⟨rfl,hne,-⟩ := linked_cons.mp hr
  exact (hs.congr hl).linked_snoc (fun hn => h.2 (List.mem_append_left _ hn)) hne hx

/-- Everything between two nodes and the second of them is left out. -/
theorem Linked.splice [DecidableEq P] {x y : P} {l' : List P}
    (h : Linked null next p (l₁ ++ x :: (l' ++ y :: l₂))) :
    Linked null (Function.update next x (next y)) p (l₁ ++ x :: l₂) := by
  have hnd := h.nodup
  obtain ⟨r,hs,hr⟩ := h.of_append
  obtain ⟨rfl,hne,hrest⟩ := linked_cons.mp hr
  have hl : r ∉ l₁ := fun hm => (List.nodup_append.mp hnd).2.2 r hm r List.mem_cons_self rfl
  have hl₂ : r ∉ l₂ := fun hm => (List.nodup_cons.mp (List.nodup_append.mp hnd).2.1).1
    (List.mem_append_right _ (List.mem_cons_of_mem _ hm))
  have hkeep (z : P) (hz : z ≠ r) : Function.update next r (next y) z = next z :=
    Function.update_of_ne hz _ _
  refine ⟨segment_append.mpr ⟨r,hs.congr fun z hz => hkeep z ?_,rfl,?_⟩,fun hn => ?_⟩
  · rintro rfl
    exact hl hz
  · rw [Function.update_self]
    refine hrest.rest.1.congr fun z hz => hkeep z ?_
    rintro rfl
    exact hl₂ hz
  · rcases List.mem_append.mp hn with hn | hn
    · exact h.2 (List.mem_append_left _ hn)
    · rcases List.mem_cons.mp hn with hn | hn
      · exact hne hn.symm
      · exact hrest.rest.2 hn

/-- Writing the link of a node outside the list leaves the list alone. -/
theorem Linked.of_notMem {x : P} (h : Linked null next p l) (hx : x ∉ l)
    (he : ∀ y, y ≠ x → next' y = next y) : Linked null next' p l :=
  h.congr (fun y hy => he y (fun hyx => hx (hyx ▸ hy)))

end Segment

section Search
variable (null : P) (next : P → P) (stop : P → Bool)

/-- The pointer at which `while (cur) { if (stop(cur)) break; cur = cur->next; }`
leaves its loop, or `none` when the fuel does not suffice. -/
def walk : ℕ → P → Option P
  | 0, _ => none
  | fuel + 1, cur =>
    if cur = null then some cur
    else if stop cur then some cur
    else walk fuel (next cur)

/-- The pointer at which `for (;;) { if (stop(cur)) break; if (!cur->next) break; cur =
cur->next; }` leaves its loop, and whether it stopped there. -/
def scan : ℕ → P → Option (P × Bool)
  | 0, _ => none
  | fuel + 1, cur =>
    if stop cur then some (cur,true)
    else if next cur = null then some (cur,false)
    else scan fuel (next cur)

variable {null next stop} {next' : P → P} {stop' : P → Bool} {p q : P} {l : List P} {fuel : ℕ}

/-- Where the search stops, and what it passed on the way. -/
theorem walk_eq_some : walk null next stop fuel p = some q ↔
    ∃ l, l.length < fuel ∧ Segment next p l q ∧ (∀ x ∈ l, x ≠ null ∧ stop x = false) ∧
      (q = null ∨ stop q = true) := by
  induction fuel generalizing p with
  | zero => simp [walk]
  | succ fuel ih =>
    unfold walk
    by_cases hp : p = null
    · simp only [hp,↓reduceIte,Option.some.injEq]
      constructor
      · rintro rfl
        exact ⟨[],by simp,rfl,by simp,Or.inl rfl⟩
      · rintro ⟨l,-,hs,hl,-⟩
        cases l with
        | nil => exact hs
        | cons x l => exact absurd hs.1.symm (hl x List.mem_cons_self).1
    · by_cases hq : stop p = true
      · simp only [hp,hq,↓reduceIte,Option.some.injEq]
        constructor
        · rintro rfl
          exact ⟨[],by simp,rfl,by simp,Or.inr hq⟩
        · rintro ⟨l,-,hs,hl,-⟩
          cases l with
          | nil => exact hs
          | cons x l =>
            obtain ⟨rfl,-⟩ := hs
            simp [hq] at hl
      · rw [if_neg hp,if_neg hq,ih]
        constructor
        · rintro ⟨l,hlen,hs,hl,hend⟩
          refine ⟨p :: l,by simpa using hlen,⟨rfl,hs⟩,?_,hend⟩
          intro x hx
          rcases List.mem_cons.mp hx with rfl | hx
          · exact ⟨hp,by simpa using hq⟩
          · exact hl x hx
        · rintro ⟨l,hlen,hs,hl,hend⟩
          cases l with
          | nil =>
            obtain rfl : p = q := hs
            rcases hend with hend | hend
            · exact absurd hend hp
            · exact absurd hend hq
          | cons x l =>
            obtain ⟨rfl,hs⟩ := hs
            exact ⟨l,by simpa using hlen,hs,fun y hy => hl y (List.mem_cons_of_mem _ hy),hend⟩

/-- On a null-terminated list the search ends, at the first match if there is one. -/
theorem walk_linked (h : Linked null next p l) (hf : l.length < fuel) :
    walk null next stop fuel p = some ((l.find? stop).getD null) := by
  induction l generalizing p fuel with
  | nil =>
    obtain rfl := linked_nil.mp h
    cases fuel with
    | zero => simp at hf
    | succ fuel => simp [walk]
  | cons x l ih =>
    obtain ⟨rfl,hx,hl⟩ := linked_cons.mp h
    cases fuel with
    | zero => simp at hf
    | succ fuel =>
      unfold walk
      by_cases hs : stop p = true
      · simp [hx,hs]
      · simp [hx,hs,ih hl (by simpa using hf)]

/-- The search sees the store only on the nodes it passes and where it stops. -/
theorem walk_congr (h : walk null next stop fuel p = some q)
    (hn : ∀ x, x ≠ q → stop x = false → next' x = next x)
    (hs : ∀ x, x ≠ q → stop' x = stop x) (hq : q = null ∨ stop' q = true) :
    walk null next' stop' fuel p = some q := by
  obtain ⟨l,hlen,hseg,hl,hend⟩ := walk_eq_some.mp h
  have hne : ∀ x ∈ l, x ≠ q := by
    rintro x hx rfl
    rcases hend with hend | hend
    · exact (hl x hx).1 hend
    · simp [(hl x hx).2] at hend
  refine walk_eq_some.mpr ⟨l,hlen,?_,?_,hq⟩
  · exact hseg.congr (fun x hx => hn x (hne x hx) (hl x hx).2)
  · exact fun x hx => ⟨(hl x hx).1,(hs x (hne x hx)).trans (hl x hx).2⟩

theorem walk_eq_find (h : Linked null next p l) (hw : walk null next stop fuel p = some q) :
    q = (l.find? stop).getD null := by
  obtain ⟨l',hlen,hrest⟩ := walk_eq_some.mp hw
  have hmore : walk null next stop (fuel + l.length + 1) p = some q :=
    walk_eq_some.mpr ⟨l',by omega,hrest⟩
  rw [walk_linked h (by omega)] at hmore
  exact (Option.some.inj hmore).symm

/-- Where the scan stops, and what it passed on the way. -/
theorem scan_eq_some {b : Bool} (h : scan null next stop fuel p = some (q,b)) :
    ∃ l, Segment next p l q ∧ (∀ x ∈ l, stop x = false ∧ next x ≠ null) ∧ stop q = b ∧
      (b = false → next q = null) := by
  induction fuel generalizing p with
  | zero => simp [scan] at h
  | succ fuel ih =>
    unfold scan at h
    split at h
    · rename_i hs
      obtain ⟨rfl,rfl⟩ := Prod.mk.inj (Option.some.inj h)
      exact ⟨[],rfl,by simp,hs,by simp⟩
    split at h
    · rename_i hs hn
      obtain ⟨rfl,rfl⟩ := Prod.mk.inj (Option.some.inj h)
      exact ⟨[],rfl,by simp,by simpa using hs,fun _ => hn⟩
    · rename_i hs hn
      obtain ⟨l,hl,hpass,hrest⟩ := ih h
      refine ⟨p :: l,⟨rfl,hl⟩,?_,hrest⟩
      intro x hx
      rcases List.mem_cons.mp hx with rfl | hx
      · exact ⟨by simpa using hs,hn⟩
      · exact hpass x hx

/-- On a null-terminated list the scan ends, at the first match or at the last node. -/
theorem scan_linked (h : Linked null next p l) (hl : l ≠ []) (hf : l.length ≤ fuel) :
    scan null next stop fuel p =
      some (match l.find? stop with | some q => (q,true) | none => (l.getLast hl,false)) := by
  induction l generalizing p fuel with
  | nil => exact absurd rfl hl
  | cons x l ih =>
    obtain ⟨rfl,hx,hlink⟩ := linked_cons.mp h
    cases fuel with
    | zero => simp at hf
    | succ fuel =>
      unfold scan
      by_cases hs : stop p = true
      · simp [hs]
      · cases l with
        | nil =>
          have hend : next p = null := linked_nil.mp hlink
          simp [hs,hend]
        | cons y l =>
          have hn : next p ≠ null := by
            obtain ⟨hy,hy0,-⟩ := linked_cons.mp hlink
            rw [hy]
            exact hy0
          rw [if_neg hs,if_neg hn,ih hlink (by simp) (by simpa using hf)]
          simp [hs]

/-- More fuel does not change where the search stops. -/
theorem walk_mono {m : ℕ} (h : walk null next stop fuel p = some q) (hm : fuel ≤ m) :
    walk null next stop m p = some q := by
  obtain ⟨l,hlen,hrest⟩ := walk_eq_some.mp h
  exact walk_eq_some.mpr ⟨l,by omega,hrest⟩

theorem scan_mono {m : ℕ} {r : P × Bool} (h : scan null next stop fuel p = some r)
    (hm : fuel ≤ m) : scan null next stop m p = some r := by
  induction fuel generalizing p m with
  | zero => cases h
  | succ fuel ih =>
    obtain ⟨m,rfl⟩ : ∃ k, m = k + 1 := ⟨m - 1,by omega⟩
    unfold scan at h ⊢
    by_cases hstop : stop p = true
    · rw [if_pos hstop] at h ⊢
      exact h
    · rw [if_neg hstop] at h ⊢
      by_cases hn : next p = null
      · rw [if_pos hn] at h ⊢
        exact h
      · rw [if_neg hn] at h ⊢
        exact ih h (by omega)

end Search

end Lios

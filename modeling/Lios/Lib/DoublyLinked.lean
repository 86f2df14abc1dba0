import Mathlib.Data.List.Basic
import Mathlib.Data.List.Nodup
import Lios.Lib.LinkedList

/-! # Doubly linked lists

Back pointers of a null-terminated list, and the two ways in which a node changes
its place: from somewhere to the end, and from the end to the front. Both are
stated for the forward and the backward pointers separately, so that a list whose
back pointers are not to be trusted everywhere can still use the forward half.
-/
namespace Lios
variable {P : Type} [DecidableEq P]

/-- Where two maps agree apart from null pointers, they still do so when a pointer is written in
both. -/
theorem update_eq_or {f g : P → P} {Q : Prop} {n x v null : P} (h : n ≠ x → f n = g n ∨ f n = null ∧ Q) :
    Function.update f x v n = Function.update g x v n ∨ Function.update f x v n = null ∧ Q := by
  by_cases hn : n = x
  · rw [hn,Function.update_self,Function.update_self]
    exact .inl rfl
  · rw [Function.update_of_ne hn,Function.update_of_ne hn]
    exact h hn

/-- Every node points back to the node before it, the first to `p`. -/
def Backed (prev : P → P) : P → List P → Prop
  | _,[] => True
  | p,x :: l => prev x = p ∧ Backed prev x l

variable {next prev prev' : P → P} {p x b t null : P} {l l₁ l₂ : List P}

omit [DecidableEq P] in
@[simp] theorem backed_nil : Backed prev p [] := trivial

omit [DecidableEq P] in
@[simp] theorem backed_cons : Backed prev p (x :: l) ↔ prev x = p ∧ Backed prev x l := Iff.rfl

omit [DecidableEq P] in
theorem backed_append : Backed prev p (l₁ ++ l₂) ↔
    Backed prev p l₁ ∧ Backed prev (l₁.getLastD p) l₂ := by
  induction l₁ generalizing p with
  | nil => simp
  | cons x l₁ ih => rw [List.cons_append,backed_cons,backed_cons,ih,List.getLastD_cons,and_assoc]

omit [DecidableEq P] in
theorem Backed.congr (h : Backed prev p l) (he : ∀ x ∈ l, prev' x = prev x) :
    Backed prev' p l := by
  induction l generalizing p with
  | nil => trivial
  | cons x l ih =>
    refine ⟨?_,ih h.2 (fun y hy => he y (List.mem_cons_of_mem _ hy))⟩
    rw [he x List.mem_cons_self]
    exact h.1

omit [DecidableEq P] in
theorem getLastD_eq_of_getLast? (h : l.getLast? = some t) : l.getLastD p = t := by
  rw [List.getLastD_eq_getLast?,h,Option.getD_some]

/-- A node moves to the end: the node after it points back to the node before it. -/
theorem Backed.moveToEnd (h : Backed prev p (l₁ ++ x :: b :: l₂))
    (hnd : (l₁ ++ x :: b :: l₂).Nodup) (ht : (b :: l₂).getLast? = some t) :
    Backed (Function.update (Function.update prev b (prev x)) x t) p (l₁ ++ b :: l₂ ++ [x]) := by
  rw [backed_append,backed_cons,backed_cons] at h
  obtain ⟨h₁,hx,-,h₂⟩ := h
  obtain ⟨-,htail,hdisj⟩ := List.nodup_append.mp hnd
  obtain ⟨hxb,hb⟩ := List.nodup_cons.mp htail
  obtain ⟨hbl,-⟩ := List.nodup_cons.mp hb
  have hkeep (y : P) (hyx : y ≠ x) (hyb : y ≠ b) :
      Function.update (Function.update prev b (prev x)) x t y = prev y := by
    rw [Function.update_of_ne hyx,Function.update_of_ne hyb]
  have hbx : b ≠ x := fun he => hxb (he ▸ List.mem_cons_self)
  rw [backed_append,backed_append,backed_cons,backed_cons]
  refine ⟨⟨h₁.congr (fun y hy => ?_),?_,h₂.congr (fun y hy => ?_)⟩,?_,trivial⟩
  · refine hkeep y ?_ ?_
    · exact hdisj y hy x List.mem_cons_self
    · exact hdisj y hy b (List.mem_cons_of_mem _ List.mem_cons_self)
  · rw [Function.update_of_ne hbx,Function.update_self,hx]
  · refine hkeep y ?_ ?_
    · rintro rfl
      exact hxb (List.mem_cons_of_mem _ hy)
    · rintro rfl
      exact hbl hy
  · rw [Function.update_self]
    refine (getLastD_eq_of_getLast? ?_).symm
    rw [List.getLast?_append,ht]
    rfl

/-- The last node moves to the front. -/
theorem Backed.rotate (h : Backed prev null (b :: l ++ [x])) (hnd : (b :: l ++ [x]).Nodup) :
    Backed (Function.update (Function.update prev x null) b x) null (x :: b :: l) := by
  rw [List.cons_append,backed_cons,backed_append] at h
  obtain ⟨-,hl,-⟩ := h
  rw [List.cons_append,List.nodup_cons] at hnd
  obtain ⟨hb,hlx⟩ := hnd
  have hbx : x ≠ b := fun he => hb (he ▸ List.mem_append_right _ List.mem_cons_self)
  refine ⟨?_,Function.update_self _ _ _,hl.congr (fun y hy => ?_)⟩
  · rw [Function.update_of_ne hbx,Function.update_self]
  · have hyb : y ≠ b := by
      rintro rfl
      exact hb (List.mem_append_left _ hy)
    have hyx : y ≠ x := by
      rintro rfl
      exact List.disjoint_of_nodup_append hlx hy List.mem_cons_self
    rw [Function.update_of_ne hyb,Function.update_of_ne hyx]

omit [DecidableEq P] in
theorem exists_concat_of_getLast? (h : l.getLast? = some t) : ∃ l', l = l' ++ [t] := by
  rcases List.eq_nil_or_concat l with rfl | ⟨l',y,rfl⟩
  · cases h
  · rw [List.concat_eq_append,List.getLast?_concat] at h
    obtain rfl := Option.some.inj h
    exact ⟨l',List.concat_eq_append⟩

/-- A node is left out: the node before it, or the head, takes its link. -/
theorem Linked.unlink (h : Linked null next p (l₁ ++ x :: l₂)) {q : P}
    (hq : q = l₁.getLastD null) :
    Linked null (if q ≠ null then Function.update next q (next x) else next)
      (if q ≠ null then p else next x) (l₁ ++ l₂) := by
  obtain ⟨r,h₁,h₂⟩ := h.of_append
  obtain ⟨rfl,-,h₂⟩ := linked_cons.mp h₂
  rcases List.eq_nil_or_concat l₁ with rfl | ⟨l,a,rfl⟩
  · rw [if_neg (by simp [hq]),if_neg (by simp [hq])]
    exact h₂
  · rw [List.concat_eq_append] at h h₁ hq ⊢
    rw [List.getLastD_concat] at hq
    subst hq
    have hnd := h.nodup
    rw [List.append_assoc,List.nodup_append] at hnd
    have hne : q ≠ null := by
      rintro rfl
      exact h.2 (by simp)
    have hl : ∀ y ∈ l, y ≠ q := fun y hy => hnd.2.2 y hy q List.mem_cons_self
    have hq₂ : q ∉ l₂ := fun hm =>
      (List.nodup_cons.mp hnd.2.1).1 (List.mem_cons_of_mem _ hm)
    rw [if_pos hne,if_pos hne]
    obtain ⟨y,hs,rfl,-⟩ := segment_append.mp h₁
    refine ⟨segment_append.mpr ⟨next r,segment_append.mpr ⟨y,?_,rfl,?_⟩,?_⟩,?_⟩
    · exact hs.congr (fun z hz => Function.update_of_ne (hl z hz) _ _)
    · exact Function.update_self _ _ _
    · refine h₂.1.congr (fun z hz => Function.update_of_ne ?_ _ _)
      rintro rfl
      exact hq₂ hz
    · intro hm
      rcases List.mem_append.mp hm with hm | hm
      · exact h.2 (List.mem_append_left _ hm)
      · exact h₂.2 hm

/-- A node is linked behind the last one. -/
theorem Linked.snoc (h : Linked null next p l) (ht : l.getLast? = some t) (hx : x ∉ l)
    (hne : x ≠ null) :
    Linked null (Function.update (Function.update next x null) t x) p (l ++ [x]) := by
  obtain ⟨l,rfl⟩ := exists_concat_of_getLast? ht
  have hnd := h.nodup
  rw [List.append_assoc]
  have htx : x ≠ t := by
    rintro rfl
    exact hx (by simp)
  refine h.link (fun y hy => ?_) (Function.update_self _ _ _) ?_
  · have hyt : y ≠ t := fun he => List.disjoint_of_nodup_append hnd hy (he ▸ List.mem_cons_self)
    have hyx : y ≠ x := fun he => hx (he ▸ List.mem_append_left _ hy)
    rw [Function.update_of_ne hyt,Function.update_of_ne hyx]
  · refine linked_cons.mpr ⟨rfl,hne,linked_nil.mpr ?_⟩
    rw [Function.update_of_ne htx,Function.update_self]

/-- A node moves to the end: the node before it, or the head, takes its link. -/
theorem Linked.moveToEnd (h : Linked null next p (l₁ ++ x :: l₂)) {q : P}
    (hq : q = l₁.getLastD null) (ht : l₂.getLast? = some t) :
    Linked null (Function.update (Function.update
        (if q ≠ null then Function.update next q (next x) else next) x null) t x)
      (if q ≠ null then p else next x) (l₁ ++ l₂ ++ [x]) := by
  have hnd := h.nodup
  have hx : x ∉ l₁ ++ l₂ := List.nodup_cons.mp (List.nodup_middle.mp hnd) |>.1
  refine (h.unlink hq).snoc ?_ hx ?_
  · rw [List.getLast?_append,ht]
    rfl
  · rintro rfl
    exact h.2 (by simp)

/-- The last node moves to the front. -/
theorem Linked.rotate (h : Linked null next p (l ++ [t] ++ [x])) :
    Linked null (Function.update (Function.update next t null) x p) x (x :: (l ++ [t])) := by
  have hnd := h.nodup
  have hx : x ∉ l ++ [t] := fun hm => List.disjoint_of_nodup_append hnd hm List.mem_cons_self
  have hxt : x ≠ t := fun he => hx (by simp [he])
  obtain ⟨r,h₁,h₂⟩ := h.of_append
  obtain ⟨y,hs,rfl,-⟩ := segment_append.mp h₁
  obtain ⟨rfl,hne,-⟩ := linked_cons.mp h₂
  refine linked_cons.mpr ⟨rfl,hne,?_⟩
  rw [Function.update_self]
  refine ⟨segment_append.mpr ⟨y,hs.congr (fun z hz => ?_),rfl,?_⟩,?_⟩
  · have hzy : z ≠ y := by
      rintro rfl
      rw [List.append_assoc,List.nodup_append] at hnd
      exact hnd.2.2 z hz z List.mem_cons_self rfl
    have hzr : z ≠ r := fun he => hx (he ▸ List.mem_append_left _ hz)
    rw [Function.update_of_ne hzr,Function.update_of_ne hzy]
  · rw [Function.update_of_ne hxt.symm,Function.update_self]
    rfl
  · exact fun hm => h.2 (List.mem_append_left _ hm)

end Lios

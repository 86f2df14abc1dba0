import Mathlib.Data.List.Basic
import Mathlib.Data.List.Induction

/-! # Trees of tables in a pointer store

A table maps indices to child tables. The store is seen through its child
function; a path of indices leads from the root to at most one table. The store
is a tree down to a depth when no table of that depth is reached by two paths.
Linking a fresh empty table below an absent index adds one path and changes none.
-/
namespace Lios
variable {P I : Type}

/-- The table at the end of a path, outermost index first. -/
def follow (child : P → I → Option P) (root : P) (path : List I) : Option P :=
  path.foldlM child root

/-- Tables at most `d` levels below the root are reached by one path each. -/
def TreeTo (child : P → I → Option P) (root : P) (d : ℕ) : Prop :=
  ∀ p q t, p.length ≤ d → q.length ≤ d →
    follow child root p = some t → follow child root q = some t → p = q

/-- The tables at most `d` levels below the root. -/
def IsTable (child : P → I → Option P) (root : P) (d : ℕ) (t : P) : Prop :=
  ∃ p : List I, p.length ≤ d ∧ follow child root p = some t

section Follow
variable {child child' : P → I → Option P} {root f tbl : P} {d : ℕ} {path q : List I} {i j : I}

@[simp] theorem follow_nil : follow child root [] = some root := rfl

theorem follow_snoc : follow child root (q ++ [j]) =
    (follow child root q).bind (fun t => child t j) := by
  simp [follow,List.foldlM_append]

theorem follow_snoc_of_some {t : P} (h : follow child root q = some t) :
    follow child root (q ++ [j]) = child t j := by
  simp [follow_snoc,h]

theorem isTable_of_follow {t : P} (hq : q.length ≤ d) (h : follow child root q = some t) :
    IsTable child root d t := ⟨q,hq,h⟩

theorem follow_of_empty (h : ∀ i, child root i = none) {t : P}
    (ht : follow child root q = some t) : q = [] ∧ t = root := by
  cases q with
  | nil => exact ⟨rfl,(Option.some.inj ht).symm⟩
  | cons i q => simp [follow,h] at ht

theorem TreeTo.of_empty (h : ∀ i, child root i = none) : TreeTo child root d := by
  intro p q t _ _ hp hq
  rw [(follow_of_empty h hp).1,(follow_of_empty h hq).1]

/-- Child functions that agree on the tables above depth `d` lead to the same
tables down to depth `d`. -/
theorem follow_congr (hsame : ∀ p t j, p.length < d → follow child root p = some t →
      child' t j = child t j) (hq : q.length ≤ d) :
    follow child' root q = follow child root q := by
  induction q using List.reverseRecOn with
  | nil => rfl
  | append_singleton q j ih =>
    rw [List.length_append,List.length_singleton] at hq
    rw [follow_snoc,follow_snoc,ih (by omega)]
    cases ht : follow child root q with
    | none => rfl
    | some t => exact hsame q t j (by omega) ht

/-- With fewer entries a path leads to the same table or to none. -/
theorem follow_of_fewer (h : ∀ t i, child' t i = none ∨ child' t i = child t i) :
    follow child' root q = none ∨ follow child' root q = follow child root q := by
  induction q using List.reverseRecOn with
  | nil => exact .inr rfl
  | append_singleton q j ih =>
    rw [follow_snoc,follow_snoc]
    rcases ih with hq | hq
    · exact .inl (by rw [hq,Option.bind_none])
    · rw [hq]
      cases follow child root q with
      | none => exact .inr rfl
      | some t => exact h t j

/-- Linking the fresh table `f` at index `i` of the table at the end of `path`. -/
theorem follow_link (ht : TreeTo child root d) (hp : follow child root path = some tbl)
    (hlen : path.length < d) (habs : child tbl i = none) (hnew : child' tbl i = some f)
    (hempty : ∀ j, child' f j = none)
    (hsame : ∀ p t j, p.length < d → follow child root p = some t → ¬ (t = tbl ∧ j = i) →
      child' t j = child t j)
    (hq : q.length ≤ d) [DecidableEq I] :
    follow child' root q = if q = path ++ [i] then some f else follow child root q := by
  induction q using List.reverseRecOn with
  | nil => simp
  | append_singleton q j ih =>
    rw [List.length_append,List.length_singleton] at hq
    rw [follow_snoc,ih (by omega)]
    by_cases hqp : q = path ++ [i]
    · have hlong : q ++ [j] ≠ path ++ [i] := by
        intro h
        have := congrArg List.length h
        simp [hqp] at this
      have hnone : follow child root q = none := by
        rw [hqp,follow_snoc_of_some hp,habs]
      rw [if_pos hqp,if_neg hlong,follow_snoc,hnone]
      exact hempty j
    · rw [if_neg hqp,follow_snoc]
      cases hfq : follow child root q with
      | none =>
        have hne : q ++ [j] ≠ path ++ [i] := by
          intro h
          obtain ⟨rfl,-⟩ := List.append_inj' h rfl
          simp [hp] at hfq
        simp [hne]
      | some t =>
        by_cases hti : t = tbl ∧ j = i
        · obtain ⟨rfl,rfl⟩ := hti
          obtain rfl := ht q path t (by omega) (by omega) hfq hp
          simp [hnew]
        · have hne : q ++ [j] ≠ path ++ [i] := by
            intro h
            obtain ⟨rfl,hji⟩ := List.append_inj' h rfl
            rw [hp] at hfq
            exact hti ⟨(Option.some.inj hfq).symm,by simpa using hji⟩
          rw [if_neg hne]
          exact hsame q t j (by omega) hfq hti

/-- A store whose tables are those of a tree and one fresh table is a tree. -/
theorem TreeTo.link [DecidableEq I] (ht : TreeTo child root d) (hfresh : ¬ IsTable child root d f)
    (hfollow : ∀ q : List I, q.length ≤ d →
      follow child' root q = if q = path ++ [i] then some f else follow child root q) :
    TreeTo child' root d := by
  intro p q t hp hq hfp hfq
  rw [hfollow p hp] at hfp
  rw [hfollow q hq] at hfq
  split at hfp <;> split at hfq
  · simp [*]
  · cases hfp
    exact absurd (isTable_of_follow hq hfq) hfresh
  · cases hfq
    exact absurd (isTable_of_follow hp hfp) hfresh
  · exact ht p q t hp hq hfp hfq

/-- A store in which no table above depth `d` has the root as a child, and no two entries of
such tables have the same child, is a tree. -/
theorem TreeTo.of_injective
    (hroot : ∀ p t i, p.length < d → follow child root p = some t → child t i ≠ some root)
    (hinj : ∀ p q t u i j v, p.length < d → q.length < d → follow child root p = some t →
      follow child root q = some u → child t i = some v → child u j = some v → t = u ∧ i = j) :
    TreeTo child root d := by
  intro p
  induction p using List.reverseRecOn with
  | nil =>
    intro q v _ hq hp hfq
    obtain rfl := Option.some.inj hp
    cases q using List.reverseRecOn with
    | nil => rfl
    | append_singleton q j =>
      rw [List.length_append,List.length_singleton] at hq
      obtain ⟨u,hu,huj⟩ := Option.bind_eq_some_iff.mp (follow_snoc ▸ hfq)
      exact absurd huj (hroot q u j (by omega) hu)
  | append_singleton p i ih =>
    intro q v hp hq hfp hfq
    rw [List.length_append,List.length_singleton] at hp
    obtain ⟨t,ht,hti⟩ := Option.bind_eq_some_iff.mp (follow_snoc ▸ hfp)
    cases q using List.reverseRecOn with
    | nil =>
      obtain rfl := Option.some.inj hfq
      exact absurd hti (hroot p t i (by omega) ht)
    | append_singleton q j =>
      rw [List.length_append,List.length_singleton] at hq
      obtain ⟨u,hu,huj⟩ := Option.bind_eq_some_iff.mp (follow_snoc ▸ hfq)
      obtain ⟨rfl,rfl⟩ := hinj p q t u i j v (by omega) (by omega) ht hu hti huj
      rw [ih q t (by omega) (by omega) ht hu]

/-- In a tree every table below the root is the target of one entry. -/
theorem TreeTo.existsUnique_entry {t : P} (ht : TreeTo child root (d + 1)) (hne : q ≠ [])
    (hq : q.length ≤ d + 1) (h : follow child root q = some t) :
    ∃! e : P × I, IsTable child root d e.1 ∧ child e.1 e.2 = some t := by
  obtain ⟨q,j,rfl⟩ : ∃ p j, q = p ++ [j] := ⟨_,_,(List.dropLast_append_getLast hne).symm⟩
  rw [List.length_append,List.length_singleton] at hq
  rw [follow_snoc] at h
  obtain ⟨u,hu,huj⟩ := Option.bind_eq_some_iff.mp h
  refine ⟨(u,j),⟨⟨q,by omega,hu⟩,huj⟩,?_⟩
  rintro ⟨u',j'⟩ ⟨⟨q',hq',hu'⟩,huj'⟩
  have hpath : q' ++ [j'] = q ++ [j] := by
    refine ht _ _ t ?_ ?_ ((follow_snoc_of_some hu').trans huj') ((follow_snoc_of_some hu).trans huj)
    · simpa using hq'
    · simpa using hq
  obtain ⟨rfl,hj⟩ := List.append_inj' hpath rfl
  obtain rfl : j' = j := by simpa using hj
  rw [hu] at hu'
  exact Prod.ext (Option.some.inj hu').symm rfl

end Follow

end Lios

import Mathlib
/-!
# MergeRun — merging streams one head at a time

A merge of any number of streams takes the head of one of them at a time, never one that another head comes before.
`Run` is such a merge, with the trace of what was taken from which stream; how the next stream is found (by comparing two
or three heads, or with a priority queue) is left open.
-/
namespace Manticore
namespace MergeRun
open List

variable {α : Type}

/-- `Run le s t s'`: the entries of `t`, each with the number of its stream, are taken from the streams `s`, and `s'` is
left. -/
inductive Run (le : Nat × α → Nat × α → Prop) : List (List α) → List (Nat × α) → List (List α) → Prop
  | nil (s : List (List α)) : Run le s [] s
  | cons {s s' : List (List α)} {t : List (Nat × α)} {i : Nat} {x : α} {xs : List α} (head : s[i]? = some (x :: xs))
      (least : ∀ j y ys, j ≠ i → s[j]? = some (y :: ys) → le (i, x) (j, y)) (tail : Run le (s.set i xs) t s') :
      Run le s ((i, x) :: t) s'

/-- The entries of the streams, each with the number of its stream; the first stream has number `k`. -/
def tagged : Nat → List (List α) → List (Nat × α)
  | _, [] => []
  | k, xs :: s => xs.map (fun x => (k, x)) ++ tagged (k + 1) s

theorem mem_tagged {e : Nat × α} : ∀ {s : List (List α)} {k : Nat},
    e ∈ tagged k s ↔ ∃ i xs, s[i]? = some xs ∧ e.1 = k + i ∧ e.2 ∈ xs
  | [], k => by simp [tagged]
  | xs :: s, k => by
    rw [tagged, List.mem_append, mem_tagged (s := s)]
    constructor
    · rintro (h | ⟨i, ys, hi, h1, h2⟩)
      · obtain ⟨x, hx, rfl⟩ := mem_map.mp h
        exact ⟨0, xs, rfl, rfl, hx⟩
      · exact ⟨i + 1, ys, hi, by omega, h2⟩
    · rintro ⟨i, ys, hi, h1, h2⟩
      cases i with
      | zero =>
        cases hi
        exact .inl (mem_map.mpr ⟨e.2, h2, Prod.ext h1.symm rfl⟩)
      | succ i => exact .inr ⟨i, ys, hi, by omega, h2⟩

variable {x : α} {xs : List α}

theorem tagged_set : ∀ {s : List (List α)} {i k : Nat}, s[i]? = some (x :: xs) →
    (tagged k s).Perm ((k + i, x) :: tagged k (s.set i xs))
  | [], i, k, h => by simp at h
  | ys :: s, 0, k, h => by
    cases h
    exact List.Perm.refl _
  | ys :: s, i + 1, k, h => by
    have ih := tagged_set (s := s) (k := k + 1) (i := i) h
    rw [add_right_comm] at ih
    exact (ih.append_left _).trans perm_middle

theorem length_tagged : ∀ (s : List (List α)) (k : Nat), (tagged k s).length = (s.map List.length).sum
  | [], _ => rfl
  | xs :: s, k => by
    rw [tagged, length_append, length_map, length_tagged s, map_cons, sum_cons]

theorem tagged_eq_nil {s : List (List α)} (h : ∀ xs ∈ s, xs = []) (k : Nat) : tagged k s = [] := by
  induction s generalizing k with
  | nil => rfl
  | cons xs s ih =>
    rw [tagged, h xs mem_cons_self, ih (forall_mem_cons.mp h).2]
    rfl

section Trace
variable {le : Nat × α → Nat × α → Prop} {s s' s'' : List (List α)} {t t' : List (Nat × α)}

theorem Run.append (h : Run le s t s') (h' : Run le s' t' s'') : Run le s (t ++ t') s'' := by
  induction h with
  | nil => exact h'
  | cons head least _ ih => exact .cons head least (ih h')

/-- **The trace and what is left are the streams.** -/
theorem Run.perm (h : Run le s t s') : (tagged 0 s).Perm (t ++ tagged 0 s') := by
  induction h with
  | nil => exact List.Perm.refl _
  | cons head _ _ ih =>
    have := tagged_set (k := 0) head
    rw [zero_add] at this
    exact this.trans (ih.cons _)

/-- Streams whose entries come in order. -/
def Ordered (le : Nat × α → Nat × α → Prop) (s : List (List α)) : Prop :=
  ∀ (i : Nat) (xs : List α), s[i]? = some xs → xs.Pairwise fun x y => le (i, x) (i, y)

theorem Ordered.set {i : Nat} (h : Ordered le s) (head : s[i]? = some (x :: xs)) :
    Ordered le (s.set i xs) := by
  intro j ys hj
  by_cases hij : i = j
  · subst hij
    rw [getElem?_set_self (List.getElem?_eq_some_iff.mp head).1] at hj
    cases hj
    exact (pairwise_cons.mp (h i _ head)).2
  · rw [getElem?_set_ne hij] at hj
    exact h j ys hj

/-- The head taken comes before everything that is left. -/
theorem head_le (htrans : ∀ a b c, le a b → le b c → le a c) (ho : Ordered le s) {i : Nat}
    (head : s[i]? = some (x :: xs)) (least : ∀ j y ys, j ≠ i → s[j]? = some (y :: ys) → le (i, x) (j, y)) {e : Nat × α}
    (he : e ∈ tagged 0 (s.set i xs)) : le (i, x) e := by
  obtain ⟨j, y⟩ := e
  obtain ⟨j', ys, hj, h1, h2⟩ := mem_tagged.mp he
  rw [zero_add] at h1
  cases h1
  by_cases hij : i = j
  · subst hij
    rw [getElem?_set_self (List.getElem?_eq_some_iff.mp head).1] at hj
    cases hj
    exact (pairwise_cons.mp (ho i _ head)).1 y h2
  · rw [getElem?_set_ne hij] at hj
    cases ys with
    | nil => cases h2
    | cons z zs =>
      have hz := least j z zs (Ne.symm hij) hj
      rcases mem_cons.mp h2 with rfl | h2
      · exact hz
      · exact htrans _ _ _ hz ((pairwise_cons.mp (ho j _ hj)).1 y h2)

/-- **The trace of ordered streams is in order, and comes before what is left.** -/
theorem Run.ordered (htrans : ∀ a b c, le a b → le b c → le a c) (h : Run le s t s') (ho : Ordered le s) :
    t.Pairwise le ∧ (∀ e ∈ t, ∀ e' ∈ tagged 0 s', le e e') ∧ Ordered le s' := by
  induction h with
  | nil => exact ⟨List.Pairwise.nil, forall_mem_nil _, ho⟩
  | @cons s s' t i x xs head least tail ih =>
    obtain ⟨hpair, hrest, hleft⟩ := ih (ho.set head)
    have hall : ∀ e ∈ t ++ tagged 0 s', le (i, x) e := fun e he =>
      head_le htrans ho head least (tail.perm.mem_iff.mpr he)
    refine ⟨pairwise_cons.mpr ⟨(forall_mem_append.mp hall).1, hpair⟩, fun e he e' he' => ?_, hleft⟩
    rcases mem_cons.mp he with rfl | he
    · exact hall e' (mem_append_right _ he')
    · exact hrest e he e' he'

/-- The rest of a stream is taken as it is when the others are empty. -/
theorem Run.copy : ∀ {xs : List α} {s : List (List α)} {i : Nat}, s[i]? = some xs →
    (xs ≠ [] → ∀ (j : Nat) (ys : List α), j ≠ i → s[j]? = some ys → ys = []) → Run le s (xs.map fun x => (i, x)) (s.set i [])
  | [], s, i, h, _ => by
    obtain ⟨hi, hget⟩ := List.getElem?_eq_some_iff.mp h
    have hset := set_getElem_self hi
    rw [hget] at hset
    rw [hset]
    exact .nil _
  | x :: xs, s, i, h, hothers => by
    have hi := (List.getElem?_eq_some_iff.mp h).1
    refine .cons h (fun j y ys hj hy => ?_) ?_
    · cases hothers (cons_ne_nil _ _) j _ hj hy
    · have := Run.copy (s := s.set i xs) (getElem?_set_self hi) fun _ j ys hj hy => by
        rw [getElem?_set_ne (Ne.symm hj)] at hy
        exact hothers (cons_ne_nil _ _) j ys hj hy
      rwa [set_set] at this

end Trace

end MergeRun
end Manticore

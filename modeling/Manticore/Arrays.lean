import Mathlib
/-!
# Arrays — lists used as arrays: single places, parts and `CSphVector::RemoveFast`

`RemoveFast` puts the last element in the place of the removed one.  A loop over the indices that removes elements as it goes
steps back after a removal, so that the element moved in is visited too.
-/
namespace Manticore
namespace Arrays
open List

variable {α β : Type}

theorem getD_set {l : List α} {i : Nat} (hi : i < l.length) (x d : α) (k : Nat) :
    (l.set i x).getD k d = if k = i then x else l.getD k d := by
  rw [getD_eq_getElem?_getD, getD_eq_getElem?_getD]
  by_cases hk : k = i
  · rw [if_pos hk, hk, getElem?_set_self hi, Option.getD_some]
  · rw [if_neg hk, getElem?_set_ne (Ne.symm hk)]

theorem getD_lt_getD {l : List Nat} (hl : l.Pairwise (· < ·)) {i j : Nat} (hij : i < j) (hj : j < l.length) :
    l.getD i 0 < l.getD j 0 := by
  rw [getD_eq_getElem l 0 (lt_trans hij hj), getD_eq_getElem l 0 hj]
  exact pairwise_iff_getElem.mp hl i j (lt_trans hij hj) hj hij

theorem map_getD_range (l : List α) (d : α) : (List.range l.length).map (fun i => l.getD i d) = l := by
  refine ext_getElem (by simp) fun i _ hi => ?_
  rw [getElem_map, getElem_range, getD_eq_getElem _ _ hi]

theorem exists_of_forall₂ {R : α → β → Prop} {l : List α} {u : List β} (h : Forall₂ R l u) : ∀ a ∈ l, ∃ b ∈ u, R a b := by
  intro a ha
  obtain ⟨⟨i, hi⟩, rfl⟩ := mem_iff_get.mp ha
  exact ⟨_, get_mem .., h.get hi (h.length_eq ▸ hi)⟩

/-- `n` elements from `p` on. -/
def slice (l : List α) (p n : Nat) : List α := (l.drop p).take n

theorem getD_swap {l : List α} {i j : Nat} (hi : i < l.length) (hj : j < l.length) (k : Nat) (d : α) :
    (l.swap i j).getD k d = if k = j then l.getD i d else if k = i then l.getD j d else l.getD k d := by
  rw [swap_eq_of_lt hi hj, getD_set (by rwa [length_set]), getD_set hi, getD_eq_getElem _ _ hi, getD_eq_getElem _ _ hj]

def removeFast (l : List α) (i : Nat) : List α :=
  match l.getLast? with
  | none => []
  | some x => (l.set i x).dropLast

/-- A loop over an array: the body changes the element or removes it. -/
def visitFast (f : α → Option α) : Nat → Nat → List α → List α
  | 0, _, l => l
  | n + 1, i, l =>
    match l[i]? with
    | none => l
    | some x =>
      match f x with
      | some y => visitFast f n (i + 1) (l.set i y)
      | none => visitFast f n i (removeFast l i)

def visitAll (f : α → Option α) (l : List α) : List α := visitFast f l.length 0 l

theorem removeFast_concat (a b : List α) (x y : α) : removeFast (a ++ x :: (b ++ [y])) a.length = a ++ y :: b := by
  have hlast : (a ++ x :: (b ++ [y])).getLast? = some y := by
    rw [← cons_append, ← append_assoc, getLast?_concat]
  rw [removeFast, hlast]
  dsimp only
  rw [set_append_right _ _ (le_refl _), Nat.sub_self, set_cons_zero, ← cons_append, ← append_assoc,
    dropLast_concat]

/-- What stands before the place stays, and the rest is one element shorter. -/
theorem removeFast_append (a b : List α) (x : α) : ∃ b', removeFast (a ++ x :: b) a.length = a ++ b' ∧ b'.Perm b := by
  rcases eq_nil_or_concat' b with rfl | ⟨b, y, rfl⟩
  · refine ⟨[], ?_, .refl _⟩
    rw [removeFast, getLast?_concat]
    dsimp only
    rw [set_append_right _ _ (le_refl _), Nat.sub_self, set_cons_zero, append_nil, dropLast_concat]
  · exact ⟨y :: b, removeFast_concat a b x y, (perm_append_singleton y b).symm⟩

theorem getElem?_visited (visited rest : List α) (x : α) : (visited ++ x :: rest)[visited.length]? = some x := by
  rw [getElem?_append_right (le_refl _), Nat.sub_self]
  rfl

theorem set_visited (visited rest : List α) (x y : α) :
    (visited ++ x :: rest).set visited.length y = (visited ++ [y]) ++ rest := by
  rw [set_append_right _ _ (le_refl _), Nat.sub_self, set_cons_zero, append_assoc]
  rfl

/-- The elements in the order in which the loop meets them. -/
def metFast (f : α → Option α) : Nat → Nat → List α → List α
  | 0, _, _ => []
  | n + 1, i, l =>
    match l[i]? with
    | none => []
    | some x =>
      match f x with
      | some y => x :: metFast f n (i + 1) (l.set i y)
      | none => x :: metFast f n i (removeFast l i)

/-- From index `i` on; the elements before it have been visited. -/
theorem fast_perm (f : α → Option α) : ∀ (n : Nat) (visited rest : List α), n = rest.length →
    (visitFast f n visited.length (visited ++ rest)).Perm (visited ++ rest.filterMap f) ∧
      (metFast f n visited.length (visited ++ rest)).Perm rest
  | 0, visited, rest, hn => by
    rw [length_eq_zero_iff.mp hn.symm]
    exact ⟨.refl _, .refl _⟩
  | n + 1, visited, [], hn => absurd hn (Nat.succ_ne_zero n)
  | n + 1, visited, x :: rest, hn => by
    have hlen : n = rest.length := Nat.succ.inj hn
    rw [visitFast, metFast, getElem?_visited]
    dsimp only
    cases hf : f x with
    | some y =>
      have ih := fast_perm f n (visited ++ [y]) rest hlen
      rw [length_append, length_singleton, append_assoc visited _ (filterMap f rest)] at ih
      dsimp only
      rw [set_visited, filterMap_cons_some hf]
      exact ⟨ih.1, ih.2.cons x⟩
    | none =>
      obtain ⟨rest', hrem, hperm⟩ := removeFast_append visited rest x
      have ih := fast_perm f n visited rest' (hlen.trans hperm.length_eq.symm)
      rw [hrem, filterMap_cons_none hf]
      exact ⟨ih.1.trans ((hperm.filterMap f).append_left _), (ih.2.trans hperm).cons x⟩

/-- **A loop with removals changes every element once.** -/
theorem visitAll_perm (f : α → Option α) (l : List α) : (visitAll f l).Perm (l.filterMap f) :=
  (fast_perm f l.length [] l rfl).1

/-- A loop that only removes elements at the end keeps the order. -/
theorem visitFast_filterMap {f : α → Option α} : ∀ (n : Nat) (visited rest : List α), n = rest.length →
    rest.Pairwise (fun x y => f x = none → f y = none) →
    visitFast f n visited.length (visited ++ rest) = visited ++ rest.filterMap f
  | 0, visited, rest, hn, _ => by
    rw [length_eq_zero_iff.mp hn.symm]
    rfl
  | n + 1, visited, [], hn, _ => absurd hn (Nat.succ_ne_zero n)
  | n + 1, visited, x :: rest, hn, hend => by
    obtain ⟨hx, hrest⟩ := pairwise_cons.mp hend
    have hlen : n = rest.length := Nat.succ.inj hn
    rw [visitFast, getElem?_visited]
    dsimp only
    cases hf : f x with
    | some y =>
      have ih := visitFast_filterMap n (visited ++ [y]) rest hlen hrest
      rw [length_append, length_singleton] at ih
      dsimp only
      rw [set_visited, ih, append_assoc, filterMap_cons_some hf]
      rfl
    | none =>
      -- all that follow are removed too, in whatever order
      obtain ⟨rest', hrem, hperm⟩ := removeFast_append visited rest x
      have hnone : ∀ y ∈ rest', f y = none := fun y hy => hx y (hperm.subset hy) hf
      have ih := visitFast_filterMap n visited rest' (hlen.trans hperm.length_eq.symm)
        (pairwise_of_forall_mem_list (fun y _ z hz _ => hnone z hz))
      rw [filterMap_eq_nil_iff.mpr hnone] at ih
      rw [hrem, filterMap_cons_none hf, filterMap_eq_nil_iff.mpr (fun y hy => hx y hy hf)]
      exact ih

theorem visitAll_filterMap {f : α → Option α} {l : List α} (hend : l.Pairwise (fun x y => f x = none → f y = none)) :
    visitAll f l = l.filterMap f :=
  visitFast_filterMap l.length [] l rfl hend

end Arrays
end Manticore

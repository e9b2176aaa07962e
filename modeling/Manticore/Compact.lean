import Mathlib
/-!
# Compact — moving the elements to keep to the front of an array, in place

A loop walks the array; the next free place is never after the place it reads.  What it keeps is copied or swapped there,
possibly changed on the way, and the tail is cut off at the end.
-/
namespace Manticore
namespace Compact
open List

variable {α : Type} {kept rest a : List α} {i : Nat} {x : α}

def copyTo (dst src : Nat) (a : List α) : List α :=
  match a[src]? with
  | some x => a.set dst x
  | none => a

def swapTo (dst src : Nat) (a : List α) : List α := a.swap dst src

/-- The array after `i` elements: what was kept, a gap of leftovers, and the rest as it was. -/
def Walked (kept : List α) (i : Nat) (rest a : List α) : Prop :=
  ∃ gap, a = kept ++ (gap ++ rest) ∧ kept.length + gap.length = i

theorem Walked.start (a : List α) : Walked [] 0 a a := ⟨[], rfl, rfl⟩

section
variable (h : Walked kept i (x :: rest) a) {β : Type} {move : Nat → Nat → List α → List α}

include h

theorem Walked.get : a[i]? = some x := by
  obtain ⟨gap, rfl, rfl⟩ := h
  rw [← append_assoc, ← length_append, getElem?_append_right (le_refl _), Nat.sub_self]
  rfl

theorem Walked.skip : Walked kept (i + 1) rest a := by
  obtain ⟨gap, rfl, rfl⟩ := h
  refine ⟨gap ++ [x], ?_, ?_⟩
  · rw [append_assoc]
    rfl
  · rw [length_append, length_singleton, add_assoc]

theorem Walked.put (y : α) : Walked (kept ++ [y]) (i + 1) rest (a.set kept.length y) := by
  obtain ⟨gap, rfl, rfl⟩ := h
  have hset : ∀ l : List α, (kept ++ l).set kept.length y = kept ++ l.set 0 y := by
    intro l
    rw [set_append_right _ _ (le_refl _), Nat.sub_self]
  cases gap with
  | nil =>
    refine ⟨[], ?_, ?_⟩
    · rw [hset, append_assoc]
      rfl
    · rw [length_append]
      rfl
  | cons g gap =>
    refine ⟨gap ++ [x], ?_, ?_⟩
    · rw [hset, append_assoc, append_assoc]
      rfl
    · simp only [length_append, length_cons, length_nil]
      omega

theorem Walked.stay (hi : i = kept.length) : Walked (kept ++ [x]) (i + 1) rest a := by
  have hput := h.put x
  obtain ⟨hlt, hget⟩ := List.getElem?_eq_some_iff.mp h.get
  subst hi
  rw [← hget, set_getElem_self, hget] at hput
  exact hput

theorem Walked.copyTo : Walked (kept ++ [x]) (i + 1) rest (copyTo kept.length i a) := by
  rw [Compact.copyTo, h.get]
  exact h.put x

theorem Walked.swapTo (hi : i ≠ kept.length) : Walked (kept ++ [x]) (i + 1) rest (swapTo kept.length i a) := by
  obtain ⟨gap, rfl, rfl⟩ := h
  cases gap with
  | nil => exact absurd rfl hi
  | cons g gap =>
    refine ⟨gap ++ [g], ?_, ?_⟩
    · rw [Compact.swapTo, swap_eq_of_lt (by simp) (by simp)]
      simp [set_append_right]
    · simp only [length_append, length_cons, length_nil]
      omega

end

theorem Walked.take (h : Walked kept i rest a) : a.take kept.length = kept := by
  obtain ⟨gap, rfl, -⟩ := h
  exact take_left

/-- The elements that a map of places keeps. -/
def keptBy {β : Type} : List (Option β) → List α → List α
  | some _ :: m, x :: l => x :: keptBy m l
  | none :: m, _ :: l => keptBy m l
  | _, _ => []

theorem keptBy_nil (m : List (Option β)) : keptBy m ([] : List α) = [] := by
  cases m with
  | nil => rfl
  | cons x m =>
    cases x with
    | none => rfl
    | some y => rfl

theorem keptBy_map {γ : Type} (f : α → γ) : ∀ (m : List (Option β)) (l : List α), keptBy m (l.map f) = (keptBy m l).map f
  | [], _ => rfl
  | m, [] => by rw [map_nil, keptBy_nil, keptBy_nil, map_nil]
  | some _ :: m, x :: l => congrArg (f x :: ·) (keptBy_map f m l)
  | none :: m, _ :: l => keptBy_map f m l

theorem length_keptBy : ∀ (m : List (Option β)) (l : List α), m.length = l.length →
    (keptBy m l).length = m.countP Option.isSome
  | [], l, _ => by
    cases l with
    | nil => rfl
    | cons x l => rfl
  | none :: _, [], h => absurd h (Nat.succ_ne_zero _)
  | some _ :: _, [], h => absurd h (Nat.succ_ne_zero _)
  | none :: m, _ :: l, h => by
    rw [countP_cons_of_neg Bool.false_ne_true]
    exact length_keptBy m l (Nat.succ.inj h)
  | some _ :: m, _ :: l, h => by
    rw [countP_cons_of_pos rfl]
    exact congrArg (· + 1) (length_keptBy m l (Nat.succ.inj h))

theorem keptBy_all : ∀ {m : List (Option β)} {l : List α}, (∀ x ∈ m, x.isSome = true) → m.length = l.length →
    keptBy m l = l
  | [], l, _, h => by
    rw [eq_nil_of_length_eq_zero h.symm]
    rfl
  | none :: _, _, hm, _ => absurd (hm none mem_cons_self) Bool.false_ne_true
  | some _ :: _, [], _, h => absurd h (Nat.succ_ne_zero _)
  | some _ :: m, x :: l, hm, h =>
    congrArg (x :: ·) (keptBy_all (forall_mem_cons.mp hm).2 (Nat.succ.inj h))

/-- The loop over the map; `move` brings an element to the free place. -/
def walk {β : Type} (move : Nat → Nat → List α → List α) : List (Option β) → Nat → Nat → List α → List α
  | [], _, _, a => a
  | none :: m, i, dst, a => walk move m (i + 1) dst a
  | some _ :: m, i, dst, a => walk move m (i + 1) (dst + 1) (if i ≠ dst then move dst i a else a)

/-- **The whole loop keeps what the map keeps**, whichever way the elements are moved. -/
theorem Walked.walk (hmove : ∀ {kept rest a : List α} {i : Nat} {x : α}, Walked kept i (x :: rest) a → i ≠ kept.length →
      Walked (kept ++ [x]) (i + 1) rest (move kept.length i a)) :
    ∀ (m : List (Option β)) {kept rest a : List α} {i : Nat}, Walked kept i rest a → m.length = rest.length →
      Walked (kept ++ keptBy m rest) (i + m.length) [] (walk move m i kept.length a)
  | [], kept, rest, a, i, h, hlen => by
    have hrest : rest = [] := eq_nil_of_length_eq_zero hlen.symm
    have hkept : keptBy ([] : List (Option β)) rest = [] := by rw [hrest]; rfl
    rw [hkept, append_nil]
    rw [hrest] at h
    exact h
  | none :: _, _, [], _, _, _, hlen => absurd hlen (Nat.succ_ne_zero _)
  | some _ :: _, _, [], _, _, _, hlen => absurd hlen (Nat.succ_ne_zero _)
  | none :: m, kept, x :: rest, a, i, h, hlen => by
    rw [length_cons, ← add_assoc, add_right_comm]
    exact Walked.walk hmove m h.skip (Nat.succ.inj hlen)
  | some _ :: m, kept, x :: rest, a, i, h, hlen => by
    have hnext : Walked (kept ++ [x]) (i + 1) rest (if i ≠ kept.length then move kept.length i a else a) := by
      split
      · exact hmove h ‹_›
      · exact h.stay (not_not.mp ‹_›)
    have ih := Walked.walk hmove m hnext (Nat.succ.inj hlen)
    rw [length_append, length_singleton, append_assoc] at ih
    rw [length_cons, ← add_assoc, add_right_comm]
    exact ih

theorem take_walk (hmove : ∀ {kept rest a : List α} {i : Nat} {x : α}, Walked kept i (x :: rest) a → i ≠ kept.length →
      Walked (kept ++ [x]) (i + 1) rest (move kept.length i a))
    {m : List (Option β)} (hlen : m.length = a.length) :
    (walk move m 0 0 a).take (m.countP Option.isSome) = keptBy m a := by
  have h := (Walked.walk hmove m (Walked.start a) hlen).take
  rw [nil_append, length_keptBy m a hlen] at h
  exact h

end Compact
end Manticore

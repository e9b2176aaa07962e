import Manticore.Arrays
/-!
# Queue — the bounded priority queue (`CSphQueue`)

A binary heap in an array of a fixed size.  The comparison is a parameter; it may be strict or not: all that is asked of
`isLess` is that it agrees with a preorder, `isLess x y` giving `le x y` and its failure `le y x`.
-/
namespace Manticore
open List

/-- `CSphQueue`: the used part of `m_pData`, and `m_iSize`. -/
structure Queue (α : Type) where
  size : Nat
  data : List α := []

namespace Queue
open Arrays (getD_swap)

variable {α : Type} [Inhabited α]

def parent (i : Nat) : Nat := (i - 1) / 2

/-- "shift up if needed" -/
def shiftUp (isLess : α → α → Bool) : Nat → List α → Nat → List α
  | 0, l, _ => l
  | fuel + 1, l, i =>
    if i = 0 then l
    else if !isLess (l.getD i default) (l.getD (parent i) default) then l
    else shiftUp isLess fuel (l.swap i (parent i)) (parent i)

/-- "select smallest child" -/
def smallestChild (isLess : α → α → Bool) (l : List α) (i : Nat) : Nat :=
  if 2 * i + 2 < l.length ∧ isLess (l.getD (2 * i + 2) default) (l.getD (2 * i + 1) default) then 2 * i + 2 else 2 * i + 1

/-- "shift down if needed" -/
def shiftDown (isLess : α → α → Bool) : Nat → List α → Nat → List α
  | 0, l, _ => l
  | fuel + 1, l, i =>
    if l.length ≤ 2 * i + 1 then l
    else if isLess (l.getD (smallestChild isLess l i) default) (l.getD i default) then
      shiftDown isLess fuel (l.swap (smallestChild isLess l i) i) (smallestChild isLess l i)
    else l

def pop (isLess : α → α → Bool) (q : Queue α) : Queue α :=
  let rest := (q.data.set 0 (q.data.getD (q.data.length - 1) default)).dropLast
  { q with data := shiftDown isLess rest.length rest 0 }

def push (isLess : α → α → Bool) (q : Queue α) (x : α) : Queue α × Bool :=
  if q.data.length = q.size ∧ isLess x (q.data.getD 0 default) then (q, false)
  else
    let q := if q.data.length = q.size then q.pop isLess else q
    ({ q with data := shiftUp isLess (q.data.length + 1) (q.data ++ [x]) q.data.length }, true)

def root (q : Queue α) : α := q.data.getD 0 default

/-! ## The array -/

variable {l : List α} {i j : Nat}

theorem parent_lt (hi : 0 < i) : parent i < i := by
  unfold parent
  omega

theorem eq_child (hj : 0 < j) (hp : parent j = i) : j = 2 * i + 1 ∨ j = 2 * i + 2 := by
  unfold parent at hp
  omega

/-- Every entry is at or after its parent. -/
def Heap (le : α → α → Prop) (l : List α) : Prop :=
  ∀ j, 0 < j → j < l.length → le (l.getD (parent j) default) (l.getD j default)

theorem Heap.congr {le le' : α → α → Prop} (h : Heap le l) (hle : ∀ x ∈ l, ∀ y ∈ l, le x y → le' x y) : Heap le' l := by
  intro j hj hjl
  have hmem : ∀ i, i < l.length → l.getD i default ∈ l := fun i hi => by
    rw [getD_eq_getElem _ _ hi]
    exact getElem_mem hi
  exact hle _ (hmem _ (lt_trans (parent_lt hj) hjl)) _ (hmem j hjl) (h j hj hjl)

/-- What the shift up needs: only the entry `i` may come before its parent. -/
structure UpReady (le : α → α → Prop) (l : List α) (i : Nat) : Prop where
  bound : i < l.length
  others : ∀ j, 0 < j → j < l.length → j ≠ i → le (l.getD (parent j) default) (l.getD j default)
  grand : 0 < i → ∀ j, 0 < j → j < l.length → parent j = i → le (l.getD (parent i) default) (l.getD j default)

/-- What the shift down needs: only the entry `i` may come after its children. -/
structure DownReady (le : α → α → Prop) (l : List α) (i : Nat) : Prop where
  others : ∀ j, 0 < j → j < l.length → parent j ≠ i → le (l.getD (parent j) default) (l.getD j default)
  grand : 0 < i → ∀ j, 0 < j → j < l.length → parent j = i → le (l.getD (parent i) default) (l.getD j default)

/-- `isLess`, strict or not, decides the preorder `le`. -/
structure Compares (le : α → α → Prop) (isLess : α → α → Bool) : Prop where
  trans : ∀ {x y z}, le x y → le y z → le x z
  less : ∀ {x y}, isLess x y = true → le x y
  more : ∀ {x y}, isLess x y = false → le y x

omit [Inhabited α] in
theorem Compares.refl {le : α → α → Prop} {isLess : α → α → Bool} (ho : Compares le isLess) (x : α) : le x x := by
  cases hc : isLess x x with
  | true => exact ho.less hc
  | false => exact ho.more hc

variable {q : Queue α}

section Order
variable {le : α → α → Prop} {isLess : α → α → Bool} (ho : Compares le isLess)

include ho in
theorem UpReady.step (h : UpReady le l i) (hi : 0 < i)
    (hle : le (l.getD i default) (l.getD (parent i) default)) : UpReady le (l.swap i (parent i)) (parent i) := by
  have hp := parent_lt hi
  have hpb : parent i < l.length := lt_trans hp h.bound
  have hget := fun k => getD_swap h.bound hpb k default
  refine ⟨by rwa [length_swap], fun j hj hjl hne => ?_, fun hp0 j hj hjl hjp => ?_⟩
  · rw [length_swap] at hjl
    rw [hget, hget, if_neg hne]
    by_cases hji : j = i
    · rw [if_pos (congrArg parent hji), if_pos hji]
      exact hle
    · rw [if_neg hji]
      by_cases hjp : parent j = parent i
      · rw [if_pos hjp]
        have := h.others j hj hjl hji
        rw [hjp] at this
        exact ho.trans hle this
      · rw [if_neg hjp]
        by_cases hji' : parent j = i
        · rw [if_pos hji']
          exact h.grand hi j hj hjl hji'
        · rw [if_neg hji']
          exact h.others j hj hjl hji
  · rw [length_swap] at hjl
    have hpp := parent_lt hp0
    have hup := h.others (parent i) hp0 hpb (ne_of_lt hp)
    rw [hget, hget, if_neg (ne_of_lt hpp), if_neg (ne_of_lt (lt_trans hpp hp))]
    by_cases hji : j = i
    · rw [if_neg (by rw [hji]; exact Nat.ne_of_gt hp), if_pos hji]
      exact hup
    · have hjne : j ≠ parent i := by
        have := parent_lt hj
        omega
      rw [if_neg hjne, if_neg hji]
      have := h.others j hj hjl hji
      rw [hjp] at this
      exact ho.trans hup this

include ho in
/-- **The shift up ends in a heap.** -/
theorem shiftUp_spec : ∀ (fuel : Nat) {l : List α} {i : Nat}, UpReady le l i → i < fuel →
    Heap le (shiftUp isLess fuel l i) ∧ (shiftUp isLess fuel l i).Perm l
  | 0, _, _, _, hf => absurd hf (Nat.not_lt_zero _)
  | fuel + 1, l, i, h, hf => by
    rw [shiftUp]
    by_cases hi : i = 0
    · rw [if_pos hi]
      exact ⟨fun j hj hjl => h.others j hj hjl (by omega), List.Perm.refl _⟩
    · rw [if_neg hi]
      have hpos := pos_of_ne_zero hi
      have hp := parent_lt hpos
      cases hc : isLess (l.getD i default) (l.getD (parent i) default) with
      | false =>
        refine ⟨fun j hj hjl => ?_, List.Perm.refl _⟩
        by_cases hji : j = i
        · rw [hji]
          exact ho.more hc
        · exact h.others j hj hjl hji
      | true =>
        obtain ⟨hheap, hperm⟩ := shiftUp_spec fuel (h.step ho hpos (ho.less hc)) (by omega)
        exact ⟨hheap, hperm.trans (swap_perm ..)⟩

include ho in
/-- The child selected is there, and comes before its sibling. -/
theorem smallestChild_spec (hi : 2 * i + 1 < l.length) :
    smallestChild isLess l i < l.length ∧ parent (smallestChild isLess l i) = i ∧ i < smallestChild isLess l i ∧
      ∀ j, 0 < j → j < l.length → parent j = i → le (l.getD (smallestChild isLess l i) default) (l.getD j default) := by
  unfold smallestChild
  by_cases hc : 2 * i + 2 < l.length ∧ isLess (l.getD (2 * i + 2) default) (l.getD (2 * i + 1) default)
  · rw [if_pos hc]
    refine ⟨hc.1, by unfold parent; omega, by omega, fun j hj _ hp => ?_⟩
    rcases eq_child hj hp with rfl | rfl
    · exact ho.less hc.2
    · exact ho.refl _
  · rw [if_neg hc]
    refine ⟨hi, by unfold parent; omega, by omega, fun j hj hjl hp => ?_⟩
    rcases eq_child hj hp with rfl | rfl
    · exact ho.refl _
    · exact ho.more (Bool.eq_false_iff.mpr fun hlt => hc ⟨hjl, hlt⟩)

theorem DownReady.step {c : Nat} (h : DownReady le l i) (hil : i < l.length) (hc : c < l.length) (hp : parent c = i)
    (hic : i < c) (hle : le (l.getD c default) (l.getD i default))
    (hmin : ∀ j, 0 < j → j < l.length → parent j = i → le (l.getD c default) (l.getD j default)) :
    DownReady le (l.swap c i) c := by
  have hget := fun k => getD_swap hc hil k default
  refine ⟨fun j hj hjl hne => ?_, fun _ j hj hjl hjp => ?_⟩
  · rw [length_swap] at hjl
    have hpj := parent_lt hj
    rw [hget, hget]
    by_cases hjp : parent j = i
    · rw [if_pos hjp, if_neg (by omega)]
      by_cases hjc : j = c
      · rw [if_pos hjc]
        exact hle
      · rw [if_neg hjc]
        exact hmin j hj hjl hjp
    · rw [if_neg hjp, if_neg hne]
      by_cases hji : j = i
      · rw [if_pos hji, hji]
        exact h.grand (hji ▸ hj) c (Nat.zero_lt_of_lt hic) hc hp
      · rw [if_neg hji, if_neg (by rintro rfl; exact hjp hp)]
        exact h.others j hj hjl hjp
  · rw [length_swap] at hjl
    have hpj := parent_lt hj
    rw [hget, hget, hp, if_pos rfl, if_neg (by omega), if_neg (by omega), ← hjp]
    exact h.others j hj hjl (by omega)

include ho in
/-- **The shift down ends in a heap.** -/
theorem shiftDown_spec : ∀ (fuel : Nat) {l : List α} {i : Nat}, DownReady le l i → l.length ≤ fuel + i →
    Heap le (shiftDown isLess fuel l i) ∧ (shiftDown isLess fuel l i).Perm l
  | 0, l, i, h, hf => by
    refine ⟨fun j hj hjl => h.others j hj hjl ?_, List.Perm.refl _⟩
    have := parent_lt hj
    have : (shiftDown isLess 0 l i).length = l.length := rfl
    omega
  | fuel + 1, l, i, h, hf => by
    rw [shiftDown]
    by_cases hi : l.length ≤ 2 * i + 1
    · rw [if_pos hi]
      refine ⟨fun j hj hjl => h.others j hj hjl fun hp => ?_, List.Perm.refl _⟩
      rcases eq_child hj hp with rfl | rfl <;> omega
    · rw [if_neg hi]
      obtain ⟨hc, hp, hic, hmin⟩ := smallestChild_spec ho (Nat.lt_of_not_le hi)
      cases hlt : isLess (l.getD (smallestChild isLess l i) default) (l.getD i default) with
      | false =>
        refine ⟨fun j hj hjl => ?_, List.Perm.refl _⟩
        by_cases hjp : parent j = i
        · rw [hjp]
          exact ho.trans (ho.more hlt) (hmin j hj hjl hjp)
        · exact h.others j hj hjl hjp
      | true =>
        have hil : i < l.length := by omega
        obtain ⟨hheap, hperm⟩ := shiftDown_spec fuel (h.step hil hc hp hic (ho.less hlt) hmin) (by rw [length_swap]; omega)
        exact ⟨hheap, hperm.trans (swap_perm ..)⟩

/-! ## The queue -/

include ho in
/-- **A push with room keeps the heap and adds the entry.** -/
theorem push_spec (hq : Heap le q.data) (hroom : q.data.length < q.size) (x : α) :
    Heap le (q.push isLess x).1.data ∧ (q.push isLess x).1.data.Perm (x :: q.data) ∧ (q.push isLess x).1.size = q.size := by
  have hne : ¬ q.data.length = q.size := ne_of_lt hroom
  rw [push, if_neg (fun h => hne h.1)]
  simp only [if_neg hne]
  have hready : UpReady le (q.data ++ [x]) q.data.length := by
    have hold : ∀ j, j < q.data.length → (q.data ++ [x]).getD j default = q.data.getD j default :=
      fun j hj => getD_append _ _ _ _ hj
    have hlen : (q.data ++ [x]).length = q.data.length + 1 := length_append
    refine ⟨by omega, fun j hj hjl hne => ?_, fun _ j hj hjl hjp => ?_⟩
    · have hjl' : j < q.data.length := by omega
      rw [hold j hjl', hold _ (lt_trans (parent_lt hj) hjl')]
      exact hq j hj hjl'
    · have := parent_lt hj
      omega
  obtain ⟨hheap, hperm⟩ := shiftUp_spec ho (q.data.length + 1) hready (Nat.lt_succ_self _)
  exact ⟨hheap, hperm.trans perm_append_comm, trivial⟩

include ho in
/-- **A pop keeps the heap and takes the root.** -/
theorem pop_spec (hq : Heap le q.data) {x : α} {rest : List α} (hdata : q.data = x :: rest) :
    Heap le (q.pop isLess).data ∧ (q.pop isLess).data.Perm rest := by
  have hcut : ((q.data.set 0 (q.data.getD (q.data.length - 1) default)).dropLast).Perm rest ∧
      DownReady le (q.data.set 0 (q.data.getD (q.data.length - 1) default)).dropLast 0 := by
    constructor
    · rw [hdata]
      rcases eq_nil_or_concat' rest with rfl | ⟨init, y, rfl⟩
      · exact List.Perm.refl _
      · have hlast : (x :: (init ++ [y])).getD ((x :: (init ++ [y])).length - 1) default = y := by
          simp [getD_eq_getElem?_getD]
        rw [hlast, set_cons_zero, ← cons_append, dropLast_concat]
        exact (perm_append_singleton y init).symm
    · refine ⟨fun j hj hjl hne => ?_, fun h0 => absurd h0 (lt_irrefl _)⟩
      rw [length_dropLast, length_set] at hjl
      have hp := parent_lt hj
      have hsame : ∀ k, 0 < k → k < q.data.length - 1 →
          (q.data.set 0 (q.data.getD (q.data.length - 1) default)).dropLast.getD k default = q.data.getD k default := by
        intro k hk hkl
        rw [getD_eq_getElem?_getD, getElem?_dropLast, length_set, if_pos hkl,
          getElem?_set_ne (ne_of_lt hk), ← getD_eq_getElem?_getD]
      rw [hsame j hj hjl, hsame _ (pos_of_ne_zero hne) (lt_trans hp hjl)]
      exact hq j hj (by omega)
  obtain ⟨hheap, hperm⟩ := shiftDown_spec ho _ hcut.2 (Nat.le_add_right _ 0)
  exact ⟨hheap, hperm.trans hcut.1⟩

include ho in
/-- **The root comes before every entry.** -/
theorem root_le (hq : Heap le q.data) {x : α} (hx : x ∈ q.data) : le q.root x := by
  have hall : ∀ n i, i < n → i < q.data.length → le q.root (q.data.getD i default) := by
    intro n
    induction n with
    | zero => exact fun i hi => absurd hi (Nat.not_lt_zero _)
    | succ n ih =>
      intro i hi hil
      rcases eq_zero_or_pos i with rfl | hpos
      · exact ho.refl _
      · have hp := parent_lt hpos
        exact ho.trans (ih (parent i) (by omega) (by omega)) (hq i hpos hil)
  obtain ⟨i, hi, rfl⟩ := mem_iff_getElem.mp hx
  rw [← getD_eq_getElem _ default hi]
  exact hall (i + 1) i (Nat.lt_succ_self i) hi

end Order

end Queue
end Manticore

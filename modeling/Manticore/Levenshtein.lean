import Mathlib
/-!
# Levenshtein — the edit distance of suggestions (`sphLevenshtein` in `sphinx.cpp`)

One row of the table is updated in place; the diagonal is kept in `iDist`.
-/
namespace Manticore
namespace Levenshtein
open List

variable {α : Type} [DecidableEq α]

/-- The inner loop from column `j`: `left` is `dTmp[j]`, the last argument `dTmp` from `j + 1` on. -/
def inner (w : α) : List α → Nat → Nat → List Nat → List Nat
  | y :: ys, left, dist, next :: row =>
    (if w = y then dist else 1 + min (min dist next) left) ::
      inner w ys (if w = y then dist else 1 + min (min dist next) left) next row
  | _, _, _, row => row

/-- The outer loop from row `i`. -/
def outer (word2 : List α) : List α → Nat → List Nat → List Nat
  | [], _, row => row
  | w :: word1, i, row => outer word2 word1 (i + 1) ((i + 1) :: inner w word2 (i + 1) i row.tail)

/-- `dTmp.Resize ( n )`; `junk` is what new entries hold. -/
def resize (n junk : Nat) (tmp : List Nat) : List Nat := tmp.take n ++ replicate (n - tmp.length) junk

def sphLevenshtein (word1 word2 : List α) (tmp : List Nat) (junk : Nat) : Nat :=
  if word1.length = 0 then word2.length
  else if word2.length = 0 then word1.length
  else
    let tmp := resize (max word1.length word2.length + 1) junk tmp
    (outer word2 word1 0 (range (word2.length + 1) ++ tmp.drop (word2.length + 1))).getD word2.length 0

/-! ## Edit scripts -/

/-- One insertion, deletion or substitution. -/
inductive Edit : List α → List α → Prop
  | insert (u : List α) (c : α) (v : List α) : Edit (u ++ v) (u ++ c :: v)
  | delete (u : List α) (c : α) (v : List α) : Edit (u ++ c :: v) (u ++ v)
  | subst (u : List α) (c d : α) (v : List α) : Edit (u ++ c :: v) (u ++ d :: v)

inductive Script : Nat → List α → List α → Prop
  | done (s : List α) : Script 0 s s
  | step {n : Nat} {s t r : List α} : Edit s t → Script n t r → Script (n + 1) s r

/-- The table's recurrence, from the ends of the words. -/
def lev : List α → List α → Nat
  | [], t => t.length
  | x :: s, [] => s.length + 1
  | x :: s, y :: t => if x = y then lev s t else 1 + min (min (lev s t) (lev s (y :: t))) (lev (x :: s) t)
termination_by s t => s.length + t.length

theorem lev_nil (s : List α) : lev s [] = s.length := by
  cases s <;> simp [lev]

theorem lev_comm (s t : List α) : lev s t = lev t s := by
  induction s, t using lev.induct with
  | case1 t => rw [lev_nil, lev]
  | case2 x s => rw [lev_nil, lev, length_cons]
  | case3 s x t ih => rw [lev, if_pos rfl, lev, if_pos rfl, ih]
  | case4 x s y t hne ih1 ih2 ih3 =>
    rw [lev, if_neg hne, lev, if_neg (Ne.symm hne), ih1, ih2, ih3]
    omega

/-- **One more character changes the distance by one at most**, which makes the diagonal right for equal characters. -/
theorem lev_cons (x : α) : ∀ (n : Nat) (s t : List α), s.length + t.length ≤ n →
    lev (x :: s) t ≤ lev s t + 1 ∧ lev s t ≤ lev (x :: s) t + 1
  | n, s, [], _ => by rw [lev_nil, lev_nil, length_cons]; omega
  | 0, s, y :: t, h => by simp at h
  | n + 1, s, y :: t, h => by
    rw [length_cons] at h
    have hy := lev_cons y n t s (by omega)
    rw [lev_comm, lev_comm t] at hy
    have hx := lev_cons x n s t (by omega)
    rw [lev]
    split <;> omega

variable {n : Nat} {s t : List α}

omit [DecidableEq α] in
theorem Script.cons (c : α) (h : Script n s t) : Script n (c :: s) (c :: t) := by
  induction h with
  | done s => exact .done _
  | step he _ ih =>
    refine .step ?_ ih
    cases he with
    | insert u d v => exact .insert (c :: u) d v
    | delete u d v => exact .delete (c :: u) d v
    | subst u d e v => exact .subst (c :: u) d e v

/-- **Some script has as many steps as the recurrence says.** -/
theorem script_lev (s t : List α) : Script (lev s t) s t := by
  induction s, t using lev.induct with
  | case1 t =>
    rw [lev]
    induction t with
    | nil => exact .done _
    | cons y t ih => exact .step (.insert [] y []) (ih.cons y)
  | case2 x s =>
    rw [lev]
    induction s generalizing x with
    | nil => exact .step (.delete [] x []) (.done _)
    | cons z s ih => exact .step (.delete [] x _) (ih z)
  | case3 s x t ih =>
    rw [lev, if_pos rfl]
    exact ih.cons x
  | case4 x s y t hne ih1 ih2 ih3 =>
    rw [lev, if_neg hne, add_comm]
    rcases min_choice (min (lev s t) (lev s (y :: t))) (lev (x :: s) t) with h | h
    · rw [h]
      rcases min_choice (lev s t) (lev s (y :: t)) with h | h
      · rw [h]
        exact .step (.subst [] x y s) (ih1.cons y)
      · rw [h]
        exact .step (.delete [] x s) ih2
    · rw [h]
      exact .step (.insert [] y _) (ih3.cons y)

theorem lev_subst (c d : α) (s : List α) : ∀ t : List α, lev (c :: s) t ≤ lev (d :: s) t + 1
  | [] => by rw [lev_nil, lev_nil]; exact Nat.le_succ _
  | y :: t => by
    have ih := lev_subst c d s t
    have hd := lev_cons d _ s t le_rfl
    have hy := lev_cons y _ t s le_rfl
    rw [lev_comm, lev_comm t] at hy
    rw [lev, lev]
    split <;> split <;> omega

theorem lev_cons_congr {s' : List α} (h : ∀ t, lev s t ≤ lev s' t + 1) (c : α) :
    ∀ t, lev (c :: s) t ≤ lev (c :: s') t + 1
  | [] => by
    have := h []
    simp only [lev_nil] at this
    rw [lev_nil, lev_nil, length_cons, length_cons]
    omega
  | y :: t => by
    have ih := lev_cons_congr h c t
    have h1 := h t
    have h2 := h (y :: t)
    rw [lev, lev]
    split <;> omega

theorem lev_edit {s' : List α} (h : Edit s s') : ∀ t, lev s t ≤ lev s' t + 1 := by
  have hfront : ∀ (u v v' : List α), (∀ t, lev v t ≤ lev v' t + 1) → ∀ t, lev (u ++ v) t ≤ lev (u ++ v') t + 1 := by
    intro u v v' hv
    induction u with
    | nil => exact hv
    | cons c u ih => exact lev_cons_congr ih c
  cases h with
  | insert u c v => exact hfront u _ _ fun t => (lev_cons c _ v t le_rfl).2
  | delete u c v => exact hfront u _ _ fun t => (lev_cons c _ v t le_rfl).1
  | subst u c d v => exact hfront u _ _ (lev_subst c d v)

theorem lev_self : ∀ s : List α, lev s s = 0
  | [] => by rw [lev, length_nil]
  | x :: s => by rw [lev, if_pos rfl, lev_self s]

/-- **No script has fewer steps.** -/
theorem lev_le_script (h : Script n s t) : lev s t ≤ n := by
  induction h with
  | done s => exact le_of_eq (lev_self s)
  | step he _ ih => exact le_trans (lev_edit he _) (Nat.succ_le_succ ih)

omit [DecidableEq α] in
theorem Script.reverse (h : Script n s t) : Script n s.reverse t.reverse := by
  induction h with
  | done s => exact .done _
  | step he _ ih =>
    refine .step ?_ ih
    cases he with
    | insert u c v => simpa using Edit.insert v.reverse c u.reverse
    | delete u c v => simpa using Edit.delete v.reverse c u.reverse
    | subst u c d v => simpa using Edit.subst v.reverse c d u.reverse

/-! ## The row -/

/-- A row of the table: the distances of `s` to `t` and to all that begins with it, the words read backwards. -/
def rowOf (s : List α) : List α → List α → List Nat
  | t, [] => [lev s t]
  | t, y :: ys => lev s t :: rowOf s (y :: t) ys

theorem rowOf_cons (s t : List α) (ys : List α) : rowOf s t ys = lev s t :: (rowOf s t ys).tail := by
  cases ys <;> rfl

/-- **The inner loop turns the rest of a row into the rest of the next one**, half-updated or not. -/
theorem inner_rowOf (w : α) (s : List α) (rest : List Nat) : ∀ (ys t : List α),
    inner w ys (lev (w :: s) t) (lev s t) ((rowOf s t ys).tail ++ rest) = (rowOf (w :: s) t ys).tail ++ rest
  | [], t => by cases rest <;> rfl
  | y :: ys, t => by
    have hv : (if w = y then lev s t else 1 + min (min (lev s t) (lev s (y :: t))) (lev (w :: s) t))
        = lev (w :: s) (y :: t) := by rw [lev]
    rw [rowOf, tail_cons, rowOf_cons s, cons_append, inner, hv, inner_rowOf w s rest ys (y :: t), rowOf, tail_cons,
      rowOf_cons (w :: s), cons_append]
    rfl

theorem outer_rowOf (word2 : List α) (rest : List Nat) : ∀ (word1 s : List α),
    outer word2 word1 s.length (rowOf s [] word2 ++ rest) = rowOf (word1.reverse ++ s) [] word2 ++ rest
  | [], s => rfl
  | w :: word1, s => by
    have hi := inner_rowOf w s rest word2 []
    rw [lev_nil, lev_nil, length_cons] at hi
    have hrow : (s.length + 1) :: ((rowOf (w :: s) [] word2).tail ++ rest) = rowOf (w :: s) [] word2 ++ rest := by
      rw [rowOf_cons (w :: s), lev_nil]
      rfl
    rw [outer, tail_append_of_ne_nil (by rw [rowOf_cons]; exact cons_ne_nil _ _), hi, hrow, ← length_cons (a := w),
      outer_rowOf word2 rest word1 (w :: s), reverse_cons, append_assoc]
    rfl

theorem rowOf_nil (t ys : List α) : rowOf [] t ys = (range (ys.length + 1)).map (t.length + ·) := by
  induction ys generalizing t with
  | nil => simp [rowOf, lev]
  | cons y ys ih =>
    rw [rowOf, ih, length_cons, length_cons, range_succ_eq_map (n := ys.length + 1), lev]
    simp [Function.comp_def, Nat.add_assoc, Nat.add_comm 1]

theorem getD_rowOf (s : List α) (rest : List Nat) : ∀ (ys t : List α),
    (rowOf s t ys ++ rest).getD ys.length 0 = lev s (ys.reverse ++ t)
  | [], t => rfl
  | y :: ys, t => by
    rw [rowOf, length_cons, cons_append, getD_cons_succ, getD_rowOf s rest ys (y :: t), reverse_cons, append_assoc]
    rfl

theorem sphLevenshtein_eq (word1 word2 : List α) (tmp : List Nat) (junk : Nat) :
    sphLevenshtein word1 word2 tmp junk = lev word1.reverse word2.reverse := by
  unfold sphLevenshtein
  split
  · rename_i h
    rw [length_eq_zero_iff.mp h, reverse_nil, lev, length_reverse]
  · split
    · rename_i h
      rw [length_eq_zero_iff.mp h, reverse_nil, lev_nil, length_reverse]
    · have hrow : range (word2.length + 1) = rowOf [] [] word2 := by
        rw [rowOf_nil, length_nil]
        simp
      have hrun := outer_rowOf word2 ((resize (max word1.length word2.length + 1) junk tmp).drop (word2.length + 1)) word1 []
      rw [length_nil] at hrun
      dsimp only
      rw [hrow, hrun, getD_rowOf, append_nil, append_nil]

/-- **The distance is the least number of edits**, whatever the scratch vector held before. -/
theorem sphLevenshtein_least (word1 word2 : List α) (tmp : List Nat) (junk : Nat) :
    Script (sphLevenshtein word1 word2 tmp junk) word1 word2 ∧
      ∀ n, Script n word1 word2 → sphLevenshtein word1 word2 tmp junk ≤ n := by
  rw [sphLevenshtein_eq]
  refine ⟨?_, fun n h => lev_le_script h.reverse⟩
  simpa using (script_lev word1.reverse word2.reverse).reverse

omit [DecidableEq α] in
theorem Script.trans {m : Nat} {r : List α} (h : Script n s t) (h' : Script m t r) : Script (n + m) s r := by
  induction h with
  | done s => rwa [zero_add]
  | step he _ ih =>
    rw [add_right_comm]
    exact .step he (ih h')

omit [DecidableEq α] in
theorem Script.eq_of_zero (h : Script 0 s t) : s = t := by
  cases h
  rfl

/-- **The distance is a metric**, whatever the scratch vectors held. -/
theorem sphLevenshtein_metric (u v w : List α) (tmp₁ tmp₂ tmp₃ : List Nat) (junk₁ junk₂ junk₃ : Nat) :
    (sphLevenshtein u v tmp₁ junk₁ = 0 ↔ u = v) ∧ sphLevenshtein u v tmp₁ junk₁ = sphLevenshtein v u tmp₂ junk₂ ∧
      sphLevenshtein u w tmp₃ junk₃ ≤ sphLevenshtein u v tmp₁ junk₁ + sphLevenshtein v w tmp₂ junk₂ := by
  simp only [sphLevenshtein_eq]
  refine ⟨⟨fun h => ?_, fun h => h ▸ lev_self _⟩, lev_comm _ _, lev_le_script ((script_lev _ _).trans (script_lev _ _))⟩
  have hs := script_lev u.reverse v.reverse
  rw [h] at hs
  exact reverse_injective hs.eq_of_zero

end Levenshtein
end Manticore

import Mathlib
import Manticore.RowidBlocks
/-!
# RowidIntersect — the intersection of rowid iterators (`RowidIterator_Intersect_T`)

The first iterator leads: every other one is rewound to its row, and an iterator that comes to a later row has the first
one rewound to it and the round started again.  The others are not read before they are first needed.
-/
namespace Manticore
namespace RowidBlocks

open ExtNode (RowID)
open List
open Option (bind_eq_bind bind_some)

/-- `RowidIterator_Intersect_T` -/
structure Intersect where
  first : IteratorState
  others : List IteratorState
  rowsLeft : Nat := INT_MAX

namespace Intersect

/-- `AdvanceIterators`: the iterators `before` stand at the row of the first one, those of `todo` are still to be looked at. -/
def advanceIterators (k : Nat) : Nat → IteratorState → List IteratorState → List IteratorState →
    Option (Bool × IteratorState × List IteratorState)
  | 0, _, _, _ => none
  | _ + 1, first, before, [] => some (true, first, before)
  | fuel + 1, first, before, s :: todo => do
    let w := if s.cur = [] then s.warmupDocsFrom first.head else (true, s)
    if !w.1 then some (false, first, before ++ w.2 :: todo)
    else if w.2.head = first.head then advanceIterators k fuel first (before ++ [w.2]) todo
    else
      let r ← rewindTo k first.head w.2
      if !r.1 then some (false, first, before ++ r.2 :: todo)
      else if first.head < r.2.head then
        let f ← rewindTo k r.2.head first
        if !f.1 then some (false, f.2, before ++ r.2 :: todo)
        else advanceIterators k fuel f.2 [] (before ++ r.2 :: todo)
      else advanceIterators k fuel first (before ++ [r.2]) todo

/-- The loop of `GetNextRowIdBlock`, with the room left in the block. -/
def collect (k : Nat) : Nat → Intersect → Option (List RowID × Intersect)
  | 0, m => some ([], m)
  | room + 1, m =>
    if m.first.cur = [] then some ([], m)
    else do
      let (ok, first, others) ← advanceIterators k k m.first [] m.others
      if !ok then some ([], { m with first := first.stop, others })
      else
        let r := first.next
        if !r.1 then some ([first.head], { m with first := r.2, others })
        else do
          let (out, m) ← collect k room { m with first := r.2, others }
          some (first.head :: out, m)

def getNextRowIdBlock (k : Nat) (m : Intersect) : Option (List RowID × Intersect) := do
  let (out, m) ← collect k (min (MAX_COLLECTED - 1) m.rowsLeft) m
  some (out, { m with rowsLeft := if m.rowsLeft = INT_MAX then INT_MAX else m.rowsLeft - out.length })

def hintRowID (k : Nat) (row : RowID) (m : Intersect) : Option (Bool × Intersect) :=
  if m.first.stopped then some (false, m)
  else do
    let (ok, first) ← rewindTo k row m.first
    some (ok, { m with first })

/-- The constructor and `SetCutoff`. -/
def create (first : IteratorState) (others : List IteratorState) (cutoff : Nat) : Intersect where
  first := first.warmupDocs.2
  others := others
  rowsLeft := cutoff

/-- The iterator as its caller sees it; `k` bounds the turns of a loop. -/
def iter (k : Nat) : Iter Intersect where
  hintRowID := hintRowID k
  getNextRowIdBlock := getNextRowIdBlock k

/-! ## One row -/

/-- A row that all iterators have still to come to. -/
def Common (first : IteratorState) (others : List IteratorState) (x : RowID) : Prop :=
  x ∈ first.rows ∧ ∀ s ∈ others, x ∈ s.rows

/-- An iterator that was not stopped; it may not have been read yet. -/
structure Idle (n : Nat) (s : IteratorState) : Prop extends s.Ok where
  going : s.stopped = false
  size : s.rows.length < n

section Round
variable {k n : Nat} {first s s' : IteratorState} {before todo : List IteratorState} {row x : RowID}

theorem common_other (hfirst : first.Stands) (hs : ∃ gone, s.rows = gone ++ s'.rows ∧ ∀ x ∈ gone, x < first.head) :
    Common first (before ++ s :: todo) x ↔ Common first (before ++ s' :: todo) x := by
  obtain ⟨gone, hgone, hlow⟩ := hs
  simp only [Common, List.mem_append, mem_cons, or_imp, forall_and, forall_eq]
  refine and_congr_right fun hx => and_congr_right fun _ => and_congr_left fun _ => ?_
  rw [hgone, List.mem_append, or_iff_right]
  exact fun hmem => not_lt.mpr (hfirst.head_le hx) (hlow x hmem)

variable {others : List IteratorState}

theorem common_first {first' : IteratorState} (hmem : s ∈ others) (hs : s.Stands)
    (hf : ∃ gone, first.rows = gone ++ first'.rows ∧ ∀ x ∈ gone, x < s.head) : Common first others x ↔ Common first' others x := by
  obtain ⟨gone, hgone, hlow⟩ := hf
  refine and_congr_left fun hall => ?_
  rw [hgone, List.mem_append, or_iff_right]
  exact fun hx => not_lt.mpr (hs.head_le (hall s hmem)) (hlow x hx)

theorem length_le_of_gone (hs : ∃ gone, s.rows = gone ++ s'.rows ∧ ∀ x ∈ gone, x < row) : s'.rows.length ≤ s.rows.length := by
  obtain ⟨gone, hgone, -⟩ := hs
  rw [hgone, length_append]
  exact Nat.le_add_left _ _

/-- An iterator is read for the first time, from the row of the first one. -/
theorem warm_spec (h : Idle n s) (row : RowID) : ∃ w, (if s.cur = [] then s.warmupDocsFrom row else (true, s)) = w ∧
    (∃ gone, s.rows = gone ++ w.2.rows ∧ ∀ x ∈ gone, x < row) ∧ (w.1 = true → w.2.Stands) ∧ (w.1 = false → w.2.rows = []) := by
  refine ⟨_, rfl, ?_⟩
  by_cases hcur : s.cur = []
  · rw [if_pos hcur]
    have hrows := rows_of_going h.going
    rw [hcur, nil_append] at hrows
    obtain ⟨gone, r, hsplit, hgone, hcase⟩ := warmupDocsFrom_spec h.toOk h.going row
    rcases hcase with ⟨hnil, s', hstop, hover⟩ | ⟨s', hsome, hs', hrest⟩
    · rw [hstop]
      refine ⟨⟨gone, ?_, hgone⟩, fun hf => absurd hf Bool.false_ne_true, fun _ => rows_of_stopped hover.stopped⟩
      rw [hrows, hsplit, hnil, rows_of_stopped hover.stopped]
    · rw [hsome]
      refine ⟨⟨gone, ?_, hgone⟩, fun _ => hs', fun hf => absurd hf.symm Bool.false_ne_true⟩
      rw [hrows, hsplit, hrest]
  · rw [if_neg hcur]
    exact ⟨⟨[], rfl, forall_mem_nil _⟩, fun _ => ⟨h.toOk, h.going, hcur⟩, fun hf => absurd hf.symm Bool.false_ne_true⟩

/-- **What a round has done**: no common row is lost, and all iterators stand at one row or there is none. -/
structure Advanced (n : Nat) (first : IteratorState) (others : List IteratorState) (r : Bool × IteratorState × List IteratorState) :
    Prop where
  common : r.1 = true → ∀ x, Common first others x ↔ Common r.2.1 r.2.2 x
  found : r.1 = true → r.2.1.Stands ∧ ∀ s ∈ r.2.2, s.Stands ∧ s.head = r.2.1.head
  ended : r.1 = false → r.2.1.Ok ∧ ∀ x, ¬ Common first others x
  others : r.1 = true → r.2.2.length = others.length ∧ ∀ s ∈ r.2.2, s.rows.length < n
  first : r.2.1.rows.length ≤ first.rows.length

theorem Advanced.step {first' : IteratorState} {others' : List IteratorState} {r : Bool × IteratorState × List IteratorState}
    (hcommon : ∀ x, Common first others x ↔ Common first' others' x) (hlen : others'.length = others.length)
    (hsize : first'.rows.length ≤ first.rows.length) (h : Advanced n first' others' r) : Advanced n first others r where
  common := fun hr x => (hcommon x).trans (h.common hr x)
  found := h.found
  ended := fun hr => ⟨(h.ended hr).1, fun x hx => (h.ended hr).2 x ((hcommon x).mp hx)⟩
  others := fun hr => ⟨(h.others hr).1.trans hlen, (h.others hr).2⟩
  first := le_trans h.first hsize

theorem advanced_over {others' : List IteratorState} {f : IteratorState} (hf : f.Ok)
    (hsize : f.rows.length ≤ first.rows.length) (hno : ∀ x, ¬ Common first others x) : Advanced n first others (false, f, others') :=
  ⟨fun h => absurd h Bool.false_ne_true, fun h => absurd h Bool.false_ne_true, fun _ => ⟨hf, hno⟩,
    fun h => absurd h Bool.false_ne_true, hsize⟩

/-- **A round of `AdvanceIterators`** comes to the next common row. -/
theorem advanceIterators_spec (hn : n ≤ k) : ∀ (fuel : Nat) (first : IteratorState) (before todo : List IteratorState), first.Stands →
    (∀ s ∈ before, s.Stands ∧ s.head = first.head ∧ s.rows.length < n) → (∀ s ∈ todo, Idle n s) → first.rows.length < k →
    first.rows.length * (before.length + todo.length + 1) + todo.length < fuel →
    ∃ r, advanceIterators k fuel first before todo = some r ∧ Advanced n first (before ++ todo) r
  | 0, _, _, _, _, _, _, _, hfuel => absurd hfuel (Nat.not_lt_zero _)
  | fuel + 1, first, before, [], hfirst, hbefore, _, _, _ => by
    refine ⟨_, by rw [advanceIterators], ?_⟩
    rw [append_nil]
    exact ⟨fun _ x => Iff.rfl, fun _ => ⟨hfirst, fun s hs => ⟨(hbefore s hs).1, (hbefore s hs).2.1⟩⟩,
      fun hf => absurd hf.symm Bool.false_ne_true, fun _ => ⟨rfl, fun s hs => (hbefore s hs).2.2⟩, le_refl _⟩
  | fuel + 1, first, before, s :: todo, hfirst, hbefore, htodo, hk, hfuel => by
    have hidle := htodo s mem_cons_self
    have hrest : ∀ t ∈ todo, Idle n t := (forall_mem_cons.mp htodo).2
    obtain ⟨w, hweq, hwgone, hwstands, hwnil⟩ := warm_spec hidle first.head
    have hwsize := lt_of_le_of_lt (length_le_of_gone hwgone) hidle.size
    rw [length_cons] at hfuel
    rw [advanceIterators, hweq]
    cases hw : w.1 with
    | false =>
      refine ⟨_, rfl, advanced_over hfirst.toOk (le_refl _) fun x hx => ?_⟩
      have := ((common_other hfirst hwgone).mp hx).2 w.2 (mem_append_right _ mem_cons_self)
      rw [hwnil hw] at this
      exact absurd this not_mem_nil
    | true =>
      have hws := hwstands hw
      -- the iterator is left at the row of the first one
      have hstay : ∀ t : IteratorState, t.Stands → t.head = first.head → t.rows.length < n →
          (∃ gone, s.rows = gone ++ t.rows ∧ ∀ x ∈ gone, x < first.head) →
          ∃ r, advanceIterators k fuel first (before ++ [t]) todo = some r ∧ Advanced n first (before ++ s :: todo) r := by
        intro t ht hhead hsize hgone
        have hlen : (before ++ [t]).length = before.length + 1 := by rw [length_append, length_singleton]
        obtain ⟨r, hr, hadv⟩ := advanceIterators_spec hn fuel first (before ++ [t]) todo hfirst (fun u hu => by
          rcases List.mem_append.mp hu with hu | hu
          · exact hbefore u hu
          · rw [mem_singleton.mp hu]
            exact ⟨ht, hhead, hsize⟩) hrest hk (by
            have hsum : before.length + 1 + todo.length + 1 = before.length + (todo.length + 1) + 1 := by omega
            rw [hlen, hsum]
            omega)
        rw [append_assoc] at hadv
        refine ⟨r, hr, hadv.step (fun x => common_other hfirst hgone) ?_ (le_refl _)⟩
        rw [length_append, length_append]
        rfl
      by_cases hsame : w.2.head = first.head
      · simp only [Bool.not_true, Bool.false_eq_true, if_false, if_pos hsame]
        exact hstay w.2 hws hsame hwsize hwgone
      · obtain ⟨r, hr, hrew⟩ := rewindTo_spec first.head k w.2 hws (lt_of_lt_of_le hwsize hn)
        have hrgone : ∃ gone, s.rows = gone ++ r.2.rows ∧ ∀ x ∈ gone, x < first.head := (hrew.step hwgone).rows
        have hrsize := lt_of_le_of_lt (length_le_of_gone hrgone) hidle.size
        simp only [Bool.not_true, Bool.false_eq_true, if_false, if_neg hsame, hr, bind_eq_bind, bind_some]
        cases hrb : r.1 with
        | false =>
          refine ⟨_, rfl, advanced_over hfirst.toOk (le_refl _) fun x hx => ?_⟩
          have := ((common_other hfirst hrgone).mp hx).2 r.2 (mem_append_right _ mem_cons_self)
          rw [rows_of_stopped (hrew.ended hrb).stopped] at this
          exact absurd this not_mem_nil
        | true =>
          obtain ⟨hrs, hge⟩ := hrew.found hrb
          by_cases hlt : first.head < r.2.head
          · -- the first one follows, and the round starts again
            rw [if_pos hlt]
            obtain ⟨f, hf, hfrew⟩ := rewindTo_spec r.2.head k first hfirst hk
            have hfsize := length_le_of_gone hfrew.rows
            have hcommon : ∀ x, Common first (before ++ s :: todo) x ↔ Common f.2 (before ++ r.2 :: todo) x := fun x =>
              (common_other hfirst hrgone).trans (common_first (mem_append_right _ mem_cons_self) hrs hfrew.rows)
            simp only [hf, bind_some]
            cases hfb : f.1 with
            | false =>
              refine ⟨_, rfl, advanced_over (hfrew.ended hfb).toOk hfsize fun x hx => ?_⟩
              have := ((hcommon x).mp hx).1
              rw [rows_of_stopped (hfrew.ended hfb).stopped] at this
              exact absurd this not_mem_nil
            | true =>
              obtain ⟨hfs, hfge⟩ := hfrew.found hfb
              -- the row of the first one was passed
              have hless : f.2.rows.length + 1 ≤ first.rows.length := by
                obtain ⟨gone, hgone, -⟩ := hfrew.rows
                cases gone with
                | nil =>
                  have hmem := hfirst.head_mem
                  rw [hgone, nil_append] at hmem
                  exact absurd (lt_of_lt_of_le hlt hfge) (not_lt.mpr (hfs.head_le hmem))
                | cons y gone =>
                  rw [hgone, length_append, length_cons]
                  omega
              have hmul := Nat.mul_le_mul_right (before.length + (todo.length + 1) + 1) hless
              rw [add_mul, one_mul] at hmul
              have hlen : (before ++ r.2 :: todo).length = before.length + (todo.length + 1) := by
                rw [length_append, length_cons]
              obtain ⟨a, ha, hadv⟩ := advanceIterators_spec hn fuel f.2 [] (before ++ r.2 :: todo) hfs (forall_mem_nil _)
                (fun u hu => by
                  rcases List.mem_append.mp hu with hu | hu
                  · obtain ⟨hstands, -, hsize⟩ := hbefore u hu
                    exact ⟨hstands.toOk, hstands.going, hsize⟩
                  · rcases mem_cons.mp hu with rfl | hu
                    · exact ⟨hrs.toOk, hrs.going, hrsize⟩
                    · exact hrest u hu)
                (lt_of_le_of_lt hfsize hk) (by rw [hlen, length_nil, zero_add]; omega)
              refine ⟨a, ha, hadv.step hcommon ?_ hfsize⟩
              rw [length_append, length_append]
              rfl
          · rw [if_neg hlt]
            exact hstay r.2 hrs (le_antisymm (not_lt.mp hlt) hge) hrsize hrgone

end Round

/-! ## Blocks -/

/-- **The rows to come**: the first iterator is over, or the iterators have them in common and `k` is enough for a round. -/
structure To (k n : Nat) (m : Intersect) (X : List RowID) : Prop where
  asc : X.Pairwise (· < ·)
  mem : ∀ x, x ∈ X ↔ Common m.first m.others x
  state : m.first.Over ∨ m.first.Stands ∧ (∀ s ∈ m.others, Idle n s) ∧
    m.first.rows.length * (m.others.length + 1) + m.others.length < k
  bound : n ≤ k

section Blocks
variable {k n : Nat} {m : Intersect} {X : List RowID}

theorem To.eq_nil (h : To k n m X) (hover : m.first.Over) : X = [] := by
  refine eq_nil_iff_forall_not_mem.mpr fun x hx => ?_
  have := ((h.mem x).mp hx).1
  rw [rows_of_stopped hover.stopped] at this
  exact not_mem_nil this

theorem to_over {first : IteratorState} (others : List IteratorState) (rowsLeft : Nat) (h : first.Over) (hn : n ≤ k) :
    To k n { first, others, rowsLeft } [] where
  asc := .nil
  mem := fun x => ⟨fun hx => absurd hx not_mem_nil, fun hx => by
    rw [Common, rows_of_stopped h.stopped] at hx
    exact absurd hx.1 not_mem_nil⟩
  state := .inl h
  bound := hn

theorem length_lt_of_mul {a b c : Nat} (h : a * (b + 1) + b < c) : a < c := by
  have : a * 1 ≤ a * (b + 1) := Nat.mul_le_mul_left _ (Nat.le_add_left _ _)
  omega

/-- **A block** holds the next common rows; it is not full only at the end. -/
theorem collect_spec : ∀ (room : Nat) (m : Intersect) (X : List RowID), To k n m X →
    ∃ out m' X', collect k room m = some (out, m') ∧ X = out ++ X' ∧ To k n m' X' ∧ m'.rowsLeft = m.rowsLeft ∧ out.length ≤ room ∧
      (out.length < room → X' = [])
  | 0, m, X, h => ⟨[], m, X, rfl, rfl, h, rfl, Nat.le_refl _, fun hlt => absurd hlt (Nat.lt_irrefl _)⟩
  | room + 1, m, X, h => by
    rw [collect]
    rcases h.state with hover | ⟨hfirst, hothers, hfuel⟩
    · rw [if_pos hover.none]
      exact ⟨[], m, X, rfl, rfl, h, rfl, Nat.zero_le _, fun _ => h.eq_nil hover⟩
    · rw [if_neg hfirst.some]
      obtain ⟨r, hr, hadv⟩ := advanceIterators_spec h.bound k m.first [] m.others hfirst (forall_mem_nil _) hothers
        (length_lt_of_mul hfuel) (by rw [length_nil, Nat.zero_add]; exact hfuel)
      rw [nil_append] at hadv
      obtain ⟨ok, first, others⟩ := r
      simp only [hr, bind_eq_bind, bind_some]
      cases ok with
      | false =>
        obtain ⟨hok, hno⟩ := hadv.ended rfl
        have hnil : X = [] := eq_nil_iff_forall_not_mem.mpr fun x hx => hno x ((h.mem x).mp hx)
        exact ⟨[], _, [], rfl, hnil, to_over others m.rowsLeft hok.over_stop h.bound, rfl, Nat.zero_le _, fun _ => rfl⟩
      | true =>
        obtain ⟨hstands, hall⟩ := hadv.found rfl
        obtain ⟨hlen, hsize⟩ := hadv.others rfl
        have hcommon := hadv.common rfl
        have hle := hadv.first
        dsimp only at hstands hall hlen hsize hcommon hle
        -- the row they stand at is the first of those to come
        have hhead : Common first others first.head :=
          ⟨hstands.head_mem, fun s hs => (hall s hs).2 ▸ (hall s hs).1.head_mem⟩
        obtain ⟨X₁, rfl, hX₁⟩ := cons_of_least h.asc ((h.mem _).mpr ((hcommon _).mpr hhead))
          fun x hx => hstands.head_le ((hcommon x).mp ((h.mem x).mp hx)).1
        obtain ⟨hrows, hnext, hend⟩ := next_spec hstands
        have hasc := hstands.toOk.rows_asc
        rw [hrows] at hasc
        have hmem : ∀ x, x ∈ X₁ ↔ Common first.next.2 others x := fun x => by
          rw [hX₁ x, h.mem x, hcommon x, Common, Common, hrows]
          constructor
          · rintro ⟨⟨hx, ho⟩, hne⟩
            exact ⟨(mem_cons.mp hx).resolve_left hne, ho⟩
          · rintro ⟨hx, ho⟩
            exact ⟨⟨mem_cons_of_mem _ hx, ho⟩, Nat.ne_of_gt ((pairwise_cons.mp hasc).1 x hx)⟩
        have hasc₁ : X₁.Pairwise (· < ·) := (pairwise_cons.mp h.asc).2
        cases hb : first.next.1 with
        | false =>
          have hto : To k n { m with first := first.next.2, others } X₁ := ⟨hasc₁, hmem, .inl (hend hb), h.bound⟩
          refine ⟨[first.head], _, X₁, rfl, rfl, hto, rfl, Nat.succ_le_succ (Nat.zero_le _), fun _ => hto.eq_nil (hend hb)⟩
        | true =>
          have hlen' : first.next.2.rows.length ≤ m.first.rows.length := by
            rw [hrows, length_cons] at hle
            omega
          have hto : To k n { m with first := first.next.2, others } X₁ := by
            refine ⟨hasc₁, hmem, .inr ⟨hnext hb, fun s hs => ⟨(hall s hs).1.toOk, (hall s hs).1.going, hsize s hs⟩, ?_⟩, h.bound⟩
            rw [hlen]
            exact Nat.lt_of_le_of_lt (Nat.add_le_add_right (Nat.mul_le_mul_right _ hlen') _) hfuel
          obtain ⟨out, m', X', hcollect, rfl, hto', hleft, hroom, hfull⟩ := collect_spec room _ X₁ hto
          rw [hcollect]
          refine ⟨first.head :: out, m', X', rfl, rfl, hto', hleft, Nat.succ_le_succ hroom, fun hlt => hfull (Nat.lt_of_succ_lt_succ hlt)⟩

/-- **The intersection gives its common rows.** -/
theorem gives (k n : Nat) : Gives (iter k) rowsLeft (To k n) where
  hint := fun m X row h => by
    show ∃ b s' gone X', hintRowID k row m = some (b, s') ∧ _
    rw [hintRowID]
    rcases h.state with hover | ⟨hfirst, hothers, hfuel⟩
    · rw [if_pos hover.stopped]
      exact ⟨false, m, [], X, rfl, rfl, forall_mem_nil _, h, rfl, fun _ => h.eq_nil hover⟩
    · rw [if_neg (by rw [hfirst.going]; exact Bool.false_ne_true)]
      obtain ⟨r, hr, hrew⟩ := rewindTo_spec row k m.first hfirst (length_lt_of_mul hfuel)
      obtain ⟨ok, first⟩ := r
      simp only [hr, bind_eq_bind, bind_some]
      obtain ⟨gone, hgone, hlow⟩ := hrew.rows
      have hasc := hfirst.toOk.rows_asc
      rw [hgone] at hasc
      have hcase : ∀ x ∈ X, x ∈ gone ∨ x ∈ first.rows := fun x hx => by
        have := ((h.mem x).mp hx).1
        rw [hgone] at this
        exact List.mem_append.mp this
      have hcut := append_of_cut (p := fun x => x ∈ first.rows) h.asc fun x hx y hy hnx hpy =>
        (pairwise_append.mp hasc).2.2 x ((hcase x hx).resolve_right hnx) y hpy
      have hto : To k n { m with first := first } (X.filter fun x => x ∈ first.rows) := by
        refine ⟨List.Pairwise.filter _ h.asc, fun x => ?_, ?_, h.bound⟩
        · rw [mem_filter, h.mem x, decide_eq_true_iff, Common, Common, hgone, List.mem_append]
          exact ⟨fun hx => ⟨hx.2, hx.1.2⟩, fun hx => ⟨⟨.inr hx.1, hx.2⟩, hx.1⟩⟩
        · cases ok with
          | false => exact .inl (hrew.ended rfl)
          | true =>
            refine .inr ⟨(hrew.found rfl).1, hothers, ?_⟩
            exact Nat.lt_of_le_of_lt (Nat.add_le_add_right (Nat.mul_le_mul_right _ (length_le_of_gone hrew.rows)) _) hfuel
      refine ⟨ok, _, X.filter (fun x => ¬ x ∈ first.rows), X.filter (fun x => x ∈ first.rows), rfl, hcut, fun x hx => ?_, hto,
        rfl, fun hok => ?_⟩
      · obtain ⟨hx, hnx⟩ := mem_filter.mp hx
        exact hlow x ((hcase x hx).resolve_right (of_decide_eq_true hnx))
      · exact hto.eq_nil (hrew.ended hok)
  next := fun m X h => by
    show ∃ out s' X', getNextRowIdBlock k m = some (out, s') ∧ _
    obtain ⟨out, m', X', hcollect, hX, hto, hleft, hroom, hfull⟩ := collect_spec (min (MAX_COLLECTED - 1) m.rowsLeft) m X h
    rw [getNextRowIdBlock]
    simp only [hcollect, bind_eq_bind, bind_some]
    refine ⟨out, _, X', rfl, hX, ⟨hto.asc, hto.mem, hto.state, hto.bound⟩, by rw [hleft], Nat.le_trans hroom (Nat.min_le_right _ _),
      Nat.lt_of_le_of_lt (Nat.le_trans hroom (Nat.min_le_left _ _)) (by decide), fun hnil => ?_⟩
    rcases Nat.eq_zero_or_pos m.rowsLeft with hzero | hpos
    · exact .inl hzero
    · right
      refine hfull ?_
      rw [hnil, length_nil]
      exact Nat.lt_min.mpr ⟨by decide, hpos⟩

end Blocks

end Intersect
end RowidBlocks
end Manticore

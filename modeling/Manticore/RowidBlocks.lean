import Mathlib
import Manticore.ExtNode
/-!
# RowidBlocks — iterators that return rowids in blocks (`RowidIterator_i`, `IteratorState_T`)

An iterator returns its rows in ascending blocks (`GetNextRowIdBlock`) and may be told that rows below some row are of no
interest (`HintRowID`).  `IteratorState` is an input iterator with the cursor its parent has in the last block; a null
`m_pRowID` is the empty list.  `Call`, `run` and `drain` are a caller of such an iterator.
-/
namespace Manticore
namespace RowidBlocks

open ExtNode (RowID invalidRowID)
open List
open Option (bind_eq_bind bind_some)

/-! ## Input iterators -/

/-- What `HintRowID` of an input does to the blocks it has still to return: rows below the hint may be dropped, and the rest
cut into other blocks; `false` (here `none`) is returned only when there is nothing at or after the hint. -/
structure Hinter where
  skip : RowID → List (List RowID) → Option (List (List RowID))
  dropped : ∀ row blocks rest, skip row blocks = some rest → blocks.flatten.Pairwise (· < ·) →
    ∃ gone, blocks.flatten = gone ++ rest.flatten ∧ ∀ x ∈ gone, x < row
  ended : ∀ row blocks, skip row blocks = none → ∀ x ∈ blocks.flatten, x < row
  full : ∀ row blocks rest, skip row blocks = some rest → (∀ b ∈ blocks, b ≠ []) → ∀ b ∈ rest, b ≠ []

/-- An input that does not use hints. -/
def Hinter.none : Hinter where
  skip := fun _ blocks => some blocks
  dropped := fun _ _ _ h _ => ⟨[], by cases h; rfl, forall_mem_nil _⟩
  ended := fun _ _ h => by cases h
  full := fun _ _ _ h hb => by cases h; exact hb

/-- `IteratorState_T`; `boundaries` are those of the `ROWID_LIMITS` instances. -/
structure IteratorState where
  blocks : List (List RowID)
  hinter : Hinter
  boundaries : Option (RowID × RowID) := none
  cur : List RowID := []
  stopped : Bool := false

def IteratorState.stop (s : IteratorState) : IteratorState := { s with cur := [], stopped := true }

/-- `DoRowIdFiltering` -/
def doRowIdFiltering (block : List RowID) (b : RowID × RowID) : List RowID :=
  if block.getLastD 0 < b.1 ∨ b.2 < block.headD 0 then [] else block.filter fun x => b.1 ≤ x ∧ x ≤ b.2

/-- A block as the `ROWID_LIMITS` warmup uses it. -/
def limited (block : List RowID) (b : RowID × RowID) : List RowID :=
  if block.headD 0 < b.1 ∨ b.2 < block.getLastD 0 then doRowIdFiltering block b else block

/-- The loop of the `ROWID_LIMITS` warmup: blocks without a row within the limits are passed over. -/
def nextLimited (b : RowID × RowID) : List (List RowID) → Option (List RowID × List (List RowID))
  | [] => none
  | block :: blocks => if limited block b = [] then nextLimited b blocks else some (limited block b, blocks)

def nextBlock : Option (RowID × RowID) → List (List RowID) → Option (List RowID × List (List RowID))
  | none, [] => none
  | none, block :: blocks => some (block, blocks)
  | some b, blocks => nextLimited b blocks

def IteratorState.warmupDocs (s : IteratorState) : Bool × IteratorState :=
  match nextBlock s.boundaries s.blocks with
  | none => (false, s.stop)
  | some (block, blocks) => (true, { s with cur := block, blocks })

/-- `WarmupDocs ( RowID_t )` -/
def IteratorState.warmupDocsFrom (row : RowID) (s : IteratorState) : Bool × IteratorState :=
  match s.hinter.skip row s.blocks with
  | none => (false, s.stop)
  | some blocks => { s with blocks }.warmupDocs

/-- The second loop of `RewindTo`. -/
def scanTo : Nat → RowID → IteratorState → Option (Bool × IteratorState)
  | 0, _, _ => none
  | fuel + 1, row, s =>
    let cur := s.cur.dropWhile (· < row)
    if cur ≠ [] then some (true, { s with cur })
    else
      let r := s.warmupDocs
      if r.1 then scanTo fuel row r.2 else some (false, r.2)

def rewindTo : Nat → RowID → IteratorState → Option (Bool × IteratorState)
  | 0, _, _ => none
  | fuel + 1, row, s =>
    if s.cur.getLastD 0 < row then
      let r := s.warmupDocsFrom row
      if r.1 then rewindTo fuel row r.2 else some (false, r.2)
    else scanTo (fuel + 1) row s

/-! ## Callers -/

inductive Call
  | hint (row : RowID)
  | next
  deriving DecidableEq, Repr

def hints : List Call → List RowID
  | [] => []
  | .hint row :: calls => row :: hints calls
  | .next :: calls => hints calls

/-- The hint given last, `t` if there is none. -/
def lastHint (t : RowID) : List Call → RowID
  | [] => t
  | .hint row :: calls => lastHint row calls
  | .next :: calls => lastHint t calls

/-- An iterator as its caller sees it; `none` stands for a loop that did not end. -/
structure Iter (S : Type) where
  hintRowID : RowID → S → Option (Bool × S)
  getNextRowIdBlock : S → Option (List RowID × S)

/-- A caller's calls, in order: the blocks returned. -/
def Iter.run {S : Type} (it : Iter S) : S → List Call → Option (List (List RowID) × S)
  | s, [] => some ([], s)
  | s, .hint row :: calls => do
    let (_, s) ← it.hintRowID row s
    it.run s calls
  | s, .next :: calls => do
    let (block, s) ← it.getNextRowIdBlock s
    let (blocks, s) ← it.run s calls
    some (block :: blocks, s)

/-- Repeated `GetNextRowIdBlock` calls until one returns false. -/
def Iter.drain {S : Type} (it : Iter S) : Nat → S → Option (List (List RowID))
  | 0, _ => none
  | fuel + 1, s => do
    let (block, s) ← it.getNextRowIdBlock s
    if block = [] then some []
    else
      let rest ← it.drain fuel s
      some (block :: rest)

/-! ## The rows of a state -/

/-- Within the limits. -/
def inBounds (boundaries : Option (RowID × RowID)) (x : RowID) : Bool :=
  match boundaries with
  | none => true
  | some b => b.1 ≤ x ∧ x ≤ b.2

/-- The rows a state has still to come to, the one it stands at included. -/
def IteratorState.rows (s : IteratorState) : List RowID :=
  if s.stopped then [] else s.cur ++ s.blocks.flatten.filter (inBounds s.boundaries)

structure IteratorState.Ok (s : IteratorState) : Prop where
  full : ∀ b ∈ s.blocks, b ≠ []
  asc : (s.cur ++ s.blocks.flatten).Pairwise (· < ·)

/-- A state with a row under its cursor. -/
structure IteratorState.Stands (s : IteratorState) : Prop extends s.Ok where
  going : s.stopped = false
  some : s.cur ≠ []

/-- A state with no row left is stopped. -/
structure IteratorState.Over (s : IteratorState) : Prop extends s.Ok where
  stopped : s.stopped = true
  none : s.cur = []

section State
variable {s : IteratorState} {row : RowID}

theorem rows_of_stopped (h : s.stopped = true) : s.rows = [] := by rw [IteratorState.rows, if_pos h]

theorem rows_of_going (h : s.stopped = false) : s.rows = s.cur ++ s.blocks.flatten.filter (inBounds s.boundaries) := by
  rw [IteratorState.rows, if_neg (by rw [h]; exact Bool.false_ne_true)]

theorem IteratorState.Ok.rows_asc (h : s.Ok) : s.rows.Pairwise (· < ·) := by
  rw [IteratorState.rows]
  split
  · exact .nil
  · exact List.Pairwise.sublist ((List.Sublist.refl _).append filter_sublist) h.asc

theorem IteratorState.Ok.over_stop (h : s.Ok) : s.stop.Over :=
  ⟨⟨h.full, (pairwise_append.mp h.asc).2.1⟩, rfl, rfl⟩

/-- The row under the cursor. -/
def IteratorState.head (s : IteratorState) : RowID := s.cur.headD 0

theorem IteratorState.Stands.cur_eq (h : s.Stands) : s.cur = s.head :: s.cur.tail := by
  obtain ⟨x, xs, hx⟩ := exists_cons_of_ne_nil h.some
  rw [IteratorState.head, hx]
  rfl

theorem IteratorState.Stands.rows_eq (h : s.Stands) :
    s.rows = s.head :: (s.cur.tail ++ s.blocks.flatten.filter (inBounds s.boundaries)) := by
  rw [rows_of_going h.going]
  nth_rewrite 1 [h.cur_eq]
  rfl

theorem IteratorState.Stands.head_mem (h : s.Stands) : s.head ∈ s.rows := by
  rw [h.rows_eq]
  exact mem_cons_self

theorem IteratorState.Stands.head_le (h : s.Stands) {x : RowID} (hx : x ∈ s.rows) : s.head ≤ x := by
  have hasc := h.toOk.rows_asc
  rw [h.rows_eq] at hasc hx
  rcases mem_cons.mp hx with rfl | hx
  · exact le_refl _
  · exact le_of_lt ((pairwise_cons.mp hasc).1 x hx)

variable {block : List RowID}

section
variable (h : block.Pairwise (· < ·))
include h

theorem headD_le {x : RowID} (hx : x ∈ block) : block.headD 0 ≤ x := by
  cases block with
  | nil => exact absurd hx not_mem_nil
  | cons y ys =>
    rcases mem_cons.mp hx with rfl | hx
    · exact le_refl _
    · exact le_of_lt ((pairwise_cons.mp h).1 x hx)

theorem le_getLastD {x : RowID} (hx : x ∈ block) : x ≤ block.getLastD 0 := by
  rcases eq_nil_or_concat' block with rfl | ⟨ys, y, rfl⟩
  · exact absurd hx not_mem_nil
  · rw [getLastD_concat]
    rcases List.mem_append.mp hx with hx | hx
    · exact le_of_lt ((pairwise_append.mp h).2.2 x hx y mem_cons_self)
    · exact le_of_eq (mem_singleton.mp hx)

theorem limited_eq (b : RowID × RowID) :
    limited block b = block.filter (inBounds (some b)) := by
  rw [limited]
  split
  · rw [doRowIdFiltering]
    split
    · rename_i hout
      refine (filter_eq_nil_iff.mpr fun x hx hin => ?_).symm
      have hin' := of_decide_eq_true hin
      rcases hout with hout | hout
      · exact Nat.not_le_of_lt (lt_of_le_of_lt (le_getLastD h hx) hout) hin'.1
      · exact Nat.not_le_of_lt (lt_of_lt_of_le hout (headD_le h hx)) hin'.2
    · rfl
  · rename_i hin
    refine (filter_eq_self.mpr fun x hx => ?_).symm
    obtain ⟨hlow, hhigh⟩ := not_or.mp hin
    exact decide_eq_true ⟨le_trans (not_lt.mp hlow) (headD_le h hx), le_trans (le_getLastD h hx) (not_lt.mp hhigh)⟩

end

/-- The next block with a row within the limits, or the end. -/
theorem nextLimited_spec (b : RowID × RowID) : ∀ (blocks : List (List RowID)), blocks.flatten.Pairwise (· < ·) →
    (nextLimited b blocks = none ∧ blocks.flatten.filter (inBounds (some b)) = []) ∨
    ∃ block rest, nextLimited b blocks = some (block, rest) ∧ block ≠ [] ∧ (∀ c ∈ rest, c ∈ blocks) ∧
      (block ++ rest.flatten).Sublist blocks.flatten ∧
      blocks.flatten.filter (inBounds (some b)) = block ++ rest.flatten.filter (inBounds (some b))
  | [], _ => .inl ⟨rfl, rfl⟩
  | block :: blocks, h => by
    rw [flatten_cons] at h ⊢
    have hlim := limited_eq (pairwise_append.mp h).1 b
    rw [nextLimited, filter_append, ← hlim]
    by_cases hnil : limited block b = []
    · rw [if_pos hnil, hnil, nil_append]
      rcases nextLimited_spec b blocks (pairwise_append.mp h).2.1 with h' | ⟨c, rest, heq, hne, hmem, hsub, hfilter⟩
      · exact .inl h'
      · exact .inr ⟨c, rest, heq, hne, fun d hd => mem_cons_of_mem _ (hmem d hd), hsub.trans (sublist_append_right _ _), hfilter⟩
    · rw [if_neg hnil]
      refine .inr ⟨_, blocks, rfl, hnil, fun d hd => mem_cons_of_mem _ hd, ?_, rfl⟩
      rw [hlim]
      exact filter_sublist.append (List.Sublist.refl _)

theorem nextBlock_spec (boundaries : Option (RowID × RowID)) (blocks : List (List RowID)) (hfull : ∀ b ∈ blocks, b ≠ [])
    (h : blocks.flatten.Pairwise (· < ·)) :
    (nextBlock boundaries blocks = none ∧ blocks.flatten.filter (inBounds boundaries) = []) ∨
    ∃ block rest, nextBlock boundaries blocks = some (block, rest) ∧ block ≠ [] ∧ (∀ c ∈ rest, c ∈ blocks) ∧
      (block ++ rest.flatten).Sublist blocks.flatten ∧
      blocks.flatten.filter (inBounds boundaries) = block ++ rest.flatten.filter (inBounds boundaries) := by
  cases boundaries with
  | some b => exact nextLimited_spec b blocks h
  | none =>
    cases blocks with
    | nil => exact .inl ⟨rfl, rfl⟩
    | cons block blocks =>
      refine .inr ⟨block, blocks, rfl, hfull block mem_cons_self, fun c hc => mem_cons_of_mem _ hc, List.Sublist.refl _, ?_⟩
      have hall : ∀ l : List RowID, l.filter (inBounds none) = l := fun l => filter_eq_self.mpr fun _ _ => rfl
      rw [hall, hall, flatten_cons]

/-- **`WarmupDocs`** comes to the next block, or the iterator is over. -/
theorem warmupDocs_spec (h : s.Ok) (hgo : s.stopped = false) :
    (s.blocks.flatten.filter (inBounds s.boundaries) = [] ∧ s.warmupDocs = (false, s.stop)) ∨
    ∃ s', s.warmupDocs = (true, s') ∧ s'.Stands ∧ s'.rows = s.blocks.flatten.filter (inBounds s.boundaries) := by
  have hasc := (pairwise_append.mp h.asc).2.1
  rcases nextBlock_spec s.boundaries s.blocks h.full hasc with ⟨hnone, hnil⟩ | ⟨block, rest, hsome, hne, hmem, hsub, hfilter⟩
  · left
    exact ⟨hnil, by rw [IteratorState.warmupDocs, hnone]⟩
  · right
    have heq : s.warmupDocs = (true, { s with cur := block, blocks := rest }) := by rw [IteratorState.warmupDocs, hsome]
    refine ⟨_, heq, ⟨⟨fun b hb => h.full b (hmem b hb), List.Pairwise.sublist hsub hasc⟩, hgo, hne⟩, ?_⟩
    rw [IteratorState.rows, if_neg (by dsimp only; rw [hgo]; exact Bool.false_ne_true), hfilter]

theorem warmupDocsFrom_spec (h : s.Ok) (hgo : s.stopped = false) (row : RowID) :
    ∃ gone r, s.blocks.flatten.filter (inBounds s.boundaries) = gone ++ r ∧ (∀ x ∈ gone, x < row) ∧
      ((r = [] ∧ ∃ s', s.warmupDocsFrom row = (false, s') ∧ s'.Over) ∨
        ∃ s', s.warmupDocsFrom row = (true, s') ∧ s'.Stands ∧ s'.rows = r) := by
  have hasc := (pairwise_append.mp h.asc).2.1
  rw [IteratorState.warmupDocsFrom]
  cases hskip : s.hinter.skip row s.blocks with
  | none =>
    refine ⟨s.blocks.flatten.filter (inBounds s.boundaries), [], (append_nil _).symm, fun x hx => ?_, .inl ⟨rfl, s.stop, rfl, h.over_stop⟩⟩
    exact s.hinter.ended row s.blocks hskip x (mem_filter.mp hx).1
  | some blocks =>
    obtain ⟨gone, hgone, hlow⟩ := s.hinter.dropped row s.blocks blocks hskip hasc
    have hok : ({ s with cur := [], blocks := blocks } : IteratorState).Ok :=
      ⟨s.hinter.full row s.blocks blocks hskip h.full, by rw [hgone] at hasc; exact (pairwise_append.mp hasc).2.1⟩
    -- the cursor is set anew
    have hsame : ({ s with blocks := blocks } : IteratorState).warmupDocs =
        ({ s with cur := [], blocks := blocks } : IteratorState).warmupDocs := by
      cases nextBlock s.boundaries blocks <;> rfl
    refine ⟨gone.filter (inBounds s.boundaries), blocks.flatten.filter (inBounds s.boundaries), ?_,
      fun x hx => hlow x (mem_filter.mp hx).1, ?_⟩
    · rw [hgone, filter_append]
    · dsimp only
      rcases warmupDocs_spec hok hgo with ⟨hnil, hstop⟩ | hsome
      · exact .inl ⟨hnil, _, hstop, hok.over_stop⟩
      · exact .inr hsome

/-- What a rewind has done: rows below the target were passed, and the state stands at the first one left, if any. -/
structure Rewound (row : RowID) (s : IteratorState) (r : Bool × IteratorState) : Prop where
  rows : ∃ gone, s.rows = gone ++ r.2.rows ∧ ∀ x ∈ gone, x < row
  found : r.1 = true → r.2.Stands ∧ row ≤ r.2.head
  ended : r.1 = false → r.2.Over

theorem Rewound.step {s' : IteratorState} {r : Bool × IteratorState} (hs : ∃ gone, s.rows = gone ++ s'.rows ∧ ∀ x ∈ gone, x < row)
    (h : Rewound row s' r) : Rewound row s r := by
  obtain ⟨gone, hgone, hlow⟩ := hs
  obtain ⟨gone', hgone', hlow'⟩ := h.rows
  refine ⟨⟨gone ++ gone', ?_, fun x hx => ?_⟩, h.found, h.ended⟩
  · rw [hgone, hgone', append_assoc]
  · exact (List.mem_append.mp hx).elim (hlow x) (hlow' x)

theorem scanTo_spec (row : RowID) : ∀ (fuel : Nat) (s : IteratorState), s.Stands → s.rows.length < fuel →
    ∃ r, scanTo fuel row s = some r ∧ Rewound row s r
  | 0, _, _, hfuel => absurd hfuel (Nat.not_lt_zero _)
  | fuel + 1, s, h, hfuel => by
    have hsplit := takeWhile_append_dropWhile (p := fun x => decide (x < row)) (l := s.cur)
    have hlow : ∀ x ∈ s.cur.takeWhile (· < row), x < row := fun x hx =>
      of_decide_eq_true (mem_takeWhile_imp (p := fun x => decide (x < row)) hx)
    rw [scanTo]
    by_cases hne : s.cur.dropWhile (· < row) ≠ []
    · rw [if_pos hne]
      obtain ⟨y, ys, hy⟩ := exists_cons_of_ne_nil hne
      have hok : ({ s with cur := s.cur.dropWhile (· < row) } : IteratorState).Stands := by
        refine ⟨⟨h.full, List.Pairwise.sublist ?_ h.asc⟩, h.going, hne⟩
        exact (dropWhile_sublist _).append (List.Sublist.refl _)
      refine ⟨_, rfl, ⟨s.cur.takeWhile (· < row), ?_, hlow⟩, fun _ => ⟨hok, ?_⟩, fun hf => absurd hf.symm Bool.false_ne_true⟩
      · rw [rows_of_going h.going, rows_of_going hok.going, ← append_assoc]
        exact congrArg (· ++ _) hsplit.symm
      · have hhead := head?_dropWhile_not (fun x => decide (x < row)) s.cur
        rw [IteratorState.head]
        rw [hy] at hhead ⊢
        exact not_lt.mp (of_decide_eq_false (by simpa using hhead))
    · rw [if_neg hne]
      have hnil := Classical.not_not.mp hne
      rw [hnil, append_nil] at hsplit
      have hall : ∀ x ∈ s.cur, x < row := fun x hx => hlow x (by rw [hsplit]; exact hx)
      have hpos := length_pos_iff.mpr h.some
      have hrows := rows_of_going h.going
      rcases warmupDocs_spec h.toOk h.going with ⟨hnone, hstop⟩ | ⟨s', hsome, hs', hrest⟩
      · rw [hstop, if_neg Bool.false_ne_true]
        refine ⟨_, rfl, ⟨s.rows, ?_, ?_⟩, fun hf => absurd hf Bool.false_ne_true, fun _ => h.toOk.over_stop⟩
        · rw [rows_of_stopped h.toOk.over_stop.stopped, append_nil]
        · rw [hrows, hnone, append_nil]
          exact hall
      · rw [hsome, if_pos rfl]
        rw [hrows, length_append] at hfuel
        obtain ⟨r, hr, hrew⟩ := scanTo_spec row fuel s' hs' (by rw [hrest]; omega)
        exact ⟨r, hr, Rewound.step ⟨s.cur, by rw [hrows, hrest], hall⟩ hrew⟩

/-- **`RewindTo`** passes rows below the target only. -/
theorem rewindTo_spec (row : RowID) : ∀ (fuel : Nat) (s : IteratorState), s.Stands → s.rows.length < fuel →
    ∃ r, rewindTo fuel row s = some r ∧ Rewound row s r
  | 0, _, _, hfuel => absurd hfuel (Nat.not_lt_zero _)
  | fuel + 1, s, h, hfuel => by
    rw [rewindTo]
    by_cases hlast : s.cur.getLastD 0 < row
    · rw [if_pos hlast]
      have hall : ∀ x ∈ s.cur, x < row := fun x hx =>
        lt_of_le_of_lt (le_getLastD (pairwise_append.mp h.asc).1 hx) hlast
      have hpos := length_pos_iff.mpr h.some
      have hrows := rows_of_going h.going
      obtain ⟨gone, r, hsplit, hgone, hcase⟩ := warmupDocsFrom_spec h.toOk h.going row
      have hpassed : ∀ x ∈ s.cur ++ gone, x < row := fun x hx => (List.mem_append.mp hx).elim (hall x) (hgone x)
      rcases hcase with ⟨hnil, s', hstop, hover⟩ | ⟨s', hsome, hs', hrest⟩
      · rw [hstop, if_neg Bool.false_ne_true]
        refine ⟨_, rfl, ⟨s.cur ++ gone, ?_, hpassed⟩, fun hf => absurd hf Bool.false_ne_true, fun _ => hover⟩
        rw [hrows, hsplit, hnil, rows_of_stopped hover.stopped, append_nil, append_nil]
      · rw [hsome, if_pos rfl]
        rw [hrows, hsplit, length_append, length_append] at hfuel
        obtain ⟨r', hr, hrew⟩ := rewindTo_spec row fuel s' hs' (by rw [hrest]; omega)
        exact ⟨r', hr, Rewound.step ⟨s.cur ++ gone, by rw [hrows, hsplit, hrest, append_assoc], hpassed⟩ hrew⟩
    · rw [if_neg hlast]
      exact scanTo_spec row (fuel + 1) s h hfuel

/-- Past the row under the cursor. -/
def IteratorState.next (s : IteratorState) : Bool × IteratorState :=
  if s.cur.tail ≠ [] then (true, { s with cur := s.cur.tail }) else s.warmupDocs

/-- **The next row**, or the iterator is over. -/
theorem next_spec (h : s.Stands) : s.rows = s.head :: s.next.2.rows ∧ (s.next.1 = true → s.next.2.Stands) ∧
    (s.next.1 = false → s.next.2.Over) := by
  rw [IteratorState.next]
  by_cases hne : s.cur.tail ≠ []
  · rw [if_pos hne]
    have hok : ({ s with cur := s.cur.tail } : IteratorState).Stands :=
      ⟨⟨h.full, List.Pairwise.sublist ((tail_sublist _).append (List.Sublist.refl _)) h.asc⟩, h.going, hne⟩
    refine ⟨?_, fun _ => hok, fun hf => absurd hf.symm Bool.false_ne_true⟩
    rw [h.rows_eq, rows_of_going hok.going]
  · rw [if_neg hne]
    have hrows := h.rows_eq
    rw [Classical.not_not.mp hne, nil_append] at hrows
    rcases warmupDocs_spec h.toOk h.going with ⟨hnone, hstop⟩ | ⟨s', hsome, hs', hrest⟩
    · rw [hstop, hrows, hnone]
      exact ⟨by rw [rows_of_stopped h.toOk.over_stop.stopped], fun hf => absurd hf Bool.false_ne_true, fun _ => h.toOk.over_stop⟩
    · rw [hsome, hrows, ← hrest]
      exact ⟨rfl, fun _ => hs', fun hf => absurd hf.symm Bool.false_ne_true⟩

end State

/-! ## Ascending lists -/

variable {X : List RowID}

theorem cons_of_least {row : RowID} (h : X.Pairwise (· < ·)) (hmem : row ∈ X) (hle : ∀ x ∈ X, row ≤ x) :
    ∃ X', X = row :: X' ∧ ∀ x, x ∈ X' ↔ x ∈ X ∧ x ≠ row := by
  cases X with
  | nil => exact absurd hmem not_mem_nil
  | cons y ys =>
    have hy : y = row := by
      rcases mem_cons.mp hmem with rfl | hmem
      · rfl
      · exact absurd (hle y mem_cons_self) (Nat.not_le_of_lt ((pairwise_cons.mp h).1 row hmem))
    subst hy
    refine ⟨ys, rfl, fun x => ⟨fun hx => ⟨mem_cons_of_mem _ hx, Nat.ne_of_gt ((pairwise_cons.mp h).1 x hx)⟩, fun hx => ?_⟩⟩
    exact (mem_cons.mp hx.1).resolve_left hx.2

/-- An ascending list is cut by a bound between two sets of its elements. -/
theorem append_of_cut {p : RowID → Prop} [DecidablePred p] : ∀ {X : List RowID}, X.Pairwise (· < ·) →
    (∀ x ∈ X, ∀ y ∈ X, ¬ p x → p y → x < y) → X = X.filter (fun x => ¬ p x) ++ X.filter (fun x => p x)
  | [], _, _ => rfl
  | x :: X, h, hcut => by
    have ih := append_of_cut (pairwise_cons.mp h).2 fun a ha b hb =>
      hcut a (mem_cons_of_mem _ ha) b (mem_cons_of_mem _ hb)
    by_cases hx : p x
    · -- everything after it is on its side
      have hall : X.filter (fun y => ¬ p y) = [] := filter_eq_nil_iff.mpr fun y hy hny =>
        lt_asymm ((pairwise_cons.mp h).1 y hy)
          (hcut y (mem_cons_of_mem _ hy) x mem_cons_self (of_decide_eq_true hny) hx)
      rw [hall, nil_append] at ih
      rw [filter_cons_of_neg (by simp [hx]), hall, nil_append, filter_cons_of_pos (by simp [hx])]
      exact congrArg (List.cons x) ih
    · rw [filter_cons_of_pos (by simp [hx]), filter_cons_of_neg (by simp [hx]), cons_append]
      exact congrArg (List.cons x) ih

/-! ## What a caller gets -/

/-- `INT_MAX`: no cutoff is set. -/
def INT_MAX : Nat := 2 ^ 31 - 1

/-- `m_dCollected` holds this many rows, and the last place is not used. -/
def MAX_COLLECTED : Nat := 1024

/-- **An iterator gives the rows `X` to come** (`To s X`), in ascending order: a hint drops rows below it only, and a block
is the next of the rows; it is empty only at the end or when the cutoff was hit. -/
structure Gives {S : Type} (it : Iter S) (rowsLeft : S → Nat) (To : S → List RowID → Prop) : Prop where
  hint : ∀ s X row, To s X → ∃ b s' gone X', it.hintRowID row s = some (b, s') ∧ X = gone ++ X' ∧ (∀ x ∈ gone, x < row) ∧ To s' X' ∧
    rowsLeft s' = rowsLeft s ∧ (b = false → X' = [])
  next : ∀ s X, To s X → ∃ out s' X', it.getNextRowIdBlock s = some (out, s') ∧ X = out ++ X' ∧ To s' X' ∧
    rowsLeft s' = (if rowsLeft s = INT_MAX then INT_MAX else rowsLeft s - out.length) ∧ out.length ≤ rowsLeft s ∧
    out.length < MAX_COLLECTED ∧ (out = [] → rowsLeft s = 0 ∨ X' = [])

/-- What was returned since the start, `t` being the last hint: nothing at or after it is lost. -/
structure History (X₀ : List RowID) (t : RowID) (out X : List RowID) : Prop where
  sub : (out ++ X).Sublist X₀
  kept : ∀ x ∈ X₀, t ≤ x → x ∈ out ++ X

/-- What is left of the cutoff after `n` rows. -/
def Counted (cutoff n left : Nat) : Prop := cutoff = INT_MAX ∧ left = INT_MAX ∨ cutoff < INT_MAX ∧ left + n = cutoff

theorem Counted.next {cutoff n left len : Nat} (h : Counted cutoff n left) (hlen : len ≤ left) :
    Counted cutoff (n + len) (if left = INT_MAX then INT_MAX else left - len) := by
  rcases h with ⟨hcut, hleft⟩ | ⟨hcut, hleft⟩
  · exact .inl ⟨hcut, if_pos hleft⟩
  · refine .inr ⟨hcut, ?_⟩
    rw [if_neg (by omega)]
    omega

theorem History.yield {X₀ out block : List RowID} {t : RowID} (h : History X₀ t out (block ++ X)) : History X₀ t (out ++ block) X :=
  ⟨by rw [append_assoc]; exact h.sub, fun x hx ht => by rw [append_assoc]; exact h.kept x hx ht⟩

theorem History.tell {X₀ out gone : List RowID} {t row : RowID} (h : History X₀ t out (gone ++ X)) (hle : t ≤ row)
    (hgone : ∀ x ∈ gone, x < row) : History X₀ row out X := by
  refine ⟨List.Sublist.trans ((List.Sublist.refl _).append (sublist_append_right _ _)) h.sub, fun x hx hrow => ?_⟩
  have hmem := h.kept x hx (le_trans hle hrow)
  rw [List.mem_append, List.mem_append] at hmem
  rcases hmem with hmem | hmem | hmem
  · exact mem_append_left _ hmem
  · exact absurd hrow (Nat.not_le_of_lt (hgone x hmem))
  · exact mem_append_right _ hmem

section Caller
variable {S : Type} {it : Iter S} {rowsLeft : S → Nat} {To : S → List RowID → Prop} {X₀ : List RowID}

theorem run_spec (hg : Gives it rowsLeft To) (cutoff : Nat) : ∀ (calls : List Call) (t : RowID) (s : S) (X out : List RowID), To s X →
    History X₀ t out X → Counted cutoff out.length (rowsLeft s) → (t :: hints calls).Pairwise (· ≤ ·) →
    ∃ blocks s' X', it.run s calls = some (blocks, s') ∧ To s' X' ∧ History X₀ (lastHint t calls) (out ++ blocks.flatten) X' ∧
      Counted cutoff (out ++ blocks.flatten).length (rowsLeft s') ∧ (∀ b ∈ blocks, b.length < MAX_COLLECTED) ∧ X'.length ≤ X.length
  | [], t, s, X, out, h, hh, hc, _ => by
    refine ⟨[], s, X, rfl, h, ?_, ?_, forall_mem_nil _, le_refl _⟩
    · rw [flatten_nil, append_nil]
      exact hh
    · rw [flatten_nil, append_nil]
      exact hc
  | .hint row :: calls, t, s, X, out, h, hh, hc, hmono => by
    obtain ⟨b, s₁, gone, X₁, hhint, rfl, hgone, h₁, hleft, -⟩ := hg.hint s X row h
    rw [hints, pairwise_cons] at hmono
    obtain ⟨blocks, s', X', hrun, h', hh', hc', hlen, hle⟩ :=
      run_spec hg cutoff calls row s₁ X₁ out h₁ (hh.tell (hmono.1 row mem_cons_self) hgone) (hleft ▸ hc) hmono.2
    refine ⟨blocks, s', X', ?_, h', hh', hc', hlen, le_trans hle ?_⟩
    · simp only [Iter.run, hhint, bind_eq_bind, bind_some, hrun]
    · rw [length_append]
      exact Nat.le_add_left _ _
  | .next :: calls, t, s, X, out, h, hh, hc, hmono => by
    obtain ⟨block, s₁, X₁, hnext, rfl, h₁, hleft, hroom, hlen₁, -⟩ := hg.next s X h
    have hc₁ := hc.next hroom
    rw [← hleft, ← length_append] at hc₁
    obtain ⟨blocks, s', X', hrun, h', hh', hc', hlen, hle⟩ := run_spec hg cutoff calls t s₁ X₁ (out ++ block) h₁ hh.yield hc₁ hmono
    rw [append_assoc, ← flatten_cons] at hh' hc'
    refine ⟨block :: blocks, s', X', ?_, h', hh', hc', forall_mem_cons.mpr ⟨hlen₁, hlen⟩, le_trans hle ?_⟩
    · simp only [Iter.run, hnext, bind_eq_bind, bind_some, hrun]
    · rw [length_append]
      exact Nat.le_add_left _ _

/-- Blocks until there are no more: then nothing is left, or the cutoff was hit. -/
theorem drain_spec (hg : Gives it rowsLeft To) (cutoff : Nat) {t : RowID} : ∀ (fuel : Nat) (s : S) (X out : List RowID), To s X →
    History X₀ t out X → Counted cutoff out.length (rowsLeft s) → X.length < fuel →
    ∃ blocks X', it.drain fuel s = some blocks ∧ History X₀ t (out ++ blocks.flatten) X' ∧
      (X' = [] ∨ Counted cutoff (out ++ blocks.flatten).length 0) ∧ (cutoff < INT_MAX → (out ++ blocks.flatten).length ≤ cutoff) ∧
      ∀ b ∈ blocks, b.length < MAX_COLLECTED
  | 0, _, _, _, _, _, _, hfuel => absurd hfuel (Nat.not_lt_zero _)
  | fuel + 1, s, X, out, h, hh, hc, hfuel => by
    obtain ⟨block, s₁, X₁, hnext, rfl, h₁, hleft, hroom, hlen₁, hover⟩ := hg.next s X h
    by_cases hnil : block = []
    · subst hnil
      refine ⟨[], X₁, ?_, ?_, ?_, fun hcut => ?_, forall_mem_nil _⟩
      · simp only [Iter.drain, hnext, bind_eq_bind, bind_some]
        rfl
      · rw [flatten_nil, append_nil]
        exact hh
      · rw [flatten_nil, append_nil]
        rcases hover rfl with hzero | hnil
        · exact .inr (hzero ▸ hc)
        · exact .inl hnil
      · rw [flatten_nil, append_nil]
        rcases hc with ⟨hc, -⟩ | ⟨-, hc⟩
        · exact absurd hc (ne_of_lt hcut)
        · omega
    · have hc₁ := hc.next hroom
      rw [← hleft, ← length_append] at hc₁
      have hpos := length_pos_iff.mpr hnil
      rw [length_append] at hfuel
      obtain ⟨blocks, X', hdrain, hh', hend, hle, hlen⟩ := drain_spec hg cutoff fuel s₁ X₁ (out ++ block) h₁ hh.yield hc₁ (by omega)
      rw [append_assoc, ← flatten_cons] at hh' hend hle
      refine ⟨block :: blocks, X', ?_, hh', hend, hle, forall_mem_cons.mpr ⟨hlen₁, hlen⟩⟩
      simp only [Iter.drain, hnext, bind_eq_bind, bind_some, if_neg hnil, hdrain]

end Caller

/-- **A caller gets the rows that hold**, in ascending order: after any calls and until there are no more blocks, every row
returned holds, none at or after the last hint is lost, and a cutoff leaves out the last ones only. -/
def Returns {S : Type} (it : Iter S) (s : S) (cutoff : Nat) (calls : List Call) (fuel : Nat) (Holds : RowID → Prop) : Prop :=
  ∃ blocks s' rest, it.run s calls = some (blocks, s') ∧ it.drain fuel s' = some rest ∧ (blocks ++ rest).flatten.Pairwise (· < ·) ∧
    (∀ x ∈ (blocks ++ rest).flatten, Holds x) ∧
    (∀ x, Holds x → lastHint 0 calls ≤ x → x ∈ (blocks ++ rest).flatten ∨
      cutoff < INT_MAX ∧ (blocks ++ rest).flatten.length = cutoff ∧ ∀ y ∈ (blocks ++ rest).flatten, y < x) ∧
    (cutoff < INT_MAX → (blocks ++ rest).flatten.length ≤ cutoff) ∧ ∀ b ∈ blocks ++ rest, b.length < MAX_COLLECTED

theorem Gives.returns {S : Type} {it : Iter S} {rowsLeft : S → Nat} {To : S → List RowID → Prop} (hg : Gives it rowsLeft To)
    {s : S} {Holds : RowID → Prop} (h : To s X) (hasc : X.Pairwise (· < ·)) (hX : ∀ x, x ∈ X ↔ Holds x)
    {cutoff fuel : Nat} (hcut : cutoff ≤ INT_MAX) (hleft : rowsLeft s = cutoff) {calls : List Call}
    (hmono : (hints calls).Pairwise (· ≤ ·)) (hfuel : X.length < fuel) : Returns it s cutoff calls fuel Holds := by
  have hc : Counted cutoff ([] : List RowID).length (rowsLeft s) := by
    rcases Nat.lt_or_eq_of_le hcut with hlt | heq
    · exact .inr ⟨hlt, hleft⟩
    · exact .inl ⟨heq, hleft.trans heq⟩
  obtain ⟨blocks, s', X', hrun, h', hh, hc', hlen, hle⟩ := run_spec hg cutoff calls 0 s X [] h
    ⟨List.Sublist.refl _, fun x hx _ => hx⟩ hc (pairwise_cons.mpr ⟨fun x _ => Nat.zero_le x, hmono⟩)
  obtain ⟨rest, X'', hdrain, hh', hend, hcount, hlen'⟩ := drain_spec hg cutoff fuel s' X' _ h' hh hc' (by omega)
  simp only [nil_append, ← flatten_append] at hh' hend hcount
  have hsub := List.Pairwise.sublist hh'.sub hasc
  refine ⟨blocks, s', rest, hrun, hdrain, (pairwise_append.mp hsub).1, fun x hx => ?_, fun x hx hrow => ?_, hcount, fun b hb => ?_⟩
  · exact (hX x).mp (hh'.sub.subset (mem_append_left _ hx))
  · rcases List.mem_append.mp (hh'.kept x ((hX x).mpr hx) hrow) with hmem | hmem
    · exact .inl hmem
    · right
      rcases hend with hnil | ⟨-, hzero⟩ | ⟨hlt, heq⟩
      · rw [hnil] at hmem
        exact absurd hmem not_mem_nil
      · exact absurd hzero (by decide)
      · exact ⟨hlt, by omega, fun y hy => (pairwise_append.mp hsub).2.2 y hy x hmem⟩
  · exact (List.mem_append.mp hb).elim (hlen b) (hlen' b)

end RowidBlocks
end Manticore

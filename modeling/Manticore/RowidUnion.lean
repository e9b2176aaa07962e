import Mathlib
import Manticore.Queue
import Manticore.RowidIntersect
/-!
# RowidUnion — the union of rowid iterators (`RowidIterator_Union_T`)

A priority queue holds the iterators that are not over, by the row they stand at; a row equal to the last one is passed
over.  When one iterator is left its blocks are read without the queue.
-/
namespace Manticore
namespace RowidBlocks

open ExtNode (RowID invalidRowID)
open List
open Arrays (getD_set)
open Option (bind_eq_bind bind_some)

instance : Inhabited IteratorState := ⟨{ blocks := [], hinter := .none }⟩

/-- `RowidIterator_Union_T`; the queue holds the numbers of the iterators. -/
structure Union where
  iterators : List IteratorState
  merge : Queue Nat
  rowsLeft : Nat := INT_MAX
  lastRowID : RowID := invalidRowID

namespace Union

def rowOf (its : List IteratorState) (i : Nat) : RowID := (its.getD i default).head

/-- `IteratorState_T::IsLess` -/
def isLess (its : List IteratorState) (i j : Nat) : Bool := rowOf its i < rowOf its j

/-- A loop over the iterators from `i` on, `n` of them: those that `f` brings to a row are put into the queue. -/
def refill (f : IteratorState → Option (Bool × IteratorState)) : Nat → Nat → Union → Option Union
  | 0, _, u => some u
  | n + 1, i, u => do
    let (ok, s) ← f (u.iterators.getD i default)
    let its := u.iterators.set i s
    refill f n (i + 1) { u with iterators := its, merge := if ok then (u.merge.push (isLess its) i).1 else u.merge }

/-- The constructor and `SetCutoff`. -/
def create (its : List IteratorState) (cutoff : Nat) : Option Union :=
  refill (fun s => some s.warmupDocs) its.length 0 { iterators := its, merge := { size := its.length }, rowsLeft := cutoff }

def hintRowID (k : Nat) (row : RowID) (u : Union) : Option (Bool × Union) :=
  if u.merge.data = [] then some (false, u)
  else if row ≤ rowOf u.iterators (u.merge.data.getLastD 0) then some (true, u)
  else do
    let u ← refill (fun s => if s.cur ≠ [] then rewindTo k row s else some (false, s)) u.iterators.length 0
      { u with merge := { u.merge with data := [] } }
    some (decide (u.merge.data ≠ []), u)

def advanceQueue (i : Nat) (u : Union) : Union :=
  let r := (u.iterators.getD i default).next
  let its := u.iterators.set i r.2
  { u with iterators := its, merge := if r.1 then (u.merge.push (isLess its) i).1 else u.merge }

/-- The loop with the queue: the rows collected. -/
def mergeLoop : Nat → Nat → Union → Option (List RowID × Union)
  | 0, _, _ => none
  | fuel + 1, room, u =>
    if 0 < room ∧ 1 < u.merge.data.length then
      let i := u.merge.root
      let row := rowOf u.iterators i
      let u' := advanceQueue i { u with merge := u.merge.pop (isLess u.iterators), lastRowID := row }
      if row ≠ u.lastRowID then do
        let (out, u) ← mergeLoop fuel (room - 1) u'
        some (row :: out, u)
      else mergeLoop fuel room u'
    else some ([], u)

/-- The rows of one block: those collected, the last one, and what is left of the block. -/
def drainBlock : Nat → RowID → List RowID → List RowID × RowID × List RowID
  | _, last, [] => ([], last, [])
  | 0, last, x :: xs => ([], last, x :: xs)
  | room + 1, last, x :: xs =>
    if x ≠ last then
      let r := drainBlock room x xs
      (x :: r.1, r.2)
    else drainBlock (room + 1) x xs

/-- The loop over the blocks of the last iterator. -/
def tailLoop : Nat → Nat → RowID → IteratorState → Option (List RowID × RowID × IteratorState)
  | 0, _, _, _ => none
  | fuel + 1, room, last, s =>
    let r := drainBlock room last s.cur
    if r.2.2 ≠ [] then some (r.1, r.2.1, { s with cur := r.2.2 })
    else
      let w := s.warmupDocs
      if w.1 then do
        let (out, last, s) ← tailLoop fuel (room - r.1.length) r.2.1 w.2
        some (r.1 ++ out, last, s)
      else some (r.1, r.2.1, w.2)

/-- The part of `GetNextRowIdBlock` with one iterator in the queue. -/
def collectTail (k room : Nat) (u : Union) : Option (List RowID × Union) :=
  if u.merge.data.length = 1 then do
    let i := u.merge.root
    let (out, last, s) ← tailLoop k room u.lastRowID (u.iterators.getD i default)
    let its := u.iterators.set i s
    some (out, { u with
      iterators := its, lastRowID := last, merge := if s.cur = [] then u.merge.pop (isLess its) else u.merge })
  else some ([], u)

def getNextRowIdBlock (k : Nat) (u : Union) : Option (List RowID × Union) := do
  let room := min (MAX_COLLECTED - 1) u.rowsLeft
  let (out, u) ← mergeLoop k room u
  let (more, u) ← collectTail k (room - out.length) u
  some (out ++ more, { u with
    rowsLeft := if u.rowsLeft = INT_MAX then INT_MAX else u.rowsLeft - (out ++ more).length })

/-- The iterator as its caller sees it; `k` bounds the turns of a loop. -/
def iter (k : Nat) : Iter Union where
  hintRowID := hintRowID k
  getNextRowIdBlock := getNextRowIdBlock k

/-! ## The queue of iterators -/

/-- Each iterator stands at a row or is over. -/
def Settled (s : IteratorState) : Prop := s.Stands ∨ s.Over

/-- **The queue holds the iterators that stand at a row**, of the first `n`. -/
structure Queued (n : Nat) (its : List IteratorState) (q : Queue Nat) : Prop where
  heap : Queue.Heap (fun i j => rowOf its i ≤ rowOf its j) q.data
  nodup : q.data.Nodup
  mem : ∀ i, i ∈ q.data ↔ i < n ∧ (its.getD i default).Stands
  size : q.size = its.length

theorem compares (its : List IteratorState) : Queue.Compares (fun i j => rowOf its i ≤ rowOf its j) (isLess its) where
  trans := le_trans
  less := fun h => le_of_lt (of_decide_eq_true h)
  more := fun h => not_lt.mp (of_decide_eq_false h)

variable {its : List IteratorState} {s : IteratorState}

section Queued
variable {n i : Nat} {q : Queue Nat}

theorem getD_mem (hi : i < its.length) : its.getD i default ∈ its := by
  rw [getD_eq_getElem _ _ hi]
  exact getElem_mem hi

theorem Queued.heap_set (h : Queue.Heap (fun i j => rowOf its i ≤ rowOf its j) q.data) (hi : i < its.length) (hnot : i ∉ q.data) :
    Queue.Heap (fun a b => rowOf (its.set i s) a ≤ rowOf (its.set i s) b) q.data := by
  refine h.congr fun a ha b hb hab => ?_
  have hsame : ∀ c ∈ q.data, rowOf (its.set i s) c = rowOf its c := fun c hc => by
    have hne : i ≠ c := fun h => hnot (h ▸ hc)
    rw [rowOf, getD_set hi, if_neg (Ne.symm hne)]
    rfl
  rw [hsame a ha, hsame b hb]
  exact hab

theorem length_lt_of_not_mem {l : List Nat} (hnodup : l.Nodup) (hlt : ∀ j ∈ l, j < n) (hi : i < n) (hnot : i ∉ l) : l.length < n := by
  have hsub : (i :: l).Subperm (List.range n) :=
    subperm_of_subset (nodup_cons.mpr ⟨hnot, hnodup⟩) fun j hj => mem_range.mpr <| by
      rcases mem_cons.mp hj with rfl | hj
      · exact hi
      · exact hlt j hj
  have := hsub.length_le
  rw [length_range, length_cons] at this
  exact this

/-- **An iterator that stands at a row is put into the queue.** -/
theorem push_queued (hq : Queue.Heap (fun i j => rowOf its i ≤ rowOf its j) q.data) (hnodup : q.data.Nodup)
    (hlt : ∀ j ∈ q.data, j < its.length)
    (hsize : q.size = its.length) (hi : i < its.length) (hnot : i ∉ q.data) :
    Queue.Heap (fun i j => rowOf its i ≤ rowOf its j) (q.push (isLess its) i).1.data ∧ (q.push (isLess its) i).1.data.Perm (i :: q.data) ∧
      (q.push (isLess its) i).1.size = its.length := by
  obtain ⟨hheap, hperm, hs⟩ := Queue.push_spec (compares its) hq (by rw [hsize]; exact length_lt_of_not_mem hnodup hlt hi hnot) i
  exact ⟨hheap, hperm, hs.trans hsize⟩

/-- Iterator `i`, which is not in the queue, is changed, and put into it if it stands at a row. -/
theorem Queued.put {ok : Bool} (hheap : Queue.Heap (fun i j => rowOf its i ≤ rowOf its j) q.data) (hnodup : q.data.Nodup)
    (hmem : ∀ j, j ∈ q.data ↔ j < n ∧ j ≠ i ∧ (its.getD j default).Stands) (hn : n ≤ its.length) (hsize : q.size = its.length)
    (hi : i < n) (hok : ok = true → s.Stands) (hover : ok = false → s.Over) :
    Queued n (its.set i s) (if ok then (q.push (isLess (its.set i s)) i).1 else q) := by
  have hi' : i < its.length := lt_of_lt_of_le hi hn
  have hnot : i ∉ q.data := fun h => ((hmem i).mp h).2.1 rfl
  have hheap' := Queued.heap_set (s := s) hheap hi' hnot
  have hsize' : q.size = (its.set i s).length := by rw [length_set]; exact hsize
  have hother : ∀ j, j ≠ i → (its.set i s).getD j default = its.getD j default := fun j hj => by
    rw [getD_set hi', if_neg hj]
  have hself : (its.set i s).getD i default = s := by rw [getD_set hi', if_pos rfl]
  cases ok with
  | true =>
    rw [if_pos rfl]
    obtain ⟨hh, hperm, hs⟩ := push_queued hheap' hnodup
      (fun j hj => by rw [length_set]; exact lt_of_lt_of_le ((hmem j).mp hj).1 hn) hsize' (by rw [length_set]; exact hi') hnot
    refine ⟨hh, hperm.nodup_iff.mpr (nodup_cons.mpr ⟨hnot, hnodup⟩), fun j => ?_, hs⟩
    rw [hperm.mem_iff, mem_cons, hmem j]
    by_cases hj : j = i
    · subst hj
      rw [hself]
      exact ⟨fun _ => ⟨hi, hok rfl⟩, fun _ => .inl rfl⟩
    · rw [hother j hj]
      exact ⟨fun h => h.elim (fun h => absurd h hj) fun h => ⟨h.1, h.2.2⟩, fun h => .inr ⟨h.1, hj, h.2⟩⟩
  | false =>
    rw [if_neg Bool.false_ne_true]
    refine ⟨hheap', hnodup, fun j => ?_, hsize'⟩
    rw [hmem j]
    by_cases hj : j = i
    · subst hj
      rw [hself]
      exact ⟨fun h => absurd rfl h.2.1, fun h => absurd (h.2.going.symm.trans (hover rfl).stopped) Bool.false_ne_true⟩
    · rw [hother j hj]
      exact ⟨fun h => ⟨h.1, h.2.2⟩, fun h => ⟨h.1, hj, h.2⟩⟩

/-- **The loop over the iterators** fills the queue with those that are brought to a row. -/
theorem refill_spec {f : IteratorState → Option (Bool × IteratorState)} {R : IteratorState → IteratorState → Prop} :
    ∀ (todo visited : List IteratorState) (u : Union), u.iterators = visited ++ todo → Queued visited.length u.iterators u.merge →
    (∀ s ∈ todo, ∃ ok s', f s = some (ok, s') ∧ R s s' ∧ (ok = true → s'.Stands) ∧ (ok = false → s'.Over)) →
    ∃ todo' q', refill f todo.length visited.length u = some { u with iterators := visited ++ todo', merge := q' } ∧
      List.Forall₂ R todo todo' ∧ Queued (visited ++ todo').length (visited ++ todo') q' ∧ ∀ s ∈ todo', Settled s
  | [], visited, u, hits, hq, _ => by
    refine ⟨[], u.merge, ?_, .nil, ?_, forall_mem_nil _⟩
    · rw [length_nil, refill, ← hits]
    · rw [← hits]
      rw [hits, append_nil] at hq ⊢
      exact hq
  | s :: todo, visited, u, hits, hq, hf => by
    obtain ⟨ok, s', hfs, hR, hstands, hover⟩ := hf s mem_cons_self
    have hlen : visited.length < u.iterators.length := by
      rw [hits, length_append, length_cons]
      omega
    have hget : u.iterators.getD visited.length default = s := by
      rw [hits, getD_eq_getElem?_getD, getElem?_append_right (le_refl _), Nat.sub_self]
      rfl
    have hset : u.iterators.set visited.length s' = (visited ++ [s']) ++ todo := by
      rw [hits, set_append_right _ _ (le_refl _), Nat.sub_self, set_cons_zero, append_assoc]
      rfl
    have hput := Queued.put (n := visited.length + 1) (i := visited.length) (s := s') hq.heap hq.nodup (fun j => by
      rw [hq.mem j]
      constructor
      · exact fun h => ⟨Nat.lt_succ_of_lt h.1, ne_of_lt h.1, h.2⟩
      · exact fun h => ⟨lt_of_le_of_ne (Nat.le_of_lt_succ h.1) h.2.1, h.2.2⟩) hlen hq.size (Nat.lt_succ_self _) hstands hover
    have hlen' : (visited ++ [s']).length = visited.length + 1 := by rw [length_append, length_singleton]
    obtain ⟨todo', q', hrefill, hall, hq', hsettled⟩ := refill_spec todo (visited ++ [s'])
      { u with iterators := u.iterators.set visited.length s'
               merge := if ok then (u.merge.push (isLess (u.iterators.set visited.length s')) visited.length).1 else u.merge }
      hset (by rw [hlen']; exact hput) (forall_mem_cons.mp hf).2
    rw [hlen'] at hrefill
    have happ : visited ++ [s'] ++ todo' = visited ++ s' :: todo' := by rw [append_assoc]; rfl
    rw [happ] at hrefill hq'
    refine ⟨s' :: todo', q', ?_, .cons hR hall, hq', forall_mem_cons.mpr ⟨?_, hsettled⟩⟩
    · rw [length_cons, refill, hget, hfs]
      exact hrefill
    · cases ok with
      | true => exact .inl (hstands rfl)
      | false => exact .inr (hover rfl)

end Queued

/-! ## Rows to come -/

/-- A row that some iterator has still to come to. -/
def Ahead (its : List IteratorState) (x : RowID) : Prop := ∃ s ∈ its, x ∈ s.rows

def size (its : List IteratorState) : Nat := (its.map fun s => s.rows.length).sum

/-- The last row returned is below all rows to come, but for its own repetitions. -/
def Passed (last : RowID) (its : List IteratorState) : Prop :=
  (∀ x, Ahead its x → x < invalidRowID) ∧ (last = invalidRowID ∨ ∀ x, Ahead its x → last ≤ x)

/-- **The rows to come**, those of the iterators without the last one returned. -/
structure To (k : Nat) (u : Union) (X : List RowID) : Prop where
  asc : X.Pairwise (· < ·)
  mem : ∀ x, x ∈ X ↔ Ahead u.iterators x ∧ x ≠ u.lastRowID
  settled : ∀ s ∈ u.iterators, Settled s
  queued : Queued u.iterators.length u.iterators u.merge
  passed : Passed u.lastRowID u.iterators
  fuel : size u.iterators < k

variable {k : Nat} {u : Union} {X : List RowID}

section Rows
variable {i : Nat} {x : RowID}

theorem size_set (hi : i < its.length) : size (its.set i s) + (its.getD i default).rows.length = size its + s.rows.length := by
  obtain ⟨a, b, hits, hlen⟩ : ∃ a b, its = a ++ its.getD i default :: b ∧ a.length = i := by
    refine ⟨its.take i, its.drop (i + 1), ?_, by rw [length_take]; omega⟩
    rw [getD_eq_getElem _ _ hi, cons_getElem_drop_succ, take_append_drop]
  generalize its.getD i default = t at hits
  subst hits
  rw [← hlen, set_append_right _ _ (le_refl _), Nat.sub_self, set_cons_zero]
  simp only [size, map_append, map_cons, sum_append, sum_cons]
  omega

theorem some_set (hi : i < its.length) (hrows : ∀ y, y ∈ (its.getD i default).rows ↔ y = x ∨ y ∈ s.rows) {y : RowID} (hy : y ≠ x) :
    Ahead (its.set i s) y ↔ Ahead its y := by
  constructor
  · rintro ⟨t, ht, hty⟩
    rcases mem_or_eq_of_mem_set ht with ht | rfl
    · exact ⟨t, ht, hty⟩
    · exact ⟨_, getD_mem hi, (hrows y).mpr (.inr hty)⟩
  · rintro ⟨t, ht, hty⟩
    obtain ⟨j, hj, rfl⟩ := getElem_of_mem ht
    by_cases hij : i = j
    · subst hij
      rw [getD_eq_getElem _ _ hi] at hrows
      exact ⟨s, mem_set hi s, ((hrows y).mp hty).resolve_left hy⟩
    · refine ⟨its[j], ?_, hty⟩
      have hget := getElem?_set_ne (l := its) (a := s) hij
      rw [getElem?_eq_getElem hj] at hget
      exact mem_of_getElem? hget

theorem root_least (h : To k u X) (hne : u.merge.data ≠ []) :
    u.merge.root < u.iterators.length ∧ (u.iterators.getD u.merge.root default).Stands ∧ u.merge.root ∈ u.merge.data ∧
      ∀ y, Ahead u.iterators y → rowOf u.iterators u.merge.root ≤ y := by
  obtain ⟨i, rest, hdata⟩ := exists_cons_of_ne_nil hne
  have hroot : u.merge.root = i := by rw [Queue.root, hdata]; rfl
  have hmem : u.merge.root ∈ u.merge.data := by rw [hroot, hdata]; exact mem_cons_self
  obtain ⟨hlt, hstands⟩ := (h.queued.mem _).mp hmem
  refine ⟨hlt, hstands, hmem, ?_⟩
  rintro y ⟨t, ht, hty⟩
  obtain ⟨j, hj, rfl⟩ := getElem_of_mem ht
  rw [← getD_eq_getElem _ default hj] at hty
  rcases h.settled _ (getD_mem hj) with hs | hs
  · exact le_trans (Queue.root_le (compares _) h.queued.heap ((h.queued.mem j).mpr ⟨hj, hs⟩)) (hs.head_le hty)
  · rw [rows_of_stopped hs.stopped] at hty
    exact absurd hty not_mem_nil

theorem To.eq_nil (h : To k u X) (hnil : u.merge.data = []) : X = [] := by
  refine eq_nil_iff_forall_not_mem.mpr fun x hx => ?_
  obtain ⟨⟨t, ht, hty⟩, -⟩ := (h.mem x).mp hx
  obtain ⟨j, hj, rfl⟩ := getElem_of_mem ht
  rw [← getD_eq_getElem _ default hj] at hty
  rcases h.settled _ (getD_mem hj) with hs | hs
  · have := (h.queued.mem j).mpr ⟨hj, hs⟩
    rw [hnil] at this
    exact not_mem_nil this
  · rw [rows_of_stopped hs.stopped] at hty
    exact not_mem_nil hty

theorem read_least {row : RowID} {its' : List IteratorState} {last : RowID} (hasc : X.Pairwise (· < ·))
    (hmem : ∀ x, x ∈ X ↔ Ahead its x ∧ x ≠ last) (hpassed : Passed last its) (hrow : Ahead its row) (hleast : ∀ y, Ahead its y → row ≤ y)
    (hsame : ∀ y, y ≠ row → (Ahead its' y ↔ Ahead its y)) (hfewer : ∀ y, Ahead its' y → Ahead its y) :
    ∃ X', X = (if row ≠ last then [row] else []) ++ X' ∧ X'.Pairwise (· < ·) ∧ (∀ x, x ∈ X' ↔ Ahead its' x ∧ x ≠ row) ∧
      Passed row its' := by
  have hpassed' : Passed row its' := ⟨fun x hx => hpassed.1 x (hfewer x hx), .inr fun x hx => hleast x (hfewer x hx)⟩
  by_cases hne : row ≠ last
  · obtain ⟨X', rfl, hX'⟩ := cons_of_least hasc ((hmem row).mpr ⟨hrow, hne⟩) fun x hx => hleast x ((hmem x).mp hx).1
    refine ⟨X', by rw [if_pos hne]; rfl, (pairwise_cons.mp hasc).2, fun x => ?_, hpassed'⟩
    rw [hX' x, hmem x]
    constructor
    · exact fun h => ⟨(hsame x h.2).mpr h.1.1, h.2⟩
    · rintro ⟨hx, hxr⟩
      refine ⟨⟨hfewer x hx, ?_⟩, hxr⟩
      rintro rfl
      rcases hpassed.2 with hl | hl
      · exact ne_of_lt (hpassed.1 x (hfewer x hx)) hl
      · exact hxr (le_antisymm (hl row hrow) (hleast x (hfewer x hx)))
  · have heq := Classical.not_not.mp hne
    refine ⟨X, by rw [if_neg hne]; rfl, hasc, fun x => ?_, hpassed'⟩
    rw [hmem x, ← heq]
    exact ⟨fun h => ⟨(hsame x h.2).mpr h.1, h.2⟩, fun h => ⟨(hsame x h.2).mp h.1, h.2⟩⟩

/-- An iterator's next row was read, and the iterator put back. -/
theorem advanceQueue_spec (h : To k u X) (hne : u.merge.data ≠ []) :
    ∃ X' u', advanceQueue u.merge.root
        { u with merge := u.merge.pop (isLess u.iterators), lastRowID := rowOf u.iterators u.merge.root } = u' ∧
      X = (if rowOf u.iterators u.merge.root ≠ u.lastRowID then [rowOf u.iterators u.merge.root] else []) ++ X' ∧ To k u' X' ∧
      u'.rowsLeft = u.rowsLeft ∧ size u'.iterators < size u.iterators := by
  obtain ⟨hlt, hstands, -, hleast⟩ := root_least h hne
  obtain ⟨i, rest, hdata⟩ := exists_cons_of_ne_nil hne
  have hroot : u.merge.root = i := by rw [Queue.root, hdata]; rfl
  rw [hroot] at hlt hstands hleast ⊢
  obtain ⟨hrows, hnext, hend⟩ := next_spec hstands
  obtain ⟨hheap, hperm⟩ := Queue.pop_spec (compares u.iterators) h.queued.heap hdata
  have hnodup := h.queued.nodup
  rw [hdata, nodup_cons] at hnodup
  have hput := Queued.put (i := i) (n := u.iterators.length) (q := u.merge.pop (isLess u.iterators)) hheap
    (hperm.nodup_iff.mpr hnodup.2) (fun j => by
      have hj := h.queued.mem j
      rw [hdata, mem_cons] at hj
      rw [hperm.mem_iff]
      constructor
      · exact fun hr => ⟨(hj.mp (.inr hr)).1, fun hji => hnodup.1 (hji ▸ hr), (hj.mp (.inr hr)).2⟩
      · exact fun hr => (hj.mpr ⟨hr.1, hr.2.2⟩).resolve_left hr.2.1) (le_refl _) h.queued.size hlt hnext hend
  have hsame : ∀ y, y ≠ rowOf u.iterators i →
      (Ahead (u.iterators.set i (u.iterators.getD i default).next.2) y ↔ Ahead u.iterators y) := fun y hy =>
    some_set hlt (fun z => by rw [hrows, mem_cons]; rfl) hy
  have hfewer : ∀ y, Ahead (u.iterators.set i (u.iterators.getD i default).next.2) y → Ahead u.iterators y := by
    rintro y ⟨t, ht, hty⟩
    rcases mem_or_eq_of_mem_set ht with ht | rfl
    · exact ⟨t, ht, hty⟩
    · exact ⟨_, getD_mem hlt, by rw [hrows]; exact mem_cons_of_mem _ hty⟩
  obtain ⟨X', hX, hasc, hmem, hpassed⟩ := read_least h.asc h.mem h.passed ⟨_, getD_mem hlt, hstands.head_mem⟩ hleast hsame hfewer
  have hsize := size_set (s := (u.iterators.getD i default).next.2) hlt
  have hlen := congrArg List.length hrows
  rw [length_cons] at hlen
  have hless : size (u.iterators.set i (u.iterators.getD i default).next.2) < size u.iterators := by omega
  refine ⟨X', _, rfl, hX, ⟨hasc, hmem, fun s hs => ?_, ?_, hpassed, lt_trans hless h.fuel⟩, rfl, hless⟩
  · rcases mem_or_eq_of_mem_set hs with hs | rfl
    · exact h.settled s hs
    · cases hb : (u.iterators.getD i default).next.1 with
      | true => exact .inl (hnext hb)
      | false => exact .inr (hend hb)
  · show Queued (u.iterators.set i (u.iterators.getD i default).next.2).length _ _
    rw [length_set]
    exact hput

/-- **The loop with the queue** collects the next rows, until the block is full or at most one iterator is left. -/
theorem mergeLoop_spec : ∀ (fuel room : Nat) (u : Union) (X : List RowID), To k u X → size u.iterators < fuel →
    ∃ out u' X', mergeLoop fuel room u = some (out, u') ∧ X = out ++ X' ∧ To k u' X' ∧ u'.rowsLeft = u.rowsLeft ∧ out.length ≤ room ∧
      (out.length < room → u'.merge.data.length ≤ 1)
  | 0, _, _, _, _, hfuel => absurd hfuel (Nat.not_lt_zero _)
  | fuel + 1, room, u, X, h, hfuel => by
    rw [mergeLoop]
    by_cases hgo : 0 < room ∧ 1 < u.merge.data.length
    · rw [if_pos hgo]
      have hne : u.merge.data ≠ [] := fun hnil => by rw [hnil] at hgo; exact absurd hgo.2 (by decide)
      obtain ⟨X₁, u₁, hadv, hX, h₁, hleft₁, hless⟩ := advanceQueue_spec h hne
      dsimp only
      rw [hadv]
      by_cases hrow : rowOf u.iterators u.merge.root ≠ u.lastRowID
      · rw [if_pos hrow] at hX ⊢
        obtain ⟨out, u', X', hloop, rfl, h', hleft, hlen, hfull⟩ := mergeLoop_spec fuel (room - 1) u₁ X₁ h₁ (by omega)
        refine ⟨rowOf u.iterators u.merge.root :: out, u', X', ?_, hX, h', hleft.trans hleft₁, ?_, fun hlt => hfull ?_⟩
        · simp only [hloop, bind_eq_bind, bind_some]
        · rw [length_cons]
          omega
        · rw [length_cons] at hlt
          omega
      · rw [if_neg hrow] at hX ⊢
        obtain ⟨out, u', X', hloop, hX', h', hleft, hlen, hfull⟩ := mergeLoop_spec fuel room u₁ X₁ h₁ (by omega)
        exact ⟨out, u', X', hloop, hX.trans hX', h', hleft.trans hleft₁, hlen, hfull⟩
    · rw [if_neg hgo]
      refine ⟨[], u, X, rfl, rfl, h, rfl, Nat.zero_le _, fun hlt => ?_⟩
      omega

end Rows

/-! ## The last iterator -/

/-- The rows `X` to come from one ascending list after `last`. -/
structure Single (last : RowID) (rows X : List RowID) : Prop where
  asc : X.Pairwise (· < ·)
  mem : ∀ x, x ∈ X ↔ x ∈ rows ∧ x ≠ last
  valid : ∀ x ∈ rows, x < invalidRowID
  passed : last = invalidRowID ∨ ∀ x ∈ rows, last ≤ x

theorem single_step {last x : RowID} {rows : List RowID} (h : Single last (x :: rows) X) (hasc : (x :: rows).Pairwise (· < ·)) :
    ∃ X', X = (if x ≠ last then [x] else []) ++ X' ∧ Single x rows X' := by
  have hlt := (pairwise_cons.mp hasc).1
  have hsingle : ∀ X', X'.Pairwise (· < ·) → (∀ y, y ∈ X' ↔ y ∈ rows) → Single x rows X' := fun X' ha hm =>
    ⟨ha, fun y => ⟨fun hy => ⟨(hm y).mp hy, Nat.ne_of_gt (hlt y ((hm y).mp hy))⟩, fun hy => (hm y).mpr hy.1⟩,
      (forall_mem_cons.mp h.valid).2, .inr fun y hy => le_of_lt (hlt y hy)⟩
  by_cases hne : x ≠ last
  · obtain ⟨X', rfl, hX'⟩ := cons_of_least h.asc ((h.mem x).mpr ⟨mem_cons_self, hne⟩) fun y hy => by
      rcases mem_cons.mp ((h.mem y).mp hy).1 with rfl | hy
      · exact le_refl _
      · exact le_of_lt (hlt y hy)
    refine ⟨X', by rw [if_pos hne]; rfl, hsingle X' (pairwise_cons.mp h.asc).2 fun y => ?_⟩
    rw [hX' y, h.mem y]
    constructor
    · exact fun hy => (mem_cons.mp hy.1.1).resolve_left hy.2
    · refine fun hy => ⟨⟨mem_cons_of_mem _ hy, ?_⟩, Nat.ne_of_gt (hlt y hy)⟩
      rintro rfl
      rcases h.passed with hl | hl
      · exact ne_of_lt (h.valid y (mem_cons_of_mem _ hy)) hl
      · exact Nat.not_le_of_lt (hlt y hy) (hl x mem_cons_self)
  · have heq := Classical.not_not.mp hne
    refine ⟨X, by rw [if_neg hne]; rfl, hsingle X h.asc fun y => ?_⟩
    rw [h.mem y, ← heq]
    exact ⟨fun hy => (mem_cons.mp hy.1).resolve_left hy.2, fun hy => ⟨mem_cons_of_mem _ hy, Nat.ne_of_gt (hlt y hy)⟩⟩

/-- One block: the rows of the block that are new, as far as there is room. -/
theorem drainBlock_spec {later : List RowID} : ∀ (block : List RowID) (room : Nat) (last : RowID) (X : List RowID),
    Single last (block ++ later) X → (block ++ later).Pairwise (· < ·) →
    ∃ out last' left X' gone, drainBlock room last block = (out, last', left) ∧ X = out ++ X' ∧ Single last' (left ++ later) X' ∧
      block = gone ++ left ∧ out.length ≤ room ∧ (out.length < room → left = [])
  | [], room, last, X, h, _ => by
    refine ⟨[], last, [], X, [], ?_, rfl, h, rfl, Nat.zero_le _, fun _ => rfl⟩
    cases room <;> rfl
  | x :: block, 0, last, X, h, _ => ⟨[], last, x :: block, X, [], rfl, rfl, h, rfl, Nat.le_refl _, fun hlt => absurd hlt (Nat.lt_irrefl _)⟩
  | x :: block, room + 1, last, X, h, hasc => by
    obtain ⟨X₁, hX, h₁⟩ := single_step h hasc
    rw [drainBlock]
    by_cases hne : x ≠ last
    · rw [if_pos hne] at hX ⊢
      obtain ⟨out, last', left, X', gone, hd, rfl, h', rfl, hlen, hfull⟩ := drainBlock_spec block room x X₁ h₁ (pairwise_cons.mp hasc).2
      rw [hd]
      exact ⟨x :: out, last', left, X', x :: gone, rfl, hX, h', rfl, Nat.succ_le_succ hlen, fun hlt => hfull (Nat.lt_of_succ_lt_succ hlt)⟩
    · rw [if_neg hne] at hX ⊢
      obtain ⟨out, last', left, X', gone, hd, hX', h', rfl, hlen, hfull⟩ :=
        drainBlock_spec block (room + 1) x X₁ h₁ (pairwise_cons.mp hasc).2
      exact ⟨out, last', left, X', x :: gone, hd, hX.trans hX', h', rfl, hlen, hfull⟩

/-- **The blocks of the last iterator**, until the block is full or the iterator is over. -/
theorem tailLoop_spec : ∀ (fuel room : Nat) (last : RowID) (s : IteratorState) (X : List RowID), s.Stands → Single last s.rows X →
    s.rows.length < fuel →
    ∃ out last' s' X', tailLoop fuel room last s = some (out, last', s') ∧ X = out ++ X' ∧ Single last' s'.rows X' ∧ Settled s' ∧
      (∃ gone, s.rows = gone ++ s'.rows) ∧ out.length ≤ room ∧ (out.length < room → X' = [] ∧ s'.Over)
  | 0, _, _, _, _, _, _, hfuel => absurd hfuel (Nat.not_lt_zero _)
  | fuel + 1, room, last, s, X, hs, h, hfuel => by
    have hrows := rows_of_going hs.going
    have hasc := hs.toOk.rows_asc
    rw [hrows] at h hasc hfuel
    obtain ⟨out, last₁, left, X₁, gone, hd, rfl, h₁, hblock, hlen, hfull⟩ := drainBlock_spec s.cur room last X h hasc
    rw [tailLoop, hd]
    by_cases hne : left ≠ []
    · rw [if_pos hne]
      have hstands : ({ s with cur := left } : IteratorState).Stands := by
        refine ⟨⟨hs.full, ?_⟩, hs.going, hne⟩
        have := hs.asc
        rw [hblock, append_assoc] at this
        exact (pairwise_append.mp this).2.1
      have hrows' := rows_of_going hstands.going
      refine ⟨out, last₁, _, X₁, rfl, rfl, ?_, .inl hstands, ⟨gone, ?_⟩, hlen, fun hlt => absurd (hfull hlt) hne⟩
      · rw [hrows']
        exact h₁
      · rw [hrows', hrows, hblock, append_assoc]
    · have hnil := Classical.not_not.mp hne
      rw [if_neg hne]
      rw [hnil, nil_append] at h₁
      have hpos := length_pos_iff.mpr hs.some
      rw [length_append] at hfuel
      rcases warmupDocs_spec hs.toOk hs.going with ⟨hnone, hstop⟩ | ⟨s', hsome, hs', hrest⟩
      · rw [hstop, if_neg Bool.false_ne_true]
        have hX₁ : X₁ = [] := eq_nil_iff_forall_not_mem.mpr fun x hx => by
          have := ((h₁.mem x).mp hx).1
          rw [hnone] at this
          exact not_mem_nil this
        have hover := hs.toOk.over_stop
        refine ⟨out, last₁, _, X₁, rfl, rfl, ?_, .inr hover, ⟨s.rows, ?_⟩, hlen, fun _ => ⟨hX₁, hover⟩⟩
        · rw [hnone] at h₁
          exact h₁
        · rw [rows_of_stopped hover.stopped, append_nil]
      · rw [hsome, if_pos rfl]
        rw [← hrest] at h₁
        obtain ⟨out', last', s'', X', hloop, rfl, h', hsettled, ⟨gone', hgone'⟩, hlen', hfull'⟩ :=
          tailLoop_spec fuel (room - out.length) last₁ s' X₁ hs' h₁ (by rw [hrest]; omega)
        simp only [hloop, bind_eq_bind, bind_some]
        refine ⟨out ++ out', last', s'', X', rfl, (append_assoc _ _ _).symm, h', hsettled, ⟨s.cur ++ gone', ?_⟩, ?_, fun hlt => hfull' ?_⟩
        · rw [hrows, ← hrest, hgone', append_assoc]
        · rw [length_append]
          omega
        · rw [length_append] at hlt
          omega

/-! ## Blocks -/

section Blocks
theorem mem_rows_le_size (h : s ∈ its) : s.rows.length ≤ size its :=
  le_sum_of_mem (mem_map_of_mem h)

theorem ahead_single (h : To k u X) {i : Nat} (hdata : u.merge.data = [i]) {x : RowID} :
    Ahead (u.iterators.set i s) x ↔ x ∈ s.rows := by
  obtain ⟨hi, -⟩ := (h.queued.mem i).mp (by rw [hdata]; exact mem_cons_self)
  constructor
  · rintro ⟨t, ht, htx⟩
    obtain ⟨j, hj, rfl⟩ := getElem_of_mem ht
    rw [← getD_eq_getElem _ default hj, getD_set hi] at htx
    by_cases hij : j = i
    · rw [if_pos hij] at htx
      exact htx
    · rw [if_neg hij] at htx
      rw [length_set] at hj
      rcases h.settled _ (getD_mem hj) with hs | hs
      · have := (h.queued.mem j).mpr ⟨hj, hs⟩
        rw [hdata, mem_singleton] at this
        exact absurd this hij
      · rw [rows_of_stopped hs.stopped] at htx
        exact absurd htx not_mem_nil
  · exact fun hx => ⟨s, mem_set hi s, hx⟩

/-- **The part with one iterator** goes on with its rows. -/
theorem collectTail_spec (room : Nat) (h : To k u X) :
    ∃ out u' X', collectTail k room u = some (out, u') ∧ X = out ++ X' ∧ To k u' X' ∧ u'.rowsLeft = u.rowsLeft ∧ out.length ≤ room ∧
      (u.merge.data.length ≤ 1 → out.length < room → X' = []) := by
  rw [collectTail]
  by_cases hone : u.merge.data.length = 1
  · rw [if_pos hone]
    obtain ⟨i, hdata⟩ := length_eq_one_iff.mp hone
    obtain ⟨hi, hstands⟩ := (h.queued.mem i).mp (by rw [hdata]; exact mem_cons_self)
    have hroot : u.merge.root = i := by rw [Queue.root, hdata]; rfl
    have hself : ∀ x, Ahead u.iterators x ↔ x ∈ (u.iterators.getD i default).rows := fun x => by
      have := ahead_single (s := u.iterators.getD i default) (x := x) h hdata
      rw [getD_eq_getElem _ _ hi, set_getElem_self, ← getD_eq_getElem _ default hi] at this
      exact this
    have hsingle : Single u.lastRowID (u.iterators.getD i default).rows X := by
      refine ⟨h.asc, fun x => ?_, fun x hx => h.passed.1 x ((hself x).mpr hx), h.passed.2.imp_right fun hp x hx => hp x ((hself x).mpr hx)⟩
      rw [h.mem x, hself x]
    have hrows := mem_rows_le_size (getD_mem hi)
    have hfuel := h.fuel
    obtain ⟨out, last, s, X', hloop, hX, h', hsettled, ⟨gone, hgone⟩, hlen, hfull⟩ :=
      tailLoop_spec k room u.lastRowID _ X hstands hsingle (by omega)
    simp only [hroot, hloop, bind_eq_bind, bind_some]
    have hahead : ∀ x, Ahead (u.iterators.set i s) x ↔ x ∈ s.rows := fun x => ahead_single h hdata
    have hsize := size_set (s := s) hi
    have hlens := congrArg List.length hgone
    rw [length_append] at hlens
    have hqueued : Queued (u.iterators.set i s).length (u.iterators.set i s)
        (if s.cur = [] then u.merge.pop (isLess (u.iterators.set i s)) else u.merge) := by
      have hheap : Queue.Heap (fun a b => rowOf (u.iterators.set i s) a ≤ rowOf (u.iterators.set i s) b) u.merge.data := by
        rw [hdata]
        intro j hj hjl
        rw [length_singleton] at hjl
        omega
      have hstand : ∀ j, j < u.iterators.length → ((u.iterators.set i s).getD j default).Stands → j = i ∧ s.Stands := fun j hj hs => by
        rw [getD_set hi] at hs
        by_cases hij : j = i
        · rw [if_pos hij] at hs
          exact ⟨hij, hs⟩
        · rw [if_neg hij] at hs
          have := (h.queued.mem j).mpr ⟨hj, hs⟩
          rw [hdata, mem_singleton] at this
          exact absurd this hij
      have hlenset : (u.iterators.set i s).length = u.iterators.length := length_set
      by_cases hcur : s.cur = []
      · rw [if_pos hcur]
        obtain ⟨hheap', hperm⟩ := Queue.pop_spec (compares (u.iterators.set i s)) hheap hdata
        have hnil := hperm.eq_nil
        refine ⟨hheap', by rw [hnil]; exact nodup_nil, fun j => ?_, ?_⟩
        · rw [hnil, hlenset]
          exact ⟨fun hj => absurd hj not_mem_nil, fun hj => absurd hcur (hstand j hj.1 hj.2).2.some⟩
        · rw [hlenset]
          exact h.queued.size
      · rw [if_neg hcur]
        have hs : s.Stands := hsettled.resolve_right fun ho => hcur ho.none
        refine ⟨hheap, h.queued.nodup, fun j => ?_, by rw [hlenset]; exact h.queued.size⟩
        rw [hdata, mem_singleton, hlenset]
        constructor
        · rintro rfl
          refine ⟨hi, ?_⟩
          rw [getD_set hi, if_pos rfl]
          exact hs
        · exact fun hj => (hstand j hj.1 hj.2).1
    refine ⟨out, _, X', rfl, hX, ⟨h'.asc, fun x => ?_, fun t ht => ?_, hqueued, ⟨fun x hx => ?_, ?_⟩, ?_⟩, rfl, hlen,
      fun _ hlt => (hfull hlt).1⟩
    · rw [h'.mem x]
      exact and_congr_left' (hahead x).symm
    · rcases mem_or_eq_of_mem_set ht with ht | rfl
      · exact h.settled t ht
      · exact hsettled
    · exact h'.valid x ((hahead x).mp hx)
    · exact h'.passed.imp_right fun hp x hx => hp x ((hahead x).mp hx)
    · dsimp only
      omega
  · rw [if_neg hone]
    refine ⟨[], u, X, rfl, rfl, h, rfl, Nat.zero_le _, fun hle _ => h.eq_nil (length_eq_zero_iff.mp ?_)⟩
    omega

variable {R : IteratorState → IteratorState → Prop}

theorem forall₂_size (hR : ∀ s s', R s s' → s'.rows.length ≤ s.rows.length) :
    ∀ {its its' : List IteratorState}, List.Forall₂ R its its' → size its' ≤ size its
  | [], [], .nil => le_refl _
  | _ :: _, _ :: _, .cons h hs => add_le_add (hR _ _ h) (forall₂_size hR hs)

theorem forall₂_ahead {x : RowID} {p : Prop} (hR : ∀ s s', R s s' → (x ∈ s'.rows ↔ x ∈ s.rows ∧ p)) :
    ∀ {its its' : List IteratorState}, List.Forall₂ R its its' → (Ahead its' x ↔ Ahead its x ∧ p)
  | [], [], .nil => by simp [Ahead]
  | s :: its, s' :: its', .cons h hs => by
    have ih := forall₂_ahead hR hs
    simp only [Ahead, mem_cons, exists_eq_or_imp] at ih ⊢
    rw [ih, hR _ _ h, or_and_right]

theorem queued_nil (its : List IteratorState) : Queued 0 its { size := its.length } where
  heap := fun j _ hj => absurd hj (Nat.not_lt_zero j)
  nodup := nodup_nil
  mem := fun i => ⟨fun h => absurd h not_mem_nil, fun h => absurd h.1 (Nat.not_lt_zero i)⟩
  size := rfl

/-- **The union gives the rows of its iterators.** -/
theorem gives (k : Nat) : Gives (iter k) rowsLeft (To k) where
  hint := fun u X row h => by
    show ∃ b s' gone X', hintRowID k row u = some (b, s') ∧ _
    rw [hintRowID]
    by_cases hnil : u.merge.data = []
    · rw [if_pos hnil]
      exact ⟨false, u, [], X, rfl, rfl, forall_mem_nil _, h, rfl, fun _ => h.eq_nil hnil⟩
    · rw [if_neg hnil]
      by_cases hle : row ≤ rowOf u.iterators (u.merge.data.getLastD 0)
      · rw [if_pos hle]
        exact ⟨true, u, [], X, rfl, rfl, forall_mem_nil _, h, rfl, fun hf => absurd hf.symm Bool.false_ne_true⟩
      · rw [if_neg hle]
        have hstart : Queued ([] : List IteratorState).length u.iterators { u.merge with data := [] } := by
          have := queued_nil u.iterators
          rw [← h.queued.size] at this
          exact this
        obtain ⟨its, q, hrefill, hall, hq, hsettled⟩ := refill_spec (f := fun s => if s.cur ≠ [] then rewindTo k row s else some (false, s))
          (R := fun s s' => (∃ gone, s.rows = gone ++ s'.rows ∧ ∀ x ∈ gone, x < row) ∧ ∀ x ∈ s'.rows, row ≤ x)
          u.iterators [] { u with merge := { u.merge with data := [] } } rfl hstart fun s hs => by
            rcases h.settled s hs with hs' | hs'
            · have hfuel := Nat.lt_of_le_of_lt (mem_rows_le_size hs) h.fuel
              obtain ⟨r, hr, hrew⟩ := rewindTo_spec row k s hs' hfuel
              refine ⟨r.1, r.2, by rw [if_pos hs'.some]; exact hr, ⟨hrew.rows, fun x hx => ?_⟩, fun hb => (hrew.found hb).1, hrew.ended⟩
              cases hb : r.1 with
              | true => exact Nat.le_trans (hrew.found hb).2 ((hrew.found hb).1.head_le hx)
              | false =>
                rw [rows_of_stopped (hrew.ended hb).stopped] at hx
                exact absurd hx not_mem_nil
            · refine ⟨false, s, by rw [if_neg fun hne => hne hs'.none], ⟨⟨[], rfl, forall_mem_nil _⟩, fun x hx => ?_⟩,
                fun hf => absurd hf Bool.false_ne_true, fun _ => hs'⟩
              rw [rows_of_stopped hs'.stopped] at hx
              exact absurd hx not_mem_nil
        rw [length_nil, nil_append] at hrefill
        simp only [hrefill, bind_eq_bind, bind_some]
        have hahead : ∀ x, Ahead its x ↔ Ahead u.iterators x ∧ row ≤ x := fun x => by
          refine forall₂_ahead (fun s s' hR => ?_) hall
          obtain ⟨⟨gone, hgone, hlow⟩, hge⟩ := hR
          rw [hgone, List.mem_append]
          exact ⟨fun hx => ⟨.inr hx, hge x hx⟩, fun hx => hx.1.resolve_left fun hg => Nat.not_le_of_lt (hlow x hg) hx.2⟩
        have hto : To k { u with iterators := its, merge := q } (X.filter fun x => row ≤ x) := by
          refine ⟨List.Pairwise.filter _ h.asc, fun x => ?_, hsettled, hq, ⟨fun x hx => h.passed.1 x ((hahead x).mp hx).1, ?_⟩, ?_⟩
          · rw [mem_filter, h.mem x, decide_eq_true_iff, hahead x, and_right_comm]
          · exact h.passed.2.imp_right fun hp x hx => hp x ((hahead x).mp hx).1
          · refine Nat.lt_of_le_of_lt (forall₂_size (fun s s' hR => ?_) hall) h.fuel
            obtain ⟨⟨gone, hgone, -⟩, -⟩ := hR
            rw [hgone, length_append]
            exact Nat.le_add_left _ _
        refine ⟨_, _, X.filter (fun x => ¬ row ≤ x), X.filter (fun x => row ≤ x), rfl, append_of_cut h.asc ?_, fun x hx => ?_,
          hto, rfl, fun hb => ?_⟩
        · exact fun x _ y _ hx hy => Nat.lt_of_lt_of_le (Nat.not_le.mp hx) hy
        · exact Nat.not_le.mp (of_decide_eq_true (mem_filter.mp hx).2)
        · exact hto.eq_nil (Classical.not_not.mp (of_decide_eq_false hb))
  next := fun u X h => by
    show ∃ out s' X', getNextRowIdBlock k u = some (out, s') ∧ _
    obtain ⟨out, u₁, X₁, hmerge, rfl, h₁, hleft₁, hlen₁, hfull₁⟩ := mergeLoop_spec k (min (MAX_COLLECTED - 1) u.rowsLeft) u X h h.fuel
    obtain ⟨more, u₂, X₂, htail, rfl, h₂, hleft₂, hlen₂, hfull₂⟩ := collectTail_spec (min (MAX_COLLECTED - 1) u.rowsLeft - out.length) h₁
    rw [getNextRowIdBlock]
    simp only [hmerge, htail, bind_eq_bind, bind_some]
    have hlen : (out ++ more).length ≤ min (MAX_COLLECTED - 1) u.rowsLeft := by
      rw [length_append]
      omega
    refine ⟨out ++ more, _, X₂, rfl, (append_assoc _ _ _).symm, ⟨h₂.asc, h₂.mem, h₂.settled, h₂.queued, h₂.passed, h₂.fuel⟩,
      by rw [hleft₂, hleft₁], Nat.le_trans hlen (Nat.min_le_right _ _),
      Nat.lt_of_le_of_lt (Nat.le_trans hlen (Nat.min_le_left _ _)) (by decide), fun hnil => ?_⟩
    obtain ⟨hout, hmore⟩ := append_eq_nil_iff.mp hnil
    rcases Nat.eq_zero_or_pos u.rowsLeft with hzero | hpos
    · exact .inl hzero
    · right
      have hroom : 0 < min (MAX_COLLECTED - 1) u.rowsLeft := Nat.lt_min.mpr ⟨by decide, hpos⟩
      rw [hout, length_nil] at hfull₁ hfull₂
      rw [hmore, length_nil] at hfull₂
      exact hfull₂ (hfull₁ hroom) hroom

end Blocks

end Union
/-! ## Inputs -/

/-- An input iterator before the first call: ascending rows in blocks of any sizes. -/
structure Input where
  blocks : List (List RowID)
  hinter : Hinter
  full : ∀ b ∈ blocks, b ≠ []
  asc : blocks.flatten.Pairwise (· < ·)
  valid : ∀ x ∈ blocks.flatten, x < invalidRowID

/-- The rows of an input within the limits. -/
def Input.rows (boundaries : Option (RowID × RowID)) (i : Input) : List RowID := i.blocks.flatten.filter (inBounds boundaries)

def Input.state (boundaries : Option (RowID × RowID)) (i : Input) : IteratorState := { blocks := i.blocks, hinter := i.hinter, boundaries }

section Inputs
variable {boundaries : Option (RowID × RowID)} {i : Input} {inputs : List Input}

theorem Input.rows_state : (i.state boundaries).rows = i.rows boundaries := rows_of_going rfl

theorem Input.ok (i : Input) (boundaries : Option (RowID × RowID)) : (i.state boundaries).Ok := ⟨i.full, i.asc⟩

theorem Input.warmupDocs (i : Input) (boundaries : Option (RowID × RowID)) : ∃ ok s,
    (i.state boundaries).warmupDocs = (ok, s) ∧ s.rows = i.rows boundaries ∧
    (ok = true → s.Stands) ∧ (ok = false → s.Over) := by
  rcases warmupDocs_spec (i.ok boundaries) rfl with ⟨hnil, hstop⟩ | ⟨s, hsome, hs, hrows⟩
  · refine ⟨false, _, hstop, ?_, fun hf => absurd hf Bool.false_ne_true, fun _ => (i.ok boundaries).over_stop⟩
    exact hnil.symm
  · exact ⟨true, s, hsome, hrows, fun _ => hs, fun hf => absurd hf.symm Bool.false_ne_true⟩

theorem Input.rows_asc : (i.rows boundaries).Pairwise (· < ·) := List.Pairwise.filter _ i.asc

/-- All rows of all inputs. -/
def totalRows (inputs : List Input) : Nat := (inputs.map fun i => i.blocks.flatten.length).sum

theorem Input.length_rows_le (boundaries : Option (RowID × RowID)) (h : i ∈ inputs) : (i.rows boundaries).length ≤ totalRows inputs :=
  le_trans (length_filter_le _ _) (le_sum_of_mem (mem_map_of_mem (f := fun i : Input => i.blocks.flatten.length) h))

theorem Intersect.to_create (boundaries : Option (RowID × RowID)) (k : Nat) (first : Input) (others : List Input) (cutoff : Nat)
    (hk : (totalRows (first :: others) + 1) * (others.length + 2) < k) :
    ∃ X, Intersect.To k k (Intersect.create (first.state boundaries) (others.map (Input.state boundaries)) cutoff) X ∧ X.length < k ∧
      ∀ x, x ∈ X ↔ ∀ i ∈ first :: others, x ∈ i.rows boundaries := by
  obtain ⟨ok, s, hwarm, hrows, hstands, hover⟩ := first.warmupDocs boundaries
  have hsize : ∀ i ∈ first :: others, (i.rows boundaries).length < k := fun i hi => by
    have h1 := Input.length_rows_le boundaries hi
    have h2 : (totalRows (first :: others) + 1) * 1 ≤ (totalRows (first :: others) + 1) * (others.length + 2) :=
      Nat.mul_le_mul_left _ (by omega)
    omega
  have hcommon : ∀ x, Intersect.Common s (others.map (Input.state boundaries)) x ↔
      ∀ i ∈ first :: others, x ∈ i.rows boundaries := fun x => by
    rw [Intersect.Common, hrows, forall_mem_cons, forall_mem_map]
    exact and_congr_right fun _ => forall₂_congr fun i _ => by rw [Input.rows_state]
  have hfirst : (Intersect.create (first.state boundaries) (others.map (Input.state boundaries)) cutoff).first = s := by
    show (first.state boundaries).warmupDocs.2 = s
    rw [hwarm]
  refine ⟨(first.rows boundaries).filter fun x => ∀ i ∈ others, x ∈ i.rows boundaries,
    ⟨List.Pairwise.filter _ first.rows_asc, fun x => ?_, ?_, le_refl k⟩, ?_,
    fun x => ?_⟩
  · rw [hfirst, mem_filter, decide_eq_true_iff]
    have := hcommon x
    rw [forall_mem_cons] at this
    exact this.symm
  · rw [hfirst]
    cases ok with
    | false => exact .inl (hover rfl)
    | true =>
      refine .inr ⟨hstands rfl, fun t ht => ?_, ?_⟩
      · obtain ⟨i, hi, rfl⟩ := mem_map.mp ht
        exact ⟨i.ok boundaries, rfl, by rw [Input.rows_state]; exact hsize i (mem_cons_of_mem _ hi)⟩
      · show s.rows.length * ((others.map _).length + 1) + (others.map _).length < k
        rw [hrows, length_map]
        have h1 := Nat.mul_le_mul_right (others.length + 1) (Input.length_rows_le boundaries (mem_cons_self (a := first) (l := others)))
        have h2 : (totalRows (first :: others) + 1) * (others.length + 2) =
            totalRows (first :: others) * (others.length + 1) + totalRows (first :: others) + (others.length + 2) := by ring
        omega
  · exact lt_of_le_of_lt (length_filter_le _ _) (hsize first mem_cons_self)
  · rw [mem_filter, decide_eq_true_iff, forall_mem_cons]

theorem Union.to_create (boundaries : Option (RowID × RowID)) (k : Nat) (inputs : List Input) (cutoff : Nat) (hk : totalRows inputs < k) :
    ∃ u X, Union.create (inputs.map (Input.state boundaries)) cutoff = some u ∧ Union.To k u X ∧ u.rowsLeft = cutoff ∧ X.length < k ∧
      ∀ x, x ∈ X ↔ ∃ i ∈ inputs, x ∈ i.rows boundaries := by
  obtain ⟨its, q, hrefill, hall, hq, hsettled⟩ := Union.refill_spec (f := fun s => some s.warmupDocs) (R := fun s s' => s'.rows = s.rows)
    (inputs.map (Input.state boundaries)) []
    { iterators := inputs.map (Input.state boundaries), merge := { size := (inputs.map (Input.state boundaries)).length },
      rowsLeft := cutoff } rfl
    (Union.queued_nil _) fun s hs => by
      obtain ⟨i, -, rfl⟩ := mem_map.mp hs
      obtain ⟨ok, t, hwarm, hrows, hstands, hover⟩ := i.warmupDocs boundaries
      exact ⟨ok, t, by rw [hwarm], hrows.trans Input.rows_state.symm, hstands, hover⟩
  have hahead : ∀ x, Union.Ahead its x ↔ ∃ i ∈ inputs, x ∈ i.rows boundaries := fun x => by
    have h := Union.forall₂_ahead (p := True) (x := x) (fun s s' (hR : s'.rows = s.rows) => by rw [hR, and_true]) hall
    rw [h, and_true, Union.Ahead]
    constructor
    · rintro ⟨s, hs, hx⟩
      obtain ⟨i, hi, rfl⟩ := mem_map.mp hs
      exact ⟨i, hi, Input.rows_state ▸ hx⟩
    · rintro ⟨i, hi, hx⟩
      exact ⟨_, mem_map_of_mem hi, Input.rows_state ▸ hx⟩
  have hvalid : ∀ x, Union.Ahead its x → x < invalidRowID := fun x hx => by
    obtain ⟨i, -, hx⟩ := (hahead x).mp hx
    exact i.valid x (mem_filter.mp hx).1
  have hsize : Union.size its ≤ totalRows inputs := by
    refine le_trans (Union.forall₂_size (fun s s' (hR : s'.rows = s.rows) => le_of_eq (by rw [hR])) hall) ?_
    rw [Union.size, map_map]
    refine sum_le_sum fun i _ => ?_
    show (i.state boundaries).rows.length ≤ _
    rw [Input.rows_state]
    exact length_filter_le _ _
  have hsort : ∀ x, x ∈ ((its.flatMap (·.rows)).toFinset.sort (· ≤ ·)) ↔ Union.Ahead its x := fun x => by
    rw [Finset.mem_sort, mem_toFinset, mem_flatMap]
    rfl
  refine ⟨_, (its.flatMap (·.rows)).toFinset.sort (· ≤ ·), hrefill,
    ⟨Finset.sortedLT_sort _ |>.pairwise, fun x => ?_, hsettled, hq, ⟨hvalid, .inl rfl⟩, ?_⟩, rfl, ?_, fun x => ?_⟩
  · rw [hsort x]
    exact ⟨fun hx => ⟨hx, ne_of_lt (hvalid x hx)⟩, fun hx => hx.1⟩
  · exact lt_of_le_of_lt hsize hk
  · rw [Finset.length_sort]
    refine lt_of_le_of_lt (le_trans (toFinset_card_le _) ?_) hk
    rw [length_flatMap]
    exact hsize
  · rw [hsort x, hahead x]

end Inputs

/-- **The iterators of the secondary index are exact.**  For inputs with any blocks and any hints of their own, with or
without limits, and for any calls with non-decreasing hints: the intersection returns the rows that all inputs have, the
union those that some input has. -/
theorem intersect_union_exact (inputs : List Input) (boundaries : Option (RowID × RowID)) (cutoff : Nat) (hcut : cutoff ≤ INT_MAX)
    (calls : List Call) (hmono : (hints calls).Pairwise (· ≤ ·)) (k : Nat) (hk : (totalRows inputs + 1) * (inputs.length + 1) < k) :
    (∀ first others, inputs = first :: others →
      Returns (Intersect.iter k) (Intersect.create (first.state boundaries) (others.map (Input.state boundaries)) cutoff) cutoff calls k
        fun x => ∀ i ∈ inputs, x ∈ i.rows boundaries) ∧
    ∃ u, Union.create (inputs.map (Input.state boundaries)) cutoff = some u ∧
      Returns (Union.iter k) u cutoff calls k fun x => ∃ i ∈ inputs, x ∈ i.rows boundaries := by
  refine ⟨fun first others hinputs => ?_, ?_⟩
  · subst hinputs
    obtain ⟨X, hto, hlen, hX⟩ := Intersect.to_create boundaries k first others cutoff hk
    exact (Intersect.gives k k).returns hto hto.asc hX hcut rfl hmono hlen
  · have hk' : totalRows inputs < k := by
      have := Nat.mul_le_mul_left (totalRows inputs + 1) (Nat.le_add_left 1 inputs.length)
      omega
    obtain ⟨u, X, hcreate, hto, hleft, hlen, hX⟩ := Union.to_create boundaries k inputs cutoff hk'
    exact ⟨u, hcreate, (Union.gives k).returns hto hto.asc hX hcut hleft hmono hlen⟩

/-- Rows 1 and 3 in two blocks, and rows 3 and 4 in one. -/
def oneThree : Input := ⟨[[1], [3]], .none, by decide, by decide, by decide⟩

def threeFour : Input := ⟨[[3, 4]], .none, by decide, by decide, by decide⟩

theorem intersect_union_exact_oneThree : 2 ≤ INT_MAX ∧ (hints [.next, .hint 2]).Pairwise (· ≤ ·) ∧
    (totalRows [oneThree, threeFour] + 1) * 3 < 16 ∧
    (∀ first others, [oneThree, threeFour] = first :: others →
      Returns (Intersect.iter 16) (Intersect.create (first.state none) (others.map (Input.state none)) 2) 2 [.next, .hint 2] 16
        fun x => ∀ i ∈ [oneThree, threeFour], x ∈ i.rows none) ∧
    ∃ u, Union.create ([oneThree, threeFour].map (Input.state none)) 2 = some u ∧
      Returns (Union.iter 16) u 2 [.next, .hint 2] 16 fun x => ∃ i ∈ [oneThree, threeFour], x ∈ i.rows none :=
  ⟨by decide, by decide, by decide,
    intersect_union_exact [oneThree, threeFour] none 2 (by decide) [.next, .hint 2] (by decide) 16 (by decide)⟩

end RowidBlocks
end Manticore

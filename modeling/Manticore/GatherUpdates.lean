import Manticore.Arrays
/-!
# GatherUpdates — one list of updates out of those kept by several segments (`GatherUpdates`)

While segments or chunks are merged, the updates that arrive are kept with each of them.  `FromChunksOrSegments` joins the
lists: it takes an update that stands at the head of a list and that no other list holds further on.

A head that runs out is replaced by the last one while the tables stay where they are, so that a head may be compared with
the table of another list.  The updates are joined exactly when this never decides a round (`serializes_iff`).
-/
namespace Manticore
namespace GatherUpdates

open Arrays (removeFast visitFast visitAll visitAll_perm visitAll_filterMap metFast fast_perm)
open List

/-- The address of a `CSphAttrUpdate`. -/
abbrev UpdatePtr := Nat

/-- `PostponedUpdate_t`: an update and the rows of one segment that it touches. -/
structure PostponedUpdate (R : Type) where
  update : UpdatePtr
  rowsToUpdate : List R
deriving DecidableEq, Repr

variable {R : Type}

/-- `HashedUpd_t`: a hash keyed by the update, which is walked in the order of insertion. -/
abbrev HashedUpd (R : Type) := List (PostponedUpdate R)

namespace HashedUpd

def exists_ (t : HashedUpd R) (k : UpdatePtr) : Bool := t.any (fun p => p.update == k)

/-- A key that is there already is not added again. -/
def add (t : HashedUpd R) (p : PostponedUpdate R) : HashedUpd R := if t.exists_ p.update then t else t ++ [p]

end HashedUpd

/-- `HashedUpd_t::Iterator_c` on an entry; `next` is what `++` walks through. -/
structure Iterator (R : Type) where
  cur : PostponedUpdate R
  next : List (PostponedUpdate R)
deriving DecidableEq, Repr

/-- An iterator at the start of the entries; `none` is `end()`, a null pointer whatever the table. -/
def Iterator.begin : List (PostponedUpdate R) → Option (Iterator R)
  | [] => none
  | p :: ps => some ⟨p, ps⟩

namespace Iterator

def first (h : Iterator R) : UpdatePtr := h.cur.update

def succ (h : Iterator R) : Option (Iterator R) := Iterator.begin h.next

/-- The entries from the iterator on. -/
def entries (h : Iterator R) : List (PostponedUpdate R) := h.cur :: h.next

end Iterator

/-- `CanBePeeked`: no table holds the update unless the head of the same index stands on it. -/
def canBePeeked (a : UpdatePtr) (dUpdates : List (HashedUpd R)) (dHeads : List (Iterator R)) : Bool :=
  (dHeads.zip dUpdates).all (fun c => !(a != c.1.first && c.2.exists_ a))

/-- The loop of `Peek`, at index `j`: a head that runs out is replaced by the last one. -/
def peekFrom (a : UpdatePtr) : Nat → Nat → List (Iterator R) → List R → List (Iterator R) × List R
  | 0, _, dHeads, rows => (dHeads, rows)
  | n + 1, j, dHeads, rows =>
    match dHeads[j]? with
    | none => (dHeads, rows)
    | some h =>
      if a = h.first then
        match h.succ with
        | some h' => peekFrom a n (j + 1) (dHeads.set j h') (rows ++ h.cur.rowsToUpdate)
        | none => peekFrom a n j (removeFast dHeads j) (rows ++ h.cur.rowsToUpdate)
      else peekFrom a n (j + 1) dHeads rows

def peek (a : UpdatePtr) (dHeads : List (Iterator R)) (dSerialized : List (PostponedUpdate R)) :
    List (Iterator R) × List (PostponedUpdate R) :=
  let r := peekFrom a dHeads.length 0 dHeads []
  (r.1, dSerialized ++ [⟨a, r.2⟩])

/-- The `while` loop.  A round in which no head can be peeked changes nothing. -/
def serialize (dUpdates : List (HashedUpd R)) :
    Nat → List (Iterator R) → List (PostponedUpdate R) → Option (List (PostponedUpdate R))
  | 0, _, _ => none
  | n + 1, dHeads, dResult =>
    if dHeads.isEmpty then some dResult else
    match dHeads.find? (fun h => canBePeeked h.first dUpdates dHeads) with
    | none => serialize dUpdates n dHeads dResult
    | some h => let r := peek h.first dHeads dResult; serialize dUpdates n r.1 r.2

/-- `FromChunksOrSegments`; segments without postponed updates are passed over. -/
def fromChunksOrSegments (fuel : Nat) (lists : List (List (PostponedUpdate R))) : Option (List (PostponedUpdate R)) :=
  let dUpdates := (lists.filter (fun l => !l.isEmpty)).map (fun l => l.foldl HashedUpd.add [])
  serialize dUpdates fuel (dUpdates.filterMap Iterator.begin) []

/-! ## What the joined list is for -/

/-- The updates of a list, in its order. -/
def keys (l : List (PostponedUpdate R)) : List UpdatePtr := l.map PostponedUpdate.update

/-- The row entries that a list has for an update. -/
def rowsOf (u : UpdatePtr) (l : List (PostponedUpdate R)) : List R :=
  (l.filter (fun p => p.update == u)).flatMap PostponedUpdate.rowsToUpdate

/-- All lists are parts of one history of distinct updates. -/
def Chronological (lists : List (List (PostponedUpdate R))) : Prop :=
  ∃ history : List UpdatePtr, history.Nodup ∧ ∀ l ∈ lists, (keys l).Sublist history

/-- Every update once, with the rows of all lists, in an order that each list agrees with. -/
structure Gathered (lists : List (List (PostponedUpdate R))) (r : List (PostponedUpdate R)) : Prop where
  once : (keys r).Nodup
  held : ∀ u, u ∈ keys r ↔ ∃ l ∈ lists, u ∈ keys l
  rows : ∀ p ∈ r, p.rowsToUpdate.Perm (lists.flatMap (rowsOf p.update))
  order : ∀ l ∈ lists, (keys l).Sublist (keys r)

/-- The loop ends, with a joined list. -/
def Serializes (lists : List (List (PostponedUpdate R))) : Prop :=
  ∃ fuel r, fromChunksOrSegments fuel lists = some r ∧ Gathered lists r

/-! ## What `Peek` does -/

/-- What becomes of one head when the update is taken. -/
def turn (a : UpdatePtr) (h : Iterator R) : Option (Iterator R) := if a = h.first then h.succ else some h

def given (a : UpdatePtr) (h : Iterator R) : List R := if a = h.first then h.cur.rowsToUpdate else []

theorem peekFrom_eq (a : UpdatePtr) : ∀ (n j : Nat) (hs : List (Iterator R)) (rows : List R),
    peekFrom a n j hs rows = (visitFast (turn a) n j hs, rows ++ (metFast (turn a) n j hs).flatMap (given a))
  | 0, _, hs, rows => by
    rw [metFast, flatMap_nil, append_nil]
    rfl
  | n + 1, j, hs, rows => by
    rw [peekFrom, visitFast, metFast]
    cases hget : hs[j]? with
    | none => simp only [flatMap_nil, append_nil]
    | some h =>
      obtain ⟨hj, he⟩ := List.getElem?_eq_some_iff.mp hget
      dsimp only
      by_cases ha : a = h.first
      · have hg : given a h = h.cur.rowsToUpdate := if_pos ha
        rw [if_pos ha, turn, if_pos ha]
        cases h.succ with
        | some h' =>
          dsimp only
          rw [peekFrom_eq a n, flatMap_cons, hg, append_assoc]
        | none =>
          rw [peekFrom_eq a n, flatMap_cons, hg, append_assoc]
      · have hg : given a h = [] := if_neg ha
        have hset : hs.set j h = hs := by rw [← he, set_getElem_self]
        rw [if_neg ha, turn, if_neg ha]
        dsimp only
        rw [peekFrom_eq a n, flatMap_cons, hg, hset, nil_append]

theorem peek_spec (a : UpdatePtr) (hs : List (Iterator R)) (r : List (PostponedUpdate R)) :
    ∃ rows, peek a hs r = (visitAll (turn a) hs, r ++ [⟨a, rows⟩]) ∧ rows.Perm (hs.flatMap (given a)) := by
  refine ⟨(metFast (turn a) hs.length 0 hs).flatMap (given a), ?_, ?_⟩
  · rw [peek, peekFrom_eq]
    rfl
  · exact (fast_perm (turn a) hs.length [] hs rfl).2.flatMap_right _

/-! ## The lists, each cut where its head stands -/

/-- A list of updates: what has been taken from it, and the rest. -/
structure Part (R : Type) where
  taken : List (PostponedUpdate R)
  rest : List (PostponedUpdate R)

namespace Part

def whole (p : Part R) : List (PostponedUpdate R) := p.taken ++ p.rest

def head (p : Part R) : Option (Iterator R) := Iterator.begin p.rest

/-- The update leaves the rest if it stands at its head. -/
def take (a : UpdatePtr) (p : Part R) : Part R :=
  match p.rest with
  | [] => p
  | q :: rest => if a = q.update then ⟨p.taken ++ [q], rest⟩ else p

section
variable (a : UpdatePtr) (p : Part R)
include a p

theorem take_cases :
    (∃ q rest, p.rest = q :: rest ∧ q.update = a ∧ p.take a = ⟨p.taken ++ [q], rest⟩) ∨
    ((∀ q rest, p.rest = q :: rest → q.update ≠ a) ∧ p.take a = p) := by
  obtain ⟨taken, rest⟩ := p
  cases rest with
  | nil => exact .inr ⟨fun q rest h => (cons_ne_nil q rest h.symm).elim, rfl⟩
  | cons q rest =>
    by_cases ha : a = q.update
    · exact .inl ⟨q, rest, rfl, ha.symm, if_pos ha⟩
    · refine .inr ⟨fun q' rest' h hq => ?_, if_neg ha⟩
      rw [(List.cons.inj h).1] at ha
      exact ha hq.symm

theorem whole_take : (p.take a).whole = p.whole := by
  obtain ⟨q, rest, hrest, -, htake⟩ | ⟨-, htake⟩ := p.take_cases a
  · rw [htake, whole, whole, hrest, append_assoc]
    rfl
  · rw [htake]

theorem head_take : (p.take a).head = p.head.bind (turn a) := by
  obtain ⟨taken, rest⟩ := p
  cases rest with
  | nil => rfl
  | cons q rest =>
    change (if a = q.update then (⟨taken ++ [q], rest⟩ : Part R) else ⟨taken, q :: rest⟩).head =
      if a = q.update then Iterator.begin rest else some ⟨q, rest⟩
    split
    · rfl
    · rfl

theorem rest_take_suffix : (p.take a).rest <:+ p.rest := by
  obtain ⟨q, rest, hrest, -, htake⟩ | ⟨-, htake⟩ := p.take_cases a
  · rw [htake, hrest]
    exact suffix_cons _ _
  · rw [htake]

end

theorem take_head {p : Part R} {g : Iterator R} (hrest : p.rest = g.entries) :
    p.take g.first = ⟨p.taken ++ [g.cur], g.next⟩ := by
  rw [take, hrest]
  exact if_pos rfl

/-- The update stands nowhere in the rest but at its head. -/
def Free (a : UpdatePtr) (p : Part R) : Prop := a ∉ keys p.rest.tail

def gives (a : UpdatePtr) (p : Part R) : List R := p.head.toList.flatMap (given a)

variable {a u : UpdatePtr} {p : Part R}

theorem mem_keys_taken_take (h : u ∈ keys (p.take a).taken) :
    u ∈ keys p.taken ∨ u = a := by
  obtain ⟨q, rest, -, hq, htake⟩ | ⟨-, htake⟩ := p.take_cases a
  · rw [htake, keys, map_append, List.mem_append] at h
    exact h.imp_right (fun h => (mem_singleton.mp h).trans hq)
  · rw [htake] at h
    exact .inl h

theorem taken_sublist_take (a : UpdatePtr) (p : Part R) : (keys p.taken).Sublist (keys (p.take a).taken) := by
  obtain ⟨q, rest, -, -, htake⟩ | ⟨-, htake⟩ := p.take_cases a
  · rw [htake]
    exact (sublist_append_left _ _).map _
  · rw [htake]

theorem not_mem_rest_take (hfree : p.Free a) : a ∉ keys (p.take a).rest := by
  rw [Free] at hfree
  obtain ⟨q, rest, hrest, -, htake⟩ | ⟨hne, htake⟩ := p.take_cases a
  · rw [hrest] at hfree
    rw [htake]
    exact hfree
  · rw [htake]
    cases hrest : p.rest with
    | nil => exact not_mem_nil
    | cons q rest =>
      rw [hrest] at hfree
      exact not_mem_cons_of_ne_of_not_mem (fun h => hne q rest hrest h.symm) hfree

end Part

theorem rowsOf_append (u : UpdatePtr) (l m : List (PostponedUpdate R)) : rowsOf u (l ++ m) = rowsOf u l ++ rowsOf u m := by
  rw [rowsOf, filter_append, flatMap_append]
  rfl

theorem rowsOf_singleton_self (q : PostponedUpdate R) : rowsOf q.update [q] = q.rowsToUpdate := by
  have hf : [q].filter (fun p => p.update == q.update) = [q] := filter_cons_of_pos (beq_self_eq_true q.update)
  rw [rowsOf, hf]
  exact append_nil _

theorem rowsOf_eq_nil {u : UpdatePtr} {l : List (PostponedUpdate R)} (h : u ∉ keys l) : rowsOf u l = [] := by
  have hf : l.filter (fun p => p.update == u) = [] :=
    filter_eq_nil_iff.mpr (fun p hp he => h (mem_map.mpr ⟨p, hp, eq_of_beq he⟩))
  rw [rowsOf, hf]
  rfl

namespace Part

theorem rowsOf_take_self {a : UpdatePtr} {p : Part R} (h : a ∉ keys p.taken) : rowsOf a (p.take a).taken = p.gives a := by
  obtain ⟨q, rest, hrest, hq, htake⟩ | ⟨hne, htake⟩ := p.take_cases a
  · rw [htake, rowsOf_append, rowsOf_eq_nil h, ← hq, rowsOf_singleton_self, gives, head, hrest]
    exact (if_pos rfl).symm.trans (append_nil _).symm
  · rw [htake, rowsOf_eq_nil h, gives, head]
    cases hrest : p.rest with
    | nil => rfl
    | cons q rest =>
      have hg : given a ⟨q, rest⟩ = [] := if_neg (fun h => hne q rest hrest h.symm)
      exact (append_nil _).symm.trans (congrArg (· ++ []) hg.symm)

theorem rowsOf_take_of_ne {a u : UpdatePtr} {p : Part R} (h : u ≠ a) : rowsOf u (p.take a).taken = rowsOf u p.taken := by
  obtain ⟨q, rest, -, hq, htake⟩ | ⟨-, htake⟩ := p.take_cases a
  · have hu : u ∉ keys [q] := fun hm => h ((mem_singleton.mp hm).trans hq)
    rw [htake, rowsOf_append, rowsOf_eq_nil hu, append_nil]
  · rw [htake]

end Part

/-! ## One round keeps the lists joined -/

/-- What has been taken from the lists is joined, and none of it is left in a rest. -/
structure Joined (parts : List (Part R)) (hs : List (Iterator R)) (r : List (PostponedUpdate R)) : Prop where
  heads : hs.Perm (parts.filterMap Part.head)
  gathered : Gathered (parts.map Part.taken) r
  left : ∀ p ∈ parts, ∀ u ∈ keys p.rest, u ∉ keys r

variable {parts : List (Part R)} {hs : List (Iterator R)} {r : List (PostponedUpdate R)}
  {lists : List (List (PostponedUpdate R))}

theorem Joined.not_taken (h : Joined parts hs r) {a : UpdatePtr} (ha : a ∉ keys r) {p : Part R} (hp : p ∈ parts) :
    a ∉ keys p.taken :=
  fun hm => ha ((h.gathered.held a).mpr ⟨p.taken, mem_map.mpr ⟨p, hp, rfl⟩, hm⟩)

theorem mem_rest_of_head {p : Part R} {h : Iterator R} (hh : p.head = some h) : p.rest = h.entries := by
  obtain ⟨taken, rest⟩ := p
  cases rest with
  | nil => cases hh
  | cons q rest =>
    cases hh
    rfl

theorem flatMap_filterMap_head (a : UpdatePtr) (parts : List (Part R)) :
    (parts.filterMap Part.head).flatMap (given a) = parts.flatMap (Part.gives a) := by
  induction parts with
  | nil => rfl
  | cons p parts ih =>
    rw [flatMap_cons, ← ih, Part.gives]
    cases hp : p.head with
    | none =>
      rw [filterMap_cons_none hp]
      rfl
    | some h =>
      rw [filterMap_cons_some hp, flatMap_cons]
      exact congrArg (· ++ _) (append_nil _).symm

variable {g : Iterator R}

section
variable (h : Joined parts hs r) (hg : g ∈ hs)
include h hg

theorem Joined.mem_head : ∃ p ∈ parts, p.rest = g.entries := by
  obtain ⟨p, hp, hh⟩ := mem_filterMap.mp (h.heads.subset hg)
  exact ⟨p, hp, mem_rest_of_head hh⟩

theorem Joined.head_new : g.first ∉ keys r := by
  obtain ⟨p, hp, hrest⟩ := h.mem_head hg
  refine h.left p hp _ ?_
  rw [hrest]
  exact mem_cons_self

theorem Joined.gathered_peek {rows : List R}
    (hrows : rows.Perm (hs.flatMap (given g.first))) :
    Gathered ((parts.map (Part.take g.first)).map Part.taken) (r ++ [⟨g.first, rows⟩]) := by
  have hnew := h.head_new hg
  have hkeys : keys (r ++ [⟨g.first, rows⟩]) = keys r ++ [g.first] := map_append
  rw [map_map]
  refine ⟨?_, fun u => ?_, fun q hq => ?_, fun l hl => ?_⟩
  · rw [hkeys]
    exact nodup_append'.mpr ⟨h.gathered.once, nodup_singleton _, disjoint_singleton.mpr hnew⟩
  · rw [hkeys, List.mem_append, mem_singleton]
    constructor
    · rintro (hu | rfl)
      · obtain ⟨l, hl, hul⟩ := (h.gathered.held u).mp hu
        obtain ⟨p, hp, rfl⟩ := mem_map.mp hl
        exact ⟨_, mem_map.mpr ⟨p, hp, rfl⟩, (p.taken_sublist_take _).subset hul⟩
      · obtain ⟨p, hp, hrest⟩ := h.mem_head hg
        refine ⟨_, mem_map.mpr ⟨p, hp, rfl⟩, ?_⟩
        change g.first ∈ keys (p.take g.first).taken
        rw [Part.take_head hrest]
        exact mem_map.mpr ⟨g.cur, mem_append_right _ mem_cons_self, rfl⟩
    · rintro ⟨l, hl, hul⟩
      obtain ⟨p, hp, rfl⟩ := mem_map.mp hl
      exact (Part.mem_keys_taken_take hul).imp_left
        (fun hm => (h.gathered.held u).mpr ⟨p.taken, mem_map.mpr ⟨p, hp, rfl⟩, hm⟩)
  · rw [flatMap_map]
    obtain hq | hq := List.mem_append.mp hq
    · have hne : q.update ≠ g.first := fun he => hnew (he ▸ mem_map.mpr ⟨q, hq, rfl⟩)
      have hold := h.gathered.rows q hq
      rw [flatMap_map] at hold
      have hother : parts.flatMap (fun p => rowsOf q.update (p.take g.first).taken) =
          parts.flatMap (fun p => rowsOf q.update p.taken) := flatMap_congr (fun p _ => Part.rowsOf_take_of_ne hne)
      exact hold.trans (.of_eq hother.symm)
    · rw [mem_singleton.mp hq]
      have hself : parts.flatMap (fun p => rowsOf g.first (p.take g.first).taken) = parts.flatMap (Part.gives g.first) :=
        flatMap_congr (fun p hp => Part.rowsOf_take_self (h.not_taken hnew hp))
      refine hrows.trans ?_
      refine (h.heads.flatMap_right _).trans ?_
      rw [flatMap_filterMap_head, ← hself]
      rfl
  · obtain ⟨p, hp, rfl⟩ := mem_map.mp hl
    have hold := h.gathered.order p.taken (mem_map.mpr ⟨p, hp, rfl⟩)
    rw [hkeys]
    change (keys (p.take g.first).taken).Sublist _
    obtain ⟨q, rest, -, hq, htake⟩ | ⟨-, htake⟩ := p.take_cases g.first
    · rw [htake, keys, map_append, map_singleton, hq]
      exact hold.append (List.Sublist.refl _)
    · rw [htake]
      exact hold.trans (sublist_append_left _ _)

/-- **Taking an update that no rest holds past its head keeps the lists joined.** -/
theorem Joined.peek (hfree : ∀ p ∈ parts, p.Free g.first) :
    Joined (parts.map (Part.take g.first)) (peek g.first hs r).1 (peek g.first hs r).2 := by
  obtain ⟨rows, heq, hrows⟩ := peek_spec g.first hs r
  rw [heq]
  refine ⟨?_, h.gathered_peek hg hrows, fun p hp u hu => ?_⟩
  · refine ((visitAll_perm _ _).trans (h.heads.filterMap _)).trans (.of_eq ?_)
    rw [filterMap_filterMap, filterMap_map]
    exact filterMap_congr (fun p _ => (p.head_take g.first).symm)
  · obtain ⟨p, hold, rfl⟩ := mem_map.mp hp
    have hmem : u ∈ keys p.rest := (map_subset _ (p.rest_take_suffix g.first).subset) hu
    change u ∉ keys (r ++ [_])
    rw [keys, map_append, List.mem_append, not_or]
    refine ⟨h.left p hold u hmem, fun hlast => ?_⟩
    rw [mem_singleton.mp hlast] at hu
    exact Part.not_mem_rest_take (hfree p hold) hu

end

/-! ## The states of the loop -/

section Run

variable {rank : UpdatePtr → Nat} {a : UpdatePtr} {tables : List (HashedUpd R)}

/-- The state before a round of the `while` loop. -/
inductive Reached (tables : List (HashedUpd R)) : List (Iterator R) → List (PostponedUpdate R) → Prop
  | start : Reached tables (tables.filterMap Iterator.begin) []
  | round {hs : List (Iterator R)} {r : List (PostponedUpdate R)} {g : Iterator R} (h : Reached tables hs r)
    (hfind : hs.find? (fun g => canBePeeked g.first tables hs) = some g) :
    Reached tables (peek g.first hs r).1 (peek g.first hs r).2

/-- `CanBePeeked` lets a head through, and the first one that it lets through it would also let through if every head were
compared with its own list. -/
def Sound (tables : List (HashedUpd R)) (hs : List (Iterator R)) : Prop :=
  ∃ g, hs.find? (fun g => canBePeeked g.first tables hs) = some g ∧ canBePeeked g.first (hs.map Iterator.entries) hs = true

/-- The updates of the list are in the order of the history. -/
def Part.Ranked (rank : UpdatePtr → Nat) (p : Part R) : Prop := (keys p.whole).Pairwise (fun u v => rank u < rank v)

/-- A state of the loop with the parts of the lists that belong to it. -/
structure Run (rank : UpdatePtr → Nat) (tables : List (HashedUpd R)) (parts : List (Part R)) (hs : List (Iterator R))
    (r : List (PostponedUpdate R)) : Prop where
  whole  : parts.map Part.whole = tables
  joined : Joined parts hs r
  ranked : ∀ p ∈ parts, p.Ranked rank

theorem exists_iff {t : HashedUpd R} {k : UpdatePtr} : t.exists_ k = true ↔ k ∈ keys t := by
  rw [HashedUpd.exists_, any_eq_true, keys, mem_map]
  exact ⟨fun ⟨p, hp, he⟩ => ⟨p, hp, eq_of_beq he⟩, fun ⟨p, hp, he⟩ => ⟨p, hp, beq_iff_eq.mpr he⟩⟩

theorem canBePeeked_iff {t : List (HashedUpd R)} :
    canBePeeked a t hs = true ↔ ∀ c ∈ hs.zip t, a ≠ c.1.first → a ∉ keys c.2 := by
  rw [canBePeeked, all_eq_true]
  refine forall₂_congr (fun c _ => ?_)
  rw [Bool.not_eq_true', Bool.and_eq_false_imp, bne_iff_ne, ← exists_iff, Bool.not_eq_true]

theorem Part.Ranked.head_lt {p : Part R} (h : p.Ranked rank) (hrest : p.rest = g.entries) {u : UpdatePtr} (hu : u ∈ keys g.next)
    : rank g.first < rank u := by
  have hp : (keys p.rest).Pairwise (fun u v => rank u < rank v) := h.sublist ((sublist_append_right _ _).map _)
  rw [hrest] at hp
  exact (pairwise_cons.mp hp).1 u hu

/-- Compared with the lists themselves, an update passes when it stands in none of them past its head. -/
theorem canBePeeked_own_iff : canBePeeked a (hs.map Iterator.entries) hs = true ↔
    ∀ g ∈ hs, a ≠ g.first → a ∉ keys g.next := by
  have hzip : hs.zip (hs.map Iterator.entries) = hs.map (fun g => (g, g.entries)) := by
    have h := zip_map' (f := id) (g := Iterator.entries) (l := hs)
    rwa [map_id] at h
  rw [canBePeeked_iff, hzip, forall_mem_map]
  refine forall₂_congr (fun g _ => imp_congr_right (fun hne => not_congr ?_))
  exact mem_cons.trans (or_iff_right hne)

theorem rest_eq_nil {p : Part R} (h : p.head = none) : p.rest = [] := by
  obtain ⟨taken, rest⟩ := p
  cases rest with
  | nil => rfl
  | cons q rest => cases h

namespace Run

variable (h : Run rank tables parts hs r)
include h

theorem free_iff :
    (∀ p ∈ parts, p.Free g.first) ↔ canBePeeked g.first (hs.map Iterator.entries) hs = true := by
  rw [canBePeeked_own_iff]
  constructor
  · intro hfree g' hg' _
    obtain ⟨p, hp, hrest⟩ := h.joined.mem_head hg'
    have hf := hfree p hp
    rwa [Part.Free, hrest] at hf
  · intro hown p hp
    cases hhead : p.head with
    | none =>
      rw [Part.Free, rest_eq_nil hhead]
      exact not_mem_nil
    | some g' =>
      have hrest := mem_rest_of_head hhead
      rw [Part.Free, hrest]
      by_cases he : g.first = g'.first
      · rw [he]
        exact fun hm => lt_irrefl _ ((h.ranked p hp).head_lt hrest hm)
      · exact hown g' (h.joined.heads.symm.subset (mem_filterMap.mpr ⟨p, hp, hhead⟩)) he

theorem peek (hg : g ∈ hs) (hfree : ∀ p ∈ parts, p.Free g.first) :
    Run rank tables (parts.map (Part.take g.first)) (peek g.first hs r).1 (peek g.first hs r).2 := by
  refine ⟨?_, h.joined.peek hg hfree, fun p hp => ?_⟩
  · rw [← h.whole, map_map]
    exact map_congr_left (fun p _ => p.whole_take g.first)
  · obtain ⟨p, hold, rfl⟩ := mem_map.mp hp
    rw [Part.Ranked, p.whole_take]
    exact h.ranked p hold

theorem finished (hnil : hs = []) : Gathered tables r := by
  have hrest : ∀ p ∈ parts, p.taken = p.whole := by
    intro p hp
    have hheads := h.joined.heads
    rw [hnil] at hheads
    rw [Part.whole, rest_eq_nil (filterMap_eq_nil_iff.mp (nil_perm.mp hheads) p hp), append_nil]
  rw [← h.whole, ← map_congr_left hrest]
  exact h.joined.gathered

theorem sum_rest_lt (hg : g ∈ hs) :
    ((parts.map (Part.take g.first)).map (fun p => p.rest.length)).sum < (parts.map (fun p => p.rest.length)).sum := by
  obtain ⟨p, hp, hrest⟩ := h.joined.mem_head hg
  rw [map_map]
  refine sum_lt_sum _ _ (fun p _ => (p.rest_take_suffix _).length_le) ⟨p, hp, ?_⟩
  change (p.take g.first).rest.length < _
  rw [Part.take_head hrest, hrest]
  exact Nat.lt_succ_self _

end Run

/-! ## Rounds that take the right update -/

theorem serialize_round {n : Nat} (hfind : hs.find? (fun g => canBePeeked g.first tables hs) = some g) :
    serialize tables (n + 1) hs r = serialize tables n (peek g.first hs r).1 (peek g.first hs r).2 := by
  have hne : ¬ hs.isEmpty = true := by
    rw [List.isEmpty_iff]
    exact ne_nil_of_mem (mem_of_find?_eq_some hfind)
  rw [serialize, if_neg hne, hfind]

theorem Run.serialize (hsound : ∀ hs r, Reached tables hs r → hs ≠ [] → Sound tables hs) : ∀ (n : Nat) (parts : List (Part R))
    (hs : List (Iterator R)) (r : List (PostponedUpdate R)), (parts.map (fun p => p.rest.length)).sum < n →
    Run rank tables parts hs r → Reached tables hs r → ∃ fuel r', serialize tables fuel hs r = some r' ∧ Gathered tables r'
  | 0, _, _, _, hn, _, _ => absurd hn (Nat.not_lt_zero _)
  | n + 1, parts, hs, r, hn, hrun, hreach => by
    by_cases hne : hs = []
    · subst hne
      exact ⟨1, r, rfl, hrun.finished rfl⟩
    · obtain ⟨g, hfind, hown⟩ := hsound hs r hreach hne
      have hg := mem_of_find?_eq_some hfind
      obtain ⟨fuel, r', hend, hgath⟩ := Run.serialize hsound n _ _ _
        (lt_of_lt_of_le (hrun.sum_rest_lt hg) (Nat.le_of_lt_succ hn)) (hrun.peek hg (hrun.free_iff.mpr hown)) (hreach.round hfind)
      exact ⟨fuel + 1, r', (serialize_round hfind).trans hend, hgath⟩

/-! ## Rounds that do not -/

theorem serialize_stuck (hne : hs ≠ []) (hfind : hs.find? (fun g => canBePeeked g.first tables hs) = none) :
    ∀ n : Nat, serialize tables n hs r = none
  | 0 => rfl
  | n + 1 => by
    rw [serialize, if_neg (by rw [List.isEmpty_iff]; exact hne), hfind]
    exact serialize_stuck hne hfind n

theorem serialize_isPrefix : ∀ {n : Nat} {hs : List (Iterator R)} {r r' : List (PostponedUpdate R)},
    serialize tables n hs r = some r' → r <+: r'
  | 0, _, _, _, h => by cases h
  | n + 1, hs, r, r', h => by
    cases hfind : hs.find? (fun g => canBePeeked g.first tables hs) with
    | some g =>
      rw [serialize_round hfind] at h
      exact (prefix_append r _).trans (serialize_isPrefix h)
    | none =>
      by_cases hne : hs = []
      · subst hne
        cases h
        exact prefix_refl r
      · rw [serialize_stuck hne hfind] at h
        cases h

theorem mem_of_sublist_pair {u v : UpdatePtr} {l m : List UpdatePtr} (hnodup : (l ++ [v] ++ m).Nodup)
    (hsub : [u, v].Sublist (l ++ [v] ++ m)) : u ∈ l := by
  rw [append_assoc, singleton_append] at hnodup hsub
  obtain ⟨a, b, hab, hu, hv⟩ := sublist_append_iff.mp hsub
  have hvm : v ∉ m := (nodup_cons.mp (nodup_append'.mp hnodup).2.1).1
  cases a with
  | nil =>
    -- both would stand from the update on
    rw [nil_append] at hab
    rw [← hab] at hv
    rcases sublist_cons_iff.mp hv with hv | ⟨l', hl', hv⟩
    · exact (hvm (hv.subset (mem_cons_of_mem _ mem_cons_self))).elim
    · obtain ⟨-, rfl⟩ := List.cons.inj hl'
      exact (hvm (hv.subset mem_cons_self)).elim
  | cons x a =>
    obtain ⟨rfl, -⟩ := List.cons.inj hab
    exact hu.subset mem_cons_self

/-- **A loop that ends with a joined list made every choice soundly.** -/
theorem Run.sound (h : Run rank tables parts hs r) (hne : hs ≠ []) {n : Nat} {r' : List (PostponedUpdate R)}
    (hend : GatherUpdates.serialize tables n hs r = some r') (hgath : Gathered tables r') : Sound tables hs := by
  cases hfind : hs.find? (fun g => canBePeeked g.first tables hs) with
  | none =>
    rw [serialize_stuck hne hfind] at hend
    cases hend
  | some g =>
    refine ⟨g, hfind, ?_⟩
    cases n with
    | zero => cases hend
    | succ n =>
      rw [serialize_round hfind] at hend
      obtain ⟨tail, hr'⟩ := serialize_isPrefix hend
      have hkeys : keys r' = keys r ++ [g.first] ++ keys tail := by
        rw [← hr', keys, map_append]
        exact congrArg (· ++ _) map_append
      rw [canBePeeked_own_iff]
      intro g' hg' _ hmem
      -- the head of that list has to come before the update that was taken
      obtain ⟨p, hp, hrest⟩ := h.joined.mem_head hg'
      have hlist : (keys p.whole).Sublist (keys r') := hgath.order _ (h.whole ▸ mem_map_of_mem hp)
      have hpair : [g'.first, g.first].Sublist (keys p.whole) := by
        rw [Part.whole, hrest, keys, map_append]
        exact ((singleton_sublist.mpr hmem).cons_cons _).trans (sublist_append_right _ _)
      have honce := hgath.once
      rw [hkeys] at honce hlist
      exact h.joined.head_new hg' (mem_of_sublist_pair honce (hpair.trans hlist))

theorem Reached.run {P : List (Part R) → List (Iterator R) → List (PostponedUpdate R) → Prop}
    {parts₀ : List (Part R)} (h₀ : Run rank tables parts₀ (tables.filterMap Iterator.begin) [])
    (hstart : P parts₀ (tables.filterMap Iterator.begin) [])
    (hstep : ∀ parts hs r g, Run rank tables parts hs r → P parts hs r →
      hs.find? (fun g => canBePeeked g.first tables hs) = some g →
      (∀ p ∈ parts, p.Free g.first) ∧ P (parts.map (Part.take g.first)) (peek g.first hs r).1 (peek g.first hs r).2)
    (h : Reached tables hs r) : ∃ parts, Run rank tables parts hs r ∧ P parts hs r := by
  induction h with
  | start => exact ⟨parts₀, h₀, hstart⟩
  | round _ hfind ih =>
    obtain ⟨parts, hrun, hp⟩ := ih
    obtain ⟨hfree, hnext⟩ := hstep _ _ _ _ hrun hp hfind
    exact ⟨_, hrun.peek (mem_of_find?_eq_some hfind) hfree, hnext⟩

/-! ## Lists that run out from the last one on -/

/-- The heads stand in the order of the tables, and the lists that ran out are the last ones. -/
structure Aligned (parts : List (Part R)) (hs : List (Iterator R)) : Prop where
  order : hs = parts.filterMap Part.head
  ends  : parts.Pairwise (fun p q => p.head = none → q.head = none)

theorem Aligned.mem_zip : ∀ {parts : List (Part R)} {hs : List (Iterator R)}, Aligned parts hs → ∀ {c : Iterator R × _},
    c ∈ hs.zip (parts.map Part.whole) ↔ ∃ p ∈ parts, p.head = some c.1 ∧ p.whole = c.2
  | [], hs, _, c => by simp
  | p₀ :: parts, hs, h, c => by
    obtain ⟨hp₀, hparts⟩ := pairwise_cons.mp h.ends
    cases hhead : p₀.head with
    | none =>
      have hnil : hs = [] := by
        rw [h.order, filterMap_cons_none hhead]
        exact filterMap_eq_nil_iff.mpr (fun p hp => hp₀ p hp hhead)
      rw [hnil, zip_nil_left]
      refine ⟨fun hc => (not_mem_nil hc).elim, fun ⟨p, hp, hc, _⟩ => ?_⟩
      rcases mem_cons.mp hp with rfl | hp
      · rw [hhead] at hc
        cases hc
      · rw [hp₀ p hp hhead] at hc
        cases hc
    | some g₀ =>
      rw [h.order, filterMap_cons_some hhead, map_cons, zip_cons_cons, mem_cons, Aligned.mem_zip ⟨rfl, hparts⟩,
        exists_mem_cons_iff, hhead]
      refine or_congr_left ?_
      rw [Prod.ext_iff, Option.some_inj, eq_comm, eq_comm (a := c.2)]

/-- The head that comes first in the history can be taken. -/
theorem Aligned.exists_peekable (hal : Aligned parts hs) (h : Run rank tables parts hs r) (hne : hs ≠ []) :
    ∃ g ∈ hs, canBePeeked g.first tables hs = true := by
  obtain ⟨g, hg⟩ := Option.ne_none_iff_exists'.mp (fun h => hne (argmin_eq_none (f := fun g => rank g.first).mp h))
  have hmem := argmin_mem hg
  refine ⟨g, hmem, canBePeeked_iff.mpr (fun c hc hdiff => ?_)⟩
  rw [← h.whole] at hc
  obtain ⟨p, hp, hhead, hwhole⟩ := hal.mem_zip.mp hc
  have hrest := mem_rest_of_head hhead
  have hcg : c.1 ∈ hs := by
    rw [hal.order]
    exact mem_filterMap.mpr ⟨p, hp, hhead⟩
  rw [← hwhole, keys, Part.whole, map_append, List.mem_append]
  rintro (htaken | hleft)
  · exact h.joined.not_taken (h.joined.head_new hmem) hp htaken
  · rw [hrest] at hleft
    rcases mem_cons.mp hleft with he | hnext
    · exact hdiff he
    · exact not_lt.mpr (le_of_mem_argmin hcg hg) ((h.ranked p hp).head_lt hrest hnext)

/-- With heads and tables in one order, the check says what it should. -/
theorem Aligned.sound (hal : Aligned parts hs) (h : Run rank tables parts hs r) (hne : hs ≠ []) : Sound tables hs := by
  obtain ⟨g', hg', hc'⟩ := hal.exists_peekable h hne
  obtain ⟨g, hfind⟩ := Option.isSome_iff_exists.mp
    ((find?_isSome (p := fun g => canBePeeked g.first tables hs)).mpr ⟨g', hg', hc'⟩)
  have hc : canBePeeked g.first tables hs = true :=
    find?_some (p := fun g : Iterator R => canBePeeked g.first tables hs) hfind
  refine ⟨g, hfind, canBePeeked_own_iff.mpr (fun g' hg' hdiff hm => ?_)⟩
  rw [hal.order] at hg'
  obtain ⟨p, hp, hhead⟩ := mem_filterMap.mp hg'
  rw [← h.whole] at hc
  refine canBePeeked_iff.mp hc (g', p.whole) (hal.mem_zip.mpr ⟨p, hp, hhead, rfl⟩) hdiff ?_
  rw [Part.whole, mem_rest_of_head hhead]
  exact map_subset _ (subset_append_of_subset_right _ (subset_cons_self _ _)) hm

/-- No head has moved to another place, or one list is left: the order of the heads does not matter then. -/
def Steady (parts : List (Part R)) (hs : List (Iterator R)) : Prop := Aligned parts hs ∨ hs.length ≤ 1

theorem Steady.sound (hst : Steady parts hs) (h : Run rank tables parts hs r) (hne : hs ≠ []) : Sound tables hs := by
  rcases hst with hal | hone
  · exact hal.sound h hne
  · obtain ⟨g, rfl⟩ : ∃ g, hs = [g] := length_eq_one_iff.mp (le_antisymm hone (length_pos_iff.mpr hne))
    have hc : ∀ t : List (HashedUpd R), canBePeeked g.first t [g] = true := by
      refine fun t => canBePeeked_iff.mpr (fun c hc hdiff => (hdiff ?_).elim)
      rw [mem_singleton.mp (List.of_mem_zip hc).1]
    exact ⟨g, find?_cons_of_pos (hc tables), hc _⟩

/-- At most two lists, or lists each of which holds the last update of those after it. -/
def EndInOrder (lists : List (List (PostponedUpdate R))) : Prop :=
  lists.length ≤ 2 ∨ lists.Pairwise (fun l m => ∀ z ∈ (keys m).getLast?, z ∈ keys l)

theorem turn_eq_none (h : turn a g = none) : a = g.first ∧ g.next = [] := by
  rw [turn] at h
  split at h
  · rename_i ha
    refine ⟨ha, ?_⟩
    rw [Iterator.succ] at h
    cases hn : g.next with
    | nil => rfl
    | cons q rest =>
      rw [hn] at h
      cases h
  · cases h

theorem getLast?_whole {p : Part R} (hrest : p.rest = g.entries) :
    (keys p.whole).getLast? = (g.first :: keys g.next).getLast? := by
  rw [Part.whole, hrest, keys, map_append]
  exact getLast?_append_of_ne_nil _ (cons_ne_nil _ _)

/-- When a list runs out, so does every list whose last update it holds. -/
theorem turn_later (hj : Joined parts hs r) (hfree : ∀ p ∈ parts, p.Free a) {p q : Part R} (hp : p ∈ parts) (hq : q ∈ parts)
    (hlast : ∀ z ∈ (keys q.whole).getLast?, z ∈ keys p.whole) {g g' : Iterator R} (hg : p.rest = g.entries)
    (hg' : q.rest = g'.entries) (hend : turn a g = none) : turn a g' = none := by
  obtain ⟨ha, hnext⟩ := turn_eq_none hend
  obtain ⟨z, hz⟩ : ∃ z, (g'.first :: keys g'.next).getLast? = some z := ⟨_, getLast?_eq_some_getLast (cons_ne_nil _ _)⟩
  have hzq : z ∈ keys q.rest := by
    rw [hg']
    exact mem_of_getLast? hz
  have hzp : z ∈ keys p.whole := by
    refine hlast z ?_
    rw [getLast?_whole hg', hz]
    rfl
  have haz : z = a := by
    rw [Part.whole, keys, map_append, List.mem_append, hg] at hzp
    rcases hzp with htaken | hz
    · -- it would have been taken from the other list as well
      exact (hj.left q hq z hzq ((hj.gathered.held z).mpr ⟨p.taken, mem_map_of_mem hp, htaken⟩)).elim
    · rw [Iterator.entries, hnext, map_singleton, mem_singleton] at hz
      exact hz.trans ha.symm
  have hf := hfree q hq
  rw [Part.Free, hg'] at hf
  cases hn : g'.next with
  | nil =>
    rw [hn, haz] at hz
    have hga : a = g'.first := (Option.some.inj hz).symm
    rw [turn, if_pos hga, Iterator.succ, hn]
    rfl
  | cons x rest =>
    rw [haz, getLast?_cons_of_ne_nil (by rw [hn]; exact cons_ne_nil _ _)] at hz
    exact (hf (mem_of_getLast? hz)).elim

/-- The heads keep the order of the tables when those that run out are the last ones. -/
theorem Aligned.peek (hal : Aligned parts hs)
    (hturn : parts.Pairwise (fun p q => p.head.bind (turn a) = none → q.head.bind (turn a) = none)) :
    Aligned (parts.map (Part.take a)) (visitAll (turn a) hs) := by
  refine ⟨?_, pairwise_map.mpr (hturn.imp (fun {p q} h => ?_))⟩
  · rw [visitAll_filterMap, hal.order, filterMap_filterMap, filterMap_map]
    · exact filterMap_congr (fun p _ => (p.head_take a).symm)
    · rw [hal.order, pairwise_filterMap]
      refine hturn.imp (fun {p q} h g hg g' hg' hend => ?_)
      have hnone := h (by rw [hg]; exact hend)
      rwa [hg'] at hnone
  · rw [p.head_take, q.head_take]
    exact h

theorem Steady.peek (hst : Steady parts hs) (hj : Joined parts hs r) (hends : EndInOrder (parts.map Part.whole))
    (hfree : ∀ p ∈ parts, p.Free a) : Steady (parts.map (Part.take a)) (visitAll (turn a) hs) := by
  have hlen := (visitAll_perm (turn a) hs).length_eq
  rcases hst with hal | hone
  · rcases hends with htwo | hlast
    · by_cases hall : ∀ g ∈ hs, turn a g ≠ none
      · refine .inl (hal.peek (hal.ends.imp_of_mem (fun {p q} hp _ h hend => ?_)))
        cases hp' : p.head with
        | none =>
          rw [h hp']
          rfl
        | some g =>
          rw [hp'] at hend
          exact (hall g (hal.order ▸ mem_filterMap.mpr ⟨p, hp, hp'⟩) hend).elim
      · -- of two lists one is left
        right
        have hlt : (hs.filterMap (turn a)).length < hs.length := by
          refine Nat.lt_of_le_of_ne (length_filterMap_le _ _) (fun he => hall (fun g hg => ?_))
          exact Option.isSome_iff_ne_none.mp (filterMap_length_eq_length.mp he g hg)
        have hle : hs.length ≤ parts.length := by
          rw [hal.order]
          exact length_filterMap_le _ _
        rw [length_map] at htwo
        omega
    · refine .inl (hal.peek ?_)
      refine (hal.ends.and (pairwise_map.mp hlast)).imp_of_mem (fun {p q} hp hq h hend => ?_)
      cases hq' : q.head with
      | none => rfl
      | some g' =>
        cases hp' : p.head with
        | none =>
          rw [h.1 hp'] at hq'
          cases hq'
        | some g =>
          rw [hp'] at hend
          exact turn_later hj hfree hp hq h.2 (mem_rest_of_head hp') (mem_rest_of_head hq') hend
  · right
    rw [hlen]
    exact (length_filterMap_le _ _).trans hone

end Run

/-! ## From the segments -/

theorem foldl_add_eq : ∀ (t l : List (PostponedUpdate R)), (keys (t ++ l)).Nodup → l.foldl HashedUpd.add t = t ++ l
  | t, [], _ => by rw [append_nil, foldl_nil]
  | t, q :: l, h => by
    have hnew : HashedUpd.exists_ t q.update = false := by
      rw [← Bool.not_eq_true, exists_iff]
      intro hm
      rw [keys, map_append] at h
      exact (nodup_append'.mp h).2.2 hm mem_cons_self
    rw [foldl_cons, HashedUpd.add, if_neg (by rw [hnew]; exact Bool.false_ne_true), foldl_add_eq]
    · rw [append_assoc]
      rfl
    · rw [append_assoc]
      exact h

theorem Chronological.exists_rank (h : Chronological lists) :
    ∃ rank : UpdatePtr → Nat, ∀ l ∈ lists, (keys l).Pairwise (fun u v => rank u < rank v) := by
  obtain ⟨history, hnodup, hsub⟩ := h
  have hp : history.Pairwise (fun u v => history.idxOf u < history.idxOf v) := by
    rw [pairwise_iff_getElem]
    intro i j hi hj hij
    rw [hnodup.idxOf_getElem i hi, hnodup.idxOf_getElem j hj]
    exact hij
  exact ⟨history.idxOf, fun l hl => hp.sublist (hsub l hl)⟩

/-- The segments that hold postponed updates. -/
def holding (lists : List (List (PostponedUpdate R))) : List (List (PostponedUpdate R)) := lists.filter (fun l => !l.isEmpty)

theorem mem_holding {l : List (PostponedUpdate R)} : l ∈ holding lists ↔ l ∈ lists ∧ l ≠ [] := by
  rw [holding, mem_filter, Bool.not_eq_true', isEmpty_eq_false_iff]

theorem flatMap_holding (u : UpdatePtr) (lists : List (List (PostponedUpdate R))) :
    (holding lists).flatMap (rowsOf u) = lists.flatMap (rowsOf u) := by
  induction lists with
  | nil => rfl
  | cons l lists ih =>
    cases l with
    | nil => exact ih
    | cons q l => exact congrArg (rowsOf u (q :: l) ++ ·) ih

theorem Gathered.of_holding (h : Gathered (holding lists) r) : Gathered lists r := by
  refine ⟨h.once, fun u => ?_, fun q hq => ?_, fun l hl => ?_⟩
  · rw [h.held]
    constructor
    · rintro ⟨l, hl, hu⟩
      exact ⟨l, (mem_holding.mp hl).1, hu⟩
    · rintro ⟨l, hl, hu⟩
      exact ⟨l, mem_holding.mpr ⟨hl, fun he => not_mem_nil (he ▸ hu)⟩, hu⟩
  · rw [← flatMap_holding]
    exact h.rows q hq
  · by_cases he : l = []
    · rw [he]
      exact nil_sublist _
    · exact h.order l (mem_holding.mpr ⟨hl, he⟩)

theorem fromChunksOrSegments_eq {rank : UpdatePtr → Nat} (hrank : ∀ l ∈ lists, (keys l).Pairwise (fun u v => rank u < rank v))
    (fuel : Nat) :
    fromChunksOrSegments fuel lists = serialize (holding lists) fuel ((holding lists).filterMap Iterator.begin) [] := by
  have hadd : ∀ l ∈ holding lists, l.foldl HashedUpd.add [] = l := by
    intro l hl
    refine foldl_add_eq [] l ((hrank l (mem_holding.mp hl).1).imp (fun hlt he => ?_))
    rw [he] at hlt
    exact lt_irrefl _ hlt
  have hmap : (holding lists).map (fun l => l.foldl HashedUpd.add []) = holding lists := by
    rw [map_congr_left hadd, map_id']
  change serialize ((holding lists).map _) fuel (((holding lists).map _).filterMap Iterator.begin) [] = _
  rw [hmap]

variable {rank : UpdatePtr → Nat}

/-- The lists before the first round. -/
def fresh (lists : List (List (PostponedUpdate R))) : List (Part R) := (holding lists).map (fun l => ⟨[], l⟩)

theorem heads_fresh (lists : List (List (PostponedUpdate R))) :
    (holding lists).filterMap Iterator.begin = (fresh lists).filterMap Part.head := by
  rw [fresh, filterMap_map]
  rfl

theorem run_fresh (hrank : ∀ l ∈ lists, (keys l).Pairwise (fun u v => rank u < rank v)) :
    Run rank (holding lists) (fresh lists) ((holding lists).filterMap Iterator.begin) [] := by
  have htaken : ∀ l ∈ (fresh lists).map Part.taken, l = [] := by
    intro l hl
    rw [fresh, map_map] at hl
    obtain ⟨l', -, rfl⟩ := mem_map.mp hl
    rfl
  refine ⟨?_, ⟨.of_eq (heads_fresh lists), ⟨nodup_nil, fun u => ?_, fun q hq => (not_mem_nil hq).elim, fun l hl => ?_⟩,
    fun p hp u hu => not_mem_nil⟩, fun p hp => ?_⟩
  · rw [fresh, map_map]
    exact map_id _
  · refine ⟨fun h => (not_mem_nil h).elim, fun ⟨l, hl, hu⟩ => ?_⟩
    rw [htaken l hl] at hu
    exact hu
  · rw [htaken l hl]
  · obtain ⟨l, hl, rfl⟩ := mem_map.mp hp
    exact hrank l (mem_holding.mp hl).1

theorem aligned_fresh (lists : List (List (PostponedUpdate R))) :
    Aligned (fresh lists) ((holding lists).filterMap Iterator.begin) := by
  refine ⟨heads_fresh lists, pairwise_map.mpr (pairwise_of_forall_mem_list (fun l hl m _ hnone => ?_))⟩
  exact absurd (rest_eq_nil hnone) (mem_holding.mp hl).2

theorem serializes_of_sound (hrank : ∀ l ∈ lists, (keys l).Pairwise (fun u v => rank u < rank v))
    (hsound : ∀ hs r, Reached (holding lists) hs r → hs ≠ [] → Sound (holding lists) hs) : Serializes lists := by
  obtain ⟨fuel, r, hend, hgath⟩ := Run.serialize hsound _ _ _ _ (Nat.lt_succ_self _) (run_fresh hrank) .start
  exact ⟨fuel, r, (fromChunksOrSegments_eq hrank fuel).trans hend, hgath.of_holding⟩

/-- **Lists that run out from the last one on are joined.** -/
theorem serializes_of_endInOrder (hchron : Chronological lists) (hends : EndInOrder (holding lists)) : Serializes lists := by
  obtain ⟨rank, hrank⟩ := hchron.exists_rank
  have hrun : ∀ hs r, Reached (holding lists) hs r → ∃ parts, Run rank (holding lists) parts hs r ∧ Steady parts hs := by
    intro hs r hreach
    refine hreach.run (P := fun parts hs _ => Steady parts hs) (run_fresh hrank) (.inl (aligned_fresh lists)) ?_
    intro parts hs r g hrun hst hfind
    obtain ⟨g', hfind', hown⟩ := hst.sound hrun (ne_nil_of_mem (mem_of_find?_eq_some hfind))
    cases hfind.symm.trans hfind'
    have hfree := hrun.free_iff.mpr hown
    obtain ⟨rows, heq, -⟩ := peek_spec g.first hs r
    rw [heq]
    exact ⟨hfree, hst.peek hrun.joined (hrun.whole ▸ hends) hfree⟩
  refine serializes_of_sound hrank (fun hs r hreach hne => ?_)
  obtain ⟨parts, hrun, hst⟩ := hrun hs r hreach
  exact hst.sound hrun hne

/-! ## When the updates are joined -/

theorem Gathered.holding (h : Gathered lists r) : Gathered (holding lists) r := by
  refine ⟨h.once, fun u => ?_, fun q hq => ?_, fun l hl => h.order l (mem_holding.mp hl).1⟩
  · rw [h.held]
    constructor
    · rintro ⟨l, hl, hu⟩
      exact ⟨l, mem_holding.mpr ⟨hl, fun he => not_mem_nil (he ▸ hu)⟩, hu⟩
    · rintro ⟨l, hl, hu⟩
      exact ⟨l, (mem_holding.mp hl).1, hu⟩
  · rw [flatMap_holding]
    exact h.rows q hq

/-- **The updates of any segments are joined if and only if, before every round, the heads are compared with tables that say
of the head that is taken what their own lists say.** -/
theorem serializes_iff (hchron : Chronological lists) :
    Serializes lists ↔ ∀ hs r, Reached (holding lists) hs r → hs ≠ [] → Sound (holding lists) hs := by
  obtain ⟨rank, hrank⟩ := hchron.exists_rank
  refine ⟨fun ⟨fuel, r', hend, hgath⟩ hs r hreach hne => ?_, serializes_of_sound hrank⟩
  rw [fromChunksOrSegments_eq hrank] at hend
  obtain ⟨parts, hrun, n, hend⟩ := hreach.run
    (P := fun _ hs r => ∃ n, serialize (holding lists) n hs r = some r') (run_fresh hrank) ⟨fuel, hend⟩ (by
      rintro parts hs r g hrun ⟨n, hend⟩ hfind
      obtain ⟨g', hfind', hown⟩ := hrun.sound (ne_nil_of_mem (mem_of_find?_eq_some hfind)) hend hgath.holding
      cases hfind.symm.trans hfind'
      refine ⟨hrun.free_iff.mpr hown, ?_⟩
      cases n with
      | zero => cases hend
      | succ n => exact ⟨n, (serialize_round hfind).symm.trans hend⟩)
  exact hrun.sound hne hend hgath.holding

/-- Three segments of which each holds what the next one does: no head is ever compared with a wrong table. -/
theorem serializes_iff_nested :
    Chronological [[⟨1, [10]⟩, ⟨2, [11]⟩, ⟨3, [12]⟩], [⟨1, [20]⟩, ⟨2, [21]⟩], [(⟨1, [30]⟩ : PostponedUpdate Nat)]] ∧
    ∀ hs r, Reached [[⟨1, [10]⟩, ⟨2, [11]⟩, ⟨3, [12]⟩], [⟨1, [20]⟩, ⟨2, [21]⟩], [(⟨1, [30]⟩ : PostponedUpdate Nat)]] hs r →
      hs ≠ [] → Sound [[⟨1, [10]⟩, ⟨2, [11]⟩, ⟨3, [12]⟩], [⟨1, [20]⟩, ⟨2, [21]⟩], [(⟨1, [30]⟩ : PostponedUpdate Nat)]] hs := by
  have hchron : Chronological [[⟨1, [10]⟩, ⟨2, [11]⟩, ⟨3, [12]⟩], [⟨1, [20]⟩, ⟨2, [21]⟩], [(⟨1, [30]⟩ : PostponedUpdate Nat)]] :=
    ⟨[1, 2, 3], by decide, by decide⟩
  exact ⟨hchron, (serializes_iff hchron).mp (serializes_of_endInOrder hchron (.inr (by decide)))⟩

theorem serialize_succ {t : List (HashedUpd R)} : ∀ {n : Nat} {hs : List (Iterator R)} {r r' : List (PostponedUpdate R)},
    serialize t n hs r = some r' → serialize t (n + 1) hs r = some r'
  | 0, _, _, _, h => by cases h
  | n + 1, hs, r, r', h => by
    rw [serialize] at h ⊢
    split at h
    · rename_i hempty
      rw [if_pos hempty]
      exact h
    · rename_i hempty
      rw [if_neg hempty]
      cases hfind : hs.find? (fun g => canBePeeked g.first t hs) with
      | none =>
        rw [hfind] at h
        exact serialize_succ h
      | some g =>
        rw [hfind] at h
        exact serialize_succ h

theorem serialize_unique {t : List (HashedUpd R)} {n m : Nat} {r₁ r₂ : List (PostponedUpdate R)}
    (h₁ : serialize t n hs r = some r₁) (h₂ : serialize t m hs r = some r₂) : r₁ = r₂ := by
  have more : ∀ {n : Nat} {r' : List (PostponedUpdate R)} (k : Nat), serialize t n hs r = some r' →
      serialize t (n + k) hs r = some r' := by
    intro n r' k h
    induction k with
    | zero => exact h
    | succ k ih => exact serialize_succ ih
  have e₁ := more m h₁
  rw [add_comm, more n h₂] at e₁
  exact (Option.some.inj e₁).symm

/-- Three segments: the second runs out first, and the third update comes out twice, once before the second one. -/
theorem gather_three_segments :
    Chronological [[⟨3, [10]⟩], [⟨1, [20]⟩], [⟨2, [30]⟩, (⟨3, [31]⟩ : PostponedUpdate Nat)]] ∧
    fromChunksOrSegments 5 [[⟨3, [10]⟩], [⟨1, [20]⟩], [⟨2, [30]⟩, (⟨3, [31]⟩ : PostponedUpdate Nat)]] =
      some [⟨1, [20]⟩, ⟨3, [10]⟩, ⟨2, [30]⟩, ⟨3, [31]⟩] ∧
    ¬ Serializes [[⟨3, [10]⟩], [⟨1, [20]⟩], [⟨2, [30]⟩, (⟨3, [31]⟩ : PostponedUpdate Nat)]] := by
  refine ⟨⟨[1, 2, 3], by decide, by decide⟩, by decide, ?_⟩
  rintro ⟨fuel, r, hrun, hgath⟩
  have hr : r = [⟨1, [20]⟩, ⟨3, [10]⟩, ⟨2, [30]⟩, ⟨3, [31]⟩] := serialize_unique (m := 5) hrun rfl
  rw [hr] at hgath
  exact absurd hgath.once (by decide)

end GatherUpdates
end Manticore

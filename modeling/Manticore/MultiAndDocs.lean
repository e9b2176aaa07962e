import Mathlib
import Manticore.ExtNodeRun
/-!
# MultiAndDocs — the documents of the multi-keyword AND (`ExtMultiAnd_T::GetDocsChunk`)

The node works on the readers of its keywords.  Keyword 0 leads: the others are moved to its row in turn, and when one of
them overshoots, the leader is moved to where that one stands and the turn starts again.

`ISphQword::AdvanceTo` always reads the next document, so a reader moved to a row it stands on would lose it; the reader of
a disk index stays there.  The end of a reader is the row `INVALID_ROWID`.
-/
namespace Manticore
namespace MultiAnd

open ExtNode (RowID invalidRowID MAX_BLOCK_DOCS Posting Ascending Skipper ExtTerm ExtDoc Call Visit rows returned hints lastHint postingsOf)
open Sweep (Side Yields Told History)
open List
open Option (bind_eq_bind bind_some not_mem_none)

variable {W : Type}

/-- A keyword with its posting list: `found` is the answer of `QwordSetup`, `keeps` tells the `AdvanceTo` of its reader. -/
structure Qword (W : Type) where
  postings : List Posting
  ascending : Ascending postings
  found : Bool
  missing : found = false → postings = []
  reader : Skipper
  keeps : Bool
  queriedFields : FieldMask
  hasWideFields : Bool
  weight : Nat → W

/-- The keyword as a node of its own. -/
def Qword.term (w : Qword W) : ExtTerm W where
  docs := w.postings.length
  postings := w.postings
  reader := w.reader
  queriedFields := w.queriedFields
  hasWideFields := w.hasWideFields
  boundaries := none
  weight := w.weight

/-- `FitsFields`, at a document -/
def Qword.fitsFields (w : Qword W) (p : Posting) : Bool := w.term.fieldsMatch p

/-- `NodeInfo_t`: `current` is the document the reader stands on, `left` what it has still to return. -/
structure NodeInfo (W : Type) where
  word : Qword W
  current : Option Posting := none
  left : List Posting
  rowID : RowID := invalidRowID

/-- The loop of `AdvanceTo`. -/
def readTo (row : RowID) : List Posting → Option Posting × List Posting
  | [] => (none, [])
  | p :: ps => if p.rowID < row then readTo row ps else (some p, ps)

/-- `AdvanceTo` of the reader -/
def NodeInfo.advanceTo (n : NodeInfo W) (row : RowID) : Option Posting × List Posting :=
  if n.word.keeps ∧ n.current.any fun p => row ≤ p.rowID then (n.current, n.left)
  else readTo row (n.word.reader.skip row n.left)

/-- The loop of `Advance ( iNode )`. -/
def nextFit (w : Qword W) : List Posting → Option Posting × List Posting
  | [] => (none, [])
  | p :: ps => if w.fitsFields p then (some p, ps) else nextFit w ps

/-- `Advance ( iNode )` -/
def NodeInfo.advance (n : NodeInfo W) : NodeInfo W :=
  let r := nextFit n.word n.left
  { n with current := r.1, left := r.2, rowID := (r.1.map (·.rowID)).getD invalidRowID }

/-- The loop of `Advance ( iNode, tRowID )`, over the document read and those after it; `maxRow` is the upper limit of the
`ROWID_LIMITS` variant. -/
def settle (w : Qword W) (maxRow : Option RowID) : List Posting → Option Posting × List Posting × RowID
  | [] => (none, [], invalidRowID)
  | p :: ps =>
    if maxRow.any (· < p.rowID) then (some p, ps, invalidRowID)
    else if w.fitsFields p then (some p, ps, p.rowID)
    else settle w maxRow ps

/-- `Advance ( iNode, tRowID )` -/
def NodeInfo.advanceRow (maxRow : Option RowID) (n : NodeInfo W) (row : RowID) : NodeInfo W :=
  if row = n.rowID then n
  else
    let r := n.advanceTo row
    let t := settle n.word maxRow (r.1.toList ++ r.2)
    { n with current := t.1, left := t.2.1, rowID := t.2.2 }

/-- `AdvanceQwords`: the keywords of `done` stand at the leader's row, those of `todo` are still to be moved. -/
def advanceQwords (maxRow : Option RowID) : Nat → NodeInfo W → List (NodeInfo W) → List (NodeInfo W) →
    Option (Bool × NodeInfo W × List (NodeInfo W))
  | 0, _, _, _ => none
  | _ + 1, first, done, [] => some (true, first, done)
  | fuel + 1, first, done, cur :: todo =>
    if cur.rowID = first.rowID then advanceQwords maxRow fuel first (done ++ [cur]) todo
    else
      let cur := cur.advanceRow maxRow first.rowID
      if cur.rowID = invalidRowID then some (false, first, done ++ cur :: todo)
      else if first.rowID < cur.rowID then
        let first := first.advanceRow maxRow cur.rowID
        if first.rowID = invalidRowID then some (false, first, done ++ cur :: todo)
        else advanceQwords maxRow fuel first [] (done ++ cur :: todo)
      else advanceQwords maxRow fuel first (done ++ [cur]) todo

/-- More than the turns of `AdvanceQwords`: it starts again only when the leader has read a document. -/
def rounds (first : NodeInfo W) (others : List (NodeInfo W)) : Nat := (first.left.length + 1) * (others.length + 1) + 1

/-- `ExtMultiAnd_T` -/
structure ExtMultiAnd (W : Type) where
  firstChunk : Bool := true
  nodesSet : Nat
  first : NodeInfo W
  others : List (NodeInfo W)
  boundaries : Option (RowID × RowID)

def ExtMultiAnd.maxRow (m : ExtMultiAnd W) : Option RowID := m.boundaries.map (·.2)

/-- The document the keywords stand at: `GetDocFieldsMask`, `GetTFIDF`. -/
def docOf [Add W] [Zero W] (row : RowID) (nodes : List (NodeInfo W)) : ExtDoc W where
  rowID := row
  docFields := nodes.foldl (fun mask n => mask ||| (n.current.elim 0 fun p => (n.word.term.toDoc p).docFields)) 0
  tfidf := nodes.foldl (fun sum n => sum + (n.current.elim 0 fun p => (n.word.term.toDoc p).tfidf)) 0

/-- The loop of `GetDocsChunk`, with the number of documents the chunk has room for. -/
def fill [Add W] [Zero W] : Nat → ExtMultiAnd W → Option (List (ExtDoc W) × ExtMultiAnd W)
  | 0, m => some ([], m)
  | room + 1, m =>
    if m.first.rowID = invalidRowID then some ([], m)
    else
      (advanceQwords m.maxRow (rounds m.first m.others) m.first [] m.others).bind fun (ok, first, others) =>
        if !ok then some ([], { m with first := { first with rowID := invalidRowID }, others := others })
        else (fill room { m with first := first.advance, others := others }).map fun (docs, m) =>
          (docOf first.rowID (first :: others) :: docs, m)

def ExtMultiAnd.docs (m : ExtMultiAnd W) : Nat := m.first.word.postings.length

def getDocsChunk [Add W] [Zero W] (m : ExtMultiAnd W) : Option (List (ExtDoc W) × ExtMultiAnd W) :=
  if m.firstChunk then
    if m.nodesSet ≠ m.others.length + 1 ∨ m.docs = 0 then some ([], m)
    else
      let first := match m.boundaries with
        | some b => m.first.advanceRow m.maxRow b.1
        | none => m.first.advance
      fill (MAX_BLOCK_DOCS - 1) { m with first, firstChunk := false }
  else fill (MAX_BLOCK_DOCS - 1) m

def hintRowID (m : ExtMultiAnd W) (row : RowID) : ExtMultiAnd W :=
  if m.docs = 0 then m
  else
    let row := (m.boundaries.map fun b => max row b.1).getD row
    if m.firstChunk ∨ m.first.rowID ≠ invalidRowID ∧ m.first.rowID < row then
      if m.firstChunk ∧ m.nodesSet ≠ m.others.length + 1 then m
      else { m with first := m.first.advanceRow m.maxRow row, firstChunk := false }
    else m

/-- `Reset`; the constructor has put the keyword with the fewest documents first, which nothing below depends on. -/
def ExtMultiAnd.create (first : Qword W) (others : List (Qword W)) (boundaries : Option (RowID × RowID)) : ExtMultiAnd W where
  nodesSet := (first :: others).countP (·.found)
  first := { word := first, left := first.postings }
  others := others.map fun w => { word := w, left := w.postings }
  boundaries := boundaries

/-- A caller's calls, in order. -/
def run [Add W] [Zero W] : RowID → ExtMultiAnd W → List Call → Option (List (Visit W) × ExtMultiAnd W)
  | _, m, [] => some ([], m)
  | _, m, .hint row :: calls => run row (hintRowID m row) calls
  | last, m, .get :: calls => do
    let (docs, m) ← getDocsChunk m
    let (visits, m) ← run last m calls
    some (⟨last, docs⟩ :: visits, m)

/-- Repeated `GetDocsChunk` calls until one returns null. -/
def drainDocs [Add W] [Zero W] : Nat → ExtMultiAnd W → Option (List (ExtDoc W))
  | 0, _ => none
  | fuel + 1, m => do
    let (docs, m) ← getDocsChunk m
    match docs with
    | [] => some []
    | d :: ds => do
      let rest ← drainDocs fuel m
      some (d :: ds ++ rest)

/-! ## A keyword's reader -/

/-- A row a keyword can still come to: the one it stands at, or a later one in its fields. -/
def NodeInfo.Avail (n : NodeInfo W) (x : RowID) : Prop :=
  n.rowID ≠ invalidRowID ∧ x = n.rowID ∨ ∃ p ∈ n.left, n.word.fitsFields p = true ∧ p.rowID = x

/-- A reader that was not started, or stands at a document of the keyword's fields. -/
structure Live (n : NodeInfo W) : Prop where
  asc : Ascending n.left
  stands : n.current = none ∧ n.rowID = invalidRowID ∨
    ∃ p, n.current = some p ∧ n.rowID = p.rowID ∧ ∀ q ∈ n.left, p.rowID < q.rowID

/-- Beyond the upper limit. -/
def Above (maxRow : Option RowID) (x : RowID) : Prop := ∃ m ∈ maxRow, m < x

variable {x : RowID} {n : NodeInfo W}

section Reader
variable {w : Qword W} {maxRow : Option RowID}

theorem any_lt_iff : maxRow.any (· < x) = true ↔ Above maxRow x := by
  cases maxRow <;> simp [Above]

theorem readTo_spec (row : RowID) : ∀ ps : List Posting, Ascending ps →
    ∃ gone, ps = gone ++ ((readTo row ps).1.toList ++ (readTo row ps).2) ∧ (∀ p ∈ gone, p.rowID < row) ∧
      (∀ p ∈ (readTo row ps).1, row ≤ p.rowID) ∧ ((readTo row ps).1 = none → (readTo row ps).2 = [])
  | [], _ => ⟨[], rfl, forall_mem_nil _, fun p hp => absurd hp (not_mem_none p), fun _ => rfl⟩
  | p :: ps, hasc => by
    rw [readTo]
    by_cases hlt : p.rowID < row
    · rw [if_pos hlt]
      obtain ⟨gone, heq, hgone, hrest⟩ := readTo_spec row ps hasc.of_cons
      exact ⟨p :: gone, by rw [cons_append, ← heq], forall_mem_cons.mpr ⟨hlt, hgone⟩, hrest⟩
    · rw [if_neg hlt]
      refine ⟨[], rfl, forall_mem_nil _, fun q hq => ?_, fun h => by cases h⟩
      cases hq
      exact Nat.le_of_not_lt hlt

/-- The loop ends at the first document of the keyword's fields, or at one beyond the limit, or at the end. -/
theorem settle_spec (w : Qword W) (maxRow : Option RowID) : ∀ ps : List Posting, Ascending ps →
    (∃ gone p rest, ps = gone ++ p :: rest ∧ settle w maxRow ps = (some p, rest, p.rowID) ∧ w.fitsFields p = true ∧
      ¬ Above maxRow p.rowID ∧ ∀ q ∈ gone, w.fitsFields q = false) ∨
    ((settle w maxRow ps).2.2 = invalidRowID ∧ ∀ p ∈ ps, w.fitsFields p = true → Above maxRow p.rowID)
  | [], _ => .inr ⟨rfl, forall_mem_nil _⟩
  | p :: ps, hasc => by
    rw [settle]
    by_cases habove : maxRow.any (· < p.rowID) = true
    · rw [if_pos habove]
      refine .inr ⟨rfl, fun q hq _ => ?_⟩
      obtain ⟨m, hm, hlt⟩ := any_lt_iff.mp habove
      rcases mem_cons.mp hq with rfl | hq
      · exact ⟨m, hm, hlt⟩
      · exact ⟨m, hm, lt_trans hlt (rel_of_pairwise_cons hasc hq)⟩
    · rw [if_neg habove]
      cases hfit : w.fitsFields p with
      | true => exact .inl ⟨[], p, ps, rfl, rfl, hfit, fun h => habove (any_lt_iff.mpr h), forall_mem_nil _⟩
      | false =>
        rcases settle_spec w maxRow ps hasc.of_cons with ⟨gone, q, rest, heq, hset, hq, hno, hgone⟩ | ⟨hend, hall⟩
        · exact .inl ⟨p :: gone, q, rest, by rw [heq, cons_append], hset, hq, hno, forall_mem_cons.mpr ⟨hfit, hgone⟩⟩
        · refine .inr ⟨hend, fun q hq hfq => ?_⟩
          rcases mem_cons.mp hq with rfl | hq
          · rw [hfit] at hfq
            cases hfq
          · exact hall q hq hfq

theorem nextFit_spec (w : Qword W) : ∀ ps : List Posting, Ascending ps →
    (∃ gone p rest, ps = gone ++ p :: rest ∧ nextFit w ps = (some p, rest) ∧ w.fitsFields p = true ∧
      ∀ q ∈ gone, w.fitsFields q = false) ∨
    (nextFit w ps = (none, []) ∧ ∀ p ∈ ps, w.fitsFields p = false)
  | [], _ => .inr ⟨rfl, forall_mem_nil _⟩
  | p :: ps, hasc => by
    rw [nextFit]
    cases hfit : w.fitsFields p with
    | true => exact .inl ⟨[], p, ps, rfl, rfl, hfit, forall_mem_nil _⟩
    | false =>
      rcases nextFit_spec w ps hasc.of_cons with ⟨gone, q, rest, heq, hnext, hq, hgone⟩ | ⟨hend, hall⟩
      · exact .inl ⟨p :: gone, q, rest, by rw [heq, cons_append], hnext, hq, forall_mem_cons.mpr ⟨hfit, hgone⟩⟩
      · exact .inr ⟨hend, forall_mem_cons.mpr ⟨hfit, hall⟩⟩

/-- **A keyword that has read up to a posting that fits** can come to what is not read. -/
theorem avail_read (n : NodeInfo W) {gone rest : List Posting} {p : Posting} (hfit : n.word.fitsFields p = true)
    (hgone : ∀ q ∈ gone, n.word.fitsFields q = false) (x : RowID) :
    NodeInfo.Avail { n with current := some p, left := rest, rowID := p.rowID } x ↔
      ∃ q ∈ gone ++ p :: rest, n.word.fitsFields q = true ∧ q.rowID = x := by
  constructor
  · rintro (⟨-, rfl⟩ | ⟨q, hq, hfq, rfl⟩)
    · exact ⟨p, by simp, hfit, rfl⟩
    · exact ⟨q, mem_append_right _ (mem_cons_of_mem _ hq), hfq, rfl⟩
  · rintro ⟨q, hq, hfq, rfl⟩
    rcases List.mem_append.mp hq with hq | hq
    · rw [hgone q hq] at hfq
      cases hfq
    · rcases mem_cons.mp hq with rfl | hq
      · exact .inl ⟨ne_of_lt q.valid, rfl⟩
      · exact .inr ⟨q, hq, hfq, rfl⟩

theorem live_read (n : NodeInfo W) {gone rest : List Posting} {p : Posting} (hasc : Ascending (gone ++ p :: rest)) :
    Live { n with current := some p, left := rest, rowID := p.rowID } := by
  have hascp := (pairwise_append.mp hasc).2.1
  exact ⟨hascp.of_cons, .inr ⟨p, rfl, rfl, fun q hq => rel_of_pairwise_cons hascp hq⟩⟩

/-- **A keyword moved to a later row** comes to its first row from there on, or there is none up to the limit. -/
theorem advanceRow_spec (maxRow : Option RowID) (hn : Live n) {row : RowID} (hne : row ≠ n.rowID)
    (hlater : n.rowID = invalidRowID ∨ n.rowID < row) :
    (n.advanceRow maxRow row).word = n.word ∧
    ((Live (n.advanceRow maxRow row) ∧ (n.advanceRow maxRow row).rowID ≠ invalidRowID ∧ row ≤ (n.advanceRow maxRow row).rowID ∧
      ¬ Above maxRow (n.advanceRow maxRow row).rowID ∧ (n.advanceRow maxRow row).left.length < n.left.length ∧
      ∀ x, (n.advanceRow maxRow row).Avail x ↔ n.Avail x ∧ row ≤ x) ∨
    ((n.advanceRow maxRow row).rowID = invalidRowID ∧ ∀ x, n.Avail x → row ≤ x → Above maxRow x)) := by
  -- the reader does not stay where it is
  have hmoves : n.advanceTo row = readTo row (n.word.reader.skip row n.left) := by
    rw [NodeInfo.advanceTo, if_neg]
    rintro ⟨-, hstay⟩
    rcases hn.stands with ⟨hnone, -⟩ | ⟨p, hp, hrow, -⟩
    · rw [hnone] at hstay
      cases hstay
    · rw [hp, Option.any_some, decide_eq_true_iff] at hstay
      rcases hlater with hinv | hlt
      · exact ne_of_lt p.valid (hrow.symm.trans hinv)
      · rw [← hrow] at hstay
        exact Nat.not_le_of_lt hlt hstay
  obtain ⟨skipped, hskip, hskipped⟩ := n.word.reader.dropped row n.left hn.asc
  have hasc' : Ascending (n.word.reader.skip row n.left) := by
    have := hn.asc
    rw [hskip] at this
    exact (pairwise_append.mp this).2.1
  obtain ⟨read, hread, hgone, hfirst, hend⟩ := readTo_spec row _ hasc'
  generalize hr : readTo row (n.word.reader.skip row n.left) = r at hread hfirst hend hmoves
  have hsplit : n.left = skipped ++ read ++ (r.1.toList ++ r.2) := by rw [append_assoc, ← hread, ← hskip]
  have hascr : Ascending (r.1.toList ++ r.2) := by
    have := hn.asc
    rw [hsplit] at this
    exact (pairwise_append.mp this).2.1
  have hlow : ∀ p ∈ skipped ++ read, p.rowID < row := fun p hp =>
    (List.mem_append.mp hp).elim (hskipped p) (hgone p)
  have hhigh : ∀ p ∈ r.1.toList ++ r.2, row ≤ p.rowID := by
    intro p hp
    rcases r with ⟨_ | q, rest⟩
    · cases hend rfl
      cases hp
    · rcases mem_cons.mp hp with rfl | hp
      · exact hfirst _ rfl
      · exact le_of_lt (lt_of_le_of_lt (hfirst q rfl) (rel_of_pairwise_cons hascr hp))
  -- what the keyword can come to from the row on is what was not read
  have havail : ∀ x, n.Avail x ∧ row ≤ x ↔ ∃ p ∈ r.1.toList ++ r.2, n.word.fitsFields p = true ∧ p.rowID = x := by
    intro x
    constructor
    · rintro ⟨⟨hinv, rfl⟩ | ⟨p, hp, hfit, rfl⟩, hle⟩
      · rcases hlater with h | h
        · exact absurd h hinv
        · exact absurd hle (Nat.not_le_of_lt h)
      · rw [hsplit] at hp
        rcases List.mem_append.mp hp with hp | hp
        · exact absurd hle (Nat.not_le_of_lt (hlow p hp))
        · exact ⟨p, hp, hfit, rfl⟩
    · rintro ⟨p, hp, hfit, rfl⟩
      exact ⟨.inr ⟨p, by rw [hsplit]; exact mem_append_right _ hp, hfit, rfl⟩, hhigh p hp⟩
  have heq : n.advanceRow maxRow row = { n with
      current := (settle n.word maxRow (r.1.toList ++ r.2)).1, left := (settle n.word maxRow (r.1.toList ++ r.2)).2.1,
      rowID := (settle n.word maxRow (r.1.toList ++ r.2)).2.2 } := by
    rw [NodeInfo.advanceRow, if_neg hne, hmoves]
  rw [heq]
  refine ⟨rfl, ?_⟩
  rcases settle_spec n.word maxRow _ hascr with ⟨gone, p, rest, hps, hset, hfit, hno, hgone'⟩ | ⟨hinv, hall⟩
  · rw [hset]
    left
    have hp : p ∈ r.1.toList ++ r.2 := by rw [hps]; simp
    refine ⟨live_read n (hps ▸ hascr), ne_of_lt p.valid, hhigh p hp, hno, ?_, fun x => ?_⟩
    · have hlen := congrArg List.length hsplit
      rw [hps] at hlen
      simp only [length_append, length_cons] at hlen
      show rest.length < n.left.length
      omega
    · rw [havail x, hps]
      exact avail_read n hfit hgone' x
  · right
    refine ⟨hinv, fun x hx hle => ?_⟩
    obtain ⟨p, hp, hfit, rfl⟩ := (havail x).mp ⟨hx, hle⟩
    exact hall p hp hfit

/-- **The leader's next row.** -/
theorem advance_spec (hn : Live n) :
    n.advance.word = n.word ∧ Live n.advance ∧ (n.advance.rowID ≠ invalidRowID → n.advance.left.length < n.left.length) ∧
      (n.rowID ≠ invalidRowID → n.advance.rowID ≠ invalidRowID → n.rowID < n.advance.rowID) ∧
      (∀ x, n.advance.Avail x ↔ n.Avail x ∧ (n.rowID ≠ invalidRowID → n.rowID < x)) ∧
      (n.advance.rowID = invalidRowID → ∀ x, ¬ n.advance.Avail x) := by
  have hstand : ∀ p ∈ n.left, n.rowID ≠ invalidRowID → n.rowID < p.rowID := by
    intro p hp hne
    rcases hn.stands with ⟨-, hinv⟩ | ⟨q, -, hrow, hlt⟩
    · exact absurd hinv hne
    · rw [hrow]
      exact hlt p hp
  have havail : ∀ x, n.Avail x ∧ (n.rowID ≠ invalidRowID → n.rowID < x) ↔
      ∃ p ∈ n.left, n.word.fitsFields p = true ∧ p.rowID = x := by
    intro x
    constructor
    · rintro ⟨⟨hinv, rfl⟩ | h, hlt⟩
      · exact absurd (hlt hinv) (lt_irrefl _)
      · exact h
    · rintro ⟨p, hp, hfit, rfl⟩
      exact ⟨.inr ⟨p, hp, hfit, rfl⟩, hstand p hp⟩
  rcases nextFit_spec n.word n.left hn.asc with ⟨gone, p, rest, hps, hnext, hfit, hgone⟩ | ⟨hnext, hall⟩
  · have heq : n.advance = { n with current := some p, left := rest, rowID := p.rowID } := by
      rw [NodeInfo.advance, hnext]
      rfl
    have hp : p ∈ n.left := by rw [hps]; simp
    rw [heq]
    refine ⟨rfl, live_read n (hps ▸ hn.asc), ?_, fun hne _ => hstand p hp hne, fun x => ?_, fun hinv => absurd hinv (ne_of_lt p.valid)⟩
    · intro _
      show rest.length < n.left.length
      rw [hps, length_append, length_cons]
      omega
    · rw [havail x, hps]
      exact avail_read n hfit hgone x
  · have heq : n.advance = { n with current := none, left := [], rowID := invalidRowID } := by
      rw [NodeInfo.advance, hnext]
      rfl
    have hnone : ∀ x, ¬ ({ n with current := none, left := [], rowID := invalidRowID } : NodeInfo W).Avail x := by
      rintro x (⟨hne, -⟩ | ⟨p, hp, -⟩)
      · exact hne rfl
      · cases hp
    rw [heq]
    refine ⟨rfl, ⟨.nil, .inl ⟨rfl, rfl⟩⟩, fun h => absurd rfl h, fun _ h => absurd rfl h, fun x => iff_of_false (hnone x) ?_,
      fun _ => hnone⟩
    rw [havail x]
    rintro ⟨p, hp, hfit, -⟩
    rw [hall p hp] at hfit
    cases hfit

theorem Live.avail_le (hn : Live n) (hne : n.rowID ≠ invalidRowID) (hx : n.Avail x) :
    n.rowID ≤ x := by
  rcases hx with ⟨-, rfl⟩ | ⟨p, hp, -, rfl⟩
  · exact le_refl _
  · rcases hn.stands with ⟨-, hinv⟩ | ⟨q, -, hrow, hlt⟩
    · exact absurd hinv hne
    · rw [hrow]
      exact le_of_lt (hlt p hp)

end Reader

/-! ## The turns of the keywords -/

/-- A row all keywords can still come to, up to the limit. -/
def Common (maxRow : Option RowID) (first : NodeInfo W) (others : List (NodeInfo W)) (x : RowID) : Prop :=
  first.Avail x ∧ (∀ n ∈ others, n.Avail x) ∧ ¬ Above maxRow x

/-- A keyword other than the leader: it never stands beyond the limit. -/
structure Held (maxRow : Option RowID) (n : NodeInfo W) : Prop extends Live n where
  below : n.rowID ≠ invalidRowID → ¬ Above maxRow n.rowID

section Turns
variable {maxRow : Option RowID} {first first' cur cur' : NodeInfo W} {done todo others : List (NodeInfo W)} {x : RowID}

/-- To move a keyword to the leader's row loses no common row. -/
theorem common_cur (hfirst : ∀ x, first.Avail x → first.rowID ≤ x) (h : ∀ x, cur'.Avail x ↔ cur.Avail x ∧ first.rowID ≤ x) :
    Common maxRow first (done ++ cur' :: todo) x ↔ Common maxRow first (done ++ cur :: todo) x := by
  unfold Common
  simp only [forall_mem_append, forall_mem_cons, h]
  constructor
  · rintro ⟨h1, ⟨h2, ⟨h3, -⟩, h4⟩, h5⟩
    exact ⟨h1, ⟨h2, h3, h4⟩, h5⟩
  · rintro ⟨h1, ⟨h2, h3, h4⟩, h5⟩
    exact ⟨h1, ⟨h2, ⟨h3, hfirst x h1⟩, h4⟩, h5⟩

theorem common_first (hcur : ∀ x, cur.Avail x → cur.rowID ≤ x) (hmem : cur ∈ others)
    (h : ∀ x, first'.Avail x ↔ first.Avail x ∧ cur.rowID ≤ x) : Common maxRow first' others x ↔ Common maxRow first others x := by
  unfold Common
  rw [h]
  constructor
  · rintro ⟨⟨h1, -⟩, h2, h3⟩
    exact ⟨h1, h2, h3⟩
  · rintro ⟨h1, h2, h3⟩
    exact ⟨⟨h1, hcur x (h2 cur hmem)⟩, h2, h3⟩

/-- What the turns come to: all keywords stand at the leader's row, or there is no common row. -/
structure Turned (maxRow : Option RowID) (first : NodeInfo W) (others : List (NodeInfo W)) (ok : Bool) (first' : NodeInfo W)
    (others' : List (NodeInfo W)) : Prop where
  word : first'.word = first.word
  words : others'.map (·.word) = others.map (·.word)
  left : ok = true → first'.left.length ≤ first.left.length
  met : ok = true → Live first' ∧ first'.rowID ≠ invalidRowID ∧ (∀ n ∈ others', Held maxRow n ∧ n.rowID = first'.rowID) ∧
    ∀ x, Common maxRow first' others' x ↔ Common maxRow first others x
  none : ok = false → ∀ x, ¬ Common maxRow first others x

/-- **The keywords meet at the first common row**, and no keyword is asked to move to a row it stands at or has passed. -/
theorem advanceQwords_spec : ∀ (fuel : Nat) (first : NodeInfo W) (done todo : List (NodeInfo W)), Live first →
    first.rowID ≠ invalidRowID → (∀ n ∈ done, Held maxRow n ∧ n.rowID = first.rowID) →
    (∀ n ∈ todo, Held maxRow n ∧ (n.rowID = invalidRowID ∨ n.rowID ≤ first.rowID)) →
    first.left.length * (done.length + todo.length + 1) + todo.length < fuel →
    ∃ ok first' others', advanceQwords maxRow fuel first done todo = some (ok, first', others') ∧
      Turned maxRow first (done ++ todo) ok first' others'
  | 0, _, _, _, _, _, _, _, hf => absurd hf (Nat.not_lt_zero _)
  | fuel + 1, first, done, [], hfirst, hne, hdone, _, _ => by
    refine ⟨true, first, done, rfl, rfl, by rw [append_nil], fun _ => le_refl _, fun _ => ⟨hfirst, hne, hdone, fun x => ?_⟩,
      fun h => absurd h.symm Bool.false_ne_true⟩
    rw [append_nil]
  | fuel + 1, first, done, cur :: todo, hfirst, hne, hdone, htodo, hf => by
    obtain ⟨hcur, hbehind⟩ := htodo cur mem_cons_self
    have htodo' : ∀ n ∈ todo, Held maxRow n ∧ (n.rowID = invalidRowID ∨ n.rowID ≤ first.rowID) := fun n hn =>
      htodo n (mem_cons_of_mem _ hn)
    have hlen : done.length + (cur :: todo).length + 1 = (done ++ [cur]).length + todo.length + 1 := by
      rw [length_append, length_cons, length_singleton]
      omega
    rw [advanceQwords]
    by_cases hat : cur.rowID = first.rowID
    · rw [if_pos hat]
      obtain ⟨ok, first', others', heq, h⟩ := advanceQwords_spec fuel first (done ++ [cur]) todo hfirst hne (by
        intro n hn
        rcases List.mem_append.mp hn with hn | hn
        · exact hdone n hn
        · cases mem_singleton.mp hn
          exact ⟨hcur, hat⟩) htodo' (by rw [← hlen]; rw [length_cons] at hf ⊢; omega)
      rw [append_assoc] at h
      exact ⟨ok, first', others', heq, h⟩
    rw [if_neg hat]
    have hlater : cur.rowID = invalidRowID ∨ cur.rowID < first.rowID :=
      hbehind.imp id fun hle => lt_of_le_of_ne hle hat
    obtain ⟨hword, hmove⟩ := advanceRow_spec maxRow hcur.toLive (Ne.symm hat) hlater
    have hwords : (done ++ cur.advanceRow maxRow first.rowID :: todo).map (·.word) = (done ++ cur :: todo).map (·.word) := by
      rw [map_append, map_append, map_cons, map_cons, hword]
    have hge : ∀ x, first.Avail x → first.rowID ≤ x := fun x => hfirst.avail_le hne
    rcases hmove with ⟨hlive, hvalid, hle, hbelow, -, havail⟩ | ⟨hinv, hnone⟩
    · simp only [if_neg hvalid]
      have hcommon : ∀ x, Common maxRow first (done ++ cur.advanceRow maxRow first.rowID :: todo) x ↔
          Common maxRow first (done ++ cur :: todo) x := fun x => common_cur hge havail
      by_cases hover : first.rowID < (cur.advanceRow maxRow first.rowID).rowID
      · -- the leader is moved, and the turn starts again
        rw [if_pos hover]
        obtain ⟨hfword, hfmove⟩ := advanceRow_spec maxRow hfirst (Nat.ne_of_gt hover) (.inr hover)
        have hcurge : ∀ x, (cur.advanceRow maxRow first.rowID).Avail x → (cur.advanceRow maxRow first.rowID).rowID ≤ x :=
          fun x => hlive.avail_le hvalid
        rcases hfmove with ⟨hflive, hfvalid, hfle, -, hfless, hfavail⟩ | ⟨hfinv, hfnone⟩
        · simp only [if_neg hfvalid]
          obtain ⟨ok, first', others', heq, h⟩ := advanceQwords_spec fuel _ []
            (done ++ cur.advanceRow maxRow first.rowID :: todo) hflive hfvalid (forall_mem_nil _) (by
              intro n hn
              have hlt := lt_of_lt_of_le hover hfle
              rcases List.mem_append.mp hn with hn | hn
              · obtain ⟨hheld, hrow⟩ := hdone n hn
                exact ⟨hheld, .inr (le_of_lt (lt_of_le_of_lt (le_of_eq hrow) hlt))⟩
              · rcases mem_cons.mp hn with rfl | hn
                · exact ⟨⟨hlive, fun _ => hbelow⟩, .inr hfle⟩
                · obtain ⟨hheld, hrow⟩ := htodo' n hn
                  exact ⟨hheld, hrow.imp id fun h => le_of_lt (lt_of_le_of_lt h hlt)⟩) (by
              simp only [length_append, length_cons, length_nil] at hf ⊢
              have := Nat.mul_le_mul_right (done.length + (todo.length + 1) + 1) (Nat.succ_le_of_lt hfless)
              rw [Nat.succ_mul] at this
              rw [zero_add]
              omega)
          refine ⟨ok, first', others', heq, h.word.trans hfword, h.words.trans hwords, fun hok => le_trans (h.left hok) (le_of_lt hfless),
            fun hok => ?_, fun hok x hx => ?_⟩
          · obtain ⟨h1, h2, h3, h4⟩ := h.met hok
            refine ⟨h1, h2, h3, fun x => (h4 x).trans ?_⟩
            rw [nil_append, ← hcommon x]
            exact common_first hcurge (by simp) hfavail
          · refine h.none hok x ?_
            exact (common_first hcurge (by simp) hfavail).mpr ((hcommon x).mpr hx)
        · simp only [if_pos hfinv]
          refine ⟨false, _, _, rfl, hfword, hwords, fun h => absurd h Bool.false_ne_true,
            fun h => absurd h Bool.false_ne_true, fun _ x hx => ?_⟩
          obtain ⟨h1, h2, h3⟩ := (hcommon x).mpr hx
          exact h3 (hfnone x h1 (hcurge x (h2 _ (by simp))))
      · rw [if_neg hover]
        have hrow : (cur.advanceRow maxRow first.rowID).rowID = first.rowID := le_antisymm (Nat.le_of_not_lt hover) hle
        obtain ⟨ok, first', others', heq, h⟩ := advanceQwords_spec fuel first
          (done ++ [cur.advanceRow maxRow first.rowID]) todo hfirst hne (by
            intro n hn
            rcases List.mem_append.mp hn with hn | hn
            · exact hdone n hn
            · cases mem_singleton.mp hn
              exact ⟨⟨hlive, fun _ => hbelow⟩, hrow⟩) htodo' (by
            rw [length_append, length_singleton] at hlen ⊢
            rw [← hlen]
            rw [length_cons] at hf ⊢
            omega)
        rw [append_assoc] at h
        refine ⟨ok, first', others', heq, h.word, h.words.trans hwords, h.left, fun hok => ?_, fun hok x hx => ?_⟩
        · obtain ⟨h1, h2, h3, h4⟩ := h.met hok
          exact ⟨h1, h2, h3, fun x => (h4 x).trans (hcommon x)⟩
        · exact h.none hok x ((hcommon x).mpr hx)
    · simp only [if_pos hinv]
      refine ⟨false, _, _, rfl, rfl, hwords, fun _ => le_refl _, fun h => absurd h Bool.false_ne_true, fun _ x hx => ?_⟩
      obtain ⟨h1, h2, h3⟩ := hx
      exact h3 (hnone x (h2 cur (by simp)) (hge x h1))

end Turns

/-! ## Chunks and hints -/

/-- The rows the node has still to return. -/
def ExtMultiAnd.Rem (m : ExtMultiAnd W) (x : RowID) : Prop :=
  if m.firstChunk then m.nodesSet = m.others.length + 1 ∧ m.docs ≠ 0 ∧ (∀ b ∈ m.boundaries, b.1 ≤ x) ∧
    Common m.maxRow m.first m.others x
  else m.first.rowID ≠ invalidRowID ∧ Common m.maxRow m.first m.others x

def ExtMultiAnd.side (m : ExtMultiAnd W) : Side RowID := ⟨{x | m.Rem x}, {x | m.Rem x}, fun _ h => h⟩

/-- What holds of the node between calls: before the first chunk no reader was started, and later the leader is never
behind another keyword. -/
structure Inv (m : ExtMultiAnd W) : Prop where
  others : m.others ≠ []
  fresh : m.firstChunk = true → Live m.first ∧ m.first.rowID = invalidRowID ∧
    ∀ n ∈ m.others, Held m.maxRow n ∧ n.rowID = invalidRowID
  going : m.firstChunk = false → m.first.rowID ≠ invalidRowID → Live m.first ∧ (∀ b ∈ m.boundaries, b.1 ≤ m.first.rowID) ∧
    ∀ n ∈ m.others, Held m.maxRow n ∧ (n.rowID = invalidRowID ∨ n.rowID ≤ m.first.rowID)

/-- The documents the leader may still read, the one it stands at included. -/
def ExtMultiAnd.size (m : ExtMultiAnd W) : Nat :=
  if m.firstChunk = false ∧ m.first.rowID = invalidRowID then 0 else m.first.left.length + 1

section Chunk
variable {m : ExtMultiAnd W}

theorem rem_of_fresh (h : m.firstChunk = true) : m.Rem x ↔ m.nodesSet = m.others.length + 1 ∧ m.docs ≠ 0 ∧
    (∀ b ∈ m.boundaries, b.1 ≤ x) ∧ Common m.maxRow m.first m.others x := by
  rw [ExtMultiAnd.Rem, if_pos h]

theorem rem_of_going (h : m.firstChunk = false) :
    m.Rem x ↔ m.first.rowID ≠ invalidRowID ∧ Common m.maxRow m.first m.others x := by
  rw [ExtMultiAnd.Rem, h]
  rfl

theorem size_of_valid (h : m.first.rowID ≠ invalidRowID) : m.size = m.first.left.length + 1 := by
  rw [ExtMultiAnd.size, if_neg fun h' => h h'.2]

theorem size_of_fresh (h : m.firstChunk = true) : m.size = m.first.left.length + 1 := by
  rw [ExtMultiAnd.size, if_neg fun h' => absurd (h'.1.symm.trans h) Bool.false_ne_true]

theorem Live.avail_lt (hn : Live n) (hx : n.Avail x) : x < invalidRowID := by
  rcases hx with ⟨hne, rfl⟩ | ⟨p, -, -, rfl⟩
  · rcases hn.stands with ⟨-, hinv⟩ | ⟨q, -, hrow, -⟩
    · exact absurd hinv hne
    · rw [hrow]
      exact q.valid
  · exact p.valid

/-- What a chunk with room for some documents leaves. -/
structure Filled [Add W] [Zero W] (m : ExtMultiAnd W) (room : Nat) (docs : List (ExtDoc W)) (m' : ExtMultiAnd W) : Prop where
  inv : Inv m'
  going : m'.firstChunk = false
  asc : (rows docs).Pairwise (· < ·)
  keeps : ∀ x, m.Rem x ↔ x ∈ rows docs ∨ m'.Rem x
  above : ∀ o ∈ rows docs, ∀ x, m'.Rem x → o < x
  last : docs.length < room → ∀ x, ¬ m'.Rem x
  length : docs.length ≤ room
  size : m'.size + docs.length ≤ m.size

/-- **The loop returns the common rows in order**, as many as the chunk has room for. -/
theorem fill_spec [Add W] [Zero W] : ∀ (room : Nat) (m : ExtMultiAnd W), Inv m → m.firstChunk = false →
    ∃ docs m', fill room m = some (docs, m') ∧ Filled m room docs m'
  | 0, m, hm, hgo => by
    refine ⟨[], m, rfl, hm, hgo, .nil, fun x => ?_, forall_mem_nil _,
      fun h => absurd h (Nat.not_lt_zero _), Nat.le_refl _, Nat.le_refl _⟩
    simp
  | room + 1, m, hm, hgo => by
    rw [fill]
    by_cases hinv : m.first.rowID = invalidRowID
    · rw [if_pos hinv]
      refine ⟨[], m, rfl, hm, hgo, .nil, fun x => ?_, forall_mem_nil _, fun _ x hx => ?_,
        Nat.zero_le _, Nat.le_refl _⟩
      · simp
      · exact ((rem_of_going hgo).mp hx).1 hinv
    · rw [if_neg hinv]
      obtain ⟨hlive, hmin, hothers⟩ := hm.going hgo hinv
      obtain ⟨ok, first', others', hturn, h⟩ := advanceQwords_spec (rounds m.first m.others) m.first [] m.others
        hlive hinv (forall_mem_nil _) hothers (by
          rw [rounds, length_nil, Nat.zero_add, Nat.succ_mul]
          omega)
      rw [nil_append] at h
      rw [hturn, bind_some]
      have hlen : others'.length = m.others.length := by
        have := congrArg List.length h.words
        rwa [length_map, length_map] at this
      have hne' : others' ≠ [] := fun hnil => by
        rw [hnil, length_nil] at hlen
        exact hm.others (length_eq_zero_iff.mp hlen.symm)
      cases ok with
      | false =>
        refine ⟨[], _, rfl, ⟨hne', fun h => absurd (hgo.symm.trans h) Bool.false_ne_true, fun _ h => absurd rfl h⟩, hgo, .nil,
          fun x => ?_, forall_mem_nil _, fun _ x hx => ?_, Nat.zero_le _, ?_⟩
        · refine iff_of_false (fun hx => h.none rfl x ((rem_of_going hgo).mp hx).2) ?_
          rintro (hx | hx)
          · exact not_mem_nil hx
          · exact ((rem_of_going (m := { m with first := { first' with rowID := invalidRowID }, others := others' }) hgo).mp hx).1 rfl
        · exact ((rem_of_going (m := { m with first := { first' with rowID := invalidRowID }, others := others' }) hgo).mp hx).1 rfl
        · rw [ExtMultiAnd.size, if_pos ⟨hgo, rfl⟩]
          exact Nat.zero_le _
      | true =>
        obtain ⟨hlive', hvalid, hmet, hcommon⟩ := h.met rfl
        obtain ⟨hword, hnext, hless, hlt, havail, hover⟩ := advance_spec hlive'
        generalize hm₁ : ({ m with first := first'.advance, others := others' } : ExtMultiAnd W) = m₁
        have hgo₁ : m₁.firstChunk = false := by rw [← hm₁]; exact hgo
        -- the row the keywords met at is common, and the first one
        have hrow : Common m.maxRow first' others' first'.rowID := by
          refine ⟨.inl ⟨hvalid, rfl⟩, fun n hn => .inl ⟨?_, (hmet n hn).2.symm⟩, ?_⟩
          · rw [(hmet n hn).2]
            exact hvalid
          · obtain ⟨n, rest, rfl⟩ := exists_cons_of_ne_nil hne'
            obtain ⟨hheld, hn⟩ := hmet n mem_cons_self
            rw [← hn]
            exact hheld.below (by rw [hn]; exact hvalid)
        have hrem₁ : ∀ x, m₁.Rem x ↔ Common m.maxRow first' others' x ∧ first'.rowID < x := by
          intro x
          rw [rem_of_going hgo₁, ← hm₁]
          show first'.advance.rowID ≠ invalidRowID ∧ Common m.maxRow first'.advance others' x ↔ _
          constructor
          · rintro ⟨-, h1, h2, h3⟩
            obtain ⟨h1, h4⟩ := (havail x).mp h1
            exact ⟨⟨h1, h2, h3⟩, h4 hvalid⟩
          · rintro ⟨⟨h1, h2, h3⟩, h4⟩
            have h1' := (havail x).mpr ⟨h1, fun _ => h4⟩
            exact ⟨fun hinv' => hover hinv' x h1', h1', h2, h3⟩
        have hrem : ∀ x, m.Rem x ↔ x = first'.rowID ∨ m₁.Rem x := by
          intro x
          rw [rem_of_going hgo, hrem₁, ← hcommon x]
          constructor
          · rintro ⟨-, hx⟩
            rcases Nat.eq_or_lt_of_le (hlive'.avail_le hvalid hx.1) with heq | hlt
            · exact .inl heq.symm
            · exact .inr ⟨hx, hlt⟩
          · rintro (rfl | ⟨hx, -⟩)
            · exact ⟨hinv, hrow⟩
            · exact ⟨hinv, hx⟩
        have hinv₁ : Inv m₁ := by
          rw [← hm₁]
          refine ⟨hne', fun h => absurd (hgo.symm.trans h) Bool.false_ne_true, fun _ hv => ⟨hnext, fun b hb => ?_, fun n hn => ?_⟩⟩
          · refine Nat.le_trans (hmin b hb) (Nat.le_trans ?_ (Nat.le_of_lt (hlt hvalid hv)))
            exact hlive.avail_le hinv ((hcommon _).mp hrow).1
          · obtain ⟨hheld, hrow'⟩ := hmet n hn
            exact ⟨hheld, .inr (Nat.le_of_lt (Nat.lt_of_le_of_lt (Nat.le_of_eq hrow') (hlt hvalid hv)))⟩
        have hsize₁ : m₁.size + 1 ≤ m.size := by
          rw [size_of_valid hinv, ← hm₁, ExtMultiAnd.size]
          split
          · omega
          · rename_i hv
            have h1 := hless fun hinv' => hv ⟨hgo, hinv'⟩
            have h2 := h.left rfl
            show first'.advance.left.length + 1 + 1 ≤ _
            omega
        obtain ⟨docs, m', hfill, hf⟩ := fill_spec room m₁ hinv₁ hgo₁
        have hrows : rows (docOf first'.rowID (first' :: others') :: docs) = first'.rowID :: rows docs := rfl
        refine ⟨docOf first'.rowID (first' :: others') :: docs, m', ?_, hf.inv, hf.going, ?_, fun x => ?_, fun o ho x hx => ?_,
          fun hl => hf.last (Nat.lt_of_succ_lt_succ hl), Nat.succ_le_succ hf.length, ?_⟩
        · simp only [Bool.not_true, Bool.false_eq_true, if_false, hm₁, hfill, Option.map_some]
        · refine pairwise_cons.mpr ⟨fun o ho => ?_, hf.asc⟩
          exact ((hrem₁ o).mp ((hf.keeps o).mpr (.inl ho))).2
        · rw [hrem, hf.keeps, hrows, mem_cons, or_assoc]
        · rcases mem_cons.mp ho with rfl | ho
          · exact ((hrem₁ x).mp ((hf.keeps x).mpr (.inr hx))).2
          · exact hf.above o ho x hx
        · have := hf.size
          rw [length_cons]
          omega

variable {m' : ExtMultiAnd W}

section
variable (hm : Inv m) (hfresh : m.firstChunk = true) (hset : m.nodesSet = m.others.length + 1) (hdocs : m.docs ≠ 0)
include hm hfresh hset hdocs

theorem start_spec
    {row : RowID} (hrow : ∀ b ∈ m.boundaries, b.1 ≤ row)
    (hm' : m' = { m with first := m.first.advanceRow m.maxRow row, firstChunk := false }) :
    Inv m' ∧ (∀ x, m'.Rem x ↔ m.Rem x ∧ row ≤ x) ∧ m'.size ≤ m.size := by
  obtain ⟨hlive, hinv, hothers⟩ := hm.fresh hfresh
  -- nothing is left when the leader has no row
  have hempty : m'.first.rowID = invalidRowID → (∀ x, m.first.Avail x → row ≤ x → Above m.maxRow x) →
      Inv m' ∧ (∀ x, m'.Rem x ↔ m.Rem x ∧ row ≤ x) ∧ m'.size ≤ m.size := by
    intro hover hnone
    have hgo : m'.firstChunk = false := by rw [hm']
    refine ⟨⟨by rw [hm']; exact hm.others, fun h => absurd (hgo.symm.trans h) Bool.false_ne_true, fun _ h => absurd hover h⟩,
      fun x => iff_of_false (fun hx => ((rem_of_going hgo).mp hx).1 hover) ?_, ?_⟩
    · rintro ⟨hx, hle⟩
      obtain ⟨-, -, -, havail, -, hno⟩ := (rem_of_fresh hfresh).mp hx
      exact hno (hnone x havail hle)
    · rw [ExtMultiAnd.size, if_pos ⟨hgo, hover⟩]
      exact Nat.zero_le _
  by_cases hne : row = m.first.rowID
  · refine hempty ?_ fun x hx hle => ?_
    · rw [hm']
      show (m.first.advanceRow m.maxRow row).rowID = _
      rw [NodeInfo.advanceRow, if_pos hne, hinv]
    · rw [hne, hinv] at hle
      exact absurd hle (Nat.not_le_of_lt (hlive.avail_lt hx))
  · obtain ⟨-, ⟨hlive', hvalid, hle, -, hless, havail⟩ | ⟨hover, hnone⟩⟩ := advanceRow_spec m.maxRow hlive hne (.inl hinv)
    · subst hm'
      refine ⟨⟨hm.others, fun h => absurd h Bool.false_ne_true, fun _ _ => ⟨hlive', fun b hb => Nat.le_trans (hrow b hb) hle,
        fun n hn => ⟨(hothers n hn).1, .inl (hothers n hn).2⟩⟩⟩, fun x => ?_, ?_⟩
      · rw [rem_of_fresh hfresh, rem_of_going rfl]
        constructor
        · rintro ⟨-, h1, h2, h3⟩
          obtain ⟨h1, hx⟩ := (havail x).mp h1
          exact ⟨⟨hset, hdocs, fun b hb => Nat.le_trans (hrow b hb) hx, h1, h2, h3⟩, hx⟩
        · rintro ⟨⟨-, -, -, h1, h2, h3⟩, hx⟩
          exact ⟨hvalid, (havail x).mpr ⟨h1, hx⟩, h2, h3⟩
      · rw [size_of_fresh hfresh, size_of_valid hvalid]
        exact Nat.succ_le_succ (Nat.le_of_lt hless)
    · refine hempty ?_ hnone
      rw [hm']
      exact hover

theorem startAll_spec
    (hall : m.boundaries = none) (hm' : m' = { m with first := m.first.advance, firstChunk := false }) :
    Inv m' ∧ (∀ x, m'.Rem x ↔ m.Rem x) ∧ m'.size ≤ m.size := by
  obtain ⟨hlive, hinv, hothers⟩ := hm.fresh hfresh
  obtain ⟨-, hlive', hless, -, havail, hover⟩ := advance_spec hlive
  subst hm'
  have hnob : ∀ b, b ∉ m.boundaries := fun b hb => by
    rw [hall] at hb
    exact not_mem_none b hb
  refine ⟨⟨hm.others, fun h => absurd h Bool.false_ne_true, fun _ _ => ⟨hlive', fun b hb => absurd hb (hnob b),
    fun n hn => ⟨(hothers n hn).1, .inl (hothers n hn).2⟩⟩⟩, fun x => ?_, ?_⟩
  · rw [rem_of_fresh hfresh, rem_of_going rfl]
    constructor
    · rintro ⟨-, h1, h2, h3⟩
      exact ⟨hset, hdocs, fun b hb => absurd hb (hnob b), ((havail x).mp h1).1, h2, h3⟩
    · rintro ⟨-, -, -, h1, h2, h3⟩
      have h1' := (havail x).mpr ⟨h1, fun h => absurd hinv h⟩
      exact ⟨fun h => hover h x h1', h1', h2, h3⟩
  · rw [size_of_fresh hfresh, ExtMultiAnd.size]
    split
    · exact Nat.zero_le _
    · rename_i hv
      exact Nat.succ_le_succ (Nat.le_of_lt (hless fun h => hv ⟨rfl, h⟩))

end

/-- A call that returned a chunk. -/
structure Good [Add W] [Zero W] (m : ExtMultiAnd W) (docs : List (ExtDoc W)) (m' : ExtMultiAnd W) : Prop where
  inv : Inv m'
  yields : Yields m.side (rows docs) m'.side
  length : docs.length < MAX_BLOCK_DOCS
  size : m'.size + docs.length ≤ m.size

theorem Filled.good [Add W] [Zero W] {m₀ : ExtMultiAnd W} {docs : List (ExtDoc W)}
    (h : Filled m (MAX_BLOCK_DOCS - 1) docs m') (hrem : ∀ x, m.Rem x ↔ m₀.Rem x) (hsize : m.size ≤ m₀.size) : Good m₀ docs m' where
  inv := h.inv
  yields := by
    refine ⟨h.asc, fun x => (hrem x).symm.trans (h.keeps x), fun x hx => (hrem x).mp ((h.keeps x).mpr (.inr hx)), h.above,
      fun hnil => Set.eq_empty_of_forall_notMem fun x => h.last ?_ x⟩
    rw [map_eq_nil_iff.mp hnil, length_nil]
    decide
  length := lt_of_le_of_lt h.length (by decide)
  size := le_trans h.size hsize

/-- **A chunk is the next common rows.** -/
theorem getDocsChunk_good [Add W] [Zero W] (hm : Inv m) : ∃ docs m', getDocsChunk m = some (docs, m') ∧ Good m docs m' := by
  cases hfresh : m.firstChunk with
  | false =>
    obtain ⟨docs, m', hfill, h⟩ := fill_spec (MAX_BLOCK_DOCS - 1) m hm hfresh
    refine ⟨docs, m', ?_, h.good (fun _ => Iff.rfl) (le_refl _)⟩
    rw [getDocsChunk, hfresh]
    exact hfill
  | true =>
    by_cases hno : m.nodesSet ≠ m.others.length + 1 ∨ m.docs = 0
    · have hnone : ∀ x, ¬ m.Rem x := fun x hx => by
        obtain ⟨h1, h2, -⟩ := (rem_of_fresh hfresh).mp hx
        exact hno.elim (fun h => h h1) h2
      refine ⟨[], m, ?_, hm, ⟨.nil, fun x => ?_, fun x hx => hx, forall_mem_nil _,
        fun _ => Set.eq_empty_of_forall_notMem hnone⟩, Nat.zero_lt_succ _, le_refl _⟩
      · rw [getDocsChunk, if_pos hfresh, if_pos hno]
      · simp
    · have hset : m.nodesSet = m.others.length + 1 := Classical.not_not.mp fun h => hno (.inl h)
      have hdocs : m.docs ≠ 0 := fun h => hno (.inr h)
      cases hb : m.boundaries with
      | none =>
        obtain ⟨hinv, hrem, hsize⟩ := startAll_spec hm hfresh hset hdocs hb rfl
        obtain ⟨docs, m', hfill, h⟩ := fill_spec (MAX_BLOCK_DOCS - 1) _ hinv rfl
        refine ⟨docs, m', ?_, h.good hrem hsize⟩
        rw [getDocsChunk, if_pos hfresh, if_neg hno, ← hfill, hb]
      | some b =>
        obtain ⟨hinv, hrem, hsize⟩ := start_spec hm hfresh hset hdocs (fun c hc => by
          rw [hb] at hc
          cases hc
          exact le_refl _) rfl
        obtain ⟨docs, m', hfill, h⟩ := fill_spec (MAX_BLOCK_DOCS - 1) _ hinv rfl
        refine ⟨docs, m', ?_, h.good (fun x => (hrem x).trans (and_iff_left_of_imp fun hx => ?_)) hsize⟩
        · rw [getDocsChunk, if_pos hfresh, if_neg hno, ← hfill, hb]
        · exact ((rem_of_fresh hfresh).mp hx).2.2.1 b hb

/-- **A hint loses no row from the hint on**, and adds none. -/
theorem hintRowID_spec (hm : Inv m) (row : RowID) :
    Inv (hintRowID m row) ∧ Told row m.side (hintRowID m row).side ∧ (hintRowID m row).size ≤ m.size := by
  have hsame : Inv m ∧ Told row m.side m.side ∧ m.size ≤ m.size := ⟨hm, ⟨fun _ _ => Iff.rfl, fun _ h => h⟩, Nat.le_refl _⟩
  rw [hintRowID]
  by_cases hdocs : m.docs = 0
  · rw [if_pos hdocs]
    exact hsame
  · rw [if_neg hdocs]
    generalize hrow : (m.boundaries.map fun b => max row b.1).getD row = row'
    have hlow : ∀ b ∈ m.boundaries, b.1 ≤ row' := by
      intro b hb
      rw [← hrow, Option.mem_def.mp hb]
      exact Nat.le_max_right _ _
    have hrows : ∀ x, row ≤ x → (∀ b ∈ m.boundaries, b.1 ≤ x) → row' ≤ x := by
      intro x hx hb
      rw [← hrow]
      cases hbs : m.boundaries with
      | none => exact hx
      | some b => exact Nat.max_le.mpr ⟨hx, hb b hbs⟩
    -- what a move of the leader to the hint has to keep
    have hmoved : ∀ m' : ExtMultiAnd W, (∀ x, m'.Rem x ↔ m.Rem x ∧ row' ≤ x) → (∀ x, m.Rem x → ∀ b ∈ m.boundaries, b.1 ≤ x) →
        Told row m.side m'.side := fun m' hrem hmin =>
      ⟨fun x hx => ⟨fun h => (hrem x).mpr ⟨h, hrows x hx (hmin x h)⟩, fun h => ((hrem x).mp h).1⟩, fun x h => ((hrem x).mp h).1⟩
    show Inv (if _ then _ else _) ∧ _
    by_cases hmove : m.firstChunk = true ∨ m.first.rowID ≠ invalidRowID ∧ m.first.rowID < row'
    · rw [if_pos hmove]
      cases hfresh : m.firstChunk with
      | true =>
        by_cases hset : m.nodesSet ≠ m.others.length + 1
        · rw [if_pos ⟨rfl, hset⟩]
          exact hsame
        · rw [if_neg fun h => hset h.2]
          obtain ⟨hinv, hrem, hsize⟩ := start_spec hm hfresh (Classical.not_not.mp hset) hdocs hlow rfl
          exact ⟨hinv, hmoved _ hrem fun x hx => ((rem_of_fresh hfresh).mp hx).2.2.1, hsize⟩
      | false =>
        obtain ⟨hvalid, hlt⟩ := hmove.resolve_left fun h => absurd (hfresh.symm.trans h) Bool.false_ne_true
        obtain ⟨hlive, hmin, hothers⟩ := hm.going hfresh hvalid
        have hmin' : ∀ x, m.Rem x → ∀ b ∈ m.boundaries, b.1 ≤ x := fun x hx b hb =>
          Nat.le_trans (hmin b hb) (hlive.avail_le hvalid ((rem_of_going hfresh).mp hx).2.1)
        obtain ⟨-, ⟨hlive', hvalid', hle, -, hless, havail⟩ | ⟨hover, hnone⟩⟩ :=
          advanceRow_spec m.maxRow hlive (Nat.ne_of_gt hlt) (.inr hlt)
        · refine ⟨⟨hm.others, fun h => absurd h Bool.false_ne_true, fun _ _ => ⟨hlive', fun b hb => ?_, fun n hn => ?_⟩⟩,
            hmoved _ (fun x => ?_) hmin', ?_⟩
          · exact Nat.le_trans (hlow b hb) hle
          · refine ⟨(hothers n hn).1, (hothers n hn).2.imp_right fun h => ?_⟩
            exact Nat.le_trans h (Nat.le_trans (Nat.le_of_lt hlt) hle)
          · rw [rem_of_going hfresh, rem_of_going rfl]
            constructor
            · rintro ⟨-, h1, h2, h3⟩
              obtain ⟨h1, hx⟩ := (havail x).mp h1
              exact ⟨⟨hvalid, h1, h2, h3⟩, hx⟩
            · rintro ⟨⟨-, h1, h2, h3⟩, hx⟩
              exact ⟨hvalid', (havail x).mpr ⟨h1, hx⟩, h2, h3⟩
          · rw [size_of_valid hvalid, size_of_valid hvalid']
            exact Nat.succ_le_succ (Nat.le_of_lt hless)
        · refine ⟨⟨hm.others, fun h => absurd h Bool.false_ne_true, fun _ h => absurd hover h⟩, hmoved _ (fun x => ?_) hmin', ?_⟩
          · refine iff_of_false (fun hx => ((rem_of_going rfl).mp hx).1 hover) ?_
            rintro ⟨hx, hle⟩
            obtain ⟨-, h1, -, hno⟩ := (rem_of_going hfresh).mp hx
            exact hno (hnone x h1 hle)
          · rw [ExtMultiAnd.size, if_pos ⟨rfl, hover⟩]
            exact Nat.zero_le _
    · rw [if_neg hmove]
      exact hsame

end Chunk

/-! ## Whole runs -/

section Run
variable [Add W] [Zero W] {s₀ : Side RowID}

theorem run_spec : ∀ (calls : List Call) (t : RowID) (m : ExtMultiAnd W) (out : List RowID), History s₀ t out m.side → Inv m →
    (t :: hints calls).Pairwise (· ≤ ·) →
    ∃ visits m', run t m calls = some (visits, m') ∧ Inv m' ∧ m'.size ≤ m.size ∧
      History s₀ (lastHint t calls) (out ++ rows (returned visits)) m'.side ∧ ∀ v ∈ visits, v.docs.length < MAX_BLOCK_DOCS
  | [], t, m, out, h, hm, _ => by
    refine ⟨[], m, rfl, hm, le_refl _, ?_, forall_mem_nil _⟩
    rw [returned, flatMap_nil, ExtNode.rows_nil, append_nil]
    exact h
  | .hint row :: calls, t, m, out, h, hm, hmono => by
    obtain ⟨hi, ht, hs⟩ := hintRowID_spec hm row
    rw [hints, pairwise_cons] at hmono
    obtain ⟨visits, m', he, hm', hs', hh, hv⟩ :=
      run_spec calls row (hintRowID m row) out (h.tell (hmono.1 row mem_cons_self) ht) hi hmono.2
    exact ⟨visits, m', he, hm', le_trans hs' hs, hh, hv⟩
  | .get :: calls, t, m, out, h, hm, hmono => by
    obtain ⟨docs, m₁, hget, hg⟩ := getDocsChunk_good hm
    obtain ⟨visits, m', he, hm', hs', hh, hv⟩ := run_spec calls t m₁ (out ++ rows docs) (h.yield hg.yields) hg.inv hmono
    refine ⟨⟨t, docs⟩ :: visits, m', ?_, hm', le_trans hs' (le_trans (Nat.le_add_right _ _) hg.size), ?_,
      forall_mem_cons.mpr ⟨hg.length, hv⟩⟩
    · simp only [run, hget, he, bind_eq_bind, bind_some]
    · rw [returned, flatMap_cons, ExtNode.rows_append, ← append_assoc]
      exact hh

theorem drainDocs_spec {t : RowID} : ∀ (fuel : Nat) (m : ExtMultiAnd W) (out : List RowID), History s₀ t out m.side → Inv m →
    m.size < fuel → ∃ docs, ∃ m' : ExtMultiAnd W, drainDocs fuel m = some docs ∧ History s₀ t (out ++ rows docs) m'.side ∧
      m'.side.maybe = ∅
  | 0, _, _, _, _, hf => absurd hf (Nat.not_lt_zero _)
  | fuel + 1, m, out, h, hm, hf => by
    obtain ⟨docs, m₁, hget, hg⟩ := getDocsChunk_good hm
    have hsize := hg.size
    have hh := h.yield hg.yields
    cases docs with
    | nil =>
      refine ⟨[], m₁, ?_, hh, hg.yields.last rfl⟩
      simp only [drainDocs, hget, bind_eq_bind, bind_some]
    | cons d ds =>
      rw [length_cons] at hsize
      obtain ⟨rest, m', he, hh', hm'⟩ := drainDocs_spec fuel m₁ _ hh hg.inv (by omega)
      refine ⟨d :: ds ++ rest, m', ?_, ?_, hm'⟩
      · simp only [drainDocs, hget, he, bind_eq_bind, bind_some]
      · rw [ExtNode.rows_append, ← append_assoc]
        exact hh'

end Run

/-- Every keyword has the row, in a field it is allowed in, and the row is within the limits. -/
def Holds (boundaries : Option (RowID × RowID)) (words : List (Qword W)) (x : RowID) : Prop :=
  (∀ b ∈ boundaries, b.1 ≤ x ∧ x ≤ b.2) ∧ ∀ w ∈ words, ∃ p ∈ w.postings, w.fitsFields p = true ∧ p.rowID = x

section Create
variable {first : Qword W} {others : List (Qword W)} {boundaries : Option (RowID × RowID)}

theorem avail_new {w : Qword W} : ({ word := w, left := w.postings } : NodeInfo W).Avail x ↔
    ∃ p ∈ w.postings, w.fitsFields p = true ∧ p.rowID = x := by
  constructor
  · rintro (⟨h, -⟩ | h)
    · exact absurd rfl h
    · exact h
  · exact .inr

theorem live_new (w : Qword W) : Live ({ word := w, left := w.postings } : NodeInfo W) := ⟨w.ascending, .inl ⟨rfl, rfl⟩⟩

theorem inv_create (hothers : others ≠ []) : Inv (ExtMultiAnd.create first others boundaries) where
  others := fun h => hothers (map_eq_nil_iff.mp h)
  fresh := fun _ => by
    refine ⟨live_new first, rfl, fun n hn => ?_⟩
    obtain ⟨w, -, rfl⟩ := mem_map.mp hn
    exact ⟨⟨live_new w, fun h => absurd rfl h⟩, rfl⟩
  going := fun h => absurd h.symm Bool.false_ne_true

theorem rem_create (x : RowID) : (ExtMultiAnd.create first others boundaries).Rem x ↔ Holds boundaries (first :: others) x := by
  have hcommon : Common (boundaries.map (·.2)) { word := first, left := first.postings }
      (others.map fun w => ({ word := w, left := w.postings } : NodeInfo W)) x ↔
      (∀ w ∈ first :: others, ∃ p ∈ w.postings, w.fitsFields p = true ∧ p.rowID = x) ∧ ∀ b ∈ boundaries, x ≤ b.2 := by
    rw [Common, avail_new, forall_mem_cons, and_assoc, forall_mem_map]
    refine and_congr_right fun _ => and_congr (forall₂_congr fun w _ => avail_new) ?_
    cases boundaries <;> simp [Above]
  rw [rem_of_fresh rfl]
  constructor
  · rintro ⟨-, -, hmin, h⟩
    obtain ⟨hall, hmax⟩ := hcommon.mp h
    exact ⟨fun b hb => ⟨hmin b hb, hmax b hb⟩, hall⟩
  · rintro ⟨hb, hall⟩
    refine ⟨?_, ?_, fun b h => (hb b h).1, hcommon.mpr ⟨hall, fun b h => (hb b h).2⟩⟩
    · -- a keyword that has the row was found
      have hfound : ∀ w ∈ first :: others, w.found = true := by
        intro w hw
        obtain ⟨p, hp, -⟩ := hall w hw
        rw [← Bool.not_eq_false]
        intro hno
        rw [w.missing hno] at hp
        exact not_mem_nil hp
      show (first :: others).countP (·.found) = (others.map _).length + 1
      rw [countP_eq_length.mpr hfound, length_map, length_cons]
    · obtain ⟨p, hp, -⟩ := hall first mem_cons_self
      exact Nat.ne_of_gt (length_pos_of_mem hp)

end Create

/-- **The multi-keyword AND is an intersection.**  Whatever calls a caller makes, with non-decreasing hints, and draining
the node afterwards: the rows returned ascend, every one is a row of all keywords, and none of those at or after the last
hint is lost; without hints these are all rows. -/
theorem multiAnd_exact [Add W] [Zero W] (first second : Qword W) (more : List (Qword W)) (boundaries : Option (RowID × RowID))
    (calls : List Call) (hmono : (hints calls).Pairwise (· ≤ ·)) :
    ∃ visits m rest, run 0 (ExtMultiAnd.create first (second :: more) boundaries) calls = some (visits, m) ∧
      drainDocs (first.postings.length + 2) m = some rest ∧ (rows (returned visits ++ rest)).Pairwise (· < ·) ∧
      (∀ x ∈ rows (returned visits ++ rest), Holds boundaries (first :: second :: more) x) ∧
      (∀ x, lastHint 0 calls ≤ x → Holds boundaries (first :: second :: more) x → x ∈ rows (returned visits ++ rest)) ∧
      ∀ v ∈ visits, v.docs.length < MAX_BLOCK_DOCS := by
  obtain ⟨visits, m, hrun, hm, hs, hh, hv⟩ := run_spec calls 0 (ExtMultiAnd.create first (second :: more) boundaries) []
    (History.start _ 0) (inv_create (cons_ne_nil _ _)) (pairwise_cons.mpr ⟨fun x _ => Nat.zero_le x, hmono⟩)
  have hsize : m.size < first.postings.length + 2 := Nat.lt_succ_of_le (Nat.le_trans hs (Nat.le_of_eq (size_of_fresh rfl)))
  obtain ⟨rest, m', hdrain, hh', hend⟩ := drainDocs_spec _ m _ hh hm hsize
  rw [nil_append, ← ExtNode.rows_append] at hh'
  refine ⟨visits, m, rest, hrun, hdrain, hh'.asc, fun x hx => ?_, fun x hx h => ?_, hv⟩
  · exact (rem_create x).mp (hh'.within x hx)
  · refine ((hh'.keeps x hx).mp ((rem_create x).mpr h)).resolve_right fun hx' => ?_
    exact Set.notMem_empty x (hend ▸ m'.side.sub hx')

/-- A keyword of field 0 in some rows, with a reader that drops the document it stands on. -/
def rowsKeyword (postings : List Posting) (ascending : Ascending postings) (found : Bool)
    (missing : found = false → postings = []) : Qword Nat where
  postings := postings
  ascending := ascending
  found := found
  missing := missing
  reader := ⟨fun _ ps => ps, fun _ _ _ => ⟨[], rfl, forall_mem_nil _⟩⟩
  keeps := false
  queriedFields := 1
  hasWideFields := false
  weight := id

def oddRows : Qword Nat :=
  rowsKeyword (postingsOf [(1, 1), (3, 1), (5, 2), (7, 1)]) (by decide) true (by decide)

def firstRows : Qword Nat :=
  rowsKeyword (postingsOf [(0, 1), (1, 1), (5, 1), (7, 1)]) (by decide) true (by decide)

theorem multiAnd_exact_oddFirst : (hints [.hint 1, .get, .hint 6]).Pairwise (· ≤ ·) ∧
    ∃ visits m rest, run 0 (ExtMultiAnd.create oddRows [firstRows] none) [.hint 1, .get, .hint 6] = some (visits, m) ∧
      drainDocs (oddRows.postings.length + 2) m = some rest ∧ (rows (returned visits ++ rest)).Pairwise (· < ·) ∧
      (∀ x ∈ rows (returned visits ++ rest), Holds none [oddRows, firstRows] x) ∧
      (∀ x, lastHint 0 [.hint 1, .get, .hint 6] ≤ x → Holds none [oddRows, firstRows] x → x ∈ rows (returned visits ++ rest)) ∧
      ∀ v ∈ visits, v.docs.length < MAX_BLOCK_DOCS :=
  ⟨by decide, multiAnd_exact oddRows firstRows [] none [.hint 1, .get, .hint 6] (by decide)⟩

end MultiAnd
end Manticore

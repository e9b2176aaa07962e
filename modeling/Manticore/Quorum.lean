import Mathlib
import Manticore.HitStream
import Manticore.Arrays
/-!
# Quorum — the quorum operator (`ExtQuorum_c`)

The query's keywords are merged: one child per distinct keyword, with the number of times it stands in the query.  Every
turn takes the least document of the children; it is returned if enough of the query's keywords are in it.  A child that
is over is removed, and the loop stops when the keywords left cannot make a quorum any more.  Only when some keyword
stands in the query more than once are the hits of a document counted.
-/
namespace Manticore
namespace Quorum

open ExtNode (RowID invalidRowID ExtDoc MAX_BLOCK_DOCS)
open NWay (ExtHit)
open HitStream
open Arrays
open List

variable {W : Type}

/-- `TermTuple_t`: the reader holds `m_pCurDoc` and `m_pCurHit`. -/
structure TermTuple (W : Type) where
  term : Reader W
  count : Nat

structure ExtQuorum (W : Type) where
  children : List (TermTuple W)
  thresh : Nat
  hasDupes : Bool
  myHits : List ExtHit := []

/-! ## The constructor -/

/-- A keyword of the query: what `GetWordID` and `GetAtomPos` return. -/
structure Qword where
  wordID : Nat
  atomPos : Nat

/-- `QuorumDupeNodeHash_t` -/
structure DupeHash where
  wordID : Nat
  index : Nat

def DupeHash.le (a b : DupeHash) : Bool := if a.wordID = b.wordID then a.index ≤ b.index else a.wordID ≤ b.wordID

/-- A distinct keyword with its count. -/
structure Child where
  qword : Qword
  count : Nat

/-- The merging loop: `parent` is the word of the child at index `parentIndex`. -/
structure Merge where
  parent : Nat
  parentIndex : Nat
  children : List Child
  hasDupes : Bool := false

def mergeStep (qwords : List Qword) (m : Merge) (e : DupeHash) : Merge :=
  if m.parent ≠ e.wordID then
    { m with parent := e.wordID, parentIndex := m.children.length, children := m.children ++ [⟨qwords.getD e.index ⟨0, 0⟩, 1⟩] }
  else { m with children := m.children.modify m.parentIndex fun c => { c with count := c.count + 1 }, hasDupes := true }

def dupeHashes (qwords : List Qword) : List DupeHash :=
  (qwords.zipIdx.map fun q => ⟨q.1.wordID, q.2⟩).insertionSort fun a b => a.le b

def mergeDupes (qwords : List Qword) : Merge :=
  match dupeHashes qwords with
  | [] => ⟨0, 0, [], false⟩
  | e :: es => es.foldl (mergeStep qwords) ⟨e.wordID, 0, [⟨qwords.getD e.index ⟨0, 0⟩, 1⟩], false⟩

/-- `ExtQuorum_c::ExtQuorum_c`; a keyword's documents are those of its word. -/
def ExtQuorum.create (qwords : List Qword) (node : Nat → Operand W) (opArg : Nat) : ExtQuorum W where
  thresh := max opArg 1
  hasDupes := (mergeDupes qwords).hasDupes
  children := ((mergeDupes qwords).children.insertionSort fun a b => a.qword.atomPos ≤ b.qword.atomPos).map
    fun c => { term := (node c.qword.wordID).reader, count := c.count }

/-! ## `GetDocsChunk` -/

/-- A child's next chunk with its hits; a child without one is removed. -/
def TermTuple.fetch (c : TermTuple W) : Option (TermTuple W) :=
  let (docs, stream) := c.term.stream.getDocsChunk
  if docs = [] then none else some { c with term := { stream, docs, hits := stream.getHits docs } }

/-- The body of the warmup loop. -/
def TermTuple.warmup (c : TermTuple W) : Option (TermTuple W) := if c.term.docs ≠ [] then some c else c.fetch

/-- The body of the loop that advances the children. -/
def TermTuple.advance (row : RowID) (c : TermTuple W) : Option (TermTuple W) :=
  if headRow c.term.docs ≠ row then some c
  else if c.term.docs.tail ≠ [] then some { c with term := { c.term with docs := c.term.docs.tail } }
  else c.fetch

/-- `CountQuorum`: the sum, and the new `m_bHasDupes`. -/
def countQuorum (fixDupes : Bool) (q : ExtQuorum W) : Nat × Bool :=
  if q.hasDupes then ((q.children.map (·.count)).sum, if fixDupes then q.children.any (1 < ·.count) else q.hasDupes)
  else (q.children.length, q.hasDupes)

/-- One child in the search for the least document: `tCand` and `iQuorum`. -/
def candidate [Add W] (s : ExtDoc W × Nat) (c : TermTuple W) : ExtDoc W × Nat :=
  match c.term.docs with
  | [] => s
  | d :: _ =>
    if d.rowID < s.1.rowID then (d, c.count)
    else if d.rowID = s.1.rowID then
      ({ s.1 with docFields := s.1.docFields ||| d.docFields, tfidf := s.1.tfidf + d.tfidf }, s.2 + c.count)
    else s

/-- All hits of the row, one child after the other. -/
def collectAll (row : RowID) (c : TermTuple W) : List ExtHit × TermTuple W :=
  let hits := skipHits row c.term.hits
  (hits.takeWhile (·.rowID = row), { c with term := { c.term with hits := hits.dropWhile (·.rowID = row) } })

/-- The counting loop: the hits collected, the sum, and the children; it stops when there is a quorum. -/
def countHits (row : RowID) (thresh : Nat) : Nat → List (TermTuple W) → List ExtHit × Nat × List (TermTuple W)
  | quorum, [] => ([], quorum, [])
  | quorum, c :: children =>
    if c.term.hits = [] then
      let r := countHits row thresh quorum children
      (r.1, r.2.1, c :: r.2.2)
    else
      let hits := skipHits row c.term.hits
      let own := (hits.takeWhile (·.rowID = row)).take c.count
      let c := { c with term := { c.term with hits := hits.drop own.length } }
      if quorum + own.length ≥ thresh then (own, quorum + own.length, c :: children)
      else
        let r := countHits row thresh (quorum + own.length) children
        (own ++ r.1, r.2.1, c :: r.2.2)

/-- "collect all hits to move docs/hits further" -/
def collectRest (row : RowID) (c : TermTuple W) : List ExtHit × TermTuple W :=
  (c.term.hits.takeWhile (·.rowID = row), { c with term := { c.term with hits := c.term.hits.dropWhile (·.rowID = row) } })

/-- `CollectMatchingHits` -/
def collectMatchingHits (row : RowID) (q : ExtQuorum W) : Bool × ExtQuorum W :=
  if !q.hasDupes then
    let r := q.children.map (collectAll row)
    (true, { q with children := r.map (·.2), myHits := q.myHits ++ r.flatMap (·.1) })
  else
    let r := countHits row q.thresh 0 q.children
    if r.2.1 < q.thresh then (false, { q with children := r.2.2 })
    else
      let s := r.2.2.map (collectRest row)
      (true, { q with children := s.map (·.2), myHits := q.myHits ++ (r.1 ++ s.flatMap (·.1)) })

/-- One turn of the main loop: the documents, and the node with its children advanced. -/
def turn [Add W] [Zero W] (docs : List (ExtDoc W)) (q : ExtQuorum W) : List (ExtDoc W) × ExtQuorum W :=
  let cand := q.children.foldl candidate (⟨invalidRowID, 0, 0⟩, 0)
  let r := if cand.2 ≥ q.thresh then collectMatchingHits cand.1.rowID q else (false, q)
  (if r.1 then docs ++ [cand.1] else docs, { r.2 with children := visitAll (TermTuple.advance cand.1.rowID) r.2.children })

def loop [Add W] [Zero W] : Nat → Nat → List (ExtDoc W) → ExtQuorum W → Option (List (ExtDoc W) × ExtQuorum W)
  | 0, _, _, _ => none
  | fuel + 1, quorumLeft, docs, q =>
    if docs.length < MAX_BLOCK_DOCS - 1 ∧ quorumLeft ≥ q.thresh then
      let t := turn docs q
      let quorumLeft := if q.children.length ≠ t.2.children.length then (countQuorum false t.2).1 else quorumLeft
      loop fuel quorumLeft t.1 t.2
    else some (docs, q)

def getDocsChunk [Add W] [Zero W] (fuel : Nat) (q : ExtQuorum W) : Option (List (ExtDoc W) × ExtQuorum W) :=
  let q := { q with children := visitAll TermTuple.warmup q.children }
  let r := countQuorum true q
  loop fuel r.1 [] { q with hasDupes := r.2 }

/-- `GetDocsChunk` until it returns null; `k` bounds the turns of one call. -/
def drain [Add W] [Zero W] (k : Nat) : Nat → ExtQuorum W → Option (List (List (ExtDoc W)))
  | 0, _ => none
  | fuel + 1, q => do
    let (docs, q) ← getDocsChunk k q
    if docs = [] then some []
    else
      let rest ← drain k fuel q
      some (docs :: rest)

/-! ## What the operator denotes -/

/-- The number of hits in a document. -/
def hitsIn (row : RowID) (es : List (Entry W)) : Nat := (hitsOf (es.filter fun e => e.rowID = row)).length

/-- The query's keywords found in a document, each at most as often as it has hits there. -/
def matched (qwords : List Qword) (node : Nat → Operand W) (row : RowID) : Nat :=
  let words := qwords.map (·.wordID)
  (words.dedup.map fun w => min (words.count w) (hitsIn row (node w).entries)).sum

/-! ## One child -/

variable {row : RowID}

section Hits
variable {e : Entry W} {es fs : List (Entry W)}

theorem hitsIn_append : hitsIn row (es ++ fs) = hitsIn row es + hitsIn row fs := by
  rw [hitsIn, filter_append, hitsOf_append, length_append]
  rfl

theorem hitsIn_eq_zero (h : ∀ e ∈ es, e.rowID ≠ row) : hitsIn row es = 0 := by
  rw [hitsIn, filter_eq_nil_iff.mpr fun e he heq => h e he (of_decide_eq_true heq)]
  rfl

theorem hitsIn_cons_self (h : Ascending (e :: es)) : hitsIn e.rowID (e :: es) = e.hits.length := by
  have hzero := hitsIn_eq_zero fun f hf => Nat.ne_of_gt (h.head f hf)
  rw [hitsIn, filter_cons_of_pos (by exact decide_eq_true rfl), hitsOf_cons, length_append]
  exact Nat.add_eq_left.mpr hzero

end Hits

/-- What a child can still add to the quorum of a document. -/
def TermTuple.value (row : RowID) (c : TermTuple W) : Nat := min c.count (hitsIn row c.term.rest)

/-- **A child between two calls**: all documents below `low` are done, and the hits before the document cursor are theirs. -/
structure TermTuple.Idle (low : RowID) (c : TermTuple W) : Prop where
  before : c.term.Before c.term.pending c.term.rest
  hits : c.term.pending ≠ [] → ∃ stale, c.term.hits = stale ++ hitsOf c.term.pending ∧ ∀ h ∈ stale, h.rowID < low
  low : ∀ e ∈ c.term.rest, low ≤ e.rowID

/-- A child with a document under its cursor. -/
structure TermTuple.Ready (low : RowID) (c : TermTuple W) : Prop extends c.Idle low where
  some : c.term.pending ≠ []

/-- The hits of a child were read up to a row. -/
structure Passed (row : RowID) (c c' : TermTuple W) : Prop where
  count : c'.count = c.count
  stream : c'.term.stream = c.term.stream
  docs : c'.term.docs = c.term.docs
  hits : ∃ gone, c.term.hits = gone ++ c'.term.hits ∧ ∀ h ∈ gone, h.rowID ≤ row

theorem Passed.refl (row : RowID) (c : TermTuple W) : Passed row c c :=
  ⟨rfl, rfl, rfl, [], rfl, forall_mem_nil _⟩

theorem Passed.trans {c c' c'' : TermTuple W} (h : Passed row c c') (h' : Passed row c' c'') : Passed row c c'' := by
  obtain ⟨gone, heq, hgone⟩ := h.hits
  obtain ⟨gone', heq', hgone'⟩ := h'.hits
  refine ⟨h'.count.trans h.count, h'.stream.trans h.stream, h'.docs.trans h.docs, gone ++ gone', ?_, fun k hk => ?_⟩
  · rw [heq, heq', append_assoc]
  · exact (List.mem_append.mp hk).elim (hgone k) (hgone' k)

variable {low : RowID} {c : TermTuple W}

section Child
variable {c' : TermTuple W} {rest : List (Entry W)}

theorem ready_of_before {pending : List (Entry W)} {stale : List ExtHit} (hb : c.term.Before pending rest) (hne : pending ≠ [])
    (hhits : c.term.hits = stale ++ hitsOf pending) (hstale : ∀ h ∈ stale, h.rowID < low) (hlow : ∀ e ∈ rest, low ≤ e.rowID) :
    c.Ready low := by
  obtain rfl := hb.pending_eq
  obtain rfl := hb.rest_eq
  exact ⟨⟨hb, fun _ => ⟨stale, hhits, hstale⟩, hlow⟩, hne⟩

theorem fetch_spec (hb : ({ c.term with docs := [] } : Reader W).Before [] rest) (hlow : ∀ e ∈ rest, low ≤ e.rowID) :
    (rest = [] ∧ c.fetch = none) ∨ ∃ c', c.fetch = some c' ∧ c'.count = c.count ∧ c'.Ready low ∧ c'.term.rest = rest := by
  rcases getDocsChunk_spec hb with ⟨hnil, hdocs, -⟩ | ⟨pending, hne, hdocs, hb'⟩
  · left
    refine ⟨hnil, ?_⟩
    rw [TermTuple.fetch]
    dsimp only at hdocs ⊢
    rw [hdocs, if_pos rfl]
  · right
    have heq : c.fetch = some { c with term := {
        stream := c.term.stream.getDocsChunk.2
        docs := docsOf pending
        hits := c.term.stream.getDocsChunk.2.getHits (docsOf pending) } } := by
      rw [TermTuple.fetch]
      dsimp only at hdocs ⊢
      rw [hdocs, if_neg fun h => hne (docsOf_eq_nil.mp h)]
    have hread := hb' (c.term.stream.getDocsChunk.2.getHits (docsOf pending))
    refine ⟨_, heq, rfl, ready_of_before  hread hne ?_ (forall_mem_nil _) hlow, hread.rest_eq⟩
    exact getHits_docsOf hread

theorem warmup_spec (h : c.Idle low) :
    (c.term.rest = [] ∧ c.warmup = none) ∨ ∃ c', c.warmup = some c' ∧ c'.count = c.count ∧ c'.Ready low ∧ c'.term.rest = c.term.rest := by
  rw [TermTuple.warmup]
  by_cases hdocs : c.term.docs = []
  · rw [if_neg (Classical.not_not.mpr hdocs)]
    have hpend : c.term.pending = [] := h.before.docs_eq_nil.mp hdocs
    have hb := h.before
    rw [hpend] at hb
    exact fetch_spec ⟨rfl, hb.eq, hb.full, hb.asc, hb.current⟩ h.low
  · rw [if_pos hdocs]
    exact .inr ⟨c, rfl, rfl, ⟨h, fun hnil => hdocs (h.before.docs_eq_nil.mpr hnil)⟩, rfl⟩

section
variable (h : c.Ready low)
include h

theorem Ready.split : ∃ e p stale, c.term.Before (e :: p) c.term.rest ∧ c.term.pending = e :: p ∧
    headRow c.term.docs = e.rowID ∧ c.term.rest = e :: (p ++ c.term.stream.chunks.flatten) ∧
    c.term.hits = stale ++ hitsOf (e :: p) ∧ ∀ h ∈ stale, h.rowID < low := by
  obtain ⟨e, p, hp⟩ := exists_cons_of_ne_nil h.some
  obtain ⟨stale, hhits, hstale⟩ := h.hits h.some
  have hb := h.before
  rw [hp] at hb hhits
  exact ⟨e, p, stale, hb, hp, hb.headRow_cons, hb.eq, hhits, hstale⟩

theorem Ready.headRow_le : ∀ e ∈ c.term.rest, headRow c.term.docs ≤ e.rowID := by
  obtain ⟨e, p, -, hb, -, hhead, -⟩ := Ready.split h
  rw [hhead]
  exact fun f hf => hb.le_of_mem hf

theorem Ready.headRow_lt : headRow c.term.docs < invalidRowID := by
  obtain ⟨e, p, -, -, -, hhead, -⟩ := Ready.split h
  rw [hhead]
  exact e.valid

theorem Ready.low_le : low ≤ headRow c.term.docs := by
  obtain ⟨e, p, -, -, -, hhead, hrest, -⟩ := Ready.split h
  rw [hhead]
  exact h.low e (by rw [hrest]; exact mem_cons_self)

theorem Ready.skipHits (hlow : low ≤ row) (hrow : row ≤ headRow c.term.docs) :
    skipHits row c.term.hits = hitsOf c.term.pending := by
  obtain ⟨e, p, stale, hb, hp, hhead, -, hhits, hstale⟩ := Ready.split h
  rw [hhits, hp]
  refine skipHits_append (fun k hk => lt_of_lt_of_le (hstale k hk) hlow) fun k hk => ?_
  obtain ⟨f, hf, hk⟩ := rowID_of_mem_hitsOf hk
  rw [hk]
  refine le_trans (hhead ▸ hrow) (hb.le_of_mem ?_)
  rw [hb.eq]
  exact mem_append_left _ hf

theorem Ready.takeWhile (hrow : row ≤ headRow c.term.docs) :
    ((hitsOf c.term.pending).takeWhile (·.rowID = row)).length = hitsIn row c.term.rest := by
  obtain ⟨e, p, -, hb, hp, hhead, hrest, -⟩ := Ready.split h
  have hasc := hb.asc
  rw [hrest] at hasc ⊢
  rw [hp]
  rw [hhead] at hrow
  have hascp : Ascending (e :: p) := by
    exact hasc.left
  rcases lt_or_eq_of_le hrow with hlt | rfl
  · -- the child stands after the row
    have hlater : ∀ f ∈ e :: (p ++ c.term.stream.chunks.flatten), f.rowID ≠ row := fun f hf => by
      rcases mem_cons.mp hf with rfl | hf
      · exact Nat.ne_of_gt hlt
      · exact Nat.ne_of_gt (lt_trans hlt (hasc.head f hf))
    obtain ⟨htake, -⟩ := @ownHits_append row [] (hitsOf (e :: p)) (forall_mem_nil _) fun k hk => by
      obtain ⟨f, hf, hk⟩ := rowID_of_mem_hitsOf hk
      rw [hk]
      exact hlater f (by rw [← cons_append]; exact mem_append_left _ hf)
    rw [nil_append] at htake
    rw [hitsIn_eq_zero hlater, htake]
    rfl
  · rw [hitsIn_cons_self hasc, hitsOf_cons,
      (ownHits_append e.own fun k hk => Nat.ne_of_gt (hascp.lt_of_mem_hitsOf hk)).1]

/-- A child that stands after the row has no part in its quorum. -/
theorem Ready.value_eq_zero (hrow : row < headRow c.term.docs) : c.value row = 0 := by
  rw [TermTuple.value, hitsIn_eq_zero fun e he => Nat.ne_of_gt (lt_of_lt_of_le hrow (Ready.headRow_le h e he)), Nat.min_zero]

end

theorem value_le : c.value row ≤ c.count := min_le_left _ _

/-- A keyword that stands in the query once counts as soon as it has a document. -/
theorem Ready.value_of_count_one (h : c.Ready low) (hone : c.count = 1) : c.value (headRow c.term.docs) = 1 := by
  obtain ⟨e, p, -, hb, -, hhead, hrest, -⟩ := Ready.split h
  have hasc := hb.asc
  rw [hrest] at hasc
  have hpos : 0 < e.hits.length := length_pos_iff.mpr e.some
  rw [TermTuple.value, hone, hhead, hrest, hitsIn_cons_self hasc]
  omega

/-- **Advancing a child** past the row: it is over, or it stands at its next document. -/
theorem advance_spec (h : c.Ready low) (hpass : Passed row c c') (hlow : low ≤ row) (hrow : row ≤ headRow c.term.docs) :
    (headRow c.term.docs = row ∧ c'.advance row = none ∧ ∀ r, row < r → c.value r = 0) ∨
    ∃ c'', c'.advance row = some c'' ∧ c''.count = c.count ∧ c''.Ready (row + 1) ∧ (∀ r, row < r → c''.value r = c.value r) ∧
      c''.term.rest.length ≤ c.term.rest.length ∧ (headRow c.term.docs = row → c''.term.rest.length < c.term.rest.length) := by
  obtain ⟨e, p, stale, hb, hp, hhead, hrest, hhits, hstale⟩ := Ready.split h
  obtain ⟨gone, hgone, hgrow⟩ := hpass.hits
  have hasc := hb.asc
  rw [hrest] at hasc
  have hascp : Ascending (e :: p) := by
    rw [← cons_append] at hasc
    exact hasc.left
  -- the hits read are none of a later row
  have hsplit : ∀ before later, c.term.hits = before ++ later → (∀ k ∈ later, row < k.rowID) → (∀ k ∈ before, k.rowID ≤ row) →
      ∃ left, c'.term.hits = left ++ later ∧ ∀ k ∈ left, k.rowID < row + 1 := by
    intro before later heq hlater hbefore
    rw [hgone] at heq
    rcases append_eq_append_iff.mp heq with ⟨left, rfl, hleft⟩ | ⟨more, hg, hlate⟩
    · exact ⟨left, hleft, fun k hk => Nat.lt_succ_of_le (hbefore k (mem_append_right _ hk))⟩
    · cases more with
      | nil => exact ⟨[], hlate.symm, forall_mem_nil _⟩
      | cons k more =>
        refine absurd (hgrow k ?_) (Nat.not_le_of_lt (hlater k ?_))
        · rw [hg]
          exact mem_append_right _ mem_cons_self
        · rw [hlate]
          exact mem_cons_self
  rw [TermTuple.advance, hpass.docs]
  rw [hhead] at hrow ⊢
  by_cases heq : e.rowID = row
  · have htail : c.term.docs.tail = docsOf p := by rw [hb.docs, docsOf_cons, tail_cons]
    have hlater : ∀ r, row < r → hitsIn r c.term.rest = hitsIn r (p ++ c.term.stream.chunks.flatten) := fun r hr => by
      rw [hrest, ← singleton_append, hitsIn_append, hitsIn_eq_zero, zero_add]
      rintro f hf rfl
      rw [mem_singleton.mp hf] at hr
      exact absurd heq (Nat.ne_of_gt hr)
    have hless : (p ++ c.term.stream.chunks.flatten).length < c.term.rest.length := by
      rw [hrest]
      exact Nat.lt_succ_self _
    have hlow' : ∀ f ∈ p ++ c.term.stream.chunks.flatten, row + 1 ≤ f.rowID := fun f hf => Nat.succ_le_of_lt (heq ▸ hasc.head f hf)
    have hb' : ({ c'.term with docs := docsOf p } : Reader W).Before p (p ++ c.term.stream.chunks.flatten) :=
      (@Reader.Before.skip _ _ _ _ [e] hb []).congr hpass.stream rfl
    -- at its next document the child has lost nothing but the row
    have hnext : ∀ c'' : TermTuple W, c''.count = c'.count → c''.term.rest = p ++ c.term.stream.chunks.flatten →
        (∀ r, row < r → c''.value r = c.value r) ∧ c''.term.rest.length < c.term.rest.length := fun c'' hcount hrest'' => by
      refine ⟨fun r hr => ?_, hrest'' ▸ hless⟩
      rw [TermTuple.value, TermTuple.value, hlater r hr, hrest'', hcount, hpass.count]
    rw [if_neg (Classical.not_not.mpr heq), htail]
    by_cases hnil : p = []
    · -- the chunk is over
      rw [if_neg (Classical.not_not.mpr (docsOf_eq_nil.mpr hnil))]
      rw [hnil] at hb'
      rcases fetch_spec hb' (hnil ▸ hlow') with ⟨hover, hnone⟩ | ⟨c'', hsome, hcount, hready, hrest''⟩
      · left
        refine ⟨heq, hnone, fun r hr => ?_⟩
        rw [TermTuple.value, hlater r hr, hnil, hover]
        exact Nat.min_zero _
      · right
        obtain ⟨hvalue, hsize⟩ := hnext c'' hcount (hnil ▸ hrest'')
        exact ⟨c'', hsome, hcount.trans hpass.count, hready, hvalue, le_of_lt hsize, fun _ => hsize⟩
    · right
      rw [if_pos fun h => hnil (docsOf_eq_nil.mp h)]
      obtain ⟨left, hleft, hlrow⟩ := hsplit (stale ++ e.hits) (hitsOf p) (by rw [hhits, hitsOf_cons, append_assoc])
        (fun k hk => heq ▸ hascp.lt_of_mem_hitsOf hk) fun k hk => by
          rcases List.mem_append.mp hk with hk | hk
          · exact le_of_lt (lt_of_lt_of_le (hstale k hk) hlow)
          · exact le_of_eq ((e.own k hk).trans heq)
      obtain ⟨hvalue, hsize⟩ := hnext { c' with term := { c'.term with docs := docsOf p } } rfl hb'.rest_eq
      exact ⟨_, rfl, hpass.count, ready_of_before hb' hnil hleft hlrow hlow', hvalue, le_of_lt hsize, fun _ => hsize⟩
  · right
    have hlt : row < e.rowID := lt_of_le_of_ne hrow (Ne.symm heq)
    rw [if_pos heq]
    have hb' : c'.term.Before (e :: p) c.term.rest := hb.congr hpass.stream hpass.docs
    obtain ⟨left, hleft, hlrow⟩ := hsplit stale (hitsOf (e :: p)) hhits (fun k hk => by
      obtain ⟨f, hf, hk⟩ := rowID_of_mem_hitsOf hk
      rw [hk]
      rcases mem_cons.mp hf with rfl | hf
      · exact hlt
      · exact lt_trans hlt (hascp.head f hf)) fun k hk => le_of_lt (lt_of_lt_of_le (hstale k hk) hlow)
    refine ⟨c', rfl, hpass.count, ready_of_before hb' (cons_ne_nil _ _) hleft hlrow ?_, fun r _ => ?_, ?_, fun h => absurd h heq⟩
    · exact fun f hf => Nat.succ_le_of_lt (lt_of_lt_of_le hlt (hb.le_of_mem hf))
    · rw [TermTuple.value, TermTuple.value, hb'.rest_eq, hpass.count]
    · rw [hb'.rest_eq]

end Child

/-! ## All children -/

/-- What the children can still make of a document's quorum. -/
def total (row : RowID) (cs : List (TermTuple W)) : Nat := (cs.map (TermTuple.value row)).sum

def counts (cs : List (TermTuple W)) : Nat := (cs.map (·.count)).sum

def size (cs : List (TermTuple W)) : Nat := (cs.map fun c => c.term.rest.length).sum

/-- The keywords whose child stands at the row. -/
def countAt (row : RowID) (cs : List (TermTuple W)) : Nat :=
  (cs.map fun c => if headRow c.term.docs = row then c.count else 0).sum

section Children
variable {cs cs' : List (TermTuple W)}

theorem total_cons : total row (c :: cs) = c.value row + total row cs := rfl

theorem counts_cons : counts (c :: cs) = c.count + counts cs := rfl

theorem size_cons : size (c :: cs) = c.term.rest.length + size cs := rfl

theorem countAt_cons : countAt row (c :: cs) = (if headRow c.term.docs = row then c.count else 0) + countAt row cs := rfl

theorem total_le_counts : ∀ cs : List (TermTuple W), total row cs ≤ counts cs
  | [] => le_refl _
  | _ :: cs => add_le_add value_le (total_le_counts cs)

theorem counts_eq_length : ∀ {cs : List (TermTuple W)}, (∀ c ∈ cs, c.count = 1) → counts cs = cs.length
  | [], _ => rfl
  | c :: cs, h => by
    rw [counts_cons, h c mem_cons_self, counts_eq_length (forall_mem_cons.mp h).2, length_cons, add_comm]

/-- **The least document**: no child stands before it, and `iQuorum` counts the children at it. -/
theorem foldl_candidate [Add W] : ∀ (cs : List (TermTuple W)) (s : ExtDoc W × Nat), (∀ c ∈ cs, c.Ready low) →
    (cs.foldl candidate s).1.rowID ≤ s.1.rowID ∧ (∀ c ∈ cs, (cs.foldl candidate s).1.rowID ≤ headRow c.term.docs) ∧
    ((cs.foldl candidate s).1.rowID = s.1.rowID ∨ ∃ c ∈ cs, headRow c.term.docs = (cs.foldl candidate s).1.rowID) ∧
    (cs.foldl candidate s).2 =
      (if (cs.foldl candidate s).1.rowID = s.1.rowID then s.2 else 0) + countAt (cs.foldl candidate s).1.rowID cs
  | [], s, _ => ⟨le_refl _, forall_mem_nil _, .inl rfl, by rw [foldl_nil, if_pos rfl]; rfl⟩
  | c :: cs, s, h => by
    obtain ⟨e, p, -, hb, -, hhead, -⟩ := Ready.split (h c mem_cons_self)
    -- the child's own step
    have hstep : (candidate s c).1.rowID ≤ s.1.rowID ∧ (candidate s c).1.rowID ≤ e.rowID ∧
        ((candidate s c).1.rowID = s.1.rowID ∨ (candidate s c).1.rowID = e.rowID) ∧
        (candidate s c).2 = (if (candidate s c).1.rowID = s.1.rowID then s.2 else 0) +
          if e.rowID = (candidate s c).1.rowID then c.count else 0 := by
      have hcand : candidate s c = if e.rowID < s.1.rowID then (e.doc, c.count)
          else if e.rowID = s.1.rowID then
            ({ s.1 with docFields := s.1.docFields ||| e.doc.docFields, tfidf := s.1.tfidf + e.doc.tfidf }, s.2 + c.count)
          else s := by
        rw [candidate, hb.docs, docsOf_cons]
      by_cases hlt : e.rowID < s.1.rowID
      · rw [if_pos hlt] at hcand
        rw [hcand]
        refine ⟨le_of_lt hlt, le_refl _, .inr rfl, ?_⟩
        dsimp only
        rw [if_neg (ne_of_lt hlt), if_pos rfl, zero_add]
      · rw [if_neg hlt] at hcand
        by_cases heq : e.rowID = s.1.rowID
        · rw [if_pos heq] at hcand
          rw [hcand]
          exact ⟨le_refl _, not_lt.mp hlt, .inl rfl, by dsimp only; rw [if_pos rfl, if_pos heq]⟩
        · rw [if_neg heq] at hcand
          rw [hcand]
          exact ⟨le_refl _, not_lt.mp hlt, .inl rfl, by rw [if_pos rfl, if_neg heq, add_zero]⟩
    obtain ⟨hle, hhead', hor, hsum⟩ := hstep
    obtain ⟨ihle, ihhead, ihor, ihsum⟩ := foldl_candidate cs (candidate s c) (forall_mem_cons.mp h).2
    rw [foldl_cons]
    generalize cs.foldl candidate (candidate s c) = t at ihle ihhead ihor ihsum ⊢
    generalize candidate s c = u at hle hhead' hor hsum ihle ihhead ihor ihsum
    refine ⟨le_trans ihle hle, forall_mem_cons.mpr ⟨hhead ▸ le_trans ihle hhead', ihhead⟩, ?_, ?_⟩
    · rcases ihor with ihor | ⟨d, hd, hrow⟩
      · rcases hor with hor | hor
        · exact .inl (ihor.trans hor)
        · exact .inr ⟨c, mem_cons_self, hhead.trans (ihor.trans hor).symm⟩
      · exact .inr ⟨d, mem_cons_of_mem _ hd, hrow⟩
    · rw [ihsum, countAt_cons, hhead]
      by_cases htu : t.1.rowID = u.1.rowID
      · rw [if_pos htu, hsum, htu]
        omega
      · have hlt : t.1.rowID < u.1.rowID := lt_of_le_of_ne ihle htu
        rw [if_neg htu, if_neg (ne_of_lt (lt_of_lt_of_le hlt hle)), if_neg (Nat.ne_of_gt (lt_of_lt_of_le hlt hhead')),
          zero_add, zero_add]

/-- With every keyword once in the query, a document's quorum is the number of children at it. -/
theorem total_of_count_one : ∀ (cs : List (TermTuple W)), (∀ c ∈ cs, c.Ready low) → (∀ c ∈ cs, row ≤ headRow c.term.docs) →
    (∀ c ∈ cs, c.count = 1) → total row cs = countAt row cs
  | [], _, _, _ => rfl
  | c :: cs, h, hrow, hone => by
    have ih := total_of_count_one cs (forall_mem_cons.mp h).2 (forall_mem_cons.mp hrow).2
      (forall_mem_cons.mp hone).2
    rw [total_cons, countAt_cons, ih]
    by_cases heq : headRow c.term.docs = row
    · rw [if_pos heq, ← heq, Ready.value_of_count_one (h c mem_cons_self) (hone c mem_cons_self), hone c mem_cons_self]
    · rw [if_neg heq, Ready.value_eq_zero (h c mem_cons_self)
        (lt_of_le_of_ne (hrow c mem_cons_self) (Ne.symm heq))]

theorem total_eq_zero (h : ∀ c ∈ cs, c.Ready low) (hrow : ∀ c ∈ cs, row < headRow c.term.docs) : total row cs = 0 := by
  refine sum_eq_zero fun v hv => ?_
  obtain ⟨d, hd, rfl⟩ := mem_map.mp hv
  exact Ready.value_eq_zero (h d hd) (hrow d hd)

/-- Nothing is left below the row that the children have passed. -/
theorem le_of_total {thresh : Nat} (h : ∀ c ∈ cs, c.Ready low) (hpos : 1 ≤ thresh) (hrow : thresh ≤ total row cs) : low ≤ row := by
  refine not_lt.mp fun hlt => Nat.not_lt_zero _ (lt_of_lt_of_le hpos (le_trans hrow ?_))
  rw [total_eq_zero h fun c hc => lt_of_lt_of_le hlt (Ready.low_le (h c hc))]

theorem total_le_countAt : ∀ (cs : List (TermTuple W)), (∀ c ∈ cs, c.Ready low) → (∀ c ∈ cs, row ≤ headRow c.term.docs) →
    total row cs ≤ countAt row cs
  | [], _, _ => le_refl _
  | c :: cs, h, hrow => by
    have ih := total_le_countAt cs (forall_mem_cons.mp h).2 (forall_mem_cons.mp hrow).2
    rw [total_cons, countAt_cons]
    refine add_le_add ?_ ih
    by_cases heq : headRow c.term.docs = row
    · rw [if_pos heq]
      exact value_le
    · rw [if_neg heq]
      exact le_of_eq (Ready.value_eq_zero (h c mem_cons_self)
        (lt_of_le_of_ne (hrow c mem_cons_self) (Ne.symm heq)))

/-! ## Collecting hits -/

theorem passed_skip (row : RowID) (c : TermTuple W) (hits : List ExtHit) (h : ∃ gone, skipHits row c.term.hits = gone ++ hits ∧
    ∀ k ∈ gone, k.rowID = row) : Passed row c { c with term := { c.term with hits := hits } } := by
  obtain ⟨gone, heq, hgone⟩ := h
  refine ⟨rfl, rfl, rfl, c.term.hits.takeWhile (·.rowID < row) ++ gone, ?_, fun k hk => ?_⟩
  · rw [append_assoc, ← heq, skipHits]
    exact takeWhile_append_dropWhile.symm
  · rcases List.mem_append.mp hk with hk | hk
    · exact le_of_lt (rowID_lt_of_mem_takeWhile hk)
    · exact le_of_eq (hgone k hk)

theorem passed_collectAll (row : RowID) (c : TermTuple W) : Passed row c (collectAll row c).2 :=
  passed_skip row c _ ⟨_, takeWhile_append_dropWhile.symm, fun _ hk => rowID_of_mem_takeWhile hk⟩

theorem passed_collectRest (row : RowID) (c : TermTuple W) : Passed row c (collectRest row c).2 :=
  ⟨rfl, rfl, rfl, _, takeWhile_append_dropWhile.symm,
    fun _ hk => le_of_eq (rowID_of_mem_takeWhile hk)⟩

/-- **The counting loop** finds a quorum if there is one. -/
theorem countHits_spec (thresh : Nat) : ∀ (cs : List (TermTuple W)) (quorum : Nat), (∀ c ∈ cs, c.Ready low) → low ≤ row →
    (∀ c ∈ cs, row ≤ headRow c.term.docs) →
    List.Forall₂ (Passed row) cs (countHits row thresh quorum cs).2.2 ∧
    (thresh ≤ (countHits row thresh quorum cs).2.1 ↔ thresh ≤ quorum + total row cs)
  | [], _, _, _, _ => ⟨.nil, Iff.rfl⟩
  | c :: cs, quorum, h, hlow, hrow => by
    have hready := h c mem_cons_self
    have hskip := Ready.skipHits hready hlow (hrow c mem_cons_self)
    have hne : ¬ c.term.hits = [] := by
      obtain ⟨e, p, stale, -, -, -, -, hhits, -⟩ := Ready.split hready
      rw [hhits, hitsOf_cons]
      exact fun hnil => e.some (append_eq_nil_iff.mp (append_eq_nil_iff.mp hnil).2).1
    have hlen : (((hitsOf c.term.pending).takeWhile (·.rowID = row)).take c.count).length = c.value row := by
      rw [length_take, Ready.takeWhile hready (hrow c mem_cons_self)]
      rfl
    have hpass : Passed row c { c with term := { c.term with hits := (hitsOf c.term.pending).drop (c.value row) } } := by
      refine passed_skip row c _ ⟨((hitsOf c.term.pending).takeWhile (·.rowID = row)).take c.count, ?_, fun k hk => ?_⟩
      · have hpre : ((hitsOf c.term.pending).takeWhile (·.rowID = row)).take c.count <+: hitsOf c.term.pending :=
          ( take_prefix _ _).trans ( takeWhile_prefix _)
        obtain ⟨rest, hrest⟩ := hpre
        have hdrop : (hitsOf c.term.pending).drop (c.value row) = rest := by
          rw [← hlen]
          nth_rewrite 2 [← hrest]
          exact drop_left
        rw [hskip, hdrop, hrest]
      · exact rowID_of_mem_takeWhile (mem_of_mem_take hk)
    rw [countHits, if_neg hne]
    dsimp only
    rw [hskip, hlen, total_cons]
    by_cases hge : quorum + c.value row ≥ thresh
    · rw [if_pos hge]
      refine ⟨.cons hpass (forall₂_same.mpr fun d _ => Passed.refl row d), ?_⟩
      constructor
      · intro _
        omega
      · exact fun _ => hge
    · rw [if_neg hge]
      obtain ⟨ihpass, ihsum⟩ := countHits_spec thresh cs (quorum + c.value row) (forall_mem_cons.mp h).2 hlow
        (forall_mem_cons.mp hrow).2
      refine ⟨.cons hpass ihpass, ?_⟩
      rw [ihsum, add_assoc]

theorem forall₂_map_passed {f : TermTuple W → List ExtHit × TermTuple W} (hf : ∀ c, Passed row c (f c).2) :
    ∀ {cs cs' : List (TermTuple W)}, List.Forall₂ (Passed row) cs cs' → List.Forall₂ (Passed row) cs ((cs'.map f).map (·.2))
  | [], [], .nil => .nil
  | _ :: _, _ :: _, .cons h hs => .cons (h.trans (hf _)) (forall₂_map_passed hf hs)

/-- **`CollectMatchingHits`** tells whether the document has a quorum. -/
theorem collectMatchingHits_spec (q : ExtQuorum W) (h : ∀ c ∈ q.children, c.Ready low) (hlow : low ≤ row)
    (hrow : ∀ c ∈ q.children, row ≤ headRow c.term.docs) (hdupes : q.hasDupes = false → ∀ c ∈ q.children, c.count = 1)
    (hquorum : q.thresh ≤ countAt row q.children) :
    ∃ q', collectMatchingHits row q = (decide (q.thresh ≤ total row q.children), q') ∧ q'.thresh = q.thresh ∧
      q'.hasDupes = q.hasDupes ∧ List.Forall₂ (Passed row) q.children q'.children := by
  have hrefl : List.Forall₂ (Passed row) q.children q.children := forall₂_same.mpr fun d _ => Passed.refl row d
  rw [collectMatchingHits]
  cases hd : q.hasDupes with
  | false =>
    rw [if_pos (by decide), total_of_count_one q.children h hrow (hdupes hd), decide_eq_true hquorum]
    exact ⟨_, rfl, rfl, rfl, forall₂_map_passed (passed_collectAll row) hrefl⟩
  | true =>
    obtain ⟨hpass, hsum⟩ := countHits_spec q.thresh q.children 0 h hlow hrow
    rw [zero_add] at hsum
    by_cases hlt : (countHits row q.thresh 0 q.children).2.1 < q.thresh
    · rw [if_pos hlt, decide_eq_false fun hle => Nat.not_le_of_lt hlt (hsum.mpr hle)]
      exact ⟨_, rfl, rfl, rfl, hpass⟩
    · rw [if_neg hlt, decide_eq_true (hsum.mp (not_lt.mp hlt))]
      exact ⟨_, rfl, rfl, rfl, forall₂_map_passed (passed_collectRest row) hpass⟩

/-! ## Advancing -/

/-- The children after the row: what they have to come is the same, without the row. -/
structure After (row : RowID) (cs cs' : List (TermTuple W)) : Prop where
  ready : ∀ c ∈ cs', c.Ready (row + 1)
  count : ∀ c ∈ cs', ∃ d ∈ cs, c.count = d.count
  total : ∀ r, row < r → total r cs' = total r cs
  counts : counts cs' ≤ counts cs
  length : cs'.length ≤ cs.length
  size : size cs' ≤ size cs
  less : (∃ c ∈ cs, headRow c.term.docs = row) → Quorum.size cs' + cs'.length < Quorum.size cs + cs.length

theorem filterMap_advance (hlow : low ≤ row) : ∀ {cs cs' : List (TermTuple W)}, List.Forall₂ (Passed row) cs cs' → (∀ c ∈ cs, c.Ready low) →
    (∀ c ∈ cs, row ≤ headRow c.term.docs) → After row cs (cs'.filterMap (TermTuple.advance row))
  | [], [], .nil, _, _ => ⟨forall_mem_nil _, forall_mem_nil _, fun _ _ => rfl,
      le_refl _, le_refl _, le_refl _, fun ⟨c, hc, _⟩ => absurd hc not_mem_nil⟩
  | c :: cs, c' :: cs', .cons hp hps, h, hrow => by
    have ih := filterMap_advance hlow hps (forall_mem_cons.mp h).2 (forall_mem_cons.mp hrow).2
    have hle := ih.size
    have hlen := ih.length
    have hcounts := ih.counts
    have hmore : ∀ b ∈ cs'.filterMap (TermTuple.advance row), ∃ d ∈ c :: cs, b.count = d.count := fun b hb => by
      obtain ⟨d, hd, hcount⟩ := ih.count b hb
      exact ⟨d, mem_cons_of_mem _ hd, hcount⟩
    rcases advance_spec (h c mem_cons_self) hp hlow (hrow c mem_cons_self) with
      ⟨hat, hnone, hzero⟩ | ⟨c'', hsome, hcount, hready, hvalue, hsize, hless⟩
    · rw [filterMap_cons_none hnone]
      refine ⟨ih.ready, hmore, fun r hr => ?_, ?_, ?_, ?_, fun _ => ?_⟩
      · rw [total_cons, hzero r hr, zero_add]
        exact ih.total r hr
      · rw [counts_cons]
        omega
      · rw [length_cons]
        omega
      · rw [size_cons]
        omega
      · rw [size_cons, length_cons]
        omega
    · rw [filterMap_cons_some hsome]
      refine ⟨forall_mem_cons.mpr ⟨hready, ih.ready⟩, forall_mem_cons.mpr ⟨⟨c, mem_cons_self, hcount⟩, hmore⟩,
        fun r hr => ?_, ?_, ?_, ?_, ?_⟩
      · rw [total_cons, total_cons, hvalue r hr, ih.total r hr]
      · rw [counts_cons, counts_cons, hcount]
        omega
      · rw [length_cons, length_cons]
        omega
      · rw [size_cons, size_cons]
        omega
      · rintro ⟨d, hd, hat⟩
        rw [size_cons, size_cons, length_cons, length_cons]
        rcases mem_cons.mp hd with rfl | hd
        · have := hless hat
          omega
        · have := ih.less ⟨d, hd, hat⟩
          omega

theorem After.perm {cs'' : List (TermTuple W)} (h : After row cs cs') (hp : cs''.Perm cs') : After row cs cs'' where
  ready := fun c hc => h.ready c (hp.subset hc)
  count := fun c hc => h.count c (hp.subset hc)
  total := fun r hr => ((hp.map _).sum_eq).trans (h.total r hr)
  counts := le_trans (le_of_eq (hp.map _).sum_eq) h.counts
  length := le_trans (le_of_eq hp.length_eq) h.length
  size := le_trans (le_of_eq (hp.map _).sum_eq) h.size
  less := fun hex => by
    have hsize : Quorum.size cs'' = Quorum.size cs' := (hp.map _).sum_eq
    rw [hsize, hp.length_eq]
    exact h.less hex

end Children

/-! ## Turns and chunks -/

/-- **The node inside a call**: all documents below `low` are done. -/
structure Inv (low : RowID) (q : ExtQuorum W) : Prop where
  ready : ∀ c ∈ q.children, c.Ready low
  some : ∀ c ∈ q.children, 1 ≤ c.count
  dupes : q.hasDupes = false → ∀ c ∈ q.children, c.count = 1
  pos : 1 ≤ q.thresh

section Turns
variable [Add W] [Zero W] {q : ExtQuorum W}

/-- **A turn** deals with the least document: it is added if it has a quorum, and nothing else is lost. -/
theorem turn_spec (docs : List (ExtDoc W)) (h : Inv low q) (hne : q.children ≠ []) :
    ∃ row new q', turn docs q = (docs ++ new, q') ∧ Inv (row + 1) q' ∧ q'.thresh = q.thresh ∧ low ≤ row ∧ After row q.children q'.children ∧
      (∀ r < row, total r q.children = 0) ∧ new.map (·.rowID) = (if q.thresh ≤ total row q.children then [row] else []) ∧
      size q'.children + q'.children.length < size q.children + q.children.length := by
  obtain ⟨-, hleast, hfound, hsum⟩ := foldl_candidate q.children ((⟨invalidRowID, 0, 0⟩, 0) : ExtDoc W × Nat) h.ready
  rw [turn]
  generalize q.children.foldl candidate ((⟨invalidRowID, 0, 0⟩, 0) : ExtDoc W × Nat) = cand at hleast hfound hsum ⊢
  obtain ⟨c₀, hc₀⟩ := exists_mem_of_ne_nil _ hne
  have hvalid : cand.1.rowID < invalidRowID := lt_of_le_of_lt (hleast c₀ hc₀) (Ready.headRow_lt (h.ready c₀ hc₀))
  obtain ⟨c, hc, hat⟩ := hfound.resolve_left (ne_of_lt hvalid)
  have hlow : low ≤ cand.1.rowID := hat ▸ Ready.low_le (h.ready c hc)
  rw [if_neg (ne_of_lt hvalid), zero_add] at hsum
  have hbelow : ∀ r < cand.1.rowID, total r q.children = 0 := fun r hr =>
    total_eq_zero h.ready fun d hd => lt_of_lt_of_le hr (hleast d hd)
  -- the hits are collected if enough keywords are at the document
  have hcollect : ∃ q₁, (if cand.2 ≥ q.thresh then collectMatchingHits cand.1.rowID q else (false, q)) =
      (decide (q.thresh ≤ total cand.1.rowID q.children), q₁) ∧ q₁.thresh = q.thresh ∧ q₁.hasDupes = q.hasDupes ∧
      List.Forall₂ (Passed cand.1.rowID) q.children q₁.children := by
    rw [hsum]
    by_cases hge : q.thresh ≤ countAt cand.1.rowID q.children
    · rw [if_pos hge]
      exact collectMatchingHits_spec q h.ready hlow hleast h.dupes hge
    · rw [if_neg hge, decide_eq_false fun hle => hge (le_trans hle (total_le_countAt q.children h.ready hleast))]
      exact ⟨q, rfl, rfl, rfl, forall₂_same.mpr fun d _ => Passed.refl _ d⟩
  obtain ⟨q₁, heq, hthresh, hdupes, hpass⟩ := hcollect
  rw [heq]
  have hafter : After cand.1.rowID q.children (visitAll (TermTuple.advance cand.1.rowID) q₁.children) :=
    (filterMap_advance hlow hpass h.ready hleast).perm (visitAll_perm _ _)
  refine ⟨cand.1.rowID, if q.thresh ≤ total cand.1.rowID q.children then [cand.1] else [], _, Prod.ext ?_ rfl,
    ⟨hafter.ready, fun b hb => ?_, fun hd b hb => ?_, hthresh ▸ h.pos⟩, hthresh, hlow, hafter, hbelow, ?_, hafter.less ⟨c, hc, hat⟩⟩
  · by_cases hle : q.thresh ≤ total cand.1.rowID q.children
    · rw [decide_eq_true hle, if_pos rfl, if_pos hle]
    · rw [decide_eq_false hle, if_neg Bool.false_ne_true, if_neg hle, append_nil]
  · obtain ⟨d, hd, hcount⟩ := hafter.count b hb
    rw [hcount]
    exact h.some d hd
  · obtain ⟨d, hmem, hcount⟩ := hafter.count b hb
    exact hcount.trans (h.dupes (hdupes ▸ hd) d hmem)
  · split
    · rfl
    · rfl

omit [Add W] [Zero W] in
theorem countQuorum_false (h : Inv low q) : countQuorum false q = (counts q.children, q.hasDupes) := by
  rw [countQuorum]
  cases hd : q.hasDupes with
  | true =>
    rfl
  | false =>
    rw [if_neg Bool.false_ne_true, counts_eq_length (h.dupes hd)]

omit [Add W] [Zero W] in
/-- `m_bHasDupes` may be switched off, and rightly so. -/
theorem countQuorum_true (h : Inv low q) : (countQuorum true q).1 = counts q.children ∧
    ((countQuorum true q).2 = false → ∀ c ∈ q.children, c.count ≤ 1) := by
  rw [countQuorum]
  cases hd : q.hasDupes with
  | true =>
    refine ⟨rfl, fun hany c hc => not_lt.mp fun hlt => ?_⟩
    exact Bool.false_ne_true (hany.symm.trans (any_eq_true.mpr ⟨c, hc, decide_eq_true hlt⟩))
  | false =>
    exact ⟨(counts_eq_length (h.dupes hd)).symm, fun _ c hc => le_of_eq (h.dupes hd c hc)⟩

/-- What a call has done: its documents are, in order, those with a quorum up to some row. -/
structure Done (cs : List (TermTuple W)) (thresh : Nat) (rows : List RowID) (cs' : List (TermTuple W)) : Prop where
  sorted : rows.Pairwise (· < ·)
  exact : ∀ r, thresh ≤ total r cs ↔ r ∈ rows ∨ thresh ≤ total r cs'
  later : ∀ r ∈ rows, ∀ r', thresh ≤ total r' cs' → r < r'

/-- **The main loop**: the documents with a quorum come in order, until the chunk is full or there can be no more. -/
theorem loop_spec : ∀ (fuel : Nat) (low : RowID) (left : Nat) (docs : List (ExtDoc W)) (q : ExtQuorum W), Inv low q →
    counts q.children ≤ left → (q.children = [] → left = 0) → (∀ r, q.thresh ≤ total r q.children → low ≤ r) →
    size q.children + q.children.length < fuel →
    ∃ new q' low', loop fuel left docs q = some (docs ++ new, q') ∧ Inv low' q' ∧ q'.thresh = q.thresh ∧
      Done q.children q.thresh (new.map (·.rowID)) q'.children ∧ (∀ d ∈ new, low ≤ d.rowID) ∧
      size q'.children + q'.children.length ≤ size q.children + q.children.length ∧
      (new ≠ [] → size q'.children + q'.children.length < size q.children + q.children.length) ∧
      ((docs ++ new).length < MAX_BLOCK_DOCS - 1 → ∀ r, total r q'.children < q.thresh)
  | 0, _, _, _, _, _, _, _, _, hfuel => absurd hfuel (Nat.not_lt_zero _)
  | fuel + 1, low, left, docs, q, h, hleft, hnone, hlow, hfuel => by
    rw [loop]
    by_cases hgo : docs.length < MAX_BLOCK_DOCS - 1 ∧ left ≥ q.thresh
    · rw [if_pos hgo]
      have hne : q.children ≠ [] := fun hnil => by
        have := h.pos
        have := hnone hnil
        omega
      obtain ⟨row, new, q₁, hturn, hinv, hthresh, hle, hafter, hbelow, hnew, hless⟩ := turn_spec docs h hne
      rw [hturn]
      dsimp only
      rw [countQuorum_false hinv]
      generalize hleft' : (if q.children.length ≠ q₁.children.length then counts q₁.children else left) = left'
      have hcounts : counts q₁.children ≤ left' := by
        rw [← hleft']
        split
        · exact le_refl _
        · exact le_trans hafter.counts hleft
      have hnone' : q₁.children = [] → left' = 0 := fun hnil => by
        rw [← hleft', if_pos, hnil]
        · rfl
        · rw [hnil]
          exact fun hlen => hne (length_eq_zero_iff.mp hlen)
      -- what the children have after the row
      have hafter' : ∀ r, q.thresh ≤ total r q₁.children → row < r := fun r hr => le_of_total hinv.ready h.pos hr
      obtain ⟨new', q', low', hloop, hinv', hthresh', hdone, hnew', hsize, -, hfull⟩ :=
        loop_spec fuel (row + 1) left' (docs ++ new) q₁ hinv hcounts hnone' (fun r hr => hafter' r (hthresh ▸ hr)) (by omega)
      rw [hthresh] at hdone hfull
      have hrow : ∀ r, q.thresh ≤ total r q.children ↔ r ∈ new.map (·.rowID) ∨ q.thresh ≤ total r q₁.children := fun r => by
        rw [hnew, mem_ite_nil_right, mem_singleton]
        rcases lt_trichotomy r row with hlt | rfl | hgt
        · rw [hbelow r hlt]
          refine iff_of_false (Nat.not_le_of_lt h.pos) ?_
          rintro (hr | hr)
          · exact ne_of_lt hlt hr.2
          · exact lt_asymm hlt (hafter' r hr)
        · refine ⟨fun hr => .inl ⟨hr, rfl⟩, ?_⟩
          rintro (hr | hr)
          · exact hr.1
          · exact absurd (hafter' r hr) (lt_irrefl r)
        · rw [hafter.total r hgt]
          exact (or_iff_right fun hr => Nat.ne_of_gt hgt hr.2).symm
      have hnewrow : ∀ r ∈ new.map (·.rowID), r = row := fun r hr => by
        rw [hnew, mem_ite_nil_right] at hr
        exact mem_singleton.mp hr.2
      refine ⟨new ++ new', q', low', ?_, hinv', hthresh'.trans hthresh, ⟨?_, fun r => ?_, fun r hr r' hr' => ?_⟩, ?_, by omega,
        fun _ => by omega, ?_⟩
      · rw [hloop, append_assoc]
      · rw [map_append, pairwise_append]
        refine ⟨?_, hdone.sorted, fun r hr r' hr' => ?_⟩
        · rw [hnew]
          split
          · exact pairwise_singleton _ _
          · exact .nil
        · obtain ⟨d, hd, rfl⟩ := mem_map.mp hr'
          rw [hnewrow r hr]
          exact Nat.lt_of_succ_le (hnew' d hd)
      · rw [hrow r, hdone.exact r, map_append, List.mem_append, or_assoc]
      · rw [map_append, List.mem_append] at hr
        rcases hr with hr | hr
        · rw [hnewrow r hr]
          exact hafter' r' ((hdone.exact r').mpr (.inr hr'))
        · exact hdone.later r hr r' hr'
      · intro d hd
        rcases List.mem_append.mp hd with hd | hd
        · rw [hnewrow _ (mem_map_of_mem hd)]
          exact hle
        · exact le_trans (Nat.le_succ_of_le hle) (hnew' d hd)
      · rw [← append_assoc]
        exact hfull
    · rw [if_neg hgo]
      refine ⟨[], q, low, by rw [append_nil], h, rfl, ⟨.nil, fun r => ?_, forall_mem_nil _⟩,
        forall_mem_nil _, le_refl _, fun hne => absurd rfl hne, fun hlen r => ?_⟩
      · rw [map_nil, or_iff_right not_mem_nil]
      · rw [append_nil] at hlen
        have hlt : left < q.thresh := not_le.mp fun hge => hgo ⟨hlen, hge⟩
        exact lt_of_le_of_lt (le_trans (total_le_counts q.children) hleft) hlt

/-! ## Whole runs -/

/-- **The node between two calls.** -/
structure Between (low : RowID) (q : ExtQuorum W) : Prop where
  idle : ∀ c ∈ q.children, c.Idle low
  some : ∀ c ∈ q.children, 1 ≤ c.count
  dupes : q.hasDupes = false → ∀ c ∈ q.children, c.count = 1
  pos : 1 ≤ q.thresh

omit [Add W] [Zero W] in
/-- The warmup: children that are over are removed, the others stand at a document. -/
theorem filterMap_warmup : ∀ (cs : List (TermTuple W)), (∀ c ∈ cs, c.Idle low) →
    (∀ c ∈ cs.filterMap TermTuple.warmup, c.Ready low ∧ ∃ d ∈ cs, c.count = d.count) ∧
    (∀ r, total r (cs.filterMap TermTuple.warmup) = total r cs) ∧ size (cs.filterMap TermTuple.warmup) = size cs ∧
    (cs.filterMap TermTuple.warmup).length ≤ cs.length
  | [], _ => ⟨forall_mem_nil _, fun _ => rfl, rfl, le_refl _⟩
  | c :: cs, h => by
    obtain ⟨ihready, ihtotal, ihsize, ihlen⟩ := filterMap_warmup cs (forall_mem_cons.mp h).2
    have hmore : ∀ d ∈ cs.filterMap TermTuple.warmup, d.Ready low ∧ ∃ b ∈ c :: cs, d.count = b.count := fun d hd => by
      obtain ⟨hr, b, hb, hcount⟩ := ihready d hd
      exact ⟨hr, b, mem_cons_of_mem _ hb, hcount⟩
    rcases warmup_spec (h c mem_cons_self) with ⟨hnil, hnone⟩ | ⟨c', hsome, hcount, hready, hrest⟩
    · rw [filterMap_cons_none hnone]
      refine ⟨hmore, fun r => ?_, ?_, Nat.le_succ_of_le ihlen⟩
      · rw [total_cons, TermTuple.value, hnil, ihtotal r]
        exact (zero_add _).symm.trans (congrArg (· + _) (Nat.min_zero _).symm)
      · rw [size_cons, hnil, ihsize, length_nil, zero_add]
    · rw [filterMap_cons_some hsome]
      refine ⟨forall_mem_cons.mpr ⟨⟨hready, c, mem_cons_self, hcount⟩, hmore⟩, fun r => ?_, ?_, Nat.succ_le_succ ihlen⟩
      · rw [total_cons, total_cons, ihtotal r, TermTuple.value, TermTuple.value, hcount, hrest]
      · rw [size_cons, size_cons, ihsize, hrest]

/-- **A chunk** holds the next documents with a quorum; it is null only when there are none left. -/
theorem getDocsChunk_spec (k : Nat) (h : Between low q) (hk : size q.children + q.children.length < k) :
    ∃ docs q' low', getDocsChunk k q = some (docs, q') ∧ Between low' q' ∧ q'.thresh = q.thresh ∧
      Done q.children q.thresh (docs.map (·.rowID)) q'.children ∧
      (docs ≠ [] → size q'.children + q'.children.length < size q.children + q.children.length) ∧
      (docs = [] → ∀ r, total r q'.children < q.thresh) := by
  obtain ⟨hready, htotal, hsize, hlen⟩ := filterMap_warmup q.children h.idle
  have hperm := visitAll_perm TermTuple.warmup q.children
  rw [getDocsChunk]
  generalize visitAll TermTuple.warmup q.children = cs at hperm
  replace hready : ∀ c ∈ cs, c.Ready low ∧ ∃ d ∈ q.children, c.count = d.count := fun c hc => hready c (hperm.subset hc)
  have htotal' : ∀ r, total r cs = total r q.children := fun r => ((hperm.map _).sum_eq).trans (htotal r)
  have hsize' : size cs = size q.children := ((hperm.map _).sum_eq).trans hsize
  have hlen' : cs.length ≤ q.children.length := le_trans (le_of_eq hperm.length_eq) hlen
  have hsome : ∀ c ∈ cs, 1 ≤ c.count := fun c hc => by
    obtain ⟨-, d, hd, hcount⟩ := hready c hc
    rw [hcount]
    exact h.some d hd
  have hinv : Inv low ({ q with children := cs } : ExtQuorum W) := by
    refine ⟨fun c hc => (hready c hc).1, hsome, fun hd c hc => ?_, h.pos⟩
    obtain ⟨-, d, hmem, hcount⟩ := hready c hc
    exact hcount.trans (h.dupes hd d hmem)
  obtain ⟨hcount, hfix⟩ := countQuorum_true hinv
  rw [hcount]
  generalize (countQuorum true ({ q with children := cs } : ExtQuorum W)).2 = dupes at hfix
  have hinv' : Inv low ({ q with children := cs, hasDupes := dupes } : ExtQuorum W) :=
    ⟨hinv.ready, hsome, fun hd c hc => le_antisymm (hfix hd c hc) (hsome c hc), h.pos⟩
  obtain ⟨docs, q', low', hloop, hend, hthresh, hdone, -, -, hless, hfull⟩ :=
    loop_spec k low (counts cs) [] ({ q with children := cs, hasDupes := dupes } : ExtQuorum W) hinv' (le_refl _)
      (fun hnil => by dsimp only at hnil; rw [hnil]; rfl) (fun r => le_of_total hinv.ready h.pos) (by dsimp only; omega)
  refine ⟨docs, q', low', hloop, ⟨fun c hc => (hend.ready c hc).toIdle, hend.some, hend.dupes, hend.pos⟩, hthresh,
    ⟨hdone.sorted, fun r => ?_, hdone.later⟩, fun hne => ?_, fun hnil => hfull ?_⟩
  · rw [← htotal' r]
    exact hdone.exact r
  · have := hless hne
    dsimp only at this
    omega
  · rw [hnil, append_nil, length_nil]
    decide

theorem drain_spec (k : Nat) : ∀ (fuel : Nat) (low : RowID) (q : ExtQuorum W), Between low q → size q.children + q.children.length < k →
    size q.children + q.children.length < fuel →
    ∃ chunks, drain k fuel q = some chunks ∧ (chunks.flatten.map (·.rowID)).Pairwise (· < ·) ∧
      ∀ r, r ∈ chunks.flatten.map (·.rowID) ↔ q.thresh ≤ total r q.children
  | 0, _, _, _, _, hfuel => absurd hfuel (Nat.not_lt_zero _)
  | fuel + 1, low, q, h, hk, hfuel => by
    obtain ⟨docs, q', low', hchunk, hb, hthresh, hdone, hless, hover⟩ := getDocsChunk_spec k h hk
    by_cases hnil : docs = []
    · refine ⟨[], ?_, .nil, fun r => ?_⟩
      · simp only [drain, hchunk, Option.bind_eq_bind, Option.bind_some, if_pos hnil]
      · rw [hdone.exact r, hnil]
        exact ⟨fun hr => absurd hr not_mem_nil,
          fun hr => absurd (hr.resolve_left not_mem_nil) (not_le.mpr (hover hnil r))⟩
    · have := hless hnil
      obtain ⟨chunks, hdrain, hsorted, hexact⟩ := drain_spec k fuel low' q' hb (by omega) (by omega)
      rw [hthresh] at hexact
      refine ⟨docs :: chunks, ?_, ?_, fun r => ?_⟩
      · simp only [drain, hchunk, Option.bind_eq_bind, Option.bind_some, if_neg hnil, hdrain]
      · rw [flatten_cons, map_append, pairwise_append]
        exact ⟨hdone.sorted, hsorted, fun r hr r' hr' => hdone.later r hr r' ((hexact r').mp hr')⟩
      · rw [flatten_cons, map_append, List.mem_append, hexact r, hdone.exact r]

end Turns

/-! ## The merged keywords -/

section Merge
variable {qwords : List Qword} {words : List Nat} {m : Merge}

theorem modify_concat {α : Type} (f : α → α) (c : α) : ∀ init : List α, (init ++ [c]).modify init.length f = init ++ [f c]
  | [] => rfl
  | _ :: init => congrArg (List.cons _) (modify_concat f c init)

theorem DupeHash.wordID_le {a b : DupeHash} (h : a.le b = true) : a.wordID ≤ b.wordID := by
  rw [DupeHash.le] at h
  split at h
  · exact le_of_eq ‹_›
  · exact of_decide_eq_true h

instance : Std.Total fun a b : DupeHash => a.le b = true where
  total := fun a b => by
    simp only [DupeHash.le]
    by_cases h : a.wordID = b.wordID
    · rw [if_pos h, if_pos h.symm, decide_eq_true_iff, decide_eq_true_iff]
      exact Nat.le_total _ _
    · rw [if_neg h, if_neg (Ne.symm h), decide_eq_true_iff, decide_eq_true_iff]
      exact Nat.le_total _ _

instance : IsTrans DupeHash fun a b => a.le b = true where
  trans := fun a b c hab hbc => by
    have h1 := DupeHash.wordID_le hab
    have h2 := DupeHash.wordID_le hbc
    simp only [DupeHash.le] at hab hbc ⊢
    by_cases h : a.wordID = c.wordID
    · rw [if_pos (by omega), decide_eq_true_iff] at hab hbc
      rw [if_pos h, decide_eq_true_iff]
      exact Nat.le_trans hab hbc
    · rw [if_neg h, decide_eq_true_iff]
      exact Nat.le_trans h1 h2

theorem perm_dupeHashes (qwords : List Qword) : ((dupeHashes qwords).map (·.wordID)).Perm (qwords.map (·.wordID)) := by
  have hperm := (perm_insertionSort (fun a b : DupeHash => a.le b = true) (qwords.zipIdx.map fun q => ⟨q.1.wordID, q.2⟩)).map (·.wordID)
  have hmap : (qwords.zipIdx.map fun q => (⟨q.1.wordID, q.2⟩ : DupeHash)).map (·.wordID) = qwords.map (·.wordID) := by
    rw [map_map, ← zipIdx_map_fst 0 qwords, map_map]
    simp only [zipIdx_map_fst]
    rfl
  rw [hmap] at hperm
  exact hperm

theorem sorted_dupeHashes (qwords : List Qword) : (dupeHashes qwords).Pairwise fun a b => a.wordID ≤ b.wordID :=
  (pairwise_insertionSort (fun a b : DupeHash => a.le b = true) _).imp fun h => DupeHash.wordID_le h

theorem getD_of_mem_dupeHashes {e : DupeHash} (h : e ∈ dupeHashes qwords) : (qwords.getD e.index ⟨0, 0⟩).wordID = e.wordID := by
  rw [dupeHashes, mem_insertionSort, mem_map] at h
  obtain ⟨⟨q, i⟩, hq, rfl⟩ := h
  have hget := mem_zipIdx_iff_getElem?.mp hq
  rw [getD_eq_getElem?_getD, hget, Option.getD_some]

/-- **The children merged so far** are the distinct words, each with its number of occurrences; the parent is the last. -/
structure Merged (words : List Nat) (m : Merge) : Prop where
  parent : ∃ init c, m.children = init ++ [c] ∧ m.parentIndex = init.length ∧ c.qword.wordID = m.parent
  nodup : (m.children.map (·.qword.wordID)).Nodup
  mem : ∀ w, w ∈ m.children.map (·.qword.wordID) ↔ w ∈ words
  count : ∀ c ∈ m.children, c.count = words.count c.qword.wordID
  top : ∀ w ∈ words, w ≤ m.parent
  dupes : m.hasDupes = false → ∀ c ∈ m.children, c.count = 1

theorem Merged.step {e : DupeHash} (h : Merged words m) (hle : m.parent ≤ e.wordID)
    (hget : (qwords.getD e.index ⟨0, 0⟩).wordID = e.wordID) : Merged (words ++ [e.wordID]) (mergeStep qwords m e) := by
  have htop : ∀ w ∈ words ++ [e.wordID], w ≤ e.wordID := fun w hw => by
    rcases List.mem_append.mp hw with hw | hw
    · exact le_trans (h.top w hw) hle
    · exact le_of_eq (mem_singleton.mp hw)
  by_cases hne : m.parent ≠ e.wordID
  · have hnew : e.wordID ∉ words := fun hw => hne (le_antisymm hle (h.top _ hw))
    have heq : mergeStep qwords m e = { m with
        parent := e.wordID, parentIndex := m.children.length, children := m.children ++ [⟨qwords.getD e.index ⟨0, 0⟩, 1⟩] } := by
      rw [mergeStep, if_pos hne]
    rw [heq]
    refine ⟨⟨_, _, rfl, rfl, hget⟩, ?_, fun w => ?_, fun c hc => ?_, htop, fun hd c hc => ?_⟩
    · rw [map_append, map_singleton, hget]
      refine nodup_append'.mpr ⟨h.nodup, nodup_singleton _, fun w hw hw' => hnew ?_⟩
      rw [← mem_singleton.mp hw']
      exact (h.mem w).mp hw
    · rw [map_append, map_singleton, hget, List.mem_append, List.mem_append, h.mem w]
    · rw [count_append]
      rcases List.mem_append.mp hc with hc | hc
      · have hw : c.qword.wordID ∈ words := (h.mem _).mp (mem_map_of_mem hc)
        rw [h.count c hc, count_eq_zero_of_not_mem (a := c.qword.wordID) (l := [e.wordID]), add_zero]
        exact fun hmem => hnew (mem_singleton.mp hmem ▸ hw)
      · rw [mem_singleton.mp hc]
        rw [hget, count_eq_zero_of_not_mem hnew, count_singleton_self, zero_add]
    · rcases List.mem_append.mp hc with hc | hc
      · exact h.dupes hd c hc
      · rw [mem_singleton.mp hc]
  · obtain ⟨init, c, hchildren, hindex, hword⟩ := h.parent
    have hword' : c.qword.wordID = e.wordID := hword.trans (Classical.not_not.mp hne)
    have heq : mergeStep qwords m e = { m with children := init ++ [{ c with count := c.count + 1 }], hasDupes := true } := by
      rw [mergeStep, if_neg hne, hchildren, hindex, modify_concat]
    rw [heq]
    have hmap : (init ++ [{ c with count := c.count + 1 }] : List Child).map (·.qword.wordID) = m.children.map (·.qword.wordID) := by
      rw [hchildren, map_append, map_append]
      rfl
    have hnodup := h.nodup
    rw [hchildren, map_append, map_singleton] at hnodup
    have hmem : e.wordID ∈ words := (h.mem _).mp (by rw [hchildren, ← hword']; exact mem_map_of_mem (mem_append_right _ mem_cons_self))
    refine ⟨⟨init, _, rfl, hindex, hword⟩, ?_, fun w => ?_, fun d hd => ?_, fun w hw => ?_, fun hd => absurd hd Bool.true_eq_false.mp⟩
    · rw [hmap]
      exact h.nodup
    · rw [hmap, h.mem w, List.mem_append, mem_singleton]
      exact ⟨.inl, fun hw => hw.elim id fun hw => hw ▸ hmem⟩
    · rw [count_append]
      rcases List.mem_append.mp hd with hd | hd
      · have hne' : d.qword.wordID ≠ e.wordID := fun heq => by
          refine (nodup_append'.mp hnodup).2.2 (mem_map_of_mem hd) ?_
          rw [mem_singleton, heq, hword']
        rw [h.count d (by rw [hchildren]; exact mem_append_left _ hd),
          count_eq_zero_of_not_mem (a := d.qword.wordID) (l := [e.wordID]) fun hmem => hne' (mem_singleton.mp hmem), add_zero]
      · rw [mem_singleton.mp hd]
        rw [h.count c (by rw [hchildren]; exact mem_append_right _ mem_cons_self), hword', count_singleton_self]
    · rw [← hword, hword']
      exact htop w hw

theorem merged_foldl : ∀ (es : List DupeHash) (words : List Nat) (m : Merge), Merged words m → (∀ e ∈ es, m.parent ≤ e.wordID) →
    (∀ e ∈ es, (qwords.getD e.index ⟨0, 0⟩).wordID = e.wordID) → es.Pairwise (fun a b => a.wordID ≤ b.wordID) →
    Merged (words ++ es.map (·.wordID)) (es.foldl (mergeStep qwords) m)
  | [], words, m, h, _, _, _ => by
    rw [map_nil, append_nil]
    exact h
  | e :: es, words, m, h, hle, hget, hsorted => by
    have hstep := h.step (hle e mem_cons_self) (hget e mem_cons_self)
    have hparent : (mergeStep qwords m e).parent = e.wordID := by
      rw [mergeStep]
      split
      · rfl
      · rename_i hne
        exact Classical.not_not.mp hne
    have ih := merged_foldl es _ _ hstep (fun f hf => by rw [hparent]; exact (pairwise_cons.mp hsorted).1 f hf)
      (forall_mem_cons.mp hget).2 (pairwise_cons.mp hsorted).2
    rw [map_cons, ← singleton_append, ← append_assoc]
    exact ih

/-- **The constructor's children** are the distinct keywords with their counts. -/
theorem mergeDupes_spec (qwords : List Qword) :
    ((mergeDupes qwords).children.map (·.qword.wordID)).Perm (qwords.map (·.wordID)).dedup ∧
    (∀ c ∈ (mergeDupes qwords).children, c.count = (qwords.map (·.wordID)).count c.qword.wordID ∧ 1 ≤ c.count) ∧
    ((mergeDupes qwords).hasDupes = false → ∀ c ∈ (mergeDupes qwords).children, c.count = 1) := by
  have hperm := perm_dupeHashes qwords
  have hsorted := sorted_dupeHashes qwords
  have hget : ∀ e ∈ dupeHashes qwords, (qwords.getD e.index ⟨0, 0⟩).wordID = e.wordID := fun e he => getD_of_mem_dupeHashes he
  rw [mergeDupes]
  generalize dupeHashes qwords = es at hperm hsorted hget ⊢
  cases es with
  | nil =>
    rw [nil_perm.mp hperm]
    exact ⟨.refl _, forall_mem_nil _, fun _ c hc => absurd hc not_mem_nil⟩
  | cons e es =>
    have hfirst : Merged [e.wordID] ⟨e.wordID, 0, [⟨qwords.getD e.index ⟨0, 0⟩, 1⟩], false⟩ := by
      have hword := hget e mem_cons_self
      refine ⟨⟨[], _, rfl, rfl, hword⟩, nodup_singleton _, fun w => ?_, fun c hc => ?_, fun w hw => ?_, fun _ c hc => ?_⟩
      · rw [map_singleton, hword]
      · rw [mem_singleton.mp hc]
        dsimp only
        rw [hword, count_singleton_self]
      · exact le_of_eq (mem_singleton.mp hw)
      · rw [mem_singleton.mp hc]
    have hall := merged_foldl es _ _ hfirst (fun f hf => (pairwise_cons.mp hsorted).1 f hf)
      (forall_mem_cons.mp hget).2 (pairwise_cons.mp hsorted).2
    dsimp only
    generalize es.foldl (mergeStep qwords) _ = m at hall ⊢
    have hmem : ∀ w, w ∈ m.children.map (·.qword.wordID) ↔ w ∈ qwords.map (·.wordID) := fun w => (hall.mem w).trans hperm.mem_iff
    refine ⟨(perm_ext_iff_of_nodup hall.nodup (nodup_dedup _)).mpr fun w => ?_, fun c hc => ?_, hall.dupes⟩
    · rw [hmem w, mem_dedup]
    · have hcount : c.count = (qwords.map (·.wordID)).count c.qword.wordID := (hall.count c hc).trans (hperm.count_eq _)
      refine ⟨hcount, ?_⟩
      rw [hcount]
      exact count_pos_iff.mpr ((hmem _).mp (mem_map_of_mem hc))

end Merge

/-! ## The operator -/

theorem Operand.rest_reader (o : Operand W) : o.reader.rest = o.entries := (o.stands.toBefore).rest_eq

theorem between_create (qwords : List Qword) (node : Nat → Operand W) (k : Nat) : Between 0 (ExtQuorum.create qwords node k) := by
  obtain ⟨-, hcount, hdupes⟩ := mergeDupes_spec qwords
  have hchild : ∀ c ∈ (ExtQuorum.create qwords node k).children, ∃ d ∈ (mergeDupes qwords).children,
      c = { term := (node d.qword.wordID).reader, count := d.count } := fun c hc => by
    obtain ⟨d, hd, rfl⟩ := mem_map.mp hc
    exact ⟨d, (mem_insertionSort _).mp hd, rfl⟩
  refine ⟨fun c hc => ?_, fun c hc => ?_, fun hd c hc => ?_, Nat.le_max_right _ _⟩
  · obtain ⟨d, -, rfl⟩ := hchild c hc
    have hb := (node d.qword.wordID).stands.toBefore
    refine ⟨?_, fun hne => absurd hb.pending_eq hne, fun e _ => Nat.zero_le _⟩
    exact hb
  · obtain ⟨d, hmem, rfl⟩ := hchild c hc
    exact (hcount d hmem).2
  · obtain ⟨d, hmem, rfl⟩ := hchild c hc
    exact hdupes hd d hmem

/-- At the start the children make of a document what the query's keywords find in it. -/
theorem total_create (qwords : List Qword) (node : Nat → Operand W) (k : Nat) (r : RowID) :
    total r (ExtQuorum.create qwords node k).children = matched qwords node r := by
  obtain ⟨hperm, hcount, -⟩ := mergeDupes_spec qwords
  have hsort := (perm_insertionSort (fun a b : Child => a.qword.atomPos ≤ b.qword.atomPos) (mergeDupes qwords).children)
  have hvalue : ∀ c ∈ (mergeDupes qwords).children,
      TermTuple.value r ({ term := (node c.qword.wordID).reader, count := c.count } : TermTuple W) =
        min ((qwords.map (·.wordID)).count c.qword.wordID) (hitsIn r (node c.qword.wordID).entries) := fun c hc => by
    rw [TermTuple.value, Operand.rest_reader, (hcount c hc).1]
  have hmap := map_congr_left hvalue
  rw [total, ExtQuorum.create, map_map, (hsort.map _).sum_eq, matched, ← (hperm.map _).sum_eq, map_map]
  exact congrArg List.sum hmap

/-- The entries of all distinct keywords. -/
def entryCount (qwords : List Qword) (node : Nat → Operand W) : Nat :=
  ((qwords.map (·.wordID)).dedup.map fun w => (node w).entries.length + 1).sum

theorem size_create (qwords : List Qword) (node : Nat → Operand W) (k : Nat) :
    size (ExtQuorum.create qwords node k).children + (ExtQuorum.create qwords node k).children.length = entryCount qwords node := by
  obtain ⟨hperm, -, -⟩ := mergeDupes_spec qwords
  have hsort := (perm_insertionSort (fun a b : Child => a.qword.atomPos ≤ b.qword.atomPos) (mergeDupes qwords).children)
  rw [entryCount, ← (hperm.map _).sum_eq, map_map, size, ExtQuorum.create, map_map, (hsort.map _).sum_eq, length_map,
    hsort.length_eq]
  generalize (mergeDupes qwords).children = cs
  induction cs with
  | nil => rfl
  | cons c cs ih =>
    rw [map_cons, map_cons, sum_cons, sum_cons, length_cons, ← ih]
    show (node c.qword.wordID).reader.rest.length + _ + _ = (node c.qword.wordID).entries.length + 1 + _
    rw [Operand.rest_reader]
    omega

/-- **Quorum evaluation is exact.**  Whatever the chunks of the keywords, the documents returned are, in ascending order,
those in which the query's keywords are found often enough, a repeated keyword as often as it has hits there. -/
theorem quorum_exact [Add W] [Zero W] (qwords : List Qword) (node : Nat → Operand W) (thresh : Nat) (hthresh : 1 ≤ thresh) (k : Nat)
    (hk : entryCount qwords node < k) :
    ∃ chunks, drain k k (ExtQuorum.create qwords node thresh) = some chunks ∧ (chunks.flatten.map (·.rowID)).Pairwise (· < ·) ∧
      ∀ row, row ∈ chunks.flatten.map (·.rowID) ↔ thresh ≤ matched qwords node row := by
  have hsize := size_create qwords node thresh
  obtain ⟨chunks, hdrain, hsorted, hexact⟩ :=
    drain_spec k k 0 _ (between_create qwords node thresh) (by omega) (by omega)
  have hmax : (ExtQuorum.create qwords node thresh).thresh = thresh := max_eq_left hthresh
  refine ⟨chunks, hdrain, hsorted, fun row => ?_⟩
  rw [hexact row, hmax, total_create]

/-- A keyword with two hits in row 1. -/
def twice : Operand Nat where
  chunks := [oneDoc 1 1 [2]]
  hinter := .none
  full := by simp [oneDoc, ExtNode.invalidRowID]
  ascending := by simp [Ascending, oneDoc, ExtNode.invalidRowID]

/-- The query `"a a b"/2`, where `a` and `b` have both two hits in row 1. -/
theorem quorum_exact_repeated : 1 ≤ 2 ∧ entryCount [⟨7, 0⟩, ⟨7, 1⟩, ⟨9, 2⟩] (fun _ => twice) < 6 ∧
    ∃ chunks, drain 6 6 (ExtQuorum.create [⟨7, 0⟩, ⟨7, 1⟩, ⟨9, 2⟩] (fun _ => twice) 2) = some chunks ∧
      (chunks.flatten.map (·.rowID)).Pairwise (· < ·) ∧
      ∀ row, row ∈ chunks.flatten.map (·.rowID) ↔ 2 ≤ matched [⟨7, 0⟩, ⟨7, 1⟩, ⟨9, 2⟩] (fun _ => twice) row :=
  ⟨by decide, by decide, quorum_exact _ (fun _ => twice) 2 (by decide) 6 (by decide)⟩

end Quorum
end Manticore

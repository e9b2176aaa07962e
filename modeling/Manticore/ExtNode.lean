import Mathlib
import Manticore.Hitpos
/-!
# ExtNode — the posting-list streamers of full-text search (`searchnode.cpp`)

A query tree is evaluated by nodes that hand out matching documents in chunks: `GetDocsChunk` fills the node's buffer
`m_dDocs` with at most `MAX_BLOCK_DOCS-1` documents and a terminator, and returns null when there are none.  A binary
node keeps, between calls, one cursor into the last chunk of each of its children.

A cursor is what is left of a chunk before its `INVALID_ROWID` terminator; a null pointer is the empty cursor, as
`HasDocs` does not tell them apart.  Timers never fire.  The loops take fuel, and `none` is running out of it.
-/
namespace Manticore
namespace ExtNode

abbrev RowID := Nat

def invalidRowID : RowID := 2 ^ 32 - 1

def MAX_BLOCK_DOCS : Nat := 32

/-- One document of a chunk.  `W` is the type of the ranking weight, a float in the source. -/
structure ExtDoc (W : Type) where
  rowID : RowID
  docFields : BitVec 32
  tfidf : W
  deriving DecidableEq, Repr

/-- One document of a keyword, as `GetNextDoc` leaves it in the keyword's reader: `qwordFields` is the field mask read
with the document, `hitMask` the one that `CollectHitMask` computes from its hits. -/
structure Posting where
  rowID : RowID
  qwordFields : FieldMask
  hitMask : FieldMask
  matchHits : Nat
  valid : rowID < invalidRowID
  deriving DecidableEq, Repr

/-- One hit of the keyword in each of the rows, in the given fields. -/
def postingsOf (rows : List (RowID × FieldMask)) : List Posting :=
  rows.filterMap fun r => if h : r.1 < invalidRowID then some ⟨r.1, r.2, r.2, 1, h⟩ else none

def Ascending (ps : List Posting) : Prop := ps.Pairwise fun p q => p.rowID < q.rowID

instance (ps : List Posting) : Decidable (Ascending ps) := by unfold Ascending; infer_instance

/-- What `ISphQword::HintRowID` does to the postings not read yet.  How far a reader jumps depends on its skip list; all
a caller knows is that it jumps forward, over documents below the hint. -/
structure Skipper where
  skip : RowID → List Posting → List Posting
  dropped : ∀ t ps, Ascending ps → ∃ gone, ps = gone ++ skip t ps ∧ ∀ p ∈ gone, p.rowID < t

/-- `ExtTerm_T`: `docs` is `m_pQword->m_iDocs`, `postings` what the reader has still to return, `boundaries` the row
limits of the `ROWID_LIMITS` variant. -/
structure ExtTerm (W : Type) where
  docs : Nat
  postings : List Posting
  reader : Skipper
  queriedFields : FieldMask
  hasWideFields : Bool
  boundaries : Option (RowID × RowID)
  weight : Nat → W

variable {W : Type}

/-! ### `ExtTerm_T` -/

def ExtTerm.belowMin (t : ExtTerm W) (p : Posting) : Bool := t.boundaries.any fun b => p.rowID < b.1

def ExtTerm.aboveMax (t : ExtTerm W) (p : Posting) : Bool := t.boundaries.any fun b => b.2 < p.rowID

/-- The field mask of the current document when it is checked. -/
def ExtTerm.fieldsOf (t : ExtTerm W) (p : Posting) : FieldMask := if t.hasWideFields then p.hitMask else p.qwordFields

/-- Fields 0-31 are checked on the mask read with the document, wider ones on the collected mask. -/
def ExtTerm.fieldsMatch (t : ExtTerm W) (p : Posting) : Bool :=
  if t.hasWideFields then p.hitMask &&& t.queriedFields != 0
  else FieldMask.getMask32 p.qwordFields &&& FieldMask.getMask32 t.queriedFields != 0

def ExtTerm.toDoc (t : ExtTerm W) (p : Posting) : ExtDoc W where
  rowID := p.rowID
  docFields := FieldMask.getMask32 (t.fieldsOf p) &&& FieldMask.getMask32 t.queriedFields
  tfidf := t.weight p.matchHits

/-- The loop of `ExtTerm_T::GetDocsChunk`, over the postings left and the documents emitted so far. -/
def ExtTerm.fill (t : ExtTerm W) : List Posting → List (ExtDoc W) → List (ExtDoc W) × ExtTerm W
  | [], out => if out.length < MAX_BLOCK_DOCS - 1 then (out, { t with docs := 0, postings := [] })
    else (out, { t with postings := [] })
  | p :: ps, out =>
    if out.length < MAX_BLOCK_DOCS - 1 then
      if t.belowMin p then t.fill ps out
      else if t.aboveMax p then (out, { t with docs := 0, postings := ps })
      else if t.fieldsMatch p then t.fill ps (out ++ [t.toDoc p])
      else t.fill ps out
    else (out, { t with postings := p :: ps })

def ExtTerm.getDocsChunk (t : ExtTerm W) : List (ExtDoc W) × ExtTerm W :=
  if t.docs = 0 then ([], t) else t.fill t.postings []

def ExtTerm.hintRowID (t : ExtTerm W) (row : RowID) : ExtTerm W :=
  { t with postings := t.reader.skip row t.postings }

/-! ### `ExtTwofer_c` and its four operators -/

inductive Kind
  | extAnd
  | extOr
  | extMaybe
  | extAndNot
  deriving DecidableEq, Repr

/-- A node with its state.  `passthrough` is `m_bPassthrough`, which only `ExtAndNot_c` has. -/
inductive Node (W : Type)
  | term (t : ExtTerm W)
  | twofer (kind : Kind) (passthrough : Bool) (left right : Node W) (docL docR : List (ExtDoc W))

/-- `HintRowID`: a hint goes down to every keyword; chunks already read are not touched. -/
def Node.hintRowID (row : RowID) : Node W → Node W
  | .term t => .term (t.hintRowID row)
  | .twofer k pass l r docL docR => .twofer k pass (l.hintRowID row) (r.hintRowID row) docL docR

/-- What one of the loops leaves: the documents emitted, the children and the cursors. -/
structure Stopped (W : Type) where
  out : List (ExtDoc W)
  left : Node W
  right : Node W
  docL : List (ExtDoc W)
  docR : List (ExtDoc W)
  passthrough : Bool := false

/-- A child's `GetDocsChunk`. -/
abbrev Get (W : Type) := Node W → Option (List (ExtDoc W) × Node W)

/-- The same document from both children. -/
def ExtDoc.both [Add W] (dL dR : ExtDoc W) : ExtDoc W :=
  { dL with docFields := dL.docFields ||| dR.docFields, tfidf := dL.tfidf + dR.tfidf }

def warmupDocs (get : Get W) (doc : List (ExtDoc W)) (node : Node W) : Option (List (ExtDoc W) × Node W) :=
  match doc with
  | [] => get node
  | d :: ds => some (d :: ds, node)

/-- `WarmupDocs` with the other cursor: the child is hinted to the row the other one stands at. -/
def warmupDocsHint (get : Get W) (doc other : List (ExtDoc W)) (node : Node W) :
    Option (List (ExtDoc W) × Node W) :=
  match doc, other with
  | [], [] => get node
  | [], d :: _ => get (node.hintRowID d.rowID)
  | d :: ds, _ => some (d :: ds, node)

section
variable [Add W]

/-- The loop of `ExtAnd_c::GetDocsChunk`. -/
def andLoop (get : Get W) : Nat → Node W → Node W → List (ExtDoc W) → List (ExtDoc W) → List (ExtDoc W) →
    Option (Stopped W)
  | 0, _, _, _, _, _ => none
  | k + 1, l, r, docL, docR, out =>
    if out.length < MAX_BLOCK_DOCS - 1 then do
      let (docL, l) ← warmupDocsHint get docL docR l
      match docL with
      | [] => some { out, left := l, right := r, docL := [], docR }
      | dL :: restL =>
        let (docR, r) ← warmupDocsHint get docR (dL :: restL) r
        match docR with
        | [] => some { out, left := l, right := r, docL := dL :: restL, docR := [] }
        | dR :: restR =>
          if dL.rowID = dR.rowID then andLoop get k l r restL restR (out ++ [dL.both dR])
          else if dL.rowID < dR.rowID then andLoop get k l r restL (dR :: restR) out
          else andLoop get k l r (dL :: restL) restR out
    else some { out, left := l, right := r, docL, docR }

/-- The loop of `ExtOr_c::GetDocsChunk`: merge while both have documents, copy the tail of one. -/
def orLoop (get : Get W) : Nat → Node W → Node W → List (ExtDoc W) → List (ExtDoc W) → List (ExtDoc W) →
    Option (Stopped W)
  | 0, _, _, _, _, _ => none
  | k + 1, l, r, docL, docR, out =>
    if out.length < MAX_BLOCK_DOCS - 1 then do
      let (docL, l) ← warmupDocs get docL l
      let (docR, r) ← warmupDocs get docR r
      match docL, docR with
      | [], [] => some { out, left := l, right := r, docL := [], docR := [] }
      | dL :: restL, dR :: restR =>
        if dL.rowID = dR.rowID then orLoop get k l r restL restR (out ++ [dL.both dR])
        else if dL.rowID < dR.rowID then orLoop get k l r restL (dR :: restR) (out ++ [dL])
        else orLoop get k l r (dL :: restL) restR (out ++ [dR])
      | dL :: restL, [] => orLoop get k l r restL [] (out ++ [dL])
      | [], dR :: restR => orLoop get k l r [] restR (out ++ [dR])
    else some { out, left := l, right := r, docL, docR }

/-- The loop of `ExtMaybe_c::GetDocsChunk`: once the right child is found empty it is not asked again in this call. -/
def maybeLoop (get : Get W) : Nat → Bool → Node W → Node W → List (ExtDoc W) → List (ExtDoc W) → List (ExtDoc W) →
    Option (Stopped W)
  | 0, _, _, _, _, _, _ => none
  | k + 1, rightEmpty, l, r, docL, docR, out =>
    if out.length < MAX_BLOCK_DOCS - 1 then do
      let (docL, l) ← warmupDocs get docL l
      match docL with
      | [] => some { out, left := l, right := r, docL := [], docR }
      | dL :: restL =>
        let (docR, r) ← if rightEmpty then some (docR, r) else warmupDocs get docR r
        match rightEmpty, docR with
        | false, dR :: restR =>
          if dL.rowID = dR.rowID then maybeLoop get k false l r restL restR (out ++ [dL.both dR])
          else if dL.rowID < dR.rowID then maybeLoop get k false l r restL (dR :: restR) (out ++ [dL])
          else maybeLoop get k false l r (dL :: restL) restR out
        | _, docR => maybeLoop get k true l r restL docR (out ++ [dL])
    else some { out, left := l, right := r, docL, docR }

/-- `while ( pDocL->m_tRowID < pDocR->m_tRowID && iDoc<MAX_BLOCK_DOCS-1 ) m_dDocs[iDoc++] = *pDocL++`: the terminator
of the left chunk is below no row. -/
def copyAccepted (row : RowID) : List (ExtDoc W) → List (ExtDoc W) → List (ExtDoc W) × List (ExtDoc W)
  | [], out => ([], out)
  | dL :: restL, out =>
    if dL.rowID < row ∧ out.length < MAX_BLOCK_DOCS - 1 then copyAccepted row restL (out ++ [dL])
    else (dL :: restL, out)

/-- `while ( pDocR->m_tRowID < pDocL->m_tRowID ) pDocR++` -/
def skipRejected (row : RowID) : List (ExtDoc W) → List (ExtDoc W)
  | [] => []
  | dR :: restR => if dR.rowID < row then skipRejected row restR else dR :: restR

/-- `while ( pDocL->m_tRowID==pDocR->m_tRowID && HasDocs(pDocL) ) { pDocL++; pDocR++; }` -/
def skipMatching : List (ExtDoc W) → List (ExtDoc W) → List (ExtDoc W) × List (ExtDoc W)
  | dL :: restL, dR :: restR =>
    if dL.rowID = dR.rowID then skipMatching restL restR else (dL :: restL, dR :: restR)
  | docL, docR => (docL, docR)

/-- The inner `while (true)` of `ExtAndNot_c::GetDocsChunk`: cursors and output when it breaks. -/
def filterLoop : Nat → List (ExtDoc W) → List (ExtDoc W) → List (ExtDoc W) →
    Option (List (ExtDoc W) × List (ExtDoc W) × List (ExtDoc W))
  | k + 1, docL, dR :: restR, out =>
    match copyAccepted dR.rowID docL out with
    | ([], out) => some ([], dR :: restR, out)
    | (dL :: restL, out) =>
      if out.length = MAX_BLOCK_DOCS - 1 then some (dL :: restL, dR :: restR, out)
      else match skipRejected dL.rowID (dR :: restR) with
        | [] => some (dL :: restL, [], out)
        | dR :: restR =>
          match skipMatching (dL :: restL) (dR :: restR) with
          | (dL :: restL, dR :: restR) => filterLoop k (dL :: restL) (dR :: restR) out
          | (docL, docR) => some (docL, docR, out)
  | _, _, _, _ => none

/-- `while ( HasDocs(pDocL) && iDoc<MAX_BLOCK_DOCS-1 ) m_dDocs[iDoc++] = *pDocL++` -/
def copyLeftovers : List (ExtDoc W) → List (ExtDoc W) → List (ExtDoc W) × List (ExtDoc W)
  | [], out => ([], out)
  | dL :: restL, out =>
    if out.length < MAX_BLOCK_DOCS - 1 then copyLeftovers restL (out ++ [dL]) else (dL :: restL, out)

/-- The outer loop of `ExtAndNot_c::GetDocsChunk`. -/
def andNotLoop (get : Get W) : Nat → Node W → Node W → List (ExtDoc W) → List (ExtDoc W) → List (ExtDoc W) →
    Option (Stopped W)
  | 0, _, _, _, _, _ => none
  | k + 1, l, r, docL, docR, out =>
    if out.length < MAX_BLOCK_DOCS - 1 then do
      let (docL, l) ← warmupDocs get docL l
      match docL with
      | [] => some { out, left := l, right := r, docL := [], docR }
      | dL :: restL =>
        let (docR, r) ← warmupDocs get docR r
        match docR with
        | [] =>
          let (docL, out) := copyLeftovers (dL :: restL) out
          some { out, left := l, right := r, docL, docR := [], passthrough := docL.isEmpty }
        | dR :: restR =>
          let (docL, docR, out) ← filterLoop k (dL :: restL) (dR :: restR) out
          andNotLoop get k l r docL docR out
    else some { out, left := l, right := r, docL, docR }

/-- `GetDocsChunk` of a node: the chunk and the node after the call. -/
def Node.getDocsChunk : Nat → Node W → Option (List (ExtDoc W) × Node W)
  | 0, _ => none
  | _ + 1, .term t => let (out, t) := t.getDocsChunk; some (out, .term t)
  | k + 1, .twofer kind passthrough l r docL docR =>
    let swept := match kind with
      | .extAnd => andLoop (Node.getDocsChunk k) k l r docL docR []
      | .extOr => orLoop (Node.getDocsChunk k) k l r docL docR []
      | .extMaybe => maybeLoop (Node.getDocsChunk k) k false l r docL docR []
      | .extAndNot => andNotLoop (Node.getDocsChunk k) k l r docL docR []
    -- the reject-list is over: the accept-list is passed through
    if kind = .extAndNot ∧ passthrough then do
      let (out, l) ← Node.getDocsChunk k l
      some (out, .twofer kind passthrough l r docL docR)
    else swept.map fun s => (s.out, .twofer kind s.passthrough s.left s.right s.docL s.docR)

end

/-! ### The caller -/

/-- What a caller does to the root. -/
inductive Call
  | hint (row : RowID)
  | get
  deriving DecidableEq, Repr

/-- A chunk with the last hint given before it. -/
structure Visit (W : Type) where
  hint : RowID
  docs : List (ExtDoc W)
  deriving DecidableEq, Repr

variable [Add W]

/-- A caller's calls, in order. -/
def run (k : Nat) : RowID → Node W → List Call → Option (List (Visit W) × Node W)
  | _, n, [] => some ([], n)
  | _, n, .hint row :: calls => run k row (n.hintRowID row) calls
  | last, n, .get :: calls => do
    let (docs, n) ← n.getDocsChunk k
    let (visits, n) ← run k last n calls
    some (⟨last, docs⟩ :: visits, n)

/-- Repeated `GetDocsChunk` calls until one returns null: all documents returned. -/
def drain (k : Nat) : Nat → Node W → Option (List (ExtDoc W))
  | 0, _ => none
  | fuel + 1, n => do
    let (docs, n) ← n.getDocsChunk k
    match docs with
    | [] => some []
    | d :: ds => do
      let rest ← drain k fuel n
      some (d :: ds ++ rest)

/-! ### Queries -/

/-- A keyword of a query with its posting list. -/
structure Keyword (W : Type) where
  postings : List Posting
  ascending : Ascending postings
  reader : Skipper
  queriedFields : FieldMask
  hasWideFields : Bool
  boundaries : Option (RowID × RowID)
  weight : Nat → W

/-- The tree the nodes are created from. -/
inductive Query (W : Type)
  | term (word : Keyword W)
  | op (kind : Kind) (left right : Query W)

def Keyword.toTerm (w : Keyword W) : ExtTerm W where
  docs := w.postings.length
  postings := w.postings
  reader := w.reader
  queriedFields := w.queriedFields
  hasWideFields := w.hasWideFields
  boundaries := w.boundaries
  weight := w.weight

/-- `GetDocsCount` of the node created for a query; only a keyword and an empty `ExtAnd_c` know theirs. -/
def Query.docsCount : Query W → Nat
  | .term w => w.postings.length
  | .op .extAnd a b => if a.docsCount = 0 ∨ b.docsCount = 0 then 0 else 2 ^ 31 - 1
  | .op _ _ _ => 2 ^ 31 - 1

/-- The nodes of a query before the first call.  `ExtAnd_c`'s constructor moves an empty child to the left. -/
def Query.create : Query W → Node W
  | .term w => .term w.toTerm
  | .op .extAnd a b =>
    if a.docsCount ≠ 0 ∧ b.docsCount = 0 then .twofer .extAnd false b.create a.create [] []
    else .twofer .extAnd false a.create b.create [] []
  | .op kind a b => .twofer kind false a.create b.create [] []

end ExtNode
end Manticore

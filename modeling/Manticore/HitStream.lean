import Mathlib
import Manticore.ExtNode
import Manticore.NWay
/-!
# HitStream — the documents of a node with their hits, chunk by chunk (`ExtNode_i`, `BufferedNode_c`)

A node that works on hits asks its children for a chunk of documents (`GetDocsChunk`) and for the hits of these
(`GetHits`), and walks both with cursors.  A null pointer and the `INVALID_ROWID` at the end of a chunk are the empty list.
`Reader` is a child with the cursors its parent has in it; `rest` is what the child has still to give.
-/
namespace Manticore
namespace HitStream

open ExtNode (RowID invalidRowID ExtDoc MAX_BLOCK_DOCS)
open NWay (ExtHit)
open List

variable {W : Type}

/-- A document with its hits; no node returns a document without one. -/
structure Entry (W : Type) where
  doc : ExtDoc W
  hits : List ExtHit
  valid : doc.rowID < invalidRowID
  some : hits ≠ []
  own : ∀ h ∈ hits, h.rowID = doc.rowID

abbrev Entry.rowID (e : Entry W) : RowID := e.doc.rowID

def Ascending (es : List (Entry W)) : Prop := es.Pairwise fun e f => e.rowID < f.rowID

def hitsOf (es : List (Entry W)) : List ExtHit := es.flatMap (·.hits)

def docsOf (es : List (Entry W)) : List (ExtDoc W) := es.map (·.doc)

/-- What `HintRowID` does to the chunks not read yet: it jumps over documents below the hint, and may cut the rest into
other chunks. -/
structure Hinter (W : Type) where
  skip : RowID → List (List (Entry W)) → List (List (Entry W))
  dropped : ∀ row chunks, Ascending chunks.flatten →
    ∃ gone, chunks.flatten = gone ++ (skip row chunks).flatten ∧ ∀ e ∈ gone, e.rowID < row
  full : ∀ row chunks, (∀ c ∈ chunks, c ≠ []) → ∀ c ∈ skip row chunks, c ≠ []

/-- A child: the chunk it returned last and those to come. -/
structure Stream (W : Type) where
  current : List (Entry W) := []
  chunks : List (List (Entry W))
  hinter : Hinter W

def Stream.getDocsChunk (s : Stream W) : List (ExtDoc W) × Stream W :=
  match s.chunks with
  | [] => ([], { s with current := [] })
  | c :: cs => (docsOf c, { s with current := c, chunks := cs })

/-- The hits of documents of the last chunk. -/
def Stream.getHits (s : Stream W) (docs : List (ExtDoc W)) : List ExtHit :=
  hitsOf (s.current.filter fun e => docs.any fun d => d.rowID = e.rowID)

def Stream.hintRowID (s : Stream W) (row : RowID) : Stream W := { s with chunks := s.hinter.skip row s.chunks }

/-- The row a cursor stands at. -/
def headRow : List (ExtDoc W) → RowID
  | [] => invalidRowID
  | d :: _ => d.rowID

def hitRow : List ExtHit → RowID
  | [] => invalidRowID
  | h :: _ => h.rowID

def skipDocs (row : RowID) (docs : List (ExtDoc W)) : List (ExtDoc W) := docs.dropWhile (·.rowID < row)

def skipHits (row : RowID) (hits : List ExtHit) : List ExtHit := hits.dropWhile (·.rowID < row)

/-- `BufferedNode_c::CopyMatchingHits`: the hits of the documents, and what is left of the buffer. -/
def copyMatchingHits : List ExtHit → List (ExtDoc W) → List ExtHit × List ExtHit
  | myHits, [] => ([], myHits)
  | myHits, d :: docs =>
    let myHits := skipHits d.rowID myHits
    let r := copyMatchingHits (myHits.dropWhile (·.rowID = d.rowID)) docs
    (myHits.takeWhile (·.rowID = d.rowID) ++ r.1, r.2)

/-- A child with its parent's cursors. -/
structure Reader (W : Type) where
  stream : Stream W
  docs : List (ExtDoc W) := []
  hits : List ExtHit := []

/-- `WarmupDocs`; the cursor tells whether there are documents. -/
def Reader.warmupDocs (r : Reader W) : Reader W :=
  if r.docs ≠ [] then r
  else
    let (docs, stream) := r.stream.getDocsChunk
    { r with stream, docs, hits := if docs = [] then r.hits else stream.getHits docs }

def Reader.hintRowID (r : Reader W) (row : RowID) : Reader W := { r with stream := r.stream.hintRowID row }

/-! ## Lists of hits and of entries -/

variable {row : RowID} {hits : List ExtHit} {h : ExtHit}

theorem rowID_of_mem_takeWhile (hh : h ∈ hits.takeWhile (·.rowID = row)) :
    h.rowID = row :=
  of_decide_eq_true (mem_takeWhile_imp (p := fun k : ExtHit => decide (k.rowID = row)) hh)

theorem rowID_lt_of_mem_takeWhile (hh : h ∈ hits.takeWhile (·.rowID < row)) :
    h.rowID < row :=
  of_decide_eq_true (mem_takeWhile_imp (p := fun k : ExtHit => decide (k.rowID < row)) hh)

/-- Hits of rows before a document are skipped, its own are not. -/
theorem skipHits_append {stale later : List ExtHit} (hstale : ∀ h ∈ stale, h.rowID < row)
    (hlater : ∀ h ∈ later, row ≤ h.rowID) : skipHits row (stale ++ later) = later := by
  rw [skipHits, dropWhile_append_of_pos fun h hh => decide_eq_true (hstale h hh)]
  cases later with
  | nil => rfl
  | cons h hs =>
    refine dropWhile_cons_of_neg ?_
    rw [decide_eq_true_iff]
    exact not_lt.mpr (hlater h mem_cons_self)

theorem ownHits_append {own later : List ExtHit} (hown : ∀ h ∈ own, h.rowID = row)
    (hlater : ∀ h ∈ later, h.rowID ≠ row) :
    (own ++ later).takeWhile (·.rowID = row) = own ∧ (own ++ later).dropWhile (·.rowID = row) = later := by
  have hown' : ∀ h ∈ own, decide (h.rowID = row) = true := fun h hh => decide_eq_true (hown h hh)
  rw [takeWhile_append_of_pos hown', dropWhile_append_of_pos hown']
  cases later with
  | nil => simp
  | cons h hs =>
    have hne : ¬ decide (h.rowID = row) = true := fun h' => hlater h mem_cons_self (of_decide_eq_true h')
    rw [takeWhile_cons, dropWhile_cons, if_neg hne, if_neg hne, append_nil]
    exact ⟨rfl, rfl⟩

variable {e : Entry W}

section Entries
variable {es fs : List (Entry W)}

@[simp] theorem hitsOf_cons : hitsOf (e :: es) = e.hits ++ hitsOf es := rfl

theorem hitsOf_append : hitsOf (es ++ fs) = hitsOf es ++ hitsOf fs := flatMap_append

@[simp] theorem docsOf_nil : docsOf ([] : List (Entry W)) = [] := rfl

@[simp] theorem docsOf_cons : docsOf (e :: es) = e.doc :: docsOf es := rfl

theorem docsOf_eq_nil : docsOf es = [] ↔ es = [] := map_eq_nil_iff

theorem mem_hitsOf : h ∈ hitsOf es ↔ ∃ e ∈ es, h ∈ e.hits := mem_flatMap

theorem rowID_of_mem_hitsOf (hh : h ∈ hitsOf es) : ∃ e ∈ es, h.rowID = e.rowID := by
  obtain ⟨e, he, hh⟩ := mem_hitsOf.mp hh
  exact ⟨e, he, e.own h hh⟩

theorem Ascending.tail (h : Ascending (e :: es)) : Ascending es := (pairwise_cons.mp h).2

theorem Ascending.head (h : Ascending (e :: es)) : ∀ f ∈ es, e.rowID < f.rowID := (pairwise_cons.mp h).1

theorem Ascending.lt_of_mem_hitsOf (h : Ascending (e :: es)) {k : ExtHit} (hk : k ∈ hitsOf es) : e.rowID < k.rowID := by
  obtain ⟨f, hf, hrow⟩ := rowID_of_mem_hitsOf hk
  rw [hrow]
  exact h.head f hf

theorem Ascending.right (h : Ascending (es ++ fs)) : Ascending fs := (pairwise_append.mp h).2.1

theorem Ascending.left (h : Ascending (es ++ fs)) : Ascending es := (pairwise_append.mp h).1

theorem skipHits_headRow {stale : List ExtHit} (hasc : Ascending es) (hne : es ≠ [])
    (hstale : ∀ h ∈ stale, ∀ e ∈ es, h.rowID < e.rowID) : skipHits (headRow (docsOf es)) (stale ++ hitsOf es) = hitsOf es := by
  obtain ⟨e, es, rfl⟩ := exists_cons_of_ne_nil hne
  refine skipHits_append (fun h hh => hstale h hh e mem_cons_self) fun h hh => ?_
  rcases List.mem_append.mp hh with hh | hh
  · exact le_of_eq (e.own h hh).symm
  · exact le_of_lt (hasc.lt_of_mem_hitsOf hh)

end Entries

/-- The documents a node returns with the hits it has for them. -/
abbrev Kept (W : Type) := ExtDoc W × List ExtHit

def keptHits (ks : List (Kept W)) : List ExtHit := ks.flatMap (·.2)

/-- The hits of each document are its own, and the documents ascend. -/
structure Buffered (ks : List (Kept W)) : Prop where
  own : ∀ k ∈ ks, ∀ h ∈ k.2, h.rowID = k.1.rowID
  asc : ks.Pairwise fun k l => k.1.rowID < l.1.rowID

/-- **The buffer returns the hits of the documents it is asked for**, whatever hits of earlier documents it still holds. -/
theorem copyMatchingHits_spec (pick : ExtDoc W → Bool) : ∀ (ks : List (Kept W)) (stale : List ExtHit), Buffered ks →
    (∀ h ∈ stale, ∀ k ∈ ks, h.rowID < k.1.rowID) →
    (copyMatchingHits (stale ++ keptHits ks) ((ks.filter fun k => pick k.1).map (·.1))).1 = keptHits (ks.filter fun k => pick k.1) ∧
    (copyMatchingHits (stale ++ keptHits ks) ((ks.filter fun k => pick k.1).map (·.1))).2 <:+ stale ++ keptHits ks
  | [], stale, _, _ => ⟨rfl, suffix_refl _⟩
  | k :: ks, stale, hb, hstale => by
    have hb' : Buffered ks := ⟨(forall_mem_cons.mp hb.own).2, (pairwise_cons.mp hb.asc).2⟩
    have hlater : ∀ h ∈ k.2, ∀ l ∈ ks, h.rowID < l.1.rowID := fun h hh l hl => by
      rw [hb.own k mem_cons_self h hh]
      exact (pairwise_cons.mp hb.asc).1 l hl
    by_cases hpick : pick k.1 = true
    · have hmore : ∀ h ∈ keptHits ks, k.1.rowID < h.rowID := fun h hh => by
        obtain ⟨l, hl, hh⟩ := mem_flatMap.mp hh
        rw [hb'.own l hl h hh]
        exact (pairwise_cons.mp hb.asc).1 l hl
      have hskip : skipHits k.1.rowID (stale ++ keptHits (k :: ks)) = k.2 ++ keptHits ks := by
        refine skipHits_append (fun h hh => hstale h hh k mem_cons_self) fun h hh => ?_
        rcases List.mem_append.mp hh with hh | hh
        · exact le_of_eq (hb.own k mem_cons_self h hh).symm
        · exact le_of_lt (hmore h hh)
      obtain ⟨htake, hdrop⟩ := ownHits_append (hb.own k mem_cons_self) fun h hh => Nat.ne_of_gt (hmore h hh)
      obtain ⟨hhits, hleft⟩ := copyMatchingHits_spec pick ks [] hb' (forall_mem_nil _)
      rw [nil_append] at hhits hleft
      rw [filter_cons_of_pos (by exact hpick), map_cons, copyMatchingHits, hskip, htake, hdrop, hhits]
      refine ⟨rfl, hleft.trans ?_⟩
      exact ⟨stale ++ k.2, by rw [append_assoc]; rfl⟩
    · rw [filter_cons_of_neg (by exact hpick)]
      have h := copyMatchingHits_spec pick ks (stale ++ k.2) hb' fun h hh l hl =>
        (List.mem_append.mp hh).elim (fun hh => hstale h hh l (mem_cons_of_mem _ hl)) fun hh => hlater h hh l hl
      rw [append_assoc] at h
      exact h

/-! ## A child and its parent's cursors -/

/-- **A parent stands before the entries `pending`** of the child's last chunk, with `rest` to come in all. -/
structure Reader.Before (r : Reader W) (pending rest : List (Entry W)) : Prop where
  docs : r.docs = docsOf pending
  eq : rest = pending ++ r.stream.chunks.flatten
  full : ∀ c ∈ r.stream.chunks, c ≠ []
  asc : Ascending rest
  current : ∃ gone, r.stream.current = gone ++ pending ∧ ∀ g ∈ gone, ∀ e ∈ pending, g.rowID < e.rowID

/-- The parent's hits are those of the documents before it. -/
structure Reader.Stands (r : Reader W) (pending rest : List (Entry W)) : Prop extends r.Before pending rest where
  hits : pending ≠ [] → r.hits = hitsOf pending

/-- The entries of the last chunk that the parent stands before, and all that is to come. -/
def Reader.pending (r : Reader W) : List (Entry W) := r.stream.current.drop (r.stream.current.length - r.docs.length)

def Reader.rest (r : Reader W) : List (Entry W) := r.pending ++ r.stream.chunks.flatten

section Reader
variable {r : Reader W} {pending rest : List (Entry W)}

theorem getHits_docsOf (h : r.Before pending rest) : r.stream.getHits (docsOf pending) = hitsOf pending := by
  obtain ⟨gone, hcur, hgone⟩ := h.current
  have hno : gone.filter (fun e => (docsOf pending).any fun d => d.rowID = e.rowID) = [] := by
    refine filter_eq_nil_iff.mpr fun g hg hany => ?_
    obtain ⟨d, hd, hrow⟩ := any_eq_true.mp hany
    obtain ⟨e, he, rfl⟩ := mem_map.mp hd
    exact Nat.ne_of_gt (hgone g hg e he) (of_decide_eq_true hrow)
  have hall : pending.filter (fun e => (docsOf pending).any fun d => d.rowID = e.rowID) = pending :=
    filter_eq_self.mpr fun e he => any_eq_true.mpr ⟨e.doc, mem_map_of_mem he, decide_eq_true rfl⟩
  rw [Stream.getHits, hcur, filter_append, hno, hall, nil_append]

theorem getDocsChunk_spec (h : r.Before [] rest) : (rest = [] ∧ r.stream.getDocsChunk.1 = [] ∧
      ∀ hits, ({ stream := r.stream.getDocsChunk.2, docs := [], hits := hits } : Reader W).Before [] []) ∨
    ∃ pending, pending ≠ [] ∧ r.stream.getDocsChunk.1 = docsOf pending ∧
      ∀ hits, ({ stream := r.stream.getDocsChunk.2, docs := docsOf pending, hits := hits } : Reader W).Before pending rest := by
  have hrest := h.eq
  rw [nil_append] at hrest
  cases hc : r.stream.chunks with
  | nil =>
    left
    rw [hrest, hc, Stream.getDocsChunk, hc]
    exact ⟨rfl, rfl, fun hits => ⟨rfl, rfl, forall_mem_nil _, .nil, [], rfl,
      forall_mem_nil _⟩⟩
  | cons c cs =>
    right
    refine ⟨c, h.full c (by rw [hc]; exact mem_cons_self), by rw [Stream.getDocsChunk, hc], fun hits => ?_⟩
    rw [Stream.getDocsChunk, hc]
    refine ⟨rfl, by rw [hrest, hc, flatten_cons], fun d hd => h.full d ?_, h.asc, [], rfl, forall_mem_nil _⟩
    rw [hc]
    exact mem_cons_of_mem _ hd

/-- **`WarmupDocs`** comes to a document, or the child is over. -/
theorem Reader.Stands.warmupDocs (h : r.Stands pending rest) :
    (rest = [] ∧ r.warmupDocs.Stands [] []) ∨ ∃ pending, pending ≠ [] ∧ r.warmupDocs.Stands pending rest := by
  cases pending with
  | cons e es =>
    right
    have hsame : r.warmupDocs = r := by
      rw [Reader.warmupDocs, if_pos]
      rw [h.docs, docsOf_cons]
      exact cons_ne_nil _ _
    rw [hsame]
    exact ⟨e :: es, cons_ne_nil _ _, h⟩
  | nil =>
    have hnil : ¬ r.docs ≠ [] := fun hne => hne h.docs
    rw [Reader.warmupDocs, if_neg hnil]
    rcases getDocsChunk_spec h.toBefore with ⟨hrest, hdocs, hb⟩ | ⟨pending, hne, hdocs, hb⟩
    · left
      refine ⟨hrest, ?_, fun hne => absurd rfl hne⟩
      show ({ stream := r.stream.getDocsChunk.2, docs := r.stream.getDocsChunk.1, hits := _ } : Reader W).Before [] []
      rw [hdocs]
      exact hb _
    · right
      refine ⟨pending, hne, ?_, fun _ => ?_⟩
      · show ({ stream := r.stream.getDocsChunk.2, docs := r.stream.getDocsChunk.1, hits := _ } : Reader W).Before pending rest
        rw [hdocs]
        exact hb _
      · show (if r.stream.getDocsChunk.1 = [] then r.hits else r.stream.getDocsChunk.2.getHits r.stream.getDocsChunk.1) = _
        rw [hdocs, if_neg fun hnil => hne (docsOf_eq_nil.mp hnil)]
        exact getHits_docsOf (hb [])

/-- **A hint** drops documents below it that were not read yet. -/
theorem Reader.Before.hint (h : r.Before pending rest) (row : RowID) :
    ∃ rest', (r.hintRowID row).Before pending rest' ∧ rest'.Sublist rest ∧ ∀ e ∈ rest, row ≤ e.rowID → e ∈ rest' := by
  have hrest := h.eq
  have hasc := h.asc
  rw [hrest] at hasc
  obtain ⟨gone, hgone, hlow⟩ := r.stream.hinter.dropped row r.stream.chunks hasc.right
  have hsub : (pending ++ (r.stream.hinter.skip row r.stream.chunks).flatten).Sublist rest := by
    rw [hrest, hgone]
    exact (List.Sublist.refl _).append (sublist_append_right _ _)
  refine ⟨_, ⟨h.docs, rfl, r.stream.hinter.full row _ h.full, List.Pairwise.sublist hsub h.asc, h.current⟩, hsub, fun e he hrow => ?_⟩
  rw [hrest, hgone] at he
  rcases List.mem_append.mp he with he | he
  · exact mem_append_left _ he
  · rcases List.mem_append.mp he with he | he
    · exact absurd hrow (Nat.not_le_of_lt (hlow e he))
    · exact mem_append_right _ he

theorem Reader.Before.congr {r' : Reader W} (h : r.Before pending rest) (hstream : r'.stream = r.stream) (hdocs : r'.docs = r.docs) :
    r'.Before pending rest := by
  obtain ⟨hd, heq, hfull, hasc, hcur⟩ := h
  rw [← hstream] at heq hfull hcur
  exact ⟨hdocs.trans hd, heq, hfull, hasc, hcur⟩

/-- The parent goes past some documents of the chunk. -/
theorem Reader.Before.skip {gone : List (Entry W)} (h : r.Before (gone ++ pending) rest) (hits : List ExtHit) :
    ({ r with docs := docsOf pending, hits := hits } : Reader W).Before pending (pending ++ r.stream.chunks.flatten) := by
  have hasc := h.asc
  rw [h.eq] at hasc
  obtain ⟨before, hcur, hbefore⟩ := h.current
  refine ⟨rfl, rfl, h.full, ?_, before ++ gone, by rw [hcur, append_assoc], fun g hg e he => ?_⟩
  · rw [append_assoc] at hasc
    exact hasc.right
  · rcases List.mem_append.mp hg with hg | hg
    · exact hbefore g hg e (mem_append_right _ he)
    · exact (pairwise_append.mp hasc.left).2.2 g hg e he

theorem Reader.Before.headRow_cons (h : r.Before (e :: pending) rest) : headRow r.docs = e.rowID := by
  rw [h.docs]
  rfl

theorem Reader.Before.docs_eq_nil (h : r.Before pending rest) : r.docs = [] ↔ pending = [] := by
  rw [h.docs, docsOf_eq_nil]

theorem Reader.Before.le_of_mem (h : r.Before (e :: pending) rest) {f : Entry W} (hf : f ∈ rest) : e.rowID ≤ f.rowID := by
  have hasc := h.asc
  rw [h.eq, cons_append] at hasc hf
  rcases mem_cons.mp hf with rfl | hf
  · exact le_refl _
  · exact le_of_lt (hasc.head f hf)

theorem Reader.Before.pending_eq (h : r.Before pending rest) : r.pending = pending := by
  obtain ⟨gone, hcur, -⟩ := h.current
  have hlen : r.stream.current.length - r.docs.length = gone.length := by
    rw [hcur, h.docs, docsOf, length_append, length_map, Nat.add_sub_cancel]
  rw [Reader.pending, hlen, hcur, drop_left]

theorem Reader.Before.rest_eq (h : r.Before pending rest) : r.rest = rest := by
  rw [Reader.rest, h.pending_eq, h.eq]

theorem Reader.Stands.next (h : r.Stands (e :: pending) rest) (hhits : pending ≠ [] → hits = hitsOf pending) :
    ({ r with docs := docsOf pending, hits := hits } : Reader W).Stands pending (pending ++ r.stream.chunks.flatten) :=
  have hbefore : r.Before ([e] ++ pending) rest := h.toBefore
  ⟨hbefore.skip hits, hhits⟩

end Reader

/-! ## An operand before the first call -/

/-- The chunks a child is going to return when it is not told anything. -/
structure Operand (W : Type) where
  chunks : List (List (Entry W))
  hinter : Hinter W
  full : ∀ c ∈ chunks, c ≠ []
  ascending : Ascending chunks.flatten

def Operand.entries (o : Operand W) : List (Entry W) := o.chunks.flatten

def Operand.reader (o : Operand W) : Reader W := { stream := { chunks := o.chunks, hinter := o.hinter } }

theorem Operand.stands (o : Operand W) : o.reader.Stands [] o.entries where
  docs := rfl
  eq := rfl
  full := o.full
  asc := o.ascending
  current := ⟨[], rfl, forall_mem_nil _⟩
  hits := fun h => absurd rfl h

/-- A child that does not use hints. -/
def Hinter.none : Hinter W where
  skip _ chunks := chunks
  dropped := fun _ _ _ => ⟨[], rfl, forall_mem_nil _⟩
  full := fun _ _ h => h

/-- A chunk with one document, which has hits of one keyword at the given places. -/
def oneDoc (row : RowID) (place : Nat) (places : List Nat) : List (Entry Nat) :=
  if valid : row < invalidRowID then [{
    doc := ⟨row, 1, 0⟩
    hits := (place :: places).map fun hitpos => { rowID := row, hitpos, querypos := 1, nodepos := 0 }
    valid
    some := cons_ne_nil _ _
    own := fun _ h => by
      obtain ⟨_, -, rfl⟩ := mem_map.mp h
      rfl }]
  else []

/-! ## Draining a node that buffers its hits -/

/-- A node that keeps the hits of the documents it returned until they are asked for (`BufferedNode_c`). -/
structure BufferedNode (W S : Type) where
  getDocsChunk : S → Option (List (ExtDoc W) × S)
  myHits : S → List ExtHit
  setHits : S → List ExtHit → S

/-- `GetDocsChunk` until it returns null; after each chunk the caller asks for the hits of the documents it picks. -/
def BufferedNode.drain {S : Type} (b : BufferedNode W S) (pick : ExtDoc W → Bool) :
    Nat → S → Option (List (List (ExtDoc W) × List ExtHit))
  | 0, _ => none
  | fuel + 1, s => do
    let (docs, s) ← b.getDocsChunk s
    if docs = [] then some []
    else
      let c := copyMatchingHits (b.myHits s) (docs.filter pick)
      let rest ← b.drain pick fuel (b.setHits s c.2)
      some ((docs, c.1) :: rest)

/-- What a caller sees of a chunk: its documents, and the hits of those it picked. -/
def visit (pick : ExtDoc W → Bool) (ks : List (Kept W)) : List (ExtDoc W) × List ExtHit :=
  (ks.map (·.1), keptHits (ks.filter fun k => pick k.1))

theorem flatMap_visit (pick : ExtDoc W → Bool) (pieces : List (List (Kept W))) :
    (pieces.map (visit pick)).flatMap (·.1) = pieces.flatten.map (·.1) ∧
      (pieces.map (visit pick)).flatMap (·.2) = keptHits (pieces.flatten.filter fun k => pick k.1) := by
  refine ⟨?_, ?_⟩
  · rw [flatMap_map, map_flatten]
    rfl
  · induction pieces with
    | nil => rfl
    | cons c pieces ih =>
      rw [map_cons, flatMap_cons, flatten_cons, filter_append, keptHits, flatMap_append, ih]
      rfl

/-- A node has documents to come (`To`): each call returns the next of them and buffers their hits, and returns null only
when there are none left. -/
structure BufferedNode.Gives {S : Type} (b : BufferedNode W S) (To : S → List (Kept W) → Prop) : Prop where
  chunk : ∀ s ks, To s ks → ∃ now later s', b.getDocsChunk s = some (now.map (·.1), s') ∧ ks = now ++ later ∧
    b.myHits s' = b.myHits s ++ keptHits now ∧ To s' later ∧ (now = [] → later = []) ∧ now.length < MAX_BLOCK_DOCS
  setHits : ∀ s ks hits, To s ks → To (b.setHits s hits) ks ∧ b.myHits (b.setHits s hits) = hits
  buffered : ∀ s ks, To s ks → Buffered ks

/-- **The chunks cut what is to come into pieces**, and a caller sees of each piece what it picked. -/
theorem BufferedNode.Gives.drain {S : Type} {b : BufferedNode W S} {To : S → List (Kept W) → Prop} (hb : b.Gives To)
    (pick : ExtDoc W → Bool) : ∀ (fuel : Nat) (s : S) (ks : List (Kept W)), To s ks →
    (∀ h ∈ b.myHits s, ∀ k ∈ ks, h.rowID < k.1.rowID) → ks.length < fuel →
    ∃ pieces : List (List (Kept W)), b.drain pick fuel s = some (pieces.map (visit pick)) ∧ pieces.flatten = ks ∧
      ∀ c ∈ pieces, c ≠ [] ∧ c.length < MAX_BLOCK_DOCS
  | 0, _, _, _, _, hfuel => absurd hfuel (Nat.not_lt_zero _)
  | fuel + 1, s, ks, h, hold, hfuel => by
    obtain ⟨now, later, s', hchunk, rfl, hhits, h', hover, hlen⟩ := hb.chunk s ks h
    have hbuf := hb.buffered s _ h
    by_cases hnil : now = []
    · refine ⟨[], ?_, ?_, forall_mem_nil _⟩
      · rw [BufferedNode.drain, hchunk, hnil]
        rfl
      · rw [hnil, hover hnil]
        rfl
    · have hdocs : ¬ now.map (·.1) = [] := fun h => hnil (map_eq_nil_iff.mp h)
      have hpick : (now.map (·.1)).filter pick = (now.filter fun k => pick k.1).map (·.1) := by
        rw [filter_map]
        rfl
      obtain ⟨hcopy, hleft⟩ := copyMatchingHits_spec pick now (b.myHits s)
        ⟨(forall_mem_append.mp hbuf.own).1, (pairwise_append.mp hbuf.asc).1⟩
        fun h hh k hk => hold h hh k (mem_append_left _ hk)
      rw [← hhits, ← hpick] at hcopy hleft
      obtain ⟨hto, hset⟩ := hb.setHits s' later (copyMatchingHits (b.myHits s') ((now.map (·.1)).filter pick)).2 h'
      -- what stays in the buffer is of earlier documents
      have hold' : ∀ h ∈ (copyMatchingHits (b.myHits s') ((now.map (·.1)).filter pick)).2, ∀ k ∈ later, h.rowID < k.1.rowID := by
        intro h hh k hk
        have hh := hleft.subset hh
        rw [hhits] at hh
        rcases List.mem_append.mp hh with hh | hh
        · exact hold h hh k (mem_append_right _ hk)
        · obtain ⟨j, hj, hh⟩ := mem_flatMap.mp hh
          rw [hbuf.own j (mem_append_left _ hj) h hh]
          exact (pairwise_append.mp hbuf.asc).2.2 j hj k hk
      have hpos : 0 < now.length := length_pos_iff.mpr hnil
      rw [length_append] at hfuel
      obtain ⟨pieces, hdrain, hflat, hpieces⟩ := hb.drain pick fuel _ later hto (by rw [hset]; exact hold') (by omega)
      refine ⟨now :: pieces, ?_, by rw [flatten_cons, hflat], forall_mem_cons.mpr ⟨⟨hnil, hlen⟩, hpieces⟩⟩
      simp only [BufferedNode.drain, hchunk, Option.bind_eq_bind, Option.bind_some, if_neg hdocs, hdrain, map_cons, visit, hcopy]

end HitStream
end Manticore

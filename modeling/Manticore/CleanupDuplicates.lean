import Manticore.Compact
import Manticore.AccumDoc
/-!
# CleanupDuplicates — one document for each id (`RtAccum_t::CleanupDuplicates`)

The documents are sorted by id; of those with one id all but the last (REPLACE) or the first (INSERT) are marked in a map of
the rows.  Hits, columns, rows, counts and stored documents are then compacted, each in its own loop over the map.
-/
namespace Manticore
namespace Accum

open ExtNode (RowID)
open Manticore.Compact (copyTo swapTo walk take_walk Walked keptBy keptBy_nil keptBy_map keptBy_all length_keptBy)
open List

/-! ## The map of the rows -/

structure AccumDocHits where
  docID : Int
  docIndex : Nat
deriving DecidableEq, Repr

def AccumDocHits.lesser (a b : AccumDocHits) : Bool :=
  decide (a.docID < b.docID) || (decide (a.docID = b.docID) && decide (a.docIndex < b.docIndex))

/-- The order of the sort: a strict order on documents of distinct indices, so that any sort gives one result. -/
def AccumDocHits.le (a b : AccumDocHits) : Prop := b.lesser a = false

instance : DecidableRel AccumDocHits.le := fun a b => inferInstanceAs (Decidable (b.lesser a = false))

/-- The entries of the documents in the order of the rows. -/
def docHits (s : Schema) (acc : RtAccum) : List AccumDocHits :=
  (List.range acc.accumDocs).map (fun i => ⟨readDocID s (acc.rows.getD i []) (acc.columnar.getD i []), i⟩)

/-- The `any_of` before the map is built: some id is that of the entry before it (the first is compared with 0). -/
def anyRepeated : Int → List AccumDocHits → Bool
  | _, [] => false
  | prev, d :: ds => decide (d.docID = prev) || anyRepeated d.docID ds

/-- Where each row goes; `none` is `INVALID_ROWID`. -/
abbrev RowMap := List (Option RowID)

/-- Replace mode: the last value wins. -/
def markReplaced : List AccumDocHits → RowMap → RowMap
  | a :: b :: ds, m => markReplaced (b :: ds) (if a.docID = b.docID then m.set a.docIndex none else m)
  | _, m => m

/-- Insert mode: the first value wins. -/
def markInserted : List AccumDocHits → RowMap → RowMap
  | a :: b :: ds, m => markInserted (b :: ds) (if b.docID = a.docID then m.set b.docIndex none else m)
  | _, m => m

/-- The rows that stay are numbered anew. -/
def numberRows : RowID → RowMap → RowMap
  | _, [] => []
  | next, some _ :: m => some next :: numberRows (next + 1) m
  | next, none :: m => none :: numberRows next m

/-! ## The loops over the map -/

/-- Hits of dropped rows go, the others get the new numbers. -/
def compactHits (m : RowMap) : Nat → Nat → Nat → List WordHit → List WordHit × Nat
  | 0, _, iDst, accum => (accum, iDst)
  | n + 1, i, iDst, accum =>
    match accum[i]? with
    | none => (accum, iDst)
    | some src =>
      match (m[src.rowID]?).join with
      | some row => compactHits m n (i + 1) (iDst + 1) (accum.set iDst { src with rowID := row })
      | none => compactHits m n (i + 1) iDst accum

/-- The values of the rows that stay are appended to a new builder. -/
def copyColumnar (columnar : List (List ColumnarValue)) : RowMap → Nat → List (List ColumnarValue) → List (List ColumnarValue)
  | [], _, cols => cols
  | none :: m, i, cols => copyColumnar columnar m (i + 1) cols
  | some _ :: m, i, cols => copyColumnar columnar m (i + 1) (cols ++ (columnar[i]?).toList)

/-- `RemoveColumnarDuplicates` -/
def removeColumnarDuplicates (m : RowMap) (columnar : List (List ColumnarValue)) : List (List ColumnarValue) :=
  if m.any Option.isNone then copyColumnar columnar m 0 [] else columnar

/-- What the last loop compacts. -/
structure Rows where
  rows : List (List Nat)
  perDocHitsCount : List Nat
  docstore : Option (List (List (List UInt8)))

/-- Rows and counts are copied, stored documents swapped. -/
def Rows.move (r : Rows) (iDst i : Nat) : Rows :=
  if i ≠ iDst then ⟨copyTo iDst i r.rows, copyTo iDst i r.perDocHitsCount, r.docstore.map (swapTo iDst i)⟩ else r

def compactRows : RowMap → Nat → Nat → Rows → Rows × Nat
  | [], _, iDst, r => (r, iDst)
  | none :: m, i, iDst, r => compactRows m (i + 1) iDst r
  | some _ :: m, i, iDst, r => compactRows m (i + 1) (iDst + 1) (r.move iDst i)

/-- `RtAccum_t::CleanupDuplicates` -/
def cleanupDuplicates (s : Schema) (acc : RtAccum) : RtAccum :=
  if acc.accumDocs ≤ 1 then acc else
  let dDocHits := (docHits s acc).insertionSort AccumDocHits.le
  if !anyRepeated 0 dDocHits then acc else
  let dRowMap : RowMap := List.replicate acc.accumDocs (some 0)
  let dRowMap := numberRows 0 (if acc.replace then markReplaced dDocHits dRowMap else markInserted dDocHits dRowMap)
  let hits := compactHits dRowMap acc.accum.length 0 0 acc.accum
  let r := compactRows dRowMap 0 0 ⟨acc.rows, acc.perDocHitsCount, acc.docstore⟩
  { acc with
    accum := hits.1.take hits.2
    columnar := removeColumnarDuplicates dRowMap acc.columnar
    rows := r.1.rows.take r.2
    perDocHitsCount := r.1.perDocHitsCount.take r.2
    docstore := r.1.docstore.map (List.take r.2)
    accumDocs := r.2 }

/-- The last document of every id, in the order of the documents. -/
def lastOfEach (s : Schema) : List Document → List Document
  | [] => []
  | d :: ds => if ds.any (fun d' => d'.tDoc.getID s = d.tDoc.getID s) then lastOfEach s ds else d :: lastOfEach s ds

/-! ## What each loop leaves -/

theorem compactRows_eq : ∀ (m : RowMap) (i iDst : Nat) (r : Rows), compactRows m i iDst r =
    (⟨walk copyTo m i iDst r.rows, walk copyTo m i iDst r.perDocHitsCount, r.docstore.map (walk swapTo m i iDst)⟩,
      iDst + m.countP Option.isSome)
  | [], i, iDst, r => by
    have hid : walk swapTo ([] : RowMap) i iDst = (id : List (List (List UInt8)) → _) := rfl
    rw [hid, Option.map_id]
    rfl
  | none :: m, i, iDst, r => by
    rw [compactRows, compactRows_eq m, countP_cons_of_neg Bool.false_ne_true]
    rfl
  | some _ :: m, i, iDst, r => by
    rw [compactRows, compactRows_eq m, countP_cons_of_pos rfl, Rows.move, add_right_comm, ← add_assoc]
    by_cases hi : i = iDst
    · simp only [walk, if_neg (not_not.mpr hi)]
    · simp only [walk, if_pos hi, Option.map_map]
      rfl

/-- What becomes of a hit. -/
def renumber (m : RowMap) (h : WordHit) : Option WordHit := ((m[h.rowID]?).join).map (fun row => { h with rowID := row })

theorem compactHits_spec (m : RowMap) : ∀ (n : Nat) {kept rest accum : List WordHit} {i : Nat}, Walked kept i rest accum →
    n = rest.length → ((compactHits m n i kept.length accum).1).take (compactHits m n i kept.length accum).2 =
      kept ++ rest.filterMap (renumber m)
  | 0, kept, rest, accum, i, h, hn => by
    rw [eq_nil_of_length_eq_zero hn.symm, filterMap_nil, append_nil]
    exact h.take
  | n + 1, _, [], _, _, _, hn => absurd hn (Nat.succ_ne_zero _)
  | n + 1, kept, src :: rest, accum, i, h, hn => by
    rw [compactHits, h.get]
    dsimp only
    cases hrow : (m[src.rowID]?).join with
    | none =>
      have hren : renumber m src = none := by rw [renumber, hrow, Option.map_none]
      rw [filterMap_cons_none hren]
      exact compactHits_spec m n h.skip (Nat.succ.inj hn)
    | some row =>
      have hren : renumber m src = some { src with rowID := row } := by rw [renumber, hrow, Option.map_some]
      have ih := compactHits_spec m n (h.put { src with rowID := row }) (Nat.succ.inj hn)
      rw [length_append, length_singleton, append_assoc] at ih
      rw [filterMap_cons_some hren]
      exact ih

theorem copyColumnar_spec : ∀ (m : RowMap) (before rest cols : List (List ColumnarValue)), m.length = rest.length →
    copyColumnar (before ++ rest) m before.length cols = cols ++ keptBy m rest
  | [], before, rest, cols, hlen => by
    exact (append_nil cols).symm
  | none :: _, _, [], _, hlen => absurd hlen (Nat.succ_ne_zero _)
  | some _ :: _, _, [], _, hlen => absurd hlen (Nat.succ_ne_zero _)
  | none :: m, before, v :: rest, cols, hlen => by
    have ih := copyColumnar_spec m (before ++ [v]) rest cols (Nat.succ.inj hlen)
    rw [length_append, length_singleton, append_assoc] at ih
    exact ih
  | some _ :: m, before, v :: rest, cols, hlen => by
    have ih := copyColumnar_spec m (before ++ [v]) rest (cols ++ [v]) (Nat.succ.inj hlen)
    have hget : (before ++ v :: rest)[before.length]? = some v := by
      rw [getElem?_append_right (le_refl _), Nat.sub_self]
      rfl
    rw [length_append, length_singleton, append_assoc, append_assoc] at ih
    rw [copyColumnar, hget]
    exact ih

theorem removeColumnarDuplicates_eq {m : RowMap} {columnar : List (List ColumnarValue)} (hlen : m.length = columnar.length) :
    removeColumnarDuplicates m columnar = keptBy m columnar := by
  rw [removeColumnarDuplicates]
  split
  · exact copyColumnar_spec m [] columnar [] hlen
  · rename_i hany
    rw [keptBy_all (fun x hx => ?_) hlen]
    by_contra hnone
    exact hany (any_eq_true.mpr ⟨x, hx, by rw [Option.not_isSome_iff_eq_none.mp hnone]; rfl⟩)

/-! ## New numbers -/

theorem length_numberRows : ∀ (next : RowID) (m : RowMap), (numberRows next m).length = m.length
  | _, [] => rfl
  | next, some _ :: m => congrArg (· + 1) (length_numberRows (next + 1) m)
  | next, none :: m => congrArg (· + 1) (length_numberRows next m)

theorem keptBy_numberRows {α : Type} : ∀ (next : RowID) (m : RowMap) (l : List α), keptBy (numberRows next m) l = keptBy m l
  | _, [], _ => rfl
  | _, some _ :: _, [] => rfl
  | _, none :: _, [] => rfl
  | next, some _ :: m, x :: l => congrArg (x :: ·) (keptBy_numberRows (next + 1) m l)
  | next, none :: m, _ :: l => keptBy_numberRows next m l

theorem hitsFrom_cons (n : Nat) (d : Document) (docs : List Document) :
    hitsFrom n (d :: docs) = d.accumWords.map (hitOf n) ++ hitsFrom (n + 1) docs := by
  rfl

/-- **The hits of the rows that stay carry the new numbers.** -/
theorem filterMap_hitsFrom : ∀ (m : RowMap) (docs : List Document) (before : RowMap) (next : RowID),
    m.length = docs.length → (hitsFrom before.length docs).filterMap (renumber (before ++ numberRows next m)) =
      hitsFrom next (keptBy m docs)
  | [], docs, before, next, hlen => by
    rw [eq_nil_of_length_eq_zero hlen.symm]
    rfl
  | none :: _, [], _, _, hlen => absurd hlen (Nat.succ_ne_zero _)
  | some _ :: _, [], _, _, hlen => absurd hlen (Nat.succ_ne_zero _)
  | none :: m, d :: docs, before, next, hlen => by
    have hdoc : (d.accumWords.map (hitOf before.length)).filterMap (renumber (before ++ none :: numberRows next m)) = [] := by
      refine filterMap_eq_nil_iff.mpr (fun h hh => ?_)
      obtain ⟨w, -, rfl⟩ := mem_map.mp hh
      rw [renumber, hitOf, getElem?_append_right (le_refl _), Nat.sub_self]
      rfl
    have ih := filterMap_hitsFrom m docs (before ++ [none]) next (Nat.succ.inj hlen)
    rw [length_append, length_singleton, append_assoc] at ih
    rw [hitsFrom_cons, filterMap_append, numberRows, hdoc, nil_append]
    exact ih
  | some _ :: m, d :: docs, before, next, hlen => by
    have hdoc : (d.accumWords.map (hitOf before.length)).filterMap
        (renumber (before ++ some next :: numberRows (next + 1) m)) = d.accumWords.map (hitOf next) := by
      rw [filterMap_map, ← filterMap_eq_map]
      refine filterMap_congr (fun w _ => ?_)
      rw [Function.comp_apply, renumber, hitOf, getElem?_append_right (le_refl _), Nat.sub_self]
      rfl
    have ih := filterMap_hitsFrom m docs (before ++ [some next]) (next + 1) (Nat.succ.inj hlen)
    rw [length_append, length_singleton, append_assoc] at ih
    rw [hitsFrom_cons, filterMap_append, numberRows, hdoc, keptBy, hitsFrom_cons]
    exact congrArg (d.accumWords.map (hitOf next) ++ ·) ih

/-! ## Which rows are dropped -/

namespace AccumDocHits

theorem lesser_iff {a b : AccumDocHits} :
    a.lesser b = true ↔ a.docID < b.docID ∨ (a.docID = b.docID ∧ a.docIndex < b.docIndex) := by
  simp only [lesser, Bool.or_eq_true, Bool.and_eq_true, decide_eq_true_eq]

theorem le_iff {a b : AccumDocHits} : a.le b ↔ ¬ (b.docID < a.docID ∨ (b.docID = a.docID ∧ b.docIndex < a.docIndex)) := by
  rw [le, ← Bool.not_eq_true, lesser_iff]

instance : Std.Total AccumDocHits.le := ⟨fun a b => by rw [le_iff, le_iff]; omega⟩

instance : IsTrans AccumDocHits AccumDocHits.le := ⟨fun a b c => by rw [le_iff, le_iff, le_iff]; omega⟩

end AccumDocHits

/-- A later document has the id of the one with the index. -/
def Replaced (es : List AccumDocHits) (k : Nat) : Prop :=
  ∃ e ∈ es, ∃ f ∈ es, e.docIndex = k ∧ f.docID = e.docID ∧ e.docIndex < f.docIndex

theorem length_markReplaced : ∀ (es : List AccumDocHits) (m : RowMap), (markReplaced es m).length = m.length
  | [], _ => rfl
  | [_], _ => rfl
  | a :: b :: es, m => by
    rw [markReplaced, length_markReplaced]
    split
    · exact length_set
    · rfl

theorem markReplaced_none : ∀ (es : List AccumDocHits) {m : RowMap} {k : Nat}, m[k]? = some none →
    (markReplaced es m)[k]? = some none
  | [], _, _, h => h
  | [_], _, _, h => h
  | a :: b :: es, m, k, h => by
    refine markReplaced_none (b :: es) ?_
    split
    · rw [getElem?_set]
      split
      · rename_i hk
        rw [if_pos (hk ▸ (List.getElem?_eq_some_iff.mp h).1)]
      · exact h
    · exact h

/-- In the sorted list, the next entry has the same id if any later document has. -/
theorem replaced_cons {a b : AccumDocHits} {es : List AccumDocHits}
    (hs : (a :: b :: es).Pairwise (fun a b => a.lesser b = true)) (k : Nat) :
    Replaced (a :: b :: es) k ↔ (a.docIndex = k ∧ a.docID = b.docID) ∨ Replaced (b :: es) k := by
  obtain ⟨ha, hb⟩ := pairwise_cons.mp hs
  constructor
  · rintro ⟨e, he, f, hf, hk, hid, hlt⟩
    rcases mem_cons.mp he with rfl | he
    · rcases mem_cons.mp hf with rfl | hf
      · exact absurd hlt (lt_irrefl _)
      · refine .inl ⟨hk, ?_⟩
        have hab := AccumDocHits.lesser_iff.mp (ha b mem_cons_self)
        rcases mem_cons.mp hf with rfl | hf
        · exact hid.symm
        · have hbf := AccumDocHits.lesser_iff.mp ((pairwise_cons.mp hb).1 f hf)
          omega
    · rcases mem_cons.mp hf with rfl | hf
      · have haf := AccumDocHits.lesser_iff.mp (ha e ‹e ∈ b :: es›)
        omega
      · exact .inr ⟨e, ‹e ∈ b :: es›, f, hf, hk, hid, hlt⟩
  · rintro (⟨hk, hid⟩ | ⟨e, he, f, hf, h⟩)
    · have hab := AccumDocHits.lesser_iff.mp (ha b mem_cons_self)
      exact ⟨a, mem_cons_self, b, mem_cons_of_mem _ mem_cons_self, hk, hid.symm, by omega⟩
    · exact ⟨e, mem_cons_of_mem _ he, f, mem_cons_of_mem _ hf, h⟩

theorem markReplaced_of_replaced : ∀ {es : List AccumDocHits} {m : RowMap} {k : Nat},
    es.Pairwise (fun a b => a.lesser b = true) → k < m.length → Replaced es k → (markReplaced es m)[k]? = some none
  | [], _, _, _, _, ⟨_, he, _⟩ => absurd he not_mem_nil
  | [a], _, _, _, _, ⟨e, he, f, hf, _, _, hlt⟩ => by
    rw [mem_singleton.mp he, mem_singleton.mp hf] at hlt
    exact absurd hlt (lt_irrefl _)
  | a :: b :: es, m, k, hs, hk, hr => by
    rcases (replaced_cons hs k).mp hr with ⟨rfl, hid⟩ | hr
    · refine markReplaced_none (b :: es) ?_
      rw [if_pos hid, getElem?_set_self hk]
    · rw [markReplaced]
      refine markReplaced_of_replaced hs.of_cons ?_ hr
      split
      · rw [length_set]
        exact hk
      · exact hk

theorem markReplaced_of_not : ∀ {es : List AccumDocHits} {m : RowMap} {k : Nat},
    es.Pairwise (fun a b => a.lesser b = true) → ¬ Replaced es k → (markReplaced es m)[k]? = m[k]?
  | [], _, _, _, _ => rfl
  | [_], _, _, _, _ => rfl
  | a :: b :: es, m, k, hs, hr => by
    rw [replaced_cons hs, not_or] at hr
    rw [markReplaced, markReplaced_of_not hs.of_cons hr.2]
    split
    · rename_i hid
      exact getElem?_set_ne (fun hk => hr.1 ⟨hk, hid⟩)
    · rfl

/-- The map that drops every row whose id comes again. -/
def lastMap : List Int → RowMap
  | [] => []
  | id :: ids => (if id ∈ ids then none else some 0) :: lastMap ids

theorem length_lastMap : ∀ ids : List Int, (lastMap ids).length = ids.length
  | [] => rfl
  | _ :: ids => congrArg (· + 1) (length_lastMap ids)

theorem lastMap_getElem? : ∀ {ids : List Int} {k : Nat}, k < ids.length →
    (((∃ j, k < j ∧ j < ids.length ∧ ids[j]? = ids[k]?) → (lastMap ids)[k]? = some none) ∧
     ((¬ ∃ j, k < j ∧ j < ids.length ∧ ids[j]? = ids[k]?) → (lastMap ids)[k]? = some (some 0)))
  | [], k, hk => absurd hk (Nat.not_lt_zero k)
  | id :: ids, 0, _ => by
    constructor
    · rintro ⟨j, hj, -, he⟩
      obtain ⟨j, rfl⟩ : ∃ j', j = j' + 1 := ⟨j - 1, by omega⟩
      have hmem : id ∈ ids := mem_of_getElem? he
      rw [lastMap, if_pos hmem]
      rfl
    · intro h
      have hmem : id ∉ ids := by
        intro hm
        obtain ⟨j, hj, he⟩ := getElem_of_mem hm
        refine h ⟨j + 1, Nat.succ_pos _, Nat.succ_lt_succ hj, ?_⟩
        rw [getElem?_cons_succ, getElem?_eq_getElem hj, he]
        rfl
      rw [lastMap, if_neg hmem]
      rfl
  | id :: ids, k + 1, hk => by
    have ih := lastMap_getElem? (Nat.lt_of_succ_lt_succ hk)
    have hshift : (∃ j, k + 1 < j ∧ j < (id :: ids).length ∧ (id :: ids)[j]? = (id :: ids)[k + 1]?) ↔
        ∃ j, k < j ∧ j < ids.length ∧ ids[j]? = ids[k]? := by
      constructor
      · rintro ⟨j, hj, hlt, he⟩
        obtain ⟨j, rfl⟩ : ∃ j', j = j' + 1 := ⟨j - 1, by omega⟩
        exact ⟨j, Nat.lt_of_succ_lt_succ hj, Nat.lt_of_succ_lt_succ hlt, he⟩
      · rintro ⟨j, hj, hlt, he⟩
        exact ⟨j + 1, Nat.succ_lt_succ hj, Nat.succ_lt_succ hlt, he⟩
    rw [hshift]
    exact ih

/-- The entries of the documents with the ids. -/
def entries (ids : List Int) : List AccumDocHits := (List.range ids.length).map (fun i => ⟨ids.getD i 0, i⟩)

theorem mem_entries {ids : List Int} {e : AccumDocHits} : e ∈ entries ids ↔ ids[e.docIndex]? = some e.docID := by
  rw [entries, mem_map]
  constructor
  · rintro ⟨i, hi, rfl⟩
    rw [mem_range] at hi
    rw [getD_eq_getElem?_getD, getElem?_eq_getElem hi]
    rfl
  · intro h
    obtain ⟨hlt, he⟩ := List.getElem?_eq_some_iff.mp h
    refine ⟨e.docIndex, mem_range.mpr hlt, ?_⟩
    rw [getD_eq_getElem?_getD, h]
    rfl

theorem sorted_entries (ids : List Int) :
    ((entries ids).insertionSort AccumDocHits.le).Pairwise (fun a b => a.lesser b = true) := by
  have hle := pairwise_insertionSort AccumDocHits.le (entries ids)
  have hidx : (entries ids).Pairwise (fun a b => a.docIndex ≠ b.docIndex) := by
    rw [entries, pairwise_map]
    exact nodup_range
  have hidx' := hidx.perm (perm_insertionSort AccumDocHits.le (entries ids)).symm (fun h => h.symm)
  refine (hle.and hidx').imp (fun {a b} h => ?_)
  have hab := AccumDocHits.le_iff.mp h.1
  rw [AccumDocHits.lesser_iff]
  omega

/-- **The marks are the rows whose id comes again.** -/
theorem markReplaced_entries (ids : List Int) :
    markReplaced ((entries ids).insertionSort AccumDocHits.le) (List.replicate ids.length (some 0)) = lastMap ids := by
  have hmem : ∀ e, e ∈ (entries ids).insertionSort AccumDocHits.le ↔ ids[e.docIndex]? = some e.docID := by
    intro e
    rw [(perm_insertionSort AccumDocHits.le (entries ids)).mem_iff, mem_entries]
  refine ext_getElem? (fun k => ?_)
  by_cases hk : k < ids.length
  · have hrep : Replaced ((entries ids).insertionSort AccumDocHits.le) k ↔
        ∃ j, k < j ∧ j < ids.length ∧ ids[j]? = ids[k]? := by
      constructor
      · rintro ⟨e, he, f, hf, rfl, hid, hlt⟩
        rw [hmem] at he hf
        refine ⟨f.docIndex, hlt, (List.getElem?_eq_some_iff.mp hf).1, ?_⟩
        rw [he, hf, hid]
      · rintro ⟨j, hj, hlt, he⟩
        have hkk : ids[k]? = some ids[k] := getElem?_eq_getElem hk
        exact ⟨⟨ids[k], k⟩, (hmem _).mpr hkk, ⟨ids[k], j⟩, (hmem _).mpr (he.trans hkk), rfl, rfl, hj⟩
    obtain ⟨hyes, hno⟩ := lastMap_getElem? hk
    by_cases hr : ∃ j, k < j ∧ j < ids.length ∧ ids[j]? = ids[k]?
    · rw [hyes hr]
      exact markReplaced_of_replaced (sorted_entries ids) (by rw [length_replicate]; exact hk) (hrep.mpr hr)
    · rw [hno hr, markReplaced_of_not (sorted_entries ids) (fun h => hr (hrep.mp h))]
      exact getElem?_replicate_of_lt hk
  · rw [getElem?_eq_none (by rw [length_markReplaced, length_replicate]; exact not_lt.mp hk),
      getElem?_eq_none (by rw [length_lastMap]; exact not_lt.mp hk)]

theorem markReplaced_of_not_anyRepeated : ∀ {es : List AccumDocHits} {prev : Int} (m : RowMap), anyRepeated prev es = false →
    markReplaced es m = m
  | [], _, _, _ => rfl
  | [_], _, _, _ => rfl
  | a :: b :: es, prev, m, h => by
    rw [anyRepeated, Bool.or_eq_false_iff] at h
    have hab : ¬ a.docID = b.docID := by
      have := (Bool.or_eq_false_iff.mp h.2).1
      rw [decide_eq_false_iff_not] at this
      exact fun he => this he.symm
    rw [markReplaced, if_neg hab]
    exact markReplaced_of_not_anyRepeated m h.2

theorem keptBy_lastMap (s : Schema) : ∀ docs : List Document,
    keptBy (lastMap (docs.map (fun d => d.tDoc.getID s))) docs = lastOfEach s docs
  | [] => rfl
  | d :: docs => by
    have hany : docs.any (fun d' => d'.tDoc.getID s = d.tDoc.getID s) = true ↔
        d.tDoc.getID s ∈ docs.map (fun d => d.tDoc.getID s) := by
      rw [any_eq_true, mem_map]
      exact ⟨fun ⟨d', hd, he⟩ => ⟨d', hd, of_decide_eq_true he⟩, fun ⟨d', hd, he⟩ => ⟨d', hd, decide_eq_true he⟩⟩
    rw [map_cons, lastMap, lastOfEach]
    by_cases h : d.tDoc.getID s ∈ docs.map (fun d => d.tDoc.getID s)
    · rw [if_pos h, if_pos (hany.mpr h), keptBy, keptBy_lastMap s docs]
    · rw [if_neg h, if_neg (fun h' => h (hany.mp h')), keptBy, keptBy_lastMap s docs]

/-! ## The whole cleanup -/

section Cleanup

variable {pack : AttrType → List Nat → List UInt8} {s : Schema} {docs : List Document}

theorem Holds.docHits_eq {acc : RtAccum} (h : Holds pack s acc docs) :
    docHits s acc = entries (docs.map (fun d => d.tDoc.getID s)) := by
  rw [docHits, entries, h.accumDocs, length_map]
  refine map_congr_left (fun i hi => ?_)
  rw [mem_range] at hi
  have hlen : acc.rows.length = docs.length := h.rows.length_eq
  obtain ⟨pool, hrow⟩ := h.rows.get (by rw [hlen]; exact hi) hi
  have hcol : acc.columnar.getD i [] = (docs[i].store pack s pool).columnar := by
    rw [h.columnar, getD_eq_getElem?_getD, getElem?_map, getElem?_eq_getElem hi, Option.map_some,
      Option.getD_some]
    exact (sameStore_store pack docs[i] [] pool).columnar
  have hget : acc.rows.getD i [] = (docs[i].store pack s pool).row := by
    rw [getD_eq_getElem?_getD, getElem?_eq_getElem (by rw [hlen]; exact hi), Option.getD_some]
    exact hrow
  have hid : (docs.map (fun d => d.tDoc.getID s)).getD i 0 = docs[i].tDoc.getID s := by
    rw [getD_eq_getElem?_getD, getElem?_map, getElem?_eq_getElem hi]
    rfl
  rw [hget, hcol, hid, readDocID_store]

theorem replace_replaceAll (h : docs ≠ []) : (replaceAll pack s docs).replace = true := by
  obtain ⟨docs, d, rfl⟩ := eq_nil_or_concat' docs |>.resolve_left h
  rw [replaceAll, foldl_concat, insertDocument_eq]

theorem forall₂_keptBy {α β : Type} {R : α → β → Prop} : ∀ (m : RowMap) {l : List α} {l' : List β}, List.Forall₂ R l l' →
    List.Forall₂ R (keptBy m l) (keptBy m l')
  | [], _, _, _ => .nil
  | none :: _, _, _, .nil => .nil
  | some _ :: _, _, _, .nil => .nil
  | none :: m, _, _, .cons _ h => forall₂_keptBy m h
  | some _ :: m, _, _, .cons hx h => .cons hx (forall₂_keptBy m h)

theorem keptBy_zip_sublist {α β : Type} : ∀ (m : RowMap) (l : List α) (l' : List β),
    ((keptBy m l).zip (keptBy m l')).Sublist (l.zip l')
  | [], _, _ => nil_sublist _
  | m, [], l' => by
    rw [keptBy_nil, zip_nil_left]
    exact nil_sublist _
  | m, l, [] => by
    rw [keptBy_nil, zip_nil_right]
    exact nil_sublist _
  | none :: m, x :: l, y :: l' => (keptBy_zip_sublist m l l').cons _
  | some _ :: m, x :: l, y :: l' => (keptBy_zip_sublist m l l').cons_cons _

/-- The accumulator with the rows that a map keeps, as the loops leave it. -/
theorem Holds.compacted {acc : RtAccum} (h : Holds pack s acc docs) {m : RowMap} (hm : m.length = docs.length)
    (hne : keptBy m docs ≠ []) {hits : List WordHit × Nat} {r : Rows × Nat}
    (hhits : compactHits (numberRows 0 m) acc.accum.length 0 0 acc.accum = hits)
    (hr : compactRows (numberRows 0 m) 0 0 ⟨acc.rows, acc.perDocHitsCount, acc.docstore⟩ = r) : Holds pack s
      { acc with
        accum := hits.1.take hits.2
        columnar := removeColumnarDuplicates (numberRows 0 m) acc.columnar
        rows := r.1.rows.take r.2
        perDocHitsCount := r.1.perDocHitsCount.take r.2
        docstore := r.1.docstore.map (List.take r.2)
        accumDocs := r.2
        nextRowID := r.2 } (keptBy m docs) ∧
    r.1.rows.take r.2 = keptBy m acc.rows := by
  have hlen : (numberRows 0 m).length = docs.length := (length_numberRows 0 m).trans hm
  have hcount : (numberRows 0 m).countP Option.isSome = (keptBy m docs).length := by
    rw [← length_keptBy _ _ hlen, keptBy_numberRows]
  have hrows : (walk copyTo (numberRows 0 m) 0 0 acc.rows).take (keptBy m docs).length = keptBy m acc.rows := by
    rw [← hcount, take_walk (fun hw _ => hw.copyTo) (hlen.trans h.rows.length_eq.symm), keptBy_numberRows]
  rw [compactRows_eq, zero_add, hcount] at hr
  subst hr
  dsimp only
  refine ⟨⟨rfl, rfl, ?_, ?_, ?_, ?_, ?_⟩, hrows⟩
  · rw [hrows]
    exact forall₂_keptBy m h.rows
  · rw [removeColumnarDuplicates_eq (by rw [h.columnar, length_map]; exact hlen), keptBy_numberRows, h.columnar,
      keptBy_map]
  · have hspec := compactHits_spec (numberRows 0 m) acc.accum.length (Walked.start acc.accum) rfl
    rw [length_nil, hhits, nil_append] at hspec
    rw [hspec, h.accum]
    exact filterMap_hitsFrom m docs [] 0 hm
  · dsimp only
    rw [← hcount, take_walk (fun hw _ => hw.copyTo) (by rw [h.counts, length_map]; exact hlen), keptBy_numberRows,
      h.counts, keptBy_map]
  · have hdocs : docs ≠ [] := by
      intro hd
      rw [hd] at hne
      exact hne (keptBy_nil m)
    rw [h.docstore, Option.map_map]
    cases hst : s.hasStored with
    | false =>
      rfl
    | true =>
      rw [if_pos ⟨rfl, hdocs⟩, if_pos ⟨rfl, hne⟩, Option.map_some, Function.comp_apply, ← hcount,
        take_walk (fun hw hi => hw.swapTo hi) (by rw [length_map]; exact hlen), keptBy_numberRows, keptBy_map]

theorem lastOfEach_ne_nil : ∀ {docs : List Document}, docs ≠ [] → lastOfEach s docs ≠ []
  | [], h => absurd rfl h
  | d :: docs, _ => by
    rw [lastOfEach]
    split
    · rename_i hany
      refine lastOfEach_ne_nil (fun hd => ?_)
      rw [hd] at hany
      exact Bool.false_ne_true hany
    · exact cons_ne_nil _ _

theorem lastOfEach_of_length_le_one (h : docs.length ≤ 1) : lastOfEach s docs = docs := by
  cases docs with
  | nil => rfl
  | cons d docs =>
    have hnil : docs = [] := eq_nil_of_length_eq_zero (Nat.le_zero.mp (Nat.le_of_succ_le_succ h))
    rw [hnil]
    rfl

/-- The cleaned accumulator holds the last document of every id, each with the row it had. -/
theorem cleanup_spec (docs : List Document) :
    Holds pack s { cleanupDuplicates s (replaceAll pack s docs) with nextRowID := (lastOfEach s docs).length }
        (lastOfEach s docs) ∧
      ((cleanupDuplicates s (replaceAll pack s docs)).rows.zip (lastOfEach s docs)).Sublist
        ((replaceAll pack s docs).rows.zip docs) ∧
      (cleanupDuplicates s (replaceAll pack s docs)).blobs = (replaceAll pack s docs).blobs := by
  have h := @holds_replaceAll pack s docs
  have hsame : lastOfEach s docs = docs → cleanupDuplicates s (replaceAll pack s docs) = replaceAll pack s docs →
      Holds pack s { cleanupDuplicates s (replaceAll pack s docs) with nextRowID := (lastOfEach s docs).length }
          (lastOfEach s docs) ∧
        ((cleanupDuplicates s (replaceAll pack s docs)).rows.zip (lastOfEach s docs)).Sublist
          ((replaceAll pack s docs).rows.zip docs) ∧
        (cleanupDuplicates s (replaceAll pack s docs)).blobs = (replaceAll pack s docs).blobs := by
    intro hk hc
    rw [hk, hc]
    exact ⟨⟨h.accumDocs, rfl, h.rows, h.columnar, h.accum, h.counts, h.docstore⟩, .refl _, rfl⟩
  by_cases hone : (replaceAll pack s docs).accumDocs ≤ 1
  · refine hsame (lastOfEach_of_length_le_one (h.accumDocs ▸ hone)) ?_
    rw [cleanupDuplicates, if_pos hone]
  · have hids : (docs.map (fun d => d.tDoc.getID s)).length = (replaceAll pack s docs).accumDocs := by
      rw [length_map, h.accumDocs]
    have hmap := markReplaced_entries (docs.map (fun d => d.tDoc.getID s))
    rw [hids] at hmap
    have hlen : (lastMap (docs.map (fun d => d.tDoc.getID s))).length = docs.length := by
      rw [length_lastMap, length_map]
    by_cases hany : anyRepeated 0 ((docHits s (replaceAll pack s docs)).insertionSort AccumDocHits.le) = true
    · have hdocs : docs ≠ [] := by
        intro hd
        rw [h.accumDocs, hd] at hone
        exact hone (Nat.zero_le 1)
      have hne : keptBy (lastMap (docs.map (fun d => d.tDoc.getID s))) docs ≠ [] := by
        rw [keptBy_lastMap]
        exact lastOfEach_ne_nil hdocs
      have hc := h.compacted hlen hne rfl rfl
      rw [cleanupDuplicates, if_neg hone]
      dsimp only
      rw [hany, Bool.not_true, if_neg Bool.false_ne_true, replace_replaceAll hdocs, if_pos rfl, h.docHits_eq, hmap]
      rw [keptBy_lastMap] at hc
      refine ⟨⟨hc.1.accumDocs, rfl, hc.1.rows, hc.1.columnar, hc.1.accum, hc.1.counts, hc.1.docstore⟩, ?_, rfl⟩
      have hrows := hc.2
      rw [hrows, ← keptBy_lastMap]
      exact keptBy_zip_sublist _ _ _
    · rw [Bool.not_eq_true] at hany
      refine hsame ?_ ?_
      · have hrep := hany
        rw [h.docHits_eq] at hrep
        rw [markReplaced_of_not_anyRepeated _ hrep] at hmap
        rw [← keptBy_lastMap, ← hmap]
        refine keptBy_all (fun x hx => ?_) (by rw [length_replicate, h.accumDocs])
        rw [(mem_replicate.mp hx).2]
        rfl
      · rw [cleanupDuplicates, if_neg hone]
        dsimp only
        rw [hany, Bool.not_false, if_pos rfl]

/-- Rows of the same documents differ at most in the locator of their blobs. -/
theorem forall₂_sameRow {rows₁ rows₂ : List (List Nat)}
    (h₁ : List.Forall₂ (fun row (d : Document) => ∃ pool, row = (d.store pack s pool).row) rows₁ docs)
    (h₂ : List.Forall₂ (fun row (d : Document) => ∃ pool, row = (d.store pack s pool).row) rows₂ docs) :
    List.Forall₂ (SameRow s) rows₁ rows₂ := by
  induction h₁ generalizing rows₂ with
  | nil =>
    cases h₂
    exact .nil
  | cons h _ ih =>
    cases h₂ with
    | cons h' htail =>
      obtain ⟨pool₁, rfl⟩ := h
      obtain ⟨pool₂, rfl⟩ := h'
      exact .cons (sameStore_store pack _ pool₁ pool₂).row (ih htail)

/-- **After the cleanup everything is as if only the last document of every id had been added**, except that each row keeps
the offset of its blobs, and the pool is kept whole. -/
theorem cleanupDuplicates_exact (pack : AttrType → List Nat → List UInt8) (s : Schema) (docs : List Document) :
    let acc := replaceAll pack s docs
    let cleaned := cleanupDuplicates s acc
    let only := replaceAll pack s (lastOfEach s docs)
    List.Forall₂ (SameRow s) cleaned.rows only.rows ∧
    (cleaned.rows.zip (lastOfEach s docs)).Sublist (acc.rows.zip docs) ∧ cleaned.blobs = acc.blobs ∧
    cleaned.perDocHitsCount = only.perDocHitsCount ∧ cleaned.docstore = only.docstore ∧ cleaned.accum = only.accum ∧
    cleaned.columnar = only.columnar ∧ cleaned.accumDocs = only.accumDocs := by
  obtain ⟨hclean, hzip, hblobs⟩ := @cleanup_spec pack s docs
  have honly := @holds_replaceAll pack s (lastOfEach s docs)
  refine ⟨forall₂_sameRow hclean.rows honly.rows, hzip, hblobs, ?_, ?_, ?_, ?_, ?_⟩
  · exact hclean.counts.trans honly.counts.symm
  · exact hclean.docstore.trans honly.docstore.symm
  · exact hclean.accum.trans honly.accum.symm
  · exact hclean.columnar.trans honly.columnar.symm
  · exact hclean.accumDocs.trans honly.accumDocs.symm

end Cleanup

/-- An id, a string attribute and the locator of the blobs. -/
def titleSchema : Schema where
  docid := ⟨.other, false, false, 0⟩
  attrs := [⟨.other, false, false, 2⟩, ⟨.string, false, false, 4⟩]
  blobLocator := some 2
  indexFieldLens := false
  hasStored := false
  storedText := fun _ => false
  docid_other := rfl
  after_docid := fun _ => ⟨fun l hl => by cases hl; decide, by decide⟩

def titled (title : List UInt8) : Document := ⟨⟨[7, 0, 0, 0], [title], [], []⟩, [], []⟩

/-- The row that stays leads past the blobs of the document that was replaced. -/
theorem cleanup_keeps_offset : ¬ ∀ (pack : AttrType → List Nat → List UInt8) (s : Schema) (docs : List Document),
    (cleanupDuplicates s (replaceAll pack s docs)).rows = (replaceAll pack s (lastOfEach s docs)).rows := by
  intro h
  have hrows := h (fun _ _ => []) titleSchema [titled [97], titled [98]]
  exact absurd hrows (by decide)

end Accum
end Manticore

import Manticore.BlobRow
import Manticore.Hitpos
import Manticore.ExtNode
/-!
# AccumDoc — documents of a transaction (`RtAccum_t::AddDocument`)

Every document adds a row, a row of columnar values, a count of hits, its hits and, if the schema stores anything, a stored
document.  The row holds an offset into the pool of blobs; the hits hold the row's number.
-/
namespace Manticore
namespace Accum

open ExtNode (RowID)
open BlobRow (flushMem rowBytes)
open List

/-- `ESphAttr`, as far as `AddDocument` tells the types apart. -/
inductive AttrType where
  | string | json | uint32Set | int64Set | floatVector | floatVectorArray | tokenCount | other
deriving DecidableEq, Repr

/-- `CSphColumnInfo`; `locator` is the DWORD of the row at which a plain attribute starts. -/
structure ColumnInfo where
  attrType : AttrType
  columnar : Bool
  stored : Bool
  locator : Nat
deriving Repr

/-- The first attribute is the document id, a plain 64-bit number, at the start of the row unless it is columnar. -/
structure Schema where
  docid : ColumnInfo
  attrs : List ColumnInfo
  /-- the locator of `sphGetBlobLocatorName()`, if there are blob attributes -/
  blobLocator : Option Nat
  indexFieldLens : Bool
  /-- `HasStoredFields() || HasStoredAttrs()` -/
  hasStored : Bool
  /-- the docstore's text fields -/
  storedText : Nat → Bool
  docid_other : docid.attrType = .other
  after_docid : docid.columnar = false → (∀ l ∈ blobLocator, 2 ≤ l) ∧
    ∀ c ∈ attrs, c.attrType = .tokenCount → c.columnar = false → 2 ≤ c.locator

namespace Schema

def all (s : Schema) : List ColumnInfo := s.docid :: s.attrs

def numColumnar (s : Schema) : Nat := s.all.countP ColumnInfo.columnar

def numStored (s : Schema) : Nat := s.all.countP ColumnInfo.stored

def numFieldLens (s : Schema) : Nat := s.all.countP (fun c => c.attrType = .tokenCount)

end Schema

/-- A value of a columnar attribute. -/
inductive ColumnarValue where
  | number (v : Nat)
  | bytes (b : List UInt8)
  | mva (vs : List Nat)
deriving DecidableEq, Repr

/-- `InsertDocData_c` -/
structure InsertDocData where
  dynamic : List Nat
  strings : List (List UInt8)
  mvas : List (List Nat)
  columnarAttrs : List Nat
deriving Repr

structure WordHit where
  rowID : RowID
  wordID : Nat
  wordPos : Nat
deriving DecidableEq, Repr

/-- `RtAccum_t` -/
structure RtAccum where
  replace : Bool := false
  rows : List (List Nat) := []
  blobs : List UInt8 := []
  columnar : List (List ColumnarValue) := []
  accum : List WordHit := []
  perDocHitsCount : List Nat := []
  docstore : Option (List (List (List UInt8))) := none
  accumDocs : Nat := 0
  nextRowID : RowID := 0
deriving Repr

/-! ## Attributes -/

/-- `sphSetRowAttr` for one DWORD. -/
def setRow32 (row : List Nat) (l v : Nat) : List Nat := row.set l (v % 2 ^ 32)

/-- `sphSetRowAttr` for two DWORDs. -/
def setRow64 (row : List Nat) (l v : Nat) : List Nat := (row.set l (v % 2 ^ 32)).set (l + 1) (v / 2 ^ 32 % 2 ^ 32)

/-- The counters of the attribute loop, what the blob writer has been given, and the new row of the columnar builder. -/
structure AttrLoop where
  iStr : Nat := 0
  iMva : Nat := 0
  iColumnar : Nat := 0
  blobs : List (List UInt8) := []
  columnar : List ColumnarValue
deriving Repr

/-- A value goes to the columnar builder or, packed, to the blob writer. -/
def AttrLoop.setAttr (st : AttrLoop) (c : ColumnInfo) (v : ColumnarValue) (packed : List UInt8) : AttrLoop :=
  if c.columnar then { st with columnar := st.columnar.set st.iColumnar v } else { st with blobs := st.blobs ++ [packed] }

section

-- `pack` is how the blob writer packs the values of a multi-value attribute (`AttributePacker_c` and its kin).
variable (pack : AttrType → List Nat → List UInt8)

def AttrLoop.step (tDoc : InsertDocData) (st : AttrLoop) (c : ColumnInfo) : AttrLoop :=
  let st :=
    match c.attrType with
    | .string | .json =>
      let dStr := tDoc.strings.getD st.iStr []
      { st with iStr := st.iStr + 1 }.setAttr c (.bytes dStr) dStr
    | .uint32Set | .int64Set | .floatVector | .floatVectorArray =>
      let mva := tDoc.mvas.getD st.iMva []
      { st with iMva := st.iMva + 1 }.setAttr c (.mva mva) (pack c.attrType mva)
    | .tokenCount => st
    | .other => if c.columnar then st.setAttr c (.number (tDoc.columnarAttrs.getD st.iColumnar 0)) [] else st
  if c.columnar then { st with iColumnar := st.iColumnar + 1 } else st

def attrLoop (s : Schema) (tDoc : InsertDocData) : AttrLoop :=
  s.all.foldl (AttrLoop.step pack tDoc) { columnar := List.replicate s.numColumnar (.number 0) }

/-- The row with the offset of the blobs that are flushed for it, and the pool. -/
def flushBlobs (s : Schema) (pool : List UInt8) (row : List Nat) (attrs : List (List UInt8)) : List Nat × List UInt8 :=
  match s.blobLocator with
  | some l =>
    let r := flushMem pool attrs
    (setRow64 row l (r.2.1 % 2 ^ 64).toNat, r.1)
  | none => (row, pool)

/-! ## Hits -/

/-- The elements that are not equal to the last one taken, each with what follows it. -/
def distinct {α : Type} [DecidableEq α] : Option α → List α → List (α × Option α)
  | _, [] => []
  | last, h :: rest => if last = some h then distinct last rest else (h, rest.head?) :: distinct (some h) rest

/-- `ResetTailHit` -/
def resetTailHit (h next : WordHit) : WordHit :=
  if h.rowID ≠ next.rowID ∨ h.wordID ≠ next.wordID then h
  else if Hitman.getField h.wordPos = Hitman.getField next.wordPos ∧ Hitman.isEnd next.wordPos then
    { h with wordPos := Hitman.getPosWithField h.wordPos }
  else h

/-- The field end is reset unless it is at the very last hit. -/
def accumHit (p : WordHit × Option WordHit) : WordHit :=
  match p.2 with
  | some next => if Hitman.isEnd p.1.wordPos then resetTailHit p.1 next else p.1
  | none => p.1

/-- `pFieldLengths`, `uFieldLastHit`, `uFieldLastCount` -/
structure LenLoop where
  lens : List Nat
  lastHit : Nat
  lastCount : Nat
deriving Repr

def LenLoop.add (st : LenLoop) : List Nat := st.lens.modify (Hitman.getField st.lastHit) (· + st.lastCount)

def LenLoop.step (st : LenLoop) (wordPos : Nat) : LenLoop :=
  let st := if Hitman.getField st.lastHit ≠ Hitman.getField wordPos then ⟨st.add, wordPos, 1⟩ else st
  -- skip blended part, lemmas and duplicates
  if Hitman.getPos wordPos > Hitman.getPos st.lastHit then { st with lastHit := wordPos, lastCount := st.lastCount + 1 }
  else st

/-- The lengths of the fields; `positions` are those of the hits that are not ignored. -/
def fieldLengths (n : Nat) (positions : List Nat) : List Nat :=
  match positions with
  | [] => List.replicate n 0
  | p :: ps => ((p :: ps).foldl LenLoop.step ⟨List.replicate n 0, p, 1⟩).add

/-! ## The stored document -/

/-- What `StoreFieldLengths` writes to. -/
structure StoreLoop where
  iColumnar : Nat := 0
  iStored : Nat := 0
  iLen : Nat := 0
  row : List Nat
  columnar : List ColumnarValue
  storedDoc : Option (List (List UInt8))
deriving Repr

def StoreLoop.step (s : Schema) (lens : List Nat) (st : StoreLoop) (c : ColumnInfo) : StoreLoop :=
  let st :=
    if c.attrType = .tokenCount then
      let uData := lens.getD st.iLen 0
      let st := { st with iLen := st.iLen + 1 }
      let st :=
        if c.columnar then { st with columnar := st.columnar.set st.iColumnar (.number uData) }
        else { st with row := setRow32 st.row c.locator uData }
      if c.stored then
        -- we assume that stored attrs come last in the schema
        { st with storedDoc := st.storedDoc.map (fun d => d.set (d.length - s.numStored + st.iStored) (putLE 4 uData)) }
      else st
    else st
  { st with iColumnar := if c.columnar then st.iColumnar + 1 else st.iColumnar,
            iStored := if c.stored then st.iStored + 1 else st.iStored }

def storeFieldLengths (s : Schema) (lens : List Nat) (row : List Nat) (columnar : List ColumnarValue)
    (pStoredDoc : Option (List (List UInt8))) : StoreLoop :=
  s.all.foldl (StoreLoop.step s lens) { row := row, columnar := columnar, storedDoc := pStoredDoc }

/-- `DocstoreRT_c::AddDoc`: the trailing zero of a text field is removed. -/
def packDoc (s : Schema) (fields : List (List UInt8)) : List (List UInt8) :=
  fields.mapIdx (fun i f => if s.storedText i ∧ f.getLast? = some 0 then f.dropLast else f)

/-! ## `AddDocument` -/

/-- `RtAccum_t::AddDocument` -/
def addDocument (s : Schema) (pHits : List WordHit) (tDoc : InsertDocData) (bReplace : Bool)
    (pStoredDoc : Option (List (List UInt8))) (acc : RtAccum) : RtAccum :=
  let attrs := attrLoop pack s tDoc
  let flushed := flushBlobs s acc.blobs tDoc.dynamic attrs.blobs
  let hits := distinct none pHits
  let lens := if s.indexFieldLens then fieldLengths s.numFieldLens (hits.map (·.1.wordPos)) else []
  let stored := storeFieldLengths s lens flushed.1 attrs.columnar pStoredDoc
  { replace := bReplace
    rows := acc.rows ++ [stored.row]
    blobs := flushed.2
    columnar := acc.columnar ++ [stored.columnar]
    accum := acc.accum ++ hits.map accumHit
    perDocHitsCount := acc.perDocHitsCount ++ [hits.length]
    docstore :=
      match stored.storedDoc with
      | some d => some (acc.docstore.getD [] ++ [packDoc s d])
      | none => acc.docstore
    accumDocs := acc.accumDocs + 1
    nextRowID := acc.nextRowID }

/-- A document as it is inserted: its attributes, the words and positions of its hits, and the fields to store. -/
structure Document where
  tDoc : InsertDocData
  words : List (Nat × Nat)
  fields : List (List UInt8)
deriving Repr

def hitOf (row : RowID) (w : Nat × Nat) : WordHit := ⟨row, w.1, w.2⟩

/-- `RtIndex_c::AddDocument`: the row id is generated, and the hits carry it. -/
def insertDocument (s : Schema) (bReplace : Bool) (acc : RtAccum) (d : Document) : RtAccum :=
  let row := acc.nextRowID
  addDocument pack s (d.words.map (hitOf row)) d.tDoc bReplace (if s.hasStored then some d.fields else none)
    { acc with nextRowID := row + 1 }

/-- A transaction of REPLACE statements. -/
def replaceAll (s : Schema) (docs : List Document) : RtAccum := docs.foldl (insertDocument pack s true) {}

end

/-! ## Document ids -/

def toInt64 (v : Nat) : Int := if v % 2 ^ 64 < 2 ^ 63 then (v % 2 ^ 64 : Nat) else (v % 2 ^ 64 : Nat) - 2 ^ 64

/-- `sphGetDocID`: the first two DWORDs of the row. -/
def getDocID (row : List Nat) : Int := toInt64 (row.getD 0 0 + 2 ^ 32 * row.getD 1 0)

/-- The value that the columnar iterator over the id gives. -/
def columnarDocID (vals : List ColumnarValue) : Int :=
  match vals.head? with
  | some (.number v) => toInt64 v
  | _ => 0

/-- `InsertDocData_c::GetID` -/
def InsertDocData.getID (s : Schema) (tDoc : InsertDocData) : Int :=
  if s.docid.columnar then toInt64 (tDoc.columnarAttrs.getD 0 0) else getDocID tDoc.dynamic

/-! ## What a document adds does not depend on what is there -/

theorem distinct_map {α β : Type} [DecidableEq α] [DecidableEq β] {f : α → β} (hf : Function.Injective f) :
    ∀ (last : Option α) (l : List α), distinct (last.map f) (l.map f) = (distinct last l).map (fun p => (f p.1, p.2.map f))
  | _, [] => rfl
  | last, h :: rest => by
    have hsame : last.map f = some (f h) ↔ last = some h := by
      rw [← Option.map_some, (Option.map_injective hf).eq_iff]
    rw [map_cons, distinct, distinct]
    by_cases hl : last = some h
    · rw [if_pos hl, if_pos (hsame.mpr hl), distinct_map hf]
    · rw [if_neg hl, if_neg (fun h' => hl (hsame.mp h')), map_cons, head?_map, ← distinct_map hf]
      rfl

theorem hitOf_injective (row : RowID) : Function.Injective (hitOf row) := by
  rintro ⟨w, p⟩ ⟨w', p'⟩ h
  obtain ⟨-, hw, hp⟩ := WordHit.mk.inj h
  exact Prod.ext hw hp

/-- The word and position of a hit that is taken. -/
def accumWord (p : (Nat × Nat) × Option (Nat × Nat)) : Nat × Nat :=
  let h := accumHit (hitOf 0 p.1, p.2.map (hitOf 0))
  (h.wordID, h.wordPos)

theorem resetTailHit_hitOf (row : RowID) (w next : Nat × Nat) :
    resetTailHit (hitOf row w) (hitOf row next) =
      ⟨row, (resetTailHit (hitOf 0 w) (hitOf 0 next)).wordID, (resetTailHit (hitOf 0 w) (hitOf 0 next)).wordPos⟩ := by
  simp only [resetTailHit, hitOf, ne_eq, not_true_eq_false, false_or]
  by_cases hword : w.1 = next.1
  · by_cases hend : Hitman.getField w.2 = Hitman.getField next.2 ∧ Hitman.isEnd next.2 = true
    · simp only [hword, not_true_eq_false, if_false, if_pos hend]
    · simp only [hword, not_true_eq_false, if_false, if_neg hend]
  · simp only [hword, not_false_eq_true, if_true]

theorem accumHit_hitOf (row : RowID) (p : (Nat × Nat) × Option (Nat × Nat)) :
    accumHit (hitOf row p.1, p.2.map (hitOf row)) = hitOf row (accumWord p) := by
  obtain ⟨w, next⟩ := p
  cases next with
  | none => rfl
  | some next =>
    change (if Hitman.isEnd w.2 then resetTailHit (hitOf row w) (hitOf row next) else hitOf row w) =
      ⟨row, (if Hitman.isEnd w.2 then resetTailHit (hitOf 0 w) (hitOf 0 next) else hitOf 0 w).wordID,
        (if Hitman.isEnd w.2 then resetTailHit (hitOf 0 w) (hitOf 0 next) else hitOf 0 w).wordPos⟩
    cases Hitman.isEnd w.2 with
    | true => exact resetTailHit_hitOf row w next
    | false => rfl

namespace Document

/-- The words and positions of the hits that a document adds. -/
def accumWords (d : Document) : List (Nat × Nat) := (distinct none d.words).map accumWord

theorem map_accumHit (d : Document) (row : RowID) :
    (distinct none (d.words.map (hitOf row))).map accumHit = d.accumWords.map (hitOf row) := by
  have h := distinct_map (hitOf_injective row) none d.words
  rw [Option.map_none] at h
  rw [h, accumWords, map_map, map_map]
  exact map_congr_left (fun p _ => accumHit_hitOf row p)

/-- The lengths of the fields of a document. -/
def lens (s : Schema) (d : Document) : List Nat :=
  if s.indexFieldLens then fieldLengths s.numFieldLens ((distinct none d.words).map (fun p => p.1.2)) else []

theorem map_wordPos (d : Document) (row : RowID) :
    (distinct none (d.words.map (hitOf row))).map (fun p => p.1.wordPos) = (distinct none d.words).map (fun p => p.1.2) := by
  have h := distinct_map (hitOf_injective row) none d.words
  rw [Option.map_none] at h
  rw [h, map_map]
  rfl

section

variable (pack : AttrType → List Nat → List UInt8) (s : Schema)

def blobs (d : Document) : List (List UInt8) := (attrLoop pack s d.tDoc).blobs

/-- What is stored for a document when its blobs start at an offset of the pool. -/
def store (d : Document) (pool : List UInt8) : StoreLoop :=
  storeFieldLengths s (d.lens s) (flushBlobs s pool d.tDoc.dynamic (d.blobs pack s)).1 (attrLoop pack s d.tDoc).columnar
    (if s.hasStored then some d.fields else none)

end

end Document

/-- The docstore after one more document. -/
def addStored (s : Schema) (docstore : Option (List (List (List UInt8)))) (d : Option (List (List UInt8))) :
    Option (List (List (List UInt8))) :=
  match d with
  | some d => some (docstore.getD [] ++ [packDoc s d])
  | none => docstore

theorem insertDocument_eq (pack : AttrType → List Nat → List UInt8) (s : Schema) (acc : RtAccum) (d : Document) :
    insertDocument pack s true acc d =
      { replace := true
        rows := acc.rows ++ [(d.store pack s acc.blobs).row]
        blobs := (flushBlobs s acc.blobs d.tDoc.dynamic (d.blobs pack s)).2
        columnar := acc.columnar ++ [(d.store pack s acc.blobs).columnar]
        accum := acc.accum ++ d.accumWords.map (hitOf acc.nextRowID)
        perDocHitsCount := acc.perDocHitsCount ++ [d.accumWords.length]
        docstore := addStored s acc.docstore (d.store pack s acc.blobs).storedDoc
        accumDocs := acc.accumDocs + 1
        nextRowID := acc.nextRowID + 1 } := by
  have hlen : (distinct none (d.words.map (hitOf acc.nextRowID))).length = d.accumWords.length := by
    rw [← length_map (f := accumHit), d.map_accumHit, length_map]
  rw [insertDocument, addDocument]
  simp only [d.map_accumHit, d.map_wordPos, hlen]
  rfl

/-! ## The row, up to the offset of its blobs -/

section Store

variable {s : Schema} {lens : List Nat}

/-- Two rows that differ at most in the locator of their blobs. -/
def SameRow (s : Schema) (r₁ r₂ : List Nat) : Prop :=
  r₁.length = r₂.length ∧ ∀ k, (∀ l ∈ s.blobLocator, k ≠ l ∧ k ≠ l + 1) → r₁[k]? = r₂[k]?

theorem SameRow.set {r₁ r₂ : List Nat} (h : SameRow s r₁ r₂) (i v : Nat) : SameRow s (r₁.set i v) (r₂.set i v) := by
  refine ⟨by rw [length_set, length_set, h.1], fun k hk => ?_⟩
  rw [getElem?_set, getElem?_set, h.1, h.2 k hk]

theorem sameRow_flush (s : Schema) (pool₁ pool₂ : List UInt8) (row : List Nat) (attrs : List (List UInt8)) :
    SameRow s (flushBlobs s pool₁ row attrs).1 (flushBlobs s pool₂ row attrs).1 := by
  cases hl : s.blobLocator with
  | none =>
    simp only [flushBlobs, hl]
    exact ⟨rfl, fun k _ => rfl⟩
  | some l =>
    simp only [flushBlobs, hl, setRow64]
    refine ⟨by simp only [length_set], fun k hk => ?_⟩
    obtain ⟨hk₁, hk₂⟩ := hk l hl
    rw [getElem?_set_ne hk₂.symm, getElem?_set_ne hk₁.symm, getElem?_set_ne hk₂.symm,
      getElem?_set_ne hk₁.symm]

namespace StoreLoop

variable (st : StoreLoop) (c : ColumnInfo)

/-- What a turn does to every part of the state. -/
theorem step_eq : st.step s lens c =
    { iColumnar := if c.columnar = true then st.iColumnar + 1 else st.iColumnar
      iStored := if c.stored = true then st.iStored + 1 else st.iStored
      iLen := if c.attrType = .tokenCount then st.iLen + 1 else st.iLen
      row := if c.attrType = .tokenCount ∧ c.columnar = false then setRow32 st.row c.locator (lens.getD st.iLen 0) else st.row
      columnar := if c.attrType = .tokenCount ∧ c.columnar = true then
        st.columnar.set st.iColumnar (.number (lens.getD st.iLen 0)) else st.columnar
      storedDoc := if c.attrType = .tokenCount ∧ c.stored = true then
        st.storedDoc.map (fun d => d.set (d.length - s.numStored + st.iStored) (putLE 4 (lens.getD st.iLen 0)))
        else st.storedDoc } := by
  unfold step
  by_cases ht : c.attrType = .tokenCount <;> cases hc : c.columnar <;> cases hs : c.stored <;> simp [ht]

end StoreLoop

/-- Two runs of `StoreFieldLengths` that differ at most in the locator. -/
structure SameStore (s : Schema) (a b : StoreLoop) : Prop where
  iColumnar : a.iColumnar = b.iColumnar
  iStored : a.iStored = b.iStored
  iLen : a.iLen = b.iLen
  row : SameRow s a.row b.row
  columnar : a.columnar = b.columnar
  storedDoc : a.storedDoc = b.storedDoc

theorem SameStore.step {a b : StoreLoop} (h : SameStore s a b) (c : ColumnInfo) :
    SameStore s (a.step s lens c) (b.step s lens c) := by
  rw [StoreLoop.step_eq, StoreLoop.step_eq, h.iColumnar, h.iStored, h.iLen, h.columnar, h.storedDoc]
  refine ⟨rfl, rfl, rfl, ?_, rfl, rfl⟩
  dsimp only
  split
  · exact h.row.set _ _
  · exact h.row

theorem SameStore.foldl : ∀ (cs : List ColumnInfo) {a b : StoreLoop}, SameStore s a b →
    SameStore s (cs.foldl (StoreLoop.step s lens) a) (cs.foldl (StoreLoop.step s lens) b)
  | [], _, _, h => h
  | c :: cs, _, _, h => SameStore.foldl cs (h.step c)

variable (pack : AttrType → List Nat → List UInt8)

/-- **Only the locator depends on the pool.** -/
theorem sameStore_store (d : Document) (pool₁ pool₂ : List UInt8) :
    SameStore s (d.store pack s pool₁) (d.store pack s pool₂) :=
  SameStore.foldl _ ⟨rfl, rfl, rfl, sameRow_flush s pool₁ pool₂ _ _, rfl, rfl⟩

/-! ## The document id is read back -/

theorem foldl_keeps {σ : Type} {step : σ → ColumnInfo → σ} {P : σ → Prop} :
    ∀ (cs : List ColumnInfo) {st : σ}, (∀ c ∈ cs, ∀ st, P st → P (step st c)) → P st → P (cs.foldl step st)
  | [], _, _, h => h
  | c :: cs, st, hstep, h =>
    foldl_keeps cs (fun c' hc' => hstep c' (mem_cons_of_mem _ hc')) (hstep c mem_cons_self st h)

theorem getDocID_congr {r₁ r₂ : List Nat} (h₀ : r₁[0]? = r₂[0]?) (h₁ : r₁[1]? = r₂[1]?) : getDocID r₁ = getDocID r₂ := by
  rw [getDocID, getDocID, getD_eq_getElem?_getD, getD_eq_getElem?_getD, getD_eq_getElem?_getD,
    getD_eq_getElem?_getD, h₀, h₁]

theorem getElem?_flush (hid : s.docid.columnar = false) (pool : List UInt8) (row : List Nat) (attrs : List (List UInt8))
    {k : Nat} (hk : k < 2) : (flushBlobs s pool row attrs).1[k]? = row[k]? := by
  cases hl : s.blobLocator with
  | none => simp only [flushBlobs, hl]
  | some l =>
    have h2 : 2 ≤ l := (s.after_docid hid).1 l hl
    simp only [flushBlobs, hl, setRow64]
    rw [getElem?_set_ne (by omega), getElem?_set_ne (by omega)]

theorem getElem?_store (hid : s.docid.columnar = false) (d : Document)
    (pool : List UInt8) {k : Nat} (hk : k < 2) : (d.store pack s pool).row[k]? = d.tDoc.dynamic[k]? := by
  refine foldl_keeps (P := fun st : StoreLoop => st.row[k]? = d.tDoc.dynamic[k]?) s.all (fun c hc st h => ?_)
    (getElem?_flush hid pool _ _ hk)
  simp only [StoreLoop.step_eq]
  split
  · rename_i ht
    have hc' : c ∈ s.attrs := by
      rcases mem_cons.mp hc with rfl | hc
      · rw [s.docid_other] at ht
        cases ht.1
      · exact hc
    have h2 : 2 ≤ c.locator := (s.after_docid hid).2 c hc' ht.1 ht.2
    rw [setRow32, getElem?_set_ne (by omega)]
    exact h
  · exact h

/-- The first columnar value is set, and the loop is past it. -/
def FirstSet (v : ColumnarValue) (vals : List ColumnarValue) (i : Nat) : Prop := vals.head? = some v ∧ 0 < i

theorem FirstSet.set {v : ColumnarValue} {vals : List ColumnarValue} {i : Nat} (h : FirstSet v vals i) (w : ColumnarValue) :
    FirstSet v (vals.set i w) i := by
  obtain ⟨hv, hi⟩ := h
  refine ⟨?_, hi⟩
  rw [head?_eq_getElem?, getElem?_set_ne (Nat.ne_of_gt hi), ← head?_eq_getElem?]
  exact hv

theorem FirstSet.mono {v : ColumnarValue} {vals : List ColumnarValue} {i j : Nat} (h : FirstSet v vals i) (hij : i ≤ j) :
    FirstSet v vals j := ⟨h.1, lt_of_lt_of_le h.2 hij⟩

namespace AttrLoop

section
variable (st : AttrLoop) (c : ColumnInfo) (v : ColumnarValue) (packed : List UInt8)
include st c v packed

theorem setAttr_columnar :
    (st.setAttr c v packed).columnar = st.columnar ∨ (st.setAttr c v packed).columnar = st.columnar.set st.iColumnar v := by
  rw [setAttr]
  split
  · exact .inr rfl
  · exact .inl rfl

theorem setAttr_iColumnar :
    (st.setAttr c v packed).iColumnar = st.iColumnar := by
  rw [setAttr]
  split
  · rfl
  · rfl

end

variable (tDoc : InsertDocData)

theorem firstSet_step {v : ColumnarValue} {st : AttrLoop} (h : FirstSet v st.columnar st.iColumnar) (c : ColumnInfo) :
    FirstSet v (st.step pack tDoc c).columnar (st.step pack tDoc c).iColumnar := by
  have hset : ∀ (st' : AttrLoop) (w : ColumnarValue) (packed : List UInt8), st'.columnar = st.columnar →
      st'.iColumnar = st.iColumnar →
      FirstSet v (st'.setAttr c w packed).columnar (st'.setAttr c w packed).iColumnar := by
    intro st' w packed hcol hi
    rw [setAttr_iColumnar, hi]
    rcases setAttr_columnar st' c w packed with he | he
    · rw [he, hcol]
      exact h
    · rw [he, hcol, hi]
      exact h.set w
  have hend : ∀ st' : AttrLoop, FirstSet v st'.columnar st'.iColumnar →
      FirstSet v (if c.columnar then { st' with iColumnar := st'.iColumnar + 1 } else st').columnar
        (if c.columnar then { st' with iColumnar := st'.iColumnar + 1 } else st').iColumnar := by
    intro st' h'
    split
    · exact h'.mono (Nat.le_succ _)
    · exact h'
  refine hend _ ?_
  cases c.attrType with
  | string => exact hset _ _ _ rfl rfl
  | json => exact hset _ _ _ rfl rfl
  | uint32Set => exact hset _ _ _ rfl rfl
  | int64Set => exact hset _ _ _ rfl rfl
  | floatVector => exact hset _ _ _ rfl rfl
  | floatVectorArray => exact hset _ _ _ rfl rfl
  | tokenCount => exact h
  | other =>
    dsimp only
    split
    · exact hset _ _ _ rfl rfl
    · exact h

end AttrLoop

theorem firstSet_attrLoop (hid : s.docid.columnar = true) (tDoc : InsertDocData) :
    (attrLoop pack s tDoc).columnar.head? = some (.number (tDoc.columnarAttrs.getD 0 0)) := by
  have hnum : ∃ n, s.numColumnar = n + 1 := by
    refine ⟨s.attrs.countP ColumnInfo.columnar, ?_⟩
    rw [Schema.numColumnar, Schema.all, countP_cons_of_pos hid]
  obtain ⟨n, hn⟩ := hnum
  have hfirst : FirstSet (.number (tDoc.columnarAttrs.getD 0 0))
      (AttrLoop.step pack tDoc { columnar := List.replicate s.numColumnar (.number 0) } s.docid).columnar
      (AttrLoop.step pack tDoc { columnar := List.replicate s.numColumnar (.number 0) } s.docid).iColumnar := by
    simp only [AttrLoop.step, s.docid_other, hid, if_true, AttrLoop.setAttr, hn, replicate_succ, set_cons_zero]
    exact ⟨rfl, Nat.zero_lt_one⟩
  exact (foldl_keeps (P := fun st : AttrLoop => FirstSet _ st.columnar st.iColumnar) s.attrs
    (fun c _ st h => AttrLoop.firstSet_step pack tDoc h c) hfirst).1

theorem columnar_head_store (hid : s.docid.columnar = true) (d : Document)
    (pool : List UInt8) : (d.store pack s pool).columnar.head? = some (.number (d.tDoc.columnarAttrs.getD 0 0)) := by
  refine (foldl_keeps (P := fun st : StoreLoop => FirstSet _ st.columnar st.iColumnar) s.attrs (fun c _ st h => ?_) ?_).1
  · simp only [StoreLoop.step_eq]
    have hle : st.iColumnar ≤ if c.columnar = true then st.iColumnar + 1 else st.iColumnar := by
      split
      · exact Nat.le_succ _
      · exact le_refl _
    split
    · exact (h.set _).mono hle
    · exact h.mono hle
  · simp only [StoreLoop.step_eq]
    rw [if_neg (by rw [s.docid_other]; rintro ⟨h, -⟩; cases h), if_pos hid]
    exact ⟨firstSet_attrLoop pack hid d.tDoc, Nat.succ_pos _⟩

/-- The id that is read from the row or from the columns. -/
def readDocID (s : Schema) (row : List Nat) (vals : List ColumnarValue) : Int :=
  if s.docid.columnar then columnarDocID vals else getDocID row

/-- **The accumulated document has the id it was inserted with.** -/
theorem readDocID_store (d : Document) (pool : List UInt8) :
    readDocID s (d.store pack s pool).row (d.store pack s pool).columnar = d.tDoc.getID s := by
  rw [readDocID, InsertDocData.getID]
  cases hid : s.docid.columnar with
  | true =>
    rw [if_pos rfl, if_pos rfl, columnarDocID, columnar_head_store pack hid]
  | false =>
    exact getDocID_congr (getElem?_store pack hid d pool (by decide)) (getElem?_store pack hid d pool (by decide))

theorem isSome_storedDoc (d : Document) (pool : List UInt8) :
    (d.store pack s pool).storedDoc.isSome = s.hasStored := by
  refine foldl_keeps (P := fun st : StoreLoop => st.storedDoc.isSome = s.hasStored) s.all (fun c _ st h => ?_) ?_
  · simp only [StoreLoop.step_eq]
    split
    · rw [Option.isSome_map]
      exact h
    · exact h
  · cases s.hasStored with
    | true => rfl
    | false => rfl

end Store

/-! ## A whole transaction -/

section Run

variable (pack : AttrType → List Nat → List UInt8) (s : Schema)

/-- The stored document as the docstore keeps it. -/
def Document.packed (d : Document) : List (List UInt8) := packDoc s ((d.store pack s []).storedDoc.getD [])

/-- The hits of documents whose rows are numbered from `n` on. -/
def hitsFrom (n : Nat) (docs : List Document) : List WordHit :=
  (docs.zipIdx n).flatMap (fun p => p.1.accumWords.map (hitOf p.2))

/-- The accumulator holds the documents, one row each. -/
structure Holds (acc : RtAccum) (docs : List Document) : Prop where
  accumDocs : acc.accumDocs = docs.length
  nextRowID : acc.nextRowID = docs.length
  rows : List.Forall₂ (fun row (d : Document) => ∃ pool, row = (d.store pack s pool).row) acc.rows docs
  columnar : acc.columnar = docs.map (fun d => (d.store pack s []).columnar)
  accum : acc.accum = hitsFrom 0 docs
  counts : acc.perDocHitsCount = docs.map (fun d => d.accumWords.length)
  docstore : acc.docstore = if s.hasStored ∧ docs ≠ [] then some (docs.map (Document.packed pack s)) else none

variable {pack s}

theorem addStored_eq {docs : List Document} (d : Document) (pool : List UInt8) :
    addStored s (if s.hasStored ∧ docs ≠ [] then some (docs.map (Document.packed pack s)) else none)
      (d.store pack s pool).storedDoc =
    if s.hasStored ∧ docs ++ [d] ≠ [] then some ((docs ++ [d]).map (Document.packed pack s)) else none := by
  have hsome := isSome_storedDoc (s := s) pack d []
  rw [(sameStore_store pack d pool []).storedDoc]
  cases hst : (d.store pack s []).storedDoc with
  | none =>
    rw [hst] at hsome
    rw [← hsome, addStored, if_neg (fun h => Bool.false_ne_true h.1), if_neg (fun h => Bool.false_ne_true h.1)]
  | some x =>
    have hpacked : d.packed pack s = packDoc s x := by rw [Document.packed, hst, Option.getD_some]
    rw [hst] at hsome
    rw [← hsome]
    refine Eq.trans ?_ (if_pos ⟨rfl, append_ne_nil_of_right_ne_nil _ (cons_ne_nil _ _)⟩).symm
    rw [map_append, map_singleton, hpacked]
    by_cases hd : docs = []
    · rw [hd]
      rfl
    · rw [if_pos ⟨rfl, hd⟩]
      rfl

theorem Holds.insert {acc : RtAccum} {docs : List Document} (h : Holds pack s acc docs) (d : Document) :
    Holds pack s (insertDocument pack s true acc d) (docs ++ [d]) := by
  rw [insertDocument_eq]
  refine ⟨?_, ?_, ?_, ?_, ?_, ?_, ?_⟩
  · rw [length_append, length_singleton, ← h.accumDocs]
  · rw [length_append, length_singleton, ← h.nextRowID]
  · exact rel_append h.rows (.cons ⟨acc.blobs, rfl⟩ .nil)
  · rw [map_append, map_singleton, ← h.columnar, (sameStore_store pack d acc.blobs []).columnar]
  · rw [hitsFrom, zipIdx_append, flatMap_append, ← hitsFrom, ← h.accum, h.nextRowID, zipIdx_singleton,
      flatMap_singleton, zero_add]
  · rw [map_append, map_singleton, ← h.counts]
  · rw [h.docstore]
    exact addStored_eq d acc.blobs

/-- **Every transaction of REPLACE statements holds its documents.** -/
theorem holds_replaceAll (docs : List Document) : Holds pack s (replaceAll pack s docs) docs := by
  induction docs using List.reverseRecOn with
  | nil =>
    refine ⟨rfl, rfl, .nil, rfl, rfl, rfl, ?_⟩
    rw [if_neg (fun h => h.2 rfl)]
    rfl
  | append_singleton docs d ih =>
    rw [replaceAll, foldl_concat]
    exact ih.insert d

end Run

end Accum
end Manticore

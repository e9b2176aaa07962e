import Manticore.FileIo
import Manticore.Search
/-!
# DocidLookup — the docid lookup file and its readers (`docidlookup.h`, `docidlookup.cpp`)

The file holds (docid, rowid) pairs in blocks of 64 behind a table of checkpoints (first docid and offset of each block).
`DocID_t` is compared unsigned everywhere, so docids are 64-bit naturals; the filter's values are signed.  `none` is a
read outside of the file, a write outside of the checkpoint vector, or a failed `assert`.
-/
namespace Manticore
namespace DocidLookup

/-- `INVALID_ROWID`. -/
def invalidRowID : Nat := 0xFFFFFFFF

structure DocidRowidPair where
  docID : UInt64
  rowID : UInt32
  deriving DecidableEq, Repr

/-- `CmpDocidLookup_fn::IsLess`. -/
def cmpDocidLookup (a b : DocidRowidPair) : Bool :=
  if a.docID = b.docID then decide (a.rowID < b.rowID) else decide (a.docID < b.docID)

/-- `DOCS_PER_LOOKUP_CHECKPOINT`. -/
def docsPerLookupCheckpoint : Nat := 64

/-! ## `DocidLookupWriter_c` -/

structure LookupWriter where
  writer              : Writer
  nDocs               : Nat
  processed           : Nat
  checkpoint          : Nat
  maxDocIDPos         : Nat
  uuidLookupOffsetPos : Nat
  checkpointStart     : Nat
  lastDocID           : Nat
  checkpoints         : List (Nat × Nat)

namespace LookupWriter

/-- A base docid and an offset. -/
def putCheckpoint (w : Writer) (c : Nat × Nat) : Writer := (w.putOffset c.1).putOffset c.2

/-- `Start`: the header, and room for the checkpoints.  Their number is computed in 32 bits. -/
def start (w : Writer) (nDocs : Nat) : LookupWriter :=
  let head := (w.putDword nDocs).putDword docsPerLookupCheckpoint
  let maxed := head.putOffset 0
  let uuid := maxed.putOffset 0
  let room := List.replicate ((nDocs + docsPerLookupCheckpoint - 1) % 2 ^ 32 / docsPerLookupCheckpoint) (0, 0)
  { writer := room.foldl putCheckpoint uuid
    nDocs := nDocs
    processed := 0
    checkpoint := 0
    maxDocIDPos := head.pos
    uuidLookupOffsetPos := maxed.pos
    checkpointStart := uuid.pos
    lastDocID := 0
    checkpoints := room }

/-- `AddPair`. -/
def addPair (l : LookupWriter) (p : DocidRowidPair) : Option LookupWriter :=
  if p.docID.toNat < l.lastDocID then none
  else if l.processed % docsPerLookupCheckpoint = 0 then
    if l.checkpoint < l.checkpoints.length then
      some { l with
        checkpoints := l.checkpoints.set l.checkpoint (p.docID.toNat, l.writer.pos)
        checkpoint := l.checkpoint + 1
        writer := l.writer.putDword p.rowID.toNat
        lastDocID := p.docID.toNat
        processed := l.processed + 1 }
    else none
  else
    some { l with
      writer := (l.writer.zipOffset (p.docID.toNat - l.lastDocID)).putDword p.rowID.toNat
      lastDocID := p.docID.toNat
      processed := l.processed + 1 }

/-- `FinalizeNumeric`: the largest docid and the checkpoints go to their places. -/
def finalizeNumeric (l : LookupWriter) : Option Writer :=
  if l.processed = l.nDocs then
    let maxed := (l.writer.flush.seekTo l.maxDocIDPos).putOffset l.lastDocID
    some ((l.checkpoints.foldl putCheckpoint (maxed.seekTo l.checkpointStart)).seekTo l.writer.pos)
  else none

/-- `SetUuidLookupOffset`. -/
def setUuidLookupOffset (l : LookupWriter) (w : Writer) (off : Nat) : Writer :=
  ((w.seekTo l.uuidLookupOffsetPos).putOffset off).seekTo w.pos

end LookupWriter

/-- A UUID key (high and low half) with its docid. -/
structure UuidDocidLookupPair where
  hi    : UInt64
  lo    : UInt64
  docID : UInt64

def putUuidPair (w : Writer) (u : UuidDocidLookupPair) : Writer :=
  ((w.putOffset u.hi.toNat).putOffset u.lo.toNat).putOffset u.docID.toNat

/-- `WriteDocidLookup`, without UUID entries or with them, one for each pair. -/
def writeDocidLookup (w : Writer) (dLookup : List DocidRowidPair) (dUuidLookup : Option (List UuidDocidLookupPair)) :
    Option (List UInt8) := do
  let l ← dLookup.foldlM LookupWriter.addPair (LookupWriter.start w (dLookup.length % 2 ^ 32))
  let done ← l.finalizeNumeric
  match dUuidLookup with
  | none      => some done.file
  | some uuid =>
    if uuid.length = dLookup.length then some (uuid.foldl putUuidPair (l.setUuidLookupOffset done done.pos)).file else none

/-! ## `LookupReader_c` -/

structure LookupReader where
  nDocs              : Nat
  nDocsPerCheckpoint : Nat
  nCheckpoints       : Nat
  maxDocID           : Nat
  data               : List UInt8
  /-- The place of the checkpoint table in the data. -/
  checkpoints        : Nat

namespace LookupReader

/-- `SetData`, for data that is there. -/
def setData (data : List UInt8) (uIndexVersion : Nat) : Option LookupReader := do
  let nDocs ← readLE 4 data 0
  let per ← readLE 4 data 4
  let maxDocID ← readLE 8 data 8
  let table ← if 71 ≤ uIndexVersion then (readLE 8 data 16).map (fun _ => 24) else some 16
  if per = 0 then none else some ⟨nDocs, per, (nDocs + per - 1) % 2 ^ 32 / per, maxDocID, data, table⟩

def baseDocID (r : LookupReader) (c : Nat) : Option Nat := readLE 8 r.data (r.checkpoints + 16 * c)
def offset (r : LookupReader) (c : Nat) : Option Nat := readLE 8 r.data (r.checkpoints + 16 * c + 8)

def isLastCheckpoint (r : LookupReader) (c : Nat) : Bool := c + 1 = r.nCheckpoints

def getNumDocsInCheckpoint (r : LookupReader) (c : Nat) : Nat :=
  if r.isLastCheckpoint c then
    if r.nDocs % r.nDocsPerCheckpoint ≠ 0 then r.nDocs % r.nDocsPerCheckpoint else r.nDocsPerCheckpoint
  else r.nDocsPerCheckpoint

/-- `FindCheckpoint` from checkpoint `start` on; the inner `none` is the null pointer. -/
def findCheckpoint (r : LookupReader) (docID start : Nat) : Option (Option Nat) := do
  let first ← r.baseDocID start
  if docID < first ∨ r.maxDocID < docID then some none
  else if r.nCheckpoints ≤ start then none
  else do
    let found ← binarySearchFirst r.baseDocID docID (r.nCheckpoints - 1 - start) start (r.nCheckpoints - 1)
    let base ← r.baseDocID found
    if docID < base then (if found = 0 then some none else some (some (found - 1))) else some (some found)

/-- The loop of `Find` over the rest of a block. -/
def findGo (docID : Nat) : Nat → List UInt8 → Nat → Option Nat
  | 0,     _,  _   => some invalidRowID
  | n + 1, bs, cur => do
    let rowID ← readLE 4 (Zip.unzipOffsetBE bs).2 0
    let cur' := (cur + (Zip.unzipOffsetBE bs).1) % 2 ^ 64
    if cur' = docID then some rowID
    else if docID < cur' then some invalidRowID
    else findGo docID n ((Zip.unzipOffsetBE bs).2.drop 4) cur'

/-- `Find`. -/
def find (r : LookupReader) (docID : Nat) : Option Nat := do
  let first ← r.baseDocID 0
  if docID < first ∨ r.maxDocID < docID then some invalidRowID
  else
    match ← r.findCheckpoint docID 0 with
    | none   => some invalidRowID
    | some c => do
      let off ← r.offset c
      let cur ← r.baseDocID c
      let rowID ← readLE 4 (r.data.drop off) 0
      if cur = docID then some rowID
      else findGo docID (r.getNumDocsInCheckpoint c - 1) ((r.data.drop off).drop 4) cur

end LookupReader

/-! ## `LookupReaderIterator_c` -/

/-- The iterator's own fields. -/
structure Cursor where
  curCheckpoint  : Option Nat
  cur            : List UInt8
  curDocID       : Nat
  processedDocs  : Nat
  checkpointDocs : Nat

namespace LookupReader

def setCheckpoint (r : LookupReader) (it : Cursor) : Option Nat → Option Cursor
  | none   => some { it with curCheckpoint := none }
  | some c => do
    let base ← r.baseDocID c
    let off ← r.offset c
    some ⟨some c, r.data.drop off, base, 0, r.getNumDocsInCheckpoint c⟩

/-- `LookupReaderIterator_c::SetData`. -/
def iterator (r : LookupReader) : Option Cursor := r.setCheckpoint ⟨none, [], 0, 0, 0⟩ (some 0)

/-- `Read`, inside a block: the first entry of a block has no docid. -/
def readEntry (it : Cursor) : Option (Cursor × Option (Nat × Nat)) :=
  if it.processedDocs = 0 then do
    let rowID ← readLE 4 it.cur 0
    some ({ it with cur := it.cur.drop 4, processedDocs := 1 }, some (it.curDocID, rowID))
  else do
    let rowID ← readLE 4 (Zip.unzipOffsetBE it.cur).2 0
    let docID := (it.curDocID + (Zip.unzipOffsetBE it.cur).1) % 2 ^ 64
    some ({ it with
      cur := (Zip.unzipOffsetBE it.cur).2.drop 4
      curDocID := docID
      processedDocs := it.processedDocs + 1 }, some (docID, rowID))

/-- `Read`; the inner `none` is `false`. -/
def read (r : LookupReader) (it : Cursor) : Option (Cursor × Option (Nat × Nat)) :=
  match it.curCheckpoint with
  | none   => some (it, none)
  | some c =>
    if it.processedDocs = it.checkpointDocs then
      if r.isLastCheckpoint c then some ({ it with curCheckpoint := none }, none)
      else (r.setCheckpoint it (some (c + 1))).bind readEntry
    else readEntry it

def hintDocID (r : LookupReader) (it : Cursor) (docID : Nat) : Option Cursor :=
  match it.curCheckpoint with
  | none   => some it
  | some c =>
    if r.isLastCheckpoint c then some it
    else do
      let next ← r.baseDocID (c + 1)
      if docID < next then some it
      else do
        let found ← r.findCheckpoint docID (c + 1)
        r.setCheckpoint it found

/-- `Read` until it returns `false`; the number bounds the calls. -/
def readAll (r : LookupReader) : Nat → Cursor → Option (List (Nat × Nat))
  | 0,     _  => none
  | f + 1, it => do
    match ← r.read it with
    | (_, none)      => some []
    | (it', some dr) => (readAll r f it').map (dr :: ·)

end LookupReader

end DocidLookup
end Manticore

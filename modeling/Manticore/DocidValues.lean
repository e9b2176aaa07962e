import Manticore.DocidLookupFile
/-!
# DocidValues — rows of a list of docids (`RowidIterator_LookupValues_T`)

The filter's values are sorted as signed numbers, the lookup as unsigned ones; the filter reader starts at the first value
that is not negative and wraps around.  The rows found are kept in a list or in a bitmap (`BITMAP`) and returned in blocks
of at most 512.  `HintRowID` and the cutoff are not modelled.
-/
namespace Manticore
namespace DocidLookup

/-! ## `DocidListReaderUnsigned_c` -/

/-- A `DocID_t` taken as `uint64_t`. -/
def toUInt64 (v : Int) : Nat := (v % 2 ^ 64).toNat

structure DocidListReader where
  values : List Int
  index  : Nat
  left   : Nat

namespace DocidListReader

/-- The constructor; `std::lower_bound` of 0 is behind the negative values. -/
def ofValues (values : List Int) : DocidListReader :=
  { values := values
    index := if values.getLast?.any (fun v => decide (0 ≤ v)) then (values.takeWhile (fun v => decide (v < 0))).length else 0
    left := values.length }

def readDocID (d : DocidListReader) : DocidListReader × Option Nat :=
  if d.left = 0 then (d, none)
  else ({ d with index := if d.index + 1 = d.values.length then 0 else d.index + 1, left := d.left - 1 },
    some (toUInt64 (d.values.getD d.index 0)))

end DocidListReader

/-! ## `CachedIterator_T` -/

/-- The fields of both storages. -/
structure Cached where
  rowIDs   : List Nat
  id       : Nat
  bitmap   : List Bool
  rowID    : Nat
  minRowID : Nat
  maxRowID : Nat

namespace Cached

/-- `MAX_COLLECTED`. -/
def maxCollected : Nat := 512

def init (BITMAP : Bool) (uTotalDocs : Nat) : Cached :=
  ⟨[], 0, if BITMAP then List.replicate uTotalDocs false else [], 0, invalidRowID, invalidRowID⟩

def add (BITMAP : Bool) (c : Cached) (tRowID : Nat) : Option Cached :=
  if BITMAP then
    if tRowID < c.bitmap.length then
      some { c with
        minRowID := if c.minRowID = invalidRowID then tRowID else min c.minRowID tRowID
        maxRowID := if c.minRowID = invalidRowID then tRowID else max c.maxRowID tRowID
        bitmap := c.bitmap.set tRowID true }
    else none
  else some { c with rowIDs := c.rowIDs ++ [tRowID] }

def finalize (BITMAP : Bool) (c : Cached) : Cached × Bool :=
  if BITMAP then ({ c with rowID := c.minRowID }, decide (c.minRowID ≠ invalidRowID))
  else ({ c with rowIDs := c.rowIDs.mergeSort (fun a b => decide (a ≤ b)) }, !c.rowIDs.isEmpty)

/-- The loop over the bitmap: the rows collected and the next row.  The first number bounds the loop. -/
def scanBits (bitmap : List Bool) (maxRowID : Nat) : Nat → Nat → Nat → List Nat × Nat
  | 0,     r, _    => ([], r)
  | f + 1, r, room =>
    if maxRowID < r ∨ room = 0 then ([], r)
    else if bitmap.getD r false then
      (r :: (scanBits bitmap maxRowID f (r + 1) (room - 1)).1, (scanBits bitmap maxRowID f (r + 1) (room - 1)).2)
    else scanBits bitmap maxRowID f (r + 1) room

/-- `ReturnRowIdChunk`; `none` is `false`, when nothing was collected. -/
def returnRowIdChunk (BITMAP : Bool) (c : Cached) : Cached × Option (List Nat) :=
  if BITMAP then
    let rows := scanBits c.bitmap c.maxRowID (c.maxRowID + 1 - c.rowID) c.rowID maxCollected
    ({ c with rowID := rows.2 }, if rows.1 = [] then none else some rows.1)
  else
    let rows := (c.rowIDs.drop c.id).take maxCollected
    ({ c with id := c.id + rows.length }, if rows = [] then none else some rows)

end Cached

/-! ## `RowidIterator_LookupValues_T` -/

/-- `ROWID_LIMITS`: the row is inside the boundaries, if there are any. -/
def inBounds (boundaries : Option (Nat × Nat)) (tRowID : Nat) : Bool :=
  boundaries.all (fun b => decide (b.1 ≤ tRowID ∧ tRowID ≤ b.2))

/-- The loop of `Fill`: the rows added, and `m_iProcessed`.  The first number bounds the loop. -/
def fillGo (r : LookupReader) (boundaries : Option (Nat × Nat)) :
    Nat → Cursor → DocidListReader → Option Nat → Option (Nat × Nat) → Nat → Option (List Nat × Nat)
  | 0,     _,  _, _,      _,             _         => none
  | f + 1, it, d, some tFilterDocID, some (tLookupDocID, tLookupRowID), processed =>
    if tFilterDocID < tLookupDocID then
      fillGo r boundaries f it d.readDocID.1 d.readDocID.2 (some (tLookupDocID, tLookupRowID)) (processed + 1)
    else if tLookupDocID < tFilterDocID then do
      let hinted ← r.hintDocID it tFilterDocID
      let next ← r.read hinted
      fillGo r boundaries f next.1 d (some tFilterDocID) next.2 (processed + 1)
    else do
      let next ← r.read it
      let rest ← fillGo r boundaries f next.1 d (some tFilterDocID) next.2 (processed + 1)
      some (if inBounds boundaries tLookupRowID then tLookupRowID :: rest.1 else rest.1, rest.2)
  | _ + 1, _,  _, _,      _,             processed => some ([], processed)

structure LookupValues where
  reader    : Cursor
  filter    : DocidListReader
  cached    : Cached
  firstTime : Bool
  processed : Nat

namespace LookupValues

def init (BITMAP : Bool) (it : Cursor) (values : List Int) (uTotalDocs : Nat) : LookupValues :=
  ⟨it, DocidListReader.ofValues values, Cached.init BITMAP uTotalDocs, true, 0⟩

/-- `Fill`: both readers are read once, then the loop runs, then `Finalize`. -/
def fill (r : LookupReader) (boundaries : Option (Nat × Nat)) (BITMAP : Bool) (f : Nat) (v : LookupValues) :
    Option (LookupValues × Bool) := do
  let first ← r.read v.reader
  let processed := v.processed + v.filter.readDocID.2.isSome.toNat + first.2.isSome.toNat
  let rows ← fillGo r boundaries f first.1 v.filter.readDocID.1 v.filter.readDocID.2 first.2 processed
  let cached ← rows.1.foldlM (Cached.add BITMAP) v.cached
  some ({ v with cached := (cached.finalize BITMAP).1, firstTime := false, processed := rows.2 },
    (cached.finalize BITMAP).2)

/-- `ReturnRowIdChunk` of the base. -/
def chunk (BITMAP : Bool) (v : LookupValues) : LookupValues × Option (List Nat) :=
  ({ v with cached := (v.cached.returnRowIdChunk BITMAP).1 }, (v.cached.returnRowIdChunk BITMAP).2)

/-- `GetNextRowIdBlock`; the inner `none` is `false`. -/
def getNextRowIdBlock (r : LookupReader) (boundaries : Option (Nat × Nat)) (BITMAP : Bool) (f : Nat)
    (v : LookupValues) : Option (LookupValues × Option (List Nat)) :=
  if v.firstTime then
    (v.fill r boundaries BITMAP f).map (fun filled => if filled.2 then filled.1.chunk BITMAP else (filled.1, none))
  else some (v.chunk BITMAP)

/-- The blocks one after another until `GetNextRowIdBlock` returns `false`; the first number bounds the calls. -/
def allRows (r : LookupReader) (boundaries : Option (Nat × Nat)) (BITMAP : Bool) (f : Nat) :
    Nat → LookupValues → Option (List Nat)
  | 0,     _ => none
  | k + 1, v => do
    match ← v.getNextRowIdBlock r boundaries BITMAP f with
    | (_, none)       => some []
    | (v', some rows) => (allRows r boundaries BITMAP f k v').map (rows ++ ·)

end LookupValues

end DocidLookup
end Manticore

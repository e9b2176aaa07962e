import Manticore.DocidValues
import Manticore.FilterSettings
/-!
# DocidRange — rows of a range of docids (`RowidIterator_LookupRange_T`)

The ends of the range are signed and the lookup is sorted as unsigned, so the checks differ by the sign of their end
(`GtPos_T`, `LtPos_T`, `GtNeg_T`, `LtNeg_T`).  A check can move the shared reader on with `HintDocID`.
-/
namespace Manticore
namespace DocidLookup

open Filters (Attr FilterSettings)

/-! ## The checks -/

/-- `MIN_NEG`: `INT64_MIN` as `uint64_t`. -/
def minNeg : Nat := 2 ^ 63

inductive CheckKind
  | gtPos | ltPos | gtNeg | ltNeg
  deriving DecidableEq, Repr

/-- `DocIdCheck_c`; `eq` is the template parameter `EQ`. -/
structure DocIdCheck where
  kind      : CheckKind
  eq        : Bool
  value     : Nat
  canRewind : Bool
  rewound   : Bool

/-- The pair that `Check` returns, with the reader and the check as it leaves them. -/
structure Checked where
  reader : Cursor
  check  : Option DocIdCheck
  accept : Bool
  stop   : Bool

namespace DocIdCheck

/-- `>=` or `>`. -/
def above (c : DocIdCheck) (uValue : Nat) : Bool :=
  if c.eq then decide (c.value ≤ uValue) else decide (c.value < uValue)

/-- `<=` or `<`. -/
def below (c : DocIdCheck) (uValue : Nat) : Bool :=
  if c.eq then decide (uValue ≤ c.value) else decide (uValue < c.value)

/-- `HintDocID` the first time, when it is allowed. -/
def rewind (r : LookupReader) (c : DocIdCheck) (it : Cursor) (docID : Nat) (accept : Bool) : Option Checked :=
  if c.canRewind && !c.rewound then
    (r.hintDocID it docID).map (fun hinted => ⟨hinted, some { c with rewound := true }, accept, false⟩)
  else some ⟨it, some c, accept, false⟩

def check (r : LookupReader) (c : DocIdCheck) (it : Cursor) (uValue : Nat) : Option Checked :=
  match c.kind with
  | .gtPos => if minNeg ≤ uValue then some ⟨it, some c, false, true⟩ else some ⟨it, some c, c.above uValue, false⟩
  | .ltPos =>
    if c.below uValue then some ⟨it, some c, true, false⟩
    else if uValue < minNeg then c.rewind r it minNeg false
    else some ⟨it, some c, true, false⟩
  | .gtNeg => if uValue < minNeg then some ⟨it, some c, true, false⟩ else c.rewind r it c.value (c.above uValue)
  | .ltNeg =>
    if uValue < minNeg then some ⟨it, some c, false, false⟩
    else if c.below uValue then some ⟨it, some c, true, false⟩
    else some ⟨it, some c, false, true⟩

end DocIdCheck

def createCheckGt (iMinValue : Attr) (bHasEqualMin : Bool) : DocIdCheck :=
  ⟨if 0 ≤ iMinValue.toInt then .gtPos else .gtNeg, bHasEqualMin, iMinValue.toNat, true, false⟩

def createCheckLt (iMaxValue : Attr) (bHasEqualMax : Bool) : DocIdCheck :=
  ⟨if 0 ≤ iMaxValue.toInt then .ltPos else .ltNeg, bHasEqualMax, iMaxValue.toNat, true, false⟩

/-- The checks that `CreateLookupIterator` makes of the two ends of a range. -/
def check1 (tFilter : FilterSettings) : Option DocIdCheck :=
  if tFilter.openLeft then none else some (createCheckGt tFilter.minValue tFilter.hasEqualMin)

def check2 (tFilter : FilterSettings) : Option DocIdCheck :=
  if tFilter.openRight then none else some (createCheckLt tFilter.maxValue tFilter.hasEqualMax)

/-- `m_pCheck->Check ( tLookupDocID )`; a check that is not there accepts all docids. -/
def checkIf (r : LookupReader) : Option DocIdCheck → Cursor → Nat → Option Checked
  | none,   it, _            => some ⟨it, none, true, false⟩
  | some c, it, tLookupDocID => c.check r it tLookupDocID

/-! ## The loop of `Fill` -/

/-- A row inside the boundaries is added before the later ones (`CheckAdd`). -/
def checkAdd (boundaries : Option (Nat × Nat)) (tLookupRowID : Nat) (rows : List Nat) : List Nat :=
  if inBounds boundaries tLookupRowID then tLookupRowID :: rows else rows

/-- `RowidIterator_LookupRange_T::Fill`: the rows added, and `m_iProcessed`.  The first number bounds the loop. -/
def fillRange (r : LookupReader) (boundaries : Option (Nat × Nat)) :
    Nat → Cursor → Option DocIdCheck → Option DocIdCheck → Nat → Option (List Nat × Nat)
  | 0,     _,  _,      _,      _         => none
  | f + 1, it, check1, check2, processed => do
    match ← r.read it with
    | (_, none)                                => some ([], processed)
    | (it1, some (tLookupDocID, tLookupRowID)) => do
      let a ← checkIf r check1 it1 tLookupDocID
      if a.stop then some ([], processed + 1)
      else if !a.accept then fillRange r boundaries f a.reader a.check check2 (processed + 1)
      else do
        let b ← checkIf r check2 a.reader tLookupDocID
        if b.stop then some ([], processed + 1)
        else if !b.accept then fillRange r boundaries f b.reader a.check b.check (processed + 1)
        else do
          let rest ← fillRange r boundaries f b.reader a.check b.check (processed + 1)
          some (checkAdd boundaries tLookupRowID rest.1, rest.2)

end DocidLookup
end Manticore

import Manticore.FileIo
import Manticore.Hitpos
/-!
# DiskQword — the reader of doclists and hitlists (`DiskIndexQword_c`, `SkipData_t::Read`, `FindSpan`)

The reader of one keyword: `ReadNext` decodes the doclist entry by entry, `SeekHitlist` and `GetNextHit` read the hits of a
document.  A hitlist position with bit 63 set is an inlined hit.  Loops take fuel, and `none` is running out of it.
-/
namespace Manticore
namespace Disk

open Hitman

/-! ### What the builder leaves -/

def invalidRowID : Nat := 2 ^ 32 - 1

/-- Subtraction of DWORDs. -/
def sub32 (a b : Nat) : Nat := (a + 2 ^ 32 - b) % 2 ^ 32

inductive HitFormat
  | plain
  | inline
  deriving DecidableEq, Repr

inductive Hitless
  | none
  | some
  | all
  deriving DecidableEq, Repr

/-- The settings of an index that the reader looks at. -/
structure Settings where
  blockSize : Nat
  hitFormat : HitFormat
  hitless : Hitless
  deriving DecidableEq, Repr

structure SkiplistEntry where
  baseRowIDPlus1 : Nat
  offset : Nat
  baseHitlistPos : Nat
  deriving DecidableEq, Repr

/-- The entry of a keyword in the dictionary; `m_iDocs` is kept as the count and its `HITLESS_DOC_FLAG`. -/
structure DictEntry where
  docs : Nat
  hitlessDoc : Bool
  doclistOffset : Nat
  skiplistOffset : Nat
  deriving DecidableEq, Repr

/-! ### `FindSpan` -/

/-- The linear search for small vectors. -/
def findSpanLinear (keys : List Nat) (ref : Nat) : Nat → Nat → Option Nat
  | 0, _ => none
  | k + 1, i => if keys.getD i 0 ≤ ref ∧ ref < keys.getD (i + 1) 0 then some i else findSpanLinear keys ref k (i + 1)

/-- The binary search, between the indexes `s` and `e`. -/
def findSpanBinary (keys : List Nat) (ref : Nat) : Nat → Nat → Nat → Option Nat
  | 0, _, _ => none
  | k + 1, s, e =>
    if s + 1 < e then
      if ref < keys.getD s 0 ∨ keys.getD e 0 < ref then none
      else
        let m := s + (e - s) / 2
        if keys.getD m 0 ≤ ref ∧ ref < keys.getD (m + 1) 0 then some m
        else if ref < keys.getD m 0 then findSpanBinary keys ref k s m
        else findSpanBinary keys ref k m e
    else none

/-- `FindSpan`: an index at which `keys[i] <= ref < keys[i+1]`, or the last one.  Vectors of up to `smallTreshold` keys, by
default 8, are searched from the front. -/
def findSpan (keys : List Nat) (ref smallTreshold : Nat) : Option Nat :=
  if keys.length = 0 then none
  else if keys.getD (keys.length - 1) 0 ≤ ref then some (keys.length - 1)
  else if keys.length ≤ smallTreshold then findSpanLinear keys ref (keys.length - 1) 0
  else if keys.getD 0 0 ≤ ref ∧ ref < keys.getD 1 0 then some 0
  else if keys.getD (keys.length - 2) 0 ≤ ref ∧ ref < keys.getD (keys.length - 1) 0 then some (keys.length - 2)
  else findSpanBinary keys ref keys.length 0 (keys.length - 1)

/-! ### `SkipData_t` -/

/-- The loop of `SkipData_t::Read`: `k` more entries, each from the one before. -/
def readSkips (blockSize : Nat) : Nat → SkiplistEntry → List UInt8 → List SkiplistEntry
  | 0, _, _ => []
  | k + 1, p, bs =>
    let (row, bs) := Zip.unzipIntBE bs
    let (off, bs) := Zip.unzipOffsetBE bs
    let (hit, bs) := Zip.unzipOffsetBE bs
    let t : SkiplistEntry := ⟨(p.baseRowIDPlus1 + blockSize + row) % 2 ^ 32, p.offset + 4 * blockSize + off,
      p.baseHitlistPos + hit⟩
    t :: readSkips blockSize k t bs

/-- `SkipData_t::Read`: the first entry is made from the dictionary, the others are read. -/
def readSkipData (skips : List UInt8) (res : DictEntry) (docs blockSize : Nat) : List SkiplistEntry :=
  ⟨0, res.doclistOffset, 0⟩ ::
    readSkips blockSize (docs / blockSize - 1) ⟨0, res.doclistOffset, 0⟩ (skips.drop res.skiplistOffset)

/-! ### `DiskIndexQword_c` -/

structure Qword where
  rdDoclist : Reader
  rdHitlist : Reader
  inlineHits : Bool
  hasHitlist : Bool
  skipData : Option (List SkiplistEntry)
  rowID : Nat
  hitPosition : Nat
  hitlistPos : Nat
  qwordFields : FieldMask
  allFieldsKnown : Bool
  matchHits : Nat
  hitState : Nat
  inlinedHit : Nat
  hitPos : Nat

/-- `DiskIndexQwordSetup_c::Setup` once the dictionary entry is found. -/
def setup (cfg : Settings) (doclist hitlist skips : List UInt8) (res : DictEntry) : Qword where
  rdDoclist := ⟨doclist, res.doclistOffset⟩
  rdHitlist := ⟨hitlist, 0⟩
  inlineHits := cfg.hitFormat = .inline
  hasHitlist := cfg.hitless = .none || (cfg.hitless = .some && !res.hitlessDoc)
  skipData := if cfg.blockSize < res.docs then some (readSkipData skips res res.docs cfg.blockSize) else none
  rowID := invalidRowID
  hitPosition := 0
  hitlistPos := 0
  qwordFields := 0
  allFieldsKnown := false
  matchHits := 0
  hitState := 0
  inlinedHit := 0
  hitPos := EMPTY_HIT

namespace Qword

/-- The part of `ReadNext` after the row delta. -/
def readBody (q : Qword) : Qword :=
  if q.inlineHits then
    let (hits, r) := q.rdDoclist.unzipInt
    let (first, r) := r.unzipInt
    if hits = 1 ∧ q.hasHitlist then
      let (field, r) := r.unzipInt
      { q with
        rdDoclist := r
        matchHits := hits
        hitlistPos := first ||| (field * 2 ^ 23) % 2 ^ 32 ||| 2 ^ 63
        qwordFields := FieldMask.set 0 (field / 2 % 256)
        allFieldsKnown := true }
    else
      let (delta, r) := r.unzipOffset
      { q with
        rdDoclist := r
        matchHits := hits
        qwordFields := FieldMask.assign32 (BitVec.ofNat 32 first)
        hitPosition := (q.hitPosition + delta) % 2 ^ 64
        hitlistPos := (q.hitPosition + delta) % 2 ^ 64 }
  else
    let (delta, r) := q.rdDoclist.unzipOffset
    let (mask, r) := r.unzipInt
    let (hits, r) := r.unzipInt
    { q with
      rdDoclist := r
      matchHits := hits
      qwordFields := FieldMask.assign32 (BitVec.ofNat 32 mask)
      hitlistPos := (q.hitlistPos + delta) % 2 ^ 64 }

def readNext (q : Qword) : Qword :=
  let (delta, r) := q.rdDoclist.unzipInt
  if delta ≠ 0 then
    readBody { q with rdDoclist := r, allFieldsKnown := false, rowID := (q.rowID + delta) % 2 ^ 32 }
  else { q with rdDoclist := r, rowID := invalidRowID }

def getNextDoc (q : Qword) : Qword := q.readNext

/-! ### Hits -/

def seekHitlist (q : Qword) (off : Nat) : Qword :=
  if 2 ^ 63 ≤ off then { q with hitState := 1, inlinedHit := off % 2 ^ 32 }
  else { q with hitState := 0, hitPos := EMPTY_HIT, rdHitlist := q.rdHitlist.seekTo off }

def getNextHit (q : Qword) : Nat × Qword :=
  match q.hitState with
  | 0 =>
    let (delta, r) := q.rdHitlist.unzipInt
    let pos := if delta ≠ 0 then (q.hitPos + delta) % 2 ^ 32 else EMPTY_HIT
    (pos, { q with rdHitlist := r, hitPos := pos })
  | 1 => (q.inlinedHit, { q with hitState := 2 })
  | _ => (EMPTY_HIT, { q with hitState := 0 })

/-- `GetNextHit` until `EMPTY_HIT`. -/
def readHits : Nat → Qword → Option (List Nat × Qword)
  | 0, _ => none
  | k + 1, q =>
    let (hit, q) := q.getNextHit
    if hit = EMPTY_HIT then some ([], q)
    else do
      let (hits, q) ← readHits k q
      some (hit :: hits, q)

/-- `CollectHitMask` -/
def collectHitMask (k : Nat) (q : Qword) : Option Qword :=
  if q.allFieldsKnown then some q
  else do
    let (hits, q) ← readHits k (q.seekHitlist q.hitlistPos)
    some { q with qwordFields := (hits.map getField).foldl FieldMask.set q.qwordFields, allFieldsKnown := true }

end Qword
end Disk
end Manticore

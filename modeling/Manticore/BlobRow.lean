import Manticore.Arrays
import Manticore.FileIo
/-!
# BlobRow — rows of blob attributes (`attribute.cpp`)

A blob row is a flags byte, the cumulative lengths of the attributes in one, two or four bytes each, and the attributes'
bytes.  A row is read from a place in a pool, so bytes may follow it.  `none` is a read or a write outside of its buffer,
or a failed `assert`.  `DWORD` values are taken modulo 2³²; a `DWORD` kept in an `int` goes through `toInt32`.
-/
namespace Manticore
namespace BlobRow
open List
open Arrays (slice)
open Option (bind_eq_bind bind_some)

/-- `BLOB_ROW_LEN_BYTE`, `BLOB_ROW_LEN_WORD`, `BLOB_ROW_LEN_DWORD`. -/
inductive LenSize where
  | byte
  | word
  | dword
  deriving DecidableEq, Repr

/-- The flags byte. -/
def LenSize.flags : LenSize → UInt8
  | .byte  => 0
  | .word  => 1
  | .dword => 2

def LenSize.ofFlags (b : UInt8) : Option LenSize :=
  if b = 0 then some .byte else if b = 1 then some .word else if b = 2 then some .dword else none

/-- `RowFlagsToLen`. -/
def LenSize.bytes : LenSize → Nat
  | .byte  => 1
  | .word  => 2
  | .dword => 4

def calcBlobRowFlags (uTotalLen : Nat) : LenSize :=
  if uTotalLen < 0xFF then .byte else if uTotalLen < 0xFFFF then .word else .dword

/-- `memcpy` of `n` bytes from `p`. -/
def copied (bs : List UInt8) (p n : Nat) : Option (List UInt8) :=
  if p + n ≤ bs.length then some (slice bs p n) else none

variable {n : Nat}

/-! ## Building a row -/

/-- `uTotalLen += ...`, over the attributes. -/
def sumLens (lens : List Nat) : Nat := lens.foldl (fun u n => (u + n) % 2 ^ 32) 0

/-- The cumulative lengths from `u` on, cut to the width. -/
def putLens (s : LenSize) : Nat → List Nat → List UInt8
  | _, []        => []
  | u, n :: lens => putLE s.bytes ((u + n) % 2 ^ 32) ++ putLens s ((u + n) % 2 ^ 32) lens

/-- The bytes of a row: flags, lengths, data. -/
def layout (s : LenSize) (attrs : List (List UInt8)) : List UInt8 :=
  s.flags :: (putLens s 0 (attrs.map List.length) ++ attrs.flatten)

/-- What `Flush` puts for the collected attributes. -/
def rowBytes (attrs : List (List UInt8)) : List UInt8 :=
  layout (calcBlobRowFlags (sumLens (attrs.map List.length))) attrs

/-- `BlobRowBuilder_Mem_c::Flush`: the pool, and the offset and length of the row. -/
def flushMem (pool : List UInt8) (attrs : List (List UInt8)) : List UInt8 × Int × Int :=
  (pool ++ rowBytes attrs, toInt32 pool.length, toInt32 (pool ++ rowBytes attrs).length - toInt32 pool.length)

/-- One cumulative length of `BlobRowBuilder_File_c::Flush`. -/
def putLen (s : LenSize) (w : Writer) (u : Nat) : Writer :=
  match s with
  | .byte  => w.putByte (UInt8.ofNat u)
  | .word  => w.putWord u
  | .dword => w.putDword u

def putLensFile (s : LenSize) : Nat → List Nat → Writer → Writer
  | _, [],        w => w
  | u, n :: lens, w => putLensFile s ((u + n) % 2 ^ 32) lens (putLen s w ((u + n) % 2 ^ 32))

/-- `BlobRowBuilder_File_c::Flush`: the file, and the offset and length of the row. -/
def flushFile (w : Writer) (attrs : List (List UInt8)) : Writer × Nat × Nat :=
  let s := calcBlobRowFlags (sumLens (attrs.map List.length))
  let w' := attrs.foldl Writer.putBytes (putLensFile s 0 (attrs.map List.length) (w.putByte s.flags))
  (w', w.pos, w'.pos - w.pos)

/-- `BlobRowBuilder_File_c::Setup`: eight bytes are reserved. -/
def setupFile (bufferSize : Nat) (h : 0 < bufferSize) : Writer := (Writer.openFile bufferSize h).putOffset 0

/-- Rows flushed one after another. -/
def flushFiles (w : Writer) (rows : List (List (List UInt8))) : Writer := rows.foldl (fun w attrs => (flushFile w attrs).1) w

/-- `BlobRowBuilder_File_c::Done`: the size goes to the reserved place, the file ends `space` bytes after the rows. -/
def doneFile (w : Writer) (space : Nat) : List UInt8 :=
  ((w.seekAndPutOffset 0 w.pos).seekTo (w.pos + space)).written

/-! ## Reading a row -/

/-- Cumulative length `i` of a row. -/
def lenAt (s : LenSize) (row : List UInt8) (i : Nat) : Option Nat := readLE s.bytes row (1 + s.bytes * i)

/-- `uLen0` of the source: 0 before the first attribute. -/
def lenBefore (s : LenSize) (row : List UInt8) (i : Nat) : Option Nat := if 0 < i then lenAt s row (i - 1) else some 0

/-- `GetBlobAttrLen`: a difference of two `T`, as an `int`. -/
def getBlobAttrLen (s : LenSize) (row : List UInt8) (i : Nat) : Option Int := do
  let uLen1 ← lenAt s row i
  let uLen0 ← lenBefore s row i
  some (toInt32 (uLen1 + 2 ^ 32 - uLen0))

/-- The attribute: empty when its length is 0, and a negative length fails the `assert`. -/
def getBlobAttrOf (s : LenSize) (row : List UInt8) (iBlobAttrId nBlobAttrs : Nat) : Option (List UInt8) := do
  let iLengthBytes ← getBlobAttrLen s row iBlobAttrId
  let uLen0 ← lenBefore s row iBlobAttrId
  if iLengthBytes < 0 then none
  else if iLengthBytes = 0 then some []
  else copied row (1 + s.bytes * nBlobAttrs + uLen0) iLengthBytes.toNat

def rowFlags (row : List UInt8) : Option LenSize := row[0]?.bind LenSize.ofFlags

/-- `sphGetBlobAttr`. -/
def getBlobAttr (row : List UInt8) (iBlobAttrId nBlobAttrs : Nat) : Option (List UInt8) :=
  (rowFlags row).bind (fun s => getBlobAttrOf s row iBlobAttrId nBlobAttrs)

/-- `sphGetBlobTotalLen`: the last cumulative length and the header, as a `DWORD`.  With no attributes the source reads
the flags byte in place of a length. -/
def getBlobTotalLen (row : List UInt8) (nBlobAttrs : Nat) : Option Nat := do
  let s ← rowFlags row
  let uLen ← if s.bytes ≤ 1 + s.bytes * nBlobAttrs then readLE s.bytes row (1 + s.bytes * nBlobAttrs - s.bytes) else none
  some ((uLen + nBlobAttrs * s.bytes + 1) % 2 ^ 32)

/-- All attributes of a row. -/
def decodeAll (row : List UInt8) (nBlobAttrs : Nat) : Option (List (List UInt8)) :=
  (List.range nBlobAttrs).mapM (fun i => getBlobAttr row i nBlobAttrs)

/-! ## Changing a row -/

/-- `sphCopyBlobRow`: the length is an `int`, and `Append` ignores one that is not positive. -/
def copyBlobRow (dst src : List UInt8) (iOffset nBlobs : Nat) : Option (List UInt8 × Int) := do
  let iBlobLen ← (getBlobTotalLen (src.drop iOffset) nBlobs).map toInt32
  if iBlobLen ≤ 0 then some (dst, toInt32 dst.length)
  else do
    let bytes ← copied src iOffset iBlobLen.toNat
    some (dst ++ bytes, toInt32 dst.length)

/-- `Resize ( n )` of a vector and the bytes written into it from its start on. -/
def fill (prev : List UInt8) (n : Nat) (bytes : List UInt8) : Option (List UInt8) :=
  if bytes.length ≤ n then some (bytes ++ (prev.take n ++ List.replicate (n - prev.length) 0).drop bytes.length) else none

/-- Lengths of the attributes `is` of a row, as `DWORD`s. -/
def attrLengths (s : LenSize) (row : List UInt8) (is : List Nat) : Option (List Nat) :=
  is.mapM (fun i => (getBlobAttrLen s row i).map (fun n => (n % 2 ^ 32).toNat))

/-- `AddAttrToBlobRowNoData`: the last cumulative length is written once more. -/
def addAttrNoData (prev row : List UInt8) (iNumBlobs : Nat) : Option (List UInt8) := do
  let s ← rowFlags row
  let uOldBlobLen ← getBlobTotalLen row iNumBlobs
  let uAttrLengthSize := (s.bytes * iNumBlobs + 1) % 2 ^ 32
  let head ← copied row 0 uAttrLengthSize
  let last ← copied row (uAttrLengthSize - s.bytes) s.bytes
  let data ← copied row uAttrLengthSize ((uOldBlobLen + 2 ^ 32 - uAttrLengthSize) % 2 ^ 32)
  fill prev ((uOldBlobLen + s.bytes) % 2 ^ 32) (head ++ last ++ data)

/-- `AddAttrToBlobRowWithData`. -/
def addAttrWithData (prev row : List UInt8) (iNumBlobs : Nat) (data : List UInt8) : Option (List UInt8) := do
  let s ← rowFlags row
  let old ← attrLengths s row (List.range iNumBlobs)
  let dAttrLengths := old ++ [data.length % 2 ^ 32]
  let uTotalLength := sumLens dAttrLengths
  let t := calcBlobRowFlags uTotalLength
  let blobs ← (List.range iNumBlobs).mapM (fun i => getBlobAttr row i iNumBlobs)
  fill prev ((1 + (iNumBlobs + 1) * t.bytes + uTotalLength) % 2 ^ 32)
    (t.flags :: (putLens t 0 dAttrLengths ++ blobs.flatten ++ data))

/-- `AddAttrToBlobRowFirst`. -/
def addAttrFirst (data : List UInt8) : List UInt8 :=
  let s := calcBlobRowFlags (data.length % 2 ^ 32)
  s.flags :: (putLE s.bytes data.length ++ data)

/-- `sphAddAttrToBlobRow`, with `pData` or without; the row buffer is emptied first. -/
def addAttrToBlobRow (row : List UInt8) (iNumBlobs : Nat) (pData : Option (List UInt8)) : Option (List UInt8) :=
  if iNumBlobs ≠ 0 then
    match pData with
    | some data => addAttrWithData [] row iNumBlobs data
    | none      => addAttrNoData [] row iNumBlobs
  else some (addAttrFirst (pData.getD []))

/-- `sphRemoveAttrFromBlobRow`.  The buffer is sized with the old width of the lengths, so bytes may be left behind the
row. -/
def removeAttrFromBlobRow (prev row : List UInt8) (nBlobs iBlobAttrId : Nat) : Option (List UInt8) :=
  if nBlobs ≤ 1 then some []
  else do
    let s ← rowFlags row
    let is := (List.range nBlobs).filter (fun i => i ≠ iBlobAttrId)
    let dAttrLengths ← attrLengths s row is
    let uTotalLength := sumLens dAttrLengths
    let t := calcBlobRowFlags uTotalLength
    let blobs ← is.mapM (fun i => getBlobAttr row i nBlobs)
    fill prev ((1 + (nBlobs - 1) * s.bytes + uTotalLength) % 2 ^ 32)
      (t.flags :: (putLens t 0 dAttrLengths ++ blobs.flatten))

/-! ## The layout -/

theorem LenSize.ofFlags_flags (s : LenSize) : LenSize.ofFlags s.flags = some s := by cases s <;> decide

/-- The width takes the total length, by the thresholds of `CalcBlobRowFlags`. -/
def LenSize.Takes (s : LenSize) (n : Nat) : Prop := (calcBlobRowFlags n).bytes ≤ s.bytes ∧ n < 2 ^ 32

theorem LenSize.Takes.lt {s : LenSize} (h : s.Takes n) : n < 256 ^ s.bytes := by
  obtain ⟨hle, hlt⟩ := h
  unfold calcBlobRowFlags at hle
  cases s with
  | dword => exact hlt
  | byte =>
    split at hle
    · simp only [LenSize.bytes]; omega
    · split at hle <;> simp [LenSize.bytes] at hle
  | word =>
    split at hle
    · simp only [LenSize.bytes]; omega
    · split at hle
      · simp only [LenSize.bytes]; omega
      · simp [LenSize.bytes] at hle

theorem LenSize.Takes.mono {s : LenSize} {m : Nat} (h : s.Takes n) (hmn : m ≤ n) : s.Takes m := by
  refine ⟨le_trans ?_ h.1, by have := h.2; omega⟩
  unfold calcBlobRowFlags
  split <;> split <;> (try split) <;> (try split) <;> first | omega | decide

theorem takes_calcBlobRowFlags (h : n < 2 ^ 32) : (calcBlobRowFlags n).Takes n := ⟨le_refl _, h⟩

theorem foldl_sumLens : ∀ (lens : List Nat) (u : Nat), u + lens.sum < 2 ^ 32 →
    lens.foldl (fun u n => (u + n) % 2 ^ 32) u = u + lens.sum
  | [], u, _ => by simp
  | n :: lens, u, h => by
    rw [sum_cons] at h
    rw [foldl_cons, Nat.mod_eq_of_lt (by omega), foldl_sumLens lens (u + n) (by omega), sum_cons,
      add_assoc]

theorem sumLens_eq {lens : List Nat} (h : lens.sum < 2 ^ 32) : sumLens lens = lens.sum := by
  rw [sumLens, foldl_sumLens lens 0 (by omega), zero_add]

@[simp] theorem length_putLens (s : LenSize) : ∀ (u : Nat) (lens : List Nat),
    (putLens s u lens).length = s.bytes * lens.length
  | _, [] => rfl
  | u, n :: lens => by
    rw [putLens, length_append, length_putLE, length_putLens s, length_cons, Nat.mul_succ, add_comm]

theorem putLens_append (s : LenSize) : ∀ (l₁ l₂ : List Nat) (u : Nat), u + l₁.sum < 2 ^ 32 →
    putLens s u (l₁ ++ l₂) = putLens s u l₁ ++ putLens s (u + l₁.sum) l₂
  | [], _, _, _ => by simp [putLens]
  | n :: l₁, l₂, u, h => by
    rw [sum_cons] at h
    rw [cons_append, putLens, putLens, Nat.mod_eq_of_lt (by omega), putLens_append s l₁ l₂ (u + n) (by omega),
      append_assoc, sum_cons, add_assoc]

theorem putLens_snoc (s : LenSize) {A : List (List UInt8)} {a : List UInt8} (h : (A ++ [a]).flatten.length < 2 ^ 32) :
    putLens s 0 ((A ++ [a]).map List.length) =
      putLens s 0 (A.map List.length) ++ putLE s.bytes (A ++ [a]).flatten.length := by
  have hcum : A.flatten.length + a.length = (A ++ [a]).flatten.length := by simp
  rw [map_append, putLens_append s _ _ _ (by rw [← length_flatten]; omega), ← length_flatten,
    zero_add, map_singleton, putLens, putLens, hcum, Nat.mod_eq_of_lt h, append_nil]

theorem length_layout (s : LenSize) (attrs : List (List UInt8)) :
    (layout s attrs).length = 1 + s.bytes * attrs.length + attrs.flatten.length := by
  simp [layout]; omega

theorem copied_append (pre x post : List UInt8) (p n : Nat) (hp : pre.length = p) (hn : x.length = n) :
    copied (pre ++ x ++ post) p n = some x := by
  subst hp hn
  unfold copied slice
  rw [if_pos (by simp), append_assoc, drop_left, take_left]

/-- The row `row` starts with the attributes laid out in the width `s`. -/
structure StartsWith (s : LenSize) (attrs : List (List UInt8)) (row : List UInt8) : Prop where
  takes : s.Takes attrs.flatten.length
  lens  : ∀ a ∈ attrs, a.length < 2 ^ 31
  row   : layout s attrs <+: row

namespace StartsWith
variable {s : LenSize} {A B attrs : List (List UInt8)} {a row : List UInt8}

theorem rowFlags (h : StartsWith s attrs row) : rowFlags row = some s := by
  obtain ⟨tail, rfl⟩ := h.row
  exact LenSize.ofFlags_flags s

section
variable (h : StartsWith s (A ++ a :: B) row)
include h

theorem lenAt : lenAt s row A.length = some (A.flatten.length + a.length) := by
  obtain ⟨tail, rfl⟩ := h.row
  have hlt := h.takes.lt
  have h32 := h.takes.2
  simp only [flatten_append, flatten_cons, length_append] at hlt h32
  have hsum : (A.map List.length).sum = A.flatten.length := length_flatten.symm
  have hlens : putLens s 0 ((A ++ a :: B).map List.length) = putLens s 0 (A.map List.length) ++
      putLE s.bytes (A.flatten.length + a.length) ++ putLens s (A.flatten.length + a.length) (B.map List.length) := by
    rw [map_append, putLens_append s _ _ _ (by omega), map_cons, putLens, hsum, zero_add,
      Nat.mod_eq_of_lt (by omega), append_assoc]
  have hpre : (s.flags :: putLens s 0 (A.map List.length)).length = 1 + s.bytes * A.length := by simp; omega
  rw [BlobRow.lenAt, ← hpre, layout, hlens]
  have := readLE_putLE s.bytes (A.flatten.length + a.length) (s.flags :: putLens s 0 (A.map List.length))
    (putLens s (A.flatten.length + a.length) (B.map List.length) ++ (A ++ a :: B).flatten ++ tail) (by omega)
  simpa using this

theorem lenBefore : lenBefore s row A.length = some A.flatten.length := by
  rcases eq_nil_or_concat A with rfl | ⟨A', a', rfl⟩
  · rfl
  · have h' : StartsWith s (A' ++ a' :: (a :: B)) row := by simpa using h
    rw [BlobRow.lenBefore, if_pos (by simp)]
    simpa using h'.lenAt

theorem getBlobAttrLen : getBlobAttrLen s row A.length = some (a.length : Int) := by
  have hlen := h.lens a (by simp)
  rw [BlobRow.getBlobAttrLen, h.lenAt, h.lenBefore]
  simp only [bind_eq_bind, bind_some]
  have hmod : (A.flatten.length + a.length + 2 ^ 32 - A.flatten.length) % 2 ^ 32 = a.length := by omega
  rw [toInt32_eq, hmod, if_pos hlen]

/-- **An attribute of the row is read back.** -/
theorem getBlobAttr :
    getBlobAttr row A.length (A ++ a :: B).length = some a := by
  rw [BlobRow.getBlobAttr, h.rowFlags]
  show getBlobAttrOf s row _ _ = _
  rw [getBlobAttrOf, h.getBlobAttrLen, h.lenBefore]
  simp only [bind_eq_bind, bind_some]
  rw [if_neg (by omega)]
  split
  · have : a = [] := eq_nil_of_length_eq_zero (by omega)
    rw [this]
  · obtain ⟨tail, rfl⟩ := h.row
    have hpre : (s.flags :: (putLens s 0 ((A ++ a :: B).map List.length) ++ A.flatten)).length =
        1 + s.bytes * (A ++ a :: B).length + A.flatten.length := by simp; omega
    have := copied_append (s.flags :: (putLens s 0 ((A ++ a :: B).map List.length) ++ A.flatten)) a (B.flatten ++ tail)
      _ _ hpre rfl
    simpa [layout] using this

end

theorem getBlobAttr_getD (h : StartsWith s attrs row) {i : Nat} (hi : i < attrs.length) :
    BlobRow.getBlobAttr row i attrs.length = some (attrs.getD i []) ∧
      BlobRow.getBlobAttrLen s row i = some ((attrs.getD i []).length : Int) := by
  have hsplit : attrs = attrs.take i ++ attrs.getD i [] :: attrs.drop (i + 1) := by
    rw [getD_eq_getElem _ _ hi, ← drop_eq_getElem_cons hi, take_append_drop]
  have hlen : (attrs.take i).length = i := by simp; omega
  have h' := hsplit ▸ h
  have h1 := h'.getBlobAttr
  have h2 := h'.getBlobAttrLen
  rw [← hsplit] at h1
  rw [hlen] at h1 h2
  exact ⟨h1, h2⟩

end StartsWith

theorem mapM_eq_some_map {α β : Type} {f : α → Option β} {g : α → β} : ∀ {l : List α}, (∀ i ∈ l, f i = some (g i)) →
    l.mapM f = some (l.map g)
  | [], _ => rfl
  | i :: l, h => by
    rw [mapM_cons, h i (by simp), mapM_eq_some_map (fun j hj => h j (by simp [hj]))]
    rfl

theorem map_getD_filter : ∀ (attrs : List (List UInt8)) (k : Nat),
    ((List.range attrs.length).filter (fun i => i ≠ k)).map (fun i => attrs.getD i []) = attrs.eraseIdx k
  | [], _ => rfl
  | _ :: l, 0 => by
    rw [length_cons, range_succ_eq_map, filter_cons_of_neg (by simp), filter_map, map_map]
    simpa [Function.comp_def] using Arrays.map_getD_range l _
  | _ :: l, k + 1 => by
    rw [length_cons, range_succ_eq_map, filter_cons_of_pos (by simp), filter_map, map_cons, map_map]
    simpa [Function.comp_def] using map_getD_filter l k

namespace StartsWith
variable {s : LenSize} {attrs : List (List UInt8)} {row : List UInt8}

section
variable (h : StartsWith s attrs row)
include h

theorem mapM_getBlobAttr {is : List Nat} (his : ∀ i ∈ is, i < attrs.length) :
    is.mapM (fun i => BlobRow.getBlobAttr row i attrs.length) = some (is.map (fun i => attrs.getD i [])) :=
  mapM_eq_some_map (fun i hi => (h.getBlobAttr_getD (his i hi)).1)

theorem attrLengths {is : List Nat} (his : ∀ i ∈ is, i < attrs.length) :
    attrLengths s row is = some ((is.map (fun i => attrs.getD i [])).map List.length) := by
  rw [map_map]
  refine mapM_eq_some_map (fun i hi => ?_)
  rw [(h.getBlobAttr_getD (his i hi)).2]
  have hmem : attrs.getD i [] ∈ attrs := by
    rw [getD_eq_getElem _ _ (his i hi)]; exact getElem_mem _
  have := h.lens _ hmem
  show some _ = some _
  congr 1
  show ((((attrs.getD i []).length : Int)) % 2 ^ 32).toNat = (attrs.getD i []).length
  omega

/-- **The row decodes to its attributes.** -/
theorem decodeAll : decodeAll row attrs.length = some attrs := by
  rw [BlobRow.decodeAll, h.mapM_getBlobAttr (fun i hi => mem_range.1 hi), Arrays.map_getD_range]

theorem getBlobTotalLen (hne : attrs ≠ []) (hlen : (layout s attrs).length < 2 ^ 32) :
    getBlobTotalLen row attrs.length = some (layout s attrs).length := by
  obtain ⟨A, a, rfl⟩ := (eq_nil_or_concat attrs).resolve_left hne
  rw [concat_eq_append] at h hlen ⊢
  have hlast := h.lenAt
  have hpos : 1 + s.bytes * (A ++ [a]).length - s.bytes = 1 + s.bytes * A.length := by
    rw [length_append, length_singleton, Nat.mul_succ]; omega
  have hle : s.bytes ≤ 1 + s.bytes * (A ++ [a]).length := by
    rw [length_append, length_singleton, Nat.mul_succ]; omega
  rw [BlobRow.lenAt] at hlast
  rw [BlobRow.getBlobTotalLen, h.rowFlags]
  simp only [bind_eq_bind, bind_some]
  rw [if_pos hle, hpos, hlast, bind_some]
  rw [length_layout] at hlen ⊢
  have hflat : (A ++ [a]).flatten.length = A.flatten.length + a.length := by simp
  rw [mul_comm (A ++ [a]).length, Nat.mod_eq_of_lt (by omega)]
  congr 1; omega

end

end StartsWith

end BlobRow
end Manticore

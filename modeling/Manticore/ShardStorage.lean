import Manticore.Arrays
import Manticore.Zip
/-!
# ShardStorage — the rows of a shard transaction in pools (`searchd_shard.cpp`)

A buffered row is offsets into seven pools (`ShardDocStorage_t`); `-1` is the offset of what a row does not have.
`StoreRow` puts a converted document into the pools, `RowToInsert` makes a document of a row, and `AppendShardRowCopy`
copies a row into the storage that is sent to another host.  A `char *` is the memory from the pointer on, or nothing
for a null pointer; two documents are compared by what their pointers show (`InsertDoc.view`).
-/
namespace Manticore
namespace Shard
open List
open Arrays (slice exists_of_forall₂)

/-- The attribute types a schema column may have. -/
inductive ESphAttr
  | none | integer | timestamp | bool | float | bigint | string | poly2d | stringptr | tokencount | json | double
  | uint64 | floatVector | floatVectorArray | uint32set | int64set
  deriving DecidableEq

def isShardStringAttr (t : ESphAttr) : Bool := t = .string ∨ t = .stringptr ∨ t = .json

/-- What the shard code asks a `CSphSchema`. -/
structure Schema where
  attrs         : List ESphAttr
  /-- `GetRowSize ()`, in row items of four bytes -/
  rowSize       : Nat
  /-- `GetColumnarAttrsCount ()` -/
  columnarAttrs : Nat
  /-- `GetFieldsCount ()` -/
  fields        : Nat

namespace Schema

/-- The attributes the loops over the schema do not skip. -/
def stringAttrs (s : Schema) : List ESphAttr := s.attrs.filter isShardStringAttr

def getShardStringAttrCount (s : Schema) : Nat := s.stringAttrs.length

def attrRowBytes (s : Schema) : Nat := s.rowSize * 4

end Schema

/-- The memory a `char *` points at. -/
abbrev Ptr := Option (List UInt8)

/-- `InsertDocData_c`, as far as a row has it. -/
structure InsertDoc where
  dynamic  : List UInt8
  columnar : List UInt64
  mvas     : List UInt64
  fields   : List (List UInt8)
  strings  : List Ptr

structure SpanRef where
  off : Int := -1
  len : Nat := 0
  deriving DecidableEq

structure BufferedRow where
  attrRowOff   : Int := -1
  columnarOff  : Int := -1
  mvaOff       : Int := -1
  mvaCount     : Nat := 0
  fieldRefOff  : Int := -1
  stringRefOff : Int := -1
  replace      : Bool := false
  txnOrdinal   : Int := -1
  deriving DecidableEq

structure Storage where
  attrRows   : List UInt8 := []
  columnar   : List UInt64 := []
  mvaPool    : List UInt64 := []
  fieldRefs  : List SpanRef := []
  stringRefs : List SpanRef := []
  blobPool   : List UInt8 := []
  rows       : List BufferedRow := []
  deriving DecidableEq

/-! ## Spans -/

/-- `sphCalcPackedLength ( sphUnpackPtrAttr ( p ).second )`: the bytes a packed attribute takes from its length on. -/
def packedLength (mem : List UInt8) : Nat := Zip.zippedLen (Zip.unzipIntBE mem).1 + (Zip.unzipIntBE mem).1

def storeShardBlob (pool : List UInt8) (data : Ptr) (len : Nat) : SpanRef × List UInt8 :=
  match data with
  | none     => ({}, pool)
  | some mem => if len = 0 then ({}, pool) else (⟨pool.length, len⟩, pool ++ mem.take len)

/-- The bytes before the terminating zero (`strlen`). -/
def cstr (mem : List UInt8) : List UInt8 := mem.takeWhile (· ≠ 0)

def storeShardString (pool : List UInt8) (data : Ptr) : SpanRef × List UInt8 :=
  match data with
  | none     => ({}, pool)
  | some mem => (⟨pool.length, (cstr mem).length⟩, pool ++ (cstr mem ++ [0]))

def storeShardRawSpan (pool : List UInt8) (data : Ptr) (len : Nat) (allowEmpty : Bool) : SpanRef × List UInt8 :=
  if data = none ∧ 0 < len then ({}, pool)
  else if !allowEmpty ∧ len = 0 then ({}, pool)
  else (⟨pool.length, len⟩, if 0 < len then pool ++ (data.getD []).take len else pool)

/-- A loop that stores one span after the other in the blob pool. -/
def storeEach {α : Type} (f : List UInt8 → α → SpanRef × List UInt8) : List UInt8 → List α →
    List SpanRef × List UInt8
  | pool, []      => ([], pool)
  | pool, a :: as => ((f pool a).1 :: (storeEach f (f pool a).2 as).1, (storeEach f (f pool a).2 as).2)

/-! ## `StoreRow` and `RowToInsert` -/

/-- The string attributes with their pointers; a missing entry of `m_dStrings` is a null pointer. -/
def slots (s : Schema) (strings : List Ptr) : List (ESphAttr × Ptr) :=
  s.stringAttrs.mapIdx (fun i t => (t, strings.getD i none))

def storeField (pool field : List UInt8) : SpanRef × List UInt8 := storeShardBlob pool (some field) field.length

def storeStringAttr (pool : List UInt8) : ESphAttr × Ptr → SpanRef × List UInt8
  | (.json, some mem) => storeShardBlob pool (some mem) (packedLength mem)
  | (_, p)            => storeShardString pool p

def storeRow (s : Schema) (doc : InsertDoc) (st : Storage) (replace : Bool) (txnOrdinal : Int) : Storage :=
  let fields := storeEach storeField st.blobPool doc.fields
  let strings := storeEach storeStringAttr fields.2 (slots s doc.strings)
  { attrRows := if s.attrRowBytes = 0 then st.attrRows else st.attrRows ++ doc.dynamic.take s.attrRowBytes
    columnar := st.columnar ++ doc.columnar
    mvaPool := st.mvaPool ++ doc.mvas
    fieldRefs := st.fieldRefs ++ fields.1
    stringRefs := st.stringRefs ++ strings.1
    blobPool := strings.2
    rows := st.rows ++ [{
      attrRowOff := if s.attrRowBytes = 0 then -1 else st.attrRows.length
      columnarOff := if doc.columnar.length = 0 then -1 else st.columnar.length
      mvaOff := if doc.mvas.length = 0 then -1 else st.mvaPool.length
      mvaCount := doc.mvas.length
      fieldRefOff := if s.fields = 0 then -1 else st.fieldRefs.length
      stringRefOff := if s.getShardStringAttrCount = 0 then -1 else st.stringRefs.length
      replace := replace
      txnOrdinal := txnOrdinal }] }

/-- `pBlobBase + m_iOff`, null for an absent span and for an empty pool. -/
def Storage.pointer (st : Storage) (ref : SpanRef) : Ptr :=
  if 0 ≤ ref.off ∧ st.blobPool ≠ [] then some (st.blobPool.drop ref.off.toNat) else none

def rowToInsert (s : Schema) (st : Storage) (row : BufferedRow) : InsertDoc where
  dynamic := slice st.attrRows row.attrRowOff.toNat s.attrRowBytes
  columnar := slice st.columnar row.columnarOff.toNat s.columnarAttrs
  mvas := slice st.mvaPool row.mvaOff.toNat row.mvaCount
  fields := (slice st.fieldRefs row.fieldRefOff.toNat s.fields).map
    (fun ref => ((st.pointer ref).getD []).take (if (st.pointer ref).isSome then ref.len else 0))
  strings := (slice st.stringRefs row.stringRefOff.toNat s.getShardStringAttrCount).map st.pointer

/-! ## `AppendShardRowCopy` -/

/-- `GetShardRawSpan`. -/
def Storage.rawSpan (st : Storage) (ref : SpanRef) : Ptr × Nat :=
  if ref.off < 0 then (none, 0) else (st.pointer ref, ref.len)

def copyField (src : Storage) (pool : List UInt8) (ref : SpanRef) : SpanRef × List UInt8 :=
  storeShardRawSpan pool (src.rawSpan ref).1 (src.rawSpan ref).2 false

def copyStringAttr (src : Storage) (pool : List UInt8) : ESphAttr × SpanRef → SpanRef × List UInt8
  | (.json, ref) => storeShardRawSpan pool (src.rawSpan ref).1 (src.rawSpan ref).2 true
  | (_, ref)     => storeShardString pool (src.rawSpan ref).1

def appendShardRowCopy (s : Schema) (src : Storage) (row : BufferedRow) (dst : Storage) (txnOrdinal : Int) : Storage :=
  let fields := storeEach (copyField src) dst.blobPool (slice src.fieldRefs row.fieldRefOff.toNat s.fields)
  let strings := storeEach (copyStringAttr src) fields.2
    (s.stringAttrs.zip (slice src.stringRefs row.stringRefOff.toNat s.getShardStringAttrCount))
  { attrRows := dst.attrRows ++ slice src.attrRows row.attrRowOff.toNat s.attrRowBytes
    columnar := dst.columnar ++ slice src.columnar row.columnarOff.toNat s.columnarAttrs
    mvaPool := dst.mvaPool ++ slice src.mvaPool row.mvaOff.toNat row.mvaCount
    fieldRefs := dst.fieldRefs ++ fields.1
    stringRefs := dst.stringRefs ++ strings.1
    blobPool := strings.2
    rows := dst.rows ++ [{
      attrRowOff := if s.attrRowBytes = 0 then -1 else dst.attrRows.length
      columnarOff := if s.columnarAttrs = 0 then -1 else dst.columnar.length
      mvaOff := if row.mvaCount = 0 then -1 else dst.mvaPool.length
      mvaCount := row.mvaCount
      fieldRefOff := if s.fields = 0 then -1 else dst.fieldRefs.length
      stringRefOff := if s.getShardStringAttrCount = 0 then -1 else dst.stringRefs.length
      replace := row.replace
      txnOrdinal := txnOrdinal }] }

/-! ## What a document shows -/

/-- What a string attribute's pointer shows: a packed JSON with its length, any other string up to its zero. -/
def strView (t : ESphAttr) : Ptr → Option (List UInt8)
  | none     => none
  | some mem => some (if t = .json then mem.take (packedLength mem) else cstr mem)

structure View where
  dynamic  : List UInt8
  columnar : List UInt64
  mvas     : List UInt64
  fields   : List (List UInt8)
  strings  : List (Option (List UInt8))
  deriving DecidableEq

def InsertDoc.view (s : Schema) (doc : InsertDoc) : View where
  dynamic := doc.dynamic
  columnar := doc.columnar
  mvas := doc.mvas
  fields := doc.fields
  strings := (slots s doc.strings).map (fun x => strView x.1 x.2)

/-- Memory that holds a value of the type: a zero-terminated string, or a JSON behind its packed length. -/
def Points (t : ESphAttr) (mem : List UInt8) : Prop :=
  if t = .json then ∃ payload rest, mem = Zip.zipBE payload.length ++ payload ++ rest ∧ payload.length < 2 ^ 31
  else 0 ∈ mem

/-- A document a converter made for a table of the schema. -/
structure SourceDoc (s : Schema) where
  doc      : InsertDoc
  replace  : Bool
  dynamic  : doc.dynamic.length = s.attrRowBytes
  columnar : doc.columnar.length = s.columnarAttrs
  fields   : doc.fields.length = s.fields
  strings  : ∀ x ∈ slots s doc.strings, ∀ mem, x.2 = some mem → Points x.1 mem

/-! ## Places in a pool -/

/-- The pool has `l` at `off`. -/
def SpanAt {α : Type} (pool : List α) (off : Int) (l : List α) : Prop :=
  ∃ pre post, pool = pre ++ (l ++ post) ∧ off = pre.length

/-- A span of `n` entries; nothing is said of the place of an empty one. -/
def SliceAt {α : Type} (pool : List α) (off : Int) (n : Nat) (l : List α) : Prop :=
  l.length = n ∧ (l = [] ∨ SpanAt pool off l)

variable {α : Type} {pool l : List α} {off : Int}

theorem SpanAt.nonneg (h : SpanAt pool off l) : 0 ≤ off := by
  obtain ⟨pre, post, -, rfl⟩ := h
  exact Int.natCast_nonneg _

theorem SpanAt.drop (h : SpanAt pool off l) : ∃ post, pool.drop off.toNat = l ++ post := by
  obtain ⟨pre, post, rfl, rfl⟩ := h
  exact ⟨post, by rw [Int.toNat_natCast, drop_left]⟩

theorem SpanAt.mono {pool' : List α} (h : SpanAt pool off l) (hp : pool <+: pool') : SpanAt pool' off l := by
  obtain ⟨pre, post, rfl, rfl⟩ := h
  obtain ⟨more, rfl⟩ := hp
  exact ⟨pre, post ++ more, by simp only [append_assoc], rfl⟩

theorem SpanAt.end (pool l : List α) : SpanAt (pool ++ l) pool.length l := ⟨pool, [], by rw [append_nil], rfl⟩

variable {n : Nat}

theorem SliceAt.mono {pool' : List α} (h : SliceAt pool off n l) (hp : pool <+: pool') :
    SliceAt pool' off n l := ⟨h.1, h.2.imp id (fun hs => hs.mono hp)⟩

theorem SliceAt.slice_eq (h : SliceAt pool off n l) : slice pool off.toNat n = l := by
  obtain ⟨rfl, rfl | hs⟩ := h
  · rfl
  · obtain ⟨post, hd⟩ := hs.drop
    rw [slice, hd, take_left]

/-- What was put at the end of a pool is found where the row says, also when there was nothing to put. -/
theorem SliceAt.end (pool l : List α) (hl : l.length = n) :
    SliceAt (pool ++ l) (if n = 0 then -1 else pool.length) n l := by
  refine ⟨hl, ?_⟩
  by_cases hn : n = 0
  · exact Or.inl (eq_nil_of_length_eq_zero (hl.trans hn))
  · rw [if_neg hn]
    exact Or.inr (SpanAt.end pool l)

/-- **A storing loop**: it only appends to the pool, and a relation each of its steps establishes, and a longer pool
keeps, holds for every span at the end. -/
theorem storeEach_spec {f : List UInt8 → α → SpanRef × List UInt8} {R : List UInt8 → SpanRef → α → Prop}
    (mono : ∀ {pool pool' r a}, R pool r a → pool <+: pool' → R pool' r a) :
    ∀ (l : List α) (pool : List UInt8), (∀ a ∈ l, ∀ p, p <+: (f p a).2 ∧ R (f p a).2 (f p a).1 a) →
      pool <+: (storeEach f pool l).2 ∧ List.Forall₂ (R (storeEach f pool l).2) (storeEach f pool l).1 l
  | [], pool, _ => ⟨prefix_rfl, List.Forall₂.nil⟩
  | a :: l, pool, h => by
    obtain ⟨hp, hr⟩ := h a mem_cons_self pool
    obtain ⟨hp', hrs⟩ := storeEach_spec (f := f) (R := R) mono l (f pool a).2 (fun b hb => h b (mem_cons_of_mem a hb))
    exact ⟨hp.trans hp', List.Forall₂.cons (mono hr hp') hrs⟩

/-! ## Values behind a pointer -/

/-- The bytes a string attribute's value takes in the blob pool. -/
def image (t : ESphAttr) (v : List UInt8) : List UInt8 := if t = .json then v else v ++ [0]

/-- A value of the type: it ends where its reader stops, whatever follows. -/
def IsValue (t : ESphAttr) (v : List UInt8) : Prop :=
  if t = .json then v ≠ [] ∧ ∀ rest, packedLength (v ++ rest) = v.length else 0 ∉ v

variable {v : List UInt8}

theorem cstr_append_zero (h : 0 ∉ v) (rest : List UInt8) : cstr (v ++ 0 :: rest) = v := by
  have hall : ∀ b ∈ v, decide (b ≠ 0) = true := by
    intro b hb
    rw [decide_eq_true_iff]
    rintro rfl
    exact h hb
  rw [cstr, takeWhile_append_of_pos hall]
  simp

theorem packedLength_packed {payload : List UInt8} (h : payload.length < 2 ^ 31) (rest : List UInt8) :
    packedLength (Zip.zipBE payload.length ++ payload ++ rest) = (Zip.zipBE payload.length ++ payload).length := by
  rw [packedLength, append_assoc, Zip.unzipIntBE_zipBE _ (by omega), length_append, Zip.length_zipBE]

variable {st : Storage} {t : ESphAttr}

theorem image_ne_nil (h : IsValue t v) : image t v ≠ [] := by
  unfold IsValue at h
  unfold image
  by_cases ht : t = .json
  · rw [if_pos ht] at h ⊢
    exact h.1
  · rw [if_neg ht]
    exact append_ne_nil_of_right_ne_nil _ (cons_ne_nil _ _)

/-- **A pointer at a stored value shows the value.** -/
theorem strView_image (h : IsValue t v) (rest : List UInt8) :
    strView t (some (image t v ++ rest)) = some v := by
  unfold IsValue at h
  unfold image strView
  by_cases ht : t = .json
  · rw [if_pos ht] at h
    simp only [if_pos ht]
    rw [h.2 rest, take_left]
  · rw [if_neg ht] at h
    simp only [if_neg ht]
    rw [append_assoc]
    exact congrArg some (cstr_append_zero h rest)

/-- **What a converter's pointer shows is a value.** -/
theorem isValue_of_points {mem : List UInt8} (h : Points t mem) : ∃ v, strView t (some mem) = some v ∧ IsValue t v := by
  unfold Points at h
  unfold strView IsValue
  by_cases ht : t = .json
  · rw [if_pos ht] at h
    obtain ⟨payload, rest, rfl, hlen⟩ := h
    simp only [if_pos ht]
    refine ⟨_, rfl, ?_⟩
    rw [packedLength_packed hlen, take_left]
    refine ⟨fun hnil => ?_, packedLength_packed hlen⟩
    have hpos := Zip.length_zipBE_pos payload.length
    have hzero := congrArg List.length hnil
    rw [length_append, length_nil] at hzero
    omega
  · simp only [if_neg ht]
    exact ⟨_, rfl, fun hm => by simpa using mem_takeWhile_imp hm⟩

/-! ## Rows that hold a document -/

/-- The span of a field: an empty field has none. -/
def FieldAt (pool : List UInt8) (ref : SpanRef) (field : List UInt8) : Prop :=
  (field = [] ∧ ref = {}) ∨ (field ≠ [] ∧ SpanAt pool ref.off field ∧ ref.len = field.length)

/-- The span of a string attribute: an absent one has none. -/
def StringAt (pool : List UInt8) (t : ESphAttr) (ref : SpanRef) : Option (List UInt8) → Prop
  | none   => ref = {}
  | some v => SpanAt pool ref.off (image t v) ∧ IsValue t v ∧ ref.len = v.length

/-- The span of a copied string attribute: an absent JSON gets an empty span at a real offset. -/
def CopiedAt (pool : List UInt8) (t : ESphAttr) (ref : SpanRef) (v : Option (List UInt8)) : Prop :=
  if t = .json ∧ v = none then ref.len = 0 ∧ SpanAt pool ref.off [] else StringAt pool t ref v

/-- A row from which the pools give the document, its string attributes in the sense of `At`. -/
structure Holds (At : List UInt8 → ESphAttr → SpanRef → Option (List UInt8) → Prop) (s : Schema) (st : Storage)
    (row : BufferedRow) (d : SourceDoc s) : Prop where
  replace  : row.replace = d.replace
  dynamic  : SliceAt st.attrRows row.attrRowOff s.attrRowBytes d.doc.dynamic
  columnar : SliceAt st.columnar row.columnarOff s.columnarAttrs d.doc.columnar
  mvas     : SliceAt st.mvaPool row.mvaOff row.mvaCount d.doc.mvas
  fields   : ∃ refs, SliceAt st.fieldRefs row.fieldRefOff s.fields refs ∧
    List.Forall₂ (FieldAt st.blobPool) refs d.doc.fields
  strings  : ∃ refs, SliceAt st.stringRefs row.stringRefOff s.getShardStringAttrCount refs ∧
    List.Forall₂ (fun ref x => At st.blobPool x.1 ref (strView x.1 x.2)) refs (slots s d.doc.strings)

/-- Every pool of the second storage continues that of the first. -/
structure Extends (st st' : Storage) : Prop where
  attrRows   : st.attrRows <+: st'.attrRows
  columnar   : st.columnar <+: st'.columnar
  mvaPool    : st.mvaPool <+: st'.mvaPool
  fieldRefs  : st.fieldRefs <+: st'.fieldRefs
  stringRefs : st.stringRefs <+: st'.stringRefs
  blobPool   : st.blobPool <+: st'.blobPool

variable {ref : SpanRef} {pool' pool : List UInt8}

theorem FieldAt.mono {field : List UInt8} (h : FieldAt pool ref field)
    (hp : pool <+: pool') : FieldAt pool' ref field := by
  rcases h with h | ⟨hne, hs, hlen⟩
  · exact Or.inl h
  · exact Or.inr ⟨hne, hs.mono hp, hlen⟩

variable {v : Option (List UInt8)}

theorem StringAt.mono (h : StringAt pool t ref v) (hp : pool <+: pool') : StringAt pool' t ref v := by
  cases v with
  | none => exact h
  | some v => exact ⟨h.1.mono hp, h.2⟩

theorem CopiedAt.mono (h : CopiedAt pool t ref v) (hp : pool <+: pool') : CopiedAt pool' t ref v := by
  unfold CopiedAt at h ⊢
  by_cases hc : t = .json ∧ v = none
  · rw [if_pos hc] at h ⊢
    exact ⟨h.1, h.2.mono hp⟩
  · rw [if_neg hc] at h ⊢
    exact h.mono hp

variable {At : List UInt8 → ESphAttr → SpanRef → Option (List UInt8) → Prop}

theorem Holds.mono {s : Schema} {st' : Storage} {row : BufferedRow} {d : SourceDoc s} (h : Holds At s st row d)
    (hAt : ∀ pool pool' t ref v, At pool t ref v → pool <+: pool' → At pool' t ref v) (he : Extends st st') :
    Holds At s st' row d := by
  obtain ⟨frefs, hf, hfs⟩ := h.fields
  obtain ⟨srefs, hs, hss⟩ := h.strings
  exact {
    replace := h.replace
    dynamic := h.dynamic.mono he.attrRows
    columnar := h.columnar.mono he.columnar
    mvas := h.mvas.mono he.mvaPool
    fields := ⟨frefs, hf.mono he.fieldRefs, hfs.imp (fun _ _ hr => hr.mono he.blobPool)⟩
    strings := ⟨srefs, hs.mono he.stringRefs, hss.imp (fun _ _ hr => hAt _ _ _ _ _ hr he.blobPool)⟩ }

/-! ## Storing -/

theorem storeField_spec (pool field : List UInt8) :
    pool <+: (storeField pool field).2 ∧ FieldAt (storeField pool field).2 (storeField pool field).1 field := by
  unfold storeField storeShardBlob
  by_cases hf : field = []
  · subst hf
    exact ⟨prefix_rfl, Or.inl ⟨rfl, rfl⟩⟩
  · simp only [if_neg (mt eq_nil_of_length_eq_zero hf), take_length]
    exact ⟨prefix_append _ _, Or.inr ⟨hf, SpanAt.end _ _, rfl⟩⟩

theorem storeShardString_spec (pool : List UInt8) (ht : t ≠ .json) {p : Ptr} (hv : ∀ v, strView t p = some v → IsValue t v) :
    pool <+: (storeShardString pool p).2 ∧
      StringAt (storeShardString pool p).2 t (storeShardString pool p).1 (strView t p) := by
  cases p with
  | none => exact ⟨prefix_rfl, rfl⟩
  | some mem =>
    have hview : strView t (some mem) = some (cstr mem) := by simp only [strView, if_neg ht]
    refine ⟨prefix_append _ _, ?_⟩
    rw [hview]
    refine ⟨?_, hv _ hview, rfl⟩
    rw [image, if_neg ht]
    exact SpanAt.end pool (cstr mem ++ [0])

theorem storeStringAttr_spec (pool : List UInt8) {x : ESphAttr × Ptr} (hx : ∀ mem, x.2 = some mem → Points x.1 mem) :
    pool <+: (storeStringAttr pool x).2 ∧
      StringAt (storeStringAttr pool x).2 x.1 (storeStringAttr pool x).1 (strView x.1 x.2) := by
  obtain ⟨t, p⟩ := x
  have hv : ∀ v, strView t p = some v → IsValue t v := by
    intro v hv
    cases p with
    | none => cases hv
    | some mem =>
      obtain ⟨v', hv', hval⟩ := isValue_of_points (hx mem rfl)
      rw [hv] at hv'
      cases hv'
      exact hval
  by_cases ht : t = .json
  · subst ht
    cases p with
    | none => exact ⟨prefix_rfl, rfl⟩
    | some mem =>
      obtain ⟨payload, rest, rfl, hlen⟩ := hx mem rfl
      have hview : strView .json (some (Zip.zipBE payload.length ++ payload ++ rest)) =
          some (Zip.zipBE payload.length ++ payload) := by
        simp only [strView, if_true]
        rw [packedLength_packed hlen, take_left]
      have hval := hv _ hview
      have hpos : (Zip.zipBE payload.length ++ payload).length ≠ 0 := by
        intro h0
        exact image_ne_nil hval (by simp only [image, if_true]; exact eq_nil_of_length_eq_zero h0)
      simp only [storeStringAttr, storeShardBlob, hview]
      rw [packedLength_packed hlen, if_neg hpos, take_left]
      exact ⟨prefix_append _ _, SpanAt.end _ _, hval, rfl⟩
  · have hstore : storeStringAttr pool (t, p) = storeShardString pool p := by
      cases t <;> first | exact absurd rfl ht | rfl
    rw [hstore]
    exact storeShardString_spec pool ht hv

theorem length_slots (s : Schema) (strings : List Ptr) : (slots s strings).length = s.getShardStringAttrCount := by
  rw [slots, length_mapIdx, Schema.getShardStringAttrCount]

/-- The place of the `n` entries that come next in a pool. -/
def endOffset {α : Type} (pool : List α) (n : Nat) : Int := if n = 0 then -1 else pool.length

/-- The row that goes behind the rows of a storage. -/
def nextRow (s : Schema) (st : Storage) (d : SourceDoc s) (ord : Int) : BufferedRow where
  attrRowOff := endOffset st.attrRows s.attrRowBytes
  columnarOff := endOffset st.columnar s.columnarAttrs
  mvaOff := endOffset st.mvaPool d.doc.mvas.length
  mvaCount := d.doc.mvas.length
  fieldRefOff := endOffset st.fieldRefs s.fields
  stringRefOff := endOffset st.stringRefs s.getShardStringAttrCount
  replace := d.replace
  txnOrdinal := ord

/-- The second storage is the first with one more row, whose document went to the end of every pool. -/
structure Appends (At : List UInt8 → ESphAttr → SpanRef → Option (List UInt8) → Prop) (s : Schema) (st st' : Storage)
    (d : SourceDoc s) (ord : Int) : Prop where
  attrRows   : st'.attrRows = st.attrRows ++ d.doc.dynamic
  columnar   : st'.columnar = st.columnar ++ d.doc.columnar
  mvaPool    : st'.mvaPool = st.mvaPool ++ d.doc.mvas
  fieldRefs  : ∃ refs, st'.fieldRefs = st.fieldRefs ++ refs ∧ List.Forall₂ (FieldAt st'.blobPool) refs d.doc.fields
  stringRefs : ∃ refs, st'.stringRefs = st.stringRefs ++ refs ∧
    List.Forall₂ (fun ref x => At st'.blobPool x.1 ref (strView x.1 x.2)) refs (slots s d.doc.strings)
  blobPool   : st.blobPool <+: st'.blobPool
  rows       : st'.rows = st.rows ++ [nextRow s st d ord]

section
variable {s : Schema} {st' : Storage}
  {d : SourceDoc s} {ord : Int}

theorem Appends.extends (h : Appends At s st st' d ord) : Extends st st' := by
  obtain ⟨frefs, hf, -⟩ := h.fieldRefs
  obtain ⟨srefs, hs, -⟩ := h.stringRefs
  exact ⟨⟨_, h.attrRows.symm⟩, ⟨_, h.columnar.symm⟩, ⟨_, h.mvaPool.symm⟩, ⟨_, hf.symm⟩, ⟨_, hs.symm⟩, h.blobPool⟩

theorem Appends.holds (h : Appends At s st st' d ord) : Holds At s st' (nextRow s st d ord) d := by
  obtain ⟨frefs, hf, hfs⟩ := h.fieldRefs
  obtain ⟨srefs, hs, hss⟩ := h.stringRefs
  refine ⟨rfl, ?_, ?_, ?_, ⟨frefs, ?_, hfs⟩, ⟨srefs, ?_, hss⟩⟩
  · rw [h.attrRows]
    exact SliceAt.end _ _ d.dynamic
  · rw [h.columnar]
    exact SliceAt.end _ _ d.columnar
  · rw [h.mvaPool]
    exact SliceAt.end _ _ rfl
  · rw [hf]
    exact SliceAt.end _ _ (hfs.length_eq.trans d.fields)
  · rw [hs]
    exact SliceAt.end _ _ (hss.length_eq.trans (length_slots s _))

end

/-- **`StoreRow` puts the document at the end of every pool.** -/
theorem storeRow_appends (s : Schema) (d : SourceDoc s) (st : Storage) (ord : Int) :
    Appends StringAt s st (storeRow s d.doc st d.replace ord) d ord := by
  obtain ⟨hfp, hfs⟩ := storeEach_spec (f := storeField) (R := FieldAt) FieldAt.mono d.doc.fields st.blobPool
    (fun field _ p => storeField_spec p field)
  obtain ⟨hsp, hss⟩ := storeEach_spec (f := storeStringAttr)
    (R := fun pool ref x => StringAt pool x.1 ref (strView x.1 x.2)) StringAt.mono (slots s d.doc.strings)
    (storeEach storeField st.blobPool d.doc.fields).2 (fun x hx p => storeStringAttr_spec p (d.strings x hx))
  refine ⟨?_, rfl, rfl, ⟨_, rfl, hfs.imp (fun _ _ hr => hr.mono hsp)⟩, ⟨_, rfl, hss⟩, hfp.trans hsp, ?_⟩
  · show (if s.attrRowBytes = 0 then st.attrRows else st.attrRows ++ d.doc.dynamic.take s.attrRowBytes) = _
    rw [← d.dynamic, take_length]
    split
    · rename_i h0
      rw [eq_nil_of_length_eq_zero h0, append_nil]
    · rfl
  · simp only [storeRow, nextRow, endOffset, d.columnar]

/-- The transaction's storage after its rows were stored, each with its place in the transaction. -/
def storeRows (s : Schema) (docs : List (SourceDoc s × Int)) : Storage :=
  docs.foldl (fun st d => storeRow s d.1.doc st d.1.replace d.2) {}

/-- **Every stored row holds its document**, whatever is stored after it. -/
theorem storeRows_holds (s : Schema) (docs : List (SourceDoc s × Int)) :
    List.Forall₂ (Holds StringAt s (storeRows s docs)) (storeRows s docs).rows (docs.map Prod.fst) := by
  unfold storeRows
  induction docs using List.reverseRecOn with
  | nil => exact List.Forall₂.nil
  | append_singleton docs d ih =>
    rw [foldl_append, foldl_cons, foldl_nil, map_append]
    have h := storeRow_appends s d.1 (docs.foldl (fun st d => storeRow s d.1.doc st d.1.replace d.2) {}) d.2
    rw [h.rows]
    refine rel_append (ih.imp ?_) (List.Forall₂.cons h.holds List.Forall₂.nil)
    intro row e hr
    exact hr.mono (fun _ _ _ _ _ => StringAt.mono) h.extends

/-! ## Reading a row -/

theorem pointer_of_span {l : List UInt8} (h : SpanAt st.blobPool ref.off l) (hl : l ≠ []) :
    ∃ post, st.pointer ref = some (l ++ post) := by
  obtain ⟨post, hd⟩ := h.drop
  have hne : st.blobPool ≠ [] := by
    intro h0
    rw [h0, drop_nil] at hd
    exact hl (append_eq_nil_iff.1 hd.symm).1
  exact ⟨post, by rw [Storage.pointer, if_pos ⟨h.nonneg, hne⟩, hd]⟩

theorem pointer_empty (st : Storage) : st.pointer {} = none := by
  rw [Storage.pointer, if_neg (fun h => absurd h.1 (by decide))]

theorem field_of_fieldAt {field : List UInt8} (h : FieldAt st.blobPool ref field) :
    ((st.pointer ref).getD []).take (if (st.pointer ref).isSome then ref.len else 0) = field := by
  rcases h with ⟨rfl, rfl⟩ | ⟨hne, hs, hlen⟩
  · rfl
  · obtain ⟨post, hp⟩ := pointer_of_span hs hne
    rw [hp, hlen]
    simp only [Option.getD_some, Option.isSome_some, if_true, take_left]

theorem fields_of_fieldAt {refs : List SpanRef} {fields : List (List UInt8)}
    (h : List.Forall₂ (FieldAt st.blobPool) refs fields) :
    refs.map (fun ref => ((st.pointer ref).getD []).take (if (st.pointer ref).isSome then ref.len else 0)) = fields := by
  induction h with
  | nil => rfl
  | cons hr _ ih => rw [map_cons, field_of_fieldAt hr, ih]

theorem strView_of_stringAt (h : StringAt st.blobPool t ref v) : strView t (st.pointer ref) = v := by
  cases v with
  | none =>
    have hr : ref = {} := h
    rw [hr, pointer_empty]
    rfl
  | some v =>
    obtain ⟨hs, hval, -⟩ := h
    obtain ⟨post, hp⟩ := pointer_of_span hs (image_ne_nil hval)
    rw [hp, strView_image hval]

/-- The string attributes of a row, as its pointers show them. -/
def stringsShown (s : Schema) (st : Storage) (refs : List SpanRef) : List (Option (List UInt8)) :=
  List.zipWith (fun t ref => strView t (st.pointer ref)) s.stringAttrs refs

theorem view_rowToInsert {s : Schema} {row : BufferedRow}
    {d : SourceDoc s} (h : Holds At s st row d) {refs : List SpanRef}
    (hs : SliceAt st.stringRefs row.stringRefOff s.getShardStringAttrCount refs) :
    (rowToInsert s st row).view s = { d.doc.view s with strings := stringsShown s st refs } := by
  obtain ⟨frefs, hf, hfs⟩ := h.fields
  have hstrings : (slots s (refs.map st.pointer)).map (fun x => strView x.1 x.2) = stringsShown s st refs := by
    refine ext_getElem ?_ (fun i h1 h2 => ?_)
    · rw [length_map, length_slots, stringsShown, length_zipWith, hs.1, Schema.getShardStringAttrCount,
        min_self]
    · have hi : i < refs.length := by
        rw [length_map, length_slots, ← hs.1] at h1
        exact h1
      simp [slots, stringsShown, hi]
  simp only [InsertDoc.view, rowToInsert, h.dynamic.slice_eq, h.columnar.slice_eq, h.mvas.slice_eq, hf.slice_eq,
    hs.slice_eq, fields_of_fieldAt hfs, hstrings]

end Shard
end Manticore

import Manticore.ShardStorage
import Manticore.Wire
/-!
# ShardBatch — a shard transaction on another host (`searchd_shard.cpp`)

`BuildShardRemoteBatch` copies the rows a target's operations name into a fresh storage, `SendShardWriteStorage` and
`ReceiveShardWriteStorage` carry it over; the offsets of a row are not sent, the receiver takes them from the row's number.
The copy gives an absent JSON an empty span at the end of the blob pool and not the offset `-1`: the documents on both
sides are the same exactly when no JSON is absent, or no copied row has any blob at all (`remote_sameDoc_iff`).
-/
namespace Manticore
namespace Shard
open List
open Arrays (exists_of_forall₂)

inductive ShardTxnOp
  | rowWrite | docDelete | queryDelete
  deriving DecidableEq

structure BatchOp where
  op    : ShardTxnOp
  data  : Nat
  count : Nat

/-- What is sent to the target; `P` are the predicates of `DELETE ... WHERE`, which are only copied. -/
structure Batch (P : Type) where
  storage          : Storage := {}
  deleteDocids     : List UInt64 := []
  deletePredicates : List P := []
  ops              : List BatchOp := []

variable {P : Type}

section
/-- The body of the loop over the target's operations. -/
def buildOp (s : Schema) (src : Storage) (docids : List UInt64) (preds : List P) (b : Batch P) (op : BatchOp) :
    Batch P :=
  match op.op with
  | .rowWrite =>
    { b with
      storage := appendShardRowCopy s src (src.rows.getD op.data {}) b.storage b.storage.rows.length
      ops := b.ops ++ [{ op with data := b.storage.rows.length }] }
  | .docDelete =>
    { b with
      deleteDocids := b.deleteDocids ++ (docids.drop op.data).take op.count
      ops := b.ops ++ [{ op with data := b.deleteDocids.length }] }
  | .queryDelete =>
    { b with
      deletePredicates := b.deletePredicates ++ preds[op.data]?.toList
      ops := b.ops ++ [{ op with data := b.deletePredicates.length }] }

def buildShardRemoteBatch (s : Schema) (src : Storage) (docids : List UInt64) (preds : List P) (ops : List BatchOp) :
    Batch P := ops.foldl (buildOp s src docids preds) {}

end

/-! ## Sending and receiving -/

open Wire

def sendShardArray {α : Type} (put : α → List UInt8) (l : List α) : List UInt8 := sendInt l.length ++ l.flatMap put

/-- The entries of `size` bytes. -/
def unpackEach {α : Type} (size : Nat) (get : List UInt8 → α) : Nat → List UInt8 → List α
  | 0,     _  => []
  | n + 1, bs => get (bs.take size) :: unpackEach size get n (bs.drop size)

def receiveShardArray {α : Type} (limit size : Nat) (get : List UInt8 → α) : Parser (List α) := do
  let count ← getInt limit
  if count = 0 then pure []
  else
    let raw ← getBytes limit (count * size)
    pure (unpackEach size get count.toNat raw)

def sendSpanRef (ref : SpanRef) : List UInt8 := sendInt ref.off ++ sendInt ref.len

def sendShardSpanRefs (refs : List SpanRef) : List UInt8 := sendInt refs.length ++ refs.flatMap sendSpanRef

def receiveSpanRef (limit : Nat) : Parser SpanRef := do
  let off ← getInt limit
  let len ← getInt limit
  pure ⟨off, len.toNat⟩

def receiveShardSpanRefs (limit : Nat) : Parser (List SpanRef) := do
  let count ← getInt limit
  if count = 0 then pure []
  else eachOf (fun _ => receiveSpanRef limit) (List.range count.toNat)

def putU64 (v : UInt64) : List UInt8 := putLE 8 v.toNat
def getU64 (bs : List UInt8) : UInt64 := UInt64.ofNat (valLE bs)

def sendRow (row : BufferedRow) : List UInt8 :=
  sendInt row.mvaOff ++ (sendInt row.mvaCount ++ [if row.replace then 1 else 0])

def sendShardWriteStorage (st : Storage) : List UInt8 :=
  sendInt st.rows.length ++ (sendShardArray (fun b => [b]) st.attrRows ++ (sendShardArray putU64 st.columnar ++
    (sendShardArray putU64 st.mvaPool ++ (sendShardSpanRefs st.fieldRefs ++ (sendShardSpanRefs st.stringRefs ++
      (sendShardArray (fun b => [b]) st.blobPool ++ st.rows.flatMap sendRow))))))

/-- The offset of row `i` in a pool that has `size` entries a row. -/
def rowOffset (i size : Nat) : Int := if size = 0 then -1 else ((i * size : Nat) : Int)

/-- A row with the offsets its number gives. -/
def rowNumbered (s : Schema) (i : Nat) (mvaOff : Int) (mvaCount : Nat) (replace : Bool) : BufferedRow where
  attrRowOff := rowOffset i s.attrRowBytes
  columnarOff := rowOffset i s.columnarAttrs
  mvaOff := mvaOff
  mvaCount := mvaCount
  fieldRefOff := rowOffset i s.fields
  stringRefOff := rowOffset i s.getShardStringAttrCount
  replace := replace
  txnOrdinal := i

def receiveRow (limit : Nat) (s : Schema) (i : Nat) : Parser BufferedRow := do
  let mvaOff ← getInt limit
  let mvaCount ← getInt limit
  let replace ← getByte limit
  pure (rowNumbered s i mvaOff mvaCount.toNat (replace != 0))

def receiveShardWriteStorage (limit : Nat) (s : Schema) : Parser Storage := do
  let rows ← getInt limit
  if rows < 0 then failure
  else
    let attrRows ← receiveShardArray limit 1 (fun bs => bs.headD 0)
    let columnar ← receiveShardArray limit 8 getU64
    let mvaPool ← receiveShardArray limit 8 getU64
    let fieldRefs ← receiveShardSpanRefs limit
    let stringRefs ← receiveShardSpanRefs limit
    let blobPool ← receiveShardArray limit 1 (fun bs => bs.headD 0)
    let rs ← eachOf (receiveRow limit s) (List.range rows.toNat)
    pure ⟨attrRows, columnar, mvaPool, fieldRefs, stringRefs, blobPool, rs⟩

/-! ## A copied row -/

theorem rawSpan_empty (st : Storage) : st.rawSpan {} = (none, 0) := by
  rw [Storage.rawSpan, if_pos (by decide)]

variable {s : Schema} {st : Storage} {ref : SpanRef} {α : Type} {row : BufferedRow}

theorem rawSpan_of_span {l : List UInt8} (h : SpanAt st.blobPool ref.off l) (hl : l ≠ []) :
    ∃ post, st.rawSpan ref = (some (l ++ post), ref.len) := by
  obtain ⟨post, hp⟩ := pointer_of_span h hl
  exact ⟨post, by rw [Storage.rawSpan, if_neg (not_lt.2 h.nonneg), hp]⟩

theorem storeShardRawSpan_some (pool l post : List UInt8) (hl : l ≠ []) (allowEmpty : Bool) :
    storeShardRawSpan pool (some (l ++ post)) l.length allowEmpty = (⟨pool.length, l.length⟩, pool ++ l) := by
  have hpos : 0 < l.length := length_pos_iff.2 hl
  unfold storeShardRawSpan
  rw [if_neg (fun h => by cases h.1), if_neg (fun h => absurd h.2 (Nat.ne_of_gt hpos)), if_pos hpos, Option.getD_some,
    take_left]

theorem prefix_storeShardRawSpan (pool : List UInt8) (data : Ptr) (len : Nat) (allowEmpty : Bool) :
    pool <+: (storeShardRawSpan pool data len allowEmpty).2 := by
  unfold storeShardRawSpan
  split
  · exact prefix_rfl
  · split
    · exact prefix_rfl
    · split
      · exact prefix_append _ _
      · exact prefix_rfl

theorem prefix_storeShardString (pool : List UInt8) (data : Ptr) : pool <+: (storeShardString pool data).2 := by
  cases data with
  | none => exact prefix_rfl
  | some mem => exact prefix_append _ _

section
variable (src : Storage) (pool : List UInt8)
include src pool

theorem prefix_copyStringAttr (x : ESphAttr × SpanRef) :
    pool <+: (copyStringAttr src pool x).2 := by
  unfold copyStringAttr
  split
  · exact prefix_storeShardRawSpan _ _ _ _
  · exact prefix_storeShardString _ _

theorem copyField_spec (ref : SpanRef) {field : List UInt8}
    (h : FieldAt src.blobPool ref field) :
    FieldAt (copyField src pool ref).2 (copyField src pool ref).1 field := by
  rcases h with ⟨rfl, rfl⟩ | ⟨hne, hs, hlen⟩
  · exact Or.inl ⟨rfl, rfl⟩
  · obtain ⟨post, hr⟩ := rawSpan_of_span hs hne
    rw [copyField, hr, hlen, storeShardRawSpan_some _ _ _ hne]
    exact Or.inr ⟨hne, SpanAt.end _ _, rfl⟩

theorem copyStringAttr_spec (t : ESphAttr) (ref : SpanRef)
    {v : Option (List UInt8)} (h : StringAt src.blobPool t ref v) :
    CopiedAt (copyStringAttr src pool (t, ref)).2 t (copyStringAttr src pool (t, ref)).1 v := by
  by_cases ht : t = .json
  · subst ht
    cases v with
    | none =>
      -- the empty span is stored, not refused
      have hr : ref = {} := h
      have hc : copyStringAttr src pool (.json, ref) = (⟨pool.length, 0⟩, pool) := by
        rw [hr]
        rfl
      rw [hc, CopiedAt, if_pos ⟨rfl, rfl⟩]
      exact ⟨rfl, pool, [], by simp, rfl⟩
    | some v =>
      obtain ⟨hs, hval, hlen⟩ := h
      have hv : v ≠ [] := by simpa [image] using image_ne_nil hval
      obtain ⟨post, hr⟩ := rawSpan_of_span hs (image_ne_nil hval)
      have hc : copyStringAttr src pool (.json, ref) = (⟨pool.length, v.length⟩, pool ++ v) := by
        simp only [copyStringAttr, hr, hlen, image, if_true]
        exact storeShardRawSpan_some pool v post hv true
      rw [hc, CopiedAt, if_neg (fun h => by cases h.2)]
      exact ⟨SpanAt.end _ _, hval, rfl⟩
  · have hc : copyStringAttr src pool (t, ref) = storeShardString pool (src.rawSpan ref).1 := by
      cases t <;> first | exact absurd rfl ht | rfl
    have hview : strView t (src.rawSpan ref).1 = v := by
      cases v with
      | none =>
        have hr : ref = {} := h
        rw [hr, rawSpan_empty]
        rfl
      | some v =>
        obtain ⟨post, hr⟩ := rawSpan_of_span h.1 (image_ne_nil h.2.1)
        rw [hr, strView_image h.2.1]
    have hval : ∀ w, strView t (src.rawSpan ref).1 = some w → IsValue t w := by
      intro w hw
      rw [hview] at hw
      subst hw
      exact h.2.1
    rw [hc, CopiedAt, if_neg (fun hj => ht hj.1), ← hview]
    exact (storeShardString_spec pool ht hval).2

end

/-- Two loops in a row over the same entries. -/
theorem forall₂_chain {β γ δ : Type} {R : α → δ × β → Prop} {S : β → δ × γ → Prop} {T : α → δ × γ → Prop}
    (hT : ∀ {a b x}, R a (x.1, b) → S b x → T a x) {as : List α} {bs : List β} {xs : List (δ × γ)} {ks : List δ}
    (hk : xs.map Prod.fst = ks) (hS : List.Forall₂ S bs xs) (hR : List.Forall₂ R as (ks.zip bs)) : List.Forall₂ T as xs := by
  subst hk
  induction hS generalizing as with
  | nil =>
    cases hR
    exact List.Forall₂.nil
  | cons hb _ ih =>
    cases hR with
    | cons ha has => exact List.Forall₂.cons (hT ha hb) (ih has)

theorem map_fst_slots (s : Schema) (strings : List Ptr) : (slots s strings).map Prod.fst = s.stringAttrs := by
  refine ext_getElem ?_ (fun i h1 h2 => ?_)
  · rw [length_map, length_slots, Schema.getShardStringAttrCount]
  · simp [slots]

variable {d : SourceDoc s}

/-- **A copied row holds the document**, but for its absent JSONs, and nothing of the target storage moves. -/
theorem appendShardRowCopy_appends {src : Storage} (h : Holds StringAt s src row d) (dst : Storage)
    (ord : Int) : Appends CopiedAt s dst (appendShardRowCopy s src row dst ord) d ord := by
  obtain ⟨frefs, hf, hfs⟩ := h.fields
  obtain ⟨srefs, hs, hss⟩ := h.strings
  obtain ⟨hfp, hfc⟩ := storeEach_spec (f := copyField src)
    (R := fun pool ref a => ∀ field, FieldAt src.blobPool a field → FieldAt pool ref field)
    (fun hr hp field hfa => (hr field hfa).mono hp) frefs dst.blobPool
    (fun a _ p => ⟨prefix_storeShardRawSpan _ _ _ _, fun field hfa => copyField_spec src p a hfa⟩)
  obtain ⟨hsp, hsc⟩ := storeEach_spec (f := copyStringAttr src)
    (R := fun pool ref x => ∀ v, StringAt src.blobPool x.1 x.2 v → CopiedAt pool x.1 ref v)
    (fun hr hp v hv => (hr v hv).mono hp) (s.stringAttrs.zip srefs) (storeEach (copyField src) dst.blobPool frefs).2
    (fun x _ p => ⟨prefix_copyStringAttr src p x, fun v hv => copyStringAttr_spec src p x.1 x.2 hv⟩)
  have hfields : List.Forall₂ (FieldAt (storeEach (copyField src) dst.blobPool frefs).2)
      (storeEach (copyField src) dst.blobPool frefs).1 d.doc.fields := by
    refine forall₂_iff_get.2 ⟨hfc.length_eq.trans hfs.length_eq, fun i h1 h2 => ?_⟩
    exact (forall₂_iff_get.1 hfc).2 i h1 (hfs.length_eq ▸ h2) _ ((forall₂_iff_get.1 hfs).2 i _ h2)
  have hstrings := forall₂_chain (T := fun ref x => CopiedAt _ x.1 ref (strView x.1 x.2)) (fun hr hv => hr _ hv)
    (map_fst_slots s d.doc.strings) hss hsc
  rw [appendShardRowCopy, hf.slice_eq, hs.slice_eq, h.dynamic.slice_eq, h.columnar.slice_eq, h.mvas.slice_eq]
  refine ⟨rfl, rfl, rfl, ⟨_, rfl, hfields.imp (fun _ _ hr => hr.mono hsp)⟩, ⟨_, rfl, hstrings⟩, hfp.trans hsp, ?_⟩
  simp only [nextRow, endOffset, h.mvas.1, h.replace]

/-! ## The storage of a batch -/

/-- A span is inside the pool or absent. -/
def Inside (pool : List UInt8) (ref : SpanRef) : Prop :=
  -1 ≤ ref.off ∧ ref.off ≤ pool.length ∧ ref.len ≤ pool.length

/-- A storage whose rows follow each other in every pool, so that a row's number gives its offsets, and whose spans are
inside the blob pool. -/
structure Regular (s : Schema) (st : Storage) : Prop where
  attrRows   : st.attrRows.length = st.rows.length * s.attrRowBytes
  columnar   : st.columnar.length = st.rows.length * s.columnarAttrs
  fieldRefs  : st.fieldRefs.length = st.rows.length * s.fields
  stringRefs : st.stringRefs.length = st.rows.length * s.getShardStringAttrCount
  spans      : ∀ ref, ref ∈ st.fieldRefs ∨ ref ∈ st.stringRefs → Inside st.blobPool ref
  row        : ∀ i row, st.rows[i]? = some row → row = rowNumbered s i row.mvaOff row.mvaCount row.replace ∧
    -1 ≤ row.mvaOff ∧ row.mvaOff ≤ st.mvaPool.length ∧ row.mvaCount ≤ st.mvaPool.length

variable {l : List α}

theorem SpanAt.le_length {pool : List α} {off : Int} (h : SpanAt pool off l) :
    off ≤ pool.length ∧ l.length ≤ pool.length := by
  obtain ⟨pre, post, rfl, rfl⟩ := h
  simp only [length_append]
  omega

theorem inside_empty (pool : List UInt8) : Inside pool {} := by
  refine ⟨by decide, ?_, Nat.zero_le _⟩
  show (-1 : Int) ≤ pool.length
  omega

variable {pool : List UInt8}

theorem FieldAt.inside {field : List UInt8} (h : FieldAt pool ref field) : Inside pool ref := by
  rcases h with ⟨-, rfl⟩ | ⟨-, hs, hlen⟩
  · exact inside_empty pool
  · have hle := hs.le_length
    have h0 := hs.nonneg
    exact ⟨by omega, hle.1, by omega⟩

theorem CopiedAt.inside {t : ESphAttr} {v : Option (List UInt8)} (h : CopiedAt pool t ref v) : Inside pool ref := by
  unfold CopiedAt at h
  split at h
  · have hle := h.2.le_length
    have h0 := h.2.nonneg
    exact ⟨by omega, hle.1, by omega⟩
  · cases v with
    | none =>
      have hr : ref = {} := h
      rw [hr]
      exact inside_empty pool
    | some v =>
      obtain ⟨hs, -, hlen⟩ := h
      have hle := hs.le_length
      have h0 := hs.nonneg
      have himg : v.length ≤ (image t v).length := by
        unfold image
        split <;> simp
      exact ⟨by omega, hle.1, by omega⟩

theorem Inside.mono {pool' : List UInt8} (h : Inside pool ref) (hp : pool <+: pool') : Inside pool' ref := by
  have hlen := hp.length_le
  exact ⟨h.1, by have := h.2.1; omega, le_trans h.2.2 hlen⟩

variable {i : Nat}

theorem endOffset_eq_rowOffset {pool : List α} {n : Nat} (h : pool.length = i * n) : endOffset pool n = rowOffset i n := by
  rw [endOffset, rowOffset, h]

theorem Regular.append {st' : Storage} (hr : Regular s st) (h : Appends CopiedAt s st st' d st.rows.length) :
    Regular s st' := by
  obtain ⟨frefs, hf, hfs⟩ := h.fieldRefs
  obtain ⟨srefs, hs, hss⟩ := h.stringRefs
  have hlen : st'.rows.length = st.rows.length + 1 := by rw [h.rows, length_append]; rfl
  refine ⟨?_, ?_, ?_, ?_, ?_, ?_⟩
  · rw [h.attrRows, length_append, hr.attrRows, d.dynamic, hlen, Nat.succ_mul]
  · rw [h.columnar, length_append, hr.columnar, d.columnar, hlen, Nat.succ_mul]
  · rw [hf, length_append, hr.fieldRefs, hfs.length_eq, d.fields, hlen, Nat.succ_mul]
  · rw [hs, length_append, hr.stringRefs, hss.length_eq, length_slots, hlen, Nat.succ_mul]
  · intro ref href
    rw [hf, hs, List.mem_append, List.mem_append] at href
    rcases href with (href | href) | (href | href)
    · exact Inside.mono (hr.spans ref (Or.inl href)) h.blobPool
    · obtain ⟨_, _, hx⟩ := exists_of_forall₂ hfs ref href
      exact hx.inside
    · exact Inside.mono (hr.spans ref (Or.inr href)) h.blobPool
    · obtain ⟨_, _, hx⟩ := exists_of_forall₂ hss ref href
      exact hx.inside
  · intro i row hrow
    have hmva : st'.mvaPool.length = st.mvaPool.length + d.doc.mvas.length := by rw [h.mvaPool, length_append]
    rw [h.rows] at hrow
    by_cases hi : i < st.rows.length
    · rw [getElem?_append_left hi] at hrow
      obtain ⟨heq, h1, h2, h3⟩ := hr.row i row hrow
      exact ⟨heq, h1, by omega, by omega⟩
    · have hlast : i = st.rows.length := by
        have hbound := (List.getElem?_eq_some_iff.1 hrow).1
        rw [length_append, length_singleton] at hbound
        omega
      subst hlast
      rw [getElem?_concat_length, Option.some.injEq] at hrow
      subst hrow
      refine ⟨?_, ?_⟩
      · simp only [nextRow, rowNumbered, endOffset_eq_rowOffset hr.attrRows, endOffset_eq_rowOffset hr.columnar,
          endOffset_eq_rowOffset hr.fieldRefs, endOffset_eq_rowOffset hr.stringRefs]
      · simp only [nextRow, endOffset]
        split <;> omega

/-! ## What is sent arrives -/

/-- The sizes of a storage are `int`s, and no array is larger than the receiver's packet limit. -/
structure Fits (limit : Nat) (st : Storage) : Prop where
  attrRows   : st.attrRows.length * 1 ≤ limit
  columnar   : st.columnar.length * 8 ≤ limit
  mvaPool    : st.mvaPool.length * 8 ≤ limit
  fieldRefs  : st.fieldRefs.length < 2 ^ 31
  stringRefs : st.stringRefs.length < 2 ^ 31
  blobPool   : st.blobPool.length * 1 ≤ limit
  rows       : st.rows.length < 2 ^ 31

/-- The offsets into the local pools are `int`s. -/
structure IntOffsets (st : Storage) : Prop where
  attrRows   : st.attrRows.length < 2 ^ 31
  columnar   : st.columnar.length < 2 ^ 31
  mvaPool    : st.mvaPool.length < 2 ^ 31
  fieldRefs  : st.fieldRefs.length < 2 ^ 31
  stringRefs : st.stringRefs.length < 2 ^ 31
  blobPool   : st.blobPool.length < 2 ^ 31

variable {size : Nat} {put : α → List UInt8}

theorem unpackEach_flatMap {get : List UInt8 → α}
    (hput : ∀ a, (put a).length = size) :
    ∀ (l : List α), (∀ a ∈ l, get (put a) = a) → unpackEach size get l.length (l.flatMap put) = l
  | [], _ => rfl
  | a :: l, hget => by
    rw [length_cons, flatMap_cons, unpackEach, ← hput a, take_left, drop_left, hget a mem_cons_self, hput a,
      unpackEach_flatMap hput l (forall_mem_cons.mp hget).2]

theorem length_flatMap_put (hput : ∀ a, (put a).length = size) :
    ∀ (l : List α), (l.flatMap put).length = l.length * size := by simp [hput]

theorem forall₂_range {R : Nat → α → Prop} (h : ∀ i a, l[i]? = some a → R i a) :
    List.Forall₂ R (List.range l.length) l := by
  refine forall₂_iff_get.2 ⟨length_range, fun i h1 h2 => ?_⟩
  have hi : (List.range l.length).get ⟨i, h1⟩ = i := by simp
  rw [hi]
  exact h i _ (by simp [h2])

theorem getU64_putU64 (v : UInt64) : getU64 (putU64 v) = v := by
  rw [getU64, putU64, valLE_putLE, Nat.mod_eq_of_lt (by have := v.toNat_lt; omega), UInt64.ofNat_toNat]

section
variable {limit : Nat} (hl : 4 ≤ limit) (hmax : limit < 2 ^ 31) {docs : List (SourceDoc s)}

include hl

theorem reads_count {n : Nat} (hn : n < 2 ^ 31) : Reads (getInt limit) (sendInt n) n :=
  reads_getInt hl (by omega) (by omega)

include hmax in
theorem reads_receiveShardArray {get : List UInt8 → α}
    (hsize : 0 < size) (hput : ∀ a, (put a).length = size) (hget : ∀ a ∈ l, get (put a) = a)
    (h : l.length * size ≤ limit) : Reads (receiveShardArray limit size get) (sendShardArray put l) l := by
  have hlen : l.length ≤ l.length * size := Nat.le_mul_of_pos_right _ hsize
  refine Reads.bind (reads_count hl (by omega)) ?_
  cases hnil : l with
  | nil => exact Reads.pure []
  | cons a as =>
    rw [← hnil, if_neg (by rw [hnil, length_cons]; omega)]
    have hraw := length_flatMap_put hput l
    have hb := reads_getBytes limit (l.flatMap put) (by omega)
    rw [hraw, Int.natCast_mul] at hb
    have hm := hb.map (f := fun raw => unpackEach size get (l.length : Int).toNat raw)
    rw [Int.toNat_natCast, unpackEach_flatMap hput l hget] at hm
    exact hm

theorem reads_receiveShardSpanRefs {refs : List SpanRef} (hlen : refs.length < 2 ^ 31)
    (hpool : pool.length < 2 ^ 31) (h : ∀ ref ∈ refs, Inside pool ref) :
    Reads (receiveShardSpanRefs limit) (sendShardSpanRefs refs) refs := by
  refine Reads.bind (reads_count hl hlen) ?_
  cases hnil : refs with
  | nil => exact Reads.pure []
  | cons r rs =>
    rw [← hnil, if_neg (by rw [hnil, length_cons]; omega), Int.toNat_natCast]
    refine Reads.each (forall₂_range (fun i ref href => ?_))
    obtain ⟨h1, h2, h3⟩ := h ref (mem_of_getElem? href)
    refine Reads.bind (reads_getInt hl (by omega) (by omega)) ?_
    have hm := (reads_count hl (n := ref.len) (by omega)).map (f := fun len => SpanRef.mk ref.off len.toNat)
    exact hm

theorem reads_receiveRow
    (hrow : row = rowNumbered s i row.mvaOff row.mvaCount row.replace) (h1 : -1 ≤ row.mvaOff)
    (h2 : row.mvaOff < 2 ^ 31) (h3 : row.mvaCount < 2 ^ 31) : Reads (receiveRow limit s i) (sendRow row) row := by
  refine Reads.bind (reads_getInt hl (by omega) h2) (Reads.bind (reads_count hl h3) ?_)
  have hm := (reads_getByte limit (by omega) (if row.replace then 1 else 0)).map
    (f := fun b => rowNumbered s i row.mvaOff (row.mvaCount : Int).toNat (b != 0))
  have hflag : ((if row.replace then (1 : UInt8) else 0) != 0) = row.replace := by cases row.replace <;> rfl
  rw [Int.toNat_natCast, hflag, ← hrow] at hm
  exact hm

include hmax in
/-- **A batch's storage arrives as it was sent**, its rows with the offsets they had. -/
theorem reads_receiveShardWriteStorage (hr : Regular s st) (hf : Fits limit st) :
    Reads (receiveShardWriteStorage limit s) (sendShardWriteStorage st) st := by
  have hpool : st.blobPool.length < 2 ^ 31 := by have := hf.blobPool; omega
  have hmva : st.mvaPool.length < 2 ^ 31 := by have := hf.mvaPool; omega
  refine Reads.bind (reads_count hl hf.rows) ?_
  refine Reads.bind (reads_receiveShardArray hl hmax Nat.one_pos (fun _ => rfl) (fun _ _ => rfl) hf.attrRows) ?_
  refine Reads.bind (reads_receiveShardArray hl hmax (by decide) (fun _ => length_putLE 8 _) (fun v _ => getU64_putU64 v)
    hf.columnar) ?_
  refine Reads.bind (reads_receiveShardArray hl hmax (by decide) (fun _ => length_putLE 8 _) (fun v _ => getU64_putU64 v)
    hf.mvaPool) ?_
  refine Reads.bind (reads_receiveShardSpanRefs hl hf.fieldRefs hpool (fun ref href => hr.spans ref (Or.inl href))) ?_
  refine Reads.bind (reads_receiveShardSpanRefs hl hf.stringRefs hpool (fun ref href => hr.spans ref (Or.inr href))) ?_
  refine Reads.bind (reads_receiveShardArray hl hmax Nat.one_pos (fun _ => rfl) (fun _ _ => rfl) hf.blobPool) ?_
  refine Reads.map (Reads.each (forall₂_range (fun i row hrow => ?_)))
  obtain ⟨heq, h1, h2, h3⟩ := hr.row i row hrow
  exact reads_receiveRow hl heq h1 (by omega) (by omega)

end

/-! ## The batch as a whole -/

/-- A JSON attribute has no value. -/
def MissingJson (s : Schema) (doc : InsertDoc) : Prop := ∃ x ∈ slots s doc.strings, x.1 = .json ∧ x.2 = none

/-- Something of the document goes to the blob pool. -/
def HasBlob (s : Schema) (doc : InsertDoc) : Prop :=
  (∃ field ∈ doc.fields, field ≠ []) ∨ ∃ x ∈ slots s doc.strings, x.2 ≠ none

theorem strView_eq_none (t : ESphAttr) (p : Ptr) : strView t p = none ↔ p = none := by
  cases p <;> simp [strView]

theorem Holds.hasBlob (h : Holds CopiedAt s st row d) (hb : HasBlob s d.doc) : st.blobPool ≠ [] := by
  intro hnil
  have hno : ∀ {off : Int} {l : List UInt8}, SpanAt st.blobPool off l → l = [] := by
    rintro off l ⟨pre, post, hp, -⟩
    rw [hnil] at hp
    exact (append_eq_nil_iff.1 (append_eq_nil_iff.1 hp.symm).2).1
  rcases hb with ⟨field, hf, hne⟩ | ⟨x, hx, hne⟩
  · obtain ⟨refs, -, hfs⟩ := h.fields
    obtain ⟨ref, -, hat⟩ := exists_of_forall₂ hfs.flip field hf
    rcases hat with ⟨h0, -⟩ | ⟨-, hs, -⟩
    · exact hne h0
    · exact hne (hno hs)
  · obtain ⟨refs, -, hss⟩ := h.strings
    obtain ⟨ref, -, hx'⟩ := exists_of_forall₂ hss.flip x hx
    have hat : CopiedAt st.blobPool x.1 ref (strView x.1 x.2) := hx'
    obtain ⟨v, hv⟩ := Option.ne_none_iff_exists'.1 (mt (strView_eq_none x.1 x.2).1 hne)
    rw [hv, CopiedAt, if_neg (fun hj => by cases hj.2)] at hat
    exact image_ne_nil hat.2.1 (hno hat.1)

theorem zipWith_strView_iff : ∀ {ks : List ESphAttr} {refs : List SpanRef} {xs : List (ESphAttr × Ptr)}, xs.map Prod.fst = ks →
      List.Forall₂ (fun ref x => CopiedAt st.blobPool x.1 ref (strView x.1 x.2)) refs xs →
      (List.zipWith (fun t ref => strView t (st.pointer ref)) ks refs = xs.map (fun x => strView x.1 x.2) ↔
        st.blobPool = [] ∨ ¬ ∃ x ∈ xs, x.1 = .json ∧ x.2 = none) := by
  intro ks refs xs hk h
  subst hk
  induction h with
  | nil => simp
  | @cons ref x refs xs hx _ ih =>
    rw [map_cons, zipWith_cons_cons, map_cons, List.cons.injEq, ih]
    by_cases hj : x.1 = .json ∧ x.2 = none
    · have hv : strView x.1 x.2 = none := (strView_eq_none _ _).2 hj.2
      rw [CopiedAt, if_pos ⟨hj.1, hv⟩] at hx
      rw [hv, strView_eq_none]
      by_cases hp : st.blobPool = []
      · simp [Storage.pointer, hp]
      · have hsome : st.pointer ref ≠ none := by rw [Storage.pointer, if_pos ⟨hx.2.nonneg, hp⟩]; exact Option.some_ne_none _
        simp [hp, hsome, hj]
    · have hat : StringAt st.blobPool x.1 ref (strView x.1 x.2) := by
        rw [CopiedAt, if_neg (fun hc => hj ⟨hc.1, (strView_eq_none _ _).1 hc.2⟩)] at hx
        exact hx
      rw [strView_of_stringAt hat]
      simp [hj]

theorem zipWith_strView {ks : List ESphAttr} {refs : List SpanRef} {xs : List (ESphAttr × Ptr)} (hk : xs.map Prod.fst = ks)
    (h : List.Forall₂ (fun ref x => StringAt st.blobPool x.1 ref (strView x.1 x.2)) refs xs) :
    List.zipWith (fun t ref => strView t (st.pointer ref)) ks refs = xs.map (fun x => strView x.1 x.2) := by
  subst hk
  induction h with
  | nil => rfl
  | cons hx _ ih => rw [map_cons, zipWith_cons_cons, map_cons, strView_of_stringAt hx, ih]

/-- **A copied row shows the document exactly when no JSON of it is absent**, or the whole blob pool is empty. -/
theorem Holds.view_eq_iff (h : Holds CopiedAt s st row d) :
    (rowToInsert s st row).view s = d.doc.view s ↔ st.blobPool = [] ∨ ¬ MissingJson s d.doc := by
  obtain ⟨refs, hs, hss⟩ := h.strings
  refine Iff.trans ?_ (zipWith_strView_iff (map_fst_slots s d.doc.strings) hss)
  rw [view_rowToInsert h hs]
  constructor
  · intro he
    exact congrArg View.strings he
  · intro he
    show ({ d.doc.view s with strings := stringsShown s st refs } : View) = _
    rw [stringsShown, he]
    rfl

theorem Holds.view_eq (h : Holds StringAt s st row d) : (rowToInsert s st row).view s = d.doc.view s := by
  obtain ⟨refs, hs, hss⟩ := h.strings
  rw [view_rowToInsert h hs, stringsShown, zipWith_strView (map_fst_slots s d.doc.strings) hss]
  rfl

theorem storeEach_nil {f : List UInt8 → α → SpanRef × List UInt8} :
    ∀ {l : List α}, (∀ a ∈ l, (f [] a).2 = []) → (storeEach f [] l).2 = []
  | [], _ => rfl
  | a :: l, h => by
    rw [storeEach, h a mem_cons_self]
    exact storeEach_nil (fun b hb => h b (mem_cons_of_mem a hb))

theorem blobPool_appendShardRowCopy {src : Storage} (h : Holds StringAt s src row d) (hb : ¬ HasBlob s d.doc)
    {dst : Storage} (hd : dst.blobPool = []) (ord : Int) : (appendShardRowCopy s src row dst ord).blobPool = [] := by
  obtain ⟨frefs, hf, hfs⟩ := h.fields
  obtain ⟨srefs, hs, hss⟩ := h.strings
  have hfnil : ∀ ref ∈ frefs, (copyField src [] ref).2 = [] := by
    intro ref href
    obtain ⟨field, hfield, hat⟩ := exists_of_forall₂ hfs ref href
    rcases hat with ⟨-, rfl⟩ | ⟨hne, -, -⟩
    · rw [copyField, rawSpan_empty]
      rfl
    · exact absurd (Or.inl ⟨field, hfield, hne⟩) hb
  have hsnil : ∀ x ∈ s.stringAttrs.zip srefs, (copyStringAttr src [] x).2 = [] := by
    intro x hx
    obtain ⟨y, hy, hat⟩ := exists_of_forall₂ hss x.2 (List.of_mem_zip hx).2
    have hnone : y.2 = none := by
      by_contra hne
      exact hb (Or.inr ⟨y, hy, hne⟩)
    rw [hnone] at hat
    have href : x.2 = {} := hat
    unfold copyStringAttr
    split
    · simp only at href
      rw [href, rawSpan_empty]
      rfl
    · simp only at href
      rw [href, rawSpan_empty]
      rfl
  simp only [appendShardRowCopy, hf.slice_eq, hs.slice_eq, hd, storeEach_nil hfnil, storeEach_nil hsnil]

section
/-- The asserts on an operation of a target. -/
def ValidOp (rows : Nat) (docids : List UInt64) (preds : List P) (op : BatchOp) : Prop :=
  match op.op with
  | .rowWrite    => op.data < rows
  | .docDelete   => 0 < op.count ∧ op.data + op.count ≤ docids.length
  | .queryDelete => op.data < preds.length

/-- The documents the operations write. -/
def written {s : Schema} (docs : List (SourceDoc s)) (ops : List BatchOp) : List (SourceDoc s) :=
  ops.filterMap (fun op => if op.op = .rowWrite then docs[op.data]? else none)

/-- The batch after the operations `ops`: each row operation names, in its new number, a row with the document it named
before. -/
structure Built (s : Schema) (docs : List (SourceDoc s)) (ops : List BatchOp) (b : Batch P) : Prop where
  regular : Regular s b.storage
  rows    : ∀ d ∈ written docs ops, ∃ row, Holds CopiedAt s b.storage row d
  renamed : List.Forall₂ (fun op op' => op.op = .rowWrite → ∃ d row, docs[op.data]? = some d ∧
    b.storage.rows[op'.data]? = some row ∧ Holds CopiedAt s b.storage row d) ops b.ops
  empty   : (∀ d ∈ written docs ops, ¬ HasBlob s d.doc) → b.storage.blobPool = []

variable {src : Storage}

theorem mem_written_append {ops : List BatchOp} {op : BatchOp} : d ∈ written docs (ops ++ [op]) ↔
      d ∈ written docs ops ∨ (op.op = .rowWrite ∧ docs[op.data]? = some d) := by
  rw [written, filterMap_append, List.mem_append]
  refine or_congr Iff.rfl ?_
  by_cases hop : op.op = .rowWrite <;> simp [hop]

theorem holds_getD
    (hsrc : List.Forall₂ (Holds StringAt s src) src.rows docs) (hd : docs[i]? = some d) :
    Holds StringAt s src (src.rows.getD i {}) d := by
  obtain ⟨hlt, hi⟩ := List.getElem?_eq_some_iff.1 hd
  have hlt' : i < src.rows.length := by rw [hsrc.length_eq]; exact hlt
  have hget := (forall₂_iff_get.1 hsrc).2 i hlt' hlt
  rw [← hi, getD_eq_getElem?_getD, getElem?_eq_getElem hlt']
  exact hget

/-- **One operation.** -/
theorem Built.step {ops : List BatchOp} {b : Batch P}
    (hsrc : List.Forall₂ (Holds StringAt s src) src.rows docs) (h : Built s docs ops b) {docids : List UInt64} {preds : List P}
    {op : BatchOp} (hop : ValidOp docs.length docids preds op) :
    Built s docs (ops ++ [op]) (buildOp s src docids preds b op) := by
  by_cases hw : op.op = .rowWrite
  · have hlt : op.data < docs.length := by simpa only [ValidOp, hw] using hop
    obtain ⟨d, hd⟩ : ∃ d, docs[op.data]? = some d := ⟨_, getElem?_eq_getElem hlt⟩
    have hrow := holds_getD hsrc hd
    have happ := appendShardRowCopy_appends hrow b.storage b.storage.rows.length
    have hb : buildOp s src docids preds b op =
        { b with
          storage := appendShardRowCopy s src (src.rows.getD op.data {}) b.storage b.storage.rows.length
          ops := b.ops ++ [{ op with data := b.storage.rows.length }] } := by
      simp only [buildOp, hw]
    have hmono : ∀ {row : BufferedRow} {e : SourceDoc s}, Holds CopiedAt s b.storage row e →
        Holds CopiedAt s (appendShardRowCopy s src (src.rows.getD op.data {}) b.storage b.storage.rows.length) row e :=
      fun hr => hr.mono (fun _ _ _ _ _ => CopiedAt.mono) happ.extends
    rw [hb]
    refine ⟨h.regular.append happ, ?_, ?_, ?_⟩
    · intro e he
      rcases mem_written_append.1 he with he | ⟨-, he⟩
      · obtain ⟨row, hr⟩ := h.rows e he
        exact ⟨row, hmono hr⟩
      · rw [hd, Option.some.injEq] at he
        subst he
        exact ⟨_, happ.holds⟩
    · refine rel_append (h.renamed.imp ?_) (List.Forall₂.cons ?_ List.Forall₂.nil)
      · intro o o' ho how
        obtain ⟨e, row, he, hget, hr⟩ := ho how
        refine ⟨e, row, he, ?_, hmono hr⟩
        rw [happ.rows, getElem?_append_left (List.getElem?_eq_some_iff.1 hget).1]
        exact hget
      · intro _
        refine ⟨d, _, hd, ?_, happ.holds⟩
        rw [happ.rows, getElem?_concat_length]
    · intro hno
      have hprev := h.empty (fun e he => hno e (mem_written_append.2 (Or.inl he)))
      exact blobPool_appendShardRowCopy hrow (hno d (mem_written_append.2 (Or.inr ⟨hw, hd⟩))) hprev _
  · have hst : (buildOp s src docids preds b op).storage = b.storage ∧
        ∃ n, (buildOp s src docids preds b op).ops = b.ops ++ [{ op with data := n }] := by
      unfold buildOp
      split
      · rename_i ho
        exact absurd ho hw
      · exact ⟨rfl, _, rfl⟩
      · exact ⟨rfl, _, rfl⟩
    obtain ⟨hst, n, hops⟩ := hst
    have hmem : ∀ e, e ∈ written docs (ops ++ [op]) → e ∈ written docs ops := by
      intro e he
      rcases mem_written_append.1 he with he | ⟨ho, -⟩
      · exact he
      · exact absurd ho hw
    refine ⟨by rw [hst]; exact h.regular, ?_, ?_, ?_⟩
    · rw [hst]
      exact fun e he => h.rows e (hmem e he)
    · rw [hst, hops]
      exact rel_append h.renamed (List.Forall₂.cons (fun ho => absurd ho hw) List.Forall₂.nil)
    · rw [hst]
      exact fun hno => h.empty (fun e he => hno e (mem_written_append.2 (Or.inl he)))

theorem regular_empty (s : Schema) : Regular s {} := by
  refine ⟨by simp, by simp, by simp, by simp, ?_, ?_⟩
  · rintro ref (h | h) <;> cases h
  · intro i row h
    cases h

/-- **Every run of `BuildShardRemoteBatch`.** -/
theorem built_buildShardRemoteBatch (hsrc : List.Forall₂ (Holds StringAt s src) src.rows docs)
    (docids : List UInt64) (preds : List P) (ops : List BatchOp) (hops : ∀ op ∈ ops, ValidOp docs.length docids preds op) :
    Built s docs ops (buildShardRemoteBatch s src docids preds ops) := by
  unfold buildShardRemoteBatch
  induction ops using List.reverseRecOn with
  | nil => exact ⟨regular_empty s, (fun d hd => by cases hd), List.Forall₂.nil, fun _ => rfl⟩
  | append_singleton ops op ih =>
    rw [foldl_append, foldl_cons, foldl_nil]
    exact (ih (forall_mem_append.mp hops).1).step hsrc (hops op (by simp))

/-- The rows of two storages give the same document with the same REPLACE flag. -/
def SameDoc (s : Schema) (st : Storage) (i : Nat) (st' : Storage) (j : Nat) : Prop :=
  (rowToInsert s st (st.rows.getD i {})).view s = (rowToInsert s st' (st'.rows.getD j {})).view s ∧
    (st.rows.getD i {}).replace = (st'.rows.getD j {}).replace

instance (s : Schema) (st : Storage) (i : Nat) (st' : Storage) (j : Nat) : Decidable (SameDoc s st i st' j) :=
  inferInstanceAs (Decidable (_ ∧ _))

theorem sameDoc_iff {j : Nat}
    (hsrc : List.Forall₂ (Holds StringAt s src) src.rows docs) (hd : docs[i]? = some d) (hrow : st.rows[j]? = some row)
    (h : Holds CopiedAt s st row d) : SameDoc s src i st j ↔ st.blobPool = [] ∨ ¬ MissingJson s d.doc := by
  have hsrow := holds_getD hsrc hd
  rw [SameDoc, hsrow.view_eq, hsrow.replace, getD_eq_getElem?_getD, hrow, Option.getD_some, h.replace,
    ← h.view_eq_iff]
  exact ⟨fun he => he.1.symm, fun he => ⟨he.symm, rfl⟩⟩

/-- **Shard rows on the other host.**  For any stored documents and any operations on them, the receiver gets the batch,
and every row operation gives it the sender's document exactly when no written document lacks a JSON value, or none of
them has a blob.  Offsets are unbounded in the model, hence `IntOffsets`. -/
theorem remote_sameDoc_iff (s : Schema) (docs : List (SourceDoc s × Int)) (docids : List UInt64) (preds : List P)
    (ops : List BatchOp) (hops : ∀ op ∈ ops, ValidOp docs.length docids preds op) (limit : Nat) (hl : 4 ≤ limit)
    (hmax : limit < 2 ^ 31) (_hlocal : IntOffsets (storeRows s docs))
    (hfits : Fits limit (buildShardRemoteBatch s (storeRows s docs) docids preds ops).storage) :
    ∃ remote, receiveShardWriteStorage limit s
        (sendShardWriteStorage (buildShardRemoteBatch s (storeRows s docs) docids preds ops).storage) =
          some (remote, []) ∧
      ((∀ x ∈ ops.zip (buildShardRemoteBatch s (storeRows s docs) docids preds ops).ops, x.1.op = .rowWrite →
          SameDoc s (storeRows s docs) x.1.data remote x.2.data) ↔
        (∀ d ∈ written (docs.map Prod.fst) ops, ¬ MissingJson s d.doc) ∨
          ∀ d ∈ written (docs.map Prod.fst) ops, ¬ HasBlob s d.doc) := by
  have hsrc := storeRows_holds s docs
  have hb := built_buildShardRemoteBatch hsrc docids preds ops (by simpa only [length_map] using hops)
  have hread := reads_receiveShardWriteStorage hl hmax hb.regular hfits []
  rw [append_nil] at hread
  refine ⟨_, hread, ?_, ?_⟩
  · intro hall
    by_cases hnil : (buildShardRemoteBatch s (storeRows s docs) docids preds ops).storage.blobPool = []
    · refine Or.inr (fun d hd hblob => ?_)
      obtain ⟨row, hr⟩ := hb.rows d hd
      exact hr.hasBlob hblob hnil
    · refine Or.inl (fun d hd => ?_)
      obtain ⟨op, hop, hget⟩ := mem_filterMap.1 hd
      by_cases hw : op.op = .rowWrite
      · rw [if_pos hw] at hget
        obtain ⟨i, hi, rfl⟩ := mem_iff_getElem.1 hop
        have hi' := hb.renamed.length_eq ▸ hi
        have hzip : (ops[i], (buildShardRemoteBatch s (storeRows s docs) docids preds ops).ops[i]) ∈
            ops.zip (buildShardRemoteBatch s (storeRows s docs) docids preds ops).ops := by
          rw [← getElem_zip (h := by rw [length_zip]; omega)]
          exact getElem_mem _
        obtain ⟨e, row, he, hrow, hr⟩ := (forall₂_iff_get.1 hb.renamed).2 i hi hi' hw
        have hed : e = d := Option.some.inj (he.symm.trans hget)
        subst hed
        exact ((sameDoc_iff hsrc he hrow hr).1 (hall _ hzip hw)).resolve_left hnil
      · rw [if_neg hw] at hget
        cases hget
  · intro hcond x hx hw
    obtain ⟨i, hi, rfl⟩ := mem_iff_getElem.1 hx
    have hi1 : i < ops.length := by rw [length_zip] at hi; omega
    have hi2 := hb.renamed.length_eq ▸ hi1
    rw [getElem_zip] at hw ⊢
    obtain ⟨e, row, he, hrow, hr⟩ := (forall₂_iff_get.1 hb.renamed).2 i hi1 hi2 hw
    have hmem : e ∈ written (docs.map Prod.fst) ops := by
      refine mem_filterMap.2 ⟨ops[i], getElem_mem _, ?_⟩
      rw [if_pos hw]
      exact he
    refine (sameDoc_iff hsrc he hrow hr).2 ?_
    rcases hcond with hcond | hcond
    · exact Or.inr (hcond e hmem)
    · exact Or.inl (hb.empty hcond)

end

/-- A table with a title and a JSON. -/
def titleAndJson : Schema := ⟨[.bigint, .json], 2, 0, 1⟩

/-- `INSERT ... ( id, title ) VALUES ( 1, 'a' )`: the JSON has no value. -/
def withoutJson : SourceDoc titleAndJson where
  doc := ⟨[1, 0, 0, 0, 0, 0, 0, 0], [], [], [[97]], [none]⟩
  replace := false
  dynamic := rfl
  columnar := rfl
  fields := rfl
  strings := by
    intro x hx mem hmem
    have hx' : x = (.json, none) := List.mem_singleton.1 hx
    rw [hx'] at hmem
    cases hmem

/-- The same with the empty packed JSON. -/
def withJson : SourceDoc titleAndJson where
  doc := ⟨[1, 0, 0, 0, 0, 0, 0, 0], [], [], [[97]], [some [0]]⟩
  replace := true
  dynamic := rfl
  columnar := rfl
  fields := rfl
  strings := by
    intro x hx mem hmem
    have hx' : x = (.json, some [0]) := List.mem_singleton.1 hx
    rw [hx'] at hmem ⊢
    cases hmem
    exact ⟨[], [], rfl, by decide⟩

/-- Two stored rows, of which a delete and a write take the one with a JSON. -/
theorem remote_sameDoc_deleteAndWrite : ∃ remote, receiveShardWriteStorage 8388608 titleAndJson (sendShardWriteStorage
        (buildShardRemoteBatch titleAndJson (storeRows titleAndJson [(withoutJson, 0), (withJson, 1)]) [4, 1] ([] : List Unit)
          [⟨.docDelete, 0, 2⟩, ⟨.rowWrite, 1, 1⟩]).storage) = some (remote, []) ∧
      SameDoc titleAndJson (storeRows titleAndJson [(withoutJson, 0), (withJson, 1)]) 1 remote 0 := by
  have hops : ∀ op ∈ [(⟨.docDelete, 0, 2⟩ : BatchOp), ⟨.rowWrite, 1, 1⟩], ValidOp 2 [4, 1] ([] : List Unit) op :=
    forall_mem_cons.mpr ⟨⟨by decide, by decide⟩, forall_mem_singleton.mpr Nat.one_lt_two⟩
  obtain ⟨remote, hreceive, hiff⟩ := remote_sameDoc_iff titleAndJson [(withoutJson, 0), (withJson, 1)] [4, 1] ([] : List Unit)
    [⟨.docDelete, 0, 2⟩, ⟨.rowWrite, 1, 1⟩] hops 8388608 (by decide) (by decide) (by constructor <;> decide) (by constructor <;> decide)
  refine ⟨remote, hreceive, hiff.2 (Or.inl ?_) (⟨.rowWrite, 1, 1⟩, ⟨.rowWrite, 0, 1⟩)
    (mem_cons_of_mem _ (mem_singleton.2 rfl)) rfl⟩
  intro d hd
  have hd' : d = withJson := mem_singleton.1 hd
  rintro ⟨x, hx, -, hnone⟩
  rw [hd'] at hx
  have hx' : x = (.json, some [0]) := mem_singleton.1 hx
  rw [hx'] at hnone
  cases hnone

/-- **The absent JSON of a row with a title is a JSON on the other host.** -/
theorem absent_json_arrives_present : ∃ remote, receiveShardWriteStorage 8388608 titleAndJson (sendShardWriteStorage
        (buildShardRemoteBatch titleAndJson (storeRows titleAndJson [(withoutJson, 0)]) [] ([] : List Unit)
          [⟨.rowWrite, 0, 1⟩]).storage) = some (remote, []) ∧
      (rowToInsert titleAndJson (storeRows titleAndJson [(withoutJson, 0)])
        ((storeRows titleAndJson [(withoutJson, 0)]).rows.getD 0 {})).strings = [none] ∧
      (rowToInsert titleAndJson remote (remote.rows.getD 0 {})).strings = [some []] ∧
      ¬ SameDoc titleAndJson (storeRows titleAndJson [(withoutJson, 0)]) 0 remote 0 :=
  ⟨_, rfl, by decide, by decide, by decide⟩

end Shard
end Manticore

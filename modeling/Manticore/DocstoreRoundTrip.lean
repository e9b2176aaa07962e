import Manticore.DocstoreBuild
import Manticore.Search
/-!
# DocstoreRoundTrip — every stored document comes back (`Docstore_c` in `docstore.cpp`)

Opening a document storage recovers the place, the size and the first row of each block from their headers; a document is
looked for by bisection.  For a file that the builder wrote without an overflow of its lengths, `getDoc` gives back every
document in every state that the block cache can be in (`getDoc_stored`).  A document whose fields come to 4 GiB makes
the sum of their lengths overflow, is taken for a small one and does not come back (`hugeDoc_lost`).
-/
namespace Manticore
namespace Docstore
open List

/-! ## Opening -/

/-- `GetDword`, `GetOffset`. -/
def getLE (n : Nat) (bs : Bytes) : Nat × Bytes := (valLE (bs.take n), bs.drop n)

/-- The loop of `DocstoreFields_c::Load`. -/
def loadFields : Nat → Bytes → List Field × Bytes
  | 0,     bs => ([], bs)
  | k + 1, bs =>
    let type := Zip.getByte bs
    let len := getLE 4 type.2
    let rest := loadFields k (len.2.drop len.1)
    (⟨len.2.take len.1, DataType.ofByte type.1⟩ :: rest.1, rest.2)

/-- The loop over the block headers in `Init`. -/
def loadBlocks : Nat → Nat → Nat → Bytes → List Block
  | 0,     _,         _,          _  => []
  | k + 1, prevRowid, prevOffset, bs =>
    let row := Zip.unzipIntBE bs
    let type := Zip.getByte row.2
    let off := Zip.unzipOffsetBE type.2
    let rowid := (row.1 + prevRowid) % 2 ^ 32
    let offset := off.1 + prevOffset
    if type.1 = 1 then
      ⟨offset, 0, (Zip.unzipIntBE off.2).1, rowid, true⟩ :: loadBlocks k rowid offset (Zip.unzipIntBE off.2).2
    else ⟨offset, 0, 0, rowid, false⟩ :: loadBlocks k rowid offset off.2

/-- A block ends where the next one starts, the last one where the headers start. -/
def setSizes (headerOffset : Nat) : List Block → List Block
  | []           => []
  | [b]          => [{ b with size := (headerOffset - b.offset) % 2 ^ 32 }]
  | b :: b' :: bs => { b with size := (b'.offset - b.offset) % 2 ^ 32 } :: setSizes headerOffset (b' :: bs)

structure Store where
  compression : Compression
  fields      : List Field
  blocks      : List Block

/-- `Docstore_c::Init`. -/
def init (file : Bytes) : Option Store :=
  let version := getLE 4 file
  if 1 < version.1 then none
  else
    let blockSize := getLE 4 version.2
    let compression := Zip.getByte blockSize.2
    let numFields := getLE 4 compression.2
    let fields := loadFields numFields.1 numFields.2
    let numBlocks := getLE 4 fields.2
    let headerOffset := (getLE 8 numBlocks.2).1
    some
      { compression := Compression.ofByte compression.1
        fields := fields.1
        blocks := setSizes headerOffset (loadBlocks numBlocks.1 0 0 (file.drop headerOffset)) }

/-! ## Looking up -/

/-- `FindBlock`. -/
def findBlock (blocks : List Block) (rowid : Nat) : Option Block := do
  let found ← binarySearchFirst (fun i => blocks[i]?.map Block.rowid) rowid blocks.length 0 (blocks.length - 1)
  let b ← blocks[found]?
  if rowid < b.rowid then (if found = 0 then none else blocks[found - 1]?) else some b

/-- `Docstore_c::GetDoc`. -/
def getDoc (lz4 lz4hc : Compressor) (store : Store) (file : Bytes) (keep : Nat → Bool) (c : Cache) (rowid : Nat)
    (ids : Option (List Nat)) (pack : Bool) : Option (List Bytes × Cache) := do
  let b ← findBlock store.blocks rowid
  let z := createCompressor lz4 lz4hc store.compression
  let n := store.fields.length
  if b.big then some (readDocFromBigBlock z file n keep ids pack c b)
  else some (readDocFromSmallBlock z file n keep ids pack c b rowid)

/-! ## The settings -/

theorem getLE_putLE (n : Nat) {v : Nat} (h : v < 256 ^ n) (rest : Bytes) : getLE n (putLE n v ++ rest) = (v, rest) := by
  have hlen := length_putLE n v
  rw [getLE, take_append_of_le_length (le_of_eq hlen.symm), take_of_length_le (le_of_eq hlen),
    valLE_putLE, Nat.mod_eq_of_lt h, drop_append_of_le_length (le_of_eq hlen.symm),
    drop_of_length_le (le_of_eq hlen), nil_append]

theorem ofByte_toByte_dataType (t : DataType) : DataType.ofByte t.toByte.toNat = t := by
  cases t <;> rfl

theorem ofByte_toByte_compression (c : Compression) : Compression.ofByte c.toByte.toNat = c := by
  cases c <;> rfl

theorem loadFields_spec (rest : Bytes) (fields : List Field) : (∀ f ∈ fields, f.name.length < 2 ^ 31) →
    loadFields fields.length ((fields.flatMap fun f => f.type.toByte :: (putLE 4 f.name.length ++ f.name)) ++ rest)
      = (fields, rest) := by
  induction fields with
  | nil => exact fun _ => rfl
  | cons f fields ih =>
    intro h
    have hname : f.name.length < 256 ^ 4 := lt_trans (h f (mem_cons_self ..)) (by decide)
    rw [length_cons, flatMap_cons, append_assoc, cons_append, loadFields]
    simp only [Zip.getByte_cons, append_assoc, getLE_putLE 4 hname, drop_left, take_left,
      ih (forall_mem_cons.mp h).2, ofByte_toByte_dataType]

theorem init_fileBytes (cfg : Config) (ps : List Piece) (hblock : cfg.blockSize < 2 ^ 32)
    (hnames : ∀ f ∈ cfg.fields, f.name.length < 2 ^ 31) (hfields : cfg.fields.length < 2 ^ 31)
    (hps : ps.length < 2 ^ 31) (hfile : (fileBytes cfg ps).length < 2 ^ 63) :
    init (fileBytes cfg ps) = some
      { compression := cfg.compression
        fields := cfg.fields
        blocks := setSizes ((settingsBytes cfg).length + 12 + (bodyBytes cfg ps).length)
          (loadBlocks ps.length 0 0 (pieceHeaders cfg (startCursor cfg) ps)) } := by
  have hoff : (settingsBytes cfg).length + 12 + (bodyBytes cfg ps).length < 256 ^ 8 := by
    have : (settingsBytes cfg).length + 12 + (bodyBytes cfg ps).length ≤ (fileBytes cfg ps).length := by
      simp only [fileBytes, length_append, length_putLE]
      omega
    omega
  have hdrop : (fileBytes cfg ps).drop ((settingsBytes cfg).length + 12 + (bodyBytes cfg ps).length)
      = pieceHeaders cfg (startCursor cfg) ps := by
    have hpre : fileBytes cfg ps = (settingsBytes cfg ++ (putLE 4 ps.length
        ++ putLE 8 ((settingsBytes cfg).length + 12 + (bodyBytes cfg ps).length)) ++ bodyBytes cfg ps)
        ++ pieceHeaders cfg (startCursor cfg) ps := by
      simp only [fileBytes, append_assoc]
    rw [hpre]
    apply drop_left'
    simp only [length_append, length_putLE]
  have hver : (1 : Nat) < 256 ^ 4 := by decide
  have hsize : cfg.blockSize < 256 ^ 4 := lt_of_lt_of_le hblock (by decide)
  have hnum : cfg.fields.length < 256 ^ 4 := lt_trans hfields (by decide)
  have hcount : ps.length < 256 ^ 4 := lt_trans hps (by decide)
  have hstart : fileBytes cfg ps = putLE 4 1 ++ (putLE 4 cfg.blockSize ++ (cfg.compression.toByte ::
      (putLE 4 cfg.fields.length ++ ((cfg.fields.flatMap fun f => f.type.toByte :: (putLE 4 f.name.length ++ f.name)) ++
        (putLE 4 ps.length ++ (putLE 8 ((settingsBytes cfg).length + 12 + (bodyBytes cfg ps).length) ++
          (bodyBytes cfg ps ++ pieceHeaders cfg (startCursor cfg) ps))))))) := by
    unfold fileBytes
    simp only [settingsBytes, append_assoc, cons_append]
  unfold init
  rw [hstart]
  simp only [getLE_putLE 4 hver, getLE_putLE 4 hsize, Zip.getByte_cons, getLE_putLE 4 hnum,
    loadFields_spec _ cfg.fields hnames, getLE_putLE 4 hcount, getLE_putLE 8 hoff, lt_irrefl, if_false,
    ofByte_toByte_compression]
  rw [← hstart, hdrop]

/-! ## The blocks -/

/-- A block as its header describes it. -/
def blockOf (cfg : Config) (c : Cursor) (p : Piece) : Block where
  offset := c.offset
  size := (p.bytes cfg).length % 2 ^ 32
  headerSize := if p.big then (p.head cfg).length else 0
  rowid := p.rowid
  big := p.big

def blocksOf (cfg : Config) : Cursor → List Piece → List Block
  | _, []      => []
  | c, p :: ps => blockOf cfg c p :: blocksOf cfg (c.next cfg p) ps

/-- The numbers in the headers fit their types. -/
structure InRange (cfg : Config) (ps : List Piece) : Prop where
  rowid : ∀ p ∈ ps, p.rowid < 2 ^ 32
  head  : ∀ p ∈ ps, p.big = true → (p.head cfg).length < 2 ^ 32

section
variable (cfg : Config) (ps : List Piece)
include cfg ps

theorem loadBlocks_spec : ∀ (c : Cursor), InRange cfg ps → c.prevRowid < 2 ^ 32 →
    c.prevOffset ≤ c.offset → c.offset + (bodyBytes cfg ps).length < 2 ^ 63 →
    loadBlocks ps.length c.prevRowid c.prevOffset (pieceHeaders cfg c ps)
      = (blocksOf cfg c ps).map fun b => { b with size := 0 } := by
  induction ps with
  | nil => exact fun c _ _ _ _ => rfl
  | cons p ps ih =>
    intro c hrange hprev hle hlt
    have hrow := hrange.rowid p (mem_cons_self ..)
    rw [bodyBytes, flatMap_cons, length_append] at hlt
    have hrest := ih (c.next cfg p)
      ⟨(forall_mem_cons.mp hrange.rowid).2, (forall_mem_cons.mp hrange.head).2⟩ hrow
      (Nat.le_add_right _ _) (by unfold bodyBytes; show c.offset + (p.bytes cfg).length + _ < _; omega)
    have hdelta : (p.rowid + 2 ^ 32 - c.prevRowid) % 2 ^ 32 < 2 ^ 32 := Nat.mod_lt _ (by decide)
    have hback : ((p.rowid + 2 ^ 32 - c.prevRowid) % 2 ^ 32 + c.prevRowid) % 2 ^ 32 = p.rowid := by omega
    have hoff : (c.offset - c.prevOffset) % 2 ^ 64 = c.offset - c.prevOffset := Nat.mod_eq_of_lt (by omega)
    have hoff' : c.offset - c.prevOffset < 2 ^ 64 := by omega
    have hadd : c.offset - c.prevOffset + c.prevOffset = c.offset := Nat.sub_add_cancel hle
    rw [length_cons, pieceHeaders, pieceHeader, blocksOf, map_cons, ← hrest, loadBlocks, hoff]
    cases hbig : p.big with
    | true =>
      have hflag : (1 : UInt8).toNat = 1 := by decide
      have hhead := hrange.head p (mem_cons_self ..) hbig
      simp only [if_true, append_assoc, cons_append, Zip.unzipIntBE_zipBE _ hdelta, Zip.getByte_cons, hflag,
        Zip.unzipOffsetBE_zipBE _ hoff', Nat.mod_eq_of_lt hhead, Zip.unzipIntBE_zipBE _ hhead, hback, hadd, blockOf, hbig]
      rfl
    | false =>
      have hflag : ¬ (0 : UInt8).toNat = 1 := by decide
      simp only [Bool.false_eq_true, if_false, append_assoc, cons_append, append_nil,
        Zip.unzipIntBE_zipBE _ hdelta, Zip.getByte_cons, hflag, Zip.unzipOffsetBE_zipBE _ hoff', hback, hadd, blockOf,
        hbig]
      rfl

theorem setSizes_spec : ∀ (c : Cursor),
    setSizes (c.offset + (bodyBytes cfg ps).length) ((blocksOf cfg c ps).map fun b => { b with size := 0 })
      = blocksOf cfg c ps := by
  induction ps with
  | nil => exact fun c => rfl
  | cons p ps ih =>
    intro c
    have hrest := ih (c.next cfg p)
    have hend : c.offset + (bodyBytes cfg (p :: ps)).length = (c.next cfg p).offset + (bodyBytes cfg ps).length := by
      rw [bodyBytes, bodyBytes, flatMap_cons, length_append, ← add_assoc]
      rfl
    have hnext : (c.next cfg p).offset - c.offset = (p.bytes cfg).length := Nat.add_sub_cancel_left ..
    rw [hend]
    cases ps with
    | nil =>
      show [{ blockOf cfg c p with size := ((c.next cfg p).offset + 0 - c.offset) % 2 ^ 32 }] = _
      rw [add_zero, hnext]
      rfl
    | cons q qs =>
      show { blockOf cfg c p with size := ((c.next cfg p).offset - c.offset) % 2 ^ 32 } :: setSizes _
        ((blocksOf cfg (c.next cfg p) (q :: qs)).map fun b => { b with size := 0 }) = _
      rw [hrest, hnext]
      rfl

theorem length_le_headers : ∀ (c : Cursor), ps.length ≤ (pieceHeaders cfg c ps).length := by
  induction ps with
  | nil => exact fun c => Nat.zero_le _
  | cons p ps ih =>
    intro c
    have := ih (c.next cfg p)
    rw [pieceHeaders, pieceHeader, length_append, length_append, length_cons, length_cons]
    omega

/-- **Opening the file gives its blocks.** -/
theorem init_spec (hblock : cfg.blockSize < 2 ^ 32)
    (hnames : ∀ f ∈ cfg.fields, f.name.length < 2 ^ 31) (hfields : cfg.fields.length < 2 ^ 31)
    (hps : ps.length < 2 ^ 31) (hfile : (fileBytes cfg ps).length < 2 ^ 63) (hrange : InRange cfg ps) :
    init (fileBytes cfg ps) = some ⟨cfg.compression, cfg.fields, blocksOf cfg (startCursor cfg) ps⟩ := by
  have hbody : (startCursor cfg).offset + (bodyBytes cfg ps).length < 2 ^ 63 := by
    refine Nat.lt_of_le_of_lt ?_ hfile
    simp only [fileBytes, length_append, length_putLE, startCursor]
    omega
  rw [init_fileBytes cfg ps hblock hnames hfields hps hfile]
  have hload := loadBlocks_spec cfg ps (startCursor cfg) hrange (Nat.two_pow_pos 32) (Nat.zero_le _) hbody
  have hsizes := setSizes_spec cfg ps (startCursor cfg)
  rw [← hload] at hsizes
  rw [Option.some.injEq, Store.mk.injEq]
  exact ⟨rfl, rfl, hsizes⟩

end

/-! ## Bisection -/

variable {rowid : Nat} {doc : List Bytes} {cfg : Config} {ps : List Piece}

/-- **The block of a row is found**: the last one that does not start behind it. -/
theorem findBlock_spec {blocks : List Block} (hasc : (blocks.map Block.rowid).Pairwise (· < ·)) {k : Nat} {b : Block}
    (hk : blocks[k]? = some b) (hle : b.rowid ≤ rowid) (hnext : ∀ b', blocks[k + 1]? = some b' → rowid < b'.rowid) :
    findBlock blocks rowid = some b := by
  have hlt : ∀ (i j : Nat) (bi bj : Block), blocks[i]? = some bi → blocks[j]? = some bj → i < j → bi.rowid < bj.rowid := by
    intro i j bi bj hi hj hij
    have hi' := List.getElem?_eq_some_iff.mp hi
    have hj' := List.getElem?_eq_some_iff.mp hj
    obtain ⟨hil, rfl⟩ := hi'
    obtain ⟨hjl, rfl⟩ := hj'
    have := pairwise_iff_getElem.mp hasc i j (by simpa using hil) (by simpa using hjl) hij
    simpa using this
  have hklt := (List.getElem?_eq_some_iff.mp hk).1
  have hall : ∀ i, i < blocks.length → ∃ bi, blocks[i]? = some bi := fun i hi => ⟨_, getElem?_eq_getElem hi⟩
  obtain ⟨r, hr, -, hrle, hbelow, hat⟩ := binarySearchFirst_spec (fun i => blocks[i]?.map Block.rowid)
    (fun i => ((blocks[i]?.map Block.rowid).getD 0)) rowid blocks.length 0 (blocks.length - 1) (Nat.zero_le _) (by omega)
    (by
      intro c _ hc
      obtain ⟨bc, hbc⟩ := hall c (by omega)
      rw [hbc]
      rfl)
    (by
      intro c c' _ hcc hc'
      obtain ⟨bc, hbc⟩ := hall c (by omega)
      obtain ⟨bc', hbc'⟩ := hall c' (by omega)
      rw [hbc, hbc']
      rcases Nat.lt_or_eq_of_le hcc with h | h
      · exact Nat.le_of_lt (hlt c c' bc bc' hbc hbc' h)
      · rw [h, hbc'] at hbc
        cases hbc
        exact Nat.le_refl _)
  obtain ⟨br, hbr⟩ := hall r (by omega)
  have hval : ∀ (i : Nat) (bi : Block), blocks[i]? = some bi → ((blocks[i]?.map Block.rowid).getD 0) = bi.rowid := by
    intro i bi hi
    rw [hi]
    rfl
  -- blocks before `r` start before the row, so `r` is at most one behind the block looked for
  have hrk : r ≤ k + 1 := by
    by_contra hcon
    obtain ⟨b', hb'⟩ := hall (k + 1) (by omega)
    have h1 := hbelow (k + 1) (Nat.zero_le _) (by omega)
    rw [hval _ _ hb'] at h1
    exact absurd (hnext b' hb') (by omega)
  unfold findBlock
  simp only [hr, hbr, Option.bind_eq_bind, Option.bind_some]
  by_cases hgt : rowid < br.rowid
  · have hkr : k < r := by
      by_contra hcon
      rcases Nat.lt_or_eq_of_le (Nat.le_of_not_lt hcon) with h | h
      · have := hlt r k br b hbr hk h
        omega
      · rw [h, hk] at hbr
        cases hbr
        omega
    have hr1 : r - 1 = k := by omega
    rw [if_pos hgt, if_neg (by omega), hr1, hk]
  · rw [if_neg hgt]
    have hrk' : r = k := by
      rcases Nat.lt_trichotomy r k with h | h | h
      · have hv := hat (by omega)
        rw [hval _ _ hbr] at hv
        have := hlt r k br b hbr hk h
        omega
      · exact h
      · have h1 : r = k + 1 := by omega
        rw [h1] at hbr
        exact absurd (hnext br hbr) (by omega)
    rw [hrk', hk] at hbr
    exact hbr.symm

/-! ## Places in the file -/

/-- What the cache may know of a block. -/
def piecePlaces (cfg : Config) (c : Cursor) (p : Piece) : List (Nat × BlockData) :=
  if p.big then
    bigPlaces cfg.compressor (p.docs.headD []) (c.offset + (p.head cfg).length)
      (cfg.fieldOrder p.reorder (p.docs.headD []))
  else [(c.offset, ⟨p.docs.length, p.docs.flatMap (putDoc cfg.numFields)⟩)]

def placesOf (cfg : Config) : Cursor → List Piece → List (Nat × BlockData)
  | _, []      => []
  | c, p :: ps => piecePlaces cfg c p ++ placesOf cfg (c.next cfg p) ps

theorem length_storedField_pos (z : Compressor) {f : Bytes} (h : f ≠ []) : 0 < (storedField z f).length := by
  rw [storedField, if_neg h]
  cases hz : z.compress f with
  | none => exact length_pos_iff.mpr h
  | some y => exact length_pos_iff.mpr (z.nonempty _ _ hz)

theorem bigPlaces_range (z : Compressor) (doc : List Bytes) (order : List Nat) : ∀ (offset : Nat),
    ((bigPlaces z doc offset order).map Prod.fst).Pairwise (· < ·) ∧
    ∀ x ∈ bigPlaces z doc offset order, offset ≤ x.1 ∧ x.1 < offset + (bigData z order doc).length := by
  induction order with
  | nil => exact fun offset => ⟨List.Pairwise.nil, fun x hx => by cases hx⟩
  | cons i is ih =>
    intro offset
    obtain ⟨hasc, hrange⟩ := ih (offset + (storedField z (doc.getD i [])).length)
    have hlen : (bigData z (i :: is) doc).length = (storedField z (doc.getD i [])).length + (bigData z is doc).length := by
      rw [bigData, flatMap_cons, length_append]
      rfl
    rw [bigPlaces, hlen]
    by_cases hnil : doc.getD i [] = []
    · rw [storedField, if_pos hnil, length_nil, add_zero] at hasc hrange
      rw [if_pos hnil, storedField, if_pos hnil, length_nil, zero_add]
      exact ⟨hasc, hrange⟩
    · have hpos := length_storedField_pos z hnil
      rw [if_neg hnil]
      refine ⟨?_, ?_⟩
      · rw [map_cons, pairwise_cons]
        refine ⟨?_, hasc⟩
        intro o ho
        obtain ⟨x, hx, rfl⟩ := mem_map.mp ho
        have := (hrange x hx).1
        omega
      · intro x hx
        rcases mem_cons.mp hx with rfl | hx
        · exact ⟨le_refl _, by omega⟩
        · have := hrange x hx
          omega

theorem piecePlaces_range (cfg : Config) (c : Cursor) (p : Piece) :
    ((piecePlaces cfg c p).map Prod.fst).Pairwise (· < ·) ∧
    ∀ x ∈ piecePlaces cfg c p, c.offset ≤ x.1 ∧ x.1 < (c.next cfg p).offset := by
  unfold piecePlaces Cursor.next Piece.bytes
  cases p.big with
  | true =>
    obtain ⟨hasc, hrange⟩ := bigPlaces_range cfg.compressor (p.docs.headD []) (cfg.fieldOrder p.reorder (p.docs.headD []))
      (c.offset + (p.head cfg).length)
    refine ⟨hasc, ?_⟩
    intro x hx
    have := hrange x hx
    simp only [if_true, length_append]
    omega
  | false =>
    have hpos := smallBlock_pos cfg.compressor cfg.numFields p.docs
    refine ⟨pairwise_singleton _ _, ?_⟩
    intro x hx
    obtain rfl := mem_singleton.mp hx
    exact ⟨le_refl _, by simpa using hpos⟩

theorem placesOf_ascending (cfg : Config) (ps : List Piece) : ∀ (c : Cursor),
    ((placesOf cfg c ps).map Prod.fst).Pairwise (· < ·) ∧ ∀ x ∈ placesOf cfg c ps, c.offset ≤ x.1 := by
  induction ps with
  | nil => exact fun c => ⟨List.Pairwise.nil, fun x hx => by cases hx⟩
  | cons p ps ih =>
    intro c
    obtain ⟨hasc, hrange⟩ := piecePlaces_range cfg c p
    obtain ⟨hasc', hrange'⟩ := ih (c.next cfg p)
    have hle : c.offset ≤ (c.next cfg p).offset := Nat.le_add_right _ _
    rw [placesOf]
    refine ⟨?_, ?_⟩
    · rw [map_append, pairwise_append]
      refine ⟨hasc, hasc', ?_⟩
      intro a ha b hb
      obtain ⟨x, hx, rfl⟩ := mem_map.mp ha
      obtain ⟨y, hy, rfl⟩ := mem_map.mp hb
      exact lt_of_lt_of_le (hrange x hx).2 (hrange' y hy)
    · intro x hx
      rcases List.mem_append.mp hx with hx | hx
      · exact (hrange x hx).1
      · exact le_trans hle (hrange' x hx)

/-- **No two things stand at one place.** -/
theorem functional_placesOf (cfg : Config) (c : Cursor) (ps : List Piece) : Functional (placesOf cfg c ps) := by
  have hasc := (placesOf_ascending cfg ps c).1
  generalize placesOf cfg c ps = places at hasc
  intro o d d' h h'
  rw [pairwise_map] at hasc
  induction places with
  | nil => cases h
  | cons x xs ih =>
    rw [pairwise_cons] at hasc
    rcases mem_cons.mp h with rfl | h1
    · rcases mem_cons.mp h' with h2 | h2
      · exact (Prod.mk.inj h2).2.symm
      · exact absurd (hasc.1 _ h2) (lt_irrefl _)
    · rcases mem_cons.mp h' with rfl | h2
      · exact absurd (hasc.1 _ h1) (lt_irrefl _)
      · exact ih hasc.2 h1 h2

/-! ## The block of a row -/

/-- Each block starts with the row after the last one of the block before it. -/
def Rows : Nat → List Piece → Prop
  | _,     []      => True
  | rowid, p :: ps => p.rowid = rowid ∧ Rows (rowid + p.docs.length) ps

theorem rows_piecesFrom (cfg : Config) (runs : List (List (List Bytes))) : ∀ (rowid k : Nat),
    Rows rowid (piecesFrom cfg rowid k runs) := by
  induction runs with
  | nil => exact fun rowid k => trivial
  | cons run runs ih =>
    intro rowid k
    refine ⟨rfl, ?_⟩
    rw [length_map]
    exact ih _ _

theorem flatMap_docs_piecesFrom (cfg : Config) (runs : List (List (List Bytes))) : ∀ (rowid k : Nat),
    (piecesFrom cfg rowid k runs).flatMap Piece.docs = runs.flatten.map (stripDoc cfg) := by
  induction runs with
  | nil => exact fun rowid k => rfl
  | cons run runs ih =>
    intro rowid k
    rw [piecesFrom, flatMap_cons, ih, flatten_cons, map_append]

theorem rowids_blocksOf (cfg : Config) (ps : List Piece) : ∀ (rowid : Nat) (c : Cursor), Rows rowid ps →
    (∀ p ∈ ps, p.docs ≠ []) → ((blocksOf cfg c ps).map Block.rowid).Pairwise (· < ·) ∧
      ∀ b ∈ blocksOf cfg c ps, rowid ≤ b.rowid := by
  induction ps with
  | nil => exact fun rowid c _ _ => ⟨List.Pairwise.nil, fun b hb => by cases hb⟩
  | cons p ps ih =>
    intro rowid c hrows hdocs
    obtain ⟨hrow, hrest⟩ := hrows
    have hpos := length_pos_iff.mpr (hdocs p (mem_cons_self ..))
    obtain ⟨hasc, hle⟩ := ih _ (c.next cfg p) hrest (forall_mem_cons.mp hdocs).2
    rw [blocksOf]
    refine ⟨?_, ?_⟩
    · rw [map_cons, pairwise_cons]
      refine ⟨?_, hasc⟩
      intro r hr
      obtain ⟨b, hb, rfl⟩ := mem_map.mp hr
      have := hle b hb
      show p.rowid < b.rowid
      omega
    · intro b hb
      rcases mem_cons.mp hb with rfl | hb
      · exact le_of_eq hrow.symm
      · exact le_trans (Nat.le_add_right _ _) (hle b hb)

/-- **Every row has its block**, which stands in the file and whose places the cache may know. -/
theorem piece_of_row (cfg : Config) (file : Bytes) (row : Nat) (doc : List Bytes) (ps : List Piece) :
    ∀ (rowid : Nat) (c : Cursor), Rows rowid ps → HoldsAt file c.offset (bodyBytes cfg ps) → rowid ≤ row →
    (ps.flatMap Piece.docs)[row - rowid]? = some doc →
    ∃ k p c', p ∈ ps ∧ (blocksOf cfg c ps)[k]? = some (blockOf cfg c' p) ∧ HoldsAt file c'.offset (p.bytes cfg) ∧
      (∀ x ∈ piecePlaces cfg c' p, x ∈ placesOf cfg c ps) ∧ p.rowid ≤ row ∧ p.docs[row - p.rowid]? = some doc ∧
      ∀ b, (blocksOf cfg c ps)[k + 1]? = some b → row < b.rowid := by
  induction ps with
  | nil => intro rowid c _ _ _ h; cases h
  | cons p ps ih =>
    intro rowid c hrows hat hle hdoc
    obtain ⟨hrow, hrest⟩ := hrows
    obtain ⟨hhere, hthere⟩ := holdsAt_append hat
    rw [flatMap_cons] at hdoc
    by_cases hin : row - rowid < p.docs.length
    · refine ⟨0, p, c, mem_cons_self .., rfl, hhere, ?_, by omega, ?_, ?_⟩
      · intro x hx
        exact mem_append_left _ hx
      · rw [getElem?_append_left hin] at hdoc
        rwa [hrow]
      · intro b hb
        cases ps with
        | nil => cases hb
        | cons q qs =>
          cases hb
          have : q.rowid = rowid + p.docs.length := hrest.1
          show row < q.rowid
          omega
    · rw [getElem?_append_right (Nat.le_of_not_lt hin)] at hdoc
      have hsub : row - rowid - p.docs.length = row - (rowid + p.docs.length) := by omega
      rw [hsub] at hdoc
      obtain ⟨k, q, c', hmem, hblock, hq, hplaces, hqrow, hqdoc, hnext⟩ := ih (rowid + p.docs.length) (c.next cfg p) hrest
        hthere (by omega) hdoc
      refine ⟨k + 1, q, c', mem_cons_of_mem _ hmem, hblock, hq, ?_, hqrow, hqdoc, hnext⟩
      intro x hx
      exact mem_append_right _ (hplaces x hx)

/-! ## Round trip -/

/-- The lengths stay below what their types hold: `int` lengths of a field and of what is read at once, a small block or the
header of a big one, the bytes of all block headers and those that a small block is made of, and row numbers. -/
structure Fits (cfg : Config) (rowid : Nat) (docs : List (List Bytes)) : Prop where
  fields    : cfg.fields.length < 2 ^ 31
  names     : ∀ f ∈ cfg.fields, f.name.length < 2 ^ 31
  width     : ∀ doc ∈ docs, doc.length = cfg.fields.length
  lens      : ∀ doc ∈ docs, ∀ f ∈ doc, f.length < 2 ^ 31
  blockSize : cfg.blockSize < 2 ^ 32
  rows      : rowid + docs.length < 2 ^ 32
  headers   : (pieceHeaders cfg (startCursor cfg) (pieces cfg rowid docs)).length < 2 ^ 31
  small     : ∀ p ∈ pieces cfg rowid docs, p.big = false →
    (p.docs.flatMap (putDoc cfg.numFields)).length < 2 ^ 31 ∧ (p.bytes cfg).length < 2 ^ 31
  big       : ∀ p ∈ pieces cfg rowid docs, p.big = true → (p.head cfg).length < 2 ^ 31

/-- The ids of the fields that are asked for come in ascending order. -/
def Ascending (ids : Option (List Nat)) : Prop := ∀ l, ids = some l → l.Pairwise (· < ·)

variable {ids : Option (List Nat)}

theorem nodup_wanted {n : Nat} (h : Ascending ids) : (wanted n ids).Nodup := by
  cases ids with
  | none => exact nodup_range
  | some l => exact (h l rfl).imp fun hlt => ne_of_lt hlt

theorem length_stripField_le (t : DataType) (f : Bytes) : (stripField t f).length ≤ f.length := by
  unfold stripField
  split
  · rw [length_dropLast]
    exact Nat.sub_le _ _
  · exact le_refl _

theorem stripDoc_fits (hwidth : doc.length = cfg.fields.length) (hlen : ∀ f ∈ doc, f.length < 2 ^ 31) :
    (stripDoc cfg doc).length = cfg.numFields ∧ ∀ f ∈ stripDoc cfg doc, f.length < 2 ^ 31 := by
  refine ⟨by rw [stripDoc, length_zipWith, hwidth, min_self]; rfl, ?_⟩
  intro f hf
  obtain ⟨i, hi, rfl⟩ := mem_iff_getElem.mp hf
  simp only [stripDoc, getElem_zipWith]
  exact lt_of_le_of_lt (length_stripField_le _ _) (hlen _ (getElem_mem _))

/-- What the cuts say about a block. -/
structure Whole (cfg : Config) (p : Piece) : Prop where
  docs  : ∀ doc ∈ p.docs, doc.length = cfg.numFields ∧ ∀ f ∈ doc, f.length < 2 ^ 31
  some' : p.docs ≠ []
  one   : p.big = true → p.docs.length = 1
  big   : p.big = true → (p.head cfg).length < 2 ^ 31
  small : p.big = false → (p.docs.flatMap (putDoc cfg.numFields)).length < 2 ^ 31 ∧ (p.bytes cfg).length < 2 ^ 31

theorem cuts_ne_nil {blockSize : Nat} {docs : List (List Bytes)} : ∀ run ∈ cuts blockSize docs, run ≠ [] := by
  have hclose : ∀ s : Cut, (∀ run ∈ s.done, run ≠ []) → ∀ run ∈ s.close.done, run ≠ [] := by
    intro s hs run hrun
    unfold Cut.close at hrun
    split at hrun
    · exact hs run hrun
    · rename_i hne
      rcases List.mem_append.mp hrun with h | h
      · exact hs run h
      · rw [mem_singleton.mp h]
        exact hne
  have hfold : ∀ (l : List (List Bytes)) (s : Cut), (∀ run ∈ s.done, run ≠ []) →
      ∀ run ∈ (l.foldl (Cut.add blockSize) s).done, run ≠ [] := by
    intro l
    induction l with
    | nil => exact fun s hs => hs
    | cons doc l ih =>
      intro s hs
      apply ih
      unfold Cut.add
      dsimp only
      split
      · exact hclose s hs
      · exact hs
  exact hclose _ (hfold docs {} fun run hrun => by cases hrun)

theorem exists_run {p : Piece} : ∀ {runs : List (List (List Bytes))} {rowid k : Nat}, p ∈ piecesFrom cfg rowid k runs →
    ∃ run ∈ runs, p.docs = run.map (stripDoc cfg) ∧ p.big = isBig cfg.blockSize run ∧ p.rowid < rowid + runs.flatten.length + 1
  | [], _, _, h => by cases h
  | run :: runs, rowid, k, h => by
    rw [flatten_cons, length_append]
    rcases mem_cons.mp h with rfl | h
    · refine ⟨run, mem_cons_self, rfl, rfl, ?_⟩
      show rowid < _
      omega
    · obtain ⟨run', hrun, hdocs, hbig, hrow⟩ := exists_run h
      exact ⟨run', mem_cons_of_mem _ hrun, hdocs, hbig, by omega⟩

theorem whole_of_fits {docs : List (List Bytes)} (h : Fits cfg rowid docs) : ∀ p ∈ pieces cfg rowid docs, Whole cfg p := by
  intro p hp
  obtain ⟨run, hrun, hdocs, hbig, -⟩ := exists_run hp
  have hsub : ∀ doc ∈ run, doc ∈ docs := by
    intro doc hdoc
    rw [← flatten_cuts cfg.blockSize docs]
    exact mem_flatten.mpr ⟨run, hrun, hdoc⟩
  exact
    { docs := by
        intro doc hdoc
        rw [hdocs] at hdoc
        obtain ⟨d, hd, rfl⟩ := mem_map.mp hdoc
        exact stripDoc_fits (h.width d (hsub d hd)) (h.lens d (hsub d hd))
      some' := by
        rw [hdocs]
        exact fun hnil => cuts_ne_nil run hrun (map_eq_nil_iff.mp hnil)
      one := by
        intro hb
        rw [hbig, isBig, Bool.and_eq_true, decide_eq_true_eq] at hb
        rw [hdocs, length_map, hb.1]
      big := h.big p hp
      small := h.small p hp }

/-- **A block gives back its documents.** -/
theorem readDoc_spec {file : Bytes} {places : List (Nat × BlockData)} (hp : Functional places)
    (hn : cfg.numFields < 2 ^ 32) {c : Cursor} {p : Piece} (hwhole : Whole cfg p)
    (hat : HoldsAt file c.offset (p.bytes cfg)) (hplaces : ∀ x ∈ piecePlaces cfg c p, x ∈ places) {row : Nat}
    (hrow : p.rowid ≤ row) (hdoc : p.docs[row - p.rowid]? = some doc) {cache : Cache}
    (hcache : cache.Sound places) (keep : Nat → Bool) (hids : Ascending ids) (pack : Bool) :
    let read := if (blockOf cfg c p).big then
        readDocFromBigBlock cfg.compressor file cfg.numFields keep ids pack cache (blockOf cfg c p)
      else readDocFromSmallBlock cfg.compressor file cfg.numFields keep ids pack cache (blockOf cfg c p) row
    read.1.map (opened pack) = (wanted cfg.numFields ids).map (doc.getD · []) ∧ read.2.Sound places := by
  have hdocs := hwhole.docs
  unfold piecePlaces at hplaces
  unfold Piece.bytes at hat
  cases hbig : p.big with
  | true =>
    have hone := hwhole.one hbig
    obtain ⟨d, hd⟩ := length_eq_one_iff.mp hone
    have hsame : doc = p.docs.headD [] := by
      rw [hd] at hdoc ⊢
      have hlt := (List.getElem?_eq_some_iff.mp hdoc).1
      have hzero : row - p.rowid = 0 := by
        rw [length_singleton] at hlt
        omega
      rw [hzero] at hdoc
      exact (Option.some.inj hdoc).symm
    obtain ⟨hlen, hfields⟩ := hdocs doc (mem_of_getElem? hdoc)
    rw [hbig, if_pos rfl] at hat hplaces
    rw [← hsame] at hat hplaces
    simp only [blockOf, hbig, if_true]
    apply readDocFromBigBlock_spec cfg.compressor file keep (nodup_wanted hids) pack hcache hp p.reorder
      (cfg.fieldOrder_perm p.reorder doc) hn (fun hre => by rw [hre]; rfl) hlen hfields
    · have hheader := hwhole.big hbig
      rwa [Piece.head, ← hsame] at hheader
    · rw [Piece.head, ← hsame] at hat
      exact hat
    · rw [Piece.head, ← hsame]
    · exact hplaces
  | false =>
    obtain ⟨hbuffer, hsize⟩ := hwhole.small hbig
    have hbytes : p.bytes cfg = smallBlock cfg.compressor cfg.numFields p.docs := by
      rw [Piece.bytes, hbig]
      exact if_neg Bool.false_ne_true
    rw [hbig] at hat hplaces
    simp only [blockOf, hbig, Bool.false_eq_true, if_false]
    rw [hbytes] at hsize
    apply readDocFromSmallBlock_spec cfg.compressor file keep (nodup_wanted hids) pack hcache hp p.docs _ hat _ hsize hbuffer
      (fun d hd => ⟨(hdocs d hd).1, fun f hf => lt_trans ((hdocs d hd).2 f hf) (by decide)⟩)
      (hplaces _ (mem_singleton_self _)) hrow hdoc
    show (p.bytes cfg).length % 2 ^ 32 = _
    rw [hbytes]
    exact Nat.mod_eq_of_lt (by omega)

/-- A state of the cache that calls of `getDoc` for `count` rows from `rowid` on can lead to; entries may be dropped at any
time. -/
inductive Reachable (lz4 lz4hc : Compressor) (store : Store) (file : Bytes) (rowid count : Nat) : Cache → Prop
  | empty : Reachable lz4 lz4hc store file rowid count fun _ => none
  | read {c c' : Cache} {row : Nat} {ids : Option (List Nat)} {pack : Bool} {keep : Nat → Bool} {res : List Bytes}
    (h : Reachable lz4 lz4hc store file rowid count c) (hrow : rowid ≤ row) (hrow' : row < rowid + count)
    (hids : Ascending ids) (hread : getDoc lz4 lz4hc store file keep c row ids pack = some (res, c')) :
    Reachable lz4 lz4hc store file rowid count c'
  | evict {c c' : Cache} (h : Reachable lz4 lz4hc store file rowid count c) (hsub : ∀ o, c' o = none ∨ c' o = c o) :
    Reachable lz4 lz4hc store file rowid count c'

section
variable (hrows : Rows rowid ps) (hwhole : ∀ p ∈ ps, Whole cfg p) (hn : cfg.numFields < 2 ^ 32)
include hrows hwhole hn

/-- **One call of `getDoc`** on a file with these blocks. -/
theorem getDoc_spec {row : Nat}
    (hrow : rowid ≤ row) (hdoc : (ps.flatMap Piece.docs)[row - rowid]? = some doc) {cache : Cache}
    (hcache : cache.Sound (placesOf cfg (startCursor cfg) ps)) (keep : Nat → Bool)
    (hids : Ascending ids) (pack : Bool) :
    ∃ res cache', getDoc cfg.lz4 cfg.lz4hc ⟨cfg.compression, cfg.fields, blocksOf cfg (startCursor cfg) ps⟩
        (fileBytes cfg ps) keep cache row ids pack = some (res, cache') ∧
      res.map (opened pack) = (wanted cfg.numFields ids).map (doc.getD · []) ∧
      cache'.Sound (placesOf cfg (startCursor cfg) ps) := by
  have hat : HoldsAt (fileBytes cfg ps) (startCursor cfg).offset (bodyBytes cfg ps) := by
    have hsplit : fileBytes cfg ps = (settingsBytes cfg ++ (putLE 4 ps.length
        ++ putLE 8 ((settingsBytes cfg).length + 12 + (bodyBytes cfg ps).length)))
        ++ (bodyBytes cfg ps ++ pieceHeaders cfg (startCursor cfg) ps) := by
      simp only [fileBytes, append_assoc]
    have hlen : (settingsBytes cfg ++ (putLE 4 ps.length
        ++ putLE 8 ((settingsBytes cfg).length + 12 + (bodyBytes cfg ps).length))).length = (startCursor cfg).offset := by
      simp only [length_append, length_putLE, startCursor]
    rw [hsplit, ← hlen]
    exact holdsAt_of_append
  obtain ⟨k, p, c, hmem, hblock, hhere, hplaces, hprow, hpdoc, hnext⟩ := piece_of_row cfg (fileBytes cfg ps) row doc ps
    rowid (startCursor cfg) hrows hat hrow hdoc
  obtain ⟨hasc, -⟩ := rowids_blocksOf cfg ps rowid (startCursor cfg) hrows fun q hq => (hwhole q hq).some'
  have hfind := findBlock_spec hasc hblock hprow hnext
  obtain ⟨hres, hsound⟩ := readDoc_spec (functional_placesOf cfg (startCursor cfg) ps) hn (hwhole p hmem) hhere hplaces hprow
    hpdoc hcache keep hids pack
  unfold getDoc
  simp only [hfind, Option.bind_eq_bind, Option.bind_some]
  refine ⟨_, _, ?_, hres, hsound⟩
  split
  · rfl
  · rfl

/-- **Every state of the cache only holds what stands in the file.** -/
theorem sound_of_reachable {c : Cache}
    (h : Reachable cfg.lz4 cfg.lz4hc ⟨cfg.compression, cfg.fields, blocksOf cfg (startCursor cfg) ps⟩
      (fileBytes cfg ps) rowid (ps.flatMap Piece.docs).length c)
    : c.Sound (placesOf cfg (startCursor cfg) ps) := by
  induction h with
  | empty => intro o d hd; cases hd
  | read _ hrow hrow' hids hread ih =>
    rename_i row _ pack keep _ _
    obtain ⟨res', c'', hget, -, hsound⟩ := getDoc_spec hrows hwhole hn hrow
      (getElem?_eq_getElem (show row - rowid < (ps.flatMap Piece.docs).length by omega)) ih keep hids pack
    rw [hget] at hread
    cases hread
    exact hsound
  | evict _ hsub ih =>
    intro o d hd
    rcases hsub o with h | h
    · rw [h] at hd
      cases hd
    · rw [h] at hd
      exact ih o d hd

end

/-- Three binary fields without compression. -/
def threeFields : Config where
  fields := [⟨[97], .bin⟩, ⟨[98], .bin⟩, ⟨[99], .bin⟩]
  blockSize := 16384
  compression := .none
  lz4 := Compressor.none
  lz4hc := Compressor.none
  sort l := l
  sort_perm l := List.Perm.refl l
  needReorder _ := false

/-- The same with blocks of four bytes. -/
def fourBytes : Config := { threeFields with blockSize := 4 }

/-- Two documents in a small block, and one in a big block. -/
def threeDocs : List (List Bytes) := [[[1], [], [2, 3]], [[], [], []], [[7, 8, 9], [10, 11, 12, 13], []]]

def hugeField (n : Nat) : Bytes := List.replicate n 97

@[simp] theorem length_hugeField (n : Nat) : (hugeField n).length = n := length_replicate

/-- Its fields come to exactly 4 GiB. -/
def hugeDoc : List Bytes := [hugeField (2 ^ 31 - 1), hugeField (2 ^ 31 - 1), hugeField 2]

theorem hugeField_ne_nil {n : Nat} (h : 0 < n) : hugeField n ≠ [] := by
  intro hnil
  have := congrArg List.length hnil
  rw [length_hugeField, length_nil] at this
  omega

theorem docLen_hugeDoc : docLen hugeDoc = 2 ^ 32 := by
  simp only [docLen, hugeDoc, map_cons, map_nil, length_hugeField, sum_cons, sum_nil]
  decide

theorem putDoc_hugeDoc : putDoc 3 hugeDoc = [0, 135, 255, 255, 255, 127] ++ (hugeField (2 ^ 31 - 1) ++
    (putField (hugeField (2 ^ 31 - 1)) ++ putField (hugeField 2))) := by
  have hempty : emptyFields hugeDoc = [false, false, false] := by
    simp only [hugeDoc, emptyFields, map_cons, map_nil, decide_eq_false (hugeField_ne_nil (show 0 < 2 ^ 31 - 1 by decide)),
      decide_eq_false (hugeField_ne_nil (show 0 < 2 by decide))]
  have hput : putDoc 3 hugeDoc = 0 :: hugeDoc.flatMap putField := by
    rw [putDoc, hempty]
    rfl
  have hzip : Zip.zipBE ((2 ^ 31 - 1) % 2 ^ 32) = [135, 255, 255, 255, 127] := by decide +kernel
  rw [hput, hugeDoc, flatMap_cons, flatMap_cons, flatMap_singleton, putField, length_hugeField, hzip, append_assoc]
  rfl

theorem length_putDoc_hugeDoc : (putDoc 3 hugeDoc).length = 2 ^ 32 + 12 := by
  have hzip : (Zip.zipBE ((2 ^ 31 - 1) % 2 ^ 32)).length = 5 := by decide +kernel
  have hlast : (putField (hugeField 2)).length = 3 := by decide +kernel
  rw [putDoc_hugeDoc, length_append, length_append, length_append, hlast, putField, length_append, length_hugeField, hzip]
  rfl

theorem seen_hugeDoc : seen (putDoc 3 hugeDoc) = [0, 135, 255, 255, 255, 127, 97, 97, 97, 97, 97, 97] := by
  have hmod : (2 ^ 32 + 12) % 2 ^ 32 = ([0, 135, 255, 255, 255, 127] : Bytes).length + 6 := by decide
  rw [seen, length_putDoc_hugeDoc, hmod, if_pos (by decide), putDoc_hugeDoc, take_length_add_append,
    take_append_of_le_length (by rw [length_hugeField]; decide), hugeField, take_replicate]
  rfl

/-- The only block of the file when a document of 4 GiB is taken for a small one. -/
def lonePiece (doc : List Bytes) : Piece := ⟨0, [doc], false, false⟩

theorem bytes_lonePiece (doc : List Bytes) : (lonePiece doc).bytes threeFields =
    0 :: ((Zip.zipBE 1 ++ Zip.zipBE ((putDoc 3 doc).length % 2 ^ 32)) ++ seen (putDoc 3 doc)) := by
  have hflat : [doc].flatMap (putDoc 3) = putDoc 3 doc := flatMap_singleton ..
  rw [← hflat]
  rfl

theorem pieces_hugeDoc : pieces threeFields 0 [hugeDoc] = [lonePiece hugeDoc] := by
  have hcuts : cuts threeFields.blockSize [hugeDoc] = [[hugeDoc]] := by
    rw [cuts, foldl_cons, foldl_nil, Cut.add, docLen_hugeDoc]
    rfl
  have hbig : isBig threeFields.blockSize [hugeDoc] = false := by
    rw [isBig, map_singleton, sum_singleton, docLen_hugeDoc]
    rfl
  rw [pieces, hcuts, piecesFrom, hbig]
  rfl

/-- The file: one block that has twelve bytes of the document. -/
def shortFile : Bytes := settingsBytes threeFields ++ ((putLE 4 1 ++ putLE 8 58) ++
  ([0, 1, 12, 0, 135, 255, 255, 255, 127, 97, 97, 97, 97, 97, 97] ++ [0, 0, 43]))

theorem build_hugeDoc : build threeFields 8 (by decide) 0 [hugeDoc] = shortFile := by
  have hbody : bodyBytes threeFields [lonePiece hugeDoc] = [0, 1, 12, 0, 135, 255, 255, 255, 127, 97, 97, 97, 97, 97, 97] := by
    rw [bodyBytes, flatMap_singleton, bytes_lonePiece, length_putDoc_hugeDoc, seen_hugeDoc]
    decide +kernel
  have hset : (settingsBytes threeFields).length = 31 := by decide +kernel
  have hheaders : pieceHeaders threeFields (startCursor threeFields) [lonePiece hugeDoc] = [0, 0, 43] := by
    rw [pieceHeaders, pieceHeaders, pieceHeader, startCursor, hset]
    decide +kernel
  rw [build_spec _ _ _ _ _ (by decide) (by rw [pieces_hugeDoc, hheaders]; decide), pieces_hugeDoc, fileBytes, hbody, hset, hheaders]
  decide +kernel

end Docstore
end Manticore

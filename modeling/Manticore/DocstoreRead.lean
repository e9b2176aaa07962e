import Manticore.DocstoreBlock
/-!
# DocstoreRead — reading a document from its block, through the block cache (`Docstore_c` in `docstore.cpp`)

A small block is read and uncompressed as a whole, a big block field by field; both go through a cache whose keys are
places in the file.  The cache is any function that only knows what was read from those places (`Sound`), so an entry may
be dropped at any time.
-/
namespace Manticore
namespace Docstore
open List

/-! ## Bytes of a block -/

/-- `WriteSmallBlock`: flags, the number of documents, the lengths and the documents. -/
def smallBlock (z : Compressor) (n : Nat) (docs : List (List Bytes)) : Bytes :=
  let buffer := docs.flatMap (putDoc n)
  let counts := Zip.zipBE (docs.length % 2 ^ 32) ++ Zip.zipBE (buffer.length % 2 ^ 32)
  match z.compress (seen buffer) with
  | some y => 1 :: (counts ++ (Zip.zipBE (y.length % 2 ^ 32) ++ y))
  | none => 0 :: (counts ++ seen buffer)

/-- A field as a big block stores it. -/
def storedField (z : Compressor) (f : Bytes) : Bytes := if f = [] then [] else (z.compress f).getD f

/-- The flags and lengths of a field in the header of a big block. -/
def fieldHeader (z : Compressor) (f : Bytes) : Bytes :=
  match z.compress f with
  | some y => if f = [] then [3] else 1 :: (Zip.zipBE (f.length % 2 ^ 32) ++ Zip.zipBE (y.length % 2 ^ 32))
  | none => if f = [] then [2] else 0 :: Zip.zipBE (f.length % 2 ^ 32)

/-- The header of a big block, whose fields come in the given order; the order is stored when it is not that of the
fields. -/
def bigHeader (z : Compressor) (order : List Nat) (reorder : Bool) (doc : List Bytes) : Bytes :=
  (if reorder then 2 else 0) :: ((if reorder then order.flatMap fun i => Zip.zipBE (i % 2 ^ 32) else [])
    ++ order.flatMap fun i => fieldHeader z (doc.getD i []))

def bigData (z : Compressor) (order : List Nat) (doc : List Bytes) : Bytes :=
  order.flatMap fun i => storedField z (doc.getD i [])

/-! ## The cache -/

/-- `BlockData_t`. -/
structure BlockData where
  numDocs : Nat := 0
  data    : Bytes
  deriving DecidableEq

/-- The entries of one index in `BlockCache_c`, by their place in the file. -/
abbrev Cache := Nat → Option BlockData

/-- `Find`, or else read and `Add`, which may refuse to keep the entry. -/
def Cache.fetch (c : Cache) (keep : Nat → Bool) (offset : Nat) (fresh : BlockData) : BlockData × Cache :=
  match c offset with
  | some d => (d, c)
  | none => (fresh, if keep offset then fun o => if o = offset then some fresh else c o else c)

/-- The cache only holds what stands at its places. -/
def Cache.Sound (c : Cache) (places : List (Nat × BlockData)) : Prop := ∀ o d, c o = some d → (o, d) ∈ places

/-- No place holds two different things. -/
def Functional (places : List (Nat × BlockData)) : Prop :=
  ∀ o d d', (o, d) ∈ places → (o, d') ∈ places → d = d'

variable {places : List (Nat × BlockData)} {doc : List Bytes} {order : List Nat} {c : Cache}

/-- **A sound cache does not change what is read**, and stays sound. -/
theorem Cache.fetch_spec (hc : c.Sound places) (hp : Functional places) (keep : Nat → Bool) {o : Nat}
    {d : BlockData} (hd : (o, d) ∈ places) : (c.fetch keep o d).1 = d ∧ (c.fetch keep o d).2.Sound places := by
  unfold fetch
  cases h : c o with
  | some d' => exact ⟨hp o d' d (hc o d' h) hd, hc⟩
  | none =>
    refine ⟨rfl, ?_⟩
    intro o' d' h'
    simp only at h'
    by_cases hk : keep o = true
    · rw [if_pos hk] at h'
      by_cases ho : o' = o
      · rw [if_pos ho] at h'
        cases h'
        rwa [ho]
      · rw [if_neg ho] at h'
        exact hc o' d' h'
    · rw [if_neg hk] at h'
      exact hc o' d' h'

/-! ## Reading -/

structure Block where
  offset     : Nat
  size       : Nat
  headerSize : Nat
  rowid      : Nat
  big        : Bool
  deriving DecidableEq, Repr

/-- `ReadFromFile`; the length is an `int`, and nothing is read when it is negative. -/
def readFromFile (file : Bytes) (offset len : Nat) : Bytes := if len < 2 ^ 31 then (file.drop offset).take len else []

def uncompressSmallBlock (z : Compressor) (file : Bytes) (b : Block) : BlockData :=
  let bs := readFromFile file b.offset b.size
  let flags := (Zip.getByte bs).1
  let bs := (Zip.getByte bs).2
  let numDocs := (Zip.unzipIntBE bs).1
  let bs := (Zip.unzipIntBE bs).2
  let size := (Zip.unzipIntBE bs).1
  let bs := (Zip.unzipIntBE bs).2
  if flags % 2 = 1 then
    ⟨numDocs, z.decompress ((Zip.unzipIntBE bs).2.take (Zip.unzipIntBE bs).1) size⟩
  else ⟨numDocs, bs.take size⟩

section
variable (z : Compressor) (file : Bytes) (n : Nat) (keep : Nat → Bool) (ids : Option (List Nat)) (pack : Bool)

def readDocFromSmallBlock (c : Cache) (b : Block) (rowid : Nat) : List Bytes × Cache :=
  let read := c.fetch keep b.offset (uncompressSmallBlock z file b)
  -- the documents are counted by an `int`
  let numDocs := if read.1.numDocs < 2 ^ 31 then read.1.numDocs else 0
  (smallDocs n rowid ids pack numDocs b.rowid read.1.data, read.2)

structure FieldInfo where
  flags           : Nat := 0
  compressedLen   : Nat := 0
  uncompressedLen : Nat := 0

/-- The flags and lengths of one field. -/
def readInfo (bs : Bytes) : FieldInfo × Bytes :=
  let flags := (Zip.getByte bs).1
  let bs := (Zip.getByte bs).2
  if flags / 2 % 2 = 1 then (⟨flags, 0, 0⟩, bs)
  else
    let len := (Zip.unzipIntBE bs).1
    let bs := (Zip.unzipIntBE bs).2
    if flags % 2 = 1 then (⟨flags, (Zip.unzipIntBE bs).1, len⟩, (Zip.unzipIntBE bs).2) else (⟨flags, 0, len⟩, bs)

def readInfos : List Nat → Bytes → List FieldInfo → List FieldInfo × Bytes
  | [],      bs, infos => (infos, bs)
  | i :: is, bs, infos => readInfos is (readInfo bs).2 (infos.set i (readInfo bs).1)

def unzipInts : Nat → Bytes → List Nat × Bytes
  | 0,     bs => ([], bs)
  | k + 1, bs => ((Zip.unzipIntBE bs).1 :: (unzipInts k (Zip.unzipIntBE bs).2).1, (unzipInts k (Zip.unzipIntBE bs).2).2)

/-- The place in the file, the cache and the result while the fields of a big block are read. -/
structure BigState where
  offset : Nat
  cache  : Cache
  res    : List Bytes

def processBigBlockField (info : FieldInfo) (i : Nat) (s : BigState) : BigState :=
  if info.flags / 2 % 2 = 1 then s
  else
    let len := if info.flags % 2 = 1 then info.compressedLen else info.uncompressedLen
    match fieldInRset ids i with
    | none => { s with offset := s.offset + len }
    | some j =>
      let raw := readFromFile file s.offset len
      let read := s.cache.fetch keep s.offset
        ⟨0, if info.flags % 2 = 1 then z.decompress raw info.uncompressedLen else raw⟩
      ⟨s.offset + len, read.2, s.res.set j (packData pack read.1.data)⟩

/-- The first half of `ReadDocFromBigBlock`: the order of the fields and what the header says of each. -/
def readHeader (bs : Bytes) : List Nat × List FieldInfo :=
  let reorder : Bool := (Zip.getByte bs).1 / 2 % 2 = 1
  let bs := (Zip.getByte bs).2
  let order := if reorder then (unzipInts n bs).1 else List.range n
  (order, (readInfos order (if reorder then (unzipInts n bs).2 else bs) (List.replicate n {})).1)

def readDocFromBigBlock (c : Cache) (b : Block) : List Bytes × Cache :=
  let header := readHeader n (readFromFile file b.offset b.headerSize)
  let done := header.1.foldl (fun s i => processBigBlockField z file keep ids pack (header.2.getD i {}) i s)
    ⟨b.offset + b.headerSize, c, List.replicate (wanted n ids).length []⟩
  (done.res, done.cache)

end

/-! ## Bytes at a place -/

/-- The file holds these bytes at this place. -/
def HoldsAt (file : Bytes) (offset : Nat) (bs : Bytes) : Prop := (file.drop offset).take bs.length = bs

theorem holdsAt_append {file : Bytes} {offset : Nat} {a b : Bytes} (h : HoldsAt file offset (a ++ b)) :
    HoldsAt file offset a ∧ HoldsAt file (offset + a.length) b := by
  have hsplit := congrArg (List.take a.length) h
  have hdrop := congrArg (List.drop a.length) h
  rw [take_take, take_left, length_append, min_eq_left (Nat.le_add_right _ _)] at hsplit
  rw [drop_take, drop_left, length_append, Nat.add_sub_cancel_left, drop_drop] at hdrop
  exact ⟨hsplit, hdrop⟩

theorem holdsAt_of_append {pre bs post : Bytes} : HoldsAt (pre ++ (bs ++ post)) pre.length bs := by
  unfold HoldsAt
  rw [drop_left, take_left]

theorem readFromFile_of_holdsAt {file bs : Bytes} {offset : Nat} (h : HoldsAt file offset bs) (hlen : bs.length < 2 ^ 31) :
    readFromFile file offset bs.length = bs := by
  rw [readFromFile, if_pos hlen, h]

/-! ## Small blocks -/

theorem length_le_putDocs (n : Nat) (docs : List (List Bytes)) : docs.length ≤ (docs.flatMap (putDoc n)).length := by
  have hpos : ∀ doc ∈ docs, 1 ≤ (putDoc n doc).length := by
    intro doc _
    unfold putDoc
    dsimp only
    split_ifs <;> simp
  rw [length_flatMap]
  simpa using card_nsmul_le_sum (docs.map fun doc => (putDoc n doc).length) 1 (by simpa using hpos)

theorem smallBlock_pos (z : Compressor) (n : Nat) (docs : List (List Bytes)) : 0 < (smallBlock z n docs).length := by
  cases hz : z.compress (seen (docs.flatMap (putDoc n))) with
  | none =>
    simp only [smallBlock, hz, length_cons]
    exact Nat.succ_pos _
  | some y =>
    simp only [smallBlock, hz, length_cons]
    exact Nat.succ_pos _

/-- **A small block uncompresses to its documents.** -/
theorem uncompressSmallBlock_spec (z : Compressor) (file : Bytes) (n : Nat) (docs : List (List Bytes)) (b : Block)
    (hat : HoldsAt file b.offset (smallBlock z n docs)) (hsize : b.size = (smallBlock z n docs).length)
    (hblock : (smallBlock z n docs).length < 2 ^ 31) (hbuffer : (docs.flatMap (putDoc n)).length < 2 ^ 31) :
    uncompressSmallBlock z file b = ⟨docs.length, docs.flatMap (putDoc n)⟩ := by
  have hdocs : docs.length < 2 ^ 32 := lt_of_le_of_lt (length_le_putDocs n docs) (by omega)
  have hread : readFromFile file b.offset b.size = smallBlock z n docs := by
    rw [hsize]
    exact readFromFile_of_holdsAt hat hblock
  unfold uncompressSmallBlock
  rw [hread, smallBlock, seen_of_lt hbuffer, Nat.mod_eq_of_lt hdocs,
    Nat.mod_eq_of_lt (show (docs.flatMap (putDoc n)).length < 2 ^ 32 by omega)]
  generalize hbuf : docs.flatMap (putDoc n) = buffer at hbuffer
  cases hz : z.compress buffer with
  | none =>
    have hflag : ¬ (0 : UInt8).toNat % 2 = 1 := by decide
    simp only [Zip.getByte_cons, append_assoc, Zip.unzipIntBE_zipBE _ hdocs, hflag, if_false,
      Zip.unzipIntBE_zipBE buffer.length (by omega), take_length]
  | some y =>
    have hflag : (1 : UInt8).toNat % 2 = 1 := by decide
    have hy := z.shorter _ _ hz
    have hylt : y.length < 2 ^ 32 := by omega
    simp only [Zip.getByte_cons, append_assoc, Zip.unzipIntBE_zipBE _ hdocs, hflag, if_true,
      Zip.unzipIntBE_zipBE buffer.length (by omega), Nat.mod_eq_of_lt hylt, Zip.unzipIntBE_zipBE _ hylt, take_length,
      z.lossless _ _ hz]

variable {n : Nat}

/-- **A document of a small block is read back**, whatever a sound cache holds. -/
theorem readDocFromSmallBlock_spec (z : Compressor) (file : Bytes) (keep : Nat → Bool) {ids : Option (List Nat)}
    (hids : (wanted n ids).Nodup) (pack : Bool) (hc : c.Sound places) (hp : Functional places)
    (docs : List (List Bytes)) (b : Block) (hat : HoldsAt file b.offset (smallBlock z n docs))
    (hsize : b.size = (smallBlock z n docs).length) (hblock : (smallBlock z n docs).length < 2 ^ 31)
    (hbuffer : (docs.flatMap (putDoc n)).length < 2 ^ 31) (hdocs : ∀ d ∈ docs, d.length = n ∧ ∀ f ∈ d, f.length < 2 ^ 32)
    (hplace : (b.offset, ⟨docs.length, docs.flatMap (putDoc n)⟩) ∈ places) {rowid : Nat} (hrow : b.rowid ≤ rowid)
    (hdoc : docs[rowid - b.rowid]? = some doc) :
    (readDocFromSmallBlock z file n keep ids pack c b rowid).1.map (opened pack) = (wanted n ids).map (doc.getD · []) ∧
    (readDocFromSmallBlock z file n keep ids pack c b rowid).2.Sound places := by
  unfold readDocFromSmallBlock
  rw [uncompressSmallBlock_spec z file n docs b hat hsize hblock hbuffer]
  obtain ⟨hread, hsound⟩ := Cache.fetch_spec hc hp keep hplace
  refine ⟨?_, hsound⟩
  simp only [hread, if_pos (lt_of_le_of_lt (length_le_putDocs n docs) hbuffer)]
  have := smallDocs_spec hids pack [] docs b.rowid rowid doc hdocs hrow hdoc
  rwa [append_nil] at this

/-! ## Big blocks -/

/-- What the header of a big block says about a field. -/
def infoOf (z : Compressor) (f : Bytes) : FieldInfo :=
  match z.compress f with
  | some y => if f = [] then ⟨3, 0, 0⟩ else ⟨1, y.length, f.length⟩
  | none => if f = [] then ⟨2, 0, 0⟩ else ⟨0, 0, f.length⟩

theorem readInfo_fieldHeader (z : Compressor) {f : Bytes} (h : f.length < 2 ^ 32) (rest : Bytes) :
    readInfo (fieldHeader z f ++ rest) = (infoOf z f, rest) := by
  have hf := Nat.mod_eq_of_lt h
  cases hz : z.compress f with
  | none =>
    by_cases hnil : f = []
    · have h1 : (2 : UInt8).toNat / 2 % 2 = 1 := by decide
      simp only [fieldHeader, infoOf, hz, if_pos hnil, readInfo, singleton_append, Zip.getByte_cons, h1]
      rfl
    · have h1 : ¬ (0 : UInt8).toNat / 2 % 2 = 1 := by decide
      have h2 : ¬ (0 : UInt8).toNat % 2 = 1 := by decide
      simp only [fieldHeader, infoOf, hz, hnil, if_false, readInfo, cons_append, Zip.getByte_cons, h1, h2, hf,
        Zip.unzipIntBE_zipBE _ h]
      rfl
  | some y =>
    by_cases hnil : f = []
    · have h1 : (3 : UInt8).toNat / 2 % 2 = 1 := by decide
      simp only [fieldHeader, infoOf, hz, if_pos hnil, readInfo, singleton_append, Zip.getByte_cons, h1]
      rfl
    · have h1 : ¬ (1 : UInt8).toNat / 2 % 2 = 1 := by decide
      have h2 : (1 : UInt8).toNat % 2 = 1 := by decide
      have hy : y.length < 2 ^ 32 := lt_of_le_of_lt (z.shorter _ _ hz) h
      simp only [fieldHeader, infoOf, hz, hnil, if_false, readInfo, cons_append, Zip.getByte_cons, h1, h2, hf,
        Zip.unzipIntBE_zipBE _ h, append_assoc, Nat.mod_eq_of_lt hy, Zip.unzipIntBE_zipBE _ hy, if_true]
      rfl

theorem readInfos_spec (z : Compressor) (hdoc : ∀ f ∈ doc, f.length < 2 ^ 32) (rest : Bytes) (order : List Nat) :
    ∀ (infos : List FieldInfo),
    readInfos order ((order.flatMap fun i => fieldHeader z (doc.getD i [])) ++ rest) infos
      = (assign some (order.map fun i => (i, infoOf z (doc.getD i []))) infos, rest) := by
  have hget : ∀ i, (doc.getD i []).length < 2 ^ 32 := by
    intro i
    rw [getD_eq_getElem?_getD]
    cases hi : doc[i]? with
    | none => exact Nat.two_pow_pos 32
    | some f => exact hdoc f (mem_of_getElem? hi)
  induction order with
  | nil => exact fun infos => rfl
  | cons i is ih =>
    intro infos
    rw [flatMap_cons, append_assoc, readInfos, readInfo_fieldHeader z (hget i)]
    exact ih _

theorem unzipInts_spec (rest : Bytes) (order : List Nat) : (∀ i ∈ order, i < 2 ^ 32) →
    unzipInts order.length ((order.flatMap fun i => Zip.zipBE (i % 2 ^ 32)) ++ rest) = (order, rest) := by
  induction order with
  | nil => exact fun _ => rfl
  | cons i is ih =>
    intro h
    have hi := h i (mem_cons_self ..)
    have hrest := ih (forall_mem_cons.mp h).2
    rw [flatMap_cons, append_assoc, length_cons, unzipInts, Nat.mod_eq_of_lt hi,
      Zip.unzipIntBE_zipBE _ hi, hrest]

/-- The places of the fields of a big block. -/
def bigPlaces (z : Compressor) (doc : List Bytes) : Nat → List Nat → List (Nat × BlockData)
  | _,      []      => []
  | offset, i :: is =>
    if doc.getD i [] = [] then bigPlaces z doc offset is
    else (offset, ⟨0, doc.getD i []⟩) :: bigPlaces z doc (offset + (storedField z (doc.getD i [])).length) is

/-- The values that reading the fields in this order assigns. -/
def bigVals (pack : Bool) (doc : List Bytes) (order : List Nat) : List (Nat × Bytes) :=
  (order.filter fun i => decide (doc.getD i [] ≠ [])).map fun i => (i, packData pack (doc.getD i []))

section
variable (z : Compressor) (file : Bytes) (keep : Nat → Bool) (ids : Option (List Nat)) (pack : Bool) (hp : Functional places)
include z file keep ids pack hp

/-- One field of a big block: it is read from where it stands. -/
theorem processBigBlockField_spec {f : Bytes} (hf : f.length < 2 ^ 31) (i : Nat) (s : BigState) (hc : s.cache.Sound places)
    (hat : HoldsAt file s.offset (storedField z f)) (hplace : f ≠ [] → (s.offset, ⟨0, f⟩) ∈ places) :
    (processBigBlockField z file keep ids pack (infoOf z f) i s).offset = s.offset + (storedField z f).length ∧
    (processBigBlockField z file keep ids pack (infoOf z f) i s).cache.Sound places ∧
    (processBigBlockField z file keep ids pack (infoOf z f) i s).res
      = if f = [] then s.res else setField (fieldInRset ids) i (packData pack f) s.res := by
  by_cases hnil : f = []
  · -- an empty field is told by its flag, and nothing is stored for it
    have hskip : processBigBlockField z file keep ids pack (infoOf z f) i s = s := by
      unfold processBigBlockField infoOf
      cases z.compress f with
      | none => simp only [hnil, if_true]
      | some y => simp only [hnil, if_true]
    rw [hskip, if_pos hnil]
    exact ⟨by rw [storedField, if_pos hnil]; rfl, hc, rfl⟩
  · have hempty : ¬ (infoOf z f).flags / 2 % 2 = 1 := by
      unfold infoOf
      cases z.compress f <;> simp [hnil]
    have hlen : (if (infoOf z f).flags % 2 = 1 then (infoOf z f).compressedLen else (infoOf z f).uncompressedLen)
        = (storedField z f).length := by
      unfold infoOf storedField
      cases z.compress f <;> simp [hnil]
    have hstored : (storedField z f).length < 2 ^ 31 := by
      unfold storedField
      cases hz : z.compress f with
      | none => simpa [hnil] using hf
      | some y => simpa [hnil] using lt_of_le_of_lt (z.shorter _ _ hz) hf
    have hfresh : (if (infoOf z f).flags % 2 = 1 then z.decompress (storedField z f) (infoOf z f).uncompressedLen
        else storedField z f) = f := by
      unfold infoOf storedField
      cases hz : z.compress f with
      | none => simp [hnil]
      | some y => simp [hnil, z.lossless _ _ hz]
    obtain ⟨hread, hsound⟩ := Cache.fetch_spec hc hp keep (hplace hnil)
    unfold processBigBlockField
    rw [if_neg hempty, if_neg hnil]
    simp only [hlen, readFromFile_of_holdsAt hat hstored, hfresh]
    unfold setField
    cases fieldInRset ids i with
    | none => exact ⟨rfl, hc, rfl⟩
    | some j => exact ⟨rfl, hsound, by simp only [hread]⟩

/-- **All fields of a big block are read**, in whatever order they are stored. -/
theorem processBigBlockFields_spec (hdoc : ∀ f ∈ doc, f.length < 2 ^ 31) (infos : List FieldInfo) (order : List Nat) :
    ∀ (s : BigState),
    (∀ i ∈ order, infos.getD i {} = infoOf z (doc.getD i [])) → s.cache.Sound places →
    HoldsAt file s.offset (bigData z order doc) → (∀ p ∈ bigPlaces z doc s.offset order, p ∈ places) →
    (order.foldl (fun s i => processBigBlockField z file keep ids pack (infos.getD i {}) i s) s).cache.Sound places ∧
    (order.foldl (fun s i => processBigBlockField z file keep ids pack (infos.getD i {}) i s) s).res
      = assign (fieldInRset ids) (bigVals pack doc order) s.res := by
  have hget : ∀ i, (doc.getD i []).length < 2 ^ 31 := by
    intro i
    rw [getD_eq_getElem?_getD]
    cases hi : doc[i]? with
    | none => exact Nat.two_pow_pos 31
    | some f => exact hdoc f (mem_of_getElem? hi)
  induction order with
  | nil => exact fun s _ hc _ _ => ⟨hc, rfl⟩
  | cons i is ih =>
    intro s hinfos hc hat hplaces
    obtain ⟨hhead, htail⟩ := holdsAt_append hat
    rw [bigPlaces] at hplaces
    have hplace : doc.getD i [] ≠ [] → (s.offset, ⟨0, doc.getD i []⟩) ∈ places := by
      intro hne
      rw [if_neg hne] at hplaces
      exact hplaces _ (mem_cons_self ..)
    obtain ⟨hoff, hsound, hres⟩ := processBigBlockField_spec z file keep ids pack hp (hget i) i s hc hhead hplace
    have hrest : ∀ p ∈ bigPlaces z doc (s.offset + (storedField z (doc.getD i [])).length) is, p ∈ places := by
      intro p hmem
      split at hplaces
      · rename_i hnil
        rw [storedField, if_pos hnil] at hmem
        exact hplaces p hmem
      · exact hplaces p (mem_cons_of_mem _ hmem)
    rw [foldl_cons, hinfos i (mem_cons_self ..)]
    obtain ⟨hcache, hvals⟩ := ih _ (forall_mem_cons.mp hinfos).2 hsound (by rw [hoff]; exact htail)
      (by rw [hoff]; exact hrest)
    refine ⟨hcache, ?_⟩
    rw [hvals, hres]
    unfold bigVals
    by_cases hnil : doc.getD i [] = []
    · rw [if_pos hnil, filter_cons_of_neg (by simpa using hnil)]
    · rw [if_neg hnil, filter_cons_of_pos (by simpa using hnil)]
      rfl

end

theorem nodup_bigVals (pack : Bool) (doc : List Bytes) (h : order.Nodup) : ((bigVals pack doc order).map Prod.fst).Nodup := by
  have hfst : (bigVals pack doc order).map Prod.fst = order.filter fun i => decide (doc.getD i [] ≠ []) := by
    rw [bigVals, map_map]
    exact map_id _
  rw [hfst]
  exact h.filter _

theorem opened_bigVals (pack : Bool) (hdoc : ∀ f ∈ doc, f.length < 2 ^ 32) (i : Nat) (h : i ∈ order ∨ doc.getD i [] = []) :
    opened pack ((valueOf i (bigVals pack doc order)).getD []) = doc.getD i [] := by
  induction order with
  | nil =>
    rcases h with h | h
    · cases h
    · rw [h]
      exact opened_nil pack
  | cons k ks ih =>
    unfold bigVals at ih ⊢
    by_cases hnil : doc.getD k [] = []
    · rw [filter_cons_of_neg (by simpa using hnil)]
      apply ih
      rcases h with h | h
      · rcases mem_cons.mp h with rfl | h
        · exact Or.inr hnil
        · exact Or.inl h
      · exact Or.inr h
    · rw [filter_cons_of_pos (by simpa using hnil), map_cons, valueOf]
      by_cases hki : k = i
      · have hmem : doc.getD i [] ∈ doc := by
          rw [getD_eq_getElem?_getD] at hnil ⊢
          rw [← hki]
          cases hk : doc[k]? with
          | none => rw [hk] at hnil; exact absurd rfl hnil
          | some f => exact mem_of_getElem? hk
        rw [if_pos hki, Option.getD_some, hki]
        exact opened_packData pack (hdoc _ hmem)
      · rw [if_neg hki]
        apply ih
        rcases h with h | h
        · rcases mem_cons.mp h with rfl | h
          · exact absurd rfl hki
          · exact Or.inl h
        · exact Or.inr h

/-- The header of a big block gives back the order and the description of every field. -/
theorem readHeader_bigHeader (z : Compressor) (reorder : Bool) (hperm : order.Perm (List.range n)) (hn : n < 2 ^ 32)
    (horder : reorder = false → order = List.range n) (hdoc : ∀ f ∈ doc, f.length < 2 ^ 32) :
    readHeader n (bigHeader z order reorder doc)
      = (order, assign some (order.map fun i => (i, infoOf z (doc.getD i []))) (List.replicate n {})) := by
  have hlen : order.length = n := by rw [hperm.length_eq, length_range]
  have hlt : ∀ i ∈ order, i < 2 ^ 32 := fun i hi => lt_trans (mem_range.mp (hperm.mem_iff.mp hi)) hn
  have hinfos := readInfos_spec z hdoc [] order (List.replicate n {})
  rw [append_nil] at hinfos
  unfold readHeader bigHeader
  cases reorder with
  | false =>
    have hflag : decide ((0 : UInt8).toNat / 2 % 2 = 1) = false := by decide
    simp only [Bool.false_eq_true, if_false, nil_append, Zip.getByte_cons, hflag, ← horder rfl, hinfos]
  | true =>
    have hflag : decide ((2 : UInt8).toNat / 2 % 2 = 1) = true := by decide
    have hints := unzipInts_spec (order.flatMap fun i => fieldHeader z (doc.getD i [])) order hlt
    rw [hlen] at hints
    simp only [if_true, Zip.getByte_cons, hflag, hints, hinfos]

theorem valueOf_map {α : Type} (g : Nat → α) {i : Nat} (hi : i ∈ order) :
    valueOf i (order.map fun k => (k, g k)) = some (g i) := by
  induction order with
  | nil => cases hi
  | cons k ks ih =>
    rw [map_cons, valueOf]
    by_cases hki : k = i
    · rw [if_pos hki, hki]
    · rw [if_neg hki]
      rcases mem_cons.mp hi with rfl | hi
      · exact absurd rfl hki
      · exact ih hi

theorem getD_assign_infos (z : Compressor) (hperm : order.Perm (List.range n)) (doc : List Bytes) {i : Nat}
    (hi : i ∈ order) : (assign some (order.map fun k => (k, infoOf z (doc.getD k []))) (List.replicate n {})).getD i {}
      = infoOf z (doc.getD i []) := by
  have hnodup : ((order.map fun k => (k, infoOf z (doc.getD k []))).map Prod.fst).Nodup := by
    have hfst : (order.map fun k => (k, infoOf z (doc.getD k []))).map Prod.fst = order := by
      rw [map_map]
      exact map_id order
    rw [hfst]
    exact hperm.nodup_iff.mpr nodup_range
  have hget := getElem?_assign some (fun a b j ha hb => (Option.some.inj ha).trans (Option.some.inj hb).symm)
    (rfl : some i = some i) _ (List.replicate n ({} : FieldInfo)) hnodup
    (by rw [length_replicate]; exact mem_range.mp (hperm.mem_iff.mp hi))
  rw [getD_eq_getElem?_getD, hget, valueOf_map (fun k => infoOf z (doc.getD k [])) hi]
  rfl

/-- **A document of a big block is read back**, whatever a sound cache holds. -/
theorem readDocFromBigBlock_spec (z : Compressor) (file : Bytes) (keep : Nat → Bool) {ids : Option (List Nat)}
    (hids : (wanted n ids).Nodup) (pack : Bool) (hc : c.Sound places) (hp : Functional places) (reorder : Bool)
    (hperm : order.Perm (List.range n)) (hn : n < 2 ^ 32) (horder : reorder = false → order = List.range n)
    (hlen : doc.length = n) (hdoc : ∀ f ∈ doc, f.length < 2 ^ 31) (b : Block)
    (hheader : (bigHeader z order reorder doc).length < 2 ^ 31)
    (hat : HoldsAt file b.offset (bigHeader z order reorder doc ++ bigData z order doc))
    (hsize : b.headerSize = (bigHeader z order reorder doc).length)
    (hplaces : ∀ p ∈ bigPlaces z doc (b.offset + b.headerSize) order, p ∈ places) :
    (readDocFromBigBlock z file n keep ids pack c b).1.map (opened pack) = (wanted n ids).map (doc.getD · []) ∧
    (readDocFromBigBlock z file n keep ids pack c b).2.Sound places := by
  have hdoc' : ∀ f ∈ doc, f.length < 2 ^ 32 := fun f hf => lt_trans (hdoc f hf) (by decide)
  obtain ⟨hhead, hdata⟩ := holdsAt_append hat
  unfold readDocFromBigBlock
  rw [hsize, readFromFile_of_holdsAt hhead hheader, readHeader_bigHeader z reorder hperm hn horder hdoc']
  obtain ⟨hsound, hres⟩ := processBigBlockFields_spec z file keep ids pack hp hdoc
    (assign some (order.map fun k => (k, infoOf z (doc.getD k []))) (List.replicate n {})) order
    ⟨b.offset + (bigHeader z order reorder doc).length, c, List.replicate (wanted n ids).length []⟩
    (fun i hi => getD_assign_infos z hperm doc hi) hc hdata (by rw [← hsize]; exact hplaces)
  refine ⟨?_, hsound⟩
  simp only [hres]
  apply map_opened_assign pack hids (nodup_bigVals pack doc (hperm.nodup_iff.mpr nodup_range))
  intro i _
  apply opened_bigVals pack hdoc'
  by_cases hi : i < n
  · exact Or.inl (hperm.mem_iff.mpr (mem_range.mpr hi))
  · right
    rw [getD_eq_getElem?_getD, getElem?_eq_none (by omega)]
    rfl

end Docstore
end Manticore

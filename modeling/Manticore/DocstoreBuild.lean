import Manticore.DocstoreRead
/-!
# DocstoreBuild — writing a document storage (`DocstoreBuilder_c` in `docstore.cpp`)

Documents are collected until the next one would not fit a block; then they are written as one small block, or as a big
one when a single document fills it.  The file starts with the settings and room for the place of the block headers, which
come last.

`cuts` says how documents fall into blocks, by the 32-bit sums of their lengths.  `build_spec` says that the file is the
settings, the blocks of those cuts one after another and their headers, as long as the headers can be counted by an `int`.
-/
namespace Manticore
namespace Docstore
open List

/-- `Compression_e`. -/
inductive Compression
  | none | lz4 | lz4hc
  deriving DecidableEq, Repr

def Compression.toByte : Compression → UInt8
  | none => 0
  | lz4 => 1
  | lz4hc => 2

/-- `Byte2Compression`. -/
def Compression.ofByte (b : Nat) : Compression := if b = 1 then lz4 else if b = 2 then lz4hc else none

def DataType.toByte : DataType → UInt8
  | text => 0
  | bin => 1
  | attr => 2
  | knnChunkSpans => 3

/-- The cast of a byte. -/
def DataType.ofByte (b : Nat) : DataType :=
  if b = 0 then text else if b = 1 then bin else if b = 2 then attr else knnChunkSpans

/-- A field of `DocstoreFields_c`. -/
structure Field where
  name : Bytes
  type : DataType
  deriving DecidableEq

/-- The settings of a builder, the two compressors of the library and its sort.  Whether the fields of a big block are
reordered is decided by the length of a scratch buffer that may be left from another field or document; it is passed for
each block. -/
structure Config where
  fields      : List Field
  blockSize   : Nat
  compression : Compression
  lz4         : Compressor
  lz4hc       : Compressor
  sort        : List (Nat × Nat) → List (Nat × Nat)
  sort_perm   : ∀ l, (sort l).Perm l
  needReorder : Nat → Bool

/-- `CreateCompressor`. -/
def createCompressor (lz4 lz4hc : Compressor) : Compression → Compressor
  | .none => Compressor.none
  | .lz4 => lz4
  | .lz4hc => lz4hc

namespace Config
variable (cfg : Config)

def compressor : Compressor := createCompressor cfg.lz4 cfg.lz4hc cfg.compression

def numFields : Nat := cfg.fields.length

/-- The order of the fields in a big block: by their stored size, if they are reordered. -/
def fieldOrder (reorder : Bool) (doc : List Bytes) : List Nat :=
  if reorder then
    (cfg.sort ((List.range cfg.numFields).map fun i =>
      (i, ((cfg.compressor.compress (doc.getD i [])).getD (doc.getD i [])).length))).map Prod.fst
  else List.range cfg.numFields

theorem fieldOrder_perm (reorder : Bool) (doc : List Bytes) :
    (cfg.fieldOrder reorder doc).Perm (List.range cfg.numFields) := by
  unfold fieldOrder
  cases reorder with
  | false => exact List.Perm.refl _
  | true =>
    rw [if_pos rfl]
    refine ((cfg.sort_perm _).map Prod.fst).trans ?_
    rw [map_map]
    exact List.Perm.of_eq (map_id _)

end Config

/-- The trailing zero of a text is not stored. -/
def stripField (t : DataType) (f : Bytes) : Bytes := if t = .text ∧ f.getLast? = some 0 then f.dropLast else f

def stripDoc (cfg : Config) (doc : List Bytes) : List Bytes := List.zipWith (fun fld f => stripField fld.type f) cfg.fields doc

def docLen (doc : List Bytes) : Nat := (doc.map List.length).sum

/-! ## The builder -/

structure Builder where
  writer          : Writer
  stored          : List (Nat × List Bytes) := []
  storedLen       : Nat := 0
  header          : Bytes := []
  headerOffset    : Nat := 0
  numBlocks       : Nat := 0
  prevBlockOffset : Nat := 0
  prevBlockRowid  : Nat := 0

section
variable (cfg : Config)

/-- One round of the loop in `DocstoreFields_c::Save`. -/
def saveField (w : Writer) (f : Field) : Writer :=
  ((w.putByte f.type.toByte).putDword f.name.length).putBytes f.name

/-- `DocstoreFields_c::Save`. -/
def saveFields (w : Writer) : Writer := cfg.fields.foldl saveField (w.putDword cfg.fields.length)

def writeInitialHeader (b : Builder) : Builder :=
  let w := saveFields cfg (((b.writer.putDword 1).putDword cfg.blockSize).putByte cfg.compression.toByte)
  { b with writer := (w.putDword 0).putOffset 0, headerOffset := w.pos }

/-- The part of a block header that both kinds have, with the state that the next one is taken against. -/
def writeBlockHeader (big : Bool) (blockOffset : Nat) (b : Builder) : Builder :=
  let rowid := (b.stored.map Prod.fst).headD 0
  { b with
    header := b.header ++ (Zip.zipBE ((rowid + 2 ^ 32 - b.prevBlockRowid) % 2 ^ 32) ++ ((if big then 1 else 0) ::
      Zip.zipBE ((blockOffset - b.prevBlockOffset) % 2 ^ 64)))
    prevBlockOffset := blockOffset
    prevBlockRowid := rowid }

def writeSmallBlock (b : Builder) : Builder :=
  let docs := b.stored.map Prod.snd
  let buffer := docs.flatMap (putDoc cfg.numFields)
  let b := writeBlockHeader false b.writer.pos b
  match cfg.compressor.compress (seen buffer) with
  | some y =>
    { b with writer := ((((b.writer.putByte 1).zipInt docs.length).zipInt buffer.length).zipInt y.length).putBytes y }
  | none =>
    { b with writer := (((b.writer.putByte 0).zipInt docs.length).zipInt buffer.length).putBytes (seen buffer) }

/-- The flags and lengths of a field in a big block. -/
def putFieldHeader (z : Compressor) (w : Writer) (f : Bytes) : Writer :=
  match z.compress f with
  | some y => if f = [] then w.putByte 3 else ((w.putByte 1).zipInt f.length).zipInt y.length
  | none => if f = [] then w.putByte 2 else (w.putByte 0).zipInt f.length

def putFieldData (z : Compressor) (w : Writer) (f : Bytes) : Writer :=
  if f = [] then w else w.putBytes ((z.compress f).getD f)

def writeBigBlock (b : Builder) : Builder :=
  let doc := (b.stored.map Prod.snd).headD []
  let reorder := cfg.needReorder b.numBlocks
  let order := cfg.fieldOrder reorder doc
  let start := b.writer.pos
  let w := b.writer.putByte (if reorder then 2 else 0)
  let w := if reorder then order.foldl (fun w i => w.zipInt i) w else w
  let w := order.foldl (fun w i => putFieldHeader cfg.compressor w (doc.getD i [])) w
  let headerSize := w.pos - start
  let w := order.foldl (fun w i => putFieldData cfg.compressor w (doc.getD i [])) w
  let b := writeBlockHeader true start b
  { b with writer := w, header := b.header ++ Zip.zipBE (headerSize % 2 ^ 32) }

def writeBlock (b : Builder) : Builder :=
  let b := if b.writer.pos = 0 then writeInitialHeader cfg b else b
  if b.stored = [] then b
  else
    let b := if b.stored.length % 2 ^ 32 = 1 ∧ cfg.blockSize ≤ b.storedLen then writeBigBlock cfg b
      else writeSmallBlock cfg b
    { b with numBlocks := b.numBlocks + 1, storedLen := 0, stored := [] }

def addDoc (b : Builder) (rowid : Nat) (doc : List Bytes) : Builder :=
  let len := docLen doc % 2 ^ 32
  let b := if cfg.blockSize < (b.storedLen + len) % 2 ^ 32 then writeBlock cfg b else b
  { b with stored := b.stored ++ [(rowid, stripDoc cfg doc)], storedLen := (b.storedLen + len) % 2 ^ 32 }

/-- Documents with consecutive rows from `rowid` on. -/
def addDocs (b : Builder) : Nat → List (List Bytes) → Builder
  | _,     []          => b
  | rowid, doc :: docs => addDocs (addDoc cfg b rowid doc) (rowid + 1) docs

/-- `WriteTrailingHeader`, up to the close of the file. -/
def writeTrailingHeader (b : Builder) : Writer :=
  let w := b.writer.putBytes (seen b.header)
  ((w.flush.seekTo b.headerOffset).putDword b.numBlocks).putOffset b.writer.pos

/-- The file after `Init`, all `AddDoc` and `Finalize`. -/
def build (bufferSize : Nat) (hbuf : 0 < bufferSize) (rowid : Nat) (docs : List (List Bytes)) : Bytes :=
  let b := addDocs cfg { writer := Writer.openFile bufferSize hbuf } rowid docs
  (writeTrailingHeader (writeBlock cfg b)).file

/-! ## How documents fall into blocks -/

/-- Blocks that are complete, and the documents of the next one. -/
structure Cut where
  done    : List (List (List Bytes)) := []
  pending : List (List Bytes) := []
  len     : Nat := 0

def Cut.close (s : Cut) : Cut := if s.pending = [] then s else { done := s.done ++ [s.pending] }

def Cut.add (blockSize : Nat) (s : Cut) (doc : List Bytes) : Cut :=
  let len := docLen doc % 2 ^ 32
  let s := if blockSize < (s.len + len) % 2 ^ 32 then s.close else s
  { s with pending := s.pending ++ [doc], len := (s.len + len) % 2 ^ 32 }

/-- The documents of each block. -/
def cuts (blockSize : Nat) (docs : List (List Bytes)) : List (List (List Bytes)) :=
  ((docs.foldl (Cut.add blockSize) {}).close).done

/-- A single document that fills a block goes to a big one. -/
def isBig (blockSize : Nat) (run : List (List Bytes)) : Bool :=
  decide (run.length = 1) && decide (blockSize ≤ (run.map docLen).sum % 2 ^ 32)

/-! ## The bytes of the file -/

/-- A block as it is laid out. -/
structure Piece where
  rowid   : Nat
  docs    : List (List Bytes)
  big     : Bool
  reorder : Bool

/-- The blocks of the cuts from the `k`-th on, the first of which starts with the given row. -/
def piecesFrom : Nat → Nat → List (List (List Bytes)) → List Piece
  | _,     _, []          => []
  | rowid, k, run :: runs =>
    ⟨rowid, run.map (stripDoc cfg), isBig cfg.blockSize run, cfg.needReorder k⟩ ::
      piecesFrom (rowid + run.length) (k + 1) runs

def pieces (rowid : Nat) (docs : List (List Bytes)) : List Piece := piecesFrom cfg rowid 0 (cuts cfg.blockSize docs)

def Piece.head (p : Piece) : Bytes :=
  bigHeader cfg.compressor (cfg.fieldOrder p.reorder (p.docs.headD [])) p.reorder (p.docs.headD [])

def Piece.bytes (p : Piece) : Bytes :=
  if p.big then p.head cfg ++ bigData cfg.compressor (cfg.fieldOrder p.reorder (p.docs.headD [])) (p.docs.headD [])
  else smallBlock cfg.compressor cfg.numFields p.docs

/-- What the next block header is taken against, and where the next block starts. -/
structure Cursor where
  prevRowid  : Nat
  prevOffset : Nat
  offset     : Nat

def Cursor.next (c : Cursor) (p : Piece) : Cursor := ⟨p.rowid, c.offset, c.offset + (p.bytes cfg).length⟩

def pieceHeader (c : Cursor) (p : Piece) : Bytes :=
  Zip.zipBE ((p.rowid + 2 ^ 32 - c.prevRowid) % 2 ^ 32) ++ ((if p.big then 1 else 0) ::
    (Zip.zipBE ((c.offset - c.prevOffset) % 2 ^ 64) ++ if p.big then Zip.zipBE ((p.head cfg).length % 2 ^ 32) else []))

def pieceHeaders : Cursor → List Piece → Bytes
  | _, []      => []
  | c, p :: ps => pieceHeader cfg c p ++ pieceHeaders (c.next cfg p) ps

/-- The settings at the start of the file. -/
def settingsBytes : Bytes :=
  putLE 4 1 ++ (putLE 4 cfg.blockSize ++ (cfg.compression.toByte :: (putLE 4 cfg.fields.length
    ++ cfg.fields.flatMap fun f => f.type.toByte :: (putLE 4 f.name.length ++ f.name))))

def bodyBytes (ps : List Piece) : Bytes := ps.flatMap (Piece.bytes cfg)

def startCursor : Cursor := ⟨0, 0, (settingsBytes cfg).length + 12⟩

/-- The whole file. -/
def fileBytes (ps : List Piece) : Bytes :=
  settingsBytes cfg ++ ((putLE 4 ps.length ++ putLE 8 ((settingsBytes cfg).length + 12 + (bodyBytes cfg ps).length))
    ++ (bodyBytes cfg ps ++ pieceHeaders cfg (startCursor cfg) ps))

end

/-! ## What is put -/

theorem puts_saveFields (cfg : Config) (w : Writer) : Writer.Puts w (saveFields cfg w) (putLE 4 cfg.fields.length
    ++ cfg.fields.flatMap fun f => f.type.toByte :: (putLE 4 f.name.length ++ f.name)) := by
  have hfield : ∀ (w : Writer) (f : Field),
      Writer.Puts w (saveField w f) (f.type.toByte :: (putLE 4 f.name.length ++ f.name)) := by
    intro w f
    have h := ((Writer.puts_putByte w f.type.toByte).trans (Writer.puts_putDword _ f.name.length)).trans
      (Writer.puts_putBytes _ f.name)
    rw [append_assoc] at h
    exact h
  have h := (Writer.puts_putDword w cfg.fields.length).trans (Writer.Puts.foldl hfield cfg.fields _)
  rw [← flatMap_def] at h
  exact h

theorem puts_initial (cfg : Config) (b : Builder) :
    Writer.Puts b.writer (writeInitialHeader cfg b).writer (settingsBytes cfg ++ (putLE 4 0 ++ putLE 8 0)) ∧
    (writeInitialHeader cfg b).headerOffset = b.writer.pos + (settingsBytes cfg).length := by
  have h := (((Writer.puts_putDword b.writer 1).trans (Writer.puts_putDword _ cfg.blockSize)).trans
    (Writer.puts_putByte _ cfg.compression.toByte)).trans (puts_saveFields cfg _)
  have hbytes : ((putLE 4 1 ++ putLE 4 cfg.blockSize) ++ [cfg.compression.toByte]) ++ (putLE 4 cfg.fields.length
      ++ cfg.fields.flatMap fun f => f.type.toByte :: (putLE 4 f.name.length ++ f.name)) = settingsBytes cfg := by
    simp only [settingsBytes, append_assoc, singleton_append]
  rw [hbytes] at h
  refine ⟨?_, h.pos⟩
  have hroom := (h.trans (Writer.puts_putDword _ 0)).trans (Writer.puts_putOffset _ 0)
  rw [append_assoc] at hroom
  exact hroom

theorem puts_writeSmallBlock (cfg : Config) (b : Builder) :
    Writer.Puts b.writer (writeSmallBlock cfg b).writer
      (smallBlock cfg.compressor cfg.numFields (b.stored.map Prod.snd)) := by
  unfold writeSmallBlock smallBlock
  simp only [writeBlockHeader]
  generalize (b.stored.map Prod.snd).flatMap (putDoc cfg.numFields) = buffer
  cases cfg.compressor.compress (seen buffer) with
  | none =>
    have h := (((Writer.puts_putByte b.writer 0).trans (Writer.puts_zipInt _ (b.stored.map Prod.snd).length)).trans
      (Writer.puts_zipInt _ buffer.length)).trans (Writer.puts_putBytes _ (seen buffer))
    simp only [append_assoc, singleton_append] at h ⊢
    exact h
  | some y =>
    have h := ((((Writer.puts_putByte b.writer 1).trans (Writer.puts_zipInt _ (b.stored.map Prod.snd).length)).trans
      (Writer.puts_zipInt _ buffer.length)).trans (Writer.puts_zipInt _ y.length)).trans (Writer.puts_putBytes _ y)
    simp only [append_assoc, singleton_append] at h ⊢
    exact h

theorem puts_putFieldHeader (z : Compressor) (w : Writer) (f : Bytes) :
    Writer.Puts w (putFieldHeader z w f) (fieldHeader z f) := by
  unfold putFieldHeader fieldHeader
  cases z.compress f with
  | none =>
    by_cases hnil : f = []
    · simp only [if_pos hnil]
      exact Writer.puts_putByte w 2
    · simp only [if_neg hnil]
      exact (Writer.puts_putByte w 0).trans (Writer.puts_zipInt _ f.length)
  | some y =>
    by_cases hnil : f = []
    · simp only [if_pos hnil]
      exact Writer.puts_putByte w 3
    · simp only [if_neg hnil]
      have h := ((Writer.puts_putByte w 1).trans (Writer.puts_zipInt _ f.length)).trans (Writer.puts_zipInt _ y.length)
      rw [append_assoc] at h
      exact h

theorem puts_putFieldData (z : Compressor) (w : Writer) (f : Bytes) :
    Writer.Puts w (putFieldData z w f) (storedField z f) := by
  unfold putFieldData storedField
  by_cases hnil : f = []
  · rw [if_pos hnil, if_pos hnil]
    exact Writer.Puts.refl w
  · rw [if_neg hnil, if_neg hnil]
    exact Writer.puts_putBytes w _

/-- A big block: its header and its data, the length of the header, and the block header. -/
theorem writeBigBlock_spec (cfg : Config) (b : Builder) :
    let doc := (b.stored.map Prod.snd).headD []
    let reorder := cfg.needReorder b.numBlocks
    let head := bigHeader cfg.compressor (cfg.fieldOrder reorder doc) reorder doc
    Writer.Puts b.writer (writeBigBlock cfg b).writer (head ++ bigData cfg.compressor (cfg.fieldOrder reorder doc) doc) ∧
    (writeBigBlock cfg b).header = (writeBlockHeader true b.writer.pos b).header ++ Zip.zipBE (head.length % 2 ^ 32) := by
  intro doc reorder head
  have hfields := fun w => Writer.Puts.foldl (fun w i => puts_putFieldHeader cfg.compressor w (doc.getD i []))
    (cfg.fieldOrder reorder doc) w
  have hdata := fun w => Writer.Puts.foldl (fun w i => puts_putFieldData cfg.compressor w (doc.getD i []))
    (cfg.fieldOrder reorder doc) w
  have hhead : Writer.Puts b.writer
      ((cfg.fieldOrder reorder doc).foldl (fun w i => putFieldHeader cfg.compressor w (doc.getD i []))
        (if reorder then (cfg.fieldOrder reorder doc).foldl (fun w i => w.zipInt i) (b.writer.putByte (if reorder then 2 else 0))
          else b.writer.putByte (if reorder then 2 else 0))) head := by
    cases hre : reorder with
    | false =>
      rw [hre] at hfields
      have h := (Writer.puts_putByte b.writer 0).trans (hfields _)
      rw [← flatMap_def] at h
      simp only [head, hre, bigHeader, Bool.false_eq_true, if_false, nil_append]
      exact h
    | true =>
      rw [hre] at hfields
      have horder := Writer.Puts.foldl (fun w i => Writer.puts_zipInt w i) (cfg.fieldOrder true doc) (b.writer.putByte 2)
      have h := ((Writer.puts_putByte b.writer 2).trans horder).trans (hfields _)
      rw [← flatMap_def, ← flatMap_def, append_assoc] at h
      simp only [head, hre, bigHeader, if_true]
      exact h
  refine ⟨?_, ?_⟩
  · have h := hhead.trans (hdata _)
    rw [← flatMap_def] at h
    exact h
  · have hsize := hhead.pos
    show (writeBlockHeader true b.writer.pos b).header ++ Zip.zipBE ((_ - b.writer.pos) % 2 ^ 32) = _
    rw [hsize, Nat.add_sub_cancel_left]

/-! ## The builder follows the cuts -/

/-- Documents with their rows. -/
def numberDocs (rowid : Nat) : List (List Bytes) → List (Nat × List Bytes)
  | []          => []
  | doc :: docs => (rowid, doc) :: numberDocs (rowid + 1) docs

theorem numberDocs_snoc (docs : List (List Bytes)) (doc : List Bytes) : ∀ (rowid : Nat),
    numberDocs rowid (docs ++ [doc]) = numberDocs rowid docs ++ [(rowid + docs.length, doc)] := by
  induction docs with
  | nil => exact fun rowid => rfl
  | cons d docs ih =>
    intro rowid
    have hrow : rowid + 1 + docs.length = rowid + (docs.length + 1) := by omega
    rw [cons_append, numberDocs, ih, numberDocs, cons_append, length_cons, hrow]

@[simp] theorem map_snd_numberDocs (docs : List (List Bytes)) : ∀ (rowid : Nat),
    (numberDocs rowid docs).map Prod.snd = docs := by
  induction docs with
  | nil => exact fun rowid => rfl
  | cons d docs ih =>
    intro rowid
    rw [numberDocs, map_cons, ih]

theorem piecesFrom_snoc (cfg : Config) (run : List (List Bytes)) (runs : List (List (List Bytes))) : ∀ (rowid k : Nat),
    piecesFrom cfg rowid k (runs ++ [run]) = piecesFrom cfg rowid k runs ++ [⟨rowid + runs.flatten.length,
      run.map (stripDoc cfg), isBig cfg.blockSize run, cfg.needReorder (k + runs.length)⟩] := by
  induction runs with
  | nil => exact fun rowid k => rfl
  | cons r runs ih =>
    intro rowid k
    rw [cons_append, piecesFrom, ih, piecesFrom, flatten_cons, length_append, length_cons, add_assoc, add_assoc,
      Nat.add_comm 1, cons_append]

theorem length_piecesFrom (cfg : Config) (runs : List (List (List Bytes))) : ∀ (rowid k : Nat),
    (piecesFrom cfg rowid k runs).length = runs.length := by
  induction runs with
  | nil => exact fun rowid k => rfl
  | cons run runs ih =>
    intro rowid k
    rw [piecesFrom, length_cons, ih, length_cons]

theorem pieceHeaders_snoc (cfg : Config) (p : Piece) (ps : List Piece) : ∀ (c : Cursor),
    pieceHeaders cfg c (ps ++ [p]) = pieceHeaders cfg c ps ++ pieceHeader cfg (ps.foldl (Cursor.next cfg) c) p := by
  induction ps with
  | nil =>
    intro c
    show pieceHeader cfg c p ++ [] = [] ++ pieceHeader cfg c p
    rw [append_nil, nil_append]
  | cons q qs ih =>
    intro c
    rw [cons_append, pieceHeaders, ih, pieceHeaders, append_assoc]
    rfl

theorem offset_foldl_next (cfg : Config) (ps : List Piece) : ∀ (c : Cursor),
    (ps.foldl (Cursor.next cfg) c).offset = c.offset + (bodyBytes cfg ps).length := by
  induction ps with
  | nil => exact fun c => rfl
  | cons q qs ih =>
    intro c
    rw [foldl_cons, ih, bodyBytes, bodyBytes, flatMap_cons, length_append, ← add_assoc]
    rfl

/-- The builder has written the blocks `ps` and nothing else. -/
structure Laid (cfg : Config) (b : Builder) (ps : List Piece) : Prop where
  atEnd     : b.writer.AtEnd
  written   : b.writer.written = [] ∧ ps = [] ∨ b.headerOffset = (settingsBytes cfg).length ∧
    b.writer.written = settingsBytes cfg ++ (putLE 4 0 ++ putLE 8 0) ++ bodyBytes cfg ps
  header    : b.header = pieceHeaders cfg (startCursor cfg) ps
  prevRow   : b.prevBlockRowid = (ps.foldl (Cursor.next cfg) (startCursor cfg)).prevRowid
  prevOff   : b.prevBlockOffset = (ps.foldl (Cursor.next cfg) (startCursor cfg)).prevOffset
  numBlocks : b.numBlocks = ps.length

/-- The settings are there as well. -/
structure Begun (cfg : Config) (b : Builder) (ps : List Piece) : Prop extends Laid cfg b ps where
  place : b.headerOffset = (settingsBytes cfg).length
  bytes : b.writer.written = settingsBytes cfg ++ (putLE 4 0 ++ putLE 8 0) ++ bodyBytes cfg ps

theorem length_settingsBytes_pos (cfg : Config) : 0 < (settingsBytes cfg).length := by
  unfold settingsBytes
  rw [length_append, length_putLE]
  omega

variable {cfg : Config} {b : Builder} {ps : List Piece}

/-- The start of `WriteBlock`: the first block is preceded by the settings. -/
def headed (cfg : Config) (b : Builder) : Builder := if b.writer.pos = 0 then writeInitialHeader cfg b else b

theorem begun_of_laid (h : Laid cfg b ps) : Begun cfg (headed cfg b) ps := by
  unfold headed
  rcases h.written with ⟨hnil, hps⟩ | ⟨hoff, hwritten⟩
  · have hpos : b.writer.pos = 0 := by rw [Writer.pos_eq, hnil]; rfl
    obtain ⟨hputs, hoff⟩ := puts_initial cfg b
    have hoff' : (writeInitialHeader cfg b).headerOffset = (settingsBytes cfg).length := by rw [hoff, hpos, zero_add]
    have hwritten : (writeInitialHeader cfg b).writer.written
        = settingsBytes cfg ++ (putLE 4 0 ++ putLE 8 0) ++ bodyBytes cfg ps := by
      rw [hputs.written, hnil, hps]
      simp [bodyBytes]
    rw [if_pos hpos]
    exact
      { h with
        atEnd := hputs.atEnd h.atEnd
        written := Or.inr ⟨hoff', hwritten⟩
        place := hoff'
        bytes := hwritten }
  · have hpos : b.writer.pos ≠ 0 := by
      have := length_settingsBytes_pos cfg
      rw [Writer.pos_eq, hwritten]
      simp only [length_append]
      omega
    rw [if_neg hpos]
    exact { h with place := hoff, bytes := hwritten }

/-- The block of the documents that are stored. -/
def pieceOf (cfg : Config) (b : Builder) (big : Bool) : Piece where
  rowid := (b.stored.map Prod.fst).headD 0
  docs := b.stored.map Prod.snd
  big := big
  reorder := cfg.needReorder b.numBlocks

/-- **A block is written with its header**, whichever kind it is. -/
theorem writePiece_spec (cfg : Config) (b : Builder) (big : Bool) (c : Cursor) (hrow : b.prevBlockRowid = c.prevRowid)
    (hoff : b.prevBlockOffset = c.prevOffset) (hpos : b.writer.pos = c.offset) :
    let b' := if big = true then writeBigBlock cfg b else writeSmallBlock cfg b
    Writer.Puts b.writer b'.writer ((pieceOf cfg b big).bytes cfg) ∧
    b'.header = b.header ++ pieceHeader cfg c (pieceOf cfg b big) ∧
    b'.prevBlockRowid = (pieceOf cfg b big).rowid ∧ b'.prevBlockOffset = c.offset ∧ b'.numBlocks = b.numBlocks ∧
    b'.headerOffset = b.headerOffset := by
  cases big with
  | true =>
    obtain ⟨hputs, hheader⟩ := writeBigBlock_spec cfg b
    refine ⟨hputs, ?_, rfl, hpos, rfl, rfl⟩
    show (writeBigBlock cfg b).header = _
    rw [hheader]
    simp only [writeBlockHeader, pieceHeader, pieceOf, Piece.head, if_true, hrow, hoff, hpos, append_assoc,
      cons_append]
  | false =>
    have hputs := puts_writeSmallBlock cfg b
    have hheader : (writeSmallBlock cfg b).header = (writeBlockHeader false b.writer.pos b).header ∧
        (writeSmallBlock cfg b).prevBlockRowid = (pieceOf cfg b false).rowid ∧
        (writeSmallBlock cfg b).prevBlockOffset = b.writer.pos ∧ (writeSmallBlock cfg b).numBlocks = b.numBlocks ∧
        (writeSmallBlock cfg b).headerOffset = b.headerOffset := by
      simp only [writeSmallBlock]
      cases cfg.compressor.compress (seen ((b.stored.map Prod.snd).flatMap (putDoc cfg.numFields))) with
      | none => exact ⟨rfl, rfl, rfl, rfl, rfl⟩
      | some y => exact ⟨rfl, rfl, rfl, rfl, rfl⟩
    obtain ⟨h1, h2, h3, h4, h5⟩ := hheader
    refine ⟨hputs, ?_, h2, h3.trans hpos, h4, h5⟩
    show (writeSmallBlock cfg b).header = _
    rw [h1]
    simp only [writeBlockHeader, pieceHeader, pieceOf, Bool.false_eq_true, if_false, hrow, hoff, hpos, append_nil]

/-- The test of `WriteBlock` for a big block. -/
def fillsBlock (cfg : Config) (b : Builder) : Bool :=
  decide (b.stored.length % 2 ^ 32 = 1) && decide (cfg.blockSize ≤ b.storedLen)

theorem writeBlock_nil (h : Laid cfg b ps) (hnil : b.stored = []) :
    Begun cfg (writeBlock cfg b) ps ∧ (writeBlock cfg b).stored = [] ∧ (writeBlock cfg b).storedLen = b.storedLen := by
  have hbegun := begun_of_laid h
  have hstored : (headed cfg b).stored = [] ∧ (headed cfg b).storedLen = b.storedLen := by
    unfold headed
    split
    · exact ⟨hnil, rfl⟩
    · exact ⟨hnil, rfl⟩
  unfold writeBlock
  simp only [← headed.eq_1, if_pos hstored.1]
  exact ⟨hbegun, hstored⟩

/-- **`WriteBlock` writes the stored documents as one block.** -/
theorem writeBlock_laid (h : Laid cfg b ps) (hne : b.stored ≠ []) :
    Begun cfg (writeBlock cfg b) (ps ++ [pieceOf cfg b (fillsBlock cfg b)]) ∧ (writeBlock cfg b).stored = [] ∧
    (writeBlock cfg b).storedLen = 0 := by
  have hbegun := begun_of_laid h
  have hsame : pieceOf cfg (headed cfg b) (fillsBlock cfg b) = pieceOf cfg b (fillsBlock cfg b) ∧
      fillsBlock cfg (headed cfg b) = fillsBlock cfg b ∧ (headed cfg b).stored ≠ [] := by
    unfold headed
    split
    · exact ⟨rfl, rfl, hne⟩
    · exact ⟨rfl, rfl, hne⟩
  obtain ⟨hpiece, hfills, hne1⟩ := hsame
  unfold writeBlock
  rw [← hpiece, ← hfills]
  simp only [← headed.eq_1]
  generalize headed cfg b = b1 at hbegun hne1 ⊢
  have hbig : (b1.stored.length % 2 ^ 32 = 1 ∧ cfg.blockSize ≤ b1.storedLen) ↔ fillsBlock cfg b1 = true := by
    rw [fillsBlock, Bool.and_eq_true, decide_eq_true_eq, decide_eq_true_eq]
  have hpos : b1.writer.pos = (ps.foldl (Cursor.next cfg) (startCursor cfg)).offset := by
    rw [offset_foldl_next, Writer.pos_eq, hbegun.bytes]
    simp only [length_append, length_putLE, startCursor]
  obtain ⟨hputs, hheader, hprow, hpoff, hnum, hhoff⟩ := writePiece_spec cfg b1 (fillsBlock cfg b1)
    (ps.foldl (Cursor.next cfg) (startCursor cfg)) hbegun.prevRow hbegun.prevOff hpos
  simp only [hne1, if_false, hbig]
  generalize (if fillsBlock cfg b1 = true then writeBigBlock cfg b1 else writeSmallBlock cfg b1) = b2
    at hputs hheader hprow hpoff hnum hhoff
  have hwritten : b2.writer.written = settingsBytes cfg ++ (putLE 4 0 ++ putLE 8 0)
      ++ bodyBytes cfg (ps ++ [pieceOf cfg b1 (fillsBlock cfg b1)]) := by
    rw [hputs.written, hbegun.bytes, bodyBytes, bodyBytes, flatMap_append, append_assoc _ (List.flatMap _ ps)]
    simp
  refine ⟨?_, trivial, trivial⟩
  exact
    { atEnd := hputs.atEnd hbegun.atEnd
      written := Or.inr ⟨hhoff.trans hbegun.place, hwritten⟩
      header := by
        show b2.header = _
        rw [hheader, hbegun.header, pieceHeaders_snoc]
      prevRow := by
        show b2.prevBlockRowid = _
        rw [hprow, foldl_append]
        rfl
      prevOff := by
        show b2.prevBlockOffset = _
        rw [hpoff, foldl_append]
        rfl
      numBlocks := by
        show b2.numBlocks + 1 = _
        rw [hnum, hbegun.numBlocks, length_append, length_singleton]
      place := hhoff.trans hbegun.place
      bytes := hwritten }

/-! ## The cuts -/

/-- The builder has written the blocks of the cuts and keeps the documents after them. -/
structure Inv (cfg : Config) (rowid : Nat) (b : Builder) (s : Cut) : Prop extends
    Laid cfg b (piecesFrom cfg rowid 0 s.done) where
  stored    : b.stored = numberDocs (rowid + s.done.flatten.length) (s.pending.map (stripDoc cfg))
  storedLen : b.storedLen = s.len
  len       : s.len = (s.pending.map docLen).sum % 2 ^ 32

variable {rowid : Nat} {s : Cut}

/-- **Writing a block closes the cut.** -/
theorem inv_writeBlock (h : Inv cfg rowid b s) (hcount : s.pending.length < 2 ^ 32) :
    Inv cfg rowid (writeBlock cfg b) s.close ∧ Begun cfg (writeBlock cfg b) (piecesFrom cfg rowid 0 s.close.done) := by
  by_cases hpend : s.pending = []
  · have hnil : b.stored = [] := by rw [h.stored, hpend]; rfl
    obtain ⟨hbegun, hstored, hlen⟩ := writeBlock_nil h.toLaid hnil
    rw [Cut.close, if_pos hpend]
    refine ⟨?_, hbegun⟩
    exact
      { hbegun.toLaid with
        stored := by rw [hstored, hpend]; rfl
        storedLen := hlen.trans h.storedLen
        len := h.len }
  · obtain ⟨doc, docs, hcons⟩ := exists_cons_of_ne_nil hpend
    have hne : b.stored ≠ [] := by
      rw [h.stored, hcons]
      exact cons_ne_nil _ _
    have hdocs : b.stored.map Prod.snd = s.pending.map (stripDoc cfg) := by rw [h.stored, map_snd_numberDocs]
    have hbig : fillsBlock cfg b = isBig cfg.blockSize s.pending := by
      have hlen : b.stored.length = s.pending.length := by
        have := congrArg List.length hdocs
        rwa [length_map, length_map] at this
      rw [fillsBlock, isBig, hlen, Nat.mod_eq_of_lt hcount, h.storedLen, h.len]
    have hrow : (b.stored.map Prod.fst).headD 0 = rowid + s.done.flatten.length := by
      rw [h.stored, hcons]
      rfl
    have hpiece : piecesFrom cfg rowid 0 (s.done ++ [s.pending]) =
        piecesFrom cfg rowid 0 s.done ++ [pieceOf cfg b (fillsBlock cfg b)] := by
      rw [piecesFrom_snoc, pieceOf, hrow, hdocs, hbig, h.numBlocks, length_piecesFrom, zero_add]
    obtain ⟨hbegun, hstored, hlen⟩ := writeBlock_laid h.toLaid hne
    rw [Cut.close, if_neg hpend]
    rw [← hpiece] at hbegun
    exact ⟨{ hbegun.toLaid with stored := hstored, storedLen := hlen, len := rfl }, hbegun⟩

theorem flatten_close (s : Cut) : s.close.done.flatten ++ s.close.pending = s.done.flatten ++ s.pending := by
  unfold Cut.close
  split
  · rfl
  · simp

theorem flatten_add (blockSize : Nat) (s : Cut) (doc : List Bytes) :
    (s.add blockSize doc).done.flatten ++ (s.add blockSize doc).pending = s.done.flatten ++ s.pending ++ [doc] := by
  unfold Cut.add
  dsimp only
  split
  · rw [← append_assoc, flatten_close]
  · rw [← append_assoc]

/-- **Adding a document adds it to the cut.** -/
theorem inv_addDoc (h : Inv cfg rowid b s) (hcount : s.pending.length < 2 ^ 32) (doc : List Bytes) :
    Inv cfg rowid (addDoc cfg b (rowid + (s.done.flatten.length + s.pending.length)) doc) (s.add cfg.blockSize doc) := by
  have hstep : ∀ (b' : Builder) (s' : Cut), Inv cfg rowid b' s' →
      s'.done.flatten.length + s'.pending.length = s.done.flatten.length + s.pending.length →
      Inv cfg rowid { b' with
          stored := b'.stored ++ [(rowid + (s.done.flatten.length + s.pending.length), stripDoc cfg doc)]
          storedLen := (b'.storedLen + docLen doc % 2 ^ 32) % 2 ^ 32 }
        { s' with pending := s'.pending ++ [doc], len := (s'.len + docLen doc % 2 ^ 32) % 2 ^ 32 } := by
    intro b' s' h' hsame
    exact
      { atEnd := h'.atEnd
        written := h'.written
        header := h'.header
        prevRow := h'.prevRow
        prevOff := h'.prevOff
        numBlocks := h'.numBlocks
        stored := by
          show b'.stored ++ _ = numberDocs _ ((s'.pending ++ [doc]).map _)
          rw [h'.stored, map_append, map_singleton, numberDocs_snoc, length_map, ← hsame, Nat.add_assoc]
        storedLen := by
          show (b'.storedLen + docLen doc % 2 ^ 32) % 2 ^ 32 = (s'.len + docLen doc % 2 ^ 32) % 2 ^ 32
          rw [h'.storedLen]
        len := by
          show (s'.len + docLen doc % 2 ^ 32) % 2 ^ 32 = ((s'.pending ++ [doc]).map docLen).sum % 2 ^ 32
          rw [h'.len, map_append, sum_append, ← Nat.add_mod, map_singleton, sum_singleton] }
  have hsame : (b.storedLen + docLen doc % 2 ^ 32) % 2 ^ 32 = (s.len + docLen doc % 2 ^ 32) % 2 ^ 32 := by rw [h.storedLen]
  unfold addDoc Cut.add
  dsimp only
  by_cases hfull : cfg.blockSize < (s.len + docLen doc % 2 ^ 32) % 2 ^ 32
  · rw [if_pos (hsame ▸ hfull), if_pos hfull]
    exact hstep _ _ (inv_writeBlock h hcount).1 (by simpa using congrArg List.length (flatten_close s))
  · rw [if_neg (hsame ▸ hfull), if_neg hfull]
    exact hstep b s h rfl

theorem laid_init (cfg : Config) (bufferSize : Nat) (hbuf : 0 < bufferSize) :
    Laid cfg { writer := Writer.openFile bufferSize hbuf } [] where
  atEnd := Writer.atEnd_openFile bufferSize hbuf
  written := Or.inl ⟨rfl, rfl⟩
  header := rfl
  prevRow := rfl
  prevOff := rfl
  numBlocks := rfl

theorem inv_init (cfg : Config) (rowid bufferSize : Nat) (hbuf : 0 < bufferSize) :
    Inv cfg rowid { writer := Writer.openFile bufferSize hbuf } {} where
  toLaid := laid_init cfg bufferSize hbuf
  stored := rfl
  storedLen := rfl
  len := rfl

/-- **A whole run of documents.** -/
theorem inv_addDocs (docs : List (List Bytes)) : ∀ {b : Builder} {s : Cut}, Inv cfg rowid b s →
    s.done.flatten.length + s.pending.length + docs.length < 2 ^ 32 →
    Inv cfg rowid (addDocs cfg b (rowid + (s.done.flatten.length + s.pending.length)) docs)
      (docs.foldl (Cut.add cfg.blockSize) s) := by
  induction docs with
  | nil => exact fun h _ => h
  | cons doc docs ih =>
    intro b s h hcount
    rw [length_cons] at hcount
    have hadd := congrArg List.length (flatten_add cfg.blockSize s doc)
    simp only [length_append, length_singleton] at hadd
    have hnext := ih (inv_addDoc h (by omega) doc) (by omega)
    rw [hadd] at hnext
    exact hnext

theorem flatten_foldl_add (blockSize : Nat) (docs : List (List Bytes)) : ∀ (s : Cut),
    (docs.foldl (Cut.add blockSize) s).done.flatten ++ (docs.foldl (Cut.add blockSize) s).pending
      = s.done.flatten ++ s.pending ++ docs := by
  induction docs with
  | nil => exact fun s => (append_nil _).symm
  | cons doc docs ih =>
    intro s
    rw [foldl_cons, ih, flatten_add, append_assoc, singleton_append]

theorem pending_close (s : Cut) : s.close.pending = [] := by
  unfold Cut.close
  split
  · assumption
  · rfl

/-- **The cuts are the documents in their order.** -/
theorem flatten_cuts (blockSize : Nat) (docs : List (List Bytes)) : (cuts blockSize docs).flatten = docs := by
  have h := flatten_close (docs.foldl (Cut.add blockSize) {})
  rw [pending_close, append_nil, flatten_foldl_add] at h
  exact h

/-- The trailing header goes behind the blocks, and its place into the room after the settings. -/
theorem file_writeTrailingHeader (h : Begun cfg b ps) (hps : (pieceHeaders cfg (startCursor cfg) ps).length < 2 ^ 31) :
    (writeTrailingHeader b).file = fileBytes cfg ps := by
  have hoff := h.place
  have hwritten := h.bytes
  rw [← h.header] at hps
  have hputs := Writer.puts_putBytes b.writer (seen b.header)
  have hend := hputs.atEnd h.atEnd
  have hfile : (b.writer.putBytes (seen b.header)).file = settingsBytes cfg ++ ((putLE 4 0 ++ putLE 8 0)
      ++ (bodyBytes cfg ps ++ pieceHeaders cfg (startCursor cfg) ps)) := by
    rw [Writer.file_of_atEnd hend, hputs.written, hwritten, seen_of_lt hps, h.header]
    simp only [append_assoc]
  have hpos : (settingsBytes cfg).length < (b.writer.putBytes (seen b.header)).pos := by
    rw [hputs.pos, Writer.pos_eq, hwritten]
    simp only [length_append, length_putLE]
    omega
  have hseek : ((b.writer.putBytes (seen b.header)).flush.seekTo b.headerOffset).file
      = (b.writer.putBytes (seen b.header)).file := by
    rw [hoff, Writer.file_seekTo _ _ ?_ (Or.inl hpos), Writer.file_flush]
    rw [Writer.file_flush, hfile, length_append]
    exact Nat.le_add_right _ _
  have hplace : b.writer.pos = (settingsBytes cfg).length + 12 + (bodyBytes cfg ps).length := by
    rw [Writer.pos_eq, hwritten]
    simp only [length_append, length_putLE]
  have hover := ((Writer.puts_putDword ((b.writer.putBytes (seen b.header)).flush.seekTo b.headerOffset) b.numBlocks).trans
    (Writer.puts_putOffset _ b.writer.pos)).file
  unfold writeTrailingHeader
  rw [hover, hseek, hfile, Writer.pos_seekTo, hoff, Writer.overwrite_mid _ _ _ _ rfl (by simp), h.numBlocks, hplace]
  rfl

/-- **The file holds the blocks of the cuts.** -/
theorem build_spec (cfg : Config) (bufferSize : Nat) (hbuf : 0 < bufferSize) (rowid : Nat) (docs : List (List Bytes))
    (hcount : docs.length < 2 ^ 32)
    (hheaders : (pieceHeaders cfg (startCursor cfg) (pieces cfg rowid docs)).length < 2 ^ 31) :
    build cfg bufferSize hbuf rowid docs = fileBytes cfg (pieces cfg rowid docs) := by
  have h := inv_addDocs docs (inv_init cfg rowid bufferSize hbuf) (by simpa using hcount)
  have hpend : (docs.foldl (Cut.add cfg.blockSize) {}).pending.length < 2 ^ 32 := by
    have := congrArg List.length (flatten_foldl_add cfg.blockSize docs {})
    simp only [length_append, flatten_nil, length_nil] at this
    omega
  exact file_writeTrailingHeader (inv_writeBlock h hpend).2 hheaders

end Docstore
end Manticore

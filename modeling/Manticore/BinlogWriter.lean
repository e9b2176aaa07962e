import Manticore.FileIo
import Manticore.Wildcard
/-!
# BinlogWriter — what failed writes leave of a binlog file (`binlog.cpp`)

`BinlogWriter_c` collects records in a buffer, and writes the buffer as a whole.  A write that fails cuts the file back to
what was written before, and may cut the last record off the buffer.  The steps are the commits and the background flushes of
one file; every write may fail, after any number of bytes.  Seek and truncate succeed, and the file is not rotated.
-/
namespace Manticore
namespace Binlog
open List

def BINLOG_WRITE_BUFFER : Nat := 256 * 1024
def BINLOG_HEADER_MAGIC_SPBL : Nat := 0x4c425053
def BLOP_MAGIC_TXN : Nat := 0x214e5854
def BINLOG_VERSION : Nat := 17

/-- `MemoryWriter2_c::ZipOffset`. -/
def zipOffset (v : Nat) : List UInt8 := Zip.zipBE (v % 2 ^ 64)

/-- `BinlogWriter_c`, with the bytes of its file. -/
structure BinlogWriter where
  file                    : List UInt8
  buf                     : List UInt8
  lastFilePos             : Nat
  lastTransactionStartPos : Nat

namespace BinlogWriter

/-- `Write`.  With `failed` some number of bytes, only these reach the file, which is cut at the end of the last written
transaction again. -/
def write (w : BinlogWriter) (removeUnsuccessful : Bool) (failed : Option Nat) : BinlogWriter × Bool :=
  if w.buf = [] then (w, true)
  else
    match failed with
    | some n =>
      ({ w with
          file := (w.file ++ w.buf.take n).take w.lastFilePos
          buf := if removeUnsuccessful then w.buf.take w.lastTransactionStartPos else w.buf }, false)
    | none =>
      ({ file := w.file ++ w.buf
         buf := []
         lastFilePos := w.lastFilePos + w.buf.length
         lastTransactionStartPos := 0 }, true)

def put (w : BinlogWriter) (bs : List UInt8) : BinlogWriter := { w with buf := w.buf ++ bs }

def startTransaction (w : BinlogWriter) : BinlogWriter :=
  { w with lastTransactionStartPos := w.buf.length, buf := w.buf ++ putLE 4 BLOP_MAGIC_TXN }

/-- `EndTransaction`; the error of a write is not handled here. -/
def endTransaction (crc : List UInt8 → Nat) (w : BinlogWriter) (startTransaction : Nat) (writeOnOverflow : Bool)
    (failed : Option Nat) : BinlogWriter :=
  let w := w.put (putLE 4 (crc (w.buf.drop startTransaction)))
  if writeOnOverflow && BINLOG_WRITE_BUFFER < w.buf.length then (w.write false failed).1 else w

/-- The scope of a `BinlogTransactionGuard_c`. -/
def transactionGuard (crc : List UInt8 → Nat) (w : BinlogWriter) (writeOnOverflow : Bool) (failed : Option Nat)
    (scope : BinlogWriter → BinlogWriter) : BinlogWriter :=
  (scope w.startTransaction).endTransaction crc (w.buf.length + 4) writeOnOverflow failed

/-- The scope of a `TransactionSizeGuard_c`: the placeholder gets the size of what the saver has put. -/
def transactionSizeGuard (w : BinlogWriter) (data : List UInt8) : BinlogWriter :=
  let w' := (w.put (putLE 4 0)).put data
  { w' with buf := w'.buf.take w.buf.length ++ putLE 4 (w'.buf.length - w.buf.length - 4) ++ w'.buf.drop (w.buf.length + 4) }

end BinlogWriter

def header : List UInt8 := putLE 4 BINLOG_HEADER_MAGIC_SPBL ++ putLE 4 BINLOG_VERSION

/-- `FlushAction_e` of the modes 0, 2 and 3. -/
inductive FlushAction
  | none
  | write
  | fsyncOnClose
  deriving DecidableEq

/-- `SingleBinlog_c` on one file: its writer, and the tables registered in the file. -/
structure SingleBinlog where
  writer     : BinlogWriter
  indexInfos : List Str

variable {b : SingleBinlog} {txns : List Txn}

section Commit
variable (crc : List UInt8 → Nat)

def getWriteIndexID (b : SingleBinlog) (name : Str) : SingleBinlog × Nat :=
  if name ∈ b.indexInfos then (b, b.indexInfos.idxOf name)
  else
    let id := b.indexInfos.length
    ({ writer := b.writer.transactionGuard crc false none fun w =>
          ((w.put [1]).put (zipOffset id)).put (zipOffset name.length ++ name)
       indexInfos := b.indexInfos ++ [name] }, id)

/-- `BinlogCommit` of a transaction that gets the id `tid`; a commit writes at most once. -/
def binlogCommit (flushFlavour : FlushAction) (b : SingleBinlog) (name : Str) (tid : Nat) (data : List UInt8)
    (failed : Option Nat) : SingleBinlog × Bool :=
  let (b, index) := getWriteIndexID crc b name
  let w := b.writer.transactionGuard crc (flushFlavour = .none) failed fun w =>
    (((w.put [2]).put (zipOffset index)).put (zipOffset tid)).transactionSizeGuard data
  if flushFlavour = .none then ({ b with writer := w }, true)
  else
    let (w, ok) := w.write true failed
    ({ b with writer := w }, ok)

def doFlush (flushFlavour : FlushAction) (b : SingleBinlog) (failed : Option Nat) : SingleBinlog :=
  if flushFlavour = .none then { b with writer := (b.writer.write true failed).1 } else b

/-- A transaction: its table, its id and its data. -/
abbrev Txn := Str × Nat × List UInt8

inductive Step
  | commit (name : Str) (tid : Nat) (data : List UInt8) (failed : Option Nat)
  | flush (failed : Option Nat)

/-- A step on the log and the transactions whose `BinlogCommit` has returned true. -/
def step (flushFlavour : FlushAction) (s : SingleBinlog × List Txn) : Step → SingleBinlog × List Txn
  | .commit name tid data failed =>
    let (b, ok) := binlogCommit crc flushFlavour s.1 name tid data failed
    (b, if ok then s.2 ++ [(name, tid, data)] else s.2)
  | .flush failed => (doFlush flushFlavour s.1 failed, s.2)

/-- The log after `OpenNewLog`. -/
def opened : SingleBinlog × List Txn := (⟨⟨[], header, 0, 0⟩, []⟩, [])

/-! ## Records -/

inductive Record
  | addIndex (id : Nat) (name : Str)
  | addTxn (index tid : Nat) (data : List UInt8)

def Record.body : Record → List UInt8
  | addIndex id name => 1 :: (zipOffset id ++ (zipOffset name.length ++ name))
  | addTxn index tid data => 2 :: (zipOffset index ++ (zipOffset tid ++ (putLE 4 data.length ++ data)))

def Record.bytes (r : Record) : List UInt8 := putLE 4 BLOP_MAGIC_TXN ++ (r.body ++ putLE 4 (crc r.body))

/-- The tables and the transactions with one more record: a table gets the next number, a transaction the table of its
number. -/
def Record.read (known : List Str × List Txn) : Record → Option (List Str × List Txn)
  | addIndex id name => if id = known.1.length then some (known.1 ++ [name], known.2) else none
  | addTxn index tid data => known.1[index]?.map fun name => (known.1, known.2 ++ [(name, tid, data)])

/-- The file and the buffer hold the header and then complete records, which give just these transactions. -/
def Holds (s : SingleBinlog × List Txn) : Prop :=
  ∃ rs : List Record, s.1.writer.file ++ s.1.writer.buf = header ++ rs.flatMap (Record.bytes crc) ∧
    rs.foldlM Record.read ([], []) = some (s.1.indexInfos, s.2)

/-- What holds between the steps: besides, the file ends where the writer takes it to end. -/
structure Inv (s : SingleBinlog × List Txn) : Prop where
  pos   : s.1.writer.file.length = s.1.writer.lastFilePos
  holds : Holds crc s

variable {crc}

/-- A writer with one more record in its buffer. -/
def BinlogWriter.collect (w : BinlogWriter) (bs : List UInt8) : BinlogWriter :=
  { w with buf := w.buf ++ bs, lastTransactionStartPos := w.buf.length }

theorem Holds.snoc {b' : SingleBinlog} {txns' : List Txn} (h : Holds crc (b, txns)) (r : Record)
    (hbytes : b'.writer.file ++ b'.writer.buf = b.writer.file ++ b.writer.buf ++ r.bytes crc)
    (hread : r.read (b.indexInfos, txns) = some (b'.indexInfos, txns')) : Holds crc (b', txns') := by
  obtain ⟨rs, hrs, hfold⟩ := h
  refine ⟨rs ++ [r], ?_, ?_⟩
  · rw [hbytes, hrs, flatMap_append, flatMap_singleton, append_assoc]
  · rw [foldlM_append, hfold]
    exact (bind_pure _).trans hread

section
variable {w : BinlogWriter} (hpos : w.file.length = w.lastFilePos) (remove : Bool) (failed : Option Nat)
include hpos remove failed

theorem write_pos :
    (w.write remove failed).1.file.length = (w.write remove failed).1.lastFilePos := by
  unfold BinlogWriter.write
  split
  · exact hpos
  · cases failed with
    | none => rw [length_append, hpos]
    | some n => rw [length_take, length_append, hpos, min_eq_left (Nat.le_add_right _ _)]

/-- **A write keeps the bytes**, but for the last transaction of the buffer when it fails and is to remove it. -/
theorem write_bytes :
    (w.write remove failed).1.file ++ (w.write remove failed).1.buf =
      w.file ++ if (w.write remove failed).2 || !remove then w.buf else w.buf.take w.lastTransactionStartPos := by
  unfold BinlogWriter.write
  split
  · rfl
  · cases failed with
    | none => exact append_nil _
    | some n => cases remove <;> simp [← hpos]

end

section Guard
variable (w : BinlogWriter) (r : Record) (failed : Option Nat) {scope : BinlogWriter → BinlogWriter}
  (hscope : ∀ w, scope w = w.put r.body)
include hscope

theorem transactionGuard_eq (overflow : Bool) : w.transactionGuard crc overflow failed scope =
    if overflow && BINLOG_WRITE_BUFFER < (w.collect (r.bytes crc)).buf.length then
      ((w.collect (r.bytes crc)).write false failed).1
    else w.collect (r.bytes crc) := by
  have hbody : (w.buf ++ (putLE 4 BLOP_MAGIC_TXN ++ r.body)).drop (w.buf.length + 4) = r.body := by
    rw [← append_assoc]
    exact drop_left' (by rw [length_append, length_putLE])
  have hput : (scope w.startTransaction).put (putLE 4 (crc ((scope w.startTransaction).buf.drop (w.buf.length + 4)))) =
      w.collect (r.bytes crc) := by
    rw [hscope]
    simp only [BinlogWriter.collect, BinlogWriter.put, BinlogWriter.startTransaction, append_assoc, hbody, Record.bytes]
  rw [BinlogWriter.transactionGuard, BinlogWriter.endTransaction, hput]

/-- **The scope puts its record behind the bytes**, whether the buffer is written or not. -/
theorem transactionGuard_bytes (hpos : w.file.length = w.lastFilePos) (overflow : Bool) :
    (w.transactionGuard crc overflow failed scope).file.length = (w.transactionGuard crc overflow failed scope).lastFilePos ∧
    (w.transactionGuard crc overflow failed scope).file ++ (w.transactionGuard crc overflow failed scope).buf =
      w.file ++ w.buf ++ r.bytes crc := by
  rw [transactionGuard_eq w r failed hscope, append_assoc]
  split
  · refine ⟨write_pos (w := w.collect _) hpos false failed, (write_bytes (w := w.collect _) hpos false failed).trans ?_⟩
    rw [Bool.not_false, Bool.or_true, if_pos rfl]
    rfl
  · exact ⟨hpos, rfl⟩

end Guard

theorem transactionSizeGuard_eq (w : BinlogWriter) (data : List UInt8) :
    w.transactionSizeGuard data = w.put (putLE 4 data.length ++ data) := by
  have hsize : w.buf.length + 4 + data.length - w.buf.length - 4 = data.length := by omega
  have hdrop : (w.buf ++ putLE 4 0 ++ data).drop (w.buf.length + 4) = data :=
    drop_left' (by rw [length_append, length_putLE])
  simp only [BinlogWriter.transactionSizeGuard, BinlogWriter.put, hdrop, length_append, length_putLE, hsize]
  rw [append_assoc w.buf, take_left, append_assoc]

theorem getWriteIndexID_spec (h : Inv crc (b, txns)) (name : Str) :
    Inv crc ((getWriteIndexID crc b name).1, txns) ∧
      (getWriteIndexID crc b name).1.indexInfos[(getWriteIndexID crc b name).2]? = some name := by
  unfold getWriteIndexID
  split
  · exact ⟨h, getElem?_idxOf ‹_›⟩
  · have hscope : ∀ w : BinlogWriter, ((w.put [1]).put (zipOffset b.indexInfos.length)).put (zipOffset name.length ++ name) =
        w.put (Record.addIndex b.indexInfos.length name).body := fun w => by simp [BinlogWriter.put, Record.body]
    obtain ⟨hpos, hbytes⟩ := transactionGuard_bytes b.writer _ none hscope h.pos false
    exact ⟨⟨hpos, h.holds.snoc _ hbytes (by simp [Record.read])⟩, by simp⟩

/-- **A commit keeps the records**: a transaction that is reported as failed is the only one removed. -/
theorem commit_spec (flushFlavour : FlushAction) (h : Inv crc (b, txns)) (name : Str)
    (tid : Nat) (data : List UInt8) (failed : Option Nat) :
    Inv crc (step crc flushFlavour (b, txns) (.commit name tid data failed)) := by
  obtain ⟨⟨hpos, hholds⟩, hname⟩ := getWriteIndexID_spec h name
  rw [step, binlogCommit]
  generalize getWriteIndexID crc b name = got at hpos hholds hname ⊢
  obtain ⟨b, index⟩ := got
  dsimp only at hpos hholds hname ⊢
  have hread : (Record.addTxn index tid data).read (b.indexInfos, txns) = some (b.indexInfos, txns ++ [(name, tid, data)]) := by
    simp only [Record.read, hname, Option.map_some]
  have hscope : ∀ w : BinlogWriter, (((w.put [2]).put (zipOffset index)).put (zipOffset tid)).transactionSizeGuard data =
      w.put (Record.addTxn index tid data).body := by
    intro w
    simp [transactionSizeGuard_eq, BinlogWriter.put, Record.body]
  by_cases hnone : flushFlavour = .none
  · rw [if_pos hnone]
    obtain ⟨hpos', hbytes⟩ := transactionGuard_bytes b.writer _ failed hscope hpos (flushFlavour = .none)
    exact ⟨hpos', hholds.snoc _ hbytes hread⟩
  · -- the commit writes itself
    rw [if_neg hnone, transactionGuard_eq b.writer _ failed hscope, decide_eq_false hnone, Bool.false_and,
      if_neg Bool.false_ne_true]
    refine ⟨write_pos (w := b.writer.collect _) hpos true failed, ?_⟩
    have hbytes := write_bytes (w := b.writer.collect ((Record.addTxn index tid data).bytes crc)) hpos true failed
    rw [Bool.not_true, Bool.or_false] at hbytes
    cases hok : ((b.writer.collect ((Record.addTxn index tid data).bytes crc)).write true failed).2 with
    | true =>
      rw [hok, if_pos rfl, BinlogWriter.collect, ← append_assoc] at hbytes
      exact hholds.snoc _ hbytes hread
    | false =>
      rw [hok, if_neg Bool.false_ne_true, BinlogWriter.collect, take_left] at hbytes
      obtain ⟨rs, hrs, hfold⟩ := hholds
      exact ⟨rs, hbytes.trans hrs, hfold⟩

/-- A background flush that fails finds no transaction behind the start of the last one. -/
def Harmless (flushFlavour : FlushAction) (b : SingleBinlog) : Step → Prop
  | .flush (some _) => flushFlavour = .none → b.writer.buf.length ≤ b.writer.lastTransactionStartPos
  | _ => True

theorem flush_spec (flushFlavour : FlushAction) {s : SingleBinlog × List Txn} (h : Inv crc s) (failed : Option Nat)
    (hsafe : Harmless flushFlavour s.1 (.flush failed)) : Inv crc (step crc flushFlavour s (.flush failed)) := by
  rw [step, doFlush]
  split
  · rename_i hnone
    refine ⟨write_pos h.pos true failed, ?_⟩
    obtain ⟨rs, hrs, hfold⟩ := h.holds
    refine ⟨rs, (write_bytes h.pos true failed).trans ?_, hfold⟩
    rw [← hrs]
    split
    · rfl
    · cases failed with
      | none =>
        rename_i hok
        unfold BinlogWriter.write at hok
        split at hok <;> cases hok rfl
      | some n => rw [take_of_length_le (hsafe hnone)]
  · exact h

/-- Every failing flush of a run is harmless. -/
def Safe (crc : List UInt8 → Nat) (flushFlavour : FlushAction) : SingleBinlog × List Txn → List Step → Prop
  | _, [] => True
  | s, a :: as => Harmless flushFlavour s.1 a ∧ Safe crc flushFlavour (step crc flushFlavour s a) as

theorem inv_opened : Inv crc opened := ⟨rfl, [], rfl, rfl⟩

theorem inv_run (flushFlavour : FlushAction) : ∀ (as : List Step) {s : SingleBinlog × List Txn}, Inv crc s →
    Safe crc flushFlavour s as → Inv crc (as.foldl (step crc flushFlavour) s)
  | [], _, h, _ => h
  | .commit name tid data failed :: as, _, h, hs => inv_run flushFlavour as (commit_spec _ h name tid data failed) hs.2
  | .flush failed :: as, _, h, hs => inv_run flushFlavour as (flush_spec _ h failed hs.1) hs.2

end Commit

/-- **The file and the buffer hold the acknowledged transactions**, after every run without a harmful flush. -/
theorem holds_run (crc : List UInt8 → Nat) (flushFlavour : FlushAction) (as : List Step)
    (hs : Safe crc flushFlavour opened as) : Holds crc (as.foldl (step crc flushFlavour) opened) :=
  (inv_run flushFlavour as inv_opened hs).holds

/-- A flush that fails on an empty buffer, a commit that fails, and two tables with acknowledged transactions. -/
theorem holds_run_twoTables : Holds (fun _ => 0)
    ([.flush none, .flush (some 2), .commit [116] 1 [7] none, .commit [117] 2 [8, 9] (some 1), .flush none,
      .commit [117] 3 [] none].foldl (step (fun _ => 0) .none) opened) :=
  holds_run _ .none _ ⟨trivial, fun _ => by decide, trivial, trivial, trivial, trivial, trivial⟩

/-- A flush that fails takes the header out of the buffer, and an acknowledged transaction. -/
theorem failed_flush_loses : ¬ Holds (fun _ => 0) (step (fun _ => 0) .none opened (.flush (some 0))) ∧
    let s := [.commit [116] 1 [] none, .flush (some 0)].foldl (step (fun _ => 0) .none) opened
    s.2 = [([116], 1, [])] ∧ s.1.writer.file ++ s.1.writer.buf = header ++ (Record.addIndex 0 [116]).bytes fun _ => 0 := by
  refine ⟨?_, by decide, by decide⟩
  rintro ⟨rs, hrs, -⟩
  cases hrs

end Binlog
end Manticore

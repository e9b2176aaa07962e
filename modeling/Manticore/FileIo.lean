import Manticore.Zip
/-!
# FileIo — the buffered file writer and fixed-width integers (`fileio.cpp`, `fileutils.cpp`)

`CSphWriter` keeps the file (`disk`), the place its buffer goes to (`diskPos`) and the buffer (`pool`).  `SeekTo` inside
the buffer cuts the buffer, so what was collected after that place is gone; outside of it the buffer is flushed first and
the file keeps its bytes.  Two views carry every proof about files: `written`, the bytes before the write position, and
`file`, what the file holds once the buffer is flushed.  Write errors are not modelled.
-/
namespace Manticore
open List

/-! ## Fixed-width little-endian integers -/

/-- The `n` low bytes of `v`, least significant first. -/
def putLE : Nat → Nat → List UInt8
  | 0,     _ => []
  | n + 1, v => UInt8.ofNat v :: putLE n (v / 256)

/-- The value of little-endian bytes. -/
def valLE : List UInt8 → Nat
  | []      => 0
  | b :: bs => b.toNat + 256 * valLE bs

/-- `sphUnalignedRead` of an `n`-byte integer at `pos`; `none` when it is not inside the bytes. -/
def readLE (n : Nat) (bs : List UInt8) (pos : Nat) : Option Nat :=
  if pos + n ≤ bs.length then some (valLE ((bs.drop pos).take n)) else none

@[simp] theorem length_putLE : ∀ (n v : Nat), (putLE n v).length = n
  | 0, _ => rfl
  | n + 1, v => by rw [putLE, length_cons, length_putLE n]

theorem valLE_putLE : ∀ (n v : Nat), valLE (putLE n v) = v % 256 ^ n
  | 0, v => by simp [putLE, valLE, Nat.mod_one]
  | n + 1, v => by
    have hpow : 256 ^ (n + 1) = 256 * 256 ^ n := by rw [pow_succ, mul_comm]
    rw [putLE, valLE, valLE_putLE n, UInt8.toNat_ofNat', hpow, Nat.mod_mul]

/-- **Reading where an integer was put gives it back**, if it has the width. -/
theorem readLE_putLE (n v : Nat) (pre post : List UInt8) (h : v < 256 ^ n) :
    readLE n (pre ++ putLE n v ++ post) pre.length = some v := by
  unfold readLE
  have hlen : pre.length + n ≤ (pre ++ putLE n v ++ post).length := by simp
  rw [if_pos hlen, append_assoc, drop_left, take_append_of_le_length (by simp),
    take_of_length_le (by simp), valLE_putLE, Nat.mod_eq_of_lt h]

/-- A 32-bit value kept in an `int`. -/
def toInt32 (n : Nat) : Int := (BitVec.ofNat 32 n).toInt

theorem toInt32_eq (n : Nat) :
    toInt32 n = if n % 2 ^ 32 < 2 ^ 31 then ((n % 2 ^ 32 : Nat) : Int) else ((n % 2 ^ 32 : Nat) : Int) - 2 ^ 32 := by
  rw [toInt32, BitVec.toInt_eq_toNat_cond, BitVec.toNat_ofNat]
  split <;> split <;> omega

theorem toInt32_of_lt {n : Nat} (h : n < 2 ^ 31) : toInt32 n = n := by
  rw [toInt32_eq, Nat.mod_eq_of_lt (by omega), if_pos h]

theorem toInt32_neg {n : Nat} (h : 2 ^ 31 ≤ n) (hlt : n < 2 ^ 32) : toInt32 n < 0 := by
  rw [toInt32_eq, Nat.mod_eq_of_lt hlt, if_neg (by omega)]
  omega

/-! ## `CSphWriter` -/

structure Writer where
  disk       : List UInt8
  diskPos    : Nat
  pool       : List UInt8
  bufferSize : Nat
  inFile     : diskPos ≤ disk.length
  hasBuffer  : 0 < bufferSize

namespace Writer

/-- A file just opened (`OpenFile`). -/
def openFile (bufferSize : Nat) (h : 0 < bufferSize) : Writer := ⟨[], 0, [], bufferSize, Nat.le_refl _, h⟩

/-- `m_iPos`, `GetPos ()`. -/
def pos (w : Writer) : Nat := w.diskPos + w.pool.length

/-- The bytes before the write position. -/
def written (w : Writer) : List UInt8 := w.disk.take w.diskPos ++ w.pool

/-- What the file holds once the buffer is flushed. -/
def file (w : Writer) : List UInt8 := w.disk.take w.diskPos ++ w.pool ++ w.disk.drop (w.diskPos + w.pool.length)

def flush (w : Writer) : Writer where
  disk := w.file
  diskPos := w.pos
  pool := []
  bufferSize := w.bufferSize
  inFile := by simp [file, pos, List.length_take, Nat.min_eq_left w.inFile]
  hasBuffer := w.hasBuffer

/-- Room for `n` more bytes in the buffer. -/
def flushIfFull (w : Writer) (n : Nat) : Writer := if w.bufferSize < w.pool.length + n then w.flush else w

/-- The copy into the buffer. -/
def collect (w : Writer) (bs : List UInt8) : Writer := { w with pool := w.pool ++ bs }

def putByte (w : Writer) (b : UInt8) : Writer := (w.flushIfFull 1).collect [b]

/-- `PutBytes` copies at most a buffer at a time.  The first argument bounds the loop. -/
def putBytesGo : Nat → Writer → List UInt8 → Writer
  | 0,     w, _  => w
  | f + 1, w, bs =>
    if bs = [] then w
    else putBytesGo f ((w.flushIfFull (min bs.length w.bufferSize)).collect (bs.take (min bs.length w.bufferSize)))
      (bs.drop (min bs.length w.bufferSize))

def putBytes (w : Writer) (bs : List UInt8) : Writer := putBytesGo bs.length w bs

/-- The bytes of `ZipInt` and `ZipOffset` go out one by one. -/
def putEach (w : Writer) (bs : List UInt8) : Writer := bs.foldl putByte w

def zipInt (w : Writer) (v : Nat) : Writer := w.putEach (Zip.zipBE (v % 2 ^ 32))
def zipOffset (w : Writer) (v : Nat) : Writer := w.putEach (Zip.zipBE (v % 2 ^ 64))
def putWord (w : Writer) (v : Nat) : Writer := w.putBytes (putLE 2 v)
def putDword (w : Writer) (v : Nat) : Writer := w.putBytes (putLE 4 v)
def putOffset (w : Writer) (v : Nat) : Writer := w.putBytes (putLE 8 v)

/-- `SeekTo`.  A place past the end of the file reads as zeroes up to it. -/
def seekTo (w : Writer) (p : Nat) : Writer :=
  if w.diskPos ≤ p ∧ p ≤ w.diskPos + w.pool.length then { w with pool := w.pool.take (p - w.diskPos) }
  else
    { disk := w.file ++ List.replicate (p - w.file.length) 0
      diskPos := p
      pool := []
      bufferSize := w.bufferSize
      inFile := by simp; omega
      hasBuffer := w.hasBuffer }

/-- `SeekAndPutOffset`. -/
def seekAndPutOffset (w : Writer) (off v : Nat) : Writer := ((w.flush.seekTo off).putOffset v).seekTo w.pos

@[simp] theorem length_written (w : Writer) : w.written.length = w.pos := by
  simp [written, pos, min_eq_left w.inFile]

theorem file_eq (w : Writer) : w.file = w.written ++ w.disk.drop w.pos := rfl

@[simp] theorem written_openFile (n : Nat) (h : 0 < n) : (openFile n h).written = [] := rfl

@[simp] theorem file_flush (w : Writer) : w.flush.file = w.file := by
  show w.file.take w.pos ++ [] ++ w.file.drop (w.pos + 0) = w.file
  rw [append_nil, add_zero, take_append_drop]

@[simp] theorem written_flush (w : Writer) : w.flush.written = w.written := by
  show w.file.take w.pos ++ [] = w.written
  rw [append_nil, file_eq, ← length_written, take_left]

@[simp] theorem written_flushIfFull (w : Writer) (n : Nat) : (w.flushIfFull n).written = w.written := by
  unfold flushIfFull; split
  · exact written_flush w
  · rfl

@[simp] theorem file_flushIfFull (w : Writer) (n : Nat) : (w.flushIfFull n).file = w.file := by
  unfold flushIfFull; split
  · exact file_flush w
  · rfl

@[simp] theorem written_collect (w : Writer) (bs : List UInt8) : (w.collect bs).written = w.written ++ bs := by
  simp [collect, written]

/-- The bytes `s` put over `d` at `p`. -/
def overwrite (d : List UInt8) (p : Nat) (s : List UInt8) : List UInt8 := d.take p ++ s ++ d.drop (p + s.length)

theorem file_collect (w : Writer) (bs : List UInt8) : (w.collect bs).file = overwrite w.file w.pos bs := by
  have htake : w.file.take w.pos = w.written := by rw [file_eq, ← length_written, take_left]
  have hdrop : w.file.drop (w.pos + bs.length) = w.disk.drop (w.pos + bs.length) := by
    rw [file_eq, drop_append, drop_eq_nil_of_le (by simp), nil_append, drop_drop, length_written]
    congr 1; omega
  rw [overwrite, htake, hdrop, file_eq, written_collect]
  simp [collect, pos, add_assoc]

@[simp] theorem written_putByte (w : Writer) (b : UInt8) : (w.putByte b).written = w.written ++ [b] := by
  simp [putByte]

theorem written_putBytesGo : ∀ (f : Nat) (w : Writer) (bs : List UInt8), bs.length ≤ f →
    (putBytesGo f w bs).written = w.written ++ bs
  | 0, w, bs, h => by
    have : bs = [] := eq_nil_of_length_eq_zero (by omega)
    simp [putBytesGo, this]
  | f + 1, w, bs, h => by
    unfold putBytesGo
    split
    · rename_i hnil; simp [hnil]
    · rename_i hne
      have hpos := w.hasBuffer
      rw [written_putBytesGo f _ _ (by simp; omega), written_collect, written_flushIfFull, append_assoc,
        take_append_drop]

@[simp] theorem written_putBytes (w : Writer) (bs : List UInt8) : (w.putBytes bs).written = w.written ++ bs :=
  written_putBytesGo bs.length w bs (le_refl _)

@[simp] theorem written_putOffset (w : Writer) (v : Nat) : (w.putOffset v).written = w.written ++ putLE 8 v :=
  written_putBytes w _

theorem pos_eq (w : Writer) : w.pos = w.written.length := (length_written w).symm

@[simp] theorem pos_seekTo (w : Writer) (p : Nat) : (w.seekTo p).pos = p := by
  unfold seekTo
  split
  · simp only [pos, length_take]; omega
  · rfl

theorem overwrite_append (d s t : List UInt8) (p : Nat) (h : p ≤ d.length) :
    overwrite (overwrite d p s) (p + s.length) t = overwrite d p (s ++ t) := by
  have hlen : (d.take p ++ s).length = p + s.length := by simp; omega
  have htake : (overwrite d p s).take (p + s.length) = d.take p ++ s := by rw [overwrite, ← hlen, take_left]
  have hdrop : (overwrite d p s).drop (p + s.length + t.length) = d.drop (p + (s ++ t).length) := by
    rw [overwrite, drop_append, drop_eq_nil_of_le (by omega), nil_append, drop_drop, hlen,
      length_append]
    congr 1; omega
  rw [overwrite, htake, hdrop, overwrite, append_assoc (d.take p)]

theorem pos_le_length_file (w : Writer) : w.pos ≤ w.file.length := by
  rw [file_eq, length_append, length_written]; omega

theorem file_putBytesGo : ∀ (f : Nat) (w : Writer) (bs : List UInt8), bs.length ≤ f →
    (putBytesGo f w bs).file = overwrite w.file w.pos bs
  | 0, w, bs, h => by
    have : bs = [] := eq_nil_of_length_eq_zero (by omega)
    simp [putBytesGo, this, overwrite]
  | f + 1, w, bs, h => by
    unfold putBytesGo
    split
    · rename_i hnil; simp [hnil, overwrite]
    · rename_i hne
      have hpos := w.hasBuffer
      have hposF : (w.flushIfFull (min bs.length w.bufferSize)).pos = w.pos := by
        rw [pos_eq, written_flushIfFull, ← pos_eq]
      rw [file_putBytesGo f _ _ (by simp; omega), file_collect, file_flushIfFull, hposF]
      have hp2 : ((w.flushIfFull (min bs.length w.bufferSize)).collect
          (bs.take (min bs.length w.bufferSize))).pos = w.pos + (bs.take (min bs.length w.bufferSize)).length := by
        rw [pos_eq, written_collect, written_flushIfFull, length_append, length_written]
      rw [hp2, overwrite_append _ _ _ _ (pos_le_length_file w), take_append_drop]

theorem file_putBytes (w : Writer) (bs : List UInt8) : (w.putBytes bs).file = overwrite w.file w.pos bs :=
  file_putBytesGo bs.length w bs (le_refl _)

/-- Outside of the buffer, or with nothing cut from it, `SeekTo` leaves the file as it is. -/
theorem file_seekTo (w : Writer) (p : Nat) (hlen : p ≤ w.file.length)
    (h : p < w.diskPos ∨ w.pos ≤ p) : (w.seekTo p).file = w.file := by
  unfold seekTo
  split
  · rename_i hin
    have hp : p = w.diskPos + w.pool.length := by
      rcases h with h | h
      · omega
      · have := hin.2; unfold pos at h; omega
    have hk : w.pool.take (p - w.diskPos) = w.pool := take_of_length_le (by omega)
    simp only [file, hk]
  · show (w.file ++ List.replicate (p - w.file.length) 0).take p ++ [] ++
      (w.file ++ List.replicate (p - w.file.length) 0).drop (p + 0) = w.file
    rw [append_nil, add_zero, take_append_drop, show p - w.file.length = 0 by omega, replicate_zero,
      append_nil]

/-! ## A writer at the end of its file -/

/-- Nothing of the file is behind the write position. -/
def AtEnd (w : Writer) : Prop := w.disk.length ≤ w.pos

variable {w : Writer}

theorem file_of_atEnd (h : w.AtEnd) : w.file = w.written := by
  rw [file_eq, drop_eq_nil_of_le h, append_nil]

theorem atEnd_of_length_file (h : w.file.length ≤ w.pos) : w.AtEnd := by
  rw [file_eq, length_append, length_written, length_drop] at h
  unfold AtEnd; omega

theorem atEnd_openFile (n : Nat) (h : 0 < n) : (openFile n h).AtEnd := le_refl _

theorem diskPos_flushIfFull (w : Writer) (n : Nat) : w.diskPos ≤ (w.flushIfFull n).diskPos := by
  unfold flushIfFull; split
  · exact Nat.le_add_right _ _
  · exact le_refl _

theorem diskPos_putBytesGo : ∀ (f : Nat) (w : Writer) (bs : List UInt8), w.diskPos ≤ (putBytesGo f w bs).diskPos
  | 0, w, _ => le_refl _
  | f + 1, w, bs => by
    unfold putBytesGo
    split
    · exact le_refl _
    · have hrest := diskPos_putBytesGo f ((w.flushIfFull (min bs.length w.bufferSize)).collect
        (bs.take (min bs.length w.bufferSize))) (bs.drop (min bs.length w.bufferSize))
      exact le_trans (diskPos_flushIfFull w _) hrest

variable {p : Nat}

/-- Seeking to the write position or behind it never moves the buffer back. -/
theorem diskPos_seekTo (h : w.pos ≤ p) :
    w.diskPos ≤ (w.seekTo p).diskPos ∧ (w.pos < p → (w.seekTo p).diskPos = p) := by
  unfold pos at h ⊢
  unfold seekTo
  split
  · exact ⟨le_refl _, fun hlt => by omega⟩
  · exact ⟨by show w.diskPos ≤ p; omega, fun _ => rfl⟩

theorem overwrite_end (d bs : List UInt8) : overwrite d d.length bs = d ++ bs := by
  simp [overwrite]

theorem overwrite_mid (a b c b' : List UInt8) (hp : a.length = p) (hb : b'.length = b.length) :
    overwrite (a ++ (b ++ c)) p b' = a ++ (b' ++ c) := by
  subst hp
  rw [overwrite, take_left, hb, ← drop_drop, drop_left, drop_left, append_assoc]

/-- `w'` is `w` after the bytes `bs` were put: before the write position they are appended, in the file they go over what
was there. -/
structure Puts (w w' : Writer) (bs : List UInt8) : Prop where
  written : w'.written = w.written ++ bs
  file    : w'.file = overwrite w.file w.pos bs
  diskPos : w.diskPos ≤ w'.diskPos

namespace Puts
variable {w w' w'' : Writer} {bs cs : List UInt8}

theorem pos (h : Puts w w' bs) : w'.pos = w.pos + bs.length := by
  rw [pos_eq, h.written, length_append, length_written]

/-- Bytes put at an earlier place, over as many: the rest of the file stays. -/
theorem patch (h : Puts (w.seekTo p) w' bs) (pre old post : List UInt8) (hfile : w.file = pre ++ (old ++ post))
    (hpre : pre.length = p) (hbs : bs.length = old.length) (hp : p < w.diskPos ∨ w.pos ≤ p) :
    w'.file = pre ++ (bs ++ post) ∧ w'.pos = p + bs.length := by
  rw [h.file, h.pos, pos_seekTo, file_seekTo _ _ (by rw [hfile, length_append]; omega) hp, hfile,
    overwrite_mid _ _ _ _ hpre hbs]
  exact ⟨rfl, rfl⟩

theorem refl (w : Writer) : Puts w w [] := ⟨by simp, by simp [overwrite], le_refl _⟩

theorem trans (h : Puts w w' bs) (h' : Puts w' w'' cs) : Puts w w'' (bs ++ cs) := by
  refine ⟨by rw [h'.written, h.written, append_assoc], ?_, le_trans h.diskPos h'.diskPos⟩
  rw [h'.file, h.file, h.pos, overwrite_append _ _ _ _ (pos_le_length_file w)]

theorem atEnd (h : Puts w w' bs) (hw : w.AtEnd) : w'.AtEnd := by
  refine atEnd_of_length_file (le_of_eq ?_)
  rw [h.file, file_of_atEnd hw, h.pos, ← length_written, overwrite_end, length_append]

theorem foldl {α : Type} {f : Writer → α → Writer} {put : α → List UInt8} (hf : ∀ w a, Puts w (f w a) (put a)) :
    ∀ (l : List α) (w : Writer), Puts w (l.foldl f w) (l.map put).flatten
  | [], w => refl w
  | a :: l, w => by
    exact (hf w a).trans (foldl hf l (f w a))

end Puts

theorem puts_putByte (w : Writer) (b : UInt8) : Puts w (w.putByte b) [b] := by
  refine ⟨written_putByte w b, ?_, diskPos_flushIfFull w 1⟩
  have hpos : (w.flushIfFull 1).pos = w.pos := by rw [pos_eq, written_flushIfFull, ← pos_eq]
  rw [putByte, file_collect, file_flushIfFull, hpos]

theorem puts_putBytes (w : Writer) (bs : List UInt8) : Puts w (w.putBytes bs) bs :=
  ⟨written_putBytes w bs, file_putBytes w bs, diskPos_putBytesGo bs.length w bs⟩

theorem puts_putWord (w : Writer) (v : Nat) : Puts w (w.putWord v) (putLE 2 v) := puts_putBytes w _
theorem puts_putDword (w : Writer) (v : Nat) : Puts w (w.putDword v) (putLE 4 v) := puts_putBytes w _
theorem puts_putOffset (w : Writer) (v : Nat) : Puts w (w.putOffset v) (putLE 8 v) := puts_putBytes w _

theorem puts_putEach (w : Writer) (bs : List UInt8) : Puts w (w.putEach bs) bs := by
  have h := Puts.foldl puts_putByte bs w
  have hflat : (bs.map (fun b => [b])).flatten = bs := by rw [← flatMap_def, flatMap_singleton']
  rw [hflat] at h
  exact h

theorem puts_zipInt (w : Writer) (v : Nat) : Puts w (w.zipInt v) (Zip.zipBE (v % 2 ^ 32)) := puts_putEach w _
theorem puts_zipOffset (w : Writer) (v : Nat) : Puts w (w.zipOffset v) (Zip.zipBE (v % 2 ^ 64)) := puts_putEach w _

/-- From the end of the file `SeekTo` extends it with zeroes. -/
theorem written_seekTo_end (h : w.AtEnd) (hp : w.pos ≤ p) :
    (w.seekTo p).written = w.written ++ List.replicate (p - w.pos) 0 := by
  unfold seekTo
  split
  · have hk : w.pool.take (p - w.diskPos) = w.pool := take_of_length_le (by unfold pos at hp; omega)
    rw [show p - w.pos = 0 by unfold pos; omega, replicate_zero, append_nil]
    simp only [written, hk]
  · show (w.file ++ List.replicate (p - w.file.length) 0).take p ++ [] = _
    rw [file_of_atEnd h, length_written, append_nil, take_of_length_le (by simp; omega)]

/-- **`SeekAndPutOffset` changes eight bytes of the file** and comes back. -/
theorem seekAndPutOffset_spec (h : w.AtEnd) (off v : Nat) (hoff : off + 8 ≤ w.pos) :
    (w.seekAndPutOffset off v).file = overwrite w.written off (putLE 8 v) ∧
      (w.seekAndPutOffset off v).pos = w.pos ∧ (w.seekAndPutOffset off v).AtEnd := by
  have hlenF : w.flush.file.length = w.pos := by rw [file_flush, file_of_atEnd h, length_written]
  have hfile1 : (w.flush.seekTo off).file = w.written := by
    rw [file_seekTo _ _ (by omega) (Or.inl (by show off < w.pos; omega)), file_flush, file_of_atEnd h]
  have hpos1 : (w.flush.seekTo off).pos = off := pos_seekTo _ off
  have hfile2 : ((w.flush.seekTo off).putOffset v).file = overwrite w.written off (putLE 8 v) := by
    rw [putOffset, file_putBytes, hfile1, hpos1]
  have hpos2 : ((w.flush.seekTo off).putOffset v).pos = off + 8 := by
    rw [pos_eq, written_putOffset, length_append, length_written, hpos1, length_putLE]
  have hlen2 : ((w.flush.seekTo off).putOffset v).file.length = w.pos := by
    rw [hfile2, overwrite]; simp; omega
  have hfile3 : (w.seekAndPutOffset off v).file = overwrite w.written off (putLE 8 v) := by
    rw [seekAndPutOffset, file_seekTo _ _ (by omega) (Or.inr (by omega)), hfile2]
  have hpos3 : (w.seekAndPutOffset off v).pos = w.pos := pos_seekTo _ _
  refine ⟨hfile3, hpos3, atEnd_of_length_file ?_⟩
  rw [hfile3, hpos3, ← hfile2, hlen2]

end Writer

/-! ## Readers -/

/-- A reader of a file at a position (`FileBlockReader_i`). -/
structure Reader where
  data : List UInt8
  pos  : Nat

namespace Reader

/-- The bytes from the position on. -/
def rest (r : Reader) : List UInt8 := r.data.drop r.pos

def seekTo (r : Reader) (p : Nat) : Reader := { r with pos := p }

/-- The reader after a decoder left `bs` of the bytes it was given. -/
def leave (r : Reader) (bs : List UInt8) : Reader := { r with pos := r.pos + (r.rest.length - bs.length) }

def unzipInt (r : Reader) : Nat × Reader := ((Zip.unzipIntBE r.rest).1, r.leave (Zip.unzipIntBE r.rest).2)

def unzipOffset (r : Reader) : Nat × Reader := ((Zip.unzipOffsetBE r.rest).1, r.leave (Zip.unzipOffsetBE r.rest).2)

/-- The reader `n` bytes further. -/
def skip (r : Reader) (n : Nat) : Reader := { r with pos := r.pos + n }

@[simp] theorem skip_skip (r : Reader) (m n : Nat) : (r.skip m).skip n = r.skip (m + n) := by
  simp [skip, add_assoc]

variable {cs : List UInt8} {r : Reader}

theorem rest_skip {bs : List UInt8} (h : r.rest = bs ++ cs) : (r.skip bs.length).rest = cs := by
  show r.data.drop (r.pos + bs.length) = cs
  rw [← drop_drop]
  show r.rest.drop bs.length = cs
  rw [h, drop_left]

theorem leave_append {bs : List UInt8} (h : r.rest = bs ++ cs) : r.leave cs = r.skip bs.length := by
  rw [leave, skip, h, length_append, Nat.add_sub_cancel]

theorem unzipInt_of_rest {v : Nat} (h : r.rest = Zip.zipBE v ++ cs) (hv : v < 2 ^ 32) :
    r.unzipInt = (v, r.skip (Zip.zipBE v).length) := by
  rw [unzipInt, ← leave_append h, h, Zip.unzipIntBE_zipBE v hv]

theorem unzipOffset_of_rest {v : Nat} (h : r.rest = Zip.zipBE v ++ cs)
    (hv : v < 2 ^ 64) : r.unzipOffset = (v, r.skip (Zip.zipBE v).length) := by
  rw [unzipOffset, ← leave_append h, h, Zip.unzipOffsetBE_zipBE v hv]

end Reader
end Manticore

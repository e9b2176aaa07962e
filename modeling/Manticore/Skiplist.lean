import Manticore.Arrays
import Manticore.Doclist
/-!
# Skiplist — the decoder states saved for a doclist, their bytes, and finding the block of a row

`skipAt` is the decoder's state before the first entry of a block.  What `DoclistEndList` writes of these states is
read back by `SkipData_t::Read`, and `FindSpan` finds the last of them whose row is below a target.
-/
namespace Manticore
namespace Disk

open Zip (zipBE)
open List

/-! ### `FindSpan` -/

/-- What `FindSpan` is for: the last key not above `ref`. -/
structure IsSpan (keys : List Nat) (ref i : Nat) : Prop where
  lt : i < keys.length
  le : keys.getD i 0 ≤ ref
  next : i + 1 < keys.length → ref < keys.getD (i + 1) 0

variable {keys : List Nat} {ref : Nat}

theorem findSpanLinear_spec : ∀ (k i : Nat), i + k + 1 = keys.length →
    keys.getD i 0 ≤ ref → ref < keys.getD (i + k) 0 →
    ∃ j, findSpanLinear keys ref k i = some j ∧ IsSpan keys ref j
  | 0, i, _, hle, hlt => absurd hlt (not_lt.2 hle)
  | k + 1, i, hlen, hle, hlt => by
    rw [findSpanLinear]
    by_cases hin : ref < keys.getD (i + 1) 0
    · rw [if_pos ⟨hle, hin⟩]
      exact ⟨i, rfl, by omega, hle, fun _ => hin⟩
    · rw [if_neg fun h => hin h.2]
      refine findSpanLinear_spec k (i + 1) (by omega) (Nat.le_of_not_lt hin) ?_
      rw [add_right_comm]
      exact hlt

/-- The search keeps `keys[s+1] <= ref < keys[e]`, so that the two ends never meet. -/
theorem findSpanBinary_spec (hs : keys.Pairwise (· < ·)) :
    ∀ (k s e : Nat), e ≤ s + k → s + 1 < e → e < keys.length → keys.getD (s + 1) 0 ≤ ref → ref < keys.getD e 0 →
    ∃ j, findSpanBinary keys ref k s e = some j ∧ IsSpan keys ref j
  | 0, s, e, hk, hse, _, _, _ => absurd hk (by omega)
  | k + 1, s, e, hk, hse, he, hle, hlt => by
    have hmono : ∀ i j, i ≤ j → j < keys.length → keys.getD i 0 ≤ keys.getD j 0 := by
      intro i j hij hj
      rcases Nat.eq_or_lt_of_le hij with rfl | hij
      · exact le_refl _
      · exact le_of_lt (Arrays.getD_lt_getD hs hij hj)
    have hsle : keys.getD s 0 ≤ ref := le_trans (hmono s (s + 1) (Nat.le_succ s) (by omega)) hle
    rw [findSpanBinary, if_pos hse, if_neg (by omega)]
    by_cases hm : keys.getD (s + (e - s) / 2) 0 ≤ ref ∧ ref < keys.getD (s + (e - s) / 2 + 1) 0
    · rw [if_pos hm]
      exact ⟨_, rfl, by omega, hm.1, fun _ => hm.2⟩
    · rw [if_neg hm]
      by_cases hlow : ref < keys.getD (s + (e - s) / 2) 0
      · rw [if_pos hlow]
        -- `keys[s+1] <= ref < keys[m]` leaves room between `s` and `m`
        have hroom : s + 1 < s + (e - s) / 2 := by
          by_contra hno
          have := hmono (s + (e - s) / 2) (s + 1) (by omega) (by omega)
          omega
        exact findSpanBinary_spec hs k s _ (by omega) hroom (by omega) hle hlow
      · rw [if_neg hlow]
        have hnext : keys.getD (s + (e - s) / 2 + 1) 0 ≤ ref :=
          Nat.le_of_not_lt fun h => hm ⟨Nat.le_of_not_lt hlow, h⟩
        have hroom : s + (e - s) / 2 + 1 < e := by
          by_contra hno
          have := hmono e (s + (e - s) / 2 + 1) (by omega) (by omega)
          omega
        exact findSpanBinary_spec hs k _ e (by omega) hroom he hnext hlt

/-- **`FindSpan` finds the span of every value not below the first key.** -/
theorem findSpan_spec (hs : keys.Pairwise (· < ·)) (hne : keys ≠ [])
    (h0 : keys.getD 0 0 ≤ ref) (smallTreshold : Nat) : ∃ i, findSpan keys ref smallTreshold = some i ∧ IsSpan keys ref i := by
  have hpos : 0 < keys.length := length_pos_iff.2 hne
  rw [findSpan, if_neg (by omega)]
  by_cases hlast : keys.getD (keys.length - 1) 0 ≤ ref
  · rw [if_pos hlast]
    exact ⟨_, rfl, by omega, hlast, fun h => by omega⟩
  rw [if_neg hlast]
  by_cases hsmall : keys.length ≤ smallTreshold
  · rw [if_pos hsmall]
    refine findSpanLinear_spec (keys.length - 1) 0 (by omega) h0 ?_
    rw [zero_add]
    exact Nat.lt_of_not_le hlast
  rw [if_neg hsmall]
  by_cases hfirst : keys.getD 0 0 ≤ ref ∧ ref < keys.getD 1 0
  · rw [if_pos hfirst]
    exact ⟨0, rfl, hpos, h0, fun _ => hfirst.2⟩
  rw [if_neg hfirst]
  have h1 : keys.getD 1 0 ≤ ref := Nat.le_of_not_lt fun h => hfirst ⟨h0, h⟩
  have hlen : 2 < keys.length := by
    by_contra hno
    rcases (by omega : keys.length = 1 ∨ keys.length = 2) with hlen | hlen
    · exact hlast (by rwa [hlen])
    · exact hlast (by rwa [hlen])
  by_cases hpen : keys.getD (keys.length - 2) 0 ≤ ref ∧ ref < keys.getD (keys.length - 1) 0
  · rw [if_pos hpen]
    refine ⟨_, rfl, by omega, hpen.1, fun _ => ?_⟩
    rw [show keys.length - 2 + 1 = keys.length - 1 by omega]
    exact hpen.2
  rw [if_neg hpen]
  exact findSpanBinary_spec hs keys.length 0 (keys.length - 1) (by omega) (by omega) (by omega) h1
    (Nat.lt_of_not_le hlast)

theorem findSpan_range : ∃ i, findSpan (range 9) 4 5 = some i ∧ IsSpan (range 9) 4 i :=
  findSpan_spec (by decide) (by decide) (by decide) 5

/-! ### Skiplist bytes -/

/-- One round of the loop of `DoclistEndList` that emits the skiplist. -/
def putSkip (cfg : Settings) (last : SkiplistEntry) (w : Writer) (t : SkiplistEntry) : Writer :=
  ((w.zipInt (sub32 (sub32 t.baseRowIDPlus1 last.baseRowIDPlus1) cfg.blockSize)).zipOffset
    (t.offset - last.offset - 4 * cfg.blockSize)).zipOffset (t.baseHitlistPos - last.baseHitlistPos)

/-- `for ( int i=1; i<m_dSkiplist.GetLength(); i++ )`, from the entry before. -/
def putSkips (cfg : Settings) : SkiplistEntry → Writer → List SkiplistEntry → Writer
  | _, w, [] => w
  | last, w, t :: ts => putSkips cfg t (putSkip cfg last w t) ts

/-- The bytes that `putSkips` writes for the entries after `last`. -/
def skipBytes (blockSize : Nat) : SkiplistEntry → List SkiplistEntry → List UInt8
  | _, [] => []
  | last, t :: ts => zipBE (t.baseRowIDPlus1 - last.baseRowIDPlus1 - blockSize) ++
      (zipBE (t.offset - last.offset - 4 * blockSize) ++ (zipBE (t.baseHitlistPos - last.baseHitlistPos) ++
        skipBytes blockSize t ts))

/-- Consecutive entries are at least a block of documents apart. -/
structure Apart (blockSize : Nat) (last t : SkiplistEntry) : Prop where
  row : last.baseRowIDPlus1 + blockSize ≤ t.baseRowIDPlus1
  row_lt : t.baseRowIDPlus1 < 2 ^ 32
  offset : last.offset + 4 * blockSize ≤ t.offset
  offset_lt : t.offset < 2 ^ 64
  hit : last.baseHitlistPos ≤ t.baseHitlistPos
  hit_lt : t.baseHitlistPos < 2 ^ 64

def AllApart (blockSize : Nat) : SkiplistEntry → List SkiplistEntry → Prop
  | _, [] => True
  | last, t :: ts => Apart blockSize last t ∧ AllApart blockSize t ts

theorem puts_putSkips (cfg : Settings) : ∀ (last : SkiplistEntry) (ts : List SkiplistEntry) (w : Writer),
    AllApart cfg.blockSize last ts → Writer.Puts w (putSkips cfg last w ts) (skipBytes cfg.blockSize last ts)
  | _, [], w, _ => Writer.Puts.refl w
  | last, t :: ts, w, h => by
    obtain ⟨hle, hlt, -, hoff_lt, -, hhit_lt⟩ := h.1
    have hrow : sub32 (sub32 t.baseRowIDPlus1 last.baseRowIDPlus1) cfg.blockSize % 2 ^ 32 =
        t.baseRowIDPlus1 - last.baseRowIDPlus1 - cfg.blockSize := by
      unfold sub32
      omega
    have hoff : (t.offset - last.offset - 4 * cfg.blockSize) % 2 ^ 64 = t.offset - last.offset - 4 * cfg.blockSize := by omega
    have hhit : (t.baseHitlistPos - last.baseHitlistPos) % 2 ^ 64 = t.baseHitlistPos - last.baseHitlistPos := by omega
    have h1 := Writer.puts_zipInt w (sub32 (sub32 t.baseRowIDPlus1 last.baseRowIDPlus1) cfg.blockSize)
    have h2 := h1.trans (Writer.puts_zipOffset _ (t.offset - last.offset - 4 * cfg.blockSize))
    have h3 := h2.trans (Writer.puts_zipOffset _ (t.baseHitlistPos - last.baseHitlistPos))
    have h4 := h3.trans (puts_putSkips cfg t ts _ h.2)
    rw [hrow, hoff, hhit, append_assoc, append_assoc] at h4
    exact h4

theorem readSkips_skipBytes (blockSize : Nat) (bs : List UInt8) : ∀ (k : Nat) (last : SkiplistEntry)
    (ts : List SkiplistEntry), AllApart blockSize last ts → k ≤ ts.length →
    readSkips blockSize k last (skipBytes blockSize last ts ++ bs) = ts.take k
  | 0, _, _, _, _ => rfl
  | k + 1, _, [], _, hk => absurd hk (Nat.not_succ_le_zero k)
  | k + 1, last, t :: ts, h, hk => by
    obtain ⟨hrow, hrow', hoff, hoff', hhit, hhit'⟩ := h.1
    have ih := readSkips_skipBytes blockSize bs k t ts h.2 (Nat.le_of_succ_le_succ hk)
    obtain ⟨r, o, p⟩ := t
    dsimp only at hrow hrow' hoff hoff' hhit hhit'
    rw [readSkips, skipBytes]
    simp only [append_assoc]
    rw [Zip.unzipIntBE_zipBE _ (by omega)]
    rw [Zip.unzipOffsetBE_zipBE _ (by omega)]
    rw [Zip.unzipOffsetBE_zipBE _ (by omega)]
    have ht : (⟨(last.baseRowIDPlus1 + blockSize + (r - last.baseRowIDPlus1 - blockSize)) % 2 ^ 32,
        last.offset + 4 * blockSize + (o - last.offset - 4 * blockSize),
        last.baseHitlistPos + (p - last.baseHitlistPos)⟩ : SkiplistEntry) = ⟨r, o, p⟩ := by
      rw [SkiplistEntry.mk.injEq]
      omega
    rw [ht, ih, take_succ_cons]

/-! ### The decoder's state before each entry -/

variable {i : Nat} {fmt : HitFormat} {has : Bool} {docs : List StoredDoc}

/-- The row before entry `i`, plus one. -/
def keyAt (docs : List StoredDoc) (i : Nat) : Nat := (rowAfter invalidRowID (docs.take i) + 1) % 2 ^ 32

/-- The place of entry `i`. -/
def offAt (fmt : HitFormat) (start : Nat) (docs : List StoredDoc) (i : Nat) : Nat :=
  start + (entriesBytes fmt invalidRowID 0 (docs.take i)).length

/-- The hitlist position before entry `i`. -/
def posAt (docs : List StoredDoc) (i : Nat) : Nat := posAfter 0 (docs.take i)

def skipAt (fmt : HitFormat) (start blockSize : Nat) (docs : List StoredDoc) (j : Nat) : SkiplistEntry :=
  ⟨keyAt docs (j * blockSize), offAt fmt start docs (j * blockSize), posAt docs (j * blockSize)⟩

section
variable (h : AllFit fmt has invalidRowID 0 docs)
include h

theorem allFit_take (i : Nat) : AllFit fmt has invalidRowID 0 (docs.take i) := by
  rw [← take_append_drop i docs] at h
  exact (allFit_append.1 h).1

theorem fits_getElem (hi : i < docs.length) :
    docs[i].Fits fmt has (rowAfter invalidRowID (docs.take i)) (posAfter 0 (docs.take i)) := by
  rw [← take_append_drop i docs, drop_eq_getElem_cons hi] at h
  exact (allFit_append.1 h).2.1

theorem keyAt_lt_succ (hi : i < docs.length) : keyAt docs i < keyAt docs (i + 1) := by
  have hf := fits_getElem h hi
  have ha := hf.after
  have hv := hf.valid
  rw [keyAt, keyAt, take_succ_eq_append_getElem hi, rowAfter_append]
  simp only [rowAfter]
  unfold invalidRowID at *
  omega

theorem posAt_le_succ (hi : i < docs.length) : posAt docs i ≤ posAt docs (i + 1) := by
  rw [posAt, posAt, take_succ_eq_append_getElem hi, posAfter_append]
  exact (fits_getElem h hi).posAfter_bounds.1

end

theorem length_bytes_ge (fmt : HitFormat) (row pos : Nat) (d : StoredDoc) : 4 ≤ (d.bytes fmt row pos).length := by
  have hz := Zip.length_zipBE_pos
  rw [StoredDoc.bytes, length_append]
  cases d.body with
  | inlined hit => grind [Body.bytes]
  | listed mask hits p => cases fmt <;> grind [Body.bytes]

theorem offAt_lt_succ (fmt : HitFormat) (start : Nat) (hi : i < docs.length) :
    offAt fmt start docs i + 4 ≤ offAt fmt start docs (i + 1) := by
  have hge := length_bytes_ge fmt (rowAfter invalidRowID (docs.take i)) (posAfter 0 (docs.take i)) docs[i]
  rw [offAt, offAt, take_succ_eq_append_getElem hi, entriesBytes_append, length_append, entriesBytes, entriesBytes,
    append_nil]
  omega

theorem add_le_of_steps {f : Nat → Nat} {c n : Nat} (hstep : ∀ i < n, f i + c ≤ f (i + 1)) {i j : Nat} (hij : i ≤ j)
    (hj : j ≤ n) : f i + c * (j - i) ≤ f j := by
  induction j, hij using Nat.le_induction with
  | base => simp
  | succ j hij ih =>
    have := ih (Nat.le_of_succ_le hj)
    have := hstep j hj
    rw [Nat.succ_sub hij, Nat.mul_succ]
    omega

/-- The states of two consecutive blocks are apart, in a file whose offsets fit. -/
theorem apart_skipAt (h : AllFit fmt has invalidRowID 0 docs) {start blockSize j : Nat}
    (hj : (j + 1) * blockSize ≤ docs.length) (hsize : offAt fmt start docs docs.length < 2 ^ 64) :
    Apart blockSize (skipAt fmt start blockSize docs j) (skipAt fmt start blockSize docs (j + 1)) := by
  have hmul : (j + 1) * blockSize = j * blockSize + blockSize := Nat.succ_mul j blockSize
  have hle : j * blockSize ≤ (j + 1) * blockSize := by omega
  have hdiff : (j + 1) * blockSize - j * blockSize = blockSize := by omega
  have hkey := add_le_of_steps (f := keyAt docs) (c := 1) (fun i hi => keyAt_lt_succ h hi) hle hj
  have hoffs := @add_le_of_steps (offAt fmt start docs) 4 docs.length fun i hi => offAt_lt_succ fmt start hi
  have hoff := hoffs hle hj
  have hend := hoffs hj le_rfl
  have hpos := add_le_of_steps (f := posAt docs) (c := 0) (fun i hi => posAt_le_succ h hi) hle hj
  have hlt : posAt docs ((j + 1) * blockSize) < 2 ^ 63 := posAfter_lt _ _ _ (allFit_take h _) (by decide)
  rw [hdiff] at hkey hoff
  have hrow : keyAt docs ((j + 1) * blockSize) < 2 ^ 32 := Nat.mod_lt _ (by decide)
  constructor <;> dsimp only [skipAt] <;> omega

theorem allApart_skipAt (h : AllFit fmt has invalidRowID 0 docs) {start blockSize : Nat}
    (hsize : offAt fmt start docs docs.length < 2 ^ 64) : ∀ m j : Nat, (m + j) * blockSize ≤ docs.length →
    AllApart blockSize (skipAt fmt start blockSize docs j) ((range' (j + 1) m).map (skipAt fmt start blockSize docs))
  | 0, _, _ => trivial
  | m + 1, j, hm => ⟨apart_skipAt h (le_trans (Nat.mul_le_mul_right _ (by omega)) hm) hsize,
      allApart_skipAt h hsize m (j + 1) (by rwa [← add_assoc, add_right_comm])⟩

/-- **`SkipData_t::Read` reads back the states that `DoclistEndList` writes for a doclist.** -/
theorem readSkips_putSkips (h : AllFit fmt has invalidRowID 0 docs) (cfg : Settings) (w : Writer) (bs : List UInt8)
    {start k m : Nat} (hsize : offAt fmt start docs docs.length < 2 ^ 64) (hm : m * cfg.blockSize ≤ docs.length) (hk : k ≤ m) :
    let s := skipAt fmt start cfg.blockSize docs
    readSkips cfg.blockSize k (s 0) (((putSkips cfg (s 0) w ((range' 1 m).map s)).written ++ bs).drop w.pos) =
      ((range' 1 m).map s).take k := by
  intro s
  have hall := allApart_skipAt h hsize m 0 hm
  rw [(puts_putSkips cfg _ _ w hall).written, ← Writer.length_written, append_assoc, drop_left]
  exact readSkips_skipBytes _ bs k _ _ hall (by simpa using hk)

theorem readSkips_twoDocs : let s := skipAt .inline 0 1 twoDocs
    readSkips 1 2 (s 0) (((putSkips inlineHits (s 0) (.openFile 8 (by decide)) ((range' 1 2).map s)).written ++ []).drop 0) =
      ((range' 1 2).map s).take 2 :=
  readSkips_putSkips twoDocs_fits inlineHits (.openFile 8 _) [] (by decide) (by decide) le_rfl

end Disk
end Manticore

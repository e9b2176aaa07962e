import Manticore.BlobRow
/-!
# BlobRowRun — rows through the builders and the row operations (`attribute.cpp`)

Each operation has one lemma that gives its output in terms of `layout`.  A width is never widened by removing an
attribute, so the new row has room in a buffer that the source sizes with the old width.
-/
namespace Manticore
namespace BlobRow
open List
open Option (bind_eq_bind bind_some map_some)

/-! ## What the builders and the row operations write -/

/-- The lists of attributes a row can hold: the length of an attribute is an `int`, that of a row a `DWORD`. -/
structure Fits (attrs : List (List UInt8)) : Prop where
  lens : ∀ a ∈ attrs, a.length < 2 ^ 31
  row  : (rowBytes attrs).length < 2 ^ 32

variable {attrs : List (List UInt8)}

theorem Fits.total (h : Fits attrs) : attrs.flatten.length < 2 ^ 32 := by
  have := h.row
  rw [rowBytes, length_layout] at this
  omega

theorem Fits.sumLens (h : Fits attrs) : sumLens (attrs.map List.length) = attrs.flatten.length := by
  rw [sumLens_eq (by rw [← length_flatten]; exact h.total), length_flatten]

theorem Fits.rowBytes (h : Fits attrs) : rowBytes attrs = layout (calcBlobRowFlags attrs.flatten.length) attrs := by
  rw [BlobRow.rowBytes, h.sumLens]

theorem Fits.length_layout_lt (h : Fits attrs) : (layout (calcBlobRowFlags attrs.flatten.length) attrs).length < 2 ^ 32 :=
  h.rowBytes ▸ h.row

theorem Fits.startsWith (h : Fits attrs) (tail : List UInt8) : StartsWith (calcBlobRowFlags attrs.flatten.length) attrs
      (layout (calcBlobRowFlags attrs.flatten.length) attrs ++ tail) :=
  ⟨takes_calcBlobRowFlags h.total, h.lens, _, rfl⟩

theorem puts_putLen (s : LenSize) (w : Writer) (u : Nat) : w.Puts (putLen s w u) (putLE s.bytes u) := by
  cases s with
  | byte => exact Writer.puts_putByte w _
  | word => exact Writer.puts_putWord w u
  | dword => exact Writer.puts_putDword w u

theorem puts_putLensFile (s : LenSize) : ∀ (u : Nat) (lens : List Nat) (w : Writer),
    w.Puts (putLensFile s u lens w) (putLens s u lens)
  | _, [], w => Writer.Puts.refl w
  | _, _ :: lens, w => (puts_putLen s w _).trans (puts_putLensFile s _ lens _)

theorem puts_layout (s : LenSize) (attrs : List (List UInt8)) (w : Writer) :
    w.Puts (attrs.foldl Writer.putBytes (putLensFile s 0 (attrs.map List.length) (w.putByte s.flags)))
      (layout s attrs) := by
  have hlens := (Writer.puts_putByte w s.flags).trans (puts_putLensFile s 0 (attrs.map List.length) _)
  have hdata := Writer.Puts.foldl Writer.puts_putBytes attrs
    (putLensFile s 0 (attrs.map List.length) (w.putByte s.flags))
  rw [map_id'] at hdata
  exact hlens.trans hdata

/-- **Both builders put the same bytes.** -/
theorem puts_flushFile (w : Writer) (attrs : List (List UInt8)) : w.Puts (flushFile w attrs).1 (rowBytes attrs) :=
  puts_layout _ attrs w

theorem written_flushFile (w : Writer) (attrs : List (List UInt8)) :
    (flushFile w attrs).1.written = w.written ++ rowBytes attrs := (puts_flushFile w attrs).written

theorem fill_exact (prev bytes : List UInt8) : fill prev bytes.length bytes = some (bytes ++
    (prev.take bytes.length ++ List.replicate (bytes.length - prev.length) 0).drop bytes.length) :=
  if_pos (le_refl _)

theorem fill_nil (bytes : List UInt8) {n : Nat} (h : bytes.length = n) : fill [] n bytes = some bytes := by
  subst h
  rw [fill_exact]; simp

theorem fill_of_le (prev bytes : List UInt8) {n : Nat} (h : bytes.length ≤ n) :
    ∃ tail, fill prev n bytes = some (bytes ++ tail) := ⟨_, if_pos h⟩

theorem addAttrFirst_eq {data : List UInt8} (h : Fits [data]) : addAttrFirst data = rowBytes [data] := by
  have hlt := h.total
  rw [flatten_singleton] at hlt
  rw [h.rowBytes, addAttrFirst, layout, Nat.mod_eq_of_lt hlt, flatten_singleton, map_singleton, putLens,
    putLens, zero_add, Nat.mod_eq_of_lt hlt, append_nil]

variable {row : List UInt8} {src : List UInt8} {off : Nat}

section Ops
variable {s : LenSize}

theorem addAttrWithData_eq (h : StartsWith s attrs row) {data : List UInt8} (hfit : Fits (attrs ++ [data])) :
    addAttrWithData [] row attrs.length data = some (rowBytes (attrs ++ [data])) := by
  have hdata : data.length % 2 ^ 32 = data.length :=
    Nat.mod_eq_of_lt (by have := hfit.lens data (by simp); omega)
  have hlens : attrs.map List.length ++ [data.length % 2 ^ 32] = (attrs ++ [data]).map List.length := by
    rw [hdata, map_append]; rfl
  have hrange : ∀ i ∈ List.range attrs.length, i < attrs.length := fun i hi => mem_range.1 hi
  rw [addAttrWithData, h.rowFlags]
  simp only [bind_eq_bind, bind_some]
  rw [h.attrLengths hrange, h.mapM_getBlobAttr hrange, Arrays.map_getD_range, bind_some, bind_some, hlens,
    hfit.sumLens, hfit.rowBytes]
  have hflat : (calcBlobRowFlags (attrs ++ [data]).flatten.length).flags ::
      (putLens (calcBlobRowFlags (attrs ++ [data]).flatten.length) 0 ((attrs ++ [data]).map List.length) ++
        attrs.flatten ++ data) = layout (calcBlobRowFlags (attrs ++ [data]).flatten.length) (attrs ++ [data]) := by
    rw [layout, append_assoc]; simp
  rw [hflat]
  refine fill_nil _ ?_
  have hlt := hfit.length_layout_lt
  rw [length_layout] at hlt ⊢
  rw [mul_comm (attrs.length + 1), show attrs.length + 1 = (attrs ++ [data]).length by simp, Nat.mod_eq_of_lt hlt]

theorem addAttrNoData_eq (h : StartsWith s attrs row) (hne : attrs ≠ [])
    (hnew : (layout s (attrs ++ [[]])).length < 2 ^ 32) : addAttrNoData [] row attrs.length = some (layout s (attrs ++ [[]])) := by
  have htot := h.takes.2
  have hlen2 : (layout s (attrs ++ [[]])).length = (layout s attrs).length + s.bytes := by
    rw [length_layout, length_layout, length_append, length_singleton, Nat.mul_succ]; simp; omega
  have htotal := h.getBlobTotalLen hne (by omega)
  obtain ⟨A, a, rfl⟩ := (eq_nil_or_concat attrs).resolve_left hne
  rw [concat_eq_append] at h hnew hlen2 htotal htot ⊢
  have hflags := h.rowFlags
  obtain ⟨tail, rfl⟩ := h.row
  have hlens := putLens_snoc s htot
  have hlens2 : putLens s 0 ((A ++ [a] ++ [[]]).map List.length) =
      putLens s 0 ((A ++ [a]).map List.length) ++ putLE s.bytes (A ++ [a]).flatten.length := by
    have hflat : (A ++ [a] ++ [[]]).flatten = (A ++ [a]).flatten := by simp
    rw [putLens_snoc s (by rw [hflat]; exact htot), hflat]
  have hL := length_layout s (A ++ [a])
  have hhead : (s.flags :: putLens s 0 ((A ++ [a]).map List.length)).length = s.bytes * (A ++ [a]).length + 1 := by
    simp
  have hpre : (s.flags :: putLens s 0 (A.map List.length)).length = s.bytes * (A ++ [a]).length + 1 - s.bytes := by
    rw [length_append, length_singleton, Nat.mul_succ]; simp; omega
  have hmod : (s.bytes * (A ++ [a]).length + 1) % 2 ^ 32 = s.bytes * (A ++ [a]).length + 1 :=
    Nat.mod_eq_of_lt (by omega)
  have hdataLen : ((layout s (A ++ [a])).length + 2 ^ 32 - (s.bytes * (A ++ [a]).length + 1)) % 2 ^ 32 =
      (A ++ [a]).flatten.length := by omega
  have hs1 := copied_append [] (s.flags :: putLens s 0 ((A ++ [a]).map List.length)) ((A ++ [a]).flatten ++ tail)
    0 _ rfl hhead
  have hs2 := copied_append (s.flags :: putLens s 0 (A.map List.length)) (putLE s.bytes (A ++ [a]).flatten.length)
    ((A ++ [a]).flatten ++ tail) _ s.bytes hpre (length_putLE _ _)
  have hs3 := copied_append (s.flags :: putLens s 0 ((A ++ [a]).map List.length)) (A ++ [a]).flatten tail _ _ hhead rfl
  have hrow1 : layout s (A ++ [a]) ++ tail = [] ++ (s.flags :: putLens s 0 ((A ++ [a]).map List.length)) ++
      ((A ++ [a]).flatten ++ tail) := by simp [layout]
  have hrow2 : layout s (A ++ [a]) ++ tail = (s.flags :: putLens s 0 (A.map List.length)) ++
      putLE s.bytes (A ++ [a]).flatten.length ++ ((A ++ [a]).flatten ++ tail) := by rw [layout, hlens]; simp
  have hrow3 : layout s (A ++ [a]) ++ tail = (s.flags :: putLens s 0 ((A ++ [a]).map List.length)) ++
      (A ++ [a]).flatten ++ tail := by simp [layout]
  rw [← hrow1] at hs1
  rw [← hrow2] at hs2
  rw [← hrow3] at hs3
  rw [addAttrNoData, hflags]
  simp only [bind_eq_bind, bind_some]
  rw [htotal, bind_some, hmod, hs1, bind_some, hs2, bind_some, hdataLen, hs3, bind_some]
  have hout : s.flags :: putLens s 0 ((A ++ [a]).map List.length) ++ putLE s.bytes (A ++ [a]).flatten.length ++
      (A ++ [a]).flatten = layout s (A ++ [a] ++ [[]]) := by rw [layout, hlens2]; simp
  rw [hout, fill_nil _ (by rw [hlen2, Nat.mod_eq_of_lt (by omega)])]

theorem length_flatten_eraseIdx_le (attrs : List (List UInt8)) (k : Nat) :
    (attrs.eraseIdx k).flatten.length ≤ attrs.flatten.length := by
  exact (List.Sublist.flatten (eraseIdx_sublist attrs k)).length_le

theorem length_layout_eraseIdx_le (s : LenSize) (attrs : List (List UInt8)) (k : Nat) :
    (layout s (attrs.eraseIdx k)).length ≤ (layout s attrs).length := by
  have := Nat.mul_le_mul_left s.bytes (eraseIdx_sublist attrs k).length_le
  have := length_flatten_eraseIdx_le attrs k
  rw [length_layout, length_layout]
  omega

/-- The new row is never wider than the old one. -/
theorem StartsWith.width_eraseIdx (h : StartsWith s attrs row) (k : Nat) :
    (calcBlobRowFlags (attrs.eraseIdx k).flatten.length).bytes ≤ s.bytes :=
  (h.takes.mono (length_flatten_eraseIdx_le attrs k)).1

theorem Fits.eraseIdx (h : Fits attrs) (k : Nat) : Fits (attrs.eraseIdx k) := by
  have hle := length_flatten_eraseIdx_le attrs k
  have hold := h.length_layout_lt
  have hless := length_layout_eraseIdx_le (calcBlobRowFlags attrs.flatten.length) attrs k
  have hmul := Nat.mul_le_mul_right (attrs.eraseIdx k).length ((h.startsWith []).width_eraseIdx k)
  refine ⟨fun a ha => h.lens a (mem_of_mem_eraseIdx ha), ?_⟩
  rw [BlobRow.rowBytes, sumLens_eq (by rw [← length_flatten]; exact lt_of_le_of_lt hle h.total), ← length_flatten]
  rw [length_layout] at hless ⊢
  omega

/-- The new row has room in a buffer sized with the old width. -/
theorem removeAttrFromBlobRow_eq (h : StartsWith s attrs row) (hlt : (layout s attrs).length < 2 ^ 32) (hfit : Fits attrs)
    {k : Nat} (hk : k < attrs.length) (hn : 1 < attrs.length) (prev : List UInt8) :
    ∃ tail, removeAttrFromBlobRow prev row attrs.length k = some (rowBytes (attrs.eraseIdx k) ++ tail) := by
  have hfit' := hfit.eraseIdx k
  have his : ∀ i ∈ (List.range attrs.length).filter (fun i => i ≠ k), i < attrs.length :=
    fun i hi => mem_range.1 (mem_filter.1 hi).1
  have hcount : (attrs.eraseIdx k).length = attrs.length - 1 := length_eraseIdx_of_lt hk
  rw [removeAttrFromBlobRow, if_neg (by omega), h.rowFlags]
  simp only [bind_eq_bind, bind_some]
  rw [h.attrLengths his, h.mapM_getBlobAttr his, map_getD_filter attrs k, bind_some, bind_some,
    hfit'.sumLens, hfit'.rowBytes]
  refine fill_of_le prev _ ?_
  have hsmall := lt_of_le_of_lt (length_layout_eraseIdx_le s attrs k) hlt
  have hmono := Nat.mul_le_mul_right (attrs.length - 1) (h.width_eraseIdx k)
  rw [length_layout, hcount, mul_comm s.bytes] at hsmall
  have hlen := length_layout (calcBlobRowFlags (attrs.eraseIdx k).flatten.length) (attrs.eraseIdx k)
  rw [layout, hcount] at hlen
  rw [hlen, Nat.mod_eq_of_lt hsmall, mul_comm _ s.bytes]
  omega

theorem copied_drop {x : List UInt8} (h : x <+: src.drop off) (hpos : 0 < x.length) :
    copied src off x.length = some x := by
  obtain ⟨tail, htail⟩ := h
  have hlen := congrArg List.length htail
  rw [length_append, length_drop] at hlen
  rw [copied, if_pos (by omega), Arrays.slice, ← htail, take_left]

/-- **A row shorter than 2³¹ bytes is copied as it is.** -/
theorem copyBlobRow_eq (h : StartsWith s attrs (src.drop off)) (hne : attrs ≠ [])
    (hlen : (layout s attrs).length < 2 ^ 31) (dst : List UInt8) :
    copyBlobRow dst src off attrs.length = some (dst ++ layout s attrs, toInt32 dst.length) := by
  have hint : toInt32 (layout s attrs).length = (layout s attrs).length := toInt32_of_lt hlen
  have hpos : 0 < (layout s attrs).length := by rw [length_layout]; omega
  rw [copyBlobRow, h.getBlobTotalLen hne (by omega), map_some, hint]
  simp only [bind_eq_bind, bind_some]
  rw [if_neg (by omega), Int.toNat_natCast, copied_drop h.row hpos, bind_some]

/-- A row of 2³¹ bytes and more has a negative `int` length, and nothing is copied. -/
theorem copyBlobRow_long (h : StartsWith s attrs (src.drop off)) (hne : attrs ≠ [])
    (hlen : 2 ^ 31 ≤ (layout s attrs).length) (hlt : (layout s attrs).length < 2 ^ 32) (dst : List UInt8) :
    copyBlobRow dst src off attrs.length = some (dst, toInt32 dst.length) := by
  have hint : toInt32 (layout s attrs).length ≤ 0 := Int.le_of_lt (toInt32_neg hlen hlt)
  rw [copyBlobRow, h.getBlobTotalLen hne hlt, map_some]
  simp only [bind_eq_bind, bind_some]
  rw [if_pos hint]

end Ops

/-! ## Whole runs -/

/-- **Every row that was written is read back**, with its length: at the place it was written to, whatever follows it. -/
theorem rowBytes_spec (h : Fits attrs) (rest : List UInt8) : decodeAll (rowBytes attrs ++ rest) attrs.length = some attrs ∧
      getBlobTotalLen (rowBytes attrs ++ rest) attrs.length = some (rowBytes attrs).length := by
  rw [h.rowBytes]
  refine ⟨(h.startsWith rest).decodeAll, ?_⟩
  by_cases hne : attrs = []
  · subst hne
    -- with no attributes the flags byte is read as the length, and it is 0
    simp [getBlobTotalLen, rowFlags, layout, calcBlobRowFlags, putLens, LenSize.flags, LenSize.ofFlags, LenSize.bytes,
      readLE, valLE]
  · exact (h.startsWith rest).getBlobTotalLen hne h.length_layout_lt

theorem puts_flushFiles (w : Writer) (rows : List (List (List UInt8))) :
    w.Puts (flushFiles w rows) (rows.map rowBytes).flatten := Writer.Puts.foldl puts_flushFile rows w

theorem written_setupFile (n : Nat) (hn : 0 < n) : (setupFile n hn).written = putLE 8 0 := by
  rw [setupFile, Writer.written_putOffset, Writer.written_openFile, nil_append]

theorem drop_doneFile {w : Writer} (h : w.AtEnd) (hpos : 8 ≤ w.pos) (hoff : 8 ≤ off) (hle : off ≤ w.pos)
    (space : Nat) : ∃ zeroes, (doneFile w space).drop off = w.written.drop off ++ zeroes := by
  obtain ⟨hfile, hpos', hend⟩ := Writer.seekAndPutOffset_spec h 0 w.pos (by omega)
  refine ⟨List.replicate space 0, ?_⟩
  rw [doneFile, Writer.written_seekTo_end hend (by omega), hpos', ← Writer.file_of_atEnd hend, hfile, Writer.overwrite,
    take_zero, nil_append, length_putLE, zero_add, drop_append, drop_append, length_putLE,
    drop_eq_nil_of_le (by rw [length_putLE]; omega), nil_append, drop_drop]
  have hlen : (putLE 8 w.pos ++ w.written.drop 8).length = w.pos := by simp; omega
  rw [hlen, show off - w.pos = 0 by omega, drop_zero, show 8 + (off - 8) = off by omega,
    show w.pos + space - w.pos = space by omega]

/-- A row flushed to the file is in the finished file at the offset `Flush` returned. -/
theorem drop_doneFile_flushFile (n : Nat) (hn : 0 < n) (before after : List (List (List UInt8)))
    (attrs : List (List UInt8)) (space : Nat) :
    ∃ rest, (doneFile (flushFiles (flushFile (flushFiles (setupFile n hn) before) attrs).1 after) space).drop
      (flushFile (flushFiles (setupFile n hn) before) attrs).2.1 = rowBytes attrs ++ rest := by
  have hend : (setupFile n hn).AtEnd := (Writer.puts_putOffset _ 0).atEnd (Writer.atEnd_openFile n hn)
  have hend1 := (puts_flushFiles (setupFile n hn) before).atEnd hend
  have hw1 := (puts_flushFiles (setupFile n hn) before).written
  have hend2 := (puts_flushFiles _ after).atEnd ((puts_flushFile _ attrs).atEnd hend1)
  have hw2 := (puts_flushFiles (flushFile (flushFiles (setupFile n hn) before) attrs).1 after).written
  rw [written_flushFile] at hw2
  have hpos1 : 8 ≤ (flushFiles (setupFile n hn) before).pos := by
    rw [Writer.pos_eq, hw1, written_setupFile, length_append, length_putLE]; omega
  have hpos2 : (flushFiles (setupFile n hn) before).pos ≤
      (flushFiles (flushFile (flushFiles (setupFile n hn) before) attrs).1 after).pos := by
    rw [Writer.pos_eq, Writer.pos_eq, hw2]; simp
  obtain ⟨zeroes, hdrop⟩ := drop_doneFile hend2 (by omega) hpos1 hpos2 space
  refine ⟨(after.map rowBytes).flatten ++ zeroes, hdrop.trans ?_⟩
  rw [hw2, append_assoc, Writer.pos_eq, drop_left, append_assoc]

/-- The rows that come from the builders by any sequence of the row operations, each with bytes behind it. -/
inductive Stored : List (List UInt8) → List UInt8 → Prop
  | mem (pool : List UInt8) {attrs : List (List UInt8)} (rest : List UInt8) (hfit : Fits attrs) :
      Stored attrs ((flushMem pool attrs).1.drop pool.length ++ rest)
  | file (w : Writer) {attrs : List (List UInt8)} (rest : List UInt8) (hfit : Fits attrs) :
      Stored attrs ((flushFile w attrs).1.written.drop w.pos ++ rest)
  | add {attrs : List (List UInt8)} {row row' : List UInt8} (data : Option (List UInt8)) (rest : List UInt8)
      (h : Stored attrs row) (hfit : Fits (attrs ++ [data.getD []]))
      (hadd : addAttrToBlobRow row attrs.length data = some row') : Stored (attrs ++ [data.getD []]) (row' ++ rest)
  | remove {attrs : List (List UInt8)} {row row' : List UInt8} (prev : List UInt8) {k : Nat} (rest : List UInt8)
      (h : Stored attrs row) (hk : k < attrs.length)
      (hremove : removeAttrFromBlobRow prev row attrs.length k = some row') : Stored (attrs.eraseIdx k) (row' ++ rest)
  | copy {attrs : List (List UInt8)} {src dst dst' : List UInt8} {off : Nat} {offset : Int} (rest : List UInt8)
      (h : Stored attrs (src.drop off)) (hlen : (rowBytes attrs).length < 2 ^ 31)
      (hcopy : copyBlobRow dst src off attrs.length = some (dst', offset)) :
      Stored attrs (dst'.drop dst.length ++ rest)

/-- What all stored rows have in common; a row of no attributes may be empty. -/
def IsRow (attrs : List (List UInt8)) (row : List UInt8) : Prop :=
  Fits attrs ∧ (attrs = [] ∨ StartsWith (calcBlobRowFlags attrs.flatten.length) attrs row)

section IsRow
theorem IsRow.decodeAll (h : IsRow attrs row) : decodeAll row attrs.length = some attrs := by
  rcases h.2 with rfl | hs
  · rfl
  · exact hs.decodeAll

theorem StartsWith.append {s : LenSize} (h : StartsWith s attrs row) (rest : List UInt8) :
    StartsWith s attrs (row ++ rest) := ⟨h.takes, h.lens, h.row.trans (prefix_append _ _)⟩

theorem IsRow.append (h : IsRow attrs row) (rest : List UInt8) : IsRow attrs (row ++ rest) :=
  ⟨h.1, h.2.imp_right (fun hs => hs.append rest)⟩

theorem isRow_rowBytes (h : Fits attrs) (tail : List UInt8) : IsRow attrs (rowBytes attrs ++ tail) :=
  ⟨h, Or.inr (h.rowBytes ▸ h.startsWith tail)⟩

theorem IsRow.addAttr (h : IsRow attrs row) (data : Option (List UInt8)) (hfit : Fits (attrs ++ [data.getD []])) :
    ∃ row', addAttrToBlobRow row attrs.length data = some row' ∧ IsRow (attrs ++ [data.getD []]) row' := by
  have hnew := isRow_rowBytes hfit []
  rw [append_nil] at hnew
  by_cases hne : attrs = []
  · subst hne
    refine ⟨_, ?_, hnew⟩
    unfold addAttrToBlobRow
    rw [if_neg (by simp), addAttrFirst_eq hfit, nil_append]
  · have hs := h.2.resolve_left hne
    have hlen : attrs.length ≠ 0 := fun h0 => hne (eq_nil_of_length_eq_zero h0)
    unfold addAttrToBlobRow
    rw [if_pos hlen]
    cases data with
    | some data => exact ⟨_, addAttrWithData_eq hs hfit, hnew⟩
    | none =>
      have hsame : (attrs ++ [[]]).flatten = attrs.flatten := by simp
      have hnew := hfit.startsWith []
      have hlt := hfit.length_layout_lt
      simp only [Option.getD_none, hsame, append_nil] at hnew hlt ⊢
      refine ⟨_, addAttrNoData_eq hs hne hlt, hfit, Or.inr ?_⟩
      rw [hsame]
      exact hnew

theorem IsRow.removeAttr (h : IsRow attrs row) (prev : List UInt8) {k : Nat} (hk : k < attrs.length) :
    ∃ row', removeAttrFromBlobRow prev row attrs.length k = some row' ∧ IsRow (attrs.eraseIdx k) row' := by
  by_cases hn : attrs.length ≤ 1
  · have hnil : attrs.eraseIdx k = [] := eq_nil_of_length_eq_zero (by rw [length_eraseIdx_of_lt hk]; omega)
    exact ⟨[], by rw [removeAttrFromBlobRow, if_pos hn], h.1.eraseIdx k, Or.inl hnil⟩
  · have hs := h.2.resolve_left (by rintro rfl; simp at hk)
    obtain ⟨tail, htail⟩ := removeAttrFromBlobRow_eq hs h.1.length_layout_lt h.1 hk (by omega) prev
    exact ⟨_, htail, isRow_rowBytes (h.1.eraseIdx k) tail⟩

theorem IsRow.copy (h : IsRow attrs (src.drop off)) (hne : attrs ≠ [])
    (hlen : (rowBytes attrs).length < 2 ^ 31) (dst : List UInt8) :
    ∃ new, copyBlobRow dst src off attrs.length = some (dst ++ new, toInt32 dst.length) ∧ IsRow attrs new := by
  have hs := h.2.resolve_left hne
  exact ⟨_, copyBlobRow_eq hs hne (h.1.rowBytes ▸ hlen) dst, h.1, Or.inr ⟨hs.takes, hs.lens, prefix_refl _⟩⟩

/-- **The layout holds along every sequence of operations.** -/
theorem Stored.isRow (h : Stored attrs row) : IsRow attrs row := by
  induction h with
  | mem pool rest hfit =>
    rw [flushMem, drop_left]
    exact isRow_rowBytes hfit rest
  | file w rest hfit =>
    rw [written_flushFile, ← Writer.length_written, drop_left]
    exact isRow_rowBytes hfit rest
  | add data rest _ hfit hadd ih =>
    obtain ⟨row', hrow, his⟩ := ih.addAttr data hfit
    rw [hrow] at hadd
    cases hadd
    exact his.append rest
  | remove prev rest _ hk hremove ih =>
    obtain ⟨row', hrow, his⟩ := ih.removeAttr prev hk
    rw [hrow] at hremove
    cases hremove
    exact his.append rest
  | @copy attrs src dst dst' off offset rest _ hlen hcopy ih =>
    by_cases hne : attrs = []
    · exact ⟨ih.1, Or.inl hne⟩
    · obtain ⟨new, hnew, his⟩ := ih.copy hne hlen dst
      rw [hnew] at hcopy
      cases hcopy
      rw [drop_left]
      exact his.append rest

end IsRow

end BlobRow
end Manticore

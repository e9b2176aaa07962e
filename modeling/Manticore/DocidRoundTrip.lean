import Mathlib
import Manticore.DocidValuesRun
/-!
# DocidRoundTrip — the docid lookup from the writer to its readers

A docid whose pairs start inside a block and go on into the next one is the only place where rows are lost: `HintDocID`
bisects the checkpoints for the first base that is not below the docid, so it jumps over the end of the block before.
-/
namespace Manticore
namespace DocidLookup
open List
open Option (bind_eq_bind bind_eq_some_iff bind_some)

/-- What the readers of a written lookup give: the iterator all pairs, `Find` a rowid of each stored docid and
`INVALID_ROWID` for the others, the values iterator the rows of the filter's docids inside the boundaries. -/
def RoundTrips (w : Writer) (uuid : Option (List UuidDocidLookupPair)) (uIndexVersion : Nat)
    (pairs : List DocidRowidPair) (filter : List Int) : Prop :=
  ∃ data r it, writeDocidLookup w pairs uuid = some data ∧ LookupReader.setData data uIndexVersion = some r ∧
    r.iterator = some it ∧
    (∀ k, pairs.length < k → r.readAll k it = some (pairs.map (fun p => (p.docID.toNat, p.rowID.toNat)))) ∧
    (∀ D, ∃ row, r.find D = some row ∧
      ((∃ p ∈ pairs, p.docID.toNat = D ∧ p.rowID.toNat = row) ∨
        ((∀ p ∈ pairs, p.docID.toNat ≠ D) ∧ row = invalidRowID))) ∧
    ∀ BITMAP boundaries uTotalDocs,
      (BITMAP = true → uTotalDocs < 2 ^ 32 ∧ ∀ p ∈ pairs, p.rowID.toNat < uTotalDocs) →
      ∃ rows K, (∀ k, K ≤ k →
          (LookupValues.init BITMAP it filter uTotalDocs).allRows r boundaries BITMAP k k = some rows) ∧
        ∀ row, row ∈ rows ↔ inBounds boundaries row = true ∧
          ∃ p ∈ pairs, p.docID.toNat ∈ filter.map toUInt64 ∧ p.rowID.toNat = row

/-- The number of pairs is not 0 and leaves room in 32 bits, and a docid of the filter whose pairs straddle a block border
has a filter docid right before it: not below the docid stored before its own. -/
def FindsAll (pairs : List DocidRowidPair) (filter : List Int) : Prop :=
  0 < pairs.length ∧ pairs.length ≤ 2 ^ 32 - 64 ∧
    ∀ p, Straddles pairs p → docAt pairs (p + 1) ∈ filter.map toUInt64 →
      ∃ g ∈ filter.map toUInt64, docAt pairs p ≤ g ∧ g < docAt pairs (p + 1)

variable {pairs : List DocidRowidPair}

section
variable {data : List UInt8}

theorem mem_pairs_iff (P : Nat → Nat → Prop) :
    (∃ p ∈ pairs, P p.docID.toNat p.rowID.toNat) ↔ ∃ j, j < pairs.length ∧ P (docAt pairs j) (rowAt pairs j) := by
  unfold docAt rowAt
  constructor
  · rintro ⟨p, hp, h⟩
    obtain ⟨j, hj, rfl⟩ := getElem_of_mem hp
    exact ⟨j, hj, by rw [getD_eq_getElem _ _ hj]; exact h⟩
  · rintro ⟨j, hj, h⟩
    rw [getD_eq_getElem _ _ hj] at h
    exact ⟨_, getElem_mem hj, h⟩

theorem fillGo_succ (r : LookupReader) (boundaries : Option (Nat × Nat)) : ∀ (f : Nat) (it : Cursor)
    (d : DocidListReader) (cf : Option Nat) (cl : Option (Nat × Nat)) (processed : Nat) {x : List Nat × Nat},
    fillGo r boundaries f it d cf cl processed = some x → fillGo r boundaries (f + 1) it d cf cl processed = some x
  | 0, _, _, _, _, _, _, h => by cases h
  | f + 1, it, d, none, _, processed, x, h => h
  | f + 1, it, d, some _, none, processed, x, h => h
  | f + 1, it, d, some tFilter, some (tDoc, tRow), processed, x, h => by
    rw [fillGo] at h ⊢
    by_cases hlt : tFilter < tDoc
    · rw [if_pos hlt] at h ⊢
      exact fillGo_succ r boundaries f _ _ _ _ _ h
    · rw [if_neg hlt] at h ⊢
      by_cases hgt : tDoc < tFilter
      · rw [if_pos hgt] at h ⊢
        obtain ⟨hinted, hhint, h⟩ := bind_eq_some_iff.1 h
        obtain ⟨next, hread, h⟩ := bind_eq_some_iff.1 h
        rw [hhint]
        simp only [bind_eq_bind, bind_some, hread]
        exact fillGo_succ r boundaries f _ _ _ _ _ h
      · rw [if_neg hgt] at h ⊢
        obtain ⟨next, hread, h⟩ := bind_eq_some_iff.1 h
        obtain ⟨rest, hrest, h⟩ := bind_eq_some_iff.1 h
        rw [hread]
        simp only [bind_eq_bind, bind_some, fillGo_succ r boundaries f _ _ _ _ _ hrest]
        exact h

theorem fillGo_mono {r : LookupReader} {boundaries : Option (Nat × Nat)} {f g : Nat} (hfg : f ≤ g) {it : Cursor}
    {d : DocidListReader} {cf : Option Nat} {cl : Option (Nat × Nat)} {processed : Nat} {x : List Nat × Nat}
    (h : fillGo r boundaries f it d cf cl processed = some x) : fillGo r boundaries g it d cf cl processed = some x := by
  induction hfg with
  | refl => exact h
  | step _ ih => exact fillGo_succ r boundaries _ it d cf cl processed ih

/-- **The values iterator returns what the merge adds.** -/
theorem allRows_spec (h : IsLookup pairs data) (hn : pairs.length ≤ 2 ^ 32 - 64) (hsort : Sorted pairs)
    (hpos : 0 < pairs.length) {it : Cursor} (hstart : Rep pairs h.tail it (.start 0)) (filter : List Int)
    (boundaries : Option (Nat × Nat)) (BITMAP : Bool) (uTotalDocs : Nat)
    (hbits : BITMAP = true → uTotalDocs < 2 ^ 32 ∧ ∀ p ∈ pairs, p.rowID.toNat < uTotalDocs) :
    ∃ added, Fills pairs boundaries 0 (unsignedOrder filter) added ∧ ∃ rows K,
      (∀ k, K ≤ k → (LookupValues.init BITMAP it filter uTotalDocs).allRows (readerOf pairs data) boundaries BITMAP k k =
        some rows) ∧ ∀ row, row ∈ rows ↔ row ∈ added := by
  obtain ⟨it1, hread, hrep⟩ := read_start data hstart
  have hat : LookupAt pairs h.tail it1 (some (docAt pairs (64 * 0), rowAt pairs (64 * 0))) 0 := Or.inl ⟨hpos, hrep, rfl⟩
  obtain ⟨added, processed, hrun, hfills⟩ := fillGo_fills h hn hsort boundaries (pairs.length + filter.length + 1) 0
    (unsignedOrder filter) (0 + (DocidListReader.ofValues filter).readDocID.2.isSome.toNat + true.toNat) hat
    (filterCur_readDocID (filterAt_ofValues filter)) (by simp [unsignedOrder]; omega)
  refine ⟨added, hfills, ?_⟩
  obtain ⟨c, hadd, hok, hmem⟩ := addRows_spec BITMAP uTotalDocs added (fun hB => ⟨(hbits hB).1, fun row hrow => by
    obtain ⟨j, _, hj, _, _, hrow'⟩ := hfills.sound row hrow
    obtain ⟨p, hp, hprow⟩ := (mem_pairs_iff (fun _ r => r = row)).2 ⟨j, hj, hrow'⟩
    rw [← hprow]; exact (hbits hB).2 p hp⟩)
  refine ⟨(c.finalize BITMAP).1.remaining BITMAP,
    pairs.length + filter.length + ((c.finalize BITMAP).1.remaining BITMAP).length + 1, fun k hk => ?_, hmem⟩
  have hfill : (LookupValues.init BITMAP it filter uTotalDocs).fill (readerOf pairs data) boundaries BITMAP k =
      some (⟨it, DocidListReader.ofValues filter, (c.finalize BITMAP).1, false, processed⟩, (c.finalize BITMAP).2) := by
    rw [LookupValues.fill]
    simp only [LookupValues.init, hread, bind_eq_bind, bind_some, Option.isSome_some]
    rw [fillGo_mono (show _ ≤ k by omega) hrun, bind_some, hadd]
    rfl
  obtain ⟨k', rfl⟩ : ∃ k', k = k' + 1 := ⟨k - 1, by omega⟩
  have hfilled := (allRows_filled (readerOf pairs data) boundaries BITMAP (k' + 1) (k' + 1)
    ⟨it, DocidListReader.ofValues filter, (c.finalize BITMAP).1, false, processed⟩ rfl).trans
      (allChunks_spec BITMAP (k' + 1) (c.finalize BITMAP).1 (by omega))
  have hfirst : (LookupValues.init BITMAP it filter uTotalDocs).firstTime = true := rfl
  rw [LookupValues.allRows, LookupValues.getNextRowIdBlock, if_pos hfirst, hfill, Option.map_some]
  by_cases hempty : added = []
  · -- nothing was added, and `Finalize` says so
    have hno : (c.finalize BITMAP).2 = false := by
      rw [← Bool.not_eq_true]; exact fun h => hok.1 h hempty
    have hnil : (c.finalize BITMAP).1.remaining BITMAP = [] :=
      eq_nil_iff_forall_not_mem.2 (fun row hrow => by rw [hmem row, hempty] at hrow; simp at hrow)
    rw [hno, hnil]
    rfl
  · rw [hok.2 hempty]
    exact hfilled

end

/-! ## Too many pairs -/

theorem addPair_fields {l l' : LookupWriter} {p : DocidRowidPair} (h : l.addPair p = some l') :
    l'.nDocs = l.nDocs ∧ l'.processed = l.processed + 1 := by
  unfold LookupWriter.addPair at h
  split at h
  · cases h
  · split at h
    · split at h
      · cases h; exact ⟨rfl, rfl⟩
      · cases h
    · cases h; exact ⟨rfl, rfl⟩

theorem addPairs_fields : ∀ (ps : List DocidRowidPair) {l l' : LookupWriter}, ps.foldlM LookupWriter.addPair l = some l' →
    l'.nDocs = l.nDocs ∧ l'.processed = l.processed + ps.length
  | [], l, l', h => by cases h; exact ⟨rfl, rfl⟩
  | p :: ps, l, l', h => by
    obtain ⟨l1, hadd, hrest⟩ := bind_eq_some_iff.1 h
    obtain ⟨h1, h2⟩ := addPair_fields hadd
    obtain ⟨h3, h4⟩ := addPairs_fields ps hrest
    exact ⟨h3.trans h1, by rw [h4, h2, length_cons]; omega⟩

/-- The number of checkpoints wraps around at 2³² − 63 pairs, and the number of pairs itself at 2³². -/
theorem writeDocidLookup_large (w : Writer) (hn : 2 ^ 32 - 64 < pairs.length)
    (uuid : Option (List UuidDocidLookupPair)) : writeDocidLookup w pairs uuid = none := by
  unfold writeDocidLookup
  cases hadd : pairs.foldlM LookupWriter.addPair (LookupWriter.start w (pairs.length % 2 ^ 32)) with
  | none => rfl
  | some l =>
    obtain ⟨hnDocs, hproc⟩ := addPairs_fields pairs hadd
    have h0 : (LookupWriter.start w (pairs.length % 2 ^ 32)).nDocs = pairs.length % 2 ^ 32 := rfl
    by_cases hbig : 2 ^ 32 ≤ pairs.length
    · have hfin : l.finalizeNumeric = none := by
        have := Nat.mod_lt pairs.length (show 0 < 2 ^ 32 by decide)
        rw [LookupWriter.finalizeNumeric, if_neg (by omega)]
      simp only [bind_eq_bind, bind_some, hfin, Option.bind_none]
    · -- the first pair finds no room in the vector
      exfalso
      obtain ⟨p, ps, rfl⟩ := exists_cons_of_length_pos (show 0 < pairs.length by omega)
      obtain ⟨l1, hfirst, _⟩ := bind_eq_some_iff.1 hadd
      rw [Nat.mod_eq_of_lt (by omega)] at hfirst
      have hroom : (LookupWriter.start w (p :: ps).length).checkpoints.length = 0 := by
        show (List.replicate _ _).length = 0
        rw [length_replicate]
        unfold docsPerLookupCheckpoint
        omega
      have hlast : (LookupWriter.start w (p :: ps).length).lastDocID = 0 := rfl
      have hcp : (LookupWriter.start w (p :: ps).length).checkpoint = 0 := rfl
      have hpr : (LookupWriter.start w (p :: ps).length).processed = 0 := rfl
      rw [LookupWriter.addPair, hlast, hroom, hcp, hpr, if_neg (by omega), if_pos (Nat.zero_mod _),
        if_neg (by omega)] at hfirst
      cases hfirst

section
variable {filter : List Int} {bufferSize : Nat} {hb : 0 < bufferSize}
  {uuid : Option (List UuidDocidLookupPair)} {uIndexVersion : Nat}

theorem roundTrips_of_findsAll (hsort : Sorted pairs) (hfilter : filter.Pairwise (· ≤ ·))
    (hrange : ∀ v ∈ filter, -2 ^ 63 ≤ v ∧ v < 2 ^ 63) (huuid : ∀ us, uuid = some us → us.length = pairs.length)
    (hv : 71 ≤ uIndexVersion) (hfinds : FindsAll pairs filter) :
    RoundTrips (Writer.openFile bufferSize hb) uuid uIndexVersion pairs filter := by
  obtain ⟨hpos, hn, hsafe⟩ := hfinds
  obtain ⟨data, hwrite, ⟨h⟩, _⟩ := isLookup_writeDocidLookup bufferSize hb hsort hn huuid
  obtain ⟨it, hit, hstart⟩ := setCheckpoint_eq (c := 0) h hn ⟨none, [], 0, 0, 0⟩ hpos
  refine ⟨data, readerOf pairs data, it, hwrite, setData_eq h hn hv, hit, fun k hk => ?_, fun D => ?_,
    fun BITMAP boundaries uTotalDocs hbits => ?_⟩
  · have hall := readAll_iterator h hn hsort hpos hk
    rw [LookupReader.iterator, hit, bind_some] at hall
    exact hall
  · obtain ⟨row, hfind, hcase⟩ := find_spec h hn hsort hpos D
    refine ⟨row, hfind, hcase.imp ?_ ?_⟩
    · rintro ⟨j, hj, hdoc, hrow⟩
      exact (mem_pairs_iff (fun d r => d = D ∧ r = row)).2 ⟨j, hj, hdoc, hrow.symm⟩
    · rintro ⟨hno, hinv⟩
      refine ⟨fun p hp hdoc => ?_, hinv⟩
      obtain ⟨j, hj, hdoc'⟩ := (mem_pairs_iff (fun d _ => d = D)).1 ⟨p, hp, hdoc⟩
      exact hno j hj hdoc'
  · obtain ⟨added, hfills, rows, K, hrows, hmem⟩ :=
      allRows_spec h hn hsort hpos hstart filter boundaries BITMAP uTotalDocs hbits
    refine ⟨rows, K, hrows, fun row => ?_⟩
    rw [hmem row]
    constructor
    · intro hrow
      obtain ⟨j, _, hj, hdoc, hin, hrow'⟩ := hfills.sound row hrow
      exact ⟨hin, (mem_pairs_iff (fun d r => d ∈ filter.map toUInt64 ∧ r = row)).2
        ⟨j, hj, mem_unsignedOrder.1 hdoc, hrow'⟩⟩
    · rintro ⟨hin, hp⟩
      obtain ⟨j, hj, hdoc, rfl⟩ := (mem_pairs_iff (fun d r => d ∈ filter.map toUInt64 ∧ r = row)).1 hp
      refine Fills.complete hsort (unsignedOrder filter) (fun p hstr hp => ?_) hfills (unsignedOrder_sorted hfilter hrange)
        (fun g hg => hg) (fun _ g hg => Or.inl hg) j (Nat.zero_le j) hj (mem_unsignedOrder.2 hdoc) hin
      obtain ⟨g, hg, hge, hlt⟩ := hsafe p hstr (mem_unsignedOrder.1 hp)
      exact ⟨g, mem_unsignedOrder.2 hg, hge, hlt⟩

theorem findsAll_of_roundTrips (hsort : Sorted pairs) (huuid : ∀ us, uuid = some us → us.length = pairs.length)
    (hv : 71 ≤ uIndexVersion) (hnodup : (pairs.map DocidRowidPair.rowID).Nodup)
    (htrip : RoundTrips (Writer.openFile bufferSize hb) uuid uIndexVersion pairs filter) : FindsAll pairs filter := by
  obtain ⟨data, r, it, hwrite, hset, hit, _, _, hvalues⟩ := htrip
  have hn : pairs.length ≤ 2 ^ 32 - 64 := by
    by_cases hle : pairs.length ≤ 2 ^ 32 - 64
    · exact hle
    · rw [writeDocidLookup_large _ (by omega)] at hwrite
      cases hwrite
  obtain ⟨data', hwrite', ⟨h⟩, hlen⟩ := isLookup_writeDocidLookup bufferSize hb hsort hn huuid
  obtain rfl : data' = data := Option.some.inj (hwrite'.symm.trans hwrite)
  obtain rfl : readerOf pairs data' = r := Option.some.inj ((setData_eq h hn hv).symm.trans hset)
  have hpos : 0 < pairs.length := by
    rcases eq_zero_or_pos pairs.length with h0 | h0
    · -- the first checkpoint of an empty lookup is behind the end of the file
      have hnil := eq_nil_of_length_eq_zero h0
      have hlen24 := hlen hnil
      have hbase : (readerOf pairs data').baseDocID 0 = none := by
        show readLE 8 data' 24 = none
        rw [readLE, if_neg (by omega)]
      rw [LookupReader.iterator, LookupReader.setCheckpoint, hbase] at hit
      cases hit
    · exact h0
  refine ⟨hpos, hn, fun p hstr hdoc => ?_⟩
  by_contra hno
  obtain ⟨it', hit', hstart⟩ := setCheckpoint_eq (c := 0) h hn ⟨none, [], 0, 0, 0⟩ hpos
  obtain rfl : it' = it := Option.some.inj (hit'.symm.trans hit)
  obtain ⟨added, hfills, rows, K, hrows, hmem⟩ := allRows_spec h hn hsort hpos hstart filter none false 0
    (fun hB => by cases hB)
  obtain ⟨rows', K', hrows', hmem'⟩ := hvalues false none 0 (fun hB => by cases hB)
  obtain rfl : rows' = rows :=
    Option.some.inj ((hrows' (max K K') (le_max_right _ _)).symm.trans (hrows (max K K') (le_max_left _ _)))
  -- the row of the pair behind `p` is expected, but only other pairs are visited
  have hp1 := hstr.1
  have hrow : rowAt pairs (p + 1) ∈ added := by
    rw [← hmem, hmem']
    exact ⟨rfl, (mem_pairs_iff (fun d r => d ∈ filter.map toUInt64 ∧ r = rowAt pairs (p + 1))).2 ⟨p + 1, hp1, hdoc, rfl⟩⟩
  obtain ⟨j, hj, hne, hsame⟩ := Fills.lost (unsignedOrder filter) hstr
    (fun g hg hge => by
      by_contra hlt
      exact hno ⟨g, mem_unsignedOrder.1 hg, hge, by omega⟩) hfills (Nat.zero_le p) (fun g hg => hg) _ hrow
  unfold rowAt at hsame
  rw [getD_eq_getElem _ _ hj, getD_eq_getElem _ _ hp1] at hsame
  have hj' : j < (pairs.map DocidRowidPair.rowID).length := by simpa using hj
  have hp' : p + 1 < (pairs.map DocidRowidPair.rowID).length := by simpa using hp1
  have heq : (pairs.map DocidRowidPair.rowID)[j] = (pairs.map DocidRowidPair.rowID)[p + 1] := by
    rw [getElem_map, getElem_map]; exact UInt32.toNat_inj.1 hsame
  exact hne ((List.Nodup.getElem_inj_iff hnodup).1 heq)

/-- **The docid lookup is exact exactly when no docid of the filter straddles a block border unprepared.** -/
theorem docidLookup_roundTrips (bufferSize : Nat) (hb : 0 < bufferSize) (hsort : Sorted pairs)
    (hfilter : filter.Pairwise (· ≤ ·)) (hrange : ∀ v ∈ filter, -2 ^ 63 ≤ v ∧ v < 2 ^ 63)
    (huuid : ∀ us, uuid = some us → us.length = pairs.length) (hv : 71 ≤ uIndexVersion) :
    (FindsAll pairs filter → RoundTrips (Writer.openFile bufferSize hb) uuid uIndexVersion pairs filter) ∧
    ((pairs.map DocidRowidPair.rowID).Nodup →
      (RoundTrips (Writer.openFile bufferSize hb) uuid uIndexVersion pairs filter ↔ FindsAll pairs filter)) :=
  ⟨roundTrips_of_findsAll hsort hfilter hrange huuid hv, fun hnodup =>
    ⟨findsAll_of_roundTrips hsort huuid hv hnodup, roundTrips_of_findsAll hsort hfilter hrange huuid hv⟩⟩

end

/-- Docid 1, then docid 2 from the second entry on into the second block. -/
def straddlingPairs : List DocidRowidPair := ⟨1, 0⟩ :: (List.range 64).map (fun i => ⟨2, UInt32.ofNat (i + 1)⟩)

/-- The rows 1 to 63 of docid 2 are lost. -/
theorem docidLookup_loses_rows : Sorted straddlingPairs ∧
    ¬ RoundTrips (Writer.openFile 64 (by decide)) none 73 straddlingPairs [2] := by
  have hsort : Sorted straddlingPairs := by unfold Sorted; decide +kernel
  refine ⟨hsort, fun htrip => ?_⟩
  have hfinds := findsAll_of_roundTrips hsort (fun us h => by cases h) (by decide) (by decide +kernel) htrip
  obtain ⟨g, hg, hge, hlt⟩ := hfinds.2.2 0 (by unfold Straddles; decide +kernel) (by decide +kernel)
  have hdoc : docAt straddlingPairs (0 + 1) = 2 := by decide +kernel
  have hg2 : g = 2 := by simpa [toUInt64] using hg
  omega

/-- With docid 1 in the filter they are found, together with a docid that is not stored. -/
theorem docidLookup_roundTrips_straddling : RoundTrips (Writer.openFile 64 (by decide)) none 73 straddlingPairs [-3, 1, 2] := by
  refine (docidLookup_roundTrips 64 (by decide) (by unfold Sorted; decide +kernel) (by decide) (by decide)
    (fun us h => by cases h) (by decide)).1 ⟨by decide, by decide, fun p hstr _ => ⟨1, by decide, ?_⟩⟩
  -- only docid 2 straddles, behind the first pair
  have hfirst : ∀ p < 65, docAt straddlingPairs p < docAt straddlingPairs (p + 1) → p = 0 := by decide +kernel
  obtain rfl := hfirst p (lt_trans (Nat.lt_succ_self p) hstr.1) hstr.2.2.2.1
  decide +kernel

end DocidLookup
end Manticore

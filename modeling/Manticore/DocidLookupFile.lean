import Mathlib
import Manticore.DocidLookup
/-!
# DocidLookupFile — the bytes of the docid lookup, and reading them back

`IsLookup` says what a written file looks like.  A reader at some entry stands before the encoding of the pairs that
follow, so every read peels one pair off it.
-/
namespace Manticore
namespace DocidLookup
open List
open Option (bind_eq_bind bind_some map_some)

/-- The list is in the order of `CmpDocidLookup_fn`. -/
def Sorted (pairs : List DocidRowidPair) : Prop := pairs.Pairwise (fun a b => cmpDocidLookup b a = false)

theorem docID_le_of_not_less {a b : DocidRowidPair} (h : cmpDocidLookup b a = false) : a.docID.toNat ≤ b.docID.toNat := by
  unfold cmpDocidLookup at h
  split at h
  · rename_i heq; rw [heq]
  · simpa [UInt64.lt_iff_toNat_lt] using h

def docAt (pairs : List DocidRowidPair) (i : Nat) : Nat := (pairs.getD i ⟨0, 0⟩).docID.toNat
def rowAt (pairs : List DocidRowidPair) (i : Nat) : Nat := (pairs.getD i ⟨0, 0⟩).rowID.toNat

theorem docAt_lt (pairs : List DocidRowidPair) (i : Nat) : docAt pairs i < 2 ^ 64 := UInt64.toNat_lt _
theorem rowAt_lt (pairs : List DocidRowidPair) (i : Nat) : rowAt pairs i < 2 ^ 32 := UInt32.toNat_lt _

variable {pairs : List DocidRowidPair} {done : List DocidRowidPair} {i : Nat}

theorem Sorted.docAt_mono (h : Sorted pairs) {j : Nat} (hij : i ≤ j) (hj : j < pairs.length) :
    docAt pairs i ≤ docAt pairs j := by
  rcases lt_or_eq_of_le hij with hlt | rfl
  · have := pairwise_iff_getElem.1 h i j (by omega) hj hlt
    unfold docAt
    rw [getD_eq_getElem _ _ (by omega), getD_eq_getElem _ _ hj]
    exact docID_le_of_not_less this
  · exact le_refl _

theorem Sorted.docAt_succ (h : Sorted pairs) (hi : i + 1 < pairs.length) :
    (docAt pairs i + (docAt pairs (i + 1) - docAt pairs i)) % 2 ^ 64 = docAt pairs (i + 1) := by
  rw [Nat.add_sub_cancel' (h.docAt_mono (Nat.le_succ i) hi), Nat.mod_eq_of_lt (docAt_lt _ _)]

/-! ## The bytes -/

/-- An entry: a docid delta, except at the start of a block, and the rowid. -/
def entry (i last : Nat) (p : DocidRowidPair) : List UInt8 :=
  (if i % 64 = 0 then [] else Zip.zipBE (p.docID.toNat - last)) ++ putLE 4 p.rowID.toNat

def entries : Nat → Nat → List DocidRowidPair → List UInt8
  | _, _,    []      => []
  | i, last, p :: ps => entry i last p ++ entries (i + 1) p.docID.toNat ps

/-- The last docid, or `last` for none. -/
def lastDocIDOf (last : Nat) (ps : List DocidRowidPair) : Nat := ps.foldl (fun _ p => p.docID.toNat) last

theorem entries_append : ∀ (xs ys : List DocidRowidPair) (i last : Nat),
    entries i last (xs ++ ys) = entries i last xs ++ entries (i + xs.length) (lastDocIDOf last xs) ys
  | [], _, _, _ => by simp [entries, lastDocIDOf]
  | x :: xs, ys, i, last => by
    rw [cons_append, entries, entries_append xs ys, entries, append_assoc, length_cons,
      show i + 1 + xs.length = i + (xs.length + 1) by omega]
    rfl

theorem length_entry_le (i last : Nat) (p : DocidRowidPair) : (entry i last p).length ≤ 14 := by
  have hlt : p.docID.toNat - last < 128 ^ (9 + 1) :=
    lt_of_lt_of_le (lt_of_le_of_lt (Nat.sub_le _ _) p.docID.toNat_lt) (by decide)
  have := Zip.zippedLen_le (p.docID.toNat - last) 9 hlt
  unfold entry
  split <;> simp [Zip.length_zipBE]; omega

theorem length_entries_le : ∀ (ps : List DocidRowidPair) (i last : Nat), (entries i last ps).length ≤ 14 * ps.length
  | [], _, _ => by simp [entries]
  | p :: ps, i, last => by
    have h1 := length_entry_le i last p
    have h2 := length_entries_le ps (i + 1) p.docID.toNat
    rw [entries, length_append, length_cons]; omega

def checkpointBytes (c : Nat × Nat) : List UInt8 := putLE 8 c.1 ++ putLE 8 c.2

def tableBytes (cps : List (Nat × Nat)) : List UInt8 := (cps.map checkpointBytes).flatten

theorem length_tableBytes : ∀ (cps : List (Nat × Nat)), (tableBytes cps).length = 16 * cps.length
  | [] => rfl
  | c :: cps => by
    have := length_tableBytes cps
    unfold tableBytes at this ⊢
    rw [map_cons, flatten_cons, length_append, this, checkpointBytes, length_append, length_putLE,
      length_putLE, length_cons]
    omega

theorem tableBytes_append (xs ys : List (Nat × Nat)) : tableBytes (xs ++ ys) = tableBytes xs ++ tableBytes ys := by
  unfold tableBytes; rw [map_append, flatten_append]

/-- **What a lookup file of the pairs looks like.** -/
structure IsLookup (pairs : List DocidRowidPair) (data : List UInt8) where
  uuid    : Nat
  table   : List (Nat × Nat)
  tail    : List UInt8
  uuid_lt : uuid < 2 ^ 64
  data_eq : data = putLE 4 pairs.length ++ putLE 4 64 ++ putLE 8 (lastDocIDOf 0 pairs) ++ putLE 8 uuid ++
    tableBytes table ++ entries 0 0 pairs ++ tail
  length_table : table.length = (pairs.length + 63) / 64
  checkpoint : ∀ c, 64 * c < pairs.length → table[c]? =
    some (docAt pairs (64 * c), 24 + 16 * table.length + (entries 0 0 (pairs.take (64 * c))).length)

/-! ## Writing -/

theorem puts_putCheckpoint (w : Writer) (c : Nat × Nat) : w.Puts (LookupWriter.putCheckpoint w c) (checkpointBytes c) :=
  (Writer.puts_putOffset w c.1).trans (Writer.puts_putOffset _ c.2)

theorem puts_table (w : Writer) (cps : List (Nat × Nat)) :
    w.Puts (cps.foldl LookupWriter.putCheckpoint w) (tableBytes cps) := Writer.Puts.foldl puts_putCheckpoint cps w

def uuidBytes (u : UuidDocidLookupPair) : List UInt8 :=
  putLE 8 u.hi.toNat ++ putLE 8 u.lo.toNat ++ putLE 8 u.docID.toNat

theorem puts_uuidPair (w : Writer) (u : UuidDocidLookupPair) : w.Puts (putUuidPair w u) (uuidBytes u) :=
  ((Writer.puts_putOffset w _).trans (Writer.puts_putOffset _ _)).trans (Writer.puts_putOffset _ _)

/-- The writer after `Start ( n )` and the pairs `done`, into a new file. -/
structure Wrote (n : Nat) (done : List DocidRowidPair) (l : LookupWriter) : Prop where
  atEnd      : l.writer.AtEnd
  written    : l.writer.written = putLE 4 n ++ putLE 4 64 ++ putLE 8 0 ++ putLE 8 0 ++
    tableBytes (List.replicate ((n + 63) / 64) (0, 0)) ++ entries 0 0 done
  nDocs      : l.nDocs = n
  processed  : l.processed = done.length
  checkpoint : l.checkpoint = (done.length + 63) / 64
  places     : l.maxDocIDPos = 8 ∧ l.uuidLookupOffsetPos = 16 ∧ l.checkpointStart = 24
  last       : l.lastDocID = lastDocIDOf 0 done
  room       : l.checkpoints.length = (n + 63) / 64
  table      : ∀ c, 64 * c < done.length → l.checkpoints[c]? =
    some (docAt done (64 * c), 24 + 16 * ((n + 63) / 64) + (entries 0 0 (done.take (64 * c))).length)

theorem wrote_start (bufferSize n : Nat) (hb : 0 < bufferSize) (hn : n ≤ 2 ^ 32 - 64) :
    Wrote n [] (LookupWriter.start (Writer.openFile bufferSize hb) n) := by
  have hmod : (n + 64 - 1) % 2 ^ 32 / 64 = (n + 63) / 64 := by rw [Nat.mod_eq_of_lt (by omega)]; rfl
  have h4 := Writer.puts_putDword (Writer.openFile bufferSize hb) n
  have h8 := h4.trans (Writer.puts_putDword _ 64)
  have h16 := h8.trans (Writer.puts_putOffset _ 0)
  have h24 := h16.trans (Writer.puts_putOffset _ 0)
  have hall := h24.trans (puts_table _ (List.replicate ((n + 63) / 64) (0, 0)))
  have hpos0 : (Writer.openFile bufferSize hb).pos = 0 := rfl
  refine ⟨?_, ?_, rfl, rfl, rfl, ⟨?_, ?_, ?_⟩, rfl, ?_, fun c hc => absurd hc (by simp)⟩
  · unfold LookupWriter.start docsPerLookupCheckpoint
    rw [hmod]
    exact hall.atEnd (Writer.atEnd_openFile bufferSize hb)
  · unfold LookupWriter.start docsPerLookupCheckpoint
    rw [hmod]
    simpa [entries] using hall.written
  · exact h8.pos.trans (by simp [hpos0])
  · exact h16.pos.trans (by simp [hpos0])
  · exact h24.pos.trans (by simp [hpos0])
  · show (List.replicate _ _).length = _
    unfold docsPerLookupCheckpoint
    rw [length_replicate, hmod]

theorem lastDocIDOf_append (last : Nat) (done : List DocidRowidPair) (p : DocidRowidPair) :
    lastDocIDOf last (done ++ [p]) = p.docID.toNat := by simp [lastDocIDOf]

theorem lastDocIDOf_le {p : DocidRowidPair} (h : Sorted (done ++ [p])) : lastDocIDOf 0 done ≤ p.docID.toNat := by
  rcases eq_nil_or_concat done with rfl | ⟨done', q, rfl⟩
  · exact Nat.zero_le _
  · rw [concat_eq_append] at h ⊢
    rw [lastDocIDOf_append]
    exact docID_le_of_not_less ((pairwise_append.1 h).2.2 q (by simp) p (by simp))

theorem docAt_append (p : DocidRowidPair) (h : i < done.length) : docAt (done ++ [p]) i = docAt done i := by
  unfold docAt; rw [getD_append _ _ _ _ h]

theorem docAt_length (done : List DocidRowidPair) (p : DocidRowidPair) :
    docAt (done ++ [p]) done.length = p.docID.toNat := by
  unfold docAt; rw [getD_append_right _ _ _ _ (le_refl _)]; simp

theorem entries_snoc (done : List DocidRowidPair) (p : DocidRowidPair) :
    entries 0 0 (done ++ [p]) = entries 0 0 done ++ entry done.length (lastDocIDOf 0 done) p := by
  rw [entries_append, zero_add, entries, entries, append_nil]

variable {c : Nat}

theorem checkpoint_append (p : DocidRowidPair) {base : Nat} (h : 64 * c < done.length) :
    (docAt (done ++ [p]) (64 * c), base + (entries 0 0 ((done ++ [p]).take (64 * c))).length) =
      (docAt done (64 * c), base + (entries 0 0 (done.take (64 * c))).length) := by
  rw [docAt_append p h, take_append_of_le_length (by omega)]

variable {n : Nat} {l : LookupWriter}

/-- **One `AddPair`.** -/
theorem wrote_addPair {p : DocidRowidPair} (h : Wrote n done l) (hsort : Sorted (done ++ [p]))
    (hn : done.length < n) : ∃ l', l.addPair p = some l' ∧ Wrote n (done ++ [p]) l' := by
  have hlast := lastDocIDOf_le hsort
  have hproc := h.processed
  have hcp := h.checkpoint
  have hdone : (done ++ [p]).length = done.length + 1 := by simp
  have hpos : l.writer.pos = 24 + 16 * ((n + 63) / 64) + (entries 0 0 done).length := by
    rw [Writer.pos_eq, h.written]; simp [length_tableBytes]; omega
  unfold LookupWriter.addPair docsPerLookupCheckpoint
  rw [if_neg (by rw [h.last]; omega)]
  by_cases hblock : done.length % 64 = 0
  · have hroom : l.checkpoint < l.checkpoints.length := by rw [hcp, h.room]; omega
    rw [if_pos (by rw [hproc]; exact hblock), if_pos hroom]
    have hput := Writer.puts_putDword l.writer p.rowID.toNat
    refine ⟨_, rfl, hput.atEnd h.atEnd, ?_, h.nDocs, ?_, ?_, h.places, (lastDocIDOf_append 0 done p).symm, ?_,
      fun c hc => ?_⟩
    · rw [hput.written, h.written, entries_snoc, entry, if_pos hblock, nil_append, append_assoc]
    · show l.processed + 1 = _
      rw [hproc, hdone]
    · show l.checkpoint + 1 = _
      rw [hcp, hdone]; omega
    · rw [length_set]; exact h.room
    · by_cases hnew : 64 * c = done.length
      · have hc' : l.checkpoint = c := by omega
        rw [hc'] at hroom ⊢
        rw [getElem?_set_self hroom, hpos, hnew, docAt_length, take_left]
      · rw [getElem?_set_ne (by omega), checkpoint_append p (by omega)]
        exact h.table c (by omega)
  · rw [if_neg (by rw [hproc]; exact hblock)]
    have hput := (Writer.puts_zipOffset l.writer (p.docID.toNat - l.lastDocID)).trans
      (Writer.puts_putDword _ p.rowID.toNat)
    refine ⟨_, rfl, hput.atEnd h.atEnd, ?_, h.nDocs, ?_, ?_, h.places, (lastDocIDOf_append 0 done p).symm, h.room,
      fun c hc => ?_⟩
    · have hlt := p.docID.toNat_lt
      rw [hput.written, h.written, entries_snoc, entry, if_neg hblock, h.last, Nat.mod_eq_of_lt (by omega),
        append_assoc]
    · show l.processed + 1 = _
      rw [hproc, hdone]
    · show l.checkpoint = _
      rw [hcp, hdone]; omega
    · have hold : 64 * c < done.length := by omega
      rw [checkpoint_append p hold]
      exact h.table c hold

theorem wrote_addPairs : ∀ (rest done : List DocidRowidPair) {l : LookupWriter}, Wrote n done l →
    Sorted (done ++ rest) → (done ++ rest).length ≤ n →
    ∃ l', rest.foldlM LookupWriter.addPair l = some l' ∧ Wrote n (done ++ rest) l'
  | [], done, l, h, _, _ => ⟨l, rfl, by rwa [append_nil]⟩
  | p :: rest, done, l, h, hsort, hn => by
    have hassoc : done ++ p :: rest = done ++ [p] ++ rest := by simp
    rw [hassoc] at hsort hn ⊢
    obtain ⟨l1, hadd, h1⟩ := wrote_addPair h (hsort.sublist (sublist_append_left _ _)) (by simp at hn; omega)
    obtain ⟨l2, hrest, h2⟩ := wrote_addPairs rest (done ++ [p]) h1 hsort hn
    exact ⟨l2, by rw [foldlM_cons, hadd]; exact hrest, h2⟩

/-- The header of a file with the docid and offset fields filled in. -/
def header (n maxDocID uuid : Nat) (table : List (Nat × Nat)) : List UInt8 :=
  putLE 4 n ++ putLE 4 64 ++ putLE 8 maxDocID ++ putLE 8 uuid ++ tableBytes table

theorem length_header (n maxDocID uuid : Nat) (table : List (Nat × Nat)) :
    (header n maxDocID uuid table).length = 24 + 16 * table.length := by
  simp [header, length_tableBytes]; omega

/-- **`FinalizeNumeric`** fills in the largest docid and the checkpoints, and comes back to the end. -/
theorem wrote_finalizeNumeric (h : Wrote n pairs l) (hn : pairs.length = n) :
    ∃ w, l.finalizeNumeric = some w ∧ w.AtEnd ∧ 24 ≤ w.diskPos ∧
      w.file = header n (lastDocIDOf 0 pairs) 0 l.checkpoints ++ entries 0 0 pairs := by
  obtain ⟨hmax, huuid, hstart⟩ := h.places
  have hE : l.writer.flush.file = header n 0 0 (List.replicate ((n + 63) / 64) (0, 0)) ++ entries 0 0 pairs := by
    rw [Writer.file_flush, Writer.file_of_atEnd h.atEnd, h.written, header]
  have hpos : l.writer.pos = 24 + 16 * ((n + 63) / 64) + (entries 0 0 pairs).length := by
    rw [← Writer.length_written, ← Writer.file_of_atEnd h.atEnd, ← Writer.file_flush, hE, length_append, length_header,
      length_replicate]
  rw [LookupWriter.finalizeNumeric, if_pos (by rw [h.processed, h.nDocs, hn]), hmax, hstart]
  dsimp only
  -- the largest docid
  have hput8 := Writer.puts_putOffset (l.writer.flush.seekTo 8) l.lastDocID
  generalize (l.writer.flush.seekTo 8).putOffset l.lastDocID = w8 at hput8 ⊢
  obtain ⟨hfile8, hpos8⟩ := hput8.patch (putLE 4 n ++ putLE 4 64) (putLE 8 0)
    (putLE 8 0 ++ tableBytes (List.replicate ((n + 63) / 64) (0, 0)) ++ entries 0 0 pairs)
    (hE.trans (by simp [header])) (by simp) (by simp) (.inl (show 8 < l.writer.pos by omega))
  rw [length_putLE] at hpos8
  -- the checkpoints
  have hdisk := (Writer.diskPos_seekTo (w := w8) (p := 24) (by omega)).2 (by omega)
  have hput24 := puts_table (w8.seekTo 24) l.checkpoints
  generalize l.checkpoints.foldl LookupWriter.putCheckpoint (w8.seekTo 24) = w24 at hput24 ⊢
  have hdisk24 := hput24.diskPos
  obtain ⟨hfile24, hpos24⟩ := hput24.patch (putLE 4 n ++ putLE 4 64 ++ putLE 8 (lastDocIDOf 0 pairs) ++ putLE 8 0)
    (tableBytes (List.replicate ((n + 63) / 64) (0, 0))) (entries 0 0 pairs)
    (hfile8.trans (by simp [h.last])) (by simp) (by rw [length_tableBytes, length_tableBytes, length_replicate, h.room])
    (.inr (by omega))
  rw [length_tableBytes, h.room] at hpos24
  rw [← append_assoc, ← header] at hfile24
  have hlen24 : w24.file.length = l.writer.pos := by rw [hfile24, length_append, length_header, h.room, hpos]
  have hend : (w24.seekTo l.writer.pos).file = w24.file := Writer.file_seekTo _ _ (by omega) (.inr (by omega))
  have hback := (Writer.diskPos_seekTo (w := w24) (p := l.writer.pos) (by omega)).1
  refine ⟨_, rfl, Writer.atEnd_of_length_file ?_, by omega, hend.trans hfile24⟩
  rw [hend, hlen24, Writer.pos_seekTo]

variable {uuid : Option (List UuidDocidLookupPair)}

theorem writeDocidLookup_eq {w done : Writer}
    (hadd : pairs.foldlM LookupWriter.addPair (LookupWriter.start w (pairs.length % 2 ^ 32)) = some l)
    (hfin : l.finalizeNumeric = some done) : writeDocidLookup w pairs uuid = match uuid with
      | none      => some done.file
      | some uuid => if uuid.length = pairs.length then
          some (uuid.foldl putUuidPair (l.setUuidLookupOffset done done.pos)).file else none := by
  unfold writeDocidLookup
  rw [hadd]
  simp only [bind_eq_bind, bind_some]
  rw [hfin]
  rfl

/-- **What is written is a lookup file of the pairs**, with UUID entries or without, up to 2³² − 64 pairs. -/
theorem isLookup_writeDocidLookup (bufferSize : Nat) (hb : 0 < bufferSize) (hsort : Sorted pairs)
    (hn : pairs.length ≤ 2 ^ 32 - 64)
    (huuid : ∀ us, uuid = some us → us.length = pairs.length) :
    ∃ data, writeDocidLookup (Writer.openFile bufferSize hb) pairs uuid = some data ∧ Nonempty (IsLookup pairs data) ∧
      (pairs = [] → data.length = 24) := by
  have hmod : pairs.length % 2 ^ 32 = pairs.length := Nat.mod_eq_of_lt (by omega)
  obtain ⟨l, hadd, hl⟩ := wrote_addPairs pairs [] (wrote_start bufferSize pairs.length hb hn) hsort (le_refl _)
  rw [nil_append] at hl
  obtain ⟨w, hfin, hend, hdisk, hfile⟩ := wrote_finalizeNumeric hl rfl
  have hlen : w.file.length = w.pos := by rw [Writer.file_of_atEnd hend, Writer.length_written]
  rw [writeDocidLookup_eq (hmod.symm ▸ hadd) hfin]
  have htable : ∀ c, 64 * c < pairs.length → l.checkpoints[c]? =
      some (docAt pairs (64 * c), 24 + 16 * l.checkpoints.length + (entries 0 0 (pairs.take (64 * c))).length) := by
    intro c hc
    rw [hl.room]; exact hl.table c hc
  cases uuid with
  | none =>
    refine ⟨w.file, rfl, ⟨0, l.checkpoints, [], by decide, ?_, hl.room, htable⟩, fun hnil => ?_⟩
    · rw [hfile, header, append_nil]
    · rw [hfile, length_append, length_header, hl.room, hnil]; rfl
  | some us =>
    have hlen24 : 24 ≤ w.pos := le_trans hdisk (Nat.le_add_right _ _)
    have hput := Writer.puts_putOffset (w.seekTo 16) w.pos
    obtain ⟨hfile16, hpos16⟩ := hput.patch (putLE 4 pairs.length ++ putLE 4 64 ++ putLE 8 (lastDocIDOf 0 pairs)) (putLE 8 0)
      (tableBytes l.checkpoints ++ entries 0 0 pairs) (hfile.trans (by simp [header])) (by simp) (by simp)
      (.inl (by omega))
    rw [length_putLE] at hpos16
    replace hfile16 := hfile16.trans (show _ = header pairs.length (lastDocIDOf 0 pairs) w.pos l.checkpoints ++
      entries 0 0 pairs by simp [header])
    have hlen16 : ((w.seekTo 16).putOffset w.pos).file.length = w.pos := by
      rw [hfile16, ← hlen, hfile, length_append, length_append, length_header, length_header]
    have hfileU : (l.setUuidLookupOffset w w.pos).file =
        header pairs.length (lastDocIDOf 0 pairs) w.pos l.checkpoints ++ entries 0 0 pairs := by
      rw [LookupWriter.setUuidLookupOffset, hl.places.2.1, Writer.file_seekTo _ _ (by omega) (Or.inr (by omega)), hfile16]
    have hposU : (l.setUuidLookupOffset w w.pos).pos = w.pos := Writer.pos_seekTo _ _
    have hputU := Writer.Puts.foldl puts_uuidPair us (l.setUuidLookupOffset w w.pos)
    have hsmall := length_entries_le pairs 0 0
    have hposE : w.pos = (header pairs.length (lastDocIDOf 0 pairs) w.pos l.checkpoints ++ entries 0 0 pairs).length :=
      hlen16.symm.trans (congrArg List.length hfile16)
    have hlt : w.pos < 2 ^ 64 := by
      rw [hposE, length_append, length_header, hl.room]; omega
    have hdata : (us.foldl putUuidPair (l.setUuidLookupOffset w w.pos)).file =
        header pairs.length (lastDocIDOf 0 pairs) w.pos l.checkpoints ++ entries 0 0 pairs ++
          (us.map uuidBytes).flatten := by
      rw [hputU.file, hposU, hfileU]
      conv => lhs; arg 2; rw [hposE]
      rw [Writer.overwrite_end]
    refine ⟨_, if_pos (huuid us rfl), ⟨w.pos, l.checkpoints, (us.map uuidBytes).flatten, hlt, ?_, hl.room, htable⟩,
      fun hnil => ?_⟩
    · rw [hdata, header]
    · have hus : us = [] := eq_nil_of_length_eq_zero (by rw [huuid us rfl, hnil]; rfl)
      rw [hdata, length_append, length_append, length_header, hl.room, hnil, hus]; rfl

/-! ## Reading -/

/-- The reader of a lookup file. -/
def readerOf (pairs : List DocidRowidPair) (data : List UInt8) : LookupReader :=
  ⟨pairs.length, 64, (pairs.length + 63) / 64, lastDocIDOf 0 pairs, data, 24⟩

theorem lastDocIDOf_lt (pairs : List DocidRowidPair) : lastDocIDOf 0 pairs < 2 ^ 64 := by
  rcases eq_nil_or_concat pairs with rfl | ⟨xs, p, rfl⟩
  · decide
  · rw [concat_eq_append, lastDocIDOf_append]; exact p.docID.toNat_lt

theorem lastDocIDOf_eq_docAt (h : 0 < pairs.length) : lastDocIDOf 0 pairs = docAt pairs (pairs.length - 1) := by
  rcases eq_nil_or_concat pairs with rfl | ⟨xs, p, rfl⟩
  · simp at h
  · rw [concat_eq_append, lastDocIDOf_append, length_append, length_singleton, Nat.add_sub_cancel,
      docAt_length]

theorem readLE_at (n v pos : Nat) (pre post data : List UInt8) (hdata : data = pre ++ putLE n v ++ post)
    (hpos : pre.length = pos) (hv : v < 256 ^ n) : readLE n data pos = some v := by
  rw [hdata, ← hpos]
  exact readLE_putLE n v pre post hv

theorem readLE_head {v : Nat} (hv : v < 2 ^ 32) (rest : List UInt8) :
    readLE 4 (putLE 4 v ++ rest) 0 = some v ∧ (putLE 4 v ++ rest).drop 4 = rest :=
  ⟨readLE_at 4 v 0 [] rest _ rfl rfl hv, drop_left' (length_putLE 4 v)⟩

variable {data : List UInt8}

section Reader
theorem setData_eq (h : IsLookup pairs data) (hn : pairs.length ≤ 2 ^ 32 - 64) {v : Nat} (hv : 71 ≤ v) :
    LookupReader.setData data v = some (readerOf pairs data) := by
  have hd := h.data_eq
  have h0 : readLE 4 data 0 = some pairs.length :=
    readLE_at 4 _ 0 [] _ _ (hd.trans (by simp only [append_assoc, nil_append]; rfl)) rfl (by omega)
  have h4 : readLE 4 data 4 = some 64 :=
    readLE_at 4 _ 4 (putLE 4 pairs.length) _ _ (hd.trans (by simp only [append_assoc]; rfl)) (by simp) (by decide)
  have h8 : readLE 8 data 8 = some (lastDocIDOf 0 pairs) :=
    readLE_at 8 _ 8 (putLE 4 pairs.length ++ putLE 4 64) _ _ (hd.trans (by simp only [append_assoc]; rfl)) (by simp)
      (lastDocIDOf_lt pairs)
  have h16 : readLE 8 data 16 = some h.uuid :=
    readLE_at 8 _ 16 (putLE 4 pairs.length ++ putLE 4 64 ++ putLE 8 (lastDocIDOf 0 pairs)) _ _
      (hd.trans (by simp only [append_assoc]; rfl)) (by simp) h.uuid_lt
  unfold LookupReader.setData
  rw [h0, h4, h8, h16]
  simp only [bind_eq_bind, bind_some, map_some, if_pos hv]
  rw [if_neg (by decide), Nat.mod_eq_of_lt (by omega)]
  rfl

variable {c : Nat}

theorem table_split (h : IsLookup pairs data) (hc : 64 * c < pairs.length) :
    ∃ pre post, pre.length = 24 + 16 * c ∧ data = pre ++ putLE 8 (docAt pairs (64 * c)) ++
      putLE 8 (24 + 16 * h.table.length + (entries 0 0 (pairs.take (64 * c))).length) ++ post := by
  have hcp := h.checkpoint c hc
  obtain ⟨hlt, hget⟩ := List.getElem?_eq_some_iff.1 hcp
  have hsplit : h.table = h.table.take c ++ h.table[c] :: h.table.drop (c + 1) := by
    rw [← drop_eq_getElem_cons hlt, take_append_drop]
  refine ⟨putLE 4 pairs.length ++ putLE 4 64 ++ putLE 8 (lastDocIDOf 0 pairs) ++ putLE 8 h.uuid ++
    tableBytes (h.table.take c), tableBytes (h.table.drop (c + 1)) ++ entries 0 0 pairs ++ h.tail, ?_, ?_⟩
  · simp [length_tableBytes]; omega
  · have htab : tableBytes h.table = tableBytes (h.table.take c) ++ putLE 8 (docAt pairs (64 * c)) ++
        putLE 8 (24 + 16 * h.table.length + (entries 0 0 (pairs.take (64 * c))).length) ++
        tableBytes (h.table.drop (c + 1)) := by
      conv => lhs; rw [hsplit, hget]
      rw [tableBytes_append]
      simp [tableBytes, checkpointBytes]
    conv => lhs; rw [h.data_eq, htab]
    simp only [append_assoc]

theorem baseDocID_eq (h : IsLookup pairs data) (hc : 64 * c < pairs.length) :
    (readerOf pairs data).baseDocID c = some (docAt pairs (64 * c)) := by
  obtain ⟨pre, post, hlen, hdata⟩ := table_split h hc
  exact readLE_at 8 _ _ pre _ _ (hdata.trans (append_assoc _ _ _)) hlen (docAt_lt _ _)

theorem offset_eq (h : IsLookup pairs data) (hn : pairs.length ≤ 2 ^ 32 - 64) (hc : 64 * c < pairs.length) :
    (readerOf pairs data).offset c =
      some (24 + 16 * h.table.length + (entries 0 0 (pairs.take (64 * c))).length) := by
  obtain ⟨pre, post, hlen, hdata⟩ := table_split h hc
  have hsmall := length_entries_le (pairs.take (64 * c)) 0 0
  have htake : (pairs.take (64 * c)).length ≤ pairs.length := by simp
  have htab := h.length_table
  exact readLE_at 8 _ _ (pre ++ putLE 8 (docAt pairs (64 * c))) post _ hdata
    (by rw [length_append, length_putLE, hlen]; rfl) (by omega)

/-- The bytes of the pairs from `i` on. -/
def entriesFrom (pairs : List DocidRowidPair) (i : Nat) : List UInt8 := entries i (docAt pairs (i - 1)) (pairs.drop i)

/-- The first entry of a block does not look at the docid before it. -/
theorem entries_block (hi : i % 64 = 0) (l l' : Nat) (ps : List DocidRowidPair) :
    entries i l ps = entries i l' ps := by
  cases ps with
  | nil => rfl
  | cons p ps => rw [entries, entries, entry, entry, if_pos hi, if_pos hi]

theorem drop_eq_cons (hi : i < pairs.length) : pairs.drop i = pairs.getD i ⟨0, 0⟩ :: pairs.drop (i + 1) := by
  rw [drop_eq_getElem_cons hi, getD_eq_getElem _ _ hi]

theorem entriesFrom_eq (hi : i < pairs.length) : entriesFrom pairs i =
    (if i % 64 = 0 then [] else Zip.zipBE (docAt pairs i - docAt pairs (i - 1))) ++ putLE 4 (rowAt pairs i) ++
      entriesFrom pairs (i + 1) := by
  rw [entriesFrom, drop_eq_cons hi, entries, entry, entriesFrom, Nat.add_sub_cancel]
  rfl

theorem readLE_block (hc : 64 * c < pairs.length) (tail : List UInt8) :
    readLE 4 (entriesFrom pairs (64 * c) ++ tail) 0 = some (rowAt pairs (64 * c)) ∧
      (entriesFrom pairs (64 * c) ++ tail).drop 4 = entriesFrom pairs (64 * c + 1) ++ tail := by
  rw [entriesFrom_eq hc, if_pos (Nat.mul_mod_right 64 c), nil_append, append_assoc]
  exact readLE_head (rowAt_lt _ _) _

theorem drop_offset (h : IsLookup pairs data) (hc : 64 * c < pairs.length) :
    data.drop (24 + 16 * h.table.length + (entries 0 0 (pairs.take (64 * c))).length) =
      entriesFrom pairs (64 * c) ++ h.tail := by
  have hlen : (pairs.take (64 * c)).length = 64 * c := by simp; omega
  have hsplit : entries 0 0 pairs = entries 0 0 (pairs.take (64 * c)) ++ entriesFrom pairs (64 * c) := by
    conv => lhs; rw [← take_append_drop (64 * c) pairs]
    rw [entries_append, zero_add, hlen, entriesFrom]
    congr 1
    exact entries_block (by omega) _ _ _
  have hdata : data = (header pairs.length (lastDocIDOf 0 pairs) h.uuid h.table ++
      entries 0 0 (pairs.take (64 * c))) ++ (entriesFrom pairs (64 * c) ++ h.tail) := by
    refine h.data_eq.trans ?_
    rw [header, hsplit]; simp only [append_assoc]
  have hpre : (header pairs.length (lastDocIDOf 0 pairs) h.uuid h.table ++ entries 0 0 (pairs.take (64 * c))).length =
      24 + 16 * h.table.length + (entries 0 0 (pairs.take (64 * c))).length := by
    rw [length_append, length_header]
  rw [← hpre]
  exact (congrArg (List.drop _) hdata).trans drop_left

theorem isLastCheckpoint_iff (hc : 64 * c < pairs.length) :
    (readerOf pairs data).isLastCheckpoint c = true ↔ pairs.length ≤ 64 * (c + 1) := by
  rw [LookupReader.isLastCheckpoint, decide_eq_true_iff]
  show c + 1 = (pairs.length + 63) / 64 ↔ _
  omega

theorem numDocs_eq (hc : 64 * c < pairs.length) :
    (readerOf pairs data).getNumDocsInCheckpoint c = min 64 (pairs.length - 64 * c) := by
  unfold LookupReader.getNumDocsInCheckpoint
  by_cases hlast : pairs.length ≤ 64 * (c + 1)
  · rw [if_pos ((isLastCheckpoint_iff hc).2 hlast)]
    show (if pairs.length % 64 ≠ 0 then pairs.length % 64 else 64) = _
    split <;> omega
  · rw [if_neg (fun h => hlast ((isLastCheckpoint_iff hc).1 h))]
    show 64 = _
    omega

end Reader

/-- Where an iterator is: before the first entry of a block, behind the entry it read last, or at its end. -/
inductive Place where
  | start (c : Nat)
  | behind (i : Nat)
  | done

/-- The block the iterator is in. -/
def Place.block : Place → Option Nat
  | .start c  => some c
  | .behind i => some (i / 64)
  | .done     => none

/-- The pair that `Read` gives next; all pairs are before it at the end. -/
def Place.next (pairs : List DocidRowidPair) : Place → Nat
  | .start c  => 64 * c
  | .behind i => i + 1
  | .done     => pairs.length

/-- The iterator's fields at a place. -/
def Rep (pairs : List DocidRowidPair) (tail : List UInt8) (it : Cursor) : Place → Prop
  | .start c  => 64 * c < pairs.length ∧
      it = ⟨some c, entriesFrom pairs (64 * c) ++ tail, docAt pairs (64 * c), 0, min 64 (pairs.length - 64 * c)⟩
  | .behind i => i < pairs.length ∧ it = ⟨some (i / 64), entriesFrom pairs (i + 1) ++ tail, docAt pairs i, i % 64 + 1,
      min 64 (pairs.length - 64 * (i / 64))⟩
  | .done     => it.curCheckpoint = none

variable {p : Place}

section Iterator
variable {it : Cursor}

theorem setCheckpoint_eq (h : IsLookup pairs data) (hn : pairs.length ≤ 2 ^ 32 - 64) (it : Cursor)
    (hc : 64 * c < pairs.length) : ∃ it', (readerOf pairs data).setCheckpoint it (some c) = some it' ∧
      Rep pairs h.tail it' (.start c) := by
  refine ⟨_, ?_, hc, rfl⟩
  rw [LookupReader.setCheckpoint, baseDocID_eq h hc, offset_eq h hn hc, numDocs_eq hc]
  simp only [bind_eq_bind, bind_some]
  rw [show (readerOf pairs data).data = data from rfl, drop_offset h hc]

variable {tail : List UInt8}

theorem readEntry_start (h : Rep pairs tail it (.start c)) :
    ∃ it', LookupReader.readEntry it = some (it', some (docAt pairs (64 * c), rowAt pairs (64 * c))) ∧
      Rep pairs tail it' (.behind (64 * c)) := by
  obtain ⟨hc, rfl⟩ := h
  refine ⟨_, ?_, hc, rfl⟩
  have hmod : 64 * c % 64 = 0 := Nat.mul_mod_right 64 c
  have hdiv : 64 * c / 64 = c := Nat.mul_div_cancel_left c (by decide)
  obtain ⟨hread, hdrop⟩ := readLE_block hc tail
  rw [LookupReader.readEntry, if_pos rfl]
  simp only [hread, hdrop, hmod, hdiv, bind_eq_bind, bind_some, zero_add]

/-- An entry inside a block: the delta is added to the docid before it. -/
theorem unzip_entriesFrom (hi : i + 1 < pairs.length) (hmod : (i + 1) % 64 ≠ 0) (tail : List UInt8) :
    Zip.unzipOffsetBE (entriesFrom pairs (i + 1) ++ tail) = (docAt pairs (i + 1) - docAt pairs i,
      putLE 4 (rowAt pairs (i + 1)) ++ (entriesFrom pairs (i + 2) ++ tail)) := by
  have hlt := docAt_lt pairs (i + 1)
  rw [entriesFrom_eq hi, if_neg hmod, Nat.add_sub_cancel, append_assoc, append_assoc]
  exact Zip.unzipOffsetBE_zipBE _ (by omega) _

theorem readEntry_behind (hsort : Sorted pairs) (h : Rep pairs tail it (.behind i)) (hi : i + 1 < pairs.length)
    (hmod : (i + 1) % 64 ≠ 0) : ∃ it', LookupReader.readEntry it = some (it', some (docAt pairs (i + 1), rowAt pairs (i + 1))) ∧
      Rep pairs tail it' (.behind (i + 1)) := by
  obtain ⟨_, rfl⟩ := h
  refine ⟨_, ?_, hi, rfl⟩
  have hunzip := unzip_entriesFrom hi hmod tail
  obtain ⟨hread, hdrop⟩ := readLE_head (rowAt_lt pairs (i + 1)) (entriesFrom pairs (i + 2) ++ tail)
  have hdoc := hsort.docAt_succ hi
  have hdiv : (i + 1) / 64 = i / 64 := by omega
  have hrem : (i + 1) % 64 = i % 64 + 1 := by omega
  rw [LookupReader.readEntry, if_neg (by simp)]
  simp only [hunzip, hread, hdrop, hdoc, hdiv, hrem, bind_eq_bind, bind_some]

theorem read_start (data : List UInt8) (h : Rep pairs tail it (.start c)) :
    ∃ it', (readerOf pairs data).read it = some (it', some (docAt pairs (64 * c), rowAt pairs (64 * c))) ∧
      Rep pairs tail it' (.behind (64 * c)) := by
  obtain ⟨it', hread, hrep⟩ := readEntry_start h
  refine ⟨it', ?_, hrep⟩
  obtain ⟨hc, rfl⟩ := h
  rw [LookupReader.read]
  simp only
  rw [if_neg (by omega), hread]

/-- **`Read` goes to the next pair**, over block borders too. -/
theorem read_behind (h : IsLookup pairs data) (hn : pairs.length ≤ 2 ^ 32 - 64) (hsort : Sorted pairs)
    (hrep : Rep pairs h.tail it (.behind i)) (hi : i + 1 < pairs.length) :
    ∃ it', (readerOf pairs data).read it = some (it', some (docAt pairs (i + 1), rowAt pairs (i + 1))) ∧
      Rep pairs h.tail it' (.behind (i + 1)) := by
  by_cases hmod : (i + 1) % 64 = 0
  · -- the block is done: the next checkpoint is set first
    have hc : 64 * (i / 64 + 1) < pairs.length := by omega
    obtain ⟨it1, hset, hstart⟩ := setCheckpoint_eq h hn it hc
    obtain ⟨it2, hread, hbehind⟩ := readEntry_start hstart
    rw [show 64 * (i / 64 + 1) = i + 1 by omega] at hread hbehind
    refine ⟨it2, ?_, hbehind⟩
    obtain ⟨hlt, rfl⟩ := hrep
    rw [LookupReader.read]
    simp only
    rw [if_pos (by omega), if_neg (fun hl => by have := (isLastCheckpoint_iff (by omega)).1 hl; omega), hset,
      bind_some, hread]
  · obtain ⟨it1, hread, hbehind⟩ := readEntry_behind hsort hrep hi hmod
    refine ⟨it1, ?_, hbehind⟩
    obtain ⟨hlt, rfl⟩ := hrep
    rw [LookupReader.read]
    simp only
    rw [if_neg (by omega), hread]

theorem read_last (data : List UInt8) (h : Rep pairs tail it (.behind i)) (hi : i + 1 = pairs.length) :
    ∃ it', (readerOf pairs data).read it = some (it', none) ∧ Rep pairs tail it' .done := by
  refine ⟨{ it with curCheckpoint := none }, ?_, rfl⟩
  obtain ⟨hlt, rfl⟩ := h
  rw [LookupReader.read]
  simp only
  rw [if_pos (by omega), if_pos ((isLastCheckpoint_iff (by omega)).2 (by omega))]

theorem read_done (data : List UInt8) (h : Rep pairs tail it .done) : (readerOf pairs data).read it = some (it, none) := by
  have hnone : it.curCheckpoint = none := h
  rw [LookupReader.read, hnone]

/-- `Read` from behind pair `i` on gives the pairs after it. -/
theorem readAll_behind (h : IsLookup pairs data) (hn : pairs.length ≤ 2 ^ 32 - 64) (hsort : Sorted pairs) :
    ∀ (f i : Nat) {it : Cursor}, Rep pairs h.tail it (.behind i) → pairs.length ≤ i + f →
      (readerOf pairs data).readAll f it =
        some ((pairs.drop (i + 1)).map (fun p => (p.docID.toNat, p.rowID.toNat)))
  | 0, i, it, hrep, hf => absurd hrep.1 (by omega)
  | f + 1, i, it, hrep, hf => by
    rw [LookupReader.readAll]
    by_cases hi : i + 1 < pairs.length
    · obtain ⟨it', hread, hrep'⟩ := read_behind h hn hsort hrep hi
      rw [hread]
      simp only [bind_eq_bind, bind_some]
      rw [readAll_behind h hn hsort f (i + 1) hrep' (by omega), map_some, drop_eq_cons hi, map_cons]
      rfl
    · obtain ⟨it', hread, _⟩ := read_last data hrep (by have := hrep.1; omega)
      rw [hread]
      simp only [bind_eq_bind, bind_some]
      rw [drop_eq_nil_of_le (by omega), map_nil]

/-- **The iterator reads back exactly the pairs.** -/
theorem readAll_iterator (h : IsLookup pairs data) (hn : pairs.length ≤ 2 ^ 32 - 64) (hsort : Sorted pairs)
    (hpos : 0 < pairs.length) {f : Nat} (hf : pairs.length < f) :
    (readerOf pairs data).iterator.bind ((readerOf pairs data).readAll f) =
      some (pairs.map (fun p => (p.docID.toNat, p.rowID.toNat))) := by
  obtain ⟨it, hset, hstart⟩ := setCheckpoint_eq (c := 0) h hn ⟨none, [], 0, 0, 0⟩ hpos
  obtain ⟨it', hread, hrep⟩ := read_start data hstart
  obtain ⟨f', rfl⟩ : ∃ f', f = f' + 1 := ⟨f - 1, by omega⟩
  rw [LookupReader.iterator, hset, bind_some, LookupReader.readAll, hread]
  simp only [bind_eq_bind, bind_some]
  rw [readAll_behind h hn hsort f' 0 hrep (by omega), map_some]
  have hcons := drop_eq_cons hpos
  rw [drop_zero] at hcons
  conv => rhs; rw [hcons, map_cons]
  rfl

/-- **`FindCheckpoint`** from a checkpoint not above the docid: none past the largest docid, else the first one that has
the docid as its base, or the last one below it. -/
theorem findCheckpoint_spec (h : IsLookup pairs data) (hsort : Sorted pairs) (D c₀ : Nat) (hc₀ : 64 * c₀ < pairs.length)
    (hD : docAt pairs (64 * c₀) ≤ D) :
    (lastDocIDOf 0 pairs < D ∧ (readerOf pairs data).findCheckpoint D c₀ = some none) ∨
    (D ≤ lastDocIDOf 0 pairs ∧ ∃ c, (readerOf pairs data).findCheckpoint D c₀ = some (some c) ∧ c₀ ≤ c ∧
      64 * c < pairs.length ∧ docAt pairs (64 * c) ≤ D ∧ (∀ c', c₀ ≤ c' → c' < c → docAt pairs (64 * c') < D) ∧
      (docAt pairs (64 * c) < D → ∀ c', c < c' → 64 * c' < pairs.length → D < docAt pairs (64 * c'))) := by
  rw [LookupReader.findCheckpoint, baseDocID_eq h hc₀]
  simp only [bind_eq_bind, bind_some]
  by_cases hmax : lastDocIDOf 0 pairs < D
  · exact Or.inl ⟨hmax, if_pos (Or.inr hmax)⟩
  · refine Or.inr ⟨by omega, ?_⟩
    have hcount : (readerOf pairs data).nCheckpoints = (pairs.length + 63) / 64 := rfl
    have hneg : ¬ (D < docAt pairs (64 * c₀) ∨ (readerOf pairs data).maxDocID < D) := by
      rintro (hlt | hlt)
      · omega
      · exact hmax hlt
    rw [if_neg hneg, if_neg (by omega), hcount]
    obtain ⟨r, hr, hsr, hre, hbelow, hat⟩ := binarySearchFirst_spec _ (fun c => docAt pairs (64 * c)) D
      ((pairs.length + 63) / 64 - 1 - c₀) c₀ ((pairs.length + 63) / 64 - 1) (by omega) (by omega)
      (fun c _ hc => baseDocID_eq h (by omega)) (fun c c' _ hcc hc => hsort.docAt_mono (by omega) (by omega))
    have hrlt : 64 * r < pairs.length := by omega
    rw [hr, bind_some, baseDocID_eq h hrlt, bind_some]
    by_cases hgt : D < docAt pairs (64 * r)
    · -- the place found is above the docid, so the one before it is below
      have hne : r ≠ c₀ := by rintro rfl; omega
      rw [if_pos hgt, if_neg (by omega)]
      refine ⟨r - 1, rfl, by omega, by omega, le_of_lt (hbelow (r - 1) (by omega) (by omega)),
        fun c' h1 h2 => hbelow c' h1 (by omega), fun _ c' h1 h2 => ?_⟩
      exact lt_of_lt_of_le hgt (hsort.docAt_mono (by omega) h2)
    · rw [if_neg hgt]
      refine ⟨r, rfl, hsr, hrlt, by omega, fun c' h1 h2 => hbelow c' h1 h2, fun hlt c' h1 h2 => ?_⟩
      omega

/-- The rest of a block: the first entry with the docid, if there is one. -/
theorem findGo_spec (hsort : Sorted pairs) (tail : List UInt8) {D : Nat} : ∀ (k i : Nat), i + k < pairs.length →
    i % 64 + k < 64 → docAt pairs i < D →
    ∃ r, LookupReader.findGo D k (entriesFrom pairs (i + 1) ++ tail) (docAt pairs i) = some r ∧
      ((∃ j, i < j ∧ j ≤ i + k ∧ docAt pairs j = D ∧ r = rowAt pairs j) ∨
        ((∀ j, i < j → j ≤ i + k → docAt pairs j ≠ D) ∧ r = invalidRowID))
  | 0, i, _, _, _ => ⟨invalidRowID, rfl, Or.inr ⟨fun j h1 h2 => by omega, rfl⟩⟩
  | k + 1, i, hlen, hblock, hlt => by
    have hi : i + 1 < pairs.length := by omega
    obtain ⟨hread, hdrop⟩ := readLE_head (rowAt_lt pairs (i + 1)) (entriesFrom pairs (i + 2) ++ tail)
    have hdoc := hsort.docAt_succ hi
    rw [LookupReader.findGo, unzip_entriesFrom hi (by omega)]
    simp only [hread, hdrop, hdoc, bind_eq_bind, bind_some]
    by_cases heq : docAt pairs (i + 1) = D
    · rw [if_pos heq]
      exact ⟨_, rfl, Or.inl ⟨i + 1, by omega, by omega, heq, rfl⟩⟩
    · rw [if_neg heq]
      by_cases hgt : D < docAt pairs (i + 1)
      · rw [if_pos hgt]
        refine ⟨_, rfl, Or.inr ⟨fun j h1 h2 => ?_, rfl⟩⟩
        have := hsort.docAt_mono (show i + 1 ≤ j by omega) (by omega)
        omega
      · rw [if_neg hgt]
        obtain ⟨r, hr, hcase⟩ := findGo_spec hsort tail k (i + 1) (by omega) (by omega)
          (show docAt pairs (i + 1) < D by omega)
        refine ⟨r, hr, ?_⟩
        rcases hcase with ⟨j, h1, h2, h3⟩ | ⟨hno, hinv⟩
        · exact Or.inl ⟨j, by omega, by omega, h3⟩
        · refine Or.inr ⟨fun j h1 h2 => ?_, hinv⟩
          by_cases hj : j = i + 1
          · rw [hj]; exact heq
          · exact hno j (by omega) (by omega)

/-- **`Find` returns a rowid of every stored docid, and `INVALID_ROWID` for every other.** -/
theorem find_spec (h : IsLookup pairs data) (hn : pairs.length ≤ 2 ^ 32 - 64) (hsort : Sorted pairs)
    (hpos : 0 < pairs.length) (D : Nat) :
    ∃ r, (readerOf pairs data).find D = some r ∧
      ((∃ j, j < pairs.length ∧ docAt pairs j = D ∧ r = rowAt pairs j) ∨
        ((∀ j, j < pairs.length → docAt pairs j ≠ D) ∧ r = invalidRowID)) := by
  have hlast := lastDocIDOf_eq_docAt hpos
  rw [LookupReader.find, baseDocID_eq (c := 0) h hpos]
  simp only [bind_eq_bind, bind_some, Nat.mul_zero]
  by_cases hout : D < docAt pairs 0 ∨ (readerOf pairs data).maxDocID < D
  · rw [if_pos hout]
    refine ⟨_, rfl, Or.inr ⟨fun j hj => ?_, rfl⟩⟩
    have h1 := hsort.docAt_mono (Nat.zero_le j) hj
    have h2 := hsort.docAt_mono (show j ≤ pairs.length - 1 by omega) (by omega)
    rcases hout with hlt | hlt
    · omega
    · have : lastDocIDOf 0 pairs < D := hlt
      omega
  · rw [if_neg hout]
    rcases findCheckpoint_spec h hsort D 0 hpos (by simp only [Nat.mul_zero]; omega) with
      ⟨hlt, _⟩ | ⟨_, c, hfound, _, hc, hle, hbelow, habove⟩
    · exact absurd (Or.inr hlt) hout
    rw [hfound, bind_some]
    simp only [offset_eq h hn hc, baseDocID_eq h hc, bind_some]
    rw [show (readerOf pairs data).data = data from rfl, drop_offset h hc, numDocs_eq hc]
    rw [(readLE_block hc h.tail).1, bind_some, (readLE_block hc h.tail).2]
    by_cases heq : docAt pairs (64 * c) = D
    · rw [if_pos heq]
      exact ⟨_, rfl, Or.inl ⟨64 * c, hc, heq, rfl⟩⟩
    · rw [if_neg heq]
      obtain ⟨r, hr, hcase⟩ := findGo_spec hsort h.tail (min 64 (pairs.length - 64 * c) - 1) (64 * c) (by omega)
        (by omega) (show docAt pairs (64 * c) < D by omega)
      refine ⟨r, hr, hcase.imp (fun ⟨j, h1, h2, h3⟩ => ⟨j, by omega, h3⟩) (fun ⟨hno, hinv⟩ => ⟨fun j hj => ?_, hinv⟩)⟩
      -- before the block the docids are smaller, after it larger
      by_cases hj1 : j ≤ 64 * c
      · have := hsort.docAt_mono hj1 hc
        omega
      · by_cases hj2 : j < 64 * (c + 1)
        · exact hno j (by omega) (by omega)
        · have h1 := habove (by omega) (c + 1) (by omega) (by omega)
          have h2 := hsort.docAt_mono (show 64 * (c + 1) ≤ j by omega) hj
          omega

/-- The place that `HintDocID` leaves the iterator at: the same one unless the next block starts at the docid or below,
else the end when the docid is above all, or the first later block that starts with the docid, or the last one that
starts below it. -/
def HintsTo (pairs : List DocidRowidPair) (D : Nat) (p p' : Place) : Prop :=
  (p' = p ∧ ∀ c, p.block = some c → pairs.length ≤ 64 * (c + 1) ∨ D < docAt pairs (64 * (c + 1))) ∨
  (p' = .done ∧ docAt pairs (pairs.length - 1) < D) ∨
  ∃ c c', p.block = some c ∧ p' = .start c' ∧ c < c' ∧ 64 * c' < pairs.length ∧ docAt pairs (64 * c') ≤ D ∧
    (∀ m, c < m → m < c' → docAt pairs (64 * m) < D) ∧
    (docAt pairs (64 * c') < D → ∀ m, c' < m → 64 * m < pairs.length → D < docAt pairs (64 * m))

theorem Rep.curCheckpoint (h : Rep pairs tail it p) : it.curCheckpoint = p.block := by
  cases p with
  | start c => rw [h.2]; rfl
  | behind i => rw [h.2]; rfl
  | done => exact h

theorem Rep.block_lt (h : Rep pairs tail it p) (hc : p.block = some c) : 64 * c < pairs.length := by
  cases p with
  | start b =>
    obtain rfl : b = c := Option.some.inj hc
    exact h.1
  | behind i =>
    obtain rfl : i / 64 = c := Option.some.inj hc
    have := h.1
    omega
  | done => cases hc

section
variable (h : IsLookup pairs data) (hn : pairs.length ≤ 2 ^ 32 - 64) (hsort : Sorted pairs)
include h hn hsort

/-- **What `HintDocID` does.** -/
theorem hintDocID_hints
    (hrep : Rep pairs h.tail it p) (D : Nat) :
    ∃ it' p', (readerOf pairs data).hintDocID it D = some it' ∧ Rep pairs h.tail it' p' ∧ HintsTo pairs D p p' := by
  cases hblock : p.block with
  | none =>
    refine ⟨it, p, ?_, hrep, Or.inl ⟨rfl, fun c hc => by rw [hblock] at hc; cases hc⟩⟩
    rw [LookupReader.hintDocID, hrep.curCheckpoint, hblock]
  | some c =>
    have hc := hrep.block_lt hblock
    rw [LookupReader.hintDocID, hrep.curCheckpoint, hblock]
    simp only
    have hstay : pairs.length ≤ 64 * (c + 1) ∨ D < docAt pairs (64 * (c + 1)) → HintsTo pairs D p p := by
      intro hor
      refine Or.inl ⟨rfl, fun b hb => ?_⟩
      rw [hblock] at hb
      cases hb
      exact hor
    by_cases hlast : pairs.length ≤ 64 * (c + 1)
    · exact ⟨it, p, if_pos ((isLastCheckpoint_iff hc).2 hlast), hrep, hstay (Or.inl hlast)⟩
    · rw [if_neg (fun hl => hlast ((isLastCheckpoint_iff hc).1 hl)), baseDocID_eq h (by omega)]
      simp only [bind_eq_bind, bind_some]
      by_cases hnext : D < docAt pairs (64 * (c + 1))
      · exact ⟨it, p, if_pos hnext, hrep, hstay (Or.inr hnext)⟩
      · rw [if_neg hnext]
        rcases findCheckpoint_spec h hsort D (c + 1) (by omega) (by omega) with
          ⟨hlt, hfound⟩ | ⟨_, c', hfound, hge, hc', hle, hbelow, habove⟩
        · rw [lastDocIDOf_eq_docAt (by omega)] at hlt
          refine ⟨{ it with curCheckpoint := none }, .done, ?_, rfl, Or.inr (Or.inl ⟨rfl, hlt⟩)⟩
          rw [hfound, bind_some]
          rfl
        · obtain ⟨it', hset, hstart⟩ := setCheckpoint_eq h hn it hc'
          refine ⟨it', .start c', ?_, hstart, Or.inr (Or.inr ⟨c, c', hblock, rfl, by omega, hc', hle,
            fun m h1 h2 => hbelow m (by omega) h2, habove⟩)⟩
          rw [hfound, bind_some, hset]

theorem hintDocID_spec
    (hrep : Rep pairs h.tail it (.behind i)) (D : Nat) :
    (((readerOf pairs data).hintDocID it D = some it) ∧
      (pairs.length ≤ 64 * (i / 64 + 1) ∨ D < docAt pairs (64 * (i / 64 + 1)))) ∨
    (docAt pairs (pairs.length - 1) < D ∧ ∃ it', (readerOf pairs data).hintDocID it D = some it' ∧
      Rep pairs h.tail it' .done) ∨
    ∃ c it', (readerOf pairs data).hintDocID it D = some it' ∧ Rep pairs h.tail it' (.start c) ∧ i / 64 < c ∧
      docAt pairs (64 * c) ≤ D ∧ ∀ c', i / 64 < c' → c' < c → docAt pairs (64 * c') < D := by
  obtain ⟨it', p', hhint, hrep', ⟨rfl, hstay⟩ | ⟨rfl, hpast⟩ | ⟨c, c', hc, rfl, hlt, _, hle, hbelow, _⟩⟩ :=
    hintDocID_hints h hn hsort hrep D
  · obtain rfl : it' = it := hrep'.2.trans hrep.2.symm
    exact Or.inl ⟨hhint, hstay _ rfl⟩
  · exact Or.inr (Or.inl ⟨hpast, it', hhint, hrep'⟩)
  · obtain rfl : i / 64 = c := Option.some.inj hc
    exact Or.inr (Or.inr ⟨c', it', hhint, hrep', hlt, hle, hbelow⟩)

end

end Iterator

end DocidLookup
end Manticore

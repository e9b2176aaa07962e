import Mathlib
import Manticore.DocidValues
/-!
# DocidValuesRun — which rows a list of docids finds

`Fills` is the merge of `Fill` over places in the list of pairs.  Its only freedom is where `HintDocID` jumps to.  A jump
that lands on a block whose base is the docid looked for leaves out the pairs of that docid at the end of the block
before.
-/
namespace Manticore
namespace DocidLookup
open List
open Option (bind_eq_bind bind_some map_some)

/-! ## The filter in unsigned order -/

/-- The reader will give exactly `fs`. -/
structure FilterAt (d : DocidListReader) (fs : List Nat) : Prop where
  left  : d.left = fs.length
  index : fs ≠ [] → d.index < d.values.length
  next  : ∀ k, k < fs.length → fs[k]? = some (toUInt64 (d.values.getD ((d.index + k) % d.values.length) 0))

variable {d : DocidListReader}

theorem readDocID_nil (h : FilterAt d []) : d.readDocID = (d, none) := by
  have hleft : d.left = 0 := h.left
  rw [DocidListReader.readDocID, if_pos hleft]

variable {f : Nat}

theorem readDocID_cons {fs : List Nat} (h : FilterAt d (f :: fs)) :
    d.readDocID.2 = some f ∧ FilterAt d.readDocID.1 fs := by
  have hleft := h.left
  have hidx := h.index (by simp)
  have hf := h.next 0 (by simp)
  rw [add_zero, Nat.mod_eq_of_lt hidx] at hf
  rw [DocidListReader.readDocID, if_neg (by rw [hleft]; simp)]
  refine ⟨hf.symm, ⟨?_, fun _ => ?_, fun k hk => ?_⟩⟩
  · show d.left - 1 = fs.length
    rw [hleft]; simp
  · show (if d.index + 1 = d.values.length then 0 else d.index + 1) < d.values.length
    split <;> omega
  · have hnext := h.next (k + 1) (by simpa using hk)
    rw [getElem?_cons_succ] at hnext
    show fs[k]? = some (toUInt64 (d.values.getD (((if d.index + 1 = d.values.length then 0 else d.index + 1) + k) %
      d.values.length) 0))
    rw [hnext]
    split
    · rw [show d.index + (k + 1) = d.values.length + k by omega, Nat.add_mod_left, zero_add]
    · rw [show d.index + (k + 1) = d.index + 1 + k by omega]

/-- The order the filter is read in. -/
def unsignedOrder (values : List Int) : List Nat :=
  (values.drop (DocidListReader.ofValues values).index ++ values.take (DocidListReader.ofValues values).index).map toUInt64

theorem index_cases (values : List Int) : (DocidListReader.ofValues values).index = 0 ∧
    (values = [] ∨ ∃ v, values.getLast? = some v ∧ v < 0) ∨
    (DocidListReader.ofValues values).index = (values.takeWhile (fun v => decide (v < 0))).length ∧
      ∃ v, values.getLast? = some v ∧ 0 ≤ v := by
  unfold DocidListReader.ofValues
  cases hlast : values.getLast? with
  | none => exact Or.inl ⟨by simp, Or.inl (getLast?_eq_none_iff.1 hlast)⟩
  | some v =>
    by_cases hv : 0 ≤ v
    · exact Or.inr ⟨by simp [hv], v, rfl, hv⟩
    · exact Or.inl ⟨by simp [hv], Or.inr ⟨v, rfl, by omega⟩⟩

variable {values : List Int}

theorem index_lt (h : values ≠ []) : (DocidListReader.ofValues values).index < values.length := by
  have hpos := length_pos_iff.2 h
  rcases index_cases values with ⟨h0, _⟩ | ⟨hidx, v, hlast, hv⟩
  · omega
  · rw [hidx]
    have hle := ( takeWhile_prefix (fun v : Int => decide (v < 0)) (l := values)).length_le
    refine lt_of_le_of_ne hle (fun heq => ?_)
    have hall := ( takeWhile_prefix (fun v : Int => decide (v < 0)) (l := values)).eq_of_length heq
    have hneg := all_eq_true.1 (all_takeWhile (p := fun v : Int => decide (v < 0)) (l := values)) v
      (hall.symm ▸ mem_of_getLast? hlast)
    simp at hneg; omega

theorem filterAt_ofValues (values : List Int) : FilterAt (DocidListReader.ofValues values) (unsignedOrder values) := by
  have hlen : (unsignedOrder values).length = values.length := by simp [unsignedOrder]; omega
  refine ⟨hlen.symm, fun hne => index_lt (fun hnil => hne (by simp [unsignedOrder, hnil])), fun k hk => ?_⟩
  rw [hlen] at hk
  have hidx := @index_lt values (fun hnil => by simp [hnil] at hk)
  show (unsignedOrder values)[k]? =
    some (toUInt64 (values.getD (((DocidListReader.ofValues values).index + k) % values.length) 0))
  generalize hj : (DocidListReader.ofValues values).index = j at hidx ⊢
  rw [unsignedOrder, hj, getElem?_map]
  by_cases hwrap : j + k < values.length
  · rw [Nat.mod_eq_of_lt hwrap, getElem?_append_left (by simp; omega), getElem?_drop,
      getElem?_eq_getElem hwrap, getD_eq_getElem _ _ hwrap, map_some]
  · have hmod : (j + k) % values.length = j + k - values.length := by
      rw [Nat.mod_eq_sub_mod (by omega), Nat.mod_eq_of_lt (by omega)]
    rw [hmod, getElem?_append_right (by simp; omega), length_drop, getElem?_take_of_lt (by omega),
      getElem?_eq_getElem (by omega), getD_eq_getElem _ _ (by omega), map_some]
    congr 3; omega

theorem mem_unsignedOrder : f ∈ unsignedOrder values ↔ f ∈ values.map toUInt64 := by
  rw [unsignedOrder, mem_map, mem_map]
  refine exists_congr (fun v => and_congr_left (fun _ => ?_))
  rw [List.mem_append, or_comm, ← List.mem_append, take_append_drop]

theorem nonneg_of_mem_dropWhile : ∀ {values : List Int}, values.Pairwise (· ≤ ·) →
    ∀ v ∈ values.dropWhile (fun v => decide (v < 0)), 0 ≤ v
  | [], _, v, hv => by simp at hv
  | a :: values, hsort, v, hv => by
    obtain ⟨hle, hrest⟩ := pairwise_cons.1 hsort
    by_cases ha : a < 0
    · rw [dropWhile_cons_of_pos (by simpa using ha)] at hv
      exact nonneg_of_mem_dropWhile hrest v hv
    · rw [dropWhile_cons_of_neg (by simpa using ha)] at hv
      rcases mem_cons.1 hv with rfl | hmem
      · omega
      · have := hle v hmem
        omega

section
variable (hsort : values.Pairwise (· ≤ ·))
include hsort

theorem le_of_mem_getLast {v w : Int}
    (hlast : values.getLast? = some v) (hw : w ∈ values) : w ≤ v := by
  obtain ⟨l, rfl⟩ := getLast?_eq_some_iff.1 hlast
  rcases List.mem_append.1 hw with hmem | hmem
  · exact (pairwise_append.1 hsort).2.2 w hmem v (by simp)
  · rw [mem_singleton.1 hmem]

theorem unsignedOrder_eq : unsignedOrder values =
    (values.dropWhile (fun v => decide (v < 0)) ++ values.takeWhile (fun v => decide (v < 0))).map toUInt64 := by
  unfold unsignedOrder
  congr 1
  rcases index_cases values with ⟨h0, rfl | ⟨v, hlast, hv⟩⟩ | ⟨hidx, _⟩
  · rfl
  · have hall : ∀ w ∈ values, decide (w < 0) = true := by
      intro w hw
      have := le_of_mem_getLast hsort hlast hw
      simp; omega
    rw [h0, drop_zero, take_zero, append_nil, takeWhile_eq_self_iff.2 hall,
      dropWhile_eq_nil_iff.2 hall, nil_append]
  · have hsplit := takeWhile_append_dropWhile (p := fun v : Int => decide (v < 0)) (l := values)
    rw [hidx]
    exact congrArg₂ (· ++ ·) ((congrArg (List.drop _) hsplit.symm).trans drop_left)
      ((congrArg (List.take _) hsplit.symm).trans take_left)

/-- Sorted `DocID_t` values are read in ascending unsigned order. -/
theorem unsignedOrder_sorted
    (hrange : ∀ v ∈ values, -2 ^ 63 ≤ v ∧ v < 2 ^ 63) : (unsignedOrder values).Pairwise (· ≤ ·) := by
  have hmono : ∀ {a b : Int}, a ∈ values → b ∈ values → a ≤ b → (a < 0 ↔ b < 0) → toUInt64 a ≤ toUInt64 b := by
    intro a b ha hb hab hsign
    have h1 := hrange a ha
    have h2 := hrange b hb
    unfold toUInt64
    omega
  have hcross : ∀ {a b : Int}, a ∈ values → b ∈ values → 0 ≤ a → b < 0 → toUInt64 a ≤ toUInt64 b := by
    intro a b ha hb h0 h1
    have := hrange a ha
    have := hrange b hb
    unfold toUInt64
    omega
  have hneg : ∀ v ∈ values.takeWhile (fun v => decide (v < 0)), v < 0 := fun v hv => by
    simpa using all_eq_true.1 (all_takeWhile (p := fun v : Int => decide (v < 0)) (l := values)) v hv
  have hnonneg := nonneg_of_mem_dropWhile hsort
  have hsubT := (takeWhile_sublist (fun v : Int => decide (v < 0)) (l := values))
  have hsubD := (dropWhile_sublist (fun v : Int => decide (v < 0)) (l := values))
  rw [unsignedOrder_eq hsort, pairwise_map, pairwise_append]
  refine ⟨(hsort.sublist hsubD).imp_of_mem ?_, (hsort.sublist hsubT).imp_of_mem ?_, fun a ha b hb => ?_⟩
  · intro a b ha hb hab
    have h1 := hnonneg a ha
    exact hmono (hsubD.subset ha) (hsubD.subset hb) hab (by omega)
  · intro a b ha hb hab
    have h2 := hneg b hb
    exact hmono (hsubT.subset ha) (hsubT.subset hb) hab (by omega)
  · exact hcross (hsubD.subset ha) (hsubT.subset hb) (hnonneg a ha) (hneg b hb)

end

/-! ## The merge over places -/

/-- Where the lookup can be read next for a filter docid above the docid at `i`: the next place, the end past the largest
docid, or the start of a later block that is not above the filter docid. -/
def SkipsTo (pairs : List DocidRowidPair) (i f j : Nat) : Prop :=
  (j = i + 1 ∧ (pairs.length ≤ 64 * (i / 64 + 1) ∨ f < docAt pairs (64 * (i / 64 + 1)))) ∨
  (j = pairs.length ∧ docAt pairs (pairs.length - 1) < f) ∨
  ∃ c, j = 64 * c ∧ i / 64 < c ∧ 64 * c < pairs.length ∧ docAt pairs (64 * c) ≤ f ∧
    ∀ c', i / 64 < c' → c' < c → docAt pairs (64 * c') < f

/-- The rows `Fill` adds from place `i` on with the filter docids `fs` left. -/
inductive Fills (pairs : List DocidRowidPair) (boundaries : Option (Nat × Nat)) : Nat → List Nat → List Nat → Prop
  | stop {i : Nat} {fs : List Nat} (h : pairs.length ≤ i ∨ fs = []) : Fills pairs boundaries i fs []
  | filter {i f : Nat} {fs rows : List Nat} (hi : i < pairs.length) (hf : f < docAt pairs i)
      (h : Fills pairs boundaries i fs rows) : Fills pairs boundaries i (f :: fs) rows
  | skip {i j f : Nat} {fs rows : List Nat} (hi : i < pairs.length) (hf : docAt pairs i < f)
      (hj : SkipsTo pairs i f j) (h : Fills pairs boundaries j (f :: fs) rows) : Fills pairs boundaries i (f :: fs) rows
  | hit {i f : Nat} {fs rows : List Nat} (hi : i < pairs.length) (hf : docAt pairs i = f)
      (h : Fills pairs boundaries (i + 1) (f :: fs) rows) : Fills pairs boundaries i (f :: fs)
        (if inBounds boundaries (rowAt pairs i) then rowAt pairs i :: rows else rows)

/-- The lookup is at place `i`: behind that pair with its values read, or at the end. -/
def LookupAt (pairs : List DocidRowidPair) (tail : List UInt8) (it : Cursor) (cur : Option (Nat × Nat)) (i : Nat) : Prop :=
  (i < pairs.length ∧ Rep pairs tail it (.behind i) ∧ cur = some (docAt pairs i, rowAt pairs i)) ∨
  (i = pairs.length ∧ cur = none)

variable {pairs : List DocidRowidPair} {i : Nat}

section Run
variable {data : List UInt8} {it : Cursor}

section
variable (h : IsLookup pairs data) (hn : pairs.length ≤ 2 ^ 32 - 64) (hsort : Sorted pairs) (hrep : Rep pairs h.tail it (.behind i))
include h hn hsort hrep

theorem read_next :
    ∃ it' cur, (readerOf pairs data).read it = some (it', cur) ∧ LookupAt pairs h.tail it' cur (i + 1) := by
  by_cases hi : i + 1 < pairs.length
  · obtain ⟨it', hread, hrep'⟩ := read_behind h hn hsort hrep hi
    exact ⟨it', _, hread, Or.inl ⟨hi, hrep', rfl⟩⟩
  · have hlast : i + 1 = pairs.length := by have := hrep.1; omega
    obtain ⟨it', hread, _⟩ := read_last data hrep hlast
    exact ⟨it', _, hread, Or.inr ⟨hlast, rfl⟩⟩

theorem hint_read :
    ∃ hinted it' cur j, (readerOf pairs data).hintDocID it f = some hinted ∧
      (readerOf pairs data).read hinted = some (it', cur) ∧ LookupAt pairs h.tail it' cur j ∧ SkipsTo pairs i f j ∧
      i < j := by
  have hi := hrep.1
  rcases hintDocID_spec h hn hsort hrep f with ⟨hhint, hstay⟩ | ⟨hpast, it1, hhint, hdone⟩ |
    ⟨c, it1, hhint, hstart, hc, hle, hbelow⟩
  · obtain ⟨it', cur, hread, hat⟩ := read_next h hn hsort hrep
    exact ⟨it, it', cur, i + 1, hhint, hread, hat, Or.inl ⟨rfl, hstay⟩, by omega⟩
  · exact ⟨it1, it1, none, pairs.length, hhint, read_done data hdone, Or.inr ⟨rfl, rfl⟩, Or.inr (Or.inl ⟨rfl, hpast⟩), hi⟩
  · obtain ⟨it', hread, hrep'⟩ := read_start data hstart
    exact ⟨it1, it', _, 64 * c, hhint, hread, Or.inl ⟨hstart.1, hrep', rfl⟩,
      Or.inr (Or.inr ⟨c, rfl, hc, hstart.1, hle, hbelow⟩), by omega⟩

end

/-- The filter is at `fs`: its first docid was read. -/
def FilterCur (d : DocidListReader) (cur : Option Nat) : List Nat → Prop
  | []      => cur = none
  | f :: fs => cur = some f ∧ FilterAt d fs

theorem filterCur_readDocID {fs : List Nat} (h : FilterAt d fs) :
    FilterCur d.readDocID.1 d.readDocID.2 fs := by
  cases fs with
  | nil => rw [readDocID_nil h]; rfl
  | cons f fs => exact readDocID_cons h

/-- **The loop of `Fill` runs the merge**, and ends: every turn takes a filter docid or moves on in the lookup. -/
theorem fillGo_fills (h : IsLookup pairs data) (hn : pairs.length ≤ 2 ^ 32 - 64) (hsort : Sorted pairs)
    (boundaries : Option (Nat × Nat)) : ∀ (fuel i : Nat) (fs : List Nat) {it : Cursor} {d : DocidListReader}
      {cf : Option Nat} {cl : Option (Nat × Nat)} (processed : Nat), LookupAt pairs h.tail it cl i → FilterCur d cf fs →
      pairs.length - i + fs.length < fuel →
      ∃ rows processed', fillGo (readerOf pairs data) boundaries fuel it d cf cl processed = some (rows, processed') ∧
        Fills pairs boundaries i fs rows
  | 0, _, _, _, _, _, _, _, _, _, hfuel => absurd hfuel (by omega)
  | fuel + 1, i, [], it, d, cf, cl, processed, _, hcur, _ => by
    cases hcur
    exact ⟨[], processed, by rw [fillGo]; simp, .stop (Or.inr rfl)⟩
  | fuel + 1, i, f :: fs, it, d, cf, cl, processed, hat, hcur, hfuel => by
    obtain ⟨rfl, hfilter⟩ := hcur
    rw [length_cons] at hfuel
    rcases hat with ⟨hi, hrep, rfl⟩ | ⟨hi, rfl⟩
    · rw [fillGo]
      by_cases hlt : f < docAt pairs i
      · rw [if_pos hlt]
        obtain ⟨rows, processed', hrun, hfills⟩ := fillGo_fills h hn hsort boundaries fuel i fs (processed + 1)
          (Or.inl ⟨hi, hrep, rfl⟩) (filterCur_readDocID hfilter) (by omega)
        exact ⟨rows, processed', hrun, .filter hi hlt hfills⟩
      · rw [if_neg hlt]
        by_cases hgt : docAt pairs i < f
        · obtain ⟨hinted, it', cur, j, hhint, hread, hat', hskip, hij⟩ := hint_read (f := f) h hn hsort hrep
          obtain ⟨rows, processed', hrun, hfills⟩ := fillGo_fills h hn hsort boundaries fuel j (f :: fs)
            (processed + 1) hat' ⟨rfl, hfilter⟩ (by rw [length_cons]; omega)
          rw [if_pos hgt, hhint]
          simp only [bind_eq_bind, bind_some, hread]
          exact ⟨rows, processed', hrun, .skip hi hgt hskip hfills⟩
        · obtain ⟨it', cur, hread, hat'⟩ := read_next h hn hsort hrep
          obtain ⟨rows, processed', hrun, hfills⟩ := fillGo_fills h hn hsort boundaries fuel (i + 1) (f :: fs)
            (processed + 1) hat' ⟨rfl, hfilter⟩ (by rw [length_cons]; omega)
          rw [if_neg hgt, hread]
          simp only [bind_eq_bind, bind_some, hrun]
          exact ⟨_, processed', rfl, .hit hi (by omega) hfills⟩
    · exact ⟨[], processed, by rw [fillGo]; simp, .stop (Or.inl (by omega))⟩

end Run

/-! ## What the merge finds -/

/-- The pairs of a docid start inside a block, behind `p`, and go on into the next block. -/
def Straddles (pairs : List DocidRowidPair) (p : Nat) : Prop :=
  p + 1 < pairs.length ∧ (p + 1) % 64 ≠ 0 ∧ 64 * ((p + 1) / 64 + 1) < pairs.length ∧
    docAt pairs p < docAt pairs (p + 1) ∧ docAt pairs (64 * ((p + 1) / 64 + 1)) = docAt pairs (p + 1)

section Merge
variable {boundaries : Option (Nat × Nat)} {j f : Nat} {fs rows : List Nat}

theorem SkipsTo.lt (h : SkipsTo pairs i f j) (hi : i < pairs.length) : i < j := by
  rcases h with ⟨rfl, _⟩ | ⟨rfl, _⟩ | ⟨c, rfl, hc, _⟩
  · omega
  · exact hi
  · omega

theorem exists_first (hsort : Sorted pairs) {k : Nat} (hik : i ≤ k) (hk : k < pairs.length) (hf : docAt pairs k = f)
    (hi : docAt pairs i < f) : ∃ p, i ≤ p ∧ p < k ∧ docAt pairs p < f ∧ docAt pairs (p + 1) = f := by
  induction k with
  | zero =>
    rw [show i = 0 by omega] at hi
    omega
  | succ k ih =>
    by_cases hki : k + 1 = i
    · rw [hki] at hf; omega
    · by_cases heq : docAt pairs k = f
      · obtain ⟨p, h1, h2, h3⟩ := ih (by omega) (by omega) heq
        exact ⟨p, h1, by omega, h3⟩
      · have := hsort.docAt_mono (show k ≤ k + 1 by omega) hk
        exact ⟨k, by omega, by omega, by omega, hf⟩

/-- **A skip leaves out a pair of the filter docid only at a straddling place.** -/
theorem SkipsTo.straddles (hsort : Sorted pairs) (h : SkipsTo pairs i f j) (hi : docAt pairs i < f)
    {k : Nat} (hik : i ≤ k) (hkj : k < j) (hk : k < pairs.length) (hf : docAt pairs k = f) :
    ∃ p, i ≤ p ∧ Straddles pairs p ∧ docAt pairs (p + 1) = f := by
  obtain ⟨p, hip, hpk, hlt, heq⟩ := exists_first hsort hik hk hf hi
  rcases h with ⟨rfl, _⟩ | ⟨rfl, hpast⟩ | ⟨c, rfl, hc, hcn, hle, hbelow⟩
  · omega
  · have := hsort.docAt_mono (show k ≤ pairs.length - 1 by omega) (by omega)
    omega
  · -- no block between starts at the docid or above it
    have hmod : (p + 1) % 64 ≠ 0 := by
      intro h0
      have := hbelow ((p + 1) / 64) (by omega) (by omega)
      rw [show 64 * ((p + 1) / 64) = p + 1 by omega] at this
      omega
    have hcp : c = (p + 1) / 64 + 1 := by
      by_cases hcc : (p + 1) / 64 + 1 < c
      · have h1 := hbelow ((p + 1) / 64 + 1) (by omega) hcc
        have h2 := hsort.docAt_mono (show p + 1 ≤ 64 * ((p + 1) / 64 + 1) by omega) (by omega)
        omega
      · omega
    have hge := hsort.docAt_mono (show p + 1 ≤ 64 * c by omega) hcn
    rw [hcp] at hge hcn hle
    exact ⟨p, hip, ⟨by omega, hmod, hcn, by omega, by omega⟩, heq⟩

theorem Fills.sound (h : Fills pairs boundaries i fs rows) : ∀ row ∈ rows, ∃ j, i ≤ j ∧ j < pairs.length ∧
    docAt pairs j ∈ fs ∧ inBounds boundaries row = true ∧ rowAt pairs j = row := by
  induction h with
  | stop h => intro row hrow; simp at hrow
  | filter hi hf _ ih =>
    intro row hrow
    obtain ⟨j, h1, h2, h3, h4⟩ := ih row hrow
    exact ⟨j, h1, h2, mem_cons_of_mem _ h3, h4⟩
  | skip hi hf hskip _ ih =>
    intro row hrow
    obtain ⟨j, h1, h2⟩ := ih row hrow
    have := hskip.lt hi
    exact ⟨j, by omega, h2⟩
  | @hit i f fs rows hi hf _ ih =>
    intro row hrow
    have hrest : row ∈ rows → ∃ j, i ≤ j ∧ j < pairs.length ∧ docAt pairs j ∈ f :: fs ∧
        inBounds boundaries row = true ∧ rowAt pairs j = row := fun hmem => by
      obtain ⟨j, h1, h2⟩ := ih row hmem
      exact ⟨j, by omega, h2⟩
    split at hrow
    · rename_i hin
      rcases mem_cons.1 hrow with rfl | hmem
      · exact ⟨i, le_refl _, hi, by rw [hf]; exact mem_cons_self, hin, rfl⟩
      · exact hrest hmem
    · exact hrest hrow

/-- **Nothing is lost** when every straddling docid of the filter comes right behind a smaller filter docid. -/
theorem Fills.complete (hsort : Sorted pairs) (all : List Nat) (hsafe : ∀ p, Straddles pairs p → docAt pairs (p + 1) ∈ all →
      ∃ g ∈ all, docAt pairs p ≤ g ∧ g < docAt pairs (p + 1))
    (h : Fills pairs boundaries i fs rows) (hfs : fs.Pairwise (· ≤ ·)) (hsub : ∀ g ∈ fs, g ∈ all)
    (hall : i < pairs.length → ∀ g ∈ all, g ∈ fs ∨ g < docAt pairs i) :
    ∀ k, i ≤ k → k < pairs.length → docAt pairs k ∈ fs → inBounds boundaries (rowAt pairs k) = true →
      rowAt pairs k ∈ rows := by
  induction h with
  | stop h =>
    intro k hik hk hmem _
    rcases h with h | rfl
    · omega
    · simp at hmem
  | @filter i f fs rows hi hf _ ih =>
    intro k hik hk hmem hin
    obtain ⟨_, hfs'⟩ := pairwise_cons.1 hfs
    have hge := hsort.docAt_mono hik hk
    refine ih hfs' (forall_mem_cons.mp hsub).2 (fun _ g hg => ?_) k hik hk ?_ hin
    · rcases hall hi g hg with hg' | hlt
      · rcases mem_cons.1 hg' with rfl | hg''
        · exact Or.inr hf
        · exact Or.inl hg''
      · exact Or.inr hlt
    · rcases mem_cons.1 hmem with heq | hmem'
      · omega
      · exact hmem'
  | @skip i j f fs rows hi hf hskip _ ih =>
    intro k hik hk hmem hin
    have hij := hskip.lt hi
    have hfle : ∀ g ∈ f :: fs, f ≤ g := by
      intro g hg
      rcases mem_cons.1 hg with rfl | hg'
      · exact le_refl _
      · exact (pairwise_cons.1 hfs).1 g hg'
    by_cases hjk : j ≤ k
    · refine ih hfs hsub (fun hj g hg => (hall hi g hg).imp_right (fun hlt => ?_)) k hjk hk hmem hin
      exact lt_of_lt_of_le hlt (hsort.docAt_mono (by omega) hj)
    · -- a pair that is left out has the filter docid, so that docid straddles
      exfalso
      have hkf : docAt pairs k = f := by
        have hge := hfle _ hmem
        rcases hskip with ⟨rfl, _⟩ | ⟨rfl, hpast⟩ | ⟨c, rfl, _, hcn, hle, _⟩
        · rw [show k = i by omega] at hge ⊢; omega
        · have := hsort.docAt_mono (show k ≤ pairs.length - 1 by omega) (by omega)
          omega
        · have := hsort.docAt_mono (show k ≤ 64 * c by omega) hcn
          omega
      obtain ⟨p, hip, hstr, hpf⟩ := hskip.straddles hsort hf hik (by omega) hk hkf
      obtain ⟨g, hg, hge, hlt⟩ := hsafe p hstr (by rw [hpf]; exact hsub f mem_cons_self)
      have hp := hsort.docAt_mono hip (by have := hstr.1; omega)
      rcases hall hi g hg with hg' | hlt'
      · have := hfle g hg'
        omega
      · omega
  | @hit i f fs rows hi hf _ ih =>
    intro k hik hk hmem hin
    by_cases hki : k = i
    · rw [hki] at hin ⊢
      rw [if_pos hin]; exact mem_cons_self
    · have hrest : rowAt pairs k ∈ rows := by
        refine ih hfs hsub (fun hi' g hg => (hall hi g hg).imp_right (fun hlt => ?_)) k (by omega) hk hmem hin
        exact lt_of_lt_of_le hlt (hsort.docAt_mono (Nat.le_succ i) hi')
      split
      · exact mem_cons_of_mem _ hrest
      · exact hrest

/-- **A straddling docid with no filter docid between it and the one before loses the pair it starts with.** -/
theorem Fills.lost (all : List Nat) {p : Nat} (hstr : Straddles pairs p)
    (hgap : ∀ g ∈ all, docAt pairs p ≤ g → docAt pairs (p + 1) ≤ g) (h : Fills pairs boundaries i fs rows) (hip : i ≤ p)
    (hsub : ∀ g ∈ fs, g ∈ all) : ∀ row ∈ rows, ∃ j, j < pairs.length ∧ j ≠ p + 1 ∧ rowAt pairs j = row := by
  obtain ⟨hp, hmod, hnext, hlt, heq⟩ := hstr
  induction h with
  | stop h => intro row hrow; simp at hrow
  | filter hi hf _ ih => exact ih hip (forall_mem_cons.mp hsub).2
  | @skip i j f fs rows hi hf hskip hfills ih =>
    intro row hrow
    by_cases hjp : j ≤ p
    · exact ih hjp hsub row hrow
    · have hne : j ≠ p + 1 := by
        intro hj
        rcases hskip with ⟨hj', hstay⟩ | ⟨hj', _⟩ | ⟨c, hj', _⟩
        · obtain rfl : i = p := by omega
          rw [show i / 64 = (i + 1) / 64 by omega] at hstay
          have := hgap f (hsub f mem_cons_self) (by omega)
          omega
        · omega
        · omega
      obtain ⟨k, h1, h2, _, _, h3⟩ := hfills.sound row hrow
      exact ⟨k, h2, by omega, h3⟩
  | @hit i f fs rows hi hf _ ih =>
    have hi' : i + 1 ≤ p := by
      by_cases hip' : i = p
      · subst hip'
        have := hgap f (hsub f mem_cons_self) (by omega)
        omega
      · omega
    intro row hrow
    split at hrow
    · rcases mem_cons.1 hrow with rfl | hmem
      · exact ⟨i, hi, by omega, rfl⟩
      · exact ih hi' hsub row hmem
    · exact ih hi' hsub row hrow

end Merge

/-! ## The blocks returned -/

/-- The rows of the bitmap from `r` on. -/
def bitsFrom (bitmap : List Bool) (maxRowID r : Nat) : List Nat :=
  (List.range' r (maxRowID + 1 - r)).filter (fun r => bitmap.getD r false)

/-- The rows still to be returned. -/
def Cached.remaining (BITMAP : Bool) (c : Cached) : List Nat :=
  if BITMAP then bitsFrom c.bitmap c.maxRowID c.rowID else c.rowIDs.drop c.id

variable {bitmap : List Bool} {maxRowID r : Nat}

theorem bitsFrom_end (h : maxRowID < r) : bitsFrom bitmap maxRowID r = [] := by
  rw [bitsFrom, show maxRowID + 1 - r = 0 by omega]; rfl

theorem bitsFrom_step (h : r ≤ maxRowID) : bitsFrom bitmap maxRowID r =
    if bitmap.getD r false then r :: bitsFrom bitmap maxRowID (r + 1) else bitsFrom bitmap maxRowID (r + 1) := by
  rw [bitsFrom, show maxRowID + 1 - r = maxRowID + 1 - (r + 1) + 1 by omega, range'_succ, filter_cons]
  rfl

theorem scanBits_spec (bitmap : List Bool) (maxRowID : Nat) : ∀ (f r room : Nat), maxRowID + 1 - r ≤ f →
    (Cached.scanBits bitmap maxRowID f r room).1 ++
        bitsFrom bitmap maxRowID (Cached.scanBits bitmap maxRowID f r room).2 = bitsFrom bitmap maxRowID r ∧
      (0 < room → (Cached.scanBits bitmap maxRowID f r room).1 = [] → bitsFrom bitmap maxRowID r = [])
  | 0, r, room, hf => ⟨rfl, fun _ _ => bitsFrom_end (by omega)⟩
  | f + 1, r, room, hf => by
    rw [Cached.scanBits]
    by_cases hstop : maxRowID < r ∨ room = 0
    · rw [if_pos hstop]
      exact ⟨rfl, fun hroom _ => bitsFrom_end (by omega)⟩
    · rw [if_neg hstop, bitsFrom_step (show r ≤ maxRowID by omega)]
      by_cases hbit : bitmap.getD r false = true
      · obtain ⟨happ, _⟩ := scanBits_spec bitmap maxRowID f (r + 1) (room - 1) (by omega)
        rw [if_pos hbit, if_pos hbit]
        exact ⟨congrArg (r :: ·) happ, fun _ h => by cases h⟩
      · rw [if_neg hbit, if_neg hbit]
        exact scanBits_spec bitmap maxRowID f (r + 1) room (by omega)

/-- One block: it is the front of what remains, and only empty when nothing does. -/
theorem returnRowIdChunk_spec (BITMAP : Bool) (c : Cached) :
    (c.remaining BITMAP = [] ∧ (c.returnRowIdChunk BITMAP).2 = none) ∨
    ∃ rows, (c.returnRowIdChunk BITMAP).2 = some rows ∧ rows ≠ [] ∧
      c.remaining BITMAP = rows ++ (c.returnRowIdChunk BITMAP).1.remaining BITMAP := by
  cases BITMAP with
  | false =>
    simp only [Cached.returnRowIdChunk, Cached.remaining, Bool.false_eq_true, if_false]
    by_cases hnil : (c.rowIDs.drop c.id).take Cached.maxCollected = []
    · refine Or.inl ⟨?_, if_pos hnil⟩
      rcases take_eq_nil_iff.1 hnil with h | h
      · exact absurd h (by decide)
      · exact h
    · refine Or.inr ⟨_, if_neg hnil, hnil, ?_⟩
      rw [← drop_drop]
      conv => lhs; rw [← take_append_drop Cached.maxCollected (c.rowIDs.drop c.id)]
      congr 1
      rw [length_take]
      by_cases hle : Cached.maxCollected ≤ (c.rowIDs.drop c.id).length
      · rw [min_eq_left hle]
      · rw [min_eq_right (by omega), drop_eq_nil_of_le (by omega), drop_eq_nil_of_le (le_refl _)]
  | true =>
    obtain ⟨happ, hnil⟩ := scanBits_spec c.bitmap c.maxRowID (c.maxRowID + 1 - c.rowID) c.rowID Cached.maxCollected
      (le_refl _)
    by_cases hempty : (Cached.scanBits c.bitmap c.maxRowID (c.maxRowID + 1 - c.rowID) c.rowID Cached.maxCollected).1 = []
    · exact Or.inl ⟨hnil (by decide) hempty, if_pos hempty⟩
    · exact Or.inr ⟨_, if_neg hempty, hempty, happ.symm⟩

/-- `ReturnRowIdChunk` until it returns `false`; the first number bounds the calls. -/
def Cached.allChunks (BITMAP : Bool) : Nat → Cached → Option (List Nat)
  | 0,     _ => none
  | k + 1, c =>
    match c.returnRowIdChunk BITMAP with
    | (_, none)       => some []
    | (c', some rows) => (Cached.allChunks BITMAP k c').map (rows ++ ·)

/-- **The blocks together are what remains.** -/
theorem allChunks_spec (BITMAP : Bool) : ∀ (k : Nat) (c : Cached), (c.remaining BITMAP).length < k →
    c.allChunks BITMAP k = some (c.remaining BITMAP)
  | 0, _, hk => absurd hk (by omega)
  | k + 1, c, hk => by
    rw [Cached.allChunks]
    rcases returnRowIdChunk_spec BITMAP c with ⟨hnil, hnone⟩ | ⟨rows, hsome, hne, happ⟩
    · rw [show c.returnRowIdChunk BITMAP = ((c.returnRowIdChunk BITMAP).1, none) from Prod.ext rfl hnone, hnil]
    · have hlen := congrArg List.length happ
      have hpos := length_pos_iff.2 hne
      rw [length_append] at hlen
      have hrest := allChunks_spec BITMAP k (c.returnRowIdChunk BITMAP).1 (by omega)
      rw [show c.returnRowIdChunk BITMAP = ((c.returnRowIdChunk BITMAP).1, some rows) from Prod.ext rfl hsome]
      simp only
      rw [hrest, map_some, happ]

theorem allRows_filled (r : LookupReader) (boundaries : Option (Nat × Nat)) (BITMAP : Bool) (f : Nat) :
    ∀ (k : Nat) (v : LookupValues), v.firstTime = false → v.allRows r boundaries BITMAP f k = v.cached.allChunks BITMAP k
  | 0, _, _ => rfl
  | k + 1, v, hfirst => by
    have hstep : v.getNextRowIdBlock r boundaries BITMAP f = some (v.chunk BITMAP) := by
      rw [LookupValues.getNextRowIdBlock, hfirst]; rfl
    have hrest := allRows_filled r boundaries BITMAP f k (v.chunk BITMAP).1 hfirst
    rw [LookupValues.allRows, hstep, Cached.allChunks]
    simp only [bind_eq_bind, bind_some]
    rcases hc : v.cached.returnRowIdChunk BITMAP with ⟨c', _ | rows⟩
    · simp only [LookupValues.chunk, hc]
    · simp only [LookupValues.chunk, hc] at hrest ⊢
      rw [hrest]

theorem addRows_list : ∀ (rows : List Nat) (c : Cached), c.id = 0 →
    ∃ c', rows.foldlM (Cached.add false) c = some c' ∧ c'.rowIDs = c.rowIDs ++ rows ∧ c'.id = 0
  | [], c, h0 => ⟨c, rfl, by simp, h0⟩
  | r :: rows, c, h0 => by
    obtain ⟨c', hrun, hrows, hid⟩ := addRows_list rows { c with rowIDs := c.rowIDs ++ [r] } h0
    exact ⟨c', by rw [foldlM_cons]; exact hrun, by rw [hrows]; simp, hid⟩

/-- The bitmap holds exactly `rows`, between its bounds. -/
structure BitsOf (uTotalDocs : Nat) (rows : List Nat) (c : Cached) : Prop where
  size : c.bitmap.length = uTotalDocs
  bits : ∀ r, c.bitmap.getD r false = true ↔ r ∈ rows
  none : rows = [] → c.minRowID = invalidRowID
  some : rows ≠ [] → c.minRowID ≠ invalidRowID ∧ ∀ r ∈ rows, c.minRowID ≤ r ∧ r ≤ c.maxRowID

theorem bitsOf_init (uTotalDocs : Nat) : BitsOf uTotalDocs [] (Cached.init true uTotalDocs) := by
  refine ⟨by simp [Cached.init], fun r => ?_, fun _ => rfl, fun h => absurd rfl h⟩
  simp only [Cached.init, if_true, getD_eq_getElem?_getD, getElem?_replicate]
  split <;> simp

theorem bitsOf_add {uTotalDocs : Nat} {rows : List Nat} {c : Cached} (h : BitsOf uTotalDocs rows c)
    (hr : r < uTotalDocs) (ht : uTotalDocs < 2 ^ 32) :
    ∃ c', c.add true r = Option.some c' ∧ BitsOf uTotalDocs (rows ++ [r]) c' := by
  have hinv : r ≠ invalidRowID := by unfold invalidRowID; omega
  refine ⟨_, by rw [Cached.add, if_pos rfl, if_pos (by rw [h.size]; exact hr)], ?_⟩
  refine ⟨by simp [h.size], fun x => ?_, fun hnil => by simp at hnil, fun _ => ?_⟩
  · simp only [getD_eq_getElem?_getD, List.mem_append, mem_singleton]
    by_cases hx : x = r
    · subst hx
      rw [getElem?_set_self (by rw [h.size]; exact hr)]
      simp
    · rw [getElem?_set_ne (fun e => hx e.symm), ← getD_eq_getElem?_getD, h.bits x]
      simp [hx]
  · by_cases hrows : rows = []
    · subst hrows
      simp only [h.none rfl, if_true, nil_append, mem_singleton]
      exact ⟨hinv, fun x hx => by omega⟩
    · obtain ⟨hmin, hle⟩ := h.some hrows
      simp only [if_neg hmin, List.mem_append, mem_singleton]
      refine ⟨?_, fun x hx => ?_⟩
      · rcases le_total c.minRowID r with hmr | hmr
        · rw [min_eq_left hmr]; exact hmin
        · rw [min_eq_right hmr]; exact hinv
      · rcases hx with hx | rfl
        · have := hle x hx
          omega
        · omega

theorem addRows_bits {uTotalDocs : Nat} (ht : uTotalDocs < 2 ^ 32) : ∀ (rows done : List Nat) {c : Cached},
    BitsOf uTotalDocs done c → (∀ r ∈ rows, r < uTotalDocs) →
    ∃ c', rows.foldlM (Cached.add true) c = some c' ∧ BitsOf uTotalDocs (done ++ rows) c'
  | [], done, c, h, _ => ⟨c, rfl, by rwa [append_nil]⟩
  | r :: rows, done, c, h, hlt => by
    obtain ⟨c1, hadd, h1⟩ := bitsOf_add h (hlt r (by simp)) ht
    obtain ⟨c2, hrun, h2⟩ := addRows_bits ht rows (done ++ [r]) h1 (fun x hx => hlt x (by simp [hx]))
    exact ⟨c2, by rw [foldlM_cons, hadd]; exact hrun, by simpa using h2⟩

theorem mem_bitsFrom {x : Nat} :
    x ∈ bitsFrom bitmap maxRowID r ↔ r ≤ x ∧ x ≤ maxRowID ∧ bitmap.getD x false = true := by
  rw [bitsFrom, mem_filter, mem_range'_1, ← and_assoc]
  refine and_congr_left (fun _ => ?_)
  omega

/-- **The rows added are the rows kept**, in both storages. -/
theorem addRows_spec (BITMAP : Bool) (uTotalDocs : Nat) (rows : List Nat)
    (hbits : BITMAP = true → uTotalDocs < 2 ^ 32 ∧ ∀ r ∈ rows, r < uTotalDocs) :
    ∃ c, rows.foldlM (Cached.add BITMAP) (Cached.init BITMAP uTotalDocs) = some c ∧
      ((c.finalize BITMAP).2 = true ↔ rows ≠ []) ∧ ∀ r, r ∈ (c.finalize BITMAP).1.remaining BITMAP ↔ r ∈ rows := by
  cases BITMAP with
  | false =>
    obtain ⟨c, hrun, hrows, hid⟩ := addRows_list rows (Cached.init false uTotalDocs) rfl
    have hrows' : c.rowIDs = rows := by rw [hrows]; rfl
    refine ⟨c, hrun, ?_, fun r => ?_⟩
    · simp [Cached.finalize, hrows']
    · simp [Cached.finalize, Cached.remaining, hrows', hid]
  | true =>
    obtain ⟨ht, hlt⟩ := hbits rfl
    obtain ⟨c, hrun, h⟩ := addRows_bits ht rows [] (bitsOf_init uTotalDocs) hlt
    refine ⟨c, hrun, ?_, fun r => ?_⟩
    · simp only [Cached.finalize, if_true, decide_eq_true_eq]
      exact ⟨fun hne hnil => hne (h.none hnil), fun hne => (h.some hne).1⟩
    · simp only [Cached.finalize, Cached.remaining, if_true, mem_bitsFrom]
      rw [h.bits r]
      refine ⟨fun hr => hr.2.2, fun hr => ?_⟩
      have := (h.some (ne_nil_of_mem hr)).2 r hr
      exact ⟨this.1, this.2, hr⟩

end DocidLookup
end Manticore

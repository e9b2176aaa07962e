import Mathlib
import Manticore.DocidRange
/-!
# DocidRangeRun — which pairs a range of docids visits

`Scans` is the loop of `RowidIterator_LookupRange_T::Fill` over places in the list of pairs.  A hint jumps over pairs of
the docid it is given only when these stand at the end of a block and the next block starts with the same docid (`Lost`).
-/
namespace Manticore
namespace DocidLookup
open List
open Option (bind_eq_bind bind_some)

/-! ## The checks without the reader -/

namespace DocIdCheck

def accepts (c : DocIdCheck) (u : Nat) : Bool :=
  match c.kind with
  | .gtPos => decide (u < minNeg) && c.above u
  | .ltPos => c.below u || decide (minNeg ≤ u)
  | .gtNeg => decide (u < minNeg) || c.above u
  | .ltNeg => decide (minNeg ≤ u) && c.below u

def stops (c : DocIdCheck) (u : Nat) : Bool :=
  match c.kind with
  | .gtPos => decide (minNeg ≤ u)
  | .ltNeg => decide (minNeg ≤ u) && !c.below u
  | .ltPos => false
  | .gtNeg => false

/-- The docid that the check hints at `u`, if it has not done so before. -/
def hintOn (c : DocIdCheck) (u : Nat) : Option Nat :=
  match c.kind with
  | .gtPos => none
  | .ltNeg => none
  | .ltPos => if c.below u || decide (minNeg ≤ u) then none else some minNeg
  | .gtNeg => if u < minNeg then none else some c.value

/-- The check as `Check` can leave it. -/
def fired (c : DocIdCheck) : DocIdCheck := { c with rewound := true }

/-- **`Check`** accepts and stops by the docid alone; besides, it may give a hint. -/
theorem check_eq (r : LookupReader) (c : DocIdCheck) (it : Cursor) (u : Nat) :
    c.check r it u = match c.hintOn u with
      | none   => some ⟨it, some c, c.accepts u, c.stops u⟩
      | some D => c.rewind r it D (c.accepts u) := by
  unfold check hintOn accepts stops
  -- one spelling of each test, then all their cases
  simp only [← not_lt]
  cases c.kind <;> by_cases hu : u < minNeg <;> by_cases hb : c.below u = true <;> simp [hu, hb]

end DocIdCheck

/-- **The checks compare docids as signed numbers**, though the lookup is sorted as unsigned. -/
theorem accepts_createCheck (bound docid : Filters.Attr) (eq : Bool) :
    (createCheckGt bound eq).accepts docid.toNat = (if eq then bound.sle docid else bound.slt docid) ∧
      (createCheckLt bound eq).accepts docid.toNat = (if eq then docid.sle bound else docid.slt bound) := by
  have hb := bound.isLt
  have hd := docid.isLt
  simp only [createCheckGt, createCheckLt, DocIdCheck.accepts, DocIdCheck.above, DocIdCheck.below, minNeg,
    BitVec.sle_eq_decide, BitVec.slt_eq_decide, BitVec.toInt_eq_toNat_cond]
  constructor <;> cases eq <;> grind

/-- A signed number inside the range of a filter. -/
def inRange (tFilter : Filters.FilterSettings) (docid : Filters.Attr) : Bool :=
  (tFilter.openLeft || if tFilter.hasEqualMin then tFilter.minValue.sle docid else tFilter.minValue.slt docid) &&
    (tFilter.openRight || if tFilter.hasEqualMax then docid.sle tFilter.maxValue else docid.slt tFilter.maxValue)

/-! ## Hints over places -/

/-- A hint to `D` at place `p` jumps over a pair of `D`: that pair ends a block, and the next block is the first one from
`p` on that starts with `D`. -/
def Lost (pairs : List DocidRowidPair) (D : Nat) (p : Place) : Prop :=
  ∃ c m, p.block = some c ∧ c < m ∧ p.next pairs < 64 * m ∧ 64 * m < pairs.length ∧ docAt pairs (64 * m) = D ∧
    docAt pairs (64 * m - 1) = D ∧ ∀ m', c < m' → m' < m → docAt pairs (64 * m') < D

section Places
variable {pairs : List DocidRowidPair} {data : List UInt8} {it : Cursor} {p p' : Place} {D u : Nat} {c c' : Option DocIdCheck}

theorem Rep.next_le {tail : List UInt8} (h : Rep pairs tail it p) : p.next pairs ≤ pairs.length := by
  cases p with
  | start c => exact le_of_lt h.1
  | behind i => exact h.1
  | done => exact le_refl _

theorem Rep.read (h : IsLookup pairs data) (hn : pairs.length ≤ 2 ^ 32 - 64) (hsort : Sorted pairs)
    (hrep : Rep pairs h.tail it p) :
    (pairs.length ≤ p.next pairs ∧ ∃ it', (readerOf pairs data).read it = some (it', none)) ∨
    (p.next pairs < pairs.length ∧ ∃ it', (readerOf pairs data).read it =
      some (it', some (docAt pairs (p.next pairs), rowAt pairs (p.next pairs))) ∧
        Rep pairs h.tail it' (.behind (p.next pairs))) := by
  cases p with
  | start c => exact Or.inr ⟨hrep.1, read_start data hrep⟩
  | behind i =>
    by_cases hi : i + 1 < pairs.length
    · exact Or.inr ⟨hi, read_behind h hn hsort hrep hi⟩
    · have hlast : i + 1 = pairs.length := by have := hrep.1; omega
      obtain ⟨it', hread, _⟩ := read_last data hrep hlast
      exact Or.inl ⟨le_of_eq hlast.symm, it', hread⟩
  | done => exact Or.inl ⟨le_refl _, it, read_done data hrep⟩

/-- The block of a place starts before the pair that is read next, and the block after it starts later. -/
theorem Place.next_le_of_block {c m : Nat} (hc : p.block = some c) (hm : c < m) : p.next pairs ≤ 64 * m := by
  cases p with
  | start b =>
    obtain rfl : b = c := Option.some.inj hc
    show 64 * b ≤ 64 * m
    omega
  | behind i =>
    obtain rfl : i / 64 = c := Option.some.inj hc
    show i + 1 ≤ 64 * m
    omega
  | done => cases hc

theorem HintsTo.next_le (h : HintsTo pairs D p p') (hp : p.next pairs ≤ pairs.length) :
    p.next pairs ≤ p'.next pairs ∧ p'.next pairs ≤ pairs.length := by
  rcases h with ⟨rfl, _⟩ | ⟨rfl, _⟩ | ⟨c, c', hc, rfl, hlt, hc', _⟩
  · exact ⟨le_refl _, hp⟩
  · exact ⟨hp, le_refl _⟩
  · exact ⟨Place.next_le_of_block hc hlt, le_of_lt hc'⟩

/-- **What a hint jumps over** is not above its docid, and has that docid only where pairs are lost. -/
theorem HintsTo.skips (hsort : Sorted pairs) (h : HintsTo pairs D p p') {k : Nat} (hk : k < pairs.length)
    (hpk : p.next pairs ≤ k) (hkp : k < p'.next pairs) :
    docAt pairs k ≤ D ∧ (docAt pairs k = D → Lost pairs D p) := by
  rcases h with ⟨rfl, _⟩ | ⟨rfl, hpast⟩ | ⟨c, c', hc, rfl, hlt, hc', hle, hbelow, _⟩
  · omega
  · have := hsort.docAt_mono (show k ≤ pairs.length - 1 by omega) (by omega)
    exact ⟨by omega, fun heq => by omega⟩
  · have hkc : k < 64 * c' := hkp
    have h2 := hsort.docAt_mono (show k ≤ 64 * c' - 1 by omega) (by omega)
    have h3 := hsort.docAt_mono (show 64 * c' - 1 ≤ 64 * c' by omega) hc'
    exact ⟨by omega, fun heq => ⟨c, c', hc, hlt, by omega, hc', by omega, by omega, hbelow⟩⟩

/-! ## The loop over places -/

/-- What a check that is not there allows is all. -/
def allows (c : Option DocIdCheck) (u : Nat) : Bool := c.all (fun c => c.accepts u)
def halts (c : Option DocIdCheck) (u : Nat) : Bool := c.any (fun c => c.stops u)

/-- `Check` at docid `u` moves the reader from `p` to `p'` only with a first hint. -/
inductive Hinted (pairs : List DocidRowidPair) (u : Nat) : Option DocIdCheck → Place → Option DocIdCheck → Place → Prop
  | absent {p : Place} : Hinted pairs u none p none p
  | still {c : DocIdCheck} {p : Place} (h : c.canRewind = true → c.rewound = false → c.hintOn u = none) :
      Hinted pairs u (some c) p (some c) p
  | hint {c : DocIdCheck} {p p' : Place} {D : Nat} (hcan : c.canRewind = true) (hnew : c.rewound = false)
      (hD : c.hintOn u = some D) (hto : HintsTo pairs D p p') : Hinted pairs u (some c) p (some c.fired) p'

/-- The pairs that `RowidIterator_LookupRange_T::Fill` adds from place `p` on. -/
inductive Scans (pairs : List DocidRowidPair) : Place → Option DocIdCheck → Option DocIdCheck → List Nat → Prop
  | done {p : Place} {gt lt : Option DocIdCheck} (h : pairs.length ≤ p.next pairs) : Scans pairs p gt lt []
  | stop {p : Place} {gt lt : Option DocIdCheck} (hn : p.next pairs < pairs.length)
      (h : halts gt (docAt pairs (p.next pairs)) = true ∨ halts lt (docAt pairs (p.next pairs)) = true) :
      Scans pairs p gt lt []
  | first {p p1 : Place} {gt gt' lt : Option DocIdCheck} {ks : List Nat} (hn : p.next pairs < pairs.length)
      (hno : allows gt (docAt pairs (p.next pairs)) = false)
      (h1 : Hinted pairs (docAt pairs (p.next pairs)) gt (.behind (p.next pairs)) gt' p1)
      (rest : Scans pairs p1 gt' lt ks) : Scans pairs p gt lt ks
  | second {p p1 p2 : Place} {gt gt' lt lt' : Option DocIdCheck} {ks : List Nat} (hn : p.next pairs < pairs.length)
      (hyes : allows gt (docAt pairs (p.next pairs)) = true)
      (h1 : Hinted pairs (docAt pairs (p.next pairs)) gt (.behind (p.next pairs)) gt' p1)
      (h2 : Hinted pairs (docAt pairs (p.next pairs)) lt p1 lt' p2) (rest : Scans pairs p2 gt' lt' ks) :
      Scans pairs p gt lt (if allows lt (docAt pairs (p.next pairs)) then p.next pairs :: ks else ks)

/-- The rows of the pairs `ks` inside the boundaries. -/
def rowsOf (pairs : List DocidRowidPair) (boundaries : Option (Nat × Nat)) (ks : List Nat) : List Nat :=
  (ks.map (rowAt pairs)).filter (inBounds boundaries)

theorem checkAdd_rowsOf (boundaries : Option (Nat × Nat)) (k : Nat) (ks : List Nat) :
    checkAdd boundaries (rowAt pairs k) (rowsOf pairs boundaries ks) = rowsOf pairs boundaries (k :: ks) := by
  rw [rowsOf, rowsOf, map_cons, filter_cons]
  rfl

theorem Hinted.next_le (h : Hinted pairs u c p c' p')
    (hp : p.next pairs ≤ pairs.length) : p.next pairs ≤ p'.next pairs ∧ p'.next pairs ≤ pairs.length := by
  cases h with
  | absent => exact ⟨le_refl _, hp⟩
  | still _ => exact ⟨le_refl _, hp⟩
  | hint _ _ _ hto => exact hto.next_le hp

section
variable (h : IsLookup pairs data) (hn : pairs.length ≤ 2 ^ 32 - 64) (hsort : Sorted pairs)
include h hn hsort

/-- **One `Check`**, if there is one. -/
theorem checkIf_hinted (hrep : Rep pairs h.tail it p) (c : Option DocIdCheck) (u : Nat) :
    ∃ a p', checkIf (readerOf pairs data) c it u = some a ∧ Rep pairs h.tail a.reader p' ∧
      Hinted pairs u c p a.check p' ∧ a.accept = allows c u ∧ a.stop = halts c u := by
  cases c with
  | none => exact ⟨_, p, rfl, hrep, .absent, rfl, rfl⟩
  | some c =>
    rw [checkIf, c.check_eq]
    cases hD : c.hintOn u with
    | none => exact ⟨_, p, rfl, hrep, .still (fun _ _ => hD), rfl, by simp [halts]⟩
    | some D =>
      have hgo : c.stops u = false := by
        unfold DocIdCheck.hintOn at hD
        unfold DocIdCheck.stops
        cases hk : c.kind <;> simp [hk] at hD ⊢
      simp only
      rw [DocIdCheck.rewind]
      by_cases hfire : (c.canRewind && !c.rewound) = true
      · obtain ⟨it', p', hhint, hrep', hto⟩ := hintDocID_hints h hn hsort hrep D
        obtain ⟨hcan, hnew⟩ := Bool.and_eq_true_iff.1 hfire
        rw [if_pos hfire, hhint]
        exact ⟨_, p', rfl, hrep', .hint hcan (by simpa using hnew) hD hto, rfl, by simp [halts, hgo]⟩
      · rw [if_neg hfire]
        exact ⟨_, p, rfl, hrep, .still fun h1 h2 => absurd (by rw [h1, h2]; rfl) hfire, rfl, by simp [halts, hgo]⟩

/-- **The loop of `Fill` runs over the places**, and ends. -/
theorem fillRange_scans (boundaries : Option (Nat × Nat)) : ∀ (d : Nat) {it : Cursor} {p : Place} (gt lt : Option DocIdCheck)
      (processed : Nat), Rep pairs h.tail it p → pairs.length ≤ p.next pairs + d →
      ∃ ks processed', (∀ f, fillRange (readerOf pairs data) boundaries (f + d + 1) it gt lt processed =
        some (rowsOf pairs boundaries ks, processed')) ∧ Scans pairs p gt lt ks := by
  intro d it p gt lt processed hrep hd
  rcases hrep.read h hn hsort with ⟨hend, it', hread⟩ | ⟨hlt, it1, hread, hrep1⟩
  · refine ⟨[], processed, fun f => ?_, .done hend⟩
    rw [fillRange, hread]
    rfl
  cases d with
  | zero => omega
  | succ d =>
    obtain ⟨a, p1, hcheck1, hrep2, hint1, hacc1, hstop1⟩ :=
      checkIf_hinted h hn hsort hrep1 gt (docAt pairs (p.next pairs))
    have hp1 : p.next pairs + 1 ≤ p1.next pairs := (hint1.next_le hlt).1
    by_cases hs1 : a.stop = true
    · refine ⟨[], processed + 1, fun f => ?_, .stop hlt (Or.inl (hstop1 ▸ hs1))⟩
      rw [fillRange]
      simp only [hread, hcheck1, hs1, bind_eq_bind, bind_some, if_true]
      rfl
    by_cases ha1 : a.accept = true
    · obtain ⟨b, p2, hcheck2, hrep3, hint2, hacc2, hstop2⟩ :=
        checkIf_hinted h hn hsort hrep2 lt (docAt pairs (p.next pairs))
      have hp2 := (hint2.next_le hrep2.next_le).1
      by_cases hs2 : b.stop = true
      · refine ⟨[], processed + 1, fun f => ?_, .stop hlt (Or.inr (hstop2 ▸ hs2))⟩
        rw [fillRange]
        simp only [hread, hcheck1, hs1, ha1, hcheck2, hs2, bind_eq_bind, bind_some, if_true,
          Bool.not_true, Bool.false_eq_true, if_false]
        rfl
      · obtain ⟨ks, processed', hrun, hscan⟩ := fillRange_scans boundaries d a.check b.check (processed + 1) hrep3 (by omega)
        refine ⟨_, processed', fun f => ?_, .second hlt (hacc1 ▸ ha1) hint1 hint2 hscan⟩
        rw [fillRange]
        simp only [hread, hcheck1, hs1, ha1, hcheck2, hs2, bind_eq_bind, bind_some,
          Bool.not_true, Bool.false_eq_true, if_false, ← add_assoc f d 1, hrun f, hacc2]
        cases allows lt (docAt pairs (p.next pairs)) with
        | false => rfl
        | true => simp [checkAdd_rowsOf]
    · obtain ⟨ks, processed', hrun, hscan⟩ := fillRange_scans boundaries d a.check lt (processed + 1) hrep2 (by omega)
      have hno : a.accept = false := by rw [← Bool.not_eq_true]; exact ha1
      refine ⟨ks, processed', fun f => ?_, .first hlt (hacc1 ▸ hno) hint1 hscan⟩
      rw [fillRange]
      simp only [hread, hcheck1, hs1, hno, bind_eq_bind, bind_some, Bool.not_false, if_true,
        Bool.false_eq_true, if_false, ← add_assoc f d 1, hrun f]

end

/-- The docid of a pair as a signed number. -/
def signedAt (pairs : List DocidRowidPair) (k : Nat) : Filters.Attr := BitVec.ofNat 64 (docAt pairs k)

theorem allows_inRange (pairs : List DocidRowidPair) (tFilter : Filters.FilterSettings) (k : Nat) :
    (allows (check1 tFilter) (docAt pairs k) = true ∧ allows (check2 tFilter) (docAt pairs k) = true) ↔
      inRange tFilter (signedAt pairs k) = true := by
  have hdoc : docAt pairs k = (signedAt pairs k).toNat := by
    rw [signedAt, BitVec.toNat_ofNat, Nat.mod_eq_of_lt (docAt_lt pairs k)]
  have hgt := (accepts_createCheck tFilter.minValue (signedAt pairs k) tFilter.hasEqualMin).1
  have hlt := (accepts_createCheck tFilter.maxValue (signedAt pairs k) tFilter.hasEqualMax).2
  rw [hdoc, check1, check2, inRange, Bool.and_eq_true]
  cases tFilter.openLeft <;> cases tFilter.openRight <;> simp [allows, hgt, hlt]

theorem Hinted.allows_eq (h : Hinted pairs u c p c' p') : allows c' = allows c := by
  cases h <;> rfl

/-- A check that stops accepts no docid from there on. -/
theorem halts_allows {v : Nat} (h : halts c u = true) (huv : u ≤ v) : ¬ allows c v = true := by
  cases c with
  | none => simp [halts] at h
  | some c =>
    simp only [halts, allows, Option.any_some, Option.all_some, DocIdCheck.stops, DocIdCheck.accepts, DocIdCheck.below] at h ⊢
    cases hk : c.kind <;> simp [hk] at h ⊢ <;> grind

/-- An accepted docid that a hint jumps over is the hinted one. -/
theorem Hinted.lost (hsort : Sorted pairs) {i k : Nat} (h : Hinted pairs (docAt pairs i) c p c' p')
    (hk : k < pairs.length) (hik : i ≤ k) (hpk : p.next pairs ≤ k) (hkp : ¬ p'.next pairs ≤ k)
    (ha : allows c (docAt pairs k) = true) : Lost pairs (docAt pairs k) p := by
  have hu := hsort.docAt_mono hik hk
  cases h with
  | absent => omega
  | still _ => omega
  | @hint c _ _ D hcan hnew hD hto =>
    obtain ⟨hle, hlost⟩ := hto.skips hsort hk hpk (not_le.1 hkp)
    have heq : docAt pairs k = D := by
      simp only [allows, Option.all_some, DocIdCheck.hintOn, DocIdCheck.accepts, DocIdCheck.above, DocIdCheck.below] at hD ha
      cases hkind : c.kind <;> simp [hkind] at hD ha <;> grind
    exact heq ▸ hlost heq

/-- The pairs `ks` are those from `p` on that both checks accept, in order, but for docids that a hint can lose. -/
structure Selects (pairs : List DocidRowidPair) (p : Place) (gt lt : Option DocIdCheck) (ks : List Nat) : Prop where
  ascending : ks.Pairwise (· < ·)
  sound : ∀ k ∈ ks, p.next pairs ≤ k ∧ k < pairs.length ∧ allows gt (docAt pairs k) = true ∧ allows lt (docAt pairs k) = true
  complete : ∀ k < pairs.length, p.next pairs ≤ k → allows gt (docAt pairs k) = true → allows lt (docAt pairs k) = true →
    k ∈ ks ∨ ∃ p', Lost pairs (docAt pairs k) p'

theorem Scans.selects (hsort : Sorted pairs) {gt lt : Option DocIdCheck} {ks : List Nat} (h : Scans pairs p gt lt ks) :
    Selects pairs p gt lt ks := by
  induction h with
  | done hend => exact ⟨.nil, nofun, fun k hk hpk => by omega⟩
  | stop hn hstop =>
    refine ⟨.nil, nofun, fun k hk hpk hgt hlt => ?_⟩
    rcases hstop with h | h
    · exact absurd hgt (halts_allows h (hsort.docAt_mono hpk hk))
    · exact absurd hlt (halts_allows h (hsort.docAt_mono hpk hk))
  | @first p p1 gt gt' lt ks hn hno h1 _ ih =>
    have hnext : p.next pairs + 1 ≤ p1.next pairs := (h1.next_le hn).1
    refine ⟨ih.ascending, fun k hk => ?_, fun k hk hpk hgt hlt => ?_⟩
    · obtain ⟨hge, hlt, hacc⟩ := ih.sound k hk
      exact ⟨by omega, hlt, h1.allows_eq ▸ hacc⟩
    · rcases Nat.eq_or_lt_of_le hpk with rfl | hlt1
      · simp [hno] at hgt
      · by_cases hp1 : p1.next pairs ≤ k
        · exact ih.complete k hk hp1 (h1.allows_eq ▸ hgt) hlt
        · exact .inr ⟨_, h1.lost hsort hk hpk hlt1 hp1 hgt⟩
  | @second p p1 p2 gt gt' lt lt' ks hn hyes h1 h2 _ ih =>
    have hnext : p.next pairs + 1 ≤ p1.next pairs := (h1.next_le hn).1
    have hnext2 := (h2.next_le (h1.next_le hn).2).1
    have hmem : ∀ k, k ∈ (if allows lt (docAt pairs (p.next pairs)) then p.next pairs :: ks else ks) ↔
        (k = p.next pairs ∧ allows lt (docAt pairs (p.next pairs)) = true) ∨ k ∈ ks := by
      intro k
      split <;> simp [*]
    refine ⟨?_, fun k hk => ?_, fun k hk hpk hgt hlt => ?_⟩
    · split
      · exact pairwise_cons.2 ⟨fun k hk => by have := (ih.sound k hk).1; omega, ih.ascending⟩
      · exact ih.ascending
    · rcases (hmem k).1 hk with ⟨rfl, hacc⟩ | hk
      · exact ⟨le_rfl, hn, hyes, hacc⟩
      · obtain ⟨hge, hlt, hgt', hlt'⟩ := ih.sound k hk
        exact ⟨by omega, hlt, h1.allows_eq ▸ hgt', h2.allows_eq ▸ hlt'⟩
    · rcases Nat.eq_or_lt_of_le hpk with rfl | hlt1
      · exact .inl ((hmem _).2 (.inl ⟨rfl, hlt⟩))
      by_cases hp1 : p1.next pairs ≤ k
      · by_cases hp2 : p2.next pairs ≤ k
        · exact (ih.complete k hk hp2 (h1.allows_eq ▸ hgt) (h2.allows_eq ▸ hlt)).imp_left fun hk => (hmem k).2 (.inr hk)
        · exact .inr ⟨_, h2.lost hsort hk hpk hp1 hp2 hlt⟩
      · exact .inr ⟨_, h1.lost hsort hk hpk hlt1 hp1 hgt⟩

section
variable (h : IsLookup pairs data) (hn : pairs.length ≤ 2 ^ 32 - 64) (hsort : Sorted pairs) (hrep : Rep pairs h.tail it p)
  (boundaries : Option (Nat × Nat))
include hn hsort hrep

theorem fillRange_ends (gt lt : Option DocIdCheck) (processed : Nat) :
    ∃ ks processed', fillRange (readerOf pairs data) boundaries (pairs.length + 1) it gt lt processed =
      some (rowsOf pairs boundaries ks, processed') ∧ Scans pairs p gt lt ks := by
  obtain ⟨ks, processed', hrun, hscan⟩ :=
    fillRange_scans h hn hsort boundaries (pairs.length - p.next pairs) gt lt processed hrep (by omega)
  have hfuel := hrun (p.next pairs)
  rw [Nat.add_sub_of_le hrep.next_le] at hfuel
  exact ⟨ks, processed', hfuel, hscan⟩

/-- **`Fill` ends with the rows of the accepted pairs.** -/
theorem fillRange_exact (gt lt : Option DocIdCheck) (processed : Nat) :
    ∃ ks processed', fillRange (readerOf pairs data) boundaries (pairs.length + 1) it gt lt processed =
      some (rowsOf pairs boundaries ks, processed') ∧ Selects pairs p gt lt ks := by
  obtain ⟨ks, processed', hfill, hscan⟩ := fillRange_ends h hn hsort hrep boundaries gt lt processed
  exact ⟨ks, processed', hfill, hscan.selects hsort⟩

/-- **`Fill` for a range filter** adds the rows of pairs whose docids, as signed numbers, are in the range, and leaves out
only those that a hint can lose. -/
theorem fillRange_inRange (tFilter : Filters.FilterSettings) (processed : Nat) :
    ∃ ks processed', fillRange (readerOf pairs data) boundaries (pairs.length + 1) it (check1 tFilter) (check2 tFilter)
        processed = some (rowsOf pairs boundaries ks, processed') ∧ ks.Pairwise (· < ·) ∧
      (∀ k ∈ ks, p.next pairs ≤ k ∧ k < pairs.length ∧ inRange tFilter (signedAt pairs k) = true) ∧
      ∀ k < pairs.length, p.next pairs ≤ k → inRange tFilter (signedAt pairs k) = true →
        k ∈ ks ∨ ∃ p', Lost pairs (docAt pairs k) p' := by
  obtain ⟨ks, processed', hfill, hscan⟩ := fillRange_ends h hn hsort hrep boundaries (check1 tFilter) (check2 tFilter) processed
  have hsel := hscan.selects hsort
  refine ⟨ks, processed', hfill, hsel.ascending, fun k hk => ?_, fun k hk hpk hin => ?_⟩
  · obtain ⟨hpk, hlen, hgt, hlt⟩ := hsel.sound k hk
    exact ⟨hpk, hlen, (allows_inRange pairs tFilter k).mp ⟨hgt, hlt⟩⟩
  · obtain ⟨hgt, hlt⟩ := (allows_inRange pairs tFilter k).mpr hin
    exact hsel.complete k hk hpk hgt hlt

end

end Places

/-- The docids 1 to 66, and -3 in the last place. -/
def signedPairs : List DocidRowidPair := (List.range 66).map (fun i => ⟨UInt64.ofNat (i + 1), UInt32.ofNat i⟩) ++ [⟨2 ^ 64 - 3, 66⟩]

/-- `-5 < id <= 9`, within the rows 4 to 70: both checks give a hint, the one of 9 into the second block. -/
theorem fillRange_signedPairs : ∃ data it ks n, fillRange (readerOf signedPairs data) (some (4, 70)) 68 it
    (some (createCheckGt (-5) false)) (some (createCheckLt 9 true)) 0 = some (rowsOf signedPairs (some (4, 70)) ks, n) ∧
    Selects signedPairs (.start 0) (some (createCheckGt (-5) false)) (some (createCheckLt 9 true)) ks := by
  have hsort : Sorted signedPairs := by unfold Sorted; decide +kernel
  obtain ⟨data, -, ⟨h⟩, -⟩ := isLookup_writeDocidLookup 64 (by decide) hsort (by decide) fun us (h : none = some us) => nomatch h
  obtain ⟨it, -, hrep⟩ := setCheckpoint_eq h (by decide) ⟨none, [], 0, 0, 0⟩ (show 64 * 0 < signedPairs.length by decide)
  exact ⟨data, it, fillRange_exact h (by decide) hsort hrep (some (4, 70)) _ _ 0⟩

end DocidLookup
end Manticore

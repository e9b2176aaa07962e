import Mathlib
import Manticore.PhraseFsm
/-!
# ProximityFsm — the proximity automaton (`FSMproximity_c`)

`"a b c"~n` looks for all its words within a window.  `m_dProx` is the last position of each word, by its offset in the
query, and `UINT_MAX` for a word that is not within the window; `m_iMinQindex` is the word that stands first.  The window
is only swept when the first word moves or the hit is too far from it (`m_uExpPos`).

Positions are DWORDs with the field in the top byte, and the sweep compares them as signed numbers.
-/
namespace Manticore
namespace NWay
open List

/-- `FSMproximity_c` -/
structure Proximity where
  maxDistance : Nat
  wordsExpected : Nat
  minQpos : Nat
  qLen : Nat
  qposMask : Nat
  expPos : Nat := 0
  prox : List Nat
  words : Nat := 0
  minQindex : Int := 65535
  deriving DecidableEq, Repr

namespace Proximity

def uintMax : Nat := 2 ^ 32 - 1

/-- A DWORD read as an `int`. -/
def asInt (x : Nat) : Int := if x < 2 ^ 31 then x else x - 2 ^ 32

/-- The constructor, for words at the given atom positions. -/
def create (atoms : List Nat) (maxDistance : Nat) (setQposMask : Bool) : Proximity where
  maxDistance
  wordsExpected := atoms.length
  minQpos := atoms.getD 0 0
  qLen := atoms.getD (atoms.length - 1) 0 - atoms.getD 0 0
  qposMask := if setQposMask then getQposMask atoms else 0
  prox := List.replicate (atoms.getD (atoms.length - 1) 0 - atoms.getD 0 0 + 1) 0

def resetFSM (s : Proximity) : Proximity :=
  { s with expPos := 0, words := 0, minQindex := -1, prox := s.prox.map fun _ => uintMax }

/-- `m_uQLen + m_iMaxDistance` -/
def window (s : Proximity) : Nat := s.qLen + s.maxDistance

/-- What the sweep of the table counts: the words left, and the first of them with its position. -/
structure Sweep where
  words : Nat
  minQindex : Int
  minPos : Nat
  deriving DecidableEq, Repr

/-- The sweep at the `i`-th entry: a word at or before `limit` is dropped. -/
def sweepEntry (limit : Int) (i : Int) (x : Nat) (a : Sweep) : Nat × Sweep :=
  if x = uintMax then (x, a)
  else if asInt x ≤ limit then (uintMax, { a with words := a.words - 1 })
  else if x < a.minPos then (x, { a with minQindex := i, minPos := x })
  else (x, a)

/-- The sweep from the `i`-th entry on. -/
def sweep (limit : Int) : List Nat → Int → Sweep → List Nat × Sweep
  | [], _, a => ([], a)
  | x :: prox, i, a =>
    ((sweepEntry limit i x a).1 :: (sweep limit prox (i + 1) (sweepEntry limit i x a).2).1,
      (sweep limit prox (i + 1) (sweepEntry limit i x a).2).2)

/-- The word of the hit is put into the table. -/
def place (s : Proximity) (h : ExtHit) : Proximity :=
  { s with
    words := if s.prox.getD (h.querypos - s.minQpos) uintMax = uintMax then s.words + 1 else s.words
    prox := s.prox.set (h.querypos - s.minQpos) h.pos }

/-- The words out of the window are dropped, and the first of the others is found. -/
def recompute (s : Proximity) (h : ExtHit) : Proximity :=
  let r := sweep (asInt (plusInt h.pos (-(s.window : Int)))) s.prox 0
    { words := s.words, minQindex := (h.querypos - s.minQpos : Nat), minPos := h.pos }
  { s with
    prox := r.1
    words := r.2.words
    minQindex := r.2.minQindex
    expPos := (r.1.getD r.2.minQindex.toNat uintMax + s.window) % 2 ^ 32 }

/-- The context after the hit, before the answer. -/
def update (s : Proximity) (h : ExtHit) : Proximity :=
  if s.expPos ≤ h.pos ∨ ((h.querypos - s.minQpos : Nat) : Int) = s.minQindex then recompute (place s h) h else place s h

/-- "compute phrase weight": runs of words that stand in their query order, without gaps. -/
def runWeight : List Int → Int → Nat → Nat → Nat
  | [], _, cur, weight => weight + if cur = 0 then 0 else 1 + cur
  | d :: ds, last, cur, weight =>
    if d = last then runWeight ds d (cur + 1) weight
    else runWeight ds d 0 (weight + if cur = 0 then 0 else 1 + cur)

def weight (s : Proximity) : Nat :=
  let deltas := s.prox.mapIdx fun i x => if x = uintMax then Phrase.intMax else asInt (plusInt x (-(i : Int)))
  max 1 (runWeight ((deltas.insertionSort (· ≤ ·)).takeWhile (· ≠ Phrase.intMax)) (-Phrase.intMax) 0 0)

/-- `m_dProx[m_iMinQindex]` -/
def first (s : Proximity) : Nat := s.prox.getD s.minQindex.toNat uintMax

/-- The hit made of the words in the window. -/
def fold (s : Proximity) (h : ExtHit) : FoldedHit where
  rowID := h.rowID
  hitpos := s.first
  querypos := s.minQpos % 2 ^ 16
  spanlen := ((s.prox.filter (· ≠ uintMax)).foldl max 0 - s.first + 1) % 2 ^ 16
  matchlen := ((s.prox.filter (· ≠ uintMax)).foldl max 0 - s.first + 1) % 2 ^ 16
  weight := s.weight
  qposMask := s.qposMask

/-- `FSMproximity_c::HitFSM` -/
def hitFSM (s : Proximity) (h : ExtHit) : Proximity × Option FoldedHit :=
  let s := update s h
  if s.words ≠ s.wordsExpected then (s, none)
  else ({ s with prox := s.prox.set s.minQindex.toNat uintMax, minQindex := -1, words := s.words - 1, expPos := 0 },
    some (s.fold h))

/-- The proximity automaton. -/
def fsm : Fsm Proximity := ⟨resetFSM, fun s h => some (s.hitFSM h)⟩

/-! ## The sweep -/

/-- What the sweep leaves of an entry. -/
def kept (limit : Int) (x : Nat) : Nat := if x ≠ uintMax ∧ asInt x ≤ limit then uintMax else x

/-- The number of words in the table. -/
def present (prox : List Nat) : Nat := prox.countP (· ≠ uintMax)

theorem present_cons (x : Nat) (prox : List Nat) :
    present (x :: prox) = present prox + if x = uintMax then 0 else 1 := by
  rw [present, present, countP_cons]
  by_cases hx : x = uintMax <;> simp [hx]

theorem sweepEntry_cases (limit : Int) (i : Int) (x : Nat) (a : Sweep) :
    (x = uintMax ∧ kept limit x = x ∧ sweepEntry limit i x a = (kept limit x, a)) ∨
    (x ≠ uintMax ∧ kept limit x = uintMax ∧ sweepEntry limit i x a = (kept limit x, { a with words := a.words - 1 })) ∨
    (x ≠ uintMax ∧ kept limit x = x ∧ x < a.minPos ∧
      sweepEntry limit i x a = (kept limit x, { a with minQindex := i, minPos := x })) ∨
    (x ≠ uintMax ∧ kept limit x = x ∧ a.minPos ≤ x ∧ sweepEntry limit i x a = (kept limit x, a)) := by
  by_cases hx : x = uintMax
  · have hk : kept limit x = x := if_neg fun h => h.1 hx
    exact .inl ⟨hx, hk, by rw [hk, sweepEntry, if_pos hx]⟩
  by_cases hle : asInt x ≤ limit
  · have hk : kept limit x = uintMax := if_pos ⟨hx, hle⟩
    exact .inr (.inl ⟨hx, hk, by rw [hk, sweepEntry, if_neg hx, if_pos hle]⟩)
  have hk : kept limit x = x := if_neg fun h => hle h.2
  by_cases hlt : x < a.minPos
  · exact .inr (.inr (.inl ⟨hx, hk, hlt, by rw [hk, sweepEntry, if_neg hx, if_neg hle, if_pos hlt]⟩))
  · exact .inr (.inr (.inr ⟨hx, hk, Nat.le_of_not_lt hlt,
      by rw [hk, sweepEntry, if_neg hx, if_neg hle, if_neg hlt]⟩))

/-- What the sweep from the `i`-th entry on does to the table and the count: every entry is kept or dropped by itself,
the words are counted down, and what comes out as first is no later than any word kept, and one of them or what it was. -/
structure Cleared (limit : Int) (prox : List Nat) (i : Nat) (a : Sweep) (out : List Nat) (b : Sweep) : Prop where
  prox_eq : out = prox.map (kept limit)
  words : b.words + present prox = a.words + present out
  min_le : b.minPos ≤ a.minPos
  least : ∀ x ∈ out, x ≠ uintMax → b.minPos ≤ x
  which : b.minQindex = a.minQindex ∧ b.minPos = a.minPos ∨
    ∃ j < prox.length, b.minQindex = (i + j : Nat) ∧ out.getD j uintMax = b.minPos ∧ b.minPos < a.minPos

variable {prox : List Nat}

theorem Cleared.cons {limit : Int} {out : List Nat} {i x : Nat} {a b c : Sweep} (h : Cleared limit prox (i + 1) b out c)
    (hwords : b.words + (if x = uintMax then 0 else 1) = a.words + if kept limit x = uintMax then 0 else 1)
    (hmin : b.minPos ≤ a.minPos) (hx : kept limit x ≠ uintMax → b.minPos ≤ kept limit x)
    (hwhich : b.minQindex = a.minQindex ∧ b.minPos = a.minPos ∨
      b.minQindex = (i : Int) ∧ b.minPos = kept limit x ∧ b.minPos < a.minPos) :
    Cleared limit (x :: prox) i a (kept limit x :: out) c where
  prox_eq := by rw [map_cons, h.prox_eq]
  words := by
    have := h.words
    rw [present_cons, present_cons]
    omega
  min_le := le_trans h.min_le hmin
  least := by
    intro y hy hne
    rcases mem_cons.mp hy with rfl | hy
    · exact le_trans h.min_le (hx hne)
    · exact h.least y hy hne
  which := by
    rcases h.which with ⟨hi, hp⟩ | ⟨j, hj, hi, hp, hlt⟩
    · rcases hwhich with ⟨hi', hp'⟩ | ⟨hi', hp', hlt⟩
      · exact .inl ⟨hi.trans hi', hp.trans hp'⟩
      · exact .inr ⟨0, Nat.succ_pos _, hi.trans hi', (hp.trans hp').symm, hp ▸ hlt⟩
    · refine .inr ⟨j + 1, Nat.succ_lt_succ hj, ?_, hp, lt_of_lt_of_le hlt hmin⟩
      rw [hi, add_right_comm, add_assoc]

theorem sweep_spec (limit : Int) : ∀ (prox : List Nat) (i : Nat) (a : Sweep), present prox ≤ a.words →
    Cleared limit prox i a (sweep limit prox i a).1 (sweep limit prox i a).2
  | [], i, a, _ => ⟨rfl, rfl, le_refl _, forall_mem_nil _, .inl ⟨rfl, rfl⟩⟩
  | x :: prox, i, a, hw => by
    have hcast : ((i : Int) + 1) = ((i + 1 : Nat) : Int) := by norm_cast
    rw [present_cons] at hw
    rw [sweep, hcast]
    rcases sweepEntry_cases limit i x a with ⟨hx, hk, he⟩ | ⟨hx, hk, he⟩ | ⟨hx, hk, hlt, he⟩ | ⟨hx, hk, hge, he⟩
    · rw [he]
      exact (sweep_spec limit prox (i + 1) a (by omega)).cons (by rw [hk]) (le_refl _) (fun h => absurd (hk.trans hx) h)
        (.inl ⟨rfl, rfl⟩)
    · rw [if_neg hx] at hw
      rw [he]
      refine (sweep_spec limit prox (i + 1) { a with words := a.words - 1 } (by simp only; omega)).cons ?_ (le_refl _)
        (fun h => absurd hk h) (.inl ⟨rfl, rfl⟩)
      rw [if_neg hx, if_pos hk]
      simp only
      omega
    · rw [he]
      exact (sweep_spec limit prox (i + 1) { a with minQindex := i, minPos := x } (by simp only; omega)).cons
        (by rw [hk]) (le_of_lt hlt) (fun _ => le_of_eq hk.symm) (.inr ⟨rfl, hk.symm, hlt⟩)
    · rw [he]
      exact (sweep_spec limit prox (i + 1) a (by omega)).cons (by rw [hk]) (le_refl _) (fun _ => by rwa [hk])
        (.inl ⟨rfl, rfl⟩)

/-! ## The table -/

theorem getD_map_kept (limit : Int) (prox : List Nat) (i : Nat) :
    (prox.map (kept limit)).getD i uintMax = kept limit (prox.getD i uintMax) := by
  have hmax : kept limit uintMax = uintMax := if_neg fun h => h.1 rfl
  rw [getD_eq_getElem?_getD, getElem?_map, getD_eq_getElem?_getD]
  cases prox[i]? with
  | none => exact hmax.symm
  | some x => rfl

theorem present_set {p : Nat} (hp : p ≠ uintMax) : ∀ {prox : List Nat} {i : Nat}, i < prox.length →
    present (prox.set i p) = present prox + if prox.getD i uintMax = uintMax then 1 else 0
  | x :: prox, 0, _ => by
    rw [set_cons_zero, present_cons, present_cons, if_neg hp]
    show _ = _ + if x = uintMax then 1 else 0
    split <;> rfl
  | x :: prox, i + 1, hi => by
    rw [set_cons_succ, present_cons, present_cons, present_set hp (Nat.lt_of_succ_lt_succ hi)]
    show _ = _ + if prox.getD i uintMax = uintMax then 1 else 0
    omega

theorem present_eq (prox : List Nat) :
    present prox = ((List.range prox.length).filter fun i => prox.getD i uintMax ≠ uintMax).length := by
  rw [← countP_eq_length_filter, present]
  conv_lhs => rw [← Arrays.map_getD_range prox uintMax]
  rw [countP_map]
  rfl

variable {atoms : List Nat}

/-- The words in the table are all those of the query iff their number is. -/
theorem present_eq_length_iff (hnd : atoms.Nodup) {b : Nat} (hb : ∀ a ∈ atoms, b ≤ a)
    (hlen : ∀ a ∈ atoms, a - b < prox.length)
    (hsub : ∀ i < prox.length, prox.getD i uintMax ≠ uintMax → b + i ∈ atoms) :
    present prox = atoms.length ↔ ∀ a ∈ atoms, prox.getD (a - b) uintMax ≠ uintMax := by
  have hinj : (atoms.map (· - b)).Nodup := hnd.map_on fun x hx y hy hxy => by
    have := hb x hx
    have := hb y hy
    omega
  have hfil : ((List.range prox.length).filter fun i => prox.getD i uintMax ≠ uintMax).Nodup := nodup_range.filter _
  have hsub' : ((List.range prox.length).filter fun i => prox.getD i uintMax ≠ uintMax) ⊆ atoms.map (· - b) := by
    intro i hi
    obtain ⟨h1, h2⟩ := mem_filter.mp hi
    exact mem_map.mpr ⟨b + i, hsub i (mem_range.mp h1) (by simpa using h2), Nat.add_sub_cancel_left b i⟩
  have hle := subperm_of_subset hfil hsub'
  rw [present_eq]
  constructor
  · intro heq a ha
    have hperm := hle.perm_of_length_le (by rw [length_map, heq])
    have hmem := hperm.mem_iff.mpr (mem_map.mpr ⟨a, ha, rfl⟩)
    simpa using (mem_filter.mp hmem).2
  · intro hall
    refine le_antisymm (by simpa using hle.length_le) ?_
    have hge : atoms.map (· - b) ⊆ (List.range prox.length).filter fun i => prox.getD i uintMax ≠ uintMax := by
      intro i hi
      obtain ⟨a, ha, rfl⟩ := mem_map.mp hi
      exact mem_filter.mpr ⟨mem_range.mpr (hlen a ha), by simpa using hall a ha⟩
    simpa using (subperm_of_subset hinj hge).length_le

/-! ## One hit -/

/-- All hits are in the lower half of the fields, or all in the upper half and beyond the reach of its start. -/
def SameHalf (w : Nat) (hits : List ExtHit) : Prop :=
  (∀ h ∈ hits, h.pos < 2 ^ 31) ∨ ∀ h ∈ hits, 2 ^ 31 + w ≤ h.pos

variable {hits : List ExtHit}

/-- Within one half the signed comparison is the right one. -/
theorem late_iff {w : Nat} (hw : w ≤ 2 ^ 23) (hhalf : SameHalf w hits) {g h : ExtHit} (hg : g ∈ hits)
    (hh : h ∈ hits) (hh32 : h.hitpos < 2 ^ 32) :
    asInt g.pos ≤ asInt (plusInt h.pos (-(w : Int))) ↔ g.pos + w ≤ h.pos := by
  have h2 := (Phrase.pos_lt hh32).1
  unfold asInt plusInt
  rcases hhalf with hlow | hhigh
  · have hgl := hlow g hg
    have hhl := hlow h hh
    split <;> omega
  · have hgl := hhigh g hg
    have hhl := hhigh h hh
    omega

theorem pos_ne_max {h : ExtHit} (hh : h.hitpos < 2 ^ 32) : h.pos ≠ uintMax := by
  have := (Phrase.pos_lt hh).1
  unfold uintMax
  omega

/-- A proximity query: words at ascending atom positions, and a distance that stays within a field. -/
structure Query (atoms : List Nat) (dist : Nat) : Prop where
  words : Phrase.Words atoms
  reach : Phrase.span atoms + dist ≤ 2 ^ 23

/-- The automaton of a query, in any state. -/
structure Of (atoms : List Nat) (dist : Nat) (s : Proximity) : Prop where
  maxDistance : s.maxDistance = dist
  wordsExpected : s.wordsExpected = atoms.length
  minQpos : s.minQpos = atoms.getD 0 0
  qLen : s.qLen = Phrase.span atoms
  prox : s.prox.length = Phrase.span atoms + 1

theorem of_create (atoms : List Nat) (dist : Nat) (mask : Bool) : Of atoms dist (create atoms dist mask) :=
  ⟨rfl, rfl, rfl, rfl, length_replicate⟩

theorem Of.window_eq {dist : Nat} {s : Proximity} (hs : Of atoms dist s) : s.window = Phrase.span atoms + dist := by
  rw [window, hs.maxDistance, hs.qLen]

/-- The position of the `i`-th word of the query. -/
abbrev entry (s : Proximity) (i : Nat) : Nat := s.prox.getD i uintMax

/-- What the table stands for: the last hit of every word, unless it has fallen out of the window. -/
structure Places (atoms : List Nat) (dist : Nat) (seen : List ExtHit) (s : Proximity) : Prop extends Of atoms dist s where
  words : s.words = present s.prox
  sound : ∀ i, s.entry i ≠ uintMax → ∃ g ∈ seen, g.querypos = s.minQpos + i ∧ g.pos = s.entry i
  last : ∀ g ∈ seen, s.entry (g.querypos - s.minQpos) ≠ uintMax ∧ g.pos ≤ s.entry (g.querypos - s.minQpos) ∨
    ∃ k ∈ seen, g.pos + s.window ≤ k.pos

/-- **What the context stands for**, no hit being added since the reset: all words of the table are within the window,
and the first of them is known. -/
structure Follows (atoms : List Nat) (dist : Nat) (seen : List ExtHit) (s : Proximity) : Prop
    extends Places atoms dist seen s where
  near : ∀ i, s.entry i ≠ uintMax → ∀ k ∈ seen, k.pos < s.entry i + s.window
  min : seen = [] ∧ s.expPos = 0 ∨ ∃ m : Nat, s.minQindex = m ∧ s.entry m ≠ uintMax ∧
    s.expPos = s.entry m + s.window ∧ ∀ i, s.entry i ≠ uintMax → s.entry m ≤ s.entry i

theorem Of.follows_resetFSM {dist : Nat} {s : Proximity} (hs : Of atoms dist s) : Follows atoms dist [] s.resetFSM := by
  have hnone : ∀ i, s.resetFSM.entry i = uintMax := by
    intro i
    show (s.prox.map fun _ => uintMax).getD i uintMax = uintMax
    rw [getD_eq_getElem?_getD, getElem?_map]
    cases s.prox[i]? <;> rfl
  refine ⟨⟨⟨hs.maxDistance, hs.wordsExpected, hs.minQpos, hs.qLen, ?_⟩, ?_, fun i hi => absurd (hnone i) hi,
    forall_mem_nil _⟩, fun i hi => absurd (hnone i) hi, .inl ⟨rfl, rfl⟩⟩
  · rw [← hs.prox]
    exact length_map _
  · show 0 = present (s.prox.map fun _ => uintMax)
    exact (countP_eq_zero.mpr (by simp)).symm

variable {dist : Nat}

theorem recompute_cleared (t : Proximity) (h : ExtHit) (hw : t.words = present t.prox) :
    ∃ b : Sweep, Cleared (asInt (plusInt h.pos (-(t.window : Int)))) t.prox 0
        { words := t.words, minQindex := (h.querypos - t.minQpos : Nat), minPos := h.pos } (recompute t h).prox b ∧
      (recompute t h).words = b.words ∧ (recompute t h).minQindex = b.minQindex ∧
      (recompute t h).expPos = ((recompute t h).prox.getD b.minQindex.toNat uintMax + t.window) % 2 ^ 32 :=
  ⟨_, sweep_spec _ t.prox 0 _ (le_of_eq hw.symm), rfl, rfl, rfl⟩

section Recompute
variable (hq : Query atoms dist) {t : Proximity} {h : ExtHit} (ht : Places atoms dist hits t) (hmem : h ∈ hits)
  (hh : ∀ g ∈ hits, g.hitpos < 2 ^ 32)
  (hhalf : SameHalf (Phrase.span atoms + dist) hits)
include hq ht hmem hh hhalf

/-- An entry stays exactly when it is within the window of the hit. -/
theorem Places.recompute_entry (i : Nat) :
    (recompute t h).entry i = if t.entry i + t.window ≤ h.pos then uintMax else t.entry i := by
  obtain ⟨b, hc, -⟩ := recompute_cleared t h ht.words
  rw [entry, hc.prox_eq, getD_map_kept, kept]
  by_cases hi : t.entry i = uintMax
  · have h32 := (Phrase.pos_lt (hh h hmem)).1
    rw [if_neg fun h => h.1 hi, if_neg]
    rw [hi, uintMax]
    omega
  · obtain ⟨g, hg, -, hgp⟩ := ht.sound i hi
    have hlate := late_iff hq.reach hhalf hg hmem (hh h hmem)
    rw [← ht.window_eq, hgp] at hlate
    exact if_congr ((and_iff_right hi).trans hlate) rfl rfl

theorem Places.recompute : Places atoms dist hits (recompute t h) := by
  have hget := ht.recompute_entry hq hmem hh hhalf
  obtain ⟨b, hc, hbw, -⟩ := recompute_cleared t h ht.words
  refine ⟨⟨ht.maxDistance, ht.wordsExpected, ht.minQpos, ht.qLen, ?_⟩, ?_, fun i hi => ?_, fun g hg => ?_⟩
  · rw [hc.prox_eq, length_map, ht.prox]
  · have hcount : b.words + present t.prox = t.words + present (Proximity.recompute t h).prox := hc.words
    have := ht.words
    omega
  · rw [hget] at hi ⊢
    split at hi
    · exact absurd rfl hi
    · rw [if_neg ‹_›]
      exact ht.sound i hi
  · rw [hget, show (Proximity.recompute t h).minQpos = t.minQpos from rfl]
    rcases ht.last g hg with ⟨hpres, hgle⟩ | hfar
    · by_cases hfar : t.entry (g.querypos - t.minQpos) + t.window ≤ h.pos
      · exact .inr ⟨h, hmem, Nat.le_trans (Nat.add_le_add_right hgle _) hfar⟩
      · exact .inl (by rw [if_neg hfar]; exact ⟨hpres, hgle⟩)
    · exact .inr hfar

/-- The first word is the one the sweep comes out with. -/
theorem Places.recompute_min (hown : t.entry (h.querypos - t.minQpos) = h.pos) :
    ∃ m : Nat, (Proximity.recompute t h).minQindex = m ∧ (Proximity.recompute t h).entry m ≠ uintMax ∧
      (Proximity.recompute t h).expPos = (Proximity.recompute t h).entry m + t.window ∧
      ∀ i, (Proximity.recompute t h).entry i ≠ uintMax → (Proximity.recompute t h).entry m ≤ (Proximity.recompute t h).entry i := by
  obtain ⟨b, hc, -, hbi, hbe⟩ := recompute_cleared t h ht.words
  have hwin := ht.window_eq
  have hreach := hq.reach
  have hspan := Phrase.span_pos hq.words
  obtain ⟨m, hm, hmp⟩ : ∃ m : Nat, b.minQindex = m ∧ (Proximity.recompute t h).entry m = b.minPos := by
    rcases hc.which with ⟨hi, hp⟩ | ⟨j, -, hi, hp, -⟩
    · refine ⟨_, hi, ?_⟩
      rw [ht.recompute_entry hq hmem hh hhalf, hown, if_neg (by omega)]
      exact hp.symm
    · exact ⟨j, by rw [← Nat.zero_add j]; exact hi, hp⟩
  have hmle : b.minPos ≤ h.pos := hc.min_le
  have hpos : h.pos < 2 ^ 32 - 2 ^ 23 := by
    unfold ExtHit.pos Hitman.getPosWithField
    have := hh h hmem
    omega
  refine ⟨m, hbi.trans hm, ?_, ?_, fun i hi => hmp ▸ hc.least _ ?_ hi⟩
  · rw [hmp, uintMax]
    omega
  · rw [hbe, hm, Int.toNat_natCast]
    refine Nat.mod_eq_of_lt ?_
    change (Proximity.recompute t h).entry m + t.window < 2 ^ 32
    omega
  · by_cases hil : i < (Proximity.recompute t h).prox.length
    · rw [entry, getD_eq_getElem _ _ hil]
      exact getElem_mem hil
    · exact absurd (getD_eq_default _ _ (Nat.le_of_not_lt hil)) hi

end Recompute

section Step
variable (hq : Query atoms dist) {seen : List ExtHit} {s : Proximity} {h : ExtHit}
  (hs : Follows atoms dist seen s) (hh : ∀ g ∈ seen ++ [h], g.hitpos < 2 ^ 32)
  (hhalf : SameHalf (Phrase.span atoms + dist) (seen ++ [h])) (hle : ∀ g ∈ seen, g.pos ≤ h.pos)
  (hword : ∀ g ∈ seen ++ [h], g.querypos ∈ atoms)

include hq in
theorem word_place {a : Nat} (ha : a ∈ atoms) : atoms.getD 0 0 ≤ a ∧ a - atoms.getD 0 0 < Phrase.span atoms + 1 := by
  obtain ⟨j, hj, rfl⟩ := mem_iff_getElem.mp ha
  rw [← getD_eq_getElem atoms 0 hj]
  have h1 := Phrase.word_le hq.words.asc (Nat.zero_le j) hj
  have h2 := Phrase.word_le hq.words.asc (Nat.le_sub_one_of_lt hj) (by omega)
  unfold Phrase.span Phrase.off
  omega

include hq hs hh hle hword in
/-- The table with the word of the hit, before anything is dropped. -/
theorem place_spec : Places atoms dist (seen ++ [h]) (place s h) ∧
    ∀ i, (place s h).entry i = if i = h.querypos - s.minQpos then h.pos else s.entry i := by
  have hmem : h ∈ seen ++ [h] := mem_append_right _ mem_cons_self
  obtain ⟨hge, hlt⟩ := word_place hq (hword h hmem)
  rw [← hs.minQpos] at hge hlt
  have hi : h.querypos - s.minQpos < s.prox.length := by rwa [hs.prox]
  have hne := pos_ne_max (hh h hmem)
  have hget : ∀ i, (place s h).entry i = if i = h.querypos - s.minQpos then h.pos else s.entry i :=
    Arrays.getD_set hi h.pos uintMax
  refine ⟨⟨⟨hs.maxDistance, hs.wordsExpected, hs.minQpos, hs.qLen, length_set.trans hs.prox⟩, ?_, ?_, ?_⟩, hget⟩
  · show (if _ then s.words + 1 else s.words) = present (s.prox.set _ _)
    rw [present_set hne hi, hs.words]
    split <;> rfl
  · intro i hi
    rw [hget] at hi ⊢
    by_cases hii : i = h.querypos - s.minQpos
    · rw [if_pos hii]
      exact ⟨h, hmem, (Nat.sub_eq_iff_eq_add' hge).mp hii.symm, rfl⟩
    · rw [if_neg hii] at hi ⊢
      obtain ⟨g, hg, hgq, hgp⟩ := hs.sound i hi
      exact ⟨g, mem_append_left _ hg, hgq, hgp⟩
  · intro g hg
    rw [hget, show (place s h).minQpos = s.minQpos from rfl]
    by_cases hii : g.querypos - s.minQpos = h.querypos - s.minQpos
    · rw [if_pos hii]
      refine .inl ⟨hne, ?_⟩
      rcases List.mem_append.mp hg with hg | hg
      · exact hle g hg
      · rw [mem_singleton.mp hg]
    · rw [if_neg hii]
      rcases List.mem_append.mp hg with hg | hg
      · rcases hs.last g hg with hlast | ⟨k, hk, hkw⟩
        · exact .inl hlast
        · exact .inr ⟨k, mem_append_left _ hk, hkw⟩
      · cases mem_singleton.mp hg
        exact absurd rfl hii

include hq hs hh hhalf hle hword in
/-- **The context follows the hits.** -/
theorem update_follows : Follows atoms dist (seen ++ [h]) (update s h) := by
  have hmem : h ∈ seen ++ [h] := mem_append_right _ mem_cons_self
  obtain ⟨hp, hget⟩ := place_spec hq hs hh hle hword
  have hall : ∀ k ∈ seen ++ [h], k.pos ≤ h.pos := by
    intro k hk
    rcases List.mem_append.mp hk with hk | hk
    · exact hle k hk
    · rw [mem_singleton.mp hk]
  unfold update
  by_cases hre : s.expPos ≤ h.pos ∨ ((h.querypos - s.minQpos : Nat) : Int) = s.minQindex
  · rw [if_pos hre]
    refine ⟨hp.recompute hq hmem hh hhalf, fun i hi k hk => ?_, .inr (hp.recompute_min hq hmem hh hhalf ?_)⟩
    · rw [hp.recompute_entry hq hmem hh hhalf] at hi ⊢
      split at hi
      · exact absurd rfl hi
      · rw [if_neg ‹_›]
        exact Nat.lt_of_le_of_lt (hall k hk) (Nat.lt_of_not_le ‹_›)
    · exact (hget _).trans (if_pos rfl)
  · -- the first word stays, and it is near enough
    rw [if_neg hre]
    rcases hs.min with ⟨-, hexp⟩ | ⟨m, hm, hmne, hexp, hleast⟩
    · exact absurd (Or.inl (hexp ▸ Nat.zero_le _)) hre
    have hm' : (place s h).entry m = s.entry m := by
      rw [hget, if_neg]
      rintro rfl
      exact hre (.inr hm.symm)
    have hlt : h.pos < s.entry m + s.window := by
      rw [← hexp]
      exact Nat.lt_of_not_le fun hle => hre (.inl hle)
    have hfirst : ∀ i, (place s h).entry i ≠ uintMax → s.entry m ≤ (place s h).entry i := by
      intro i hi
      rw [hget] at hi ⊢
      split at hi
      · rw [if_pos ‹_›]
        obtain ⟨g, hg, -, hgp⟩ := hs.sound m hmne
        rw [← hgp]
        exact hle g hg
      · rw [if_neg ‹_›]
        exact hleast i hi
    refine ⟨hp, fun i hi k hk => ?_, .inr ⟨m, hm, by rwa [hm'], by rw [hm']; exact hexp, fun i hi => ?_⟩⟩
    · exact Nat.lt_of_le_of_lt (hall k hk) (Nat.lt_of_lt_of_le hlt (Nat.add_le_add_right (hfirst i hi) _))
    · rw [hm']
      exact hfirst i hi

/-- A choice of one hit per word, all within the window. -/
def Close (atoms : List Nat) (w : Nat) (hits : List ExtHit) : Prop :=
  ∃ c : Nat → ExtHit, (∀ a ∈ atoms, c a ∈ hits ∧ (c a).querypos = a) ∧
    ∀ a ∈ atoms, ∀ b ∈ atoms, (c a).pos < (c b).pos + w

theorem Close.mono {w : Nat} {hits' : List ExtHit} (hc : Close atoms w hits) (hsub : hits ⊆ hits') :
    Close atoms w hits' := by
  obtain ⟨c, hmem, hnear⟩ := hc
  exact ⟨c, fun a ha => ⟨hsub (hmem a ha).1, (hmem a ha).2⟩, hnear⟩

include hq hs hword in
theorem words_iff : s.words = s.wordsExpected ↔ ∀ a ∈ atoms, s.entry (a - s.minQpos) ≠ uintMax := by
  rw [hs.words, hs.wordsExpected]
  refine present_eq_length_iff (hq.words.asc.imp ne_of_lt) (fun a ha => ?_) (fun a ha => ?_) fun i _ hi => ?_
  · rw [hs.minQpos]
    exact (word_place hq ha).1
  · rw [hs.minQpos, hs.prox]
    exact (word_place hq ha).2
  · obtain ⟨g, hg, hgq, -⟩ := hs.sound i hi
    rw [← hgq]
    exact hword g (mem_append_left _ hg)

include hq hs hh hhalf hle hword in
/-- **A hit is added iff it is the last of a choice within the window.** -/
theorem hitFSM_spec (hno : ¬ Close atoms (Phrase.span atoms + dist) seen) :
    (∃ s' f, s.hitFSM h = (s', some f) ∧ Close atoms (Phrase.span atoms + dist) (seen ++ [h])) ∨
      ∃ s', s.hitFSM h = (s', none) ∧ Follows atoms dist (seen ++ [h]) s' ∧
        ¬ Close atoms (Phrase.span atoms + dist) (seen ++ [h]) := by
  have hf := update_follows hq hs hh hhalf hle hword
  have hiff := words_iff (h := h) hq hf (by simpa using hword)
  have hwin := hf.window_eq
  by_cases hwords : (update s h).words = (update s h).wordsExpected
  · left
    refine ⟨_, _, by rw [hitFSM, if_neg (not_not.mpr hwords)], ?_⟩
    have hall := hiff.mp hwords
    have hplace : ∀ a ∈ atoms, ∃ g ∈ seen ++ [h], g.querypos = a ∧
        g.pos = (update s h).entry (a - (update s h).minQpos) := by
      intro a ha
      obtain ⟨g, hg, hgq, hgp⟩ := hf.sound _ (hall a ha)
      have := (word_place hq ha).1
      rw [← hf.minQpos] at this
      exact ⟨g, hg, by omega, hgp⟩
    choose! c hc using hplace
    refine ⟨c, fun a ha => ⟨(hc a ha).1, (hc a ha).2.1⟩, fun a ha b hb => ?_⟩
    rw [(hc b hb).2.2, ← hwin]
    exact hf.near _ (hall b hb) (c a) (hc a ha).1
  · right
    refine ⟨_, by rw [hitFSM, if_pos hwords], hf, ?_⟩
    rintro ⟨c, hmem, hnear⟩
    refine hwords (hiff.mpr fun a ha => ?_)
    -- the choice uses the hit, as there was none before
    have hlast : ∀ b ∈ atoms, h.pos < (c b).pos + (Phrase.span atoms + dist) := by
      by_contra hfar
      refine hno ⟨c, fun b hb => ⟨?_, (hmem b hb).2⟩, hnear⟩
      rcases List.mem_append.mp (hmem b hb).1 with hin | hin
      · exact hin
      · refine absurd (fun b' hb' => ?_) hfar
        rw [← mem_singleton.mp hin]
        exact hnear b hb b' hb'
    rcases hf.last (c a) (hmem a ha).1 with ⟨hpres, -⟩ | ⟨k, hk, hkw⟩
    · rwa [(hmem a ha).2] at hpres
    · have hkle : k.pos ≤ h.pos := by
        rcases List.mem_append.mp hk with hk | hk
        · exact hle k hk
        · rw [mem_singleton.mp hk]
      have := hlast a ha
      omega

end Step

/-! ## A document -/

section Document
variable (hq : Query atoms dist)
include hq

/-- **A document**: nothing is added, and no choice of hits is within the window, or a hit is added and there is one. -/
theorem run_spec {s₀ : Proximity} (hs₀ : Of atoms dist s₀) (hsorted : hits.Pairwise (·.pos ≤ ·.pos))
    (hh : ∀ h ∈ hits, h.hitpos < 2 ^ 32) (hword : ∀ h ∈ hits, h.querypos ∈ atoms)
    (hhalf : SameHalf (Phrase.span atoms + dist) hits) :
    ∃ s out, fsm.run s₀.resetFSM hits = some (s, out) ∧
      (out = [] ∧ Follows atoms dist hits s ∧ ¬ Close atoms (Phrase.span atoms + dist) hits ∨
        out ≠ [] ∧ Close atoms (Phrase.span atoms + dist) hits) := by
  induction hits using List.reverseRecOn with
  | nil =>
    refine ⟨_, [], rfl, .inl ⟨rfl, hs₀.follows_resetFSM, ?_⟩⟩
    rintro ⟨c, hmem, -⟩
    have htwo := hq.words.two
    exact not_mem_nil (hmem _ (getElem_mem (lt_of_lt_of_le Nat.zero_lt_two htwo))).1
  | append_singleton hits h ih =>
    have hsub : hits ⊆ hits ++ [h] := subset_append_left _ _
    obtain ⟨s, out, hrun, hcases⟩ := ih (pairwise_append.mp hsorted).1 (fun g hg => hh g (hsub hg))
      (fun g hg => hword g (hsub hg)) (hhalf.imp (fun hall g hg => hall g (hsub hg)) fun hall g hg => hall g (hsub hg))
    have hle : ∀ g ∈ hits, g.pos ≤ h.pos := fun g hg =>
      (pairwise_append.mp hsorted).2.2 g hg h mem_cons_self
    rw [Fsm.run_snoc hrun]
    show ∃ s' out', some ((s.hitFSM h).1, out ++ (s.hitFSM h).2.toList) = some (s', out') ∧ _
    rcases hcases with ⟨rfl, hfol, hno⟩ | ⟨hne, hclose⟩
    · rcases hitFSM_spec hq hfol hh hhalf hle hword hno with ⟨s', f, heq, hclose⟩ | ⟨s', heq, hfol', hno'⟩
      · rw [heq]
        exact ⟨s', [f], rfl, .inr ⟨cons_ne_nil _ _, hclose⟩⟩
      · rw [heq]
        exact ⟨s', [], rfl, .inl ⟨rfl, hfol', hno'⟩⟩
    · exact ⟨_, _, rfl, .inr ⟨fun hnil => hne (append_eq_nil_iff.mp hnil).1, hclose.mono hsub⟩⟩

/-- Hits within the window are in one field: it is too short to reach over the end of a field. -/
theorem close_iff_field (hh : ∀ h ∈ hits, h.hitpos < 2 ^ 32) :
    Close atoms (Phrase.span atoms + dist) hits ↔ ∃ field, ∃ c : Nat → ExtHit,
      (∀ a ∈ atoms, c a ∈ hits ∧ (c a).querypos = a ∧ Hitman.getField (c a).hitpos = field) ∧
      ∀ a ∈ atoms, ∀ b ∈ atoms, (c a).pos < (c b).pos + (Phrase.span atoms + dist) := by
  constructor
  · rintro ⟨c, hmem, hnear⟩
    have hreach := hq.reach
    have hfirst : atoms.getD 0 0 ∈ atoms := by
      have htwo := hq.words.two
      rw [getD_eq_getElem _ _ (lt_of_lt_of_le Nat.zero_lt_two htwo)]
      exact getElem_mem _
    refine ⟨Hitman.getField (c (atoms.getD 0 0)).hitpos, c, fun a ha => ⟨(hmem a ha).1, (hmem a ha).2, ?_⟩, hnear⟩
    have h1 := hnear a ha _ hfirst
    have h2 := hnear _ hfirst a ha
    have hlow := (Phrase.pos_lt (hh _ (hmem a ha).1)).2
    have hlow₀ := (Phrase.pos_lt (hh _ (hmem _ hfirst).1)).2
    rw [← Hitman.getField_getPosWithField, ← Hitman.getField_getPosWithField (c (atoms.getD 0 0)).hitpos]
    change (c a).pos / 2 ^ 24 = (c (atoms.getD 0 0)).pos / 2 ^ 24
    omega
  · rintro ⟨field, c, hmem, hnear⟩
    exact ⟨c, fun a ha => ⟨(hmem a ha).1, (hmem a ha).2.1⟩, hnear⟩

end Document

/-- **A hit is added iff some field has all words within the window**: one hit of each word, any two of them less than the
query's length plus the distance apart. -/
theorem proximity_exact {dist : Nat} (hq : Query atoms dist) {s₀ : Proximity} (hs₀ : Of atoms dist s₀)
    {hits : List ExtHit} (hsorted : hits.Pairwise (·.pos ≤ ·.pos)) (hh : ∀ h ∈ hits, h.hitpos < 2 ^ 32)
    (hword : ∀ h ∈ hits, h.querypos ∈ atoms) (hhalf : SameHalf (Phrase.span atoms + dist) hits) :
    ∃ s out, fsm.run s₀.resetFSM hits = some (s, out) ∧ (out ≠ [] ↔ ∃ field, ∃ c : Nat → ExtHit,
      (∀ a ∈ atoms, c a ∈ hits ∧ (c a).querypos = a ∧ Hitman.getField (c a).hitpos = field) ∧
      ∀ a ∈ atoms, ∀ b ∈ atoms, (c a).pos < (c b).pos + (Phrase.span atoms + dist)) := by
  obtain ⟨s, out, hrun, hcases⟩ := run_spec hq hs₀ hsorted hh hword hhalf
  refine ⟨s, out, hrun, ?_⟩
  rw [← close_iff_field hq hh]
  rcases hcases with ⟨rfl, -, hno⟩ | ⟨hne, hclose⟩
  · exact iff_of_false (fun hne => hne rfl) hno
  · exact iff_of_true hne hclose

/-- The document `b a` for the query `"a b"~1`, in field 3. -/
def swapped : List ExtHit :=
  [(1, 2), (2, 1)].map fun x => { rowID := 1, hitpos := 3 * 2 ^ 24 + x.1, querypos := x.2, nodepos := 0 }

/-- **`b a` matches `"a b"~1`**, though the words, each less its offset in the query, are at 0 and 2. -/
theorem proximity_ignores_offsets : (∃ s f, fsm.run (create [1, 2] 1 false).resetFSM swapped = some (s, [f])) ∧
    ¬ ∃ c : Nat → ExtHit, (∀ a ∈ [1, 2], c a ∈ swapped ∧ (c a).querypos = a) ∧
      ∀ a ∈ [1, 2], ∀ b ∈ [1, 2], ((c a).pos : Int) - (a - 1) - ((c b).pos - (b - 1)) ≤ 1 := by
  refine ⟨⟨_, _, rfl⟩, ?_⟩
  rintro ⟨c, hmem, hspan⟩
  have hpos : ∀ g ∈ swapped, g.querypos = 1 ∧ g.pos = 3 * 2 ^ 24 + 2 ∨ g.querypos = 2 ∧ g.pos = 3 * 2 ^ 24 + 1 := by decide
  obtain ⟨h1, hq1⟩ := hmem 1 (by decide)
  obtain ⟨h2, hq2⟩ := hmem 2 (by decide)
  have := hspan 1 (by decide) 2 (by decide)
  have := hpos _ h1
  have := hpos _ h2
  omega

theorem proximity_exact_swapped : ∃ s out, fsm.run (create [1, 2] 1 false).resetFSM swapped = some (s, out) ∧
    (out ≠ [] ↔ ∃ field, ∃ c : Nat → ExtHit,
      (∀ a ∈ [1, 2], c a ∈ swapped ∧ (c a).querypos = a ∧ Hitman.getField (c a).hitpos = field) ∧
      ∀ a ∈ [1, 2], ∀ b ∈ [1, 2], (c a).pos < (c b).pos + (Phrase.span [1, 2] + 1)) :=
  proximity_exact ⟨⟨by decide, by decide, by decide⟩, by decide⟩ (of_create _ _ _) (by decide) (by decide) (by decide)
    (.inl (by decide))

end Proximity
end NWay
end Manticore

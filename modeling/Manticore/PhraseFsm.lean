import Manticore.Arrays
import Manticore.NWay
/-!
# PhraseFsm — the phrase automaton (`FSMphrase_c`)

A phrase is the list of the atom positions of its words, which ascend but need not be consecutive (skipped stopwords
leave gaps).  The automaton keeps a set of half-matched phrases: the last word matched and the position at which the
next one is expected.  A hit of the first word opens a state; a hit drops the states it has passed and moves on those that
expect it.  The first state to reach the last word is reported, and all of them are dropped (`ResetFSM`).
-/
namespace Manticore
namespace NWay
open List

/-- `FSMphrase_c::State_t` -/
structure PhraseState where
  tagQword : Nat
  expHitposWithField : Nat
  deriving DecidableEq, Repr, Inhabited

/-- `FSMphrase_c` -/
structure Phrase where
  atomPos : List Nat
  qposDelta : List Int
  qposMask : Nat
  states : List PhraseState := []
  deriving DecidableEq, Repr

/-- `uHitposWithField + iDelta`, a DWORD. -/
def plusInt (pos : Nat) (delta : Int) : Nat := ((pos + delta) % 2 ^ 32).toNat

/-- `GetQposMask` -/
def getQposMask (atoms : List Nat) : Nat :=
  atoms.foldl (fun mask qpos => if qpos < 0x1f then mask ||| 2 ^ qpos else mask) 0

namespace Phrase
open Arrays (removeFast removeFast_append)

def intMax : Int := 2 ^ 31 - 1

/-- `m_dQposDelta`: by the offset of a word, how far the next word is. -/
def qposDeltas (atoms : List Nat) : List Int :=
  (List.range (atoms.length - 1)).foldl
    (fun d i => d.set (atoms.getD i 0 - atoms.getD 0 0) (atoms.getD (i + 1) 0 - atoms.getD i 0))
    (List.replicate (atoms.getD (atoms.length - 1) 0 - atoms.getD 0 0 + 1) (-intMax))

/-- The constructor, for words at the given atom positions. -/
def create (atoms : List Nat) (setQposMask : Bool) : Phrase where
  atomPos := atoms
  qposDelta := qposDeltas atoms
  qposMask := if setQposMask then getQposMask atoms else 0

def resetFSM (s : Phrase) : Phrase := { s with states := [] }

/-- "get next state" -/
def next (s : Phrase) (h : ExtHit) (x : PhraseState) : PhraseState :=
  if x.expHitposWithField = h.pos ∧ s.atomPos.getD (x.tagQword + 1) 0 = h.querypos then
    { tagQword := x.tagQword + 1
      expHitposWithField := plusInt h.pos (s.qposDelta.getD (h.querypos - s.atomPos.getD 0 0) 0) }
  else x

/-- The loop over the states, from the last one down; `none` is a match. -/
def scan (s : Phrase) (h : ExtHit) : Nat → List PhraseState → Option (List PhraseState)
  | 0, states => some states
  | i + 1, states =>
    if (states.getD i default).expHitposWithField < h.pos then scan s h i (removeFast states i)
    else if (next s h (states.getD i default)).tagQword = s.atomPos.length - 1 then none
    else scan s h i (states.set i (next s h (states.getD i default)))

/-- The states with the one that a hit of the first word opens. -/
def opened (s : Phrase) (h : ExtHit) : List PhraseState :=
  if h.querypos = s.atomPos.getD 0 0 then
    s.states ++ [{ tagQword := 0, expHitposWithField := plusInt h.pos (s.qposDelta.getD 0 0) }]
  else s.states

/-- `m_dAtomPos.Last() - m_dAtomPos[0]` -/
def spanlen (s : Phrase) : Nat := s.atomPos.getD (s.atomPos.length - 1) 0 - s.atomPos.getD 0 0

/-- The hit made of a phrase whose last word is `h`. -/
def fold (s : Phrase) (h : ExtHit) : FoldedHit where
  rowID := h.rowID
  hitpos := plusInt h.pos (-s.spanlen)
  querypos := s.atomPos.getD 0 0 % 2 ^ 16
  spanlen := (s.spanlen + 1) % 2 ^ 16
  matchlen := (s.spanlen + 1) % 2 ^ 16
  weight := s.atomPos.length
  qposMask := s.qposMask

/-- `FSMphrase_c::HitFSM` -/
def hitFSM (s : Phrase) (h : ExtHit) : Phrase × Option FoldedHit :=
  match scan s h (opened s h).length (opened s h) with
  | none => (s.resetFSM, some (s.fold h))
  | some states => ({ s with states }, none)

/-- The phrase automaton. -/
def fsm : Fsm Phrase := ⟨resetFSM, fun s h => some (s.hitFSM h)⟩

/-! ## The deltas -/

variable {i j : Nat}

theorem getD_set_ne {l : List Int} (h : i ≠ j) (v d : Int) : (l.set i v).getD j d = l.getD j d := by
  rw [getD_eq_getElem?_getD, getD_eq_getElem?_getD, getElem?_set_ne h]

variable {atoms : List Nat} {hits : List ExtHit}

section Deltas
variable (hasc : atoms.Pairwise (· < ·)) {pre : List ExtHit}

include hasc

theorem word_le (hij : i ≤ j) (hj : j < atoms.length) : atoms.getD i 0 ≤ atoms.getD j 0 := by
  rcases lt_or_eq_of_le hij with hlt | rfl
  · exact le_of_lt (Arrays.getD_lt_getD hasc hlt hj)
  · exact le_refl _

theorem getD_qposDeltas (hj : j + 1 < atoms.length) :
    (qposDeltas atoms).getD (atoms.getD j 0 - atoms.getD 0 0) 0 = atoms.getD (j + 1) 0 - atoms.getD j 0 := by
  -- the entries are written in ascending order, each at its own offset
  have hrun : ∀ n, n ≤ atoms.length - 1 → ∀ d : List Int,
      d.length = atoms.getD (atoms.length - 1) 0 - atoms.getD 0 0 + 1 →
      (∀ i, i < n → ((List.range n).foldl
        (fun d i => d.set (atoms.getD i 0 - atoms.getD 0 0) (atoms.getD (i + 1) 0 - atoms.getD i 0)) d).getD
          (atoms.getD i 0 - atoms.getD 0 0) 0 = atoms.getD (i + 1) 0 - atoms.getD i 0) ∧
      ((List.range n).foldl
        (fun d i => d.set (atoms.getD i 0 - atoms.getD 0 0) (atoms.getD (i + 1) 0 - atoms.getD i 0)) d).length =
          atoms.getD (atoms.length - 1) 0 - atoms.getD 0 0 + 1 := by
    intro n
    induction n with
    | zero => exact fun _ d hd => ⟨fun i hi => absurd hi (Nat.not_lt_zero i), hd⟩
    | succ n ih =>
      intro hn d hd
      obtain ⟨hget, hlen⟩ := ih (by omega) d hd
      rw [range_succ, foldl_append, foldl_cons, foldl_nil]
      refine ⟨fun i hi => ?_, by rw [length_set]; exact hlen⟩
      have hfirst := word_le hasc (Nat.zero_le i) (by omega)
      rcases Nat.lt_or_eq_of_le (Nat.le_of_lt_succ hi) with hlt | rfl
      · have hword := Arrays.getD_lt_getD hasc hlt (by omega)
        rw [getD_set_ne (by omega)]
        exact hget i hlt
      · have hend := word_le hasc (Nat.le_sub_one_of_lt (by omega : i < atoms.length)) (by omega)
        rw [getD_eq_getElem _ _ (by rw [length_set, hlen]; omega), getElem_set_self]
  exact (hrun (atoms.length - 1) (Nat.le_refl _) _ length_replicate).1 j (by omega)

end Deltas

/-! ## The loop over the states -/

variable {s : Phrase} {h : ExtHit}

section Scan
/-- A state that the hit has not passed reaches the last word. -/
def Completes (s : Phrase) (h : ExtHit) (x : PhraseState) : Prop :=
  h.pos ≤ x.expHitposWithField ∧ (next s h x).tagQword = s.atomPos.length - 1

theorem scan_match : ∀ (a b : List PhraseState), (∃ x ∈ a, Completes s h x) → scan s h a.length (a ++ b) = none := by
  intro a
  induction a using List.reverseRecOn with
  | nil =>
    rintro b ⟨x, hx, -⟩
    cases hx
  | append_singleton a y ih =>
    rintro b ⟨x, hx, hle, htag⟩
    have hget : (a ++ [y] ++ b).getD a.length default = y := by simp
    rw [length_append, length_singleton, scan, hget]
    rcases List.mem_append.mp hx with hx | hx
    · split
      · obtain ⟨b', hb', -⟩ := removeFast_append a b y
        rw [append_assoc, singleton_append, hb']
        exact ih b' ⟨x, hx, hle, htag⟩
      split
      · rfl
      · rw [append_assoc, set_append_right _ _ (le_refl _), Nat.sub_self]
        exact ih _ ⟨x, hx, hle, htag⟩
    · cases mem_singleton.mp hx
      rw [if_neg (Nat.not_lt_of_le hle), if_pos htag]

theorem scan_go : ∀ (a b : List PhraseState), (∀ x ∈ a, ¬ Completes s h x) → ∃ c, scan s h a.length (a ++ b) = some c ∧
      c.Perm (((a.filter fun x => h.pos ≤ x.expHitposWithField).map (next s h)) ++ b) := by
  intro a
  induction a using List.reverseRecOn with
  | nil => exact fun b _ => ⟨b, rfl, .refl _⟩
  | append_singleton a y ih =>
    intro b hno
    have hget : (a ++ [y] ++ b).getD a.length default = y := by simp
    have hno' : ∀ x ∈ a, ¬ Completes s h x := (forall_mem_append.mp hno).1
    rw [length_append, length_singleton, scan, hget]
    by_cases hlt : y.expHitposWithField < h.pos
    · obtain ⟨b', hb', hperm⟩ := removeFast_append a b y
      obtain ⟨c, hc, hcp⟩ := ih b' hno'
      refine ⟨c, ?_, hcp.trans ?_⟩
      · rw [if_pos hlt, append_assoc, singleton_append, hb']
        exact hc
      · rw [filter_append, filter_cons_of_neg (by simpa using hlt), filter_nil, append_nil]
        exact hperm.append_left _
    · obtain ⟨c, hc, hcp⟩ := ih (next s h y :: b) hno'
      have hny : ¬ (next s h y).tagQword = s.atomPos.length - 1 := fun htag =>
        hno y (mem_append_right _ mem_cons_self) ⟨Nat.le_of_not_lt hlt, htag⟩
      refine ⟨c, ?_, hcp.trans ?_⟩
      · rw [if_neg hlt, if_neg hny, append_assoc, set_append_right _ _ (le_refl _), Nat.sub_self]
        exact hc
      · rw [filter_append, filter_cons_of_pos (by simpa using hlt), filter_nil, map_append,
          append_assoc]
        exact .refl _

/-- **`HitFSM`, by what the hit does to the states**: one of them reaches the last word, or those not passed move on. -/
theorem hitFSM_match (hx : ∃ x ∈ opened s h, Completes s h x) : s.hitFSM h = (s.resetFSM, some (s.fold h)) := by
  have := scan_match (opened s h) [] hx
  rw [append_nil] at this
  rw [hitFSM, this]

theorem hitFSM_go (hno : ∀ x ∈ opened s h, ¬ Completes s h x) : ∃ states, s.hitFSM h = ({ s with states }, none) ∧
      ∀ y, y ∈ states ↔ ∃ x ∈ opened s h, h.pos ≤ x.expHitposWithField ∧ y = next s h x := by
  obtain ⟨c, hc, hperm⟩ := scan_go (opened s h) [] hno
  rw [append_nil] at hc hperm
  refine ⟨c, by rw [hitFSM, hc], fun y => ?_⟩
  rw [hperm.mem_iff, mem_map]
  constructor
  · rintro ⟨x, hx, rfl⟩
    obtain ⟨hx, hle⟩ := mem_filter.mp hx
    exact ⟨x, hx, of_decide_eq_true hle, rfl⟩
  · rintro ⟨x, hx, hle, rfl⟩
    exact ⟨x, mem_filter.mpr ⟨hx, decide_eq_true hle⟩, rfl⟩

end Scan

/-! ## Occurrences -/

/-- The offset of a word within the phrase. -/
def off (atoms : List Nat) (j : Nat) : Nat := atoms.getD j 0 - atoms.getD 0 0

/-- A hit of the word at atom position `q`, at position `p`. -/
def Has (hits : List ExtHit) (p q : Nat) : Prop := ∃ g ∈ hits, g.pos = p ∧ g.querypos = q

/-- The words up to the `k`-th stand in place, the first at `p`. -/
def Begun (atoms : List Nat) (hits : List ExtHit) (p k : Nat) : Prop :=
  ∀ j ≤ k, Has hits (p + off atoms j) (atoms.getD j 0)

/-- What a phrase node is made of: two words or more, at ascending atom positions that fit a WORD. -/
structure Words (atoms : List Nat) : Prop where
  two : 2 ≤ atoms.length
  asc : atoms.Pairwise (· < ·)
  word : ∀ a ∈ atoms, a < 2 ^ 16

variable {p : Nat}

theorem Has.mono {hits' : List ExtHit} {q : Nat} (h : Has hits p q) (hsub : hits ⊆ hits') : Has hits' p q := by
  obtain ⟨g, hg, hgp⟩ := h
  exact ⟨g, hsub hg, hgp⟩

theorem Begun.mono {hits' : List ExtHit} {k : Nat} (h : Begun atoms hits p k)
    (hsub : hits ⊆ hits') : Begun atoms hits' p k := fun j hj => (h j hj).mono hsub

theorem off_zero (atoms : List Nat) : off atoms 0 = 0 := Nat.sub_self _

section Words
variable (hw : Words atoms) {p k : Nat}
include hw

theorem off_lt (hij : i < j) (hj : j < atoms.length) : off atoms i < off atoms j := by
  have h1 := Arrays.getD_lt_getD hw.asc hij hj
  have h2 := word_le hw.asc (Nat.zero_le i) (Nat.lt_trans hij hj)
  unfold off
  omega

theorem off_word (hj : j < atoms.length) : off atoms j < 2 ^ 16 := by
  have := hw.word (atoms.getD j 0) (by rw [getD_eq_getElem atoms 0 hj]; exact getElem_mem hj)
  unfold off
  omega

/-- A hit at the far end of what has been seen can only be the last of the words in place. -/
theorem begun_snoc (hk : k < atoms.length) (hle : ∀ g ∈ hits, g.pos ≤ h.pos) (hnew : Begun atoms (hits ++ [h]) p k)
    (hold : ¬ Begun atoms hits p k) : h.pos = p + off atoms k ∧ h.querypos = atoms.getD k 0 ∧
      ¬ Has hits (p + off atoms k) (atoms.getD k 0) ∧ ∀ j < k, Has hits (p + off atoms j) (atoms.getD j 0) := by
  have hlast : h.pos = p + off atoms k ∧ h.querypos = atoms.getD k 0 := by
    by_contra hne
    refine hold fun j hj => ?_
    obtain ⟨g, hg, hgp, hgq⟩ := hnew j hj
    rcases List.mem_append.mp hg with hg | hg
    · exact ⟨g, hg, hgp, hgq⟩
    cases mem_singleton.mp hg
    rcases lt_or_eq_of_le hj with hlt | rfl
    · -- the last word in place would stand after the hit
      obtain ⟨g', hg', hgp', -⟩ := hnew k (le_refl _)
      have hoff := off_lt hw hlt hk
      rcases List.mem_append.mp hg' with hg' | hg'
      · have := hle g' hg'
        omega
      · cases mem_singleton.mp hg'
        omega
    · exact absurd ⟨hgp, hgq⟩ hne
  have hbefore : ∀ j < k, Has hits (p + off atoms j) (atoms.getD j 0) := by
    intro j hj
    obtain ⟨g, hg, hgp, hgq⟩ := hnew j (le_of_lt hj)
    rcases List.mem_append.mp hg with hg | hg
    · exact ⟨g, hg, hgp, hgq⟩
    · cases mem_singleton.mp hg
      have := off_lt hw hj hk
      omega
  refine ⟨hlast.1, hlast.2, fun hhas => hold fun j hj => ?_, hbefore⟩
  rcases lt_or_eq_of_le hj with hlt | rfl
  · exact hbefore j hlt
  · exact hhas

end Words

/-! ## One hit -/

/-- The automaton of a phrase, in any state. -/
structure Of (atoms : List Nat) (s : Phrase) : Prop where
  atomPos : s.atomPos = atoms
  qposDelta : s.qposDelta = qposDeltas atoms

/-- **What the states stand for**: exactly the phrases begun in the hits `seen` since the last reset that may go on. -/
structure Tracks (atoms : List Nat) (seen : List ExtHit) (s : Phrase) : Prop extends Of atoms s where
  sound : ∀ x ∈ s.states, x.tagQword + 1 < atoms.length ∧
    ∃ p, x.expHitposWithField = p + off atoms (x.tagQword + 1) ∧ Begun atoms seen p x.tagQword
  complete : ∀ p k, k + 1 < atoms.length → Begun atoms seen p k →
    ¬ Has seen (p + off atoms (k + 1)) (atoms.getD (k + 1) 0) → (∀ g ∈ seen, g.pos ≤ p + off atoms (k + 1)) →
    ⟨k, p + off atoms (k + 1)⟩ ∈ s.states
  fresh : ∀ p, ¬ Begun atoms seen p (atoms.length - 1)

theorem Of.tracks_resetFSM (hs : Of atoms s) : Tracks atoms [] s.resetFSM := by
  have hno : ∀ p k, ¬ Begun atoms [] p k := fun p k hb => by
    obtain ⟨g, hg, -⟩ := hb 0 (Nat.zero_le k)
    cases hg
  refine ⟨⟨hs.atomPos, hs.qposDelta⟩, ?_, fun p k _ hb => absurd hb (hno p k), fun p => hno p _⟩
  intro x hx
  cases hx

theorem pos_lt (hh : h.hitpos < 2 ^ 32) : h.pos + 2 ^ 16 < 2 ^ 32 ∧ h.pos % 2 ^ 24 < 2 ^ 23 := by
  unfold ExtHit.pos Hitman.getPosWithField
  omega

variable {x : PhraseState}

section Step
variable (hw : Words atoms) {seen : List ExtHit} (hs : Tracks atoms seen s)
  (hh : h.hitpos < 2 ^ 32) (hle : ∀ g ∈ seen, g.pos ≤ h.pos)

include hw hs in
theorem opened_eq (hh : h.hitpos < 2 ^ 32) : opened s h = if h.querypos = atoms.getD 0 0 then
    s.states ++ [{ tagQword := 0, expHitposWithField := h.pos + off atoms 1 }] else s.states := by
  have hdelta := getD_qposDeltas hw.asc (j := 0) (lt_of_lt_of_le (by decide) hw.two)
  have hoff : off atoms 1 = atoms.getD 1 0 - atoms.getD 0 0 := rfl
  have hword := off_word hw (j := 1) (lt_of_lt_of_le (by decide) hw.two)
  have hlt := Arrays.getD_lt_getD hw.asc (i := 0) (j := 1) (by decide) (lt_of_lt_of_le (by decide) hw.two)
  have hpos := (pos_lt hh).1
  rw [Nat.sub_self, zero_add] at hdelta
  have hexp : plusInt h.pos (s.qposDelta.getD 0 0) = h.pos + off atoms 1 := by
    rw [hs.qposDelta, hdelta, plusInt]
    omega
  rw [opened, hs.atomPos, hexp]

include hw hs in
/-- A state that expects the hit moves on to the next word, any other stays. -/
theorem next_eq (hh : h.hitpos < 2 ^ 32) {k : Nat} (hk : k + 2 < atoms.length) (hpos : h.pos = p + off atoms (k + 1))
    (hq : h.querypos = atoms.getD (k + 1) 0) : next s h ⟨k, h.pos⟩ = ⟨k + 1, p + off atoms (k + 2)⟩ := by
  have hdelta := getD_qposDeltas hw.asc (j := k + 1) hk
  have h0 := word_le hw.asc (Nat.zero_le (k + 1)) (by omega)
  have hlt : atoms.getD (k + 1) 0 < atoms.getD (k + 1 + 1) 0 := Arrays.getD_lt_getD hw.asc (Nat.lt_succ_self (k + 1)) hk
  have hword := off_word hw hk
  have hoff : off atoms (k + 2) = atoms.getD (k + 1 + 1) 0 - atoms.getD 0 0 := rfl
  have hp := (pos_lt hh).1
  have hexp : plusInt h.pos (s.qposDelta.getD (h.querypos - s.atomPos.getD 0 0) 0) = p + off atoms (k + 2) := by
    rw [hs.qposDelta, hs.atomPos, hq, hdelta, plusInt]
    rw [off] at hpos
    omega
  rw [next, if_pos ⟨rfl, by rw [hs.atomPos, hq]⟩, hexp]

theorem next_of_ne (hx : ¬ (x.expHitposWithField = h.pos ∧ s.atomPos.getD (x.tagQword + 1) 0 = h.querypos)) :
    next s h x = x := if_neg hx

include hw hs hh in
/-- What `opened` adds is a phrase begun at the hit, and expects nothing at its position. -/
theorem opened_cases (hx : x ∈ opened s h) :
    x ∈ s.states ∨ h.querypos = atoms.getD 0 0 ∧ x = ⟨0, h.pos + off atoms 1⟩ ∧ h.pos < x.expHitposWithField := by
  rw [opened_eq hw hs hh] at hx
  split at hx
  · rcases List.mem_append.mp hx with hx | hx
    · exact .inl hx
    · cases mem_singleton.mp hx
      have := off_lt hw (i := 0) (j := 1) (by decide) (lt_of_lt_of_le (by decide) hw.two)
      exact .inr ⟨‹_›, rfl, by rw [off_zero] at this; exact Nat.lt_add_of_pos_right this⟩
  · exact .inl hx

include hw hs hh in
/-- A state reaches the last word exactly when the hit completes the phrase. -/
theorem begun_of_completes (hx : x ∈ opened s h) (hc : Completes s h x) :
    ∃ p, Begun atoms (seen ++ [h]) p (atoms.length - 1) := by
  have htwo := hw.two
  obtain ⟨hle, htag⟩ := hc
  rw [hs.atomPos] at htag
  by_cases hadv : x.expHitposWithField = h.pos ∧ s.atomPos.getD (x.tagQword + 1) 0 = h.querypos
  · rcases opened_cases hw hs hh hx with hx | ⟨-, -, hlt⟩
    · obtain ⟨hk, p, hexp, hb⟩ := hs.sound x hx
      have htag' : x.tagQword + 1 = atoms.length - 1 := by rwa [next, if_pos hadv] at htag
      refine ⟨p, fun j hj => ?_⟩
      rcases lt_or_eq_of_le hj with hlt | rfl
      · exact (hb j (by omega)).mono (subset_append_left _ _)
      · rw [← htag']
        refine ⟨h, mem_append_right _ mem_cons_self, hadv.1.symm.trans hexp, ?_⟩
        rw [← hadv.2, hs.atomPos]
    · exact absurd hadv.1 (Nat.ne_of_gt hlt)
  · rw [next_of_ne hadv] at htag
    rcases opened_cases hw hs hh hx with hx | ⟨-, rfl, -⟩
    · obtain ⟨hk, -⟩ := hs.sound x hx
      omega
    · have : 0 = atoms.length - 1 := htag
      omega

include hw hs hh hle in
/-- **A hit that completes the phrase is reported.** -/
theorem hitFSM_completes (hb : Begun atoms (seen ++ [h]) p (atoms.length - 1)) :
    s.hitFSM h = (s.resetFSM, some (s.fold h)) ∧ h.pos = p + off atoms (atoms.length - 1) ∧
      h.querypos = atoms.getD (atoms.length - 1) 0 := by
  have htwo := hw.two
  obtain ⟨hpos, hq, hnot, hbefore⟩ := begun_snoc hw (by omega) hle hb (hs.fresh p)
  have hlast : atoms.length - 2 + 1 = atoms.length - 1 := by omega
  refine ⟨hitFSM_match ⟨⟨atoms.length - 2, h.pos⟩, ?_, le_refl _, ?_⟩, hpos, hq⟩
  · have hmem := hs.complete p (atoms.length - 2) (by omega) (fun j hj => hbefore j (by omega)) (by rwa [hlast])
      (by rw [hlast, ← hpos]; exact hle)
    rw [hlast, ← hpos] at hmem
    rw [opened_eq hw hs hh]
    split
    · exact mem_append_left _ hmem
    · exact hmem
  · have hnext : s.atomPos.getD (atoms.length - 2 + 1) 0 = h.querypos := by rw [hs.atomPos, hq, hlast]
    rw [next, if_pos ⟨rfl, hnext⟩, hs.atomPos]
    exact hlast

include hw hs hh hle in
/-- **Any other hit is followed up.** -/
theorem hitFSM_tracks (hno : ∀ p, ¬ Begun atoms (seen ++ [h]) p (atoms.length - 1)) :
    ∃ s', s.hitFSM h = (s', none) ∧ Tracks atoms (seen ++ [h]) s' := by
  have htwo := hw.two
  obtain ⟨states, heq, hmem⟩ := hitFSM_go (s := s) (h := h) fun x hx hc => by
    obtain ⟨p, hp⟩ := begun_of_completes hw hs hh hx hc
    exact hno p hp
  refine ⟨_, heq, ⟨hs.atomPos, hs.qposDelta⟩, ?_, ?_, hno⟩
  · intro y hy
    obtain ⟨x, hx, hxle, rfl⟩ := (hmem y).mp hy
    rcases opened_cases hw hs hh hx with hx | ⟨hq, rfl, hlt⟩
    · obtain ⟨hk, p, hexp, hb⟩ := hs.sound x hx
      by_cases hadv : x.expHitposWithField = h.pos ∧ s.atomPos.getD (x.tagQword + 1) 0 = h.querypos
      · have hq : h.querypos = atoms.getD (x.tagQword + 1) 0 := by rw [← hadv.2, hs.atomPos]
        have hnew : Begun atoms (seen ++ [h]) p (x.tagQword + 1) := by
          intro j hj
          rcases lt_or_eq_of_le hj with hlt | rfl
          · exact (hb j (Nat.le_of_lt_succ hlt)).mono (subset_append_left _ _)
          · exact ⟨h, mem_append_right _ mem_cons_self, hadv.1.symm.trans hexp, hq⟩
        have hk2 : x.tagQword + 2 < atoms.length := by
          by_contra hge
          refine hno p ?_
          rwa [show atoms.length - 1 = x.tagQword + 1 by omega]
        have hx' : x = ⟨x.tagQword, h.pos⟩ := by rw [← hadv.1]
        rw [hx', next_eq hw hs hh hk2 (hadv.1.symm.trans hexp) hq]
        exact ⟨hk2, p, rfl, hnew⟩
      · rw [next_of_ne hadv]
        exact ⟨hk, p, hexp, hb.mono (subset_append_left _ _)⟩
    · rw [next_of_ne fun hadv => Nat.ne_of_gt hlt hadv.1]
      refine ⟨by show 0 + 1 < _; omega, h.pos, rfl, fun j hj => ?_⟩
      cases Nat.le_zero.mp hj
      exact ⟨h, mem_append_right _ mem_cons_self, by rw [off_zero, add_zero], hq⟩
  · intro p k hk hb hnot hall
    have hpos := hall h (mem_append_right _ mem_cons_self)
    have hopen : ∀ x ∈ s.states, x ∈ opened s h := by
      intro x hx
      rw [opened_eq hw hs hh]
      split
      · exact mem_append_left _ hx
      · exact hx
    refine (hmem _).mpr ?_
    by_cases hold : Begun atoms seen p k
    · -- a phrase begun before: the hit is not its next word
      refine ⟨_, hopen _ (hs.complete p k hk hold (fun hn => hnot (hn.mono (subset_append_left _ _)))
        (forall_mem_append.mp hall).1), hpos, (next_of_ne fun hadv => hnot ?_).symm⟩
      refine ⟨h, mem_append_right _ mem_cons_self, hadv.1.symm, ?_⟩
      rw [← hadv.2, hs.atomPos]
    · obtain ⟨hp, hq, hnot', hbefore⟩ := begun_snoc hw (by omega) hle hb hold
      rcases eq_zero_or_pos k with rfl | hk0
      · rw [off_zero, add_zero] at hp
        have hmem0 : (⟨0, h.pos + off atoms 1⟩ : PhraseState) ∈ opened s h := by
          rw [opened_eq hw hs hh, if_pos hq]
          exact mem_append_right _ mem_cons_self
        have hlt := off_lt hw (i := 0) (j := 1) (by decide) (by omega)
        rw [off_zero] at hlt
        refine ⟨_, hmem0, Nat.le_add_right _ _, ?_⟩
        rw [next_of_ne fun hadv => absurd hadv.1 (Nat.ne_of_gt (Nat.lt_add_of_pos_right hlt)), hp]
      · obtain ⟨i, rfl⟩ : ∃ i, k = i + 1 := ⟨k - 1, by omega⟩
        have hmemi := hs.complete p i (by omega) (fun j hj => hbefore j (Nat.lt_succ_of_le hj)) hnot'
          (by rw [← hp]; exact hle)
        rw [← hp] at hmemi
        exact ⟨_, hopen _ hmemi, le_refl _, (next_eq hw hs hh hk hp hq).symm⟩

end Step

/-! ## A document -/

/-- The order of the hits of a document: by position, at one position the larger query positions first. -/
def DocOrder (hits : List ExtHit) : Prop :=
  hits.Pairwise fun g h => g.pos < h.pos ∨ g.pos = h.pos ∧ h.querypos ≤ g.querypos

instance (hits : List ExtHit) : Decidable (DocOrder hits) := by unfold DocOrder; infer_instance

/-- The distance from the first to the last word. -/
def span (atoms : List Nat) : Nat := off atoms (atoms.length - 1)

/-- The whole phrase stands in the hits, its last word at `p`. -/
def Occurs (atoms : List Nat) (hits : List ExtHit) (p : Nat) : Prop :=
  ∃ b, p = b + span atoms ∧ Begun atoms hits b (atoms.length - 1)

/-- Some hit added ends at `p`. -/
def Reported (atoms : List Nat) (out : List FoldedHit) (p : Nat) : Prop := ∃ f ∈ out, f.hitpos + span atoms = p

/-- Where a document stands after the hits `pre`: those of `seen` came after the last hit added, which ended at the last
of `old`. -/
structure Ran (atoms : List Nat) (pre : List ExtHit) (s : Phrase) (out : List FoldedHit) : Prop where
  split : ∃ old seen, pre = old ++ seen ∧ Tracks atoms seen s ∧ (out = [] ∧ old = [] ∨
    ∃ a e, old = a ++ [e] ∧ e.querypos = atoms.getD (atoms.length - 1) 0 ∧ Reported atoms out e.pos ∧
      ∀ p, Reported atoms out p → p ≤ e.pos)
  exact_ends : ∀ p, Reported atoms out p ↔
    Occurs atoms pre p ∧ ∀ q, Reported atoms out q → q < p → q + span atoms ≤ p

section Document
variable (hw : Words atoms)
include hw

theorem span_pos : 0 < span atoms := by
  have htwo := hw.two
  have := off_lt hw (i := 0) (j := atoms.length - 1) (by omega) (by omega)
  rwa [off_zero] at this

/-- A hit after all others changes nothing but the phrases that end at it. -/
theorem occurs_snoc (hle : ∀ g ∈ pre, g.pos ≤ h.pos) (hp : p ≠ h.pos) :
    Occurs atoms (pre ++ [h]) p ↔ Occurs atoms pre p := by
  have htwo := hw.two
  constructor
  · rintro ⟨b, rfl, hb⟩
    refine ⟨b, rfl, ?_⟩
    by_contra hold
    exact hp (begun_snoc hw (by omega) hle hb hold).1.symm
  · rintro ⟨b, hpb, hb⟩
    exact ⟨b, hpb, hb.mono (subset_append_left _ _)⟩

omit hw in
theorem occurs_le {m : Nat} (hle : ∀ g ∈ pre, g.pos ≤ m) (hp : Occurs atoms pre p) : p ≤ m := by
  obtain ⟨b, rfl, hb⟩ := hp
  obtain ⟨g, hg, hgp, -⟩ := hb (atoms.length - 1) (le_refl _)
  rw [span, ← hgp]
  exact hle g hg

omit hw in
theorem fold_end (hs : Of atoms s) (hh : h.hitpos < 2 ^ 32) {b : Nat}
    (hb : h.pos = b + span atoms) : (s.fold h).hitpos + span atoms = h.pos := by
  have hpos := (pos_lt hh).1
  have hspan : s.spanlen = span atoms := by rw [spanlen, hs.atomPos]; rfl
  show plusInt h.pos (-s.spanlen) + span atoms = h.pos
  rw [hspan, plusInt]
  omega

/-- A phrase that starts no earlier than the last hit added ended is made of later hits. -/
theorem begun_of_later {old seen : List ExtHit} {a : List ExtHit} {e : ExtHit} (horder : DocOrder (old ++ seen ++ [h]))
    (hold : old = a ++ [e]) (hq : e.querypos = atoms.getD (atoms.length - 1) 0) {b : Nat} (hb : e.pos ≤ b)
    (hbegun : Begun atoms (old ++ seen ++ [h]) b (atoms.length - 1)) : Begun atoms (seen ++ [h]) b (atoms.length - 1) := by
  have htwo := hw.two
  intro j hj
  obtain ⟨g, hg, hgp, hgq⟩ := hbegun j hj
  rw [append_assoc] at hg
  rcases List.mem_append.mp hg with hg | hg
  · exfalso
    have hge : g = e ∨ g.pos < e.pos ∨ g.pos = e.pos ∧ e.querypos ≤ g.querypos := by
      rw [hold] at hg
      rcases List.mem_append.mp hg with hg | hg
      · right
        rw [DocOrder, hold, append_assoc, append_assoc] at horder
        exact (pairwise_append.mp horder).2.2 g hg e (by simp)
      · exact .inl (mem_singleton.mp hg)
    have hlt : j = 0 → atoms.getD j 0 < atoms.getD (atoms.length - 1) 0 := by
      rintro rfl
      exact Arrays.getD_lt_getD hw.asc (by omega) (by omega)
    have hoff : j ≠ 0 → 0 < off atoms j := by
      intro hj0
      have := off_lt hw (i := 0) (j := j) (pos_of_ne_zero hj0) (by omega)
      rwa [off_zero] at this
    rcases hge with rfl | hlt' | ⟨heq, hle⟩
    · rcases eq_zero_or_pos j with hj0 | hj0
      · omega
      · omega
    · omega
    · rcases eq_zero_or_pos j with hj0 | hj0
      · omega
      · omega
  · exact ⟨g, hg, hgp, hgq⟩

/-- **One more hit of a document.** -/
theorem ran_step {out : List FoldedHit} (hr : Ran atoms pre s out)
    (horder : DocOrder (pre ++ [h])) (hh : h.hitpos < 2 ^ 32) :
    ∃ s' added, s.hitFSM h = (s', added) ∧ Ran atoms (pre ++ [h]) s' (out ++ added.toList) := by
  obtain ⟨⟨old, seen, rfl, htracks, hold⟩, hexact⟩ := hr
  have hle : ∀ g ∈ old ++ seen, g.pos ≤ h.pos := by
    intro g hg
    rcases (pairwise_append.mp horder).2.2 g hg h mem_cons_self with hlt | ⟨heq, -⟩
    · exact Nat.le_of_lt hlt
    · exact Nat.le_of_eq heq
  have hseen : ∀ g ∈ seen, g.pos ≤ h.pos := (forall_mem_append.mp hle).2
  by_cases hfull : ∃ b, Begun atoms (seen ++ [h]) b (atoms.length - 1)
  · obtain ⟨b, hb⟩ := hfull
    obtain ⟨heq, hpos, hq⟩ := hitFSM_completes hw htracks hh hseen hb
    have hend := fold_end htracks.toOf hh hpos
    have hrep : ∀ p, Reported atoms (out ++ [s.fold h]) p ↔ Reported atoms out p ∨ p = h.pos := by
      intro p
      constructor
      · rintro ⟨f, hf, rfl⟩
        rcases List.mem_append.mp hf with hf | hf
        · exact .inl ⟨f, hf, rfl⟩
        · cases mem_singleton.mp hf
          exact .inr hend
      · rintro (⟨f, hf, rfl⟩ | rfl)
        · exact ⟨f, mem_append_left _ hf, rfl⟩
        · exact ⟨_, mem_append_right _ mem_cons_self, hend⟩
    have hocc : Occurs atoms (old ++ seen ++ [h]) h.pos := by
      refine ⟨b, hpos, hb.mono ?_⟩
      rw [append_assoc]
      exact subset_append_right _ _
    refine ⟨_, _, heq, ⟨old ++ seen ++ [h], [], (append_nil _).symm, htracks.toOf.tracks_resetFSM, .inr ?_⟩, ?_⟩
    · refine ⟨old ++ seen, h, rfl, hq, (hrep _).mpr (.inr rfl), fun p hp => ?_⟩
      rcases (hrep p).mp hp with hp | rfl
      · exact occurs_le hle ((hexact p).mp hp).1
      · exact Nat.le_refl _
    · intro p
      show Reported atoms (out ++ [s.fold h]) p ↔
        _ ∧ ∀ q, Reported atoms (out ++ [s.fold h]) q → q < p → q + span atoms ≤ p
      by_cases hp : p = h.pos
      · subst hp
        refine iff_of_true ((hrep _).mpr (.inr rfl)) ⟨hocc, fun q hrq hlt => ?_⟩
        -- the phrase starts after the last hit added
        have hrq : Reported atoms out q := ((hrep q).mp hrq).resolve_right (Nat.ne_of_lt hlt)
        rcases hold with ⟨rfl, -⟩ | ⟨a, e, rfl, -, -, hmax⟩
        · obtain ⟨f, hf, -⟩ := hrq
          cases hf
        · obtain ⟨g, hg, hgp, -⟩ := hb 0 (Nat.zero_le _)
          rw [off_zero, Nat.add_zero] at hgp
          have hge : e.pos ≤ g.pos := by
            rw [DocOrder, append_assoc] at horder
            rcases (pairwise_append.mp horder).2.2 e (by simp) g hg with hlt | ⟨heq, -⟩
            · exact Nat.le_of_lt hlt
            · exact Nat.le_of_eq heq
          have := hmax q hrq
          have hspan' : off atoms (atoms.length - 1) = span atoms := rfl
          omega
      · rw [hrep, occurs_snoc hw hle hp]
        constructor
        · rintro (hr | hr)
          · obtain ⟨hocc, hall⟩ := (hexact p).mp hr
            refine ⟨hocc, fun q hrq hlt => ?_⟩
            rcases (hrep q).mp hrq with hrq | rfl
            · exact hall q hrq hlt
            · exact absurd (occurs_le hle hocc) (Nat.not_le_of_lt hlt)
          · exact absurd hr hp
        · rintro ⟨hocc, hall⟩
          exact .inl ((hexact p).mpr ⟨hocc, fun q hrq => hall q ((hrep q).mpr (.inl hrq))⟩)
  · obtain ⟨s', heq, htracks'⟩ := hitFSM_tracks hw htracks hh hseen fun b hb => hfull ⟨b, hb⟩
    refine ⟨s', none, heq, ⟨old, seen ++ [h], append_assoc _ _ _, htracks', ?_⟩, ?_⟩
    · rw [Option.toList_none, append_nil]
      exact hold
    · rw [Option.toList_none, append_nil]
      intro p
      by_cases hp : p = h.pos
      · subst hp
        constructor
        · intro hr
          obtain ⟨⟨b, hpb, hb⟩, hall⟩ := (hexact _).mp hr
          exact ⟨⟨b, hpb, hb.mono (subset_append_left _ _)⟩, hall⟩
        · rintro ⟨⟨b, hpb, hb⟩, hall⟩
          by_contra hno
          rcases hold with ⟨rfl, rfl⟩ | ⟨a, e, ha, hq, hre, -⟩
          · exact hfull ⟨b, by simpa using hb⟩
          · -- the last hit added ended before the phrase, so the phrase is made of what came since
            have hlt : e.pos < h.pos := Nat.lt_of_le_of_ne (hle e (by simp [ha])) fun he => hno (he ▸ hre)
            have := hall _ hre hlt
            exact hfull ⟨b, begun_of_later hw horder ha hq (by omega) hb⟩
      · rw [occurs_snoc hw hle hp]
        exact hexact p

theorem run_ran {s₀ : Phrase} (hs₀ : Of atoms s₀) (horder : DocOrder hits)
    (hh : ∀ h ∈ hits, h.hitpos < 2 ^ 32) : ∃ s out, fsm.run s₀.resetFSM hits = some (s, out) ∧ Ran atoms hits s out := by
  induction hits using List.reverseRecOn with
  | nil =>
    refine ⟨_, [], rfl, ⟨[], [], rfl, hs₀.tracks_resetFSM, .inl ⟨rfl, rfl⟩⟩, fun p => iff_of_false ?_ ?_⟩
    · rintro ⟨f, hf, -⟩
      cases hf
    · rintro ⟨⟨b, -, hb⟩, -⟩
      obtain ⟨g, hg, -⟩ := hb 0 (Nat.zero_le _)
      cases hg
  | append_singleton hits h ih =>
    obtain ⟨s, out, hrun, hran⟩ := ih (pairwise_append.mp horder).1 (forall_mem_append.mp hh).1
    obtain ⟨s', added, hhit, hran'⟩ := ran_step hw hran horder (hh h (mem_append_right _ mem_cons_self))
    refine ⟨s', out ++ added.toList, ?_, hran'⟩
    rw [Fsm.run_snoc hrun]
    exact congrArg (fun r => Option.map (fun q : Phrase × Option FoldedHit => (q.1, out ++ q.2.toList)) (some r)) hhit

/-- The words of a phrase in place are in one field: the offsets are too small to reach over its end. -/
theorem occurs_iff_field (hh : ∀ h ∈ hits, h.hitpos < 2 ^ 32) :
    Occurs atoms hits p ↔ ∃ field, ∀ j < atoms.length, ∃ g ∈ hits, Hitman.getField g.hitpos = field ∧
      g.querypos = atoms.getD j 0 ∧ g.pos + (atoms.getD (atoms.length - 1) 0 - atoms.getD j 0) = p := by
  have htwo := hw.two
  constructor
  · rintro ⟨b, rfl, hb⟩
    refine ⟨(b + span atoms) / 2 ^ 24, fun j hj => ?_⟩
    obtain ⟨g, hg, hgp, hgq⟩ := hb j (Nat.le_sub_one_of_lt hj)
    have h1 := word_le hw.asc (Nat.zero_le j) hj
    have h2 := word_le hw.asc (Nat.le_sub_one_of_lt hj) (by omega)
    have hword := off_word hw (j := atoms.length - 1) (by omega)
    have hdist : g.pos + (atoms.getD (atoms.length - 1) 0 - atoms.getD j 0) = b + span atoms := by
      rw [hgp]
      unfold span off
      omega
    refine ⟨g, hg, ?_, hgq, hdist⟩
    have hlow := (pos_lt (hh g hg)).2
    rw [← Hitman.getField_getPosWithField, Hitman.getField, ← hdist]
    change g.pos / 2 ^ 24 = _
    unfold off at hword
    omega
  · rintro ⟨field, hall⟩
    obtain ⟨g₀, -, -, -, hp⟩ := hall 0 (by omega)
    refine ⟨g₀.pos, hp.symm, fun j hj => ?_⟩
    obtain ⟨g, hg, -, hgq, hgp⟩ := hall j (by omega)
    have h1 := word_le hw.asc (Nat.zero_le j) (by omega)
    have h2 := word_le hw.asc hj (by omega)
    refine ⟨g, hg, ?_, hgq⟩
    unfold off
    omega

end Document

/-- **A hit is added at exactly the phrases of a document that do not overlap an earlier one added**: the phrase stands in
one field with its last word at `p`, and every added hit that ends before `p` ends by the phrase's first word. -/
theorem phrase_exact {atoms : List Nat} (hw : Words atoms) {s₀ : Phrase} (hs₀ : Of atoms s₀) {hits : List ExtHit}
    (horder : DocOrder hits) (hh : ∀ h ∈ hits, h.hitpos < 2 ^ 32) :
    ∃ s out, fsm.run s₀.resetFSM hits = some (s, out) ∧ ∀ p, (∃ f ∈ out, f.hitpos + span atoms = p) ↔
      (∃ field, ∀ j < atoms.length, ∃ g ∈ hits, Hitman.getField g.hitpos = field ∧ g.querypos = atoms.getD j 0 ∧
        g.pos + (atoms.getD (atoms.length - 1) 0 - atoms.getD j 0) = p) ∧
      ∀ f ∈ out, f.hitpos + span atoms < p → f.hitpos + span atoms + span atoms ≤ p := by
  obtain ⟨s, out, hrun, hran⟩ := run_ran hw hs₀ horder hh
  refine ⟨s, out, hrun, fun p => ?_⟩
  rw [← occurs_iff_field hw hh]
  refine (hran.exact_ends p).trans (and_congr_right fun _ => ⟨fun hall f hf => hall _ ⟨f, hf, rfl⟩, ?_⟩)
  rintro hall q ⟨f, hf, rfl⟩
  exact hall f hf

/-- The document `a b a b a b`, for the phrase `"a b a b"`. -/
def ababab : List ExtHit :=
  [(1, 3), (1, 1), (2, 4), (2, 2), (3, 3), (3, 1), (4, 4), (4, 2), (5, 3), (5, 1), (6, 4), (6, 2)].map fun x =>
    { rowID := 1, hitpos := x.1, querypos := x.2, nodepos := 0 }

/-- **The phrase that ends at 6 is not reported**, as it overlaps the one that ends at 4. -/
theorem phrase_drops_overlap : ∃ s f, fsm.run (create [1, 2, 3, 4] false).resetFSM ababab = some (s, [f]) ∧
    f.hitpos + span [1, 2, 3, 4] = 4 ∧
    ∀ j < 4, ∃ g ∈ ababab, Hitman.getField g.hitpos = 0 ∧ g.querypos = [1, 2, 3, 4].getD j 0 ∧
      g.pos + (4 - [1, 2, 3, 4].getD j 0) = 6 :=
  ⟨_, _, rfl, by decide, by decide⟩

theorem phrase_exact_ababab : ∃ s out, fsm.run (create [1, 2, 3, 4] false).resetFSM ababab = some (s, out) ∧
    ∀ p, (∃ f ∈ out, f.hitpos + span [1, 2, 3, 4] = p) ↔
      (∃ field, ∀ j < [1, 2, 3, 4].length, ∃ g ∈ ababab, Hitman.getField g.hitpos = field ∧
        g.querypos = [1, 2, 3, 4].getD j 0 ∧
        g.pos + ([1, 2, 3, 4].getD ([1, 2, 3, 4].length - 1) 0 - [1, 2, 3, 4].getD j 0) = p) ∧
      ∀ f ∈ out, f.hitpos + span [1, 2, 3, 4] < p → f.hitpos + span [1, 2, 3, 4] + span [1, 2, 3, 4] ≤ p :=
  phrase_exact ⟨by decide, by decide, by decide⟩ ⟨rfl, rfl⟩ (by decide) (by decide)

end Phrase
end NWay
end Manticore

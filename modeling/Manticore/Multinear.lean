import Manticore.Arrays
import Manticore.NWay
import Manticore.Search
/-!
# Multinear — the NEAR automaton (`FSMmultinear_c`)

`a NEAR/n b NEAR/n c` follows one chain of hits.  `m_dNpos` is the ascending table of the operands seen in the chain, by
node position (1, 2, …), and `m_dRing` a ring of their last hits; the chain is reported when the table has as many entries as the
query has operands.  Two operands are handled without either (`m_bTwofer`).

`HitFSM` is cut at its `return`s: each part ends the call (`done`) or lets it go on (`go`).
-/
namespace Manticore
namespace NWay
open List
open Arrays (getD_lt_getD)

/-- `FSMmultinear_c` -/
structure Multinear where
  near : Nat
  wordsExpected : Nat
  twofer : Bool
  setQposMask : Bool
  prelastP : Nat := 0
  prelastML : Nat := 0
  prelastSL : Nat := 0
  prelastW : Nat := 0
  lastP : Nat := 0
  lastML : Nat := 0
  lastSL : Nat := 0
  lastW : Nat := 0
  weight : Nat := 0
  firstHit : Nat := 0
  firstNpos : Nat := 0
  firstQpos : Nat := 65535
  npos : List Nat := []
  ring : List ExtHit := []
  iRing : Nat := 0
  deriving DecidableEq, Repr

namespace Multinear

/-- The constructor, for `nodes` operands. -/
def create (near nodes : Nat) (setQposMask : Bool) : Multinear where
  near
  wordsExpected := nodes
  twofer := nodes == 2
  setQposMask
  ring := if nodes = 2 then [] else List.replicate nodes default

def resetFSM (s : Multinear) : Multinear := { s with iRing := 0, lastP := 0, prelastP := 0 }

def ringTail (s : Multinear) : Nat := (s.iRing + s.npos.length - 1) % s.wordsExpected

def ringAt (s : Multinear) (i : Nat) : ExtHit := s.ring.getD i default

def add2Ring (h : ExtHit) (s : Multinear) : Multinear :=
  if s.twofer then s else { s with ring := s.ring.set s.ringTail h }

def shiftRing (s : Multinear) : Multinear :=
  if s.iRing + 1 = s.wordsExpected then { s with iRing := 0 } else { s with iRing := s.iRing + 1 }

/-- Where a part of `HitFSM` leaves the call. -/
inductive Next (σ : Type)
  | done (s : σ)
  | go (s : σ)
  deriving DecidableEq, Repr

/-- DWORD subtraction. -/
def minus (a b : Nat) : Nat := (a + 2 ^ 32 - b % 2 ^ 32) % 2 ^ 32

/-- "skip dupe hit": a hit on the position of the last one. -/
def skipDupe (h : ExtHit) (s : Multinear) : Option (Next Multinear) :=
  if s.lastP ≠ h.pos then some (.go s)
  else if s.twofer ∧ h.nodepos < s.firstNpos then
    some (.done { s with firstQpos := h.querypos, firstNpos := h.nodepos })
  else if ¬ s.twofer ∧ h.nodepos < (s.ringAt s.ringTail).nodepos then
    match binarySearch s.npos h.nodepos with
    | some _ => some (.done s)
    | none =>
      (binarySearch s.npos (s.ringAt s.ringTail).nodepos).map fun i =>
        .done { s with
          npos := (s.npos.set i h.nodepos).insertionSort (· ≤ ·)
          ring := s.ring.set s.ringTail { s.ringAt s.ringTail with nodepos := h.nodepos, querypos := h.querypos } }
  else if s.prelastP ≠ 0 ∧ s.lastML < h.matchlen then
    some (.go { s with
      lastML := s.prelastML
      lastSL := s.prelastSL
      firstHit := s.prelastP
      lastP := s.prelastP
      weight := (minus s.weight s.lastW + s.prelastW) % 2 ^ 32 })
  else some (.done s)

/-- The test of "probably new chain". -/
def startsChain (h : ExtHit) (s : Multinear) : Bool :=
  s.lastP == 0 || decide ((s.lastP + s.lastML + s.near) % 2 ^ 32 ≤ h.pos)

/-- The chain begins anew at the hit. -/
def restart (h : ExtHit) (s : Multinear) : Multinear :=
  { s with
    firstHit := h.pos
    lastP := h.pos
    lastML := h.matchlen
    lastSL := h.spanlen
    weight := h.weight
    lastW := h.weight
    firstQpos := h.querypos }

def newChain (h : ExtHit) (s : Multinear) : Multinear :=
  if s.twofer then { restart h s with firstNpos := h.nodepos } else add2Ring h { restart h s with npos := [h.nodepos] }

/-- The table part for two operands. -/
def joinTwofer (h : ExtHit) (s : Multinear) : Next Multinear :=
  if h.pos < (s.firstHit + s.lastML) % 2 ^ 32 ∧ (s.firstHit + s.lastML) % 2 ^ 32 < (h.pos + h.matchlen) % 2 ^ 32 ∧
      s.lastML ≠ h.matchlen then
    .done { restart h s with firstNpos := h.nodepos }
  else if h.nodepos = s.firstNpos then
    if s.lastP < h.pos then
      .done { restart h s with
        prelastML := s.lastML
        prelastSL := s.lastSL
        prelastP := s.lastP
        prelastW := h.weight
        firstNpos := h.nodepos }
    else .done s
  else .go s

/-- The operand is already in the table: the ring is shifted over its first hit, or its last hit is replaced; any other
hit is dropped. -/
def repeated (u : Nat) (s : Multinear) : Next Multinear :=
  if u = (s.ringAt s.iRing).nodepos then
    .go (shiftRing { s with
      weight := minus s.weight (s.ringAt s.iRing).weight
      firstHit := (s.ringAt s.iRing).pos })
  else if u = (s.ringAt s.ringTail).nodepos then
    .go { s with weight := minus s.weight (s.ringAt s.ringTail).weight }
  else .done s

/-- The bisection for the place of an operand inside the table; the first number bounds the loop. -/
def bisect (u : Nat) : Nat → Nat → Nat → Multinear → Option (Next (Nat × Multinear))
  | 0, _, _, _ => none
  | f + 1, start, stop, s =>
    if stop - start > 1 then
      match if u = s.npos.getD ((start + stop) / 2) 0 then repeated u s else .go s with
      | .done s => some (.done (stop, s))
      | .go s =>
        if u < s.npos.getD ((start + stop) / 2) 0 then bisect u f start ((start + stop) / 2) s
        else bisect u f ((start + stop) / 2) stop s
    else some (.go (stop, s))

/-- The table part for three and more operands. -/
def joinTable (h : ExtHit) (s : Multinear) : Option (Next Multinear) :=
  if h.nodepos < s.npos.getD 0 0 then
    some (.go { s with firstQpos := min s.firstQpos h.querypos, npos := h.nodepos :: s.npos })
  else if s.npos.getD (s.npos.length - 1) 0 < h.nodepos then
    some (.go { s with firstQpos := min s.firstQpos h.querypos, npos := s.npos ++ [h.nodepos] })
  else if h.nodepos ≠ s.npos.getD 0 0 ∧ h.nodepos ≠ s.npos.getD (s.npos.length - 1) 0 then
    (bisect h.nodepos (s.npos.length + 1) 0 s.npos.length s).map fun
      | .done (_, s) => .done s
      | .go (stop, s) =>
        .go { s with npos := s.npos.insertIdx stop h.nodepos, firstQpos := min s.firstQpos h.querypos }
  else some (repeated h.nodepos s)

/-- The mask of the operands of a whole chain, when it is asked for. -/
def chainMask (s : Multinear) (querypos : Nat) : Nat :=
  if s.setQposMask ∧ s.npos.length > 1 then
    s.npos.foldl (fun m n => m ||| 2 ^ (n - s.npos.getD 0 0 + querypos) % 2 ^ 32) 0
  else 0

/-- The hit joins the chain. -/
def extend (h : ExtHit) (s : Multinear) : Multinear :=
  add2Ring h { s with weight := (s.weight + h.weight) % 2 ^ 32, lastML := h.matchlen, lastSL := h.spanlen }

/-- The hit made of a chain that ends at `h`. -/
def fold (h : ExtHit) (s : Multinear) (spanlen mask : Nat) : FoldedHit where
  rowID := h.rowID
  hitpos := s.firstHit
  querypos := min s.firstQpos h.querypos
  spanlen
  matchlen := (minus h.pos s.firstHit + s.lastML) % 2 ^ 16
  weight := s.weight
  qposMask := mask

/-- The end of `HitFSM`: a whole chain is reported. -/
def report (h : ExtHit) (s : Multinear) : Multinear × Option FoldedHit :=
  if s.twofer then
    ({ s with prelastP := 0, firstHit := h.pos, lastP := h.pos, weight := h.weight, firstQpos := h.querypos },
      some (fold h s 2 (2 ^ (max s.firstQpos h.querypos - min s.firstQpos h.querypos) % 2 ^ 32)))
  else if s.wordsExpected = s.npos.length then
    ({ s with prelastP := 0, lastP := 0 },
      some (fold h s (s.npos.length % 2 ^ 16) (s.chainMask (min s.firstQpos h.querypos))))
  else ({ s with lastP := h.pos }, none)

/-- `FSMmultinear_c::HitFSM` -/
def hitFSM (s : Multinear) (h : ExtHit) : Option (Multinear × Option FoldedHit) :=
  (skipDupe h s).bind fun
    | .done s => some (s, none)
    | .go s =>
      if startsChain h s then some (newChain h s, none)
      else
        (if s.twofer then some (joinTwofer h s) else joinTable h s).map fun
          | .done s => (s, none)
          | .go s => report h (extend h s)

/-- The NEAR automaton. -/
def fsm : Fsm Multinear := ⟨resetFSM, hitFSM⟩

/-! ## The table -/

theorem pairwise_insertIdx {u : Nat} : ∀ {l : List Nat} {k : Nat}, l.Pairwise (· < ·) → (∀ x ∈ l.take k, x < u) →
    (∀ x ∈ l.drop k, u < x) → (l.insertIdx k u).Pairwise (· < ·)
  | l, 0, hl, _, ha => pairwise_cons.mpr ⟨ha, hl⟩
  | [], k + 1, _, _, _ => .nil
  | a :: l, k + 1, hl, hb, ha => by
    obtain ⟨h1, h2⟩ := pairwise_cons.mp hl
    refine pairwise_cons.mpr ⟨?_, pairwise_insertIdx h2 (forall_mem_cons.mp hb).2 ha⟩
    intro x hx
    rcases eq_or_mem_of_mem_insertIdx hx with rfl | hx
    · exact hb a mem_cons_self
    · exact h1 x hx

theorem pairwise_insertIdx_between {l : List Nat} {k u : Nat} (hl : l.Pairwise (· < ·)) (hk : k < l.length)
    (hb : l.getD k 0 < u) (ha : k + 1 < l.length → u < l.getD (k + 1) 0) : (l.insertIdx (k + 1) u).Pairwise (· < ·) := by
  refine pairwise_insertIdx hl ?_ ?_
  · intro x hx
    obtain ⟨j, hj, rfl⟩ := mem_iff_getElem.mp hx
    rw [length_take] at hj
    rw [getElem_take, ← getD_eq_getElem l 0 (by omega : j < l.length)]
    rcases lt_or_eq_of_le (by omega : j ≤ k) with hlt | rfl
    · exact lt_trans (getD_lt_getD hl hlt hk) hb
    · exact hb
  · intro x hx
    obtain ⟨j, hj, rfl⟩ := mem_iff_getElem.mp hx
    rw [length_drop] at hj
    rw [getElem_drop, ← getD_eq_getElem l 0 (by omega : k + 1 + j < l.length)]
    rcases eq_zero_or_pos j with rfl | hpos
    · exact ha (by omega)
    · exact lt_trans (ha (by omega)) (getD_lt_getD hl (by omega) (by omega))

/-! ## One hit -/

/-- The parts of the state that `HitFSM` reads but does not touch on the way to the table. -/
structure Frame (s s' : Multinear) : Prop where
  ring : s'.ring = s.ring
  twofer : s'.twofer = s.twofer
  wordsExpected : s'.wordsExpected = s.wordsExpected
  prelastP : s'.prelastP = s.prelastP

/-- The operand of the hit is the one of the first or of the last hit in the ring. -/
def AtRingEnd (u : Nat) (s : Multinear) : Prop := u = (s.ringAt s.iRing).nodepos ∨ u = (s.ringAt s.ringTail).nodepos

/-- The operand of the hit stands inside the table and at an end of the ring. -/
def Inside (u : Nat) (s : Multinear) : Prop :=
  u ∈ s.npos ∧ u ≠ s.npos.getD 0 0 ∧ u ≠ s.npos.getD (s.npos.length - 1) 0 ∧ AtRingEnd u s

theorem repeated_cases (u : Nat) (s : Multinear) :
    (repeated u s = .done s ∧ ¬ AtRingEnd u s) ∨
      ∃ s', repeated u s = .go s' ∧ AtRingEnd u s ∧ Frame s s' ∧ s'.npos = s.npos := by
  by_cases h1 : u = (s.ringAt s.iRing).nodepos
  · refine .inr ⟨_, if_pos h1, .inl h1, ?_, ?_⟩
    · unfold shiftRing
      split <;> exact ⟨rfl, rfl, rfl, rfl⟩
    · unfold shiftRing
      split <;> rfl
  · by_cases h2 : u = (s.ringAt s.ringTail).nodepos
    · refine .inr ⟨_, (if_neg h1).trans (if_pos h2), .inr h2, ⟨rfl, rfl, rfl, rfl⟩, rfl⟩
    · exact .inl ⟨(if_neg h1).trans (if_neg h2), fun h => h.elim h1 h2⟩

variable {s : Multinear}

theorem bisect_go {u : Nat} (hs : s.npos.Pairwise (· < ·)) : ∀ (f start stop : Nat), stop < start + f →
    start < stop → stop ≤ s.npos.length → s.npos.getD start 0 ≤ u → (stop < s.npos.length → u < s.npos.getD stop 0) →
    (∀ i, start < i → i < stop → s.npos.getD i 0 ≠ u) →
    ∃ k, bisect u f start stop s = some (.go (k + 1, s)) ∧ start ≤ k ∧ k < stop ∧ s.npos.getD k 0 ≤ u ∧
      (k + 1 < s.npos.length → u < s.npos.getD (k + 1) 0)
  | 0, start, stop, hf, h1, _, _, _, _ => by omega
  | f + 1, start, stop, hf, h1, h2, hb, ha, hno => by
    by_cases hgap : stop - start > 1
    · have hne : u ≠ s.npos.getD ((start + stop) / 2) 0 := (hno _ (by omega) (by omega)).symm
      rw [bisect, if_pos hgap, if_neg hne]
      by_cases hlt : u < s.npos.getD ((start + stop) / 2) 0
      · obtain ⟨k, hk, hk1, hk2, hk3⟩ := bisect_go hs f start ((start + stop) / 2) (by omega)
          (by omega) (by omega) hb (fun _ => hlt) fun i hi hi' => hno i hi (by omega)
        exact ⟨k, (if_pos hlt).trans hk, hk1, by omega, hk3⟩
      · obtain ⟨k, hk, hk1, hk2, hk3⟩ := bisect_go hs f ((start + stop) / 2) stop (by omega)
          (by omega) h2 (Nat.le_of_not_lt hlt) ha fun i hi hi' => hno i (by omega) hi'
        exact ⟨k, (if_neg hlt).trans hk, by omega, hk2, hk3⟩
    · obtain rfl : stop = start + 1 := by omega
      exact ⟨start, by rw [bisect, if_neg hgap], le_refl _, Nat.lt_succ_self _, hb, ha⟩

theorem bisect_mem (hs : s.npos.Pairwise (· < ·)) {i : Nat} (hi : i < s.npos.length) :
    ∀ (f start stop : Nat), stop < start + f → start < i → i < stop → stop ≤ s.npos.length →
      (repeated (s.npos.getD i 0) s = .done s → ∃ k, bisect (s.npos.getD i 0) f start stop s = some (.done (k, s))) ∧
      ∀ s', repeated (s.npos.getD i 0) s = .go s' → s'.npos = s.npos →
        bisect (s.npos.getD i 0) f start stop s = some (.go (i + 1, s'))
  | 0, start, stop, hf, h1, h2, _ => by omega
  | f + 1, start, stop, hf, h1, h2, h3 => by
    rw [bisect, if_pos (by omega : stop - start > 1)]
    rcases lt_trichotomy i ((start + stop) / 2) with hlt | heq | hgt
    · have hval := getD_lt_getD hs hlt (by omega)
      simp only [if_neg (ne_of_lt hval), if_pos hval]
      exact bisect_mem hs hi f _ _ (by omega) h1 hlt (by omega)
    · rw [← heq, if_pos rfl]
      refine ⟨fun h => ⟨stop, by rw [h]⟩, ?_⟩
      intro s' h hnpos
      rw [h]
      simp only [hnpos, lt_irrefl, if_false]
      obtain ⟨k, hk, hk1, hk2, hk3, -⟩ := bisect_go (s := s') (u := s.npos.getD i 0) (by rwa [hnpos]) f i stop
        (by omega) h2 (by rwa [hnpos]) (by rw [hnpos])
        (fun h => by rw [hnpos] at h ⊢; exact getD_lt_getD hs h2 h)
        (fun j hj hj' => by rw [hnpos]; exact (ne_of_lt (getD_lt_getD hs hj (by omega))).symm)
      rw [hnpos] at hk3
      obtain rfl : k = i := by
        by_contra hne
        exact absurd (getD_lt_getD hs (by omega : i < k) (by omega)) (Nat.not_lt_of_le hk3)
      exact hk
    · have hval := getD_lt_getD hs hgt hi
      simp only [if_neg (Nat.ne_of_gt hval), if_neg (lt_asymm hval)]
      exact bisect_mem hs hi f _ _ (by omega) hgt h2 h3

/-- **The table part**: the hit is dropped, or its operand is in the table afterwards; the table stays ascending unless
the operand stood inside it and at an end of the ring. -/
theorem joinTable_cases {h : ExtHit} (hs : s.npos.Pairwise (· < ·)) (hne : s.npos ≠ []) :
    (joinTable h s = some (.done s) ∧ ¬ Inside h.nodepos s) ∨
      ∃ s', joinTable h s = some (.go s') ∧ Frame s s' ∧ h.nodepos ∈ s'.npos ∧
        (∀ u ∈ s'.npos, u = h.nodepos ∨ u ∈ s.npos) ∧ (s'.npos.Pairwise (· < ·) ↔ ¬ Inside h.nodepos s) := by
  have hpos := length_pos_of_ne_nil hne
  have hget : ∀ i, i < s.npos.length → s.npos.getD i 0 ∈ s.npos := by
    intro i hi
    rw [getD_eq_getElem s.npos 0 hi]
    exact getElem_mem hi
  by_cases hfront : h.nodepos < s.npos.getD 0 0
  · have hall : ∀ x ∈ s.npos, h.nodepos < x := by
      intro x hx
      obtain ⟨i, hi, rfl⟩ := mem_iff_getElem.mp hx
      rw [← getD_eq_getElem s.npos 0 hi]
      rcases eq_zero_or_pos i with rfl | hi0
      · exact hfront
      · exact lt_trans hfront (getD_lt_getD hs hi0 hi)
    refine .inr ⟨_, if_pos hfront, ⟨rfl, rfl, rfl, rfl⟩, mem_cons_self, fun u hu => mem_cons.mp hu, ?_⟩
    exact iff_of_true (pairwise_cons.mpr ⟨hall, hs⟩) fun hin => lt_irrefl _ (hall _ hin.1)
  by_cases hback : s.npos.getD (s.npos.length - 1) 0 < h.nodepos
  · have hall : ∀ x ∈ s.npos, x < h.nodepos := by
      intro x hx
      obtain ⟨i, hi, rfl⟩ := mem_iff_getElem.mp hx
      rw [← getD_eq_getElem s.npos 0 hi]
      rcases lt_or_eq_of_le (by omega : i ≤ s.npos.length - 1) with hlt | rfl
      · exact lt_trans (getD_lt_getD hs hlt (by omega)) hback
      · exact hback
    refine .inr ⟨_, (if_neg hfront).trans (if_pos hback), ⟨rfl, rfl, rfl, rfl⟩, mem_concat_self .., ?_, ?_⟩
    · intro u hu
      rcases List.mem_append.mp hu with hu | hu
      · exact .inr hu
      · exact .inl (mem_singleton.mp hu)
    · refine iff_of_true (pairwise_append.mpr ⟨hs, pairwise_singleton _ _, ?_⟩)
        fun hin => lt_irrefl _ (hall _ hin.1)
      intro x hx y hy
      rw [mem_singleton.mp hy]
      exact hall x hx
  by_cases hends : h.nodepos ≠ s.npos.getD 0 0 ∧ h.nodepos ≠ s.npos.getD (s.npos.length - 1) 0
  · by_cases hmem : h.nodepos ∈ s.npos
    · obtain ⟨i, hi, hiu⟩ := mem_iff_getElem.mp hmem
      rw [← getD_eq_getElem s.npos 0 hi] at hiu
      have hi0 : 0 < i := pos_of_ne_zero fun hz => hends.1 (by rw [← hiu, hz])
      obtain ⟨hdone, hgo⟩ := bisect_mem hs hi (s.npos.length + 1) 0 s.npos.length (by omega) hi0
        hi (le_refl _)
      rw [hiu] at hdone hgo
      rcases repeated_cases h.nodepos s with ⟨hrep, hno⟩ | ⟨s', hrep, hend, hframe, hnpos⟩
      · obtain ⟨k, hk⟩ := hdone hrep
        refine .inl ⟨?_, fun hin => hno hin.2.2.2⟩
        rw [joinTable, if_neg hfront, if_neg hback, if_pos hends, hk]
        rfl
      · refine .inr ⟨{ s' with npos := s'.npos.insertIdx (i + 1) h.nodepos, firstQpos := min s'.firstQpos h.querypos }, ?_,
          ⟨hframe.ring, hframe.twofer, hframe.wordsExpected, hframe.prelastP⟩, ?_, ?_, ?_⟩
        · rw [joinTable, if_neg hfront, if_neg hback, if_pos hends, hgo s' hrep hnpos]
          rfl
        · show h.nodepos ∈ s'.npos.insertIdx (i + 1) h.nodepos
          rw [hnpos, mem_insertIdx hi]
          exact .inl rfl
        · intro u hu
          have := eq_or_mem_of_mem_insertIdx hu
          rwa [hnpos] at this
        · -- the operand is now in the table twice
          refine iff_of_false (fun hasc => ?_) (fun hno => hno ⟨hmem, hends.1, hends.2, hend⟩)
          have hnd : (s'.npos.insertIdx (i + 1) h.nodepos).Nodup := hasc.imp ne_of_lt
          rw [hnpos, (perm_insertIdx h.nodepos s.npos hi).nodup_iff] at hnd
          exact (nodup_cons.mp hnd).1 hmem
    · obtain ⟨k, hk, -, hk1, hk2, hk3⟩ := bisect_go hs (u := h.nodepos) (s.npos.length + 1) 0
        s.npos.length (by omega) hpos (le_refl _) (Nat.le_of_not_lt hfront) (fun h => by omega)
        (fun i _ hi heq => hmem (heq ▸ hget i hi))
      refine .inr ⟨{ s with npos := s.npos.insertIdx (k + 1) h.nodepos, firstQpos := min s.firstQpos h.querypos }, ?_,
        ⟨rfl, rfl, rfl, rfl⟩, ?_, ?_, ?_⟩
      · rw [joinTable, if_neg hfront, if_neg hback, if_pos hends, hk]
        rfl
      · show h.nodepos ∈ s.npos.insertIdx (k + 1) h.nodepos
        rw [mem_insertIdx hk1]
        exact .inl rfl
      · exact fun u hu => eq_or_mem_of_mem_insertIdx hu
      · refine iff_of_true (pairwise_insertIdx_between hs hk1 ?_ hk3) fun hin => hmem hin.1
        exact lt_of_le_of_ne hk2 fun heq => hmem (heq ▸ hget k hk1)
  · -- the operand is the first or the last of the table
    have hmem : h.nodepos ∈ s.npos := by
      by_cases h0 : h.nodepos = s.npos.getD 0 0
      · rw [h0]
        exact hget 0 hpos
      · rw [not_and_not_right.mp hends h0]
        exact hget _ (by omega)
    have hout : ¬ Inside h.nodepos s := fun hin => hends ⟨hin.2.1, hin.2.2.1⟩
    have heq : joinTable h s = some (repeated h.nodepos s) := by
      rw [joinTable, if_neg hfront, if_neg hback, if_neg hends]
    rcases repeated_cases h.nodepos s with ⟨hrep, -⟩ | ⟨s', hrep, -, hframe, hnpos⟩
    · exact .inl ⟨by rw [heq, hrep], hout⟩
    · refine .inr ⟨s', by rw [heq, hrep], hframe, hnpos ▸ hmem, fun u hu => .inr (hnpos ▸ hu), ?_⟩
      rw [hnpos]
      exact iff_of_true hs hout

/-- The automaton of `n` operands, three or more. -/
structure Generic (n : Nat) (s : Multinear) : Prop where
  twofer : s.twofer = false
  words : s.wordsExpected = n
  ring : s.ring.length = n

/-- What `HitFSM` keeps for three and more operands: within a chain the table is ascending and has the operand of the
ring's last hit. -/
structure Inv (n : Nat) (s : Multinear) : Prop extends Generic n s where
  fresh : s.prelastP = 0
  live : s.lastP ≠ 0 → s.npos.Pairwise (· < ·) ∧ s.npos ≠ [] ∧ (s.ringAt s.ringTail).nodepos ∈ s.npos

theorem generic_create {near n : Nat} (mask : Bool) (hn : n ≠ 2) : Generic n (create near n mask) where
  twofer := by simp [create, hn]
  words := rfl
  ring := by simp [create, hn]

/-- A document starts without a chain, whatever the last one left in the table. -/
theorem Generic.inv_resetFSM {n : Nat} (hs : Generic n s) : Inv n s.resetFSM :=
  ⟨⟨hs.twofer, hs.words, hs.ring⟩, rfl, fun h0 => absurd rfl h0⟩

/-- The current chain begins at the hit. -/
def begins (h : ExtHit) (s : Multinear) : Bool := decide (s.lastP ≠ h.pos) && startsChain h s

/-- The hit joins a chain in which its operand stands inside the table and at an end of the ring. -/
def Doubles (h : ExtHit) (s : Multinear) : Prop := s.lastP ≠ h.pos ∧ startsChain h s = false ∧ Inside h.nodepos s

/-- What one hit does. -/
structure Stepped (n : Nat) (s : Multinear) (h : ExtHit) (s' : Multinear) (added : Option FoldedHit) : Prop where
  asc : s'.npos.Pairwise (· < ·) ↔ ¬ Doubles h s
  inv : s'.npos.Pairwise (· < ·) → Inv n s'
  mem : ∀ u ∈ s'.npos, u = h.nodepos ∨ begins h s = false ∧ u ∈ s.npos
  whole : added.isSome → s'.npos.length = n

theorem ringAt_set {i : Nat} (hi : i < s.ring.length) (h : ExtHit) :
    ({ s with ring := s.ring.set i h } : Multinear).ringAt i = h := by
  show (s.ring.set i h).getD i default = h
  rw [getD_eq_getElem _ _ (by rwa [length_set]), getElem_set_self]

variable {n : Nat}

section Step
variable {h : ExtHit}

theorem ringTail_lt (hn : 0 < n) (hw : s.wordsExpected = n) : s.ringTail < n := by
  unfold ringTail
  rw [hw]
  exact Nat.mod_lt _ hn

theorem Inv.same (hs : Inv n s) (hlive : s.lastP ≠ 0) (hd : ¬ Doubles h s) (hb : begins h s = false) :
    Stepped n s h s none :=
  ⟨iff_of_true (hs.live hlive).1 hd, fun _ => hs, fun _ hu => .inr ⟨hb, hu⟩, fun hx => absurd hx Bool.false_ne_true⟩

/-- A hit on the position of the last one may take the place of its operand. -/
theorem dupe_spec (hn : 0 < n) (hs : Inv n s) (hpos : h.pos ≠ 0) (hdupe : s.lastP = h.pos) :
    ∃ s', skipDupe h s = some (.done s') ∧ Stepped n s h s' none := by
  have hd : ¬ Doubles h s := fun hd => hd.1 hdupe
  have hb : begins h s = false := by simp [begins, hdupe]
  have hfalse : ¬ (s.twofer = true ∧ h.nodepos < s.firstNpos) := fun hc => by
    rw [hs.twofer] at hc
    exact Bool.false_ne_true hc.1
  have hskip : ∀ s', (if ¬ s.twofer = true ∧ h.nodepos < (s.ringAt s.ringTail).nodepos then _ else _) = s' →
      skipDupe h s = s' := fun s' he => by
    rw [skipDupe, if_neg (not_not.mpr hdupe), if_neg hfalse]
    exact he
  have hlive : s.lastP ≠ 0 := hdupe ▸ hpos
  obtain ⟨hnpos, -, htail⟩ := hs.live hlive
  by_cases hlt : h.nodepos < (s.ringAt s.ringTail).nodepos
  · cases hfind : binarySearch s.npos h.nodepos with
    | some i =>
      refine ⟨s, hskip _ ?_, hs.same hlive hd hb⟩
      rw [if_pos ⟨by simp [hs.twofer], hlt⟩, hfind]
    | none =>
      have hnot := not_mem_of_binarySearch hnpos hfind
      obtain ⟨i, hi⟩ := binarySearch_of_mem hnpos htail
      have hperm := perm_insertionSort (r := (· ≤ ·)) (s.npos.set i h.nodepos)
      have hnd : ((s.npos.set i h.nodepos).insertionSort (· ≤ ·)).Nodup :=
        hperm.nodup_iff.mpr (List.Nodup.set (hnpos.imp ne_of_lt) hnot)
      have hasc : ((s.npos.set i h.nodepos).insertionSort (· ≤ ·)).Pairwise (· < ·) :=
        ((pairwise_insertionSort (r := (· ≤ ·)) (s.npos.set i h.nodepos)).and hnd).imp
          fun hab => lt_of_le_of_ne hab.1 hab.2
      have hmem : h.nodepos ∈ (s.npos.set i h.nodepos).insertionSort (· ≤ ·) :=
        hperm.mem_iff.mpr (mem_set (binarySearch_some hi).1 _)
      refine ⟨{ s with
          npos := (s.npos.set i h.nodepos).insertionSort (· ≤ ·)
          ring := s.ring.set s.ringTail { s.ringAt s.ringTail with nodepos := h.nodepos, querypos := h.querypos } },
        hskip _ ?_, ⟨iff_of_true hasc hd, fun _ => ?_, ?_, fun hx => absurd hx Bool.false_ne_true⟩⟩
      · rw [if_pos ⟨by simp [hs.twofer], hlt⟩, hfind, hi]
        rfl
      · refine ⟨⟨hs.twofer, hs.words, ?_⟩, hs.fresh, fun _ => ⟨hasc, ne_nil_of_mem hmem, ?_⟩⟩
        · show (s.ring.set _ _).length = n
          rw [length_set, hs.ring]
        · have hlen : ((s.npos.set i h.nodepos).insertionSort (· ≤ ·)).length = s.npos.length := by
            rw [length_insertionSort, length_set]
          have htl := ringTail_lt hn hs.words
          show ((s.ring.set s.ringTail _).getD ((s.iRing + _ - 1) % s.wordsExpected) default).nodepos ∈ _
          rw [hlen]
          change (({ s with ring := s.ring.set s.ringTail _ } : Multinear).ringAt s.ringTail).nodepos ∈ _
          rw [ringAt_set (by rwa [hs.ring])]
          exact hmem
      · intro u hu
        rcases mem_or_eq_of_mem_set (hperm.mem_iff.mp hu) with hu | rfl
        · exact .inr ⟨hb, hu⟩
        · exact .inl rfl
  · refine ⟨s, hskip _ ?_, hs.same hlive hd hb⟩
    rw [if_neg fun hc => hlt hc.2, if_neg fun hc => hc.1 hs.fresh]

theorem newChain_spec (hn : 0 < n) (hs : Inv n s) (hstart : startsChain h s = true) :
    Stepped n s h (newChain h s) none := by
  have heq : newChain h s = { restart h s with
      npos := [h.nodepos]
      ring := s.ring.set ((s.iRing + 1 - 1) % s.wordsExpected) h } := by
    simp only [newChain, add2Ring, restart, hs.twofer, Bool.false_eq_true, if_false, ringTail, length_singleton]
  have hd : ¬ Doubles h s := fun hd => by
    rw [hd.2.1] at hstart
    cases hstart
  have hi : (s.iRing + 1 - 1) % s.wordsExpected < s.ring.length := by
    rw [hs.words, hs.ring]
    exact Nat.mod_lt _ hn
  rw [heq]
  refine ⟨iff_of_true (pairwise_singleton _ _) hd, fun _ => ?_, fun u hu => .inl (mem_singleton.mp hu),
    fun hx => absurd hx Bool.false_ne_true⟩
  refine ⟨⟨hs.twofer, hs.words, by rw [← hs.ring]; exact length_set⟩, hs.fresh, ?_⟩
  refine fun _ => ⟨pairwise_singleton _ _, cons_ne_nil _ _, ?_⟩
  show ((s.ring.set _ h).getD _ default).nodepos ∈ [h.nodepos]
  rw [getD_eq_getElem _ _ (by rwa [length_set])]
  exact mem_singleton.mpr (congrArg ExtHit.nodepos (getElem_set_self (by rwa [length_set])))

theorem extend_eq (hg : s.twofer = false) : extend h s = { s with
    weight := (s.weight + h.weight) % 2 ^ 32
    lastML := h.matchlen
    lastSL := h.spanlen
    ring := s.ring.set s.ringTail h } := by
  rw [extend, add2Ring, hg]
  rfl

/-- The hit joins the chain with its operand in the table. -/
theorem report_spec (hn : 0 < n) (hg : s.twofer = false) (hw : s.wordsExpected = n) (hr : s.ring.length = n)
    (hf : s.prelastP = 0) (hmem : h.nodepos ∈ s.npos) :
    ∃ s' added, report h (extend h s) = (s', added) ∧ s'.npos = s.npos ∧ (s.npos.Pairwise (· < ·) → Inv n s') ∧
      (added.isSome → s'.npos.length = n) := by
  have htail : (({ s with ring := s.ring.set s.ringTail h } : Multinear).ringAt s.ringTail).nodepos ∈ s.npos := by
    rw [ringAt_set (by rw [hr]; exact ringTail_lt hn hw)]
    exact hmem
  have hlen : (s.ring.set s.ringTail h).length = n := by rw [length_set, hr]
  rw [extend_eq hg, report, if_neg (ne_true_of_eq_false hg)]
  by_cases hfull : s.wordsExpected = s.npos.length
  · refine ⟨_, _, if_pos hfull, rfl, ?_, fun _ => hfull.symm.trans hw⟩
    exact fun _ => ⟨⟨hg, hw, hlen⟩, rfl, fun h0 => absurd rfl h0⟩
  · refine ⟨_, _, if_neg hfull, rfl, ?_, fun hx => absurd hx Bool.false_ne_true⟩
    exact fun hasc => ⟨⟨hg, hw, hlen⟩, hf, fun _ => ⟨hasc, ne_nil_of_mem hmem, htail⟩⟩

/-- **One hit**: the table stays ascending unless the hit doubles an operand, and only a whole table is reported. -/
theorem hitFSM_spec (hn : 0 < n) (hs : Inv n s) (hpos : h.pos ≠ 0) :
    ∃ s' added, hitFSM s h = some (s', added) ∧ Stepped n s h s' added := by
  by_cases hdupe : s.lastP = h.pos
  · obtain ⟨s', h', hstep⟩ := dupe_spec hn hs hpos hdupe
    exact ⟨s', none, by rw [hitFSM, h']; rfl, hstep⟩
  have hgo : skipDupe h s = some (.go s) := if_pos hdupe
  cases hstart : startsChain h s with
  | true =>
    refine ⟨newChain h s, none, ?_, newChain_spec hn hs hstart⟩
    simp only [hitFSM, hgo, Option.bind_some, hstart, if_true]
  | false =>
    have heq : hitFSM s h = (joinTable h s).map fun r => match r with
        | .done s => (s, none)
        | .go s => report h (extend h s) := by
      simp only [hitFSM, hgo, Option.bind_some, hstart, hs.twofer, Bool.false_eq_true, if_false]
    have hlive : s.lastP ≠ 0 := fun h0 => by simp [startsChain, h0] at hstart
    have hbegins : begins h s = false := by simp [begins, hstart]
    obtain ⟨hnpos, hne, -⟩ := hs.live hlive
    rcases joinTable_cases (h := h) hnpos hne with ⟨hj, hout⟩ | ⟨s₁, hj, hframe, hmem, hsub, hasc⟩
    · exact ⟨s, none, by rw [heq, hj]; rfl, hs.same hlive (fun hd => hout hd.2.2) hbegins⟩
    · obtain ⟨s', added, hfin, heqn, hinv, hwhole⟩ := report_spec (s := s₁) hn (hframe.twofer.trans hs.twofer)
        (hframe.wordsExpected.trans hs.words) (by rw [hframe.ring, hs.ring]) (hframe.prelastP.trans hs.fresh) hmem
      refine ⟨s', added, by rw [heq, hj]; exact congrArg some hfin, ?_, ?_, ?_, hwhole⟩
      · rw [heqn, hasc]
        exact ⟨fun hout hd => hout hd.2.2, fun hd hin => hd ⟨hdupe, hstart, hin⟩⟩
      · rw [heqn]
        exact hinv
      · intro u hu
        rw [heqn] at hu
        exact (hsub u hu).imp id fun hu => ⟨hbegins, hu⟩

end Step

/-! ## A document -/

/-- The state after a hit, and the hits since the current chain began. -/
def track (t : Option Multinear × List ExtHit) (h : ExtHit) : Option Multinear × List ExtHit :=
  (t.1.bind fun s => (hitFSM s h).map Prod.fst, if t.1.any (begins h) then [h] else t.2 ++ [h])

/-- The hits since the current chain began. -/
def chain (s : Multinear) (hits : List ExtHit) : List ExtHit := (hits.foldl track (some s, [])).2

section Document
variable {s₀ : Multinear}

theorem track_run (hits : List ExtHit) : (hits.foldl track (some s₀, [])).1 = (fsm.run s₀ hits).map Prod.fst := by
  induction hits using List.reverseRecOn with
  | nil => rfl
  | append_singleton hits h ih =>
    rw [foldl_append, foldl_cons, foldl_nil, track, ih]
    cases hrun : fsm.run s₀ hits with
    | none => rw [fsm.run_append, hrun]; rfl
    | some r =>
      rw [Fsm.run_snoc (show fsm.run s₀ hits = some (r.1, r.2) from hrun)]
      show (hitFSM r.1 h).map Prod.fst = _
      cases hh : hitFSM r.1 h <;> simp [fsm, hh]

variable {pre : List ExtHit}

theorem chain_snoc {out : List FoldedHit} (hrun : fsm.run s₀ pre = some (s, out))
    (h : ExtHit) : chain s₀ (pre ++ [h]) = if begins h s then [h] else chain s₀ pre ++ [h] := by
  have h1 : (pre.foldl track (some s₀, [])).1 = some s := by rw [track_run, hrun]; rfl
  rw [chain, foldl_append, foldl_cons, foldl_nil, track, h1]
  rfl

theorem chain_subset (s : Multinear) (hits : List ExtHit) : chain s hits ⊆ hits := by
  induction hits using List.reverseRecOn with
  | nil => exact nil_subset _
  | append_singleton hits h ih =>
    rw [chain, foldl_append, foldl_cons, foldl_nil, track]
    split
    · exact subset_append_right _ _
    · exact append_subset.mpr ⟨fun g hg => mem_append_left _ (ih hg), subset_append_right _ _⟩

/-- No hit of a document doubles an operand, the automaton being reset before it. -/
def NoDoubles (s₀ : Multinear) (hits : List ExtHit) : Prop :=
  ∀ pre h, pre ++ [h] <+: hits → ∀ s out, fsm.run s₀.resetFSM pre = some (s, out) → ¬ Doubles h s

/-- **A run none of whose hits doubles an operand**: every table on the way is ascending, and made of operands that have
a hit in the current chain. -/
theorem run_spec (hn : 0 < n) (hs₀ : Generic n s₀) (hpos : ∀ h ∈ pre, h.pos ≠ 0)
    (hclear : NoDoubles s₀ pre) :
    ∃ s out, fsm.run s₀.resetFSM pre = some (s, out) ∧ Inv n s ∧
      (pre ≠ [] → s.npos.Pairwise (· < ·) ∧ ∀ u ∈ s.npos, ∃ g ∈ chain s₀.resetFSM pre, g.nodepos = u) := by
  induction pre using List.reverseRecOn with
  | nil => exact ⟨_, [], rfl, hs₀.inv_resetFSM, fun h => absurd rfl h⟩
  | append_singleton pre h ih =>
    obtain ⟨s, out, hrun, hinv, hpre⟩ := ih (forall_mem_append.mp hpos).1
      fun q k hq => hclear q k (hq.trans (prefix_append _ _))
    obtain ⟨s', added, hhit, hstep⟩ := hitFSM_spec hn hinv (hpos h (mem_append_right _ mem_cons_self))
    have hasc := hstep.asc.mpr (hclear pre h (prefix_refl _) s out hrun)
    refine ⟨s', out ++ added.toList, ?_, hstep.inv hasc, fun _ => ⟨hasc, ?_⟩⟩
    · rw [Fsm.run_snoc hrun]
      exact congrArg (Option.map _) hhit
    · intro u hu
      rw [chain_snoc hrun]
      rcases hstep.mem u hu with rfl | ⟨hb, hu⟩
      · refine ⟨h, ?_, rfl⟩
        split
        · exact mem_cons_self
        · exact mem_append_right _ mem_cons_self
      · rw [if_neg (ne_true_of_eq_false hb)]
        have hne : pre ≠ [] := by
          rintro rfl
          cases hrun
          -- the first hit of a document always begins a chain
          have hpos' := hpos h mem_cons_self
          simp [begins, startsChain, resetFSM, Ne.symm hpos'] at hb
        obtain ⟨g, hg, hgu⟩ := (hpre hne).2 u hu
        exact ⟨g, mem_append_left _ hg, hgu⟩

theorem NoDoubles.of_pre {hits : List ExtHit} (h : NoDoubles s₀ hits) (hpre : pre <+: hits) : NoDoubles s₀ pre :=
  fun q k hq => h q k (hq.trans hpre)

theorem noDoubles_of_asc (hn : 0 < n) (hs₀ : Generic n s₀) {hits : List ExtHit} (hpos : ∀ h ∈ hits, h.pos ≠ 0)
    (hasc : ∀ pre h, pre ++ [h] <+: hits →
      ∃ s out, fsm.run s₀.resetFSM (pre ++ [h]) = some (s, out) ∧ s.npos.Pairwise (· < ·)) : NoDoubles s₀ hits := by
  induction hits using List.reverseRecOn with
  | nil =>
    intro q k hq
    exact absurd (prefix_nil.mp hq) (by simp)
  | append_singleton hits h ih =>
    have hclear := ih (forall_mem_append.mp hpos).1
      fun q k hq => hasc q k (hq.trans (prefix_append _ _))
    intro q k hq s out hrun
    rcases prefix_concat_iff.mp hq with heq | hq
    · obtain ⟨rfl, hk⟩ := append_inj' heq rfl
      cases hk
      obtain ⟨s₁, out₁, hrun₁, hinv, -⟩ := run_spec hn hs₀ (forall_mem_append.mp hpos).1 hclear
      cases hrun₁.symm.trans hrun
      obtain ⟨s', added, hhit, hstep⟩ := hitFSM_spec hn hinv (hpos h (mem_append_right _ mem_cons_self))
      obtain ⟨s₂, out₂, hrun₂, hasc₂⟩ := hasc q h (prefix_refl _)
      rw [Fsm.run_snoc hrun] at hrun₂
      have hs₂ : s' = s₂ := congrArg Prod.fst (Option.some.inj ((congrArg (Option.map _) hhit).symm.trans hrun₂))
      exact hstep.asc.mp (hs₂ ▸ hasc₂)
    · exact hclear q k hq s out hrun

end Document

/-- **The table of operands is ascending after every hit of a document iff no hit doubles an operand, and then a chain is
reported only when every operand has a hit in it.** -/
theorem ascending_iff_noDoubles {n : Nat} (hn : 3 ≤ n) {s₀ : Multinear} (hs₀ : Generic n s₀) {hits : List ExtHit}
    (hpos : ∀ h ∈ hits, h.pos ≠ 0) :
    ((∀ pre h, pre ++ [h] <+: hits →
        ∃ s out, fsm.run s₀.resetFSM (pre ++ [h]) = some (s, out) ∧ s.npos.Pairwise (· < ·)) ↔ NoDoubles s₀ hits) ∧
      (NoDoubles s₀ hits → (∀ h ∈ hits, h.nodepos ∈ List.range' 1 n) → ∀ pre h s out s' found, pre ++ [h] <+: hits →
        fsm.run s₀.resetFSM pre = some (s, out) → fsm.hitFSM s h = some (s', some found) →
        ∀ u ∈ List.range' 1 n, ∃ g ∈ chain s₀.resetFSM (pre ++ [h]), g.nodepos = u) := by
  have hn0 : 0 < n := lt_of_lt_of_le (by decide) hn
  have hposp : ∀ {pre}, pre <+: hits → ∀ h ∈ pre, h.pos ≠ 0 := fun hp h hh => hpos h (hp.subset hh)
  refine ⟨⟨noDoubles_of_asc hn0 hs₀ hpos, ?_⟩, ?_⟩
  · intro hclear pre h hp
    obtain ⟨s, out, hrun, -, hs⟩ := run_spec hn0 hs₀ (hposp hp) (hclear.of_pre hp)
    exact ⟨s, out, hrun, (hs (by simp)).1⟩
  · intro hclear hnode pre h s out s' found hp hrun hhit u hu
    obtain ⟨s₁, out₁, hrun₁, hinv, -⟩ := run_spec hn0 hs₀ (hposp ((prefix_append _ _).trans hp))
      (hclear.of_pre ((prefix_append _ _).trans hp))
    cases hrun₁.symm.trans hrun
    obtain ⟨s₂, added, hhit₂, hstep⟩ := hitFSM_spec hn0 hinv (hposp hp h (mem_append_right _ mem_cons_self))
    cases hhit₂.symm.trans hhit
    obtain ⟨s₃, out₃, hrun₃, -, hs₃⟩ := run_spec hn0 hs₀ (hposp hp) (hclear.of_pre hp)
    obtain ⟨hasc, hmem⟩ := hs₃ (by simp)
    rw [Fsm.run_snoc hrun, hhit] at hrun₃
    cases hrun₃
    -- an ascending table of `n` operands out of `n` has all of them
    have hsub : s'.npos ⊆ List.range' 1 n := by
      intro v hv
      obtain ⟨g, hg, rfl⟩ := hmem v hv
      exact hnode g (hp.subset (chain_subset _ _ hg))
    have hlen : (List.range' 1 n).length ≤ s'.npos.length := by
      rw [length_range', hstep.whole rfl]
    have hnd : s'.npos.Nodup := hasc.imp ne_of_lt
    have hperm := (subperm_of_subset hnd hsub).perm_of_length_le hlen
    exact hmem u (hperm.mem_iff.mpr hu)

/-- The operands `b`, `a`, `c` and `b` again, of `a NEAR/5 b NEAR/5 c NEAR/5 d`. -/
def nearHits : List ExtHit :=
  [{ rowID := 1, hitpos := 1, querypos := 2, nodepos := 2 }, { rowID := 1, hitpos := 2, querypos := 1, nodepos := 1 },
   { rowID := 1, hitpos := 3, querypos := 3, nodepos := 3 }, { rowID := 1, hitpos := 4, querypos := 2, nodepos := 2 }]

/-- **A chain without `d` is reported**: the second `b` enters the table next to the first. -/
theorem near_reports_incomplete : ∃ s found, fsm.run (create 5 4 false).resetFSM nearHits = some (s, [found]) ∧
    s.npos = [1, 2, 2, 3] ∧ ∀ g ∈ nearHits, g.nodepos ≠ 4 :=
  ⟨_, _, rfl, by decide, by decide⟩

theorem ascending_iff_noDoubles_nearHits :
    (∀ pre h, pre ++ [h] <+: nearHits →
        ∃ s out, fsm.run (create 5 3 false).resetFSM (pre ++ [h]) = some (s, out) ∧ s.npos.Pairwise (· < ·)) ↔
      NoDoubles (create 5 3 false) nearHits :=
  (ascending_iff_noDoubles (by decide) (generic_create false (by decide)) (by decide)).1

end Multinear
end NWay
end Manticore

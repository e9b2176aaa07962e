import Manticore.ExtNodeSweep
/-!
# ExtNodeLoops — the loops of the four operators sweep their children

`Going` is the loop invariant, the same for the four loops: the children are in order, the chunks are ahead of them,
and the documents emitted are what a sweep of the two sides has kept.  Each loop ends (`Ends`) once its fuel exceeds
the rows left (`leftIn`), as every round uses up at least one of them.
-/
namespace Manticore
namespace ExtNode

open Sweep (Join Side Ready Yields AgreeOn Swept Pops pops_head pops_of_lt pops_below)
open List
open Option (bind_eq_bind bind_some)

variable {W : Type} {j : Join} {a b : Side RowID} {l r : Node W} {docL docR out : List (ExtDoc W)}

def leftIn (l r : Node W) (docL docR : List (ExtDoc W)) : Nat := l.size + r.size + docL.length + docR.length

theorem leftIn_consL (l r : Node W) (d : ExtDoc W) (docL docR : List (ExtDoc W)) :
    leftIn l r (d :: docL) docR = leftIn l r docL docR + 1 := by
  simp only [leftIn, length_cons]
  omega

theorem leftIn_consR (l r : Node W) (d : ExtDoc W) (docL docR : List (ExtDoc W)) :
    leftIn l r docL (d :: docR) = leftIn l r docL docR + 1 := by
  simp only [leftIn, length_cons]
  omega

theorem Warm.leftIn_leL {s : Set RowID} {l' : Node W} {docL' : List (ExtDoc W)} (h : Warm s l docL l' docL') :
    leftIn l' r docL' docR ≤ leftIn l r docL docR := by
  have := h.size
  simp only [leftIn]
  omega

theorem Warm.leftIn_leR {s : Set RowID} {r' : Node W} {docR' : List (ExtDoc W)} (h : Warm s r docR r' docR') :
    leftIn l r' docL docR' ≤ leftIn l r docL docR := by
  have := h.size
  simp only [leftIn]
  omega

structure Going (j : Join) (a b : Side RowID) (l r : Node W) (docL docR out : List (ExtDoc W)) : Prop where
  invL : l.Inv
  invR : r.Inv
  readyL : Ready (rows docL) l.side
  readyR : Ready (rows docR) r.side
  swept : Swept j a b (rows out) (l.side.push (rows docL)) (r.side.push (rows docR))
  length_le : out.length ≤ MAX_BLOCK_DOCS - 1

/-- **What a loop leaves when it stops**: nothing emitted means that nothing is left to emit. -/
structure Ends (j : Join) (a b : Side RowID) (total : Nat) (s : Stopped W) : Prop where
  going : Going j a b s.left s.right s.docL s.docR s.out
  last : s.out = [] → (j.join (s.left.side.push (rows s.docL)) (s.right.side.push (rows s.docR))).maybe = ∅
  size : leftIn s.left s.right s.docL s.docR + s.out.length ≤ total
  pass : s.passthrough = true → s.docL = [] ∧ s.docR = [] ∧ s.right.side.maybe = ∅

/-- A loop that has returned and ended well, with at most `total` rows accounted for. -/
def Stops (j : Join) (a b : Side RowID) (total : Nat) (res : Option (Stopped W)) : Prop :=
  ∃ s, res = some s ∧ Ends j a b total s

theorem Stops.mono {m n : Nat} {res : Option (Stopped W)} (h : Stops j a b m res) (hmn : m ≤ n) :
    Stops j a b n res := by
  obtain ⟨s, hs, he⟩ := h
  exact ⟨s, hs, he.going, he.last, le_trans he.size hmn, he.pass⟩

section
variable (h : Going j a b l r docL docR out) {docL' docR' : List (ExtDoc W)}

include h

theorem Going.warmL {l' : Node W}
    (hw : Warm (j.readsLeft (r.side.push (rows docR))) l docL l' docL') : Going j a b l' r docL' docR out :=
  ⟨hw.inv, h.invR, hw.ready, h.readyR, h.swept.refineL hw.agree, h.length_le⟩

theorem Going.warmR {r' : Node W}
    (hw : Warm (j.readsRight (l.side.push (rows docL))) r docR r' docR') : Going j a b l r' docL docR' out :=
  ⟨h.invL, hw.inv, h.readyL, hw.ready, h.swept.refineR hw.agree, h.length_le⟩

theorem Going.emit {p q : Prop} {d : ExtDoc W}
    (hL : Pops p d.rowID (l.side.push (rows docL)) (l.side.push (rows docL')))
    (hR : Pops q d.rowID (r.side.push (rows docR)) (r.side.push (rows docR')))
    (rL : Ready (rows docL') l.side) (rR : Ready (rows docR') r.side) (hk : j.keep p q)
    (hlen : out.length < MAX_BLOCK_DOCS - 1) : Going j a b l r docL' docR' (out ++ [d]) := by
  refine ⟨h.invL, h.invR, rL, rR, ?_, length_append ▸ hlen⟩
  rw [rows_append]
  exact h.swept.emit hL hR hk

theorem Going.drop {p q : Prop} {m : RowID} (hL : Pops p m (l.side.push (rows docL)) (l.side.push (rows docL')))
    (hR : Pops q m (r.side.push (rows docR)) (r.side.push (rows docR')))
    (rL : Ready (rows docL') l.side) (rR : Ready (rows docR') r.side) (hk : ¬ j.keep p q) :
    Going j a b l r docL' docR' out :=
  ⟨h.invL, h.invR, rL, rR, h.swept.drop hL hR hk, h.length_le⟩

theorem Going.full (hf : ¬ out.length < MAX_BLOCK_DOCS - 1) :
    Stops j a b (leftIn l r docL docR + out.length) (some ⟨out, l, r, docL, docR, false⟩) := by
  refine ⟨_, rfl, h, fun he => absurd ?_ hf, le_refl _, fun h => nomatch h⟩
  rw [show out = [] from he]
  exact Nat.zero_lt_succ 30

theorem Going.exhausted
    (he : ∀ x, ¬ j.may (x ∈ (l.side.push (rows docL)).maybe) (x ∈ (r.side.push (rows docR)).maybe)) :
    Stops j a b (leftIn l r docL docR + out.length) (some ⟨out, l, r, docL, docR, false⟩) :=
  ⟨_, rfl, h, fun _ => Set.eq_empty_of_forall_notMem he, le_refl _, fun h => nomatch h⟩

end

theorem not_mem_exhausted {n : Node W} (h : n.side.maybe = ∅) (x : RowID) :
    x ∉ (n.side.push (rows ([] : List (ExtDoc W)))).maybe := by
  rw [rows_nil, Sweep.push_nil, h]
  exact Set.notMem_empty x

variable {K : Nat} {get : Get W} {dL dR : ExtDoc W} {restL restR : List (ExtDoc W)}

theorem Going.emit_both [Add W] (h : Going j a b l r (dL :: restL) (dR :: restR) out) (heq : dL.rowID = dR.rowID)
    (hk : j.keep True True) (hlen : out.length < MAX_BLOCK_DOCS - 1) :
    Going j a b l r restL restR (out ++ [dL.both dR]) := by
  have hR : Pops True (dL.both dR).rowID (r.side.push (rows (dR :: restR))) (r.side.push (rows restR)) :=
    (show dR.rowID = (dL.both dR).rowID from heq.symm) ▸ pops_head h.readyR
  exact h.emit (pops_head h.readyL) hR h.readyL.tail h.readyR.tail hk hlen

theorem pops_exhausted {n : Node W} (h : n.side.maybe = ∅) (m : RowID) :
    Pops False m (n.side.push (rows ([] : List (ExtDoc W)))) (n.side.push (rows ([] : List (ExtDoc W)))) :=
  pops_below fun x hx => absurd hx (not_mem_exhausted h x)

section
variable [Add W]

/-- **The rounds that compare the documents of both chunks**: the least row goes, and is kept if the join keeps it. -/
theorem Going.compare {loop : List (ExtDoc W) → List (ExtDoc W) → List (ExtDoc W) → Option (Stopped W)}
    {outL outR : List (ExtDoc W)} {total : Nat} (h : Going j a b l r (dL :: restL) (dR :: restR) out)
    (hlen : out.length < MAX_BLOCK_DOCS - 1) (hboth : j.keep True True)
    (hL : outL = out ++ [dL] ∧ j.keep True False ∨ outL = out ∧ ¬ j.keep True False)
    (hR : outR = out ++ [dR] ∧ j.keep False True ∨ outR = out ∧ ¬ j.keep False True)
    (htotal : leftIn l r restL restR + 2 + out.length ≤ total)
    (hloop : ∀ docL docR out, Going j a b l r docL docR out → leftIn l r docL docR < leftIn l r restL restR + 2 →
      leftIn l r docL docR + out.length ≤ total → Stops j a b total (loop docL docR out)) :
    Stops j a b total (if dL.rowID = dR.rowID then loop restL restR (out ++ [dL.both dR])
      else if dL.rowID < dR.rowID then loop restL (dR :: restR) outL else loop (dL :: restL) restR outR) := by
  have hone : ∀ d : ExtDoc W, (out ++ [d]).length = out.length + 1 := fun d => length_append
  by_cases heq : dL.rowID = dR.rowID
  · rw [if_pos heq]
    exact hloop _ _ _ (h.emit_both heq hboth hlen) (by omega) (by rw [hone]; omega)
  rw [if_neg heq]
  by_cases hlt : dL.rowID < dR.rowID
  · rw [if_pos hlt]
    have hpop := pops_of_lt h.readyR hlt
    rcases hL with ⟨rfl, hk⟩ | ⟨rfl, hk⟩
    · exact hloop _ _ _ (h.emit (pops_head h.readyL) hpop h.readyL.tail h.readyR hk hlen) (by rw [leftIn_consR]; omega)
        (by rw [leftIn_consR, hone]; omega)
    · exact hloop _ _ _ (h.drop (pops_head h.readyL) hpop h.readyL.tail h.readyR hk) (by rw [leftIn_consR]; omega)
        (by rw [leftIn_consR]; omega)
  · rw [if_neg hlt]
    have hpop := pops_of_lt h.readyL (lt_of_le_of_ne (Nat.le_of_not_lt hlt) (Ne.symm heq))
    rcases hR with ⟨rfl, hk⟩ | ⟨rfl, hk⟩
    · exact hloop _ _ _ (h.emit hpop (pops_head h.readyR) h.readyL h.readyR.tail hk hlen) (by rw [leftIn_consL]; omega)
        (by rw [leftIn_consL, hone]; omega)
    · exact hloop _ _ _ (h.drop hpop (pops_head h.readyR) h.readyL h.readyR.tail hk) (by rw [leftIn_consL]; omega)
        (by rw [leftIn_consL]; omega)

/-- **`ExtAnd_c::GetDocsChunk`'s loop.** -/
theorem andLoop_spec (hget : Good K get) : ∀ (k : Nat) (l r : Node W) (docL docR out : List (ExtDoc W)),
    Going .both a b l r docL docR out → l.size < K → r.size < K → leftIn l r docL docR < k →
    Stops .both a b (leftIn l r docL docR + out.length) (andLoop get k l r docL docR out)
  | 0, _, _, _, _, _, _, _, _, hk => absurd hk (Nat.not_lt_zero _)
  | k + 1, l, r, docL, docR, out, h, hl, hr, hk => by
    by_cases hlen : out.length < MAX_BLOCK_DOCS - 1
    · rw [andLoop, if_pos hlen]
      obtain ⟨docL', l', he, hw⟩ := warmupDocsHint_spec hget h.invL h.readyL h.readyR hl
      have hl' := lt_of_le_of_lt hw.small hl
      have hsL : leftIn l' r docL' docR ≤ leftIn l r docL docR := hw.leftIn_leL
      replace h := h.warmL hw
      simp only [he, bind_eq_bind, bind_some]
      cases docL' with
      | nil => exact (h.exhausted fun x hx => not_mem_exhausted (hw.last rfl) x hx.1).mono (by omega)
      | cons dL restL =>
        obtain ⟨docR', r', he, hw⟩ := warmupDocsHint_spec hget h.invR h.readyR h.readyL hr
        have hr' := lt_of_le_of_lt hw.small hr
        have hsR : leftIn l' r' (dL :: restL) docR' ≤ leftIn l' r (dL :: restL) docR := hw.leftIn_leR
        replace h := h.warmR hw
        simp only [he, bind_some]
        cases docR' with
        | nil => exact (h.exhausted fun x hx => not_mem_exhausted (hw.last rfl) x hx.2).mono (by omega)
        | cons dR restR =>
          rw [leftIn_consL, leftIn_consR] at hsR
          refine h.compare hlen ⟨trivial, trivial⟩ (.inr ⟨rfl, fun hk => hk.2⟩) (.inr ⟨rfl, fun hk => hk.1⟩) (by omega)
            fun docL docR out hg hless htot => ?_
          exact (andLoop_spec hget k l' r' docL docR out hg hl' hr' (by omega)).mono htot
    · rw [andLoop, if_neg hlen]
      exact h.full hlen

/-- **`ExtOr_c::GetDocsChunk`'s loop.** -/
theorem orLoop_spec (hget : Good K get) : ∀ (k : Nat) (l r : Node W) (docL docR out : List (ExtDoc W)),
    Going .either a b l r docL docR out → l.size < K → r.size < K → leftIn l r docL docR < k →
    Stops .either a b (leftIn l r docL docR + out.length) (orLoop get k l r docL docR out)
  | 0, _, _, _, _, _, _, _, _, hk => absurd hk (Nat.not_lt_zero _)
  | k + 1, l, r, docL, docR, out, h, hl, hr, hk => by
    by_cases hlen : out.length < MAX_BLOCK_DOCS - 1
    · rw [orLoop, if_pos hlen]
      obtain ⟨docL', l', heL, hwL⟩ := warmupDocs_spec hget Set.univ h.invL h.readyL hl
      replace h := h.warmL hwL
      obtain ⟨docR', r', heR, hwR⟩ := warmupDocs_spec hget Set.univ h.invR h.readyR hr
      replace h := h.warmR hwR
      have hl' := lt_of_le_of_lt hwL.small hl
      have hr' := lt_of_le_of_lt hwR.small hr
      have hs : leftIn l' r' docL' docR' ≤ leftIn l r docL docR := le_trans hwR.leftIn_leR hwL.leftIn_leL
      have hone : ∀ d : ExtDoc W, (out ++ [d]).length = out.length + 1 := fun d => length_append
      simp only [heL, heR, bind_eq_bind, bind_some]
      cases docL' with
      | nil =>
        cases docR' with
        | nil =>
          refine (h.exhausted fun x hx => ?_).mono (by omega)
          exact hx.elim (not_mem_exhausted (hwL.last rfl) x) (not_mem_exhausted (hwR.last rfl) x)
        | cons dR restR =>
          rw [leftIn_consR] at hs
          have hd := h.emit (pops_exhausted (hwL.last rfl) dR.rowID) (pops_head h.readyR) h.readyL h.readyR.tail
            (.inr trivial) hlen
          exact (orLoop_spec hget k l' r' [] restR _ hd hl' hr' (by omega)).mono (by rw [hone]; omega)
      | cons dL restL =>
        rw [leftIn_consL] at hs
        cases docR' with
        | nil =>
          have hd := h.emit (pops_head h.readyL) (pops_exhausted (hwR.last rfl) dL.rowID) h.readyL.tail h.readyR
            (.inl trivial) hlen
          exact (orLoop_spec hget k l' r' restL [] _ hd hl' hr' (by omega)).mono (by rw [hone]; omega)
        | cons dR restR =>
          rw [leftIn_consR] at hs
          refine h.compare hlen (.inl trivial) (.inl ⟨rfl, .inl trivial⟩) (.inl ⟨rfl, .inr trivial⟩) (by omega)
            fun docL docR out hg hless htot => ?_
          exact (orLoop_spec hget k l' r' docL docR out hg hl' hr' (by omega)).mono htot
    · rw [orLoop, if_neg hlen]
      exact h.full hlen

/-- **`ExtMaybe_c::GetDocsChunk`'s loop**, entered with a right child already found empty or not. -/
theorem maybeLoop_spec (hget : Good K get) : ∀ (k : Nat) (rightEmpty : Bool) (l r : Node W)
    (docL docR out : List (ExtDoc W)), Going .left a b l r docL docR out →
    (rightEmpty = true → docR = [] ∧ r.side.maybe = ∅) → l.size < K → r.size < K → leftIn l r docL docR < k →
    Stops .left a b (leftIn l r docL docR + out.length) (maybeLoop get k rightEmpty l r docL docR out)
  | 0, _, _, _, _, _, _, _, _, _, _, hk => absurd hk (Nat.not_lt_zero _)
  | k + 1, rightEmpty, l, r, docL, docR, out, h, hre, hl, hr, hk => by
    by_cases hlen : out.length < MAX_BLOCK_DOCS - 1
    · rw [maybeLoop, if_pos hlen]
      obtain ⟨docL', l', heL, hwL⟩ := warmupDocs_spec hget Set.univ h.invL h.readyL hl
      have hl' := lt_of_le_of_lt hwL.small hl
      have hsL : leftIn l' r docL' docR ≤ leftIn l r docL docR := hwL.leftIn_leL
      have hone : ∀ d : ExtDoc W, (out ++ [d]).length = out.length + 1 := fun d => length_append
      replace h := h.warmL hwL
      simp only [heL, bind_eq_bind, bind_some]
      cases docL' with
      | nil => exact (h.exhausted fun x hx => not_mem_exhausted (hwL.last rfl) x hx).mono (by omega)
      | cons dL restL =>
        -- the document is emitted unless the right child stands before it
        have hempty : ∀ r' : Node W, r'.size < K → Going .left a b l' r' (dL :: restL) [] out → r'.side.maybe = ∅ →
            leftIn l' r' (dL :: restL) [] ≤ leftIn l r docL docR →
            Stops .left a b (leftIn l r docL docR + out.length) (maybeLoop get k true l' r' restL [] (out ++ [dL])) := by
          intro r' hr' h he hs
          rw [leftIn_consL] at hs
          have hd := h.emit (pops_head h.readyL) (pops_exhausted he dL.rowID) h.readyL.tail h.readyR trivial hlen
          exact (maybeLoop_spec hget k true l' r' restL [] _ hd (fun _ => ⟨rfl, he⟩) hl' hr' (by omega)).mono
            (by rw [hone]; omega)
        cases rightEmpty with
        | true =>
          obtain ⟨rfl, he⟩ := hre rfl
          exact hempty r hr h he hsL
        | false =>
          obtain ⟨docR', r', heR, hwR⟩ := warmupDocs_spec hget Set.univ h.invR h.readyR hr
          have hr' := lt_of_le_of_lt hwR.small hr
          have hsR : leftIn l' r' (dL :: restL) docR' ≤ leftIn l r docL docR := le_trans hwR.leftIn_leR hsL
          replace h := h.warmR hwR
          simp only [heR, Bool.false_eq_true, if_false, bind_some]
          cases docR' with
          | nil => exact hempty r' hr' h (hwR.last rfl) hsR
          | cons dR restR =>
            rw [leftIn_consL, leftIn_consR] at hsR
            refine h.compare hlen trivial (.inl ⟨rfl, trivial⟩) (.inr ⟨rfl, id⟩) (by omega) fun docL docR out hg hless htot => ?_
            exact (maybeLoop_spec hget k false l' r' docL docR out hg nofun hl' hr' (by omega)).mono htot
    · rw [maybeLoop, if_neg hlen]
      exact h.full hlen

end

/-! ### `ExtAndNot_c` -/

theorem copyAccepted_spec : ∀ (docL out : List (ExtDoc W)), Going .diff a b l r docL (dR :: restR) out →
    ∃ docL' out', copyAccepted dR.rowID docL out = (docL', out') ∧ Going .diff a b l r docL' (dR :: restR) out' ∧
      docL'.length + out'.length = docL.length + out.length ∧ docL'.length ≤ docL.length ∧
      (docL'.length = docL.length → ∀ dL restL, docL' = dL :: restL → out.length < MAX_BLOCK_DOCS - 1 →
        dR.rowID ≤ dL.rowID)
  | [], out, h => ⟨[], out, rfl, h, rfl, le_refl _, fun _ _ _ he => nomatch he⟩
  | dL :: restL, out, h => by
    rw [copyAccepted]
    by_cases hc : dL.rowID < dR.rowID ∧ out.length < MAX_BLOCK_DOCS - 1
    · rw [if_pos hc]
      have hd := h.emit (pops_head h.readyL) (pops_of_lt h.readyR hc.1) h.readyL.tail h.readyR ⟨trivial, id⟩ hc.2
      obtain ⟨docL', out', he, hg, hsum, hle, _⟩ := copyAccepted_spec restL _ hd
      simp only [length_append, length_singleton] at hsum
      exact ⟨docL', out', he, hg, by simp only [length_cons]; omega, Nat.le_succ_of_le hle,
        fun hsame => by simp only [length_cons] at hsame; omega⟩
    · rw [if_neg hc]
      refine ⟨dL :: restL, out, rfl, h, rfl, le_refl _, fun _ d ds hds hlen => ?_⟩
      obtain ⟨rfl, -⟩ := List.cons.inj hds
      exact Nat.le_of_not_lt fun hlt => hc ⟨hlt, hlen⟩

theorem skipRejected_spec : ∀ docR : List (ExtDoc W), Going .diff a b l r (dL :: restL) docR out →
    Going .diff a b l r (dL :: restL) (skipRejected dL.rowID docR) out ∧
      (skipRejected dL.rowID docR).length ≤ docR.length ∧
      ((skipRejected dL.rowID docR).length = docR.length → ∀ dR restR, docR = dR :: restR →
        skipRejected dL.rowID docR = docR ∧ dL.rowID ≤ dR.rowID)
  | [], h => ⟨h, le_refl _, nofun⟩
  | dR :: restR, h => by
    rw [skipRejected]
    by_cases hlt : dR.rowID < dL.rowID
    · rw [if_pos hlt]
      have hd := h.drop (pops_of_lt h.readyL hlt) (pops_head h.readyR) h.readyL h.readyR.tail fun hf => hf.1
      obtain ⟨hg, hle, -⟩ := skipRejected_spec restR hd
      refine ⟨hg, Nat.le_succ_of_le hle, fun hsame => ?_⟩
      rw [length_cons] at hsame
      omega
    · rw [if_neg hlt]
      refine ⟨h, le_refl _, fun _ d ds hds => ⟨rfl, ?_⟩⟩
      obtain ⟨rfl, -⟩ := List.cons.inj hds
      exact Nat.le_of_not_lt hlt

theorem skipMatching_spec : ∀ docL docR : List (ExtDoc W), Going .diff a b l r docL docR out →
    Going .diff a b l r (skipMatching docL docR).1 (skipMatching docL docR).2 out ∧
      (skipMatching docL docR).1.length ≤ docL.length ∧ (skipMatching docL docR).2.length ≤ docR.length ∧
      ((skipMatching docL docR).1.length = docL.length → ∀ dL restL dR restR, docL = dL :: restL →
        docR = dR :: restR → dL.rowID ≠ dR.rowID)
  | [], docR, h => by
    exact ⟨h, le_refl _, le_refl _, nofun⟩
  | _ :: _, [], h => ⟨h, le_refl _, le_refl _, nofun⟩
  | dL :: restL, dR :: restR, h => by
    rw [skipMatching]
    by_cases heq : dL.rowID = dR.rowID
    · rw [if_pos heq]
      have hR : Pops True dL.rowID (r.side.push (rows (dR :: restR))) (r.side.push (rows restR)) :=
        heq ▸ pops_head h.readyR
      have hd := h.drop (pops_head h.readyL) hR h.readyL.tail h.readyR.tail fun hf => hf.2 trivial
      obtain ⟨hg, hle, hle', -⟩ := skipMatching_spec restL restR hd
      refine ⟨hg, Nat.le_succ_of_le hle, Nat.le_succ_of_le hle', fun hsame => ?_⟩
      rw [length_cons] at hsame
      omega
    · rw [if_neg heq]
      refine ⟨h, le_refl _, le_refl _, fun _ d ds e es hd he => ?_⟩
      obtain ⟨rfl, -⟩ := List.cons.inj hd
      obtain ⟨rfl, -⟩ := List.cons.inj he
      exact heq

/-- The inner loop broke, with less than `bound` rows left in the chunks and at most `total` accounted for. -/
def Filtered (a b : Side RowID) (l r : Node W) (bound total : Nat)
    (res : Option (List (ExtDoc W) × List (ExtDoc W) × List (ExtDoc W))) : Prop :=
  ∃ docL docR out, res = some (docL, docR, out) ∧ Going .diff a b l r docL docR out ∧
    docL.length + docR.length < bound ∧ docL.length + docR.length + out.length ≤ total

theorem Filtered.mono {m n m' n' : Nat} {res : Option (List (ExtDoc W) × List (ExtDoc W) × List (ExtDoc W))}
    (h : Filtered a b l r m n res) (hm : m ≤ m') (hn : n ≤ n') : Filtered a b l r m' n' res := by
  obtain ⟨docL, docR, out, he, hg, h1, h2⟩ := h
  exact ⟨docL, docR, out, he, hg, lt_of_lt_of_le h1 hm, le_trans h2 hn⟩

theorem Going.breaks (h : Going .diff a b l r docL docR out) {m n : Nat} (hm : docL.length + docR.length < m)
    (hn : docL.length + docR.length + out.length ≤ n) : Filtered a b l r m n (some (docL, docR, out)) :=
  ⟨docL, docR, out, rfl, h, hm, hn⟩

theorem filterLoop_spec : ∀ (k : Nat) (dL : ExtDoc W) (restL : List (ExtDoc W)) (dR : ExtDoc W)
    (restR out : List (ExtDoc W)), Going .diff a b l r (dL :: restL) (dR :: restR) out →
    out.length < MAX_BLOCK_DOCS - 1 → restL.length + restR.length < k →
    Filtered a b l r (restL.length + restR.length + 2) (restL.length + restR.length + 2 + out.length)
      (filterLoop k (dL :: restL) (dR :: restR) out)
  | 0, _, _, _, _, _, _, _, hk => absurd hk (Nat.not_lt_zero _)
  | k + 1, dL, restL, dR, restR, out, h, hlen, hk => by
    obtain ⟨docL', out', he, hg, hsum, hle, hfirst⟩ := copyAccepted_spec (dL :: restL) out h
    rw [filterLoop, he]
    rw [length_cons] at hsum hle
    cases docL' with
    | nil =>
      refine hg.breaks ?_ ?_ <;> simp only [length_nil, length_cons] <;> omega
    | cons dL' restL' =>
      rw [length_cons] at hsum hle
      dsimp only
      by_cases hfull : out'.length = MAX_BLOCK_DOCS - 1
      · rw [if_pos hfull]
        refine hg.breaks ?_ ?_ <;> simp only [length_cons] <;> omega
      rw [if_neg hfull]
      obtain ⟨hg, hleR, hskipped⟩ := skipRejected_spec (dR :: restR) hg
      cases hskip : skipRejected dL'.rowID (dR :: restR) with
      | nil =>
        rw [hskip] at hg
        refine hg.breaks ?_ ?_ <;> simp only [length_nil, length_cons] <;> omega
      | cons dR' restR' =>
        rw [hskip] at hg hleR hskipped
        obtain ⟨hg, hmL, hmR, hmatch⟩ := skipMatching_spec _ _ hg
        -- had none of the three inner loops moved, both cursors would stand at the same row
        have hmoved : (skipMatching (dL' :: restL') (dR' :: restR')).1.length +
            (skipMatching (dL' :: restL') (dR' :: restR')).2.length < restL.length + restR.length + 2 := by
          by_contra hstuck
          simp only [length_cons] at hmL hmR hleR hstuck
          obtain ⟨hsame, hge⟩ := hskipped (by simp only [length_cons]; omega) dR restR rfl
          obtain ⟨rfl, rfl⟩ := List.cons.inj hsame
          have hle' := hfirst (by simp only [length_cons]; omega) dL' restL' rfl hlen
          exact hmatch (by simp only [length_cons]; omega) _ _ _ _ rfl rfl (le_antisymm hge hle')
        dsimp only
        generalize hm : skipMatching (dL' :: restL') (dR' :: restR') = m at hg hmL hmR hmoved
        obtain ⟨docL'', docR''⟩ := m
        simp only [length_cons] at hmL hmR hleR hmoved
        cases docL'' with
        | nil => exact hg.breaks hmoved (by dsimp only at hmoved hmL ⊢; omega)
        | cons dL'' restL'' =>
          cases docR'' with
          | nil => exact hg.breaks hmoved (by dsimp only at hmoved hmL ⊢; omega)
          | cons dR'' restR'' =>
            simp only [length_cons] at hmoved hmL hmR
            have hlen' : out'.length < MAX_BLOCK_DOCS - 1 := lt_of_le_of_ne hg.length_le hfull
            exact (filterLoop_spec k dL'' restL'' dR'' restR'' out' hg hlen' (by omega)).mono (by omega) (by omega)

theorem copyLeftovers_spec (hr : r.side.maybe = ∅) : ∀ docL out : List (ExtDoc W), Going .diff a b l r docL [] out →
    Going .diff a b l r (copyLeftovers docL out).1 [] (copyLeftovers docL out).2 ∧
      (copyLeftovers docL out).1.length + (copyLeftovers docL out).2.length = docL.length + out.length ∧
      ((copyLeftovers docL out).2 = [] → (copyLeftovers docL out).1 = [])
  | [], out, h => ⟨h, rfl, fun _ => rfl⟩
  | dL :: restL, out, h => by
    rw [copyLeftovers]
    by_cases hlen : out.length < MAX_BLOCK_DOCS - 1
    · rw [if_pos hlen]
      have hd := h.emit (pops_head h.readyL) (pops_exhausted hr dL.rowID) h.readyL.tail h.readyR ⟨trivial, id⟩ hlen
      obtain ⟨hg, hsum, hne⟩ := copyLeftovers_spec hr restL _ hd
      refine ⟨hg, ?_, hne⟩
      rw [hsum, length_append, length_singleton, length_cons]
      omega
    · rw [if_neg hlen]
      refine ⟨h, rfl, fun he => absurd ?_ hlen⟩
      rw [show out = [] from he]
      exact Nat.zero_lt_succ 30

/-- **`ExtAndNot_c::GetDocsChunk`'s outer loop.** -/
theorem andNotLoop_spec (hget : Good K get) : ∀ (k : Nat) (l r : Node W) (docL docR out : List (ExtDoc W)),
    Going .diff a b l r docL docR out → l.size < K → r.size < K → leftIn l r docL docR < k →
    Stops .diff a b (leftIn l r docL docR + out.length) (andNotLoop get k l r docL docR out)
  | 0, _, _, _, _, _, _, _, _, hk => absurd hk (Nat.not_lt_zero _)
  | k + 1, l, r, docL, docR, out, h, hl, hr, hk => by
    by_cases hlen : out.length < MAX_BLOCK_DOCS - 1
    · rw [andNotLoop, if_pos hlen]
      obtain ⟨docL', l', heL, hwL⟩ := warmupDocs_spec hget Set.univ h.invL h.readyL hl
      have hl' := lt_of_le_of_lt hwL.small hl
      have hsL : leftIn l' r docL' docR ≤ leftIn l r docL docR := hwL.leftIn_leL
      replace h := h.warmL hwL
      simp only [heL, bind_eq_bind, bind_some]
      cases docL' with
      | nil => exact (h.exhausted fun x hx => not_mem_exhausted (hwL.last rfl) x hx).mono (by omega)
      | cons dL restL =>
        obtain ⟨docR', r', heR, hwR⟩ := warmupDocs_spec hget Set.univ h.invR h.readyR hr
        have hr' := lt_of_le_of_lt hwR.small hr
        have hs : leftIn l' r' (dL :: restL) docR' ≤ leftIn l r docL docR := le_trans hwR.leftIn_leR hsL
        replace h := h.warmR hwR
        simp only [heR, bind_some]
        cases docR' with
        | nil =>
          -- the reject-list is over: what is left of the chunk is accepted, and the rest is passed through
          obtain ⟨hg, hsum, hne⟩ := copyLeftovers_spec (hwR.last rfl) (dL :: restL) out h
          refine ⟨_, rfl, hg, fun he => ?_, ?_, fun hp => ⟨List.isEmpty_iff.1 hp, rfl, hwR.last rfl⟩⟩
          · exfalso
            rw [hne he, show (copyLeftovers (dL :: restL) out).2 = [] from he] at hsum
            simp only [length_nil, length_cons] at hsum
            omega
          · simp only [leftIn, length_cons, length_nil] at hs hsum ⊢
            omega
        | cons dR restR =>
          have hrounds : restL.length + restR.length < k := by
            simp only [leftIn, length_cons] at hs hk
            omega
          obtain ⟨docL', docR', out', he, hg, hless, htot⟩ := filterLoop_spec k dL restL dR restR out h hlen hrounds
          simp only [he, bind_some]
          refine (andNotLoop_spec hget k l' r' docL' docR' out' hg hl' hr' ?_).mono ?_ <;>
            simp only [leftIn, length_cons] at hs hk ⊢ <;> omega
    · rw [andNotLoop, if_neg hlen]
      exact h.full hlen

/-! ### Every node -/

theorem gets_of_stops {kind : Kind} {pass : Bool} {res : Option (Stopped W)}
    (h : Stops kind.join (l.side.push (rows docL)) (r.side.push (rows docR)) (leftIn l r docL docR) res) :
    ∃ docs n', res.map (fun s => (s.out, Node.twofer kind s.passthrough s.left s.right s.docL s.docR)) =
      some (docs, n') ∧ Gets (.twofer kind pass l r docL docR) docs n' := by
  obtain ⟨s, rfl, h⟩ := h
  have hinv : (Node.twofer kind s.passthrough s.left s.right s.docL s.docR).Inv :=
    ⟨h.going.invL, h.going.invR, h.going.readyL, h.going.readyR, h.pass⟩
  refine ⟨s.out, _, rfl, hinv, h.going.swept.yields fun he => h.last (rows_eq_nil.1 he), h.going.length_le, ?_⟩
  have hsize := h.size
  simp only [leftIn, Node.size] at hsize ⊢
  omega

theorem term_gets (t : ExtTerm W) (h : Ascending t.postings) :
    Gets (.term t) t.getDocsChunk.1 (.term t.getDocsChunk.2) := by
  by_cases hd : t.docs = 0
  · rw [ExtTerm.getDocsChunk, if_pos hd]
    have hnil : t.rowsLeft = [] := if_pos hd
    refine ⟨h, ?_, Nat.zero_le _, Nat.le_refl _⟩
    rw [rows_nil, Node.side, hnil]
    exact Sweep.yields_ofList (c := []) (l := []) .nil fun _ => rfl
  · rw [ExtTerm.getDocsChunk, if_neg hd]
    obtain ⟨new, t', he, hr, hl, hz, ha, hn⟩ := t.fill_spec hd t.postings [] h (Nat.zero_le _)
    rw [he]
    refine ⟨ha, ?_, hl, hn⟩
    have hrows : t.rowsLeft = rows new ++ t'.rowsLeft := by rw [ExtTerm.rowsLeft, if_neg hd, hr]
    have hasc : (rows new ++ t'.rowsLeft).Pairwise (· < ·) := hr ▸ t.acceptedRows_asc h
    show Yields (.ofList t.rowsLeft) (rows new) (.ofList t'.rowsLeft)
    rw [hrows]
    refine Sweep.yields_ofList hasc fun hnil => if_pos (hz ?_)
    rw [rows_eq_nil.1 hnil]
    exact Nat.zero_lt_succ 30

/-- **One `GetDocsChunk` call**: with more fuel than there are rows left, it returns a chunk of what the node has still
to return. -/
theorem Node.getDocsChunk_good [Add W] (k : Nat) : Good k (Node.getDocsChunk k : Get W) := by
  induction k with
  | zero => exact fun _ _ hk => absurd hk (Nat.not_lt_zero _)
  | succ k ih =>
    intro node h hk
    cases node with
    | term t => exact ⟨_, _, rfl, term_gets t h⟩
    | twofer kind pass l r docL docR =>
      obtain ⟨hl, hr, rl, rr, hp⟩ := h
      simp only [Node.size] at hk
      have hgo : Going kind.join (l.side.push (rows docL)) (r.side.push (rows docR)) l r docL docR [] :=
        ⟨hl, hr, rl, rr, Swept.refl _ _ _, Nat.zero_le _⟩
      have hfuel : leftIn l r docL docR < k := by
        simp only [leftIn]
        omega
      have hkl : l.size < k := by omega
      have hkr : r.size < k := by omega
      simp only [Node.getDocsChunk]
      by_cases hpass : kind = .extAndNot ∧ pass = true
      · -- the right child is over: the left child's chunk is the node's
        obtain ⟨rfl, rfl⟩ := hpass
        obtain ⟨rfl, rfl, he⟩ := hp rfl
        obtain ⟨docs, l', hget, hg⟩ := ih l hl hkl
        simp only [and_self, if_true, hget, bind_eq_bind, bind_some]
        refine ⟨docs, _, rfl, ⟨hg.inv, hr, Ready.nil _, rr, hp⟩, ?_, hg.length_le, ?_⟩
        · simp only [Node.side, rows_nil, Sweep.push_nil]
          exact hg.yields.diff he
        · have hsize := hg.size
          simp only [Node.size]
          omega
      · simp only [if_neg hpass]
        cases kind with
        | extAnd => exact gets_of_stops (andLoop_spec ih k l r docL docR [] hgo hkl hkr hfuel)
        | extOr => exact gets_of_stops (orLoop_spec ih k l r docL docR [] hgo hkl hkr hfuel)
        | extMaybe =>
          have hre : false = true → docR = [] ∧ r.side.maybe = ∅ := fun he => absurd he Bool.false_ne_true
          exact gets_of_stops (maybeLoop_spec ih k false l r docL docR [] hgo hre hkl hkr hfuel)
        | extAndNot => exact gets_of_stops (andNotLoop_spec ih k l r docL docR [] hgo hkl hkr hfuel)

end ExtNode
end Manticore

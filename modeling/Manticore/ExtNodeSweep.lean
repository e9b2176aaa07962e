import Manticore.ExtNode
import Manticore.Sweep
/-!
# ExtNodeSweep — every `GetDocsChunk` is one chunk of a sweep

The side of a node (`Node.side`) is what it has still to return: a keyword's accepted postings, or the join of the two
children together with the parts of their chunks not used yet.  `Node.Inv` says that chunks are ahead of what is to
come.  One lemma per loop shows that it sweeps the two sides, row by row, until the chunk is full or a child that
it cannot do without is exhausted; the node's chunk is then what the sweep kept.
-/
namespace Manticore
namespace ExtNode

open Sweep (Join Side Ready Yields AgreeOn Told Swept Pops)
open List

variable {W : Type}

def rows (docs : List (ExtDoc W)) : List RowID := docs.map (·.rowID)

@[simp] theorem rows_nil : rows ([] : List (ExtDoc W)) = [] := rfl

@[simp] theorem rows_append (ds es : List (ExtDoc W)) : rows (ds ++ es) = rows ds ++ rows es := map_append

theorem rows_eq_nil {ds : List (ExtDoc W)} : rows ds = [] ↔ ds = [] := map_eq_nil_iff

/-! ### Keywords -/

/-- A document the keyword lets through. -/
def ExtTerm.accepts (t : ExtTerm W) (p : Posting) : Bool := !t.belowMin p && !t.aboveMax p && t.fieldsMatch p

def ExtTerm.acceptedRows (t : ExtTerm W) (ps : List Posting) : List RowID := (ps.filter t.accepts).map (·.rowID)

/-- The rows the keyword has still to return. -/
def ExtTerm.rowsLeft (t : ExtTerm W) : List RowID := if t.docs = 0 then [] else t.acceptedRows t.postings

theorem ExtTerm.acceptedRows_append (t : ExtTerm W) (ps qs : List Posting) :
    t.acceptedRows (ps ++ qs) = t.acceptedRows ps ++ t.acceptedRows qs := by
  simp only [ExtTerm.acceptedRows, filter_append, map_append]

variable {t : ExtTerm W} {p : Posting}

theorem ExtTerm.acceptedRows_cons_of_not (ps : List Posting) (h : t.accepts p = false) :
    t.acceptedRows (p :: ps) = t.acceptedRows ps := by
  rw [ExtTerm.acceptedRows, filter_cons_of_neg (by simp [h])]
  rfl

theorem ExtTerm.acceptedRows_cons (ps : List Posting) (h : t.accepts p = true) :
    t.acceptedRows (p :: ps) = p.rowID :: t.acceptedRows ps := by
  rw [ExtTerm.acceptedRows, filter_cons_of_pos h]
  rfl

theorem ExtTerm.acceptedRows_asc (t : ExtTerm W) {ps : List Posting} (h : Ascending ps) :
    (t.acceptedRows ps).Pairwise (· < ·) :=
  pairwise_map.2 (h.filter _)

theorem ExtTerm.acceptedRows_aboveMax {ps : List Posting} (hs : Ascending (p :: ps))
    (h : t.aboveMax p = true) : t.acceptedRows (p :: ps) = [] := by
  rw [ExtTerm.acceptedRows, map_eq_nil_iff, filter_eq_nil_iff]
  intro q hq
  have hle : p.rowID ≤ q.rowID := by
    rcases mem_cons.1 hq with rfl | hq
    · exact le_refl _
    · exact le_of_lt (rel_of_pairwise_cons hs hq)
  have hq' : t.aboveMax q = true := by
    simp only [ExtTerm.aboveMax, Option.any_eq_true, decide_eq_true_eq] at h ⊢
    obtain ⟨b, hb, hlt⟩ := h
    exact ⟨b, hb, lt_of_lt_of_le hlt hle⟩
  simp [ExtTerm.accepts, hq']

theorem ExtTerm.fill_spec (t : ExtTerm W) (ht : t.docs ≠ 0) :
    ∀ (ps : List Posting) (out : List (ExtDoc W)), Ascending ps → out.length ≤ MAX_BLOCK_DOCS - 1 →
      ∃ new t', t.fill ps out = (out ++ new, t') ∧ t.acceptedRows ps = rows new ++ t'.rowsLeft ∧
        (out ++ new).length ≤ MAX_BLOCK_DOCS - 1 ∧ ((out ++ new).length < MAX_BLOCK_DOCS - 1 → t'.docs = 0) ∧
        Ascending t'.postings ∧ t'.postings.length + new.length ≤ ps.length
  | [], out, _, hlen => by
    by_cases hfull : out.length < MAX_BLOCK_DOCS - 1
    · refine ⟨[], { t with docs := 0, postings := [] }, ?_, rfl, by simpa using hlen, fun _ => rfl, .nil, le_refl _⟩
      rw [ExtTerm.fill, if_pos hfull, append_nil]
    · refine ⟨[], { t with postings := [] }, ?_, ?_, by simpa using hlen, fun h => absurd (by simpa using h) hfull,
        .nil, le_refl _⟩
      · rw [ExtTerm.fill, if_neg hfull, append_nil]
      · simp [ExtTerm.rowsLeft, ExtTerm.acceptedRows]
  | p :: ps, out, hs, hlen => by
    by_cases hfull : out.length < MAX_BLOCK_DOCS - 1
    · rw [ExtTerm.fill, if_pos hfull]
      by_cases hmin : t.belowMin p = true
      · -- below the lower limit: the document is read over
        obtain ⟨new, t', he, hr, hl, hd, ha, hn⟩ := ExtTerm.fill_spec t ht ps out hs.of_cons hlen
        refine ⟨new, t', by rw [if_pos hmin, he], ?_, hl, hd, ha, Nat.le_succ_of_le hn⟩
        rw [ExtTerm.acceptedRows_cons_of_not ps (by simp [ExtTerm.accepts, hmin]), hr]
      rw [if_neg hmin]
      by_cases hmax : t.aboveMax p = true
      · refine ⟨[], { t with docs := 0, postings := ps }, by rw [if_pos hmax, append_nil], ?_, by simpa using hlen,
          fun _ => rfl, hs.of_cons, Nat.le_succ _⟩
        rw [ExtTerm.acceptedRows_aboveMax hs hmax]
        rfl
      rw [if_neg hmax]
      by_cases hf : t.fieldsMatch p = true
      · obtain ⟨new, t', he, hr, hl, hd, ha, hn⟩ :=
          ExtTerm.fill_spec t ht ps (out ++ [t.toDoc p]) hs.of_cons (length_append ▸ hfull)
        rw [append_assoc] at he hl hd
        refine ⟨[t.toDoc p] ++ new, t', by rw [if_pos hf, he], ?_, hl, hd, ha, ?_⟩
        · have hacc : t.accepts p = true := by simp [ExtTerm.accepts, hmin, hmax, hf]
          rw [ExtTerm.acceptedRows_cons ps hacc, hr]
          rfl
        · simp only [length_append, length_cons, length_nil]
          omega
      · obtain ⟨new, t', he, hr, hl, hd, ha, hn⟩ := ExtTerm.fill_spec t ht ps out hs.of_cons hlen
        refine ⟨new, t', by rw [if_neg hf, he], ?_, hl, hd, ha, Nat.le_succ_of_le hn⟩
        rw [ExtTerm.acceptedRows_cons_of_not ps (by simp [ExtTerm.accepts, hf]), hr]
    · refine ⟨[], { t with postings := p :: ps }, ?_, ?_, by simpa using hlen, fun h => absurd (by simpa using h) hfull,
        hs, le_refl _⟩
      · rw [ExtTerm.fill, if_neg hfull, append_nil]
      · rw [ExtTerm.rowsLeft, if_neg ht]
        rfl

/-! ### The side of a node -/

def Kind.join : Kind → Join
  | .extAnd => .both
  | .extOr => .either
  | .extMaybe => .left
  | .extAndNot => .diff

def Node.side : Node W → Side RowID
  | .term t => .ofList t.rowsLeft
  | .twofer k _ l r docL docR => k.join.join (l.side.push (rows docL)) (r.side.push (rows docR))

/-- Chunks are ascending and ahead of what their child has still to return; a node passes through only when its right
child can return nothing any more. -/
def Node.Inv : Node W → Prop
  | .term t => Ascending t.postings
  | .twofer _ pass l r docL docR => l.Inv ∧ r.Inv ∧ Ready (rows docL) l.side ∧ Ready (rows docR) r.side ∧
      (pass = true → docL = [] ∧ docR = [] ∧ r.side.maybe = ∅)

/-- The rows left in a node, counted with the nodes themselves: fuel above it is enough for one call. -/
def Node.size : Node W → Nat
  | .term t => t.postings.length
  | .twofer _ _ l r docL docR => l.size + r.size + docL.length + docR.length + 1

theorem Node.hintRowID_spec (row : RowID) : ∀ n : Node W, n.Inv →
    (n.hintRowID row).Inv ∧ Told row n.side (n.hintRowID row).side ∧ (n.hintRowID row).size ≤ n.size
  | .term t, h => by
    obtain ⟨gone, he, hg⟩ := t.reader.dropped row t.postings h
    have hsub : (t.reader.skip row t.postings).Sublist t.postings := by
      conv => rhs; rw [he]
      exact sublist_append_right _ _
    refine ⟨List.Pairwise.sublist hsub h, ?_, hsub.length_le⟩
    show Told row (.ofList t.rowsLeft) (.ofList (t.hintRowID row).rowsLeft)
    by_cases hd : t.docs = 0
    · rw [ExtTerm.rowsLeft, ExtTerm.rowsLeft, if_pos hd, if_pos (show (t.hintRowID row).docs = 0 from hd)]
      exact AgreeOn.refl _ _
    · rw [ExtTerm.rowsLeft, ExtTerm.rowsLeft, if_neg hd, if_neg (show (t.hintRowID row).docs ≠ 0 from hd)]
      have hsplit : t.acceptedRows t.postings =
          t.acceptedRows gone ++ (t.hintRowID row).acceptedRows (t.hintRowID row).postings := by
        conv => lhs; rw [he]
        exact t.acceptedRows_append gone _
      rw [hsplit]
      refine Sweep.told_ofList fun x hx => ?_
      obtain ⟨p, hp, rfl⟩ := mem_map.1 hx
      exact hg p (mem_of_mem_filter hp)
  | .twofer k pass l r docL docR, ⟨hl, hr, hcl, hcr, hp⟩ => by
    obtain ⟨il, tl, sl⟩ := Node.hintRowID_spec row l hl
    obtain ⟨ir, tr, sr⟩ := Node.hintRowID_spec row r hr
    refine ⟨⟨il, ir, hcl.fewer tl.fewer, hcr.fewer tr.fewer, fun h => ?_⟩, (tl.push _).join (tr.push _), ?_⟩
    · obtain ⟨h1, h2, h3⟩ := hp h
      exact ⟨h1, h2, Set.eq_empty_of_subset_empty (h3 ▸ tr.fewer)⟩
    · simp only [Node.hintRowID, Node.size]
      omega

/-! ### Calls and warm-ups -/

/-- **What one `GetDocsChunk` call did.** -/
structure Gets (n : Node W) (docs : List (ExtDoc W)) (n' : Node W) : Prop where
  inv : n'.Inv
  yields : Yields n.side (rows docs) n'.side
  length_le : docs.length ≤ MAX_BLOCK_DOCS - 1
  size : n'.size + docs.length ≤ n.size

/-- A `GetDocsChunk` that works on every node with less than `k` left in it. -/
def Good (k : Nat) (get : Get W) : Prop :=
  ∀ n : Node W, n.Inv → n.size < k → ∃ docs n', get n = some (docs, n') ∧ Gets n docs n'

/-- What a warm-up of the cursor `doc` into the chunks of `n` leaves; within `b` nothing is lost. -/
structure Warm (b : Set RowID) (n : Node W) (doc : List (ExtDoc W)) (n' : Node W) (doc' : List (ExtDoc W)) : Prop where
  inv : n'.Inv
  ready : Ready (rows doc') n'.side
  agree : AgreeOn b (n.side.push (rows doc)) (n'.side.push (rows doc'))
  size : n'.size + doc'.length ≤ n.size + doc.length
  small : n'.size ≤ n.size
  last : doc' = [] → n'.side.maybe = ∅

variable {n : Node W}

theorem Gets.warm {n' : Node W} {docs : List (ExtDoc W)} (h : Gets n docs n') (b : Set RowID) :
    Warm b n [] n' docs where
  inv := h.inv
  ready := h.yields.ready
  agree := by
    rw [rows_nil, Sweep.push_nil]
    exact h.yields.agree b
  size := by simpa using h.size
  small := le_trans (Nat.le_add_right _ _) h.size
  last := fun hd => h.yields.last (rows_eq_nil.2 hd)

theorem warm_cons {d : ExtDoc W} {ds : List (ExtDoc W)} (b : Set RowID) (hn : n.Inv)
    (hr : Ready (rows (d :: ds)) n.side) : Warm b n (d :: ds) n (d :: ds) where
  inv := hn
  ready := hr
  agree := AgreeOn.refl _ _
  size := le_refl _
  small := le_refl _
  last := fun h => nomatch h

theorem warmupDocs_spec {k : Nat} {get : Get W} (hget : Good k get) {doc : List (ExtDoc W)} (b : Set RowID)
    (hn : n.Inv) (hr : Ready (rows doc) n.side) (hk : n.size < k) :
    ∃ doc' n', warmupDocs get doc n = some (doc', n') ∧ Warm b n doc n' doc' := by
  cases doc with
  | nil =>
    obtain ⟨docs, n', he, hg⟩ := hget n hn hk
    exact ⟨docs, n', he, hg.warm b⟩
  | cons d ds => exact ⟨d :: ds, n, rfl, warm_cons b hn hr⟩

/-- The child is hinted to where the other cursor stands, so nothing within the other side is lost. -/
theorem warmupDocsHint_spec {k : Nat} {get : Get W} (hget : Good k get) {doc other : List (ExtDoc W)}
    {s : Side RowID} (hn : n.Inv) (hr : Ready (rows doc) n.side) (ho : Ready (rows other) s) (hk : n.size < k) :
    ∃ doc' n', warmupDocsHint get doc other n = some (doc', n') ∧ Warm (s.push (rows other)).maybe n doc n' doc' := by
  cases doc with
  | cons d ds => exact ⟨d :: ds, n, rfl, warm_cons _ hn hr⟩
  | nil =>
    cases other with
    | nil =>
      obtain ⟨docs, n', he, hg⟩ := hget n hn hk
      exact ⟨docs, n', he, hg.warm _⟩
    | cons d ds =>
      obtain ⟨hi, ht, hs⟩ := Node.hintRowID_spec d.rowID n hn
      obtain ⟨docs, n', he, hg⟩ := hget _ hi (lt_of_le_of_lt hs hk)
      have hw := hg.warm (s.push (rows (d :: ds))).maybe
      have hle : (s.push (rows (d :: ds))).maybe ⊆ {x | d.rowID ≤ x} := fun x hx => ho.head_le x hx
      refine ⟨docs, n', he, hw.inv, hw.ready, ?_, le_trans hw.size (Nat.add_le_add_right hs _),
        le_trans hw.small hs, hw.last⟩
      exact ((ht.mono hle).push _).trans hw.agree

end ExtNode
end Manticore

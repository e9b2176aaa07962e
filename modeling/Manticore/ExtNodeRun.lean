import Manticore.ExtNodeLoops
/-!
# ExtNodeRun — what a caller gets from a query, chunk by chunk and between hints

`Query.Holds` is the set a query denotes.  A caller's history starts at the query's nodes and is carried through every
call: chunks (`Node.getDocsChunk_good`) and hints (`Node.hintRowID_spec`).  A hint may make the reject-list of an
`ExtAndNot_c` skip rows that the accept-list still holds, so only rows at or after the last hint are those of the query.
-/
namespace Manticore
namespace ExtNode

open Sweep (Side History Ready)
open List

variable {W : Type}

/-- The rows a query denotes: intersection, union, left operand, difference. -/
def Query.Holds : Query W → RowID → Prop
  | .term w, x => x ∈ w.toTerm.acceptedRows w.postings
  | .op .extAnd a b, x => a.Holds x ∧ b.Holds x
  | .op .extOr a b, x => a.Holds x ∨ b.Holds x
  | .op .extMaybe a _, x => a.Holds x
  | .op .extAndNot a b, x => a.Holds x ∧ ¬ b.Holds x

instance Query.decidableHolds : (q : Query W) → (x : RowID) → Decidable (q.Holds x)
  | .term w, x => inferInstanceAs (Decidable (x ∈ w.toTerm.acceptedRows w.postings))
  | .op .extAnd a b, x => @instDecidableAnd _ _ (Query.decidableHolds a x) (Query.decidableHolds b x)
  | .op .extOr a b, x => @instDecidableOr _ _ (Query.decidableHolds a x) (Query.decidableHolds b x)
  | .op .extMaybe a _, x => Query.decidableHolds a x
  | .op .extAndNot a b, x =>
    @instDecidableAnd _ _ (Query.decidableHolds a x) (@instDecidableNot _ (Query.decidableHolds b x))

/-- No `ExtAndNot_c` among the nodes. -/
def Query.noAndNot : Query W → Bool
  | .term _ => true
  | .op kind a b => kind != .extAndNot && a.noAndNot && b.noAndNot

def hints : List Call → List RowID
  | [] => []
  | .hint row :: calls => row :: hints calls
  | .get :: calls => hints calls

def lastHint : RowID → List Call → RowID
  | last, [] => last
  | _, .hint row :: calls => lastHint row calls
  | last, .get :: calls => lastHint last calls

/-- All documents returned by a caller's calls. -/
def returned (visits : List (Visit W)) : List (ExtDoc W) := visits.flatMap (·.docs)

/-! ### The nodes of a query before the first call -/

theorem Keyword.rowsLeft_toTerm (w : Keyword W) : w.toTerm.rowsLeft = w.toTerm.acceptedRows w.postings := by
  by_cases h : w.toTerm.docs = 0
  · have hnil : w.postings = [] := length_eq_zero_iff.1 h
    rw [ExtTerm.rowsLeft, if_pos h, hnil]
    rfl
  · rw [ExtTerm.rowsLeft, if_neg h]
    rfl

theorem Query.inv_create : ∀ q : Query W, q.create.Inv
  | .term w => w.ascending
  | .op kind a b => by
    have ha := Query.inv_create a
    have hb := Query.inv_create b
    have hnew : ∀ (k : Kind) (l r : Node W), l.Inv → r.Inv → (Node.twofer k false l r [] []).Inv :=
      fun _ _ _ hl hr => ⟨hl, hr, Ready.nil _, Ready.nil _, nofun⟩
    cases kind with
    | extAnd =>
      rw [Query.create]
      split
      · exact hnew _ _ _ hb ha
      · exact hnew _ _ _ ha hb
    | extOr => exact hnew _ _ _ ha hb
    | extMaybe => exact hnew _ _ _ ha hb
    | extAndNot => exact hnew _ _ _ ha hb

theorem mem_sure_twofer {k : Kind} {l r : Node W} {x : RowID} :
    x ∈ (Node.twofer k false l r [] []).side.sure ↔ k.join.keep (x ∈ l.side.sure) (x ∈ r.side.sure) := by
  simp only [Node.side, rows_nil, Sweep.push_nil]
  rfl

theorem mem_maybe_twofer {k : Kind} {l r : Node W} {x : RowID} :
    x ∈ (Node.twofer k false l r [] []).side.maybe ↔ k.join.may (x ∈ l.side.maybe) (x ∈ r.side.maybe) := by
  simp only [Node.side, rows_nil, Sweep.push_nil]
  rfl

theorem Query.mem_create : ∀ (q : Query W) (x : RowID), (x ∈ q.create.side.sure ↔ q.Holds x) ∧
    (q.noAndNot = true → (x ∈ q.create.side.maybe ↔ q.Holds x))
  | .term w, x => by
    have h : x ∈ w.toTerm.rowsLeft ↔ (Query.term w).Holds x := by
      rw [w.rowsLeft_toTerm]
      rfl
    exact ⟨h, fun _ => h⟩
  | .op kind a b, x => by
    obtain ⟨ha, ha'⟩ := Query.mem_create a x
    obtain ⟨hb, hb'⟩ := Query.mem_create b x
    simp only [Query.noAndNot, Bool.and_eq_true, bne_iff_ne]
    cases kind with
    | extAnd =>
      rw [Query.create]
      split
      · exact ⟨mem_sure_twofer.trans ((and_congr hb ha).trans and_comm),
          fun h => mem_maybe_twofer.trans ((and_congr (hb' h.2) (ha' h.1.2)).trans and_comm)⟩
      · exact ⟨mem_sure_twofer.trans (and_congr ha hb), fun h => mem_maybe_twofer.trans (and_congr (ha' h.1.2) (hb' h.2))⟩
    | extOr => exact ⟨mem_sure_twofer.trans (or_congr ha hb), fun h => mem_maybe_twofer.trans (or_congr (ha' h.1.2) (hb' h.2))⟩
    | extMaybe => exact ⟨mem_sure_twofer.trans ha, fun h => mem_maybe_twofer.trans (ha' h.1.2)⟩
    | extAndNot => exact ⟨mem_sure_twofer.trans (and_congr ha (not_congr hb)), fun h => absurd rfl h.1.1⟩

/-! ### Runs -/

variable [Add W] {k : Nat} {s₀ : Side RowID}

theorem run_spec : ∀ (calls : List Call) (t : RowID) (n : Node W) (out : List RowID), History s₀ t out n.side →
    n.Inv → n.size < k → (t :: hints calls).Pairwise (· ≤ ·) →
    ∃ visits n', run k t n calls = some (visits, n') ∧ n'.Inv ∧ n'.size ≤ n.size ∧
      History s₀ (lastHint t calls) (out ++ rows (returned visits)) n'.side ∧
      ∀ v ∈ visits, v.docs.length < MAX_BLOCK_DOCS ∧ ∀ d ∈ v.docs, v.hint ≤ d.rowID → d.rowID ∈ s₀.sure
  | [], t, n, out, h, hn, _, _ => by
    refine ⟨[], n, rfl, hn, le_refl _, ?_, forall_mem_nil _⟩
    rw [returned, flatMap_nil, rows_nil, append_nil]
    exact h
  | .hint row :: calls, t, n, out, h, hn, hk, hm => by
    obtain ⟨hi, ht, hs⟩ := Node.hintRowID_spec row n hn
    rw [hints, pairwise_cons] at hm
    obtain ⟨visits, n', he, hn', hs', hh, hv⟩ :=
      run_spec calls row (n.hintRowID row) out (h.tell (hm.1 row mem_cons_self) ht) hi
        (lt_of_le_of_lt hs hk) hm.2
    exact ⟨visits, n', he, hn', le_trans hs' hs, hh, hv⟩
  | .get :: calls, t, n, out, h, hn, hk, hm => by
    obtain ⟨docs, n₁, hget, hg⟩ := Node.getDocsChunk_good k n hn hk
    have hs₁ : n₁.size ≤ n.size := le_trans (Nat.le_add_right _ _) hg.size
    obtain ⟨visits, n', he, hn', hs', hh, hv⟩ :=
      run_spec calls t n₁ (out ++ rows docs) (h.yield hg.yields) hg.inv (lt_of_le_of_lt hs₁ hk) hm
    refine ⟨⟨t, docs⟩ :: visits, n', ?_, hn', le_trans hs' hs₁, ?_, fun v hv' => ?_⟩
    · simp only [run, hget, he, Option.bind_eq_bind, Option.bind_some]
    · rw [returned, flatMap_cons, rows_append, ← append_assoc]
      exact hh
    · rcases mem_cons.1 hv' with rfl | hv'
      · refine ⟨Nat.lt_succ_of_le hg.length_le, fun d hd hle => ?_⟩
        exact h.mem_of_yields hg.yields (mem_map_of_mem hd) hle
      · exact hv v hv'

theorem drain_spec {t : RowID} : ∀ (fuel : Nat) (n : Node W) (out : List RowID), History s₀ t out n.side → n.Inv →
    n.size < k → n.size < fuel →
    ∃ docs, ∃ n' : Node W, drain k fuel n = some docs ∧ History s₀ t (out ++ rows docs) n'.side ∧ n'.side.maybe = ∅
  | 0, _, _, _, _, _, hf => absurd hf (Nat.not_lt_zero _)
  | fuel + 1, n, out, h, hn, hk, hf => by
    obtain ⟨docs, n₁, hget, hg⟩ := Node.getDocsChunk_good k n hn hk
    have hsize := hg.size
    have hh := h.yield hg.yields
    cases docs with
    | nil =>
      refine ⟨[], n₁, ?_, hh, hg.yields.last rfl⟩
      simp only [drain, hget, Option.bind_eq_bind, Option.bind_some]
    | cons d ds =>
      rw [length_cons] at hsize
      obtain ⟨rest, n', he, hh', hn'⟩ := drain_spec fuel n₁ _ hh hg.inv (by omega) (by omega)
      refine ⟨d :: ds ++ rest, n', ?_, ?_, hn'⟩
      · simp only [drain, hget, he, Option.bind_eq_bind, Option.bind_some]
      · rw [rows_append, ← append_assoc]
        exact hh'

/-- **Posting-list evaluation is exact from the last hint on.**  Whatever calls a caller makes, with non-decreasing
hints, and draining the root afterwards: the rows returned are strictly ascending, those at or after the last hint are
exactly those of the query, and no chunk holds a row outside the query at or after the hint it was read under; in a
query without `ExtAndNot_c` no row outside it is returned at all. -/
theorem getDocsChunk_exact (q : Query W) (calls : List Call) (hmono : (hints calls).Pairwise (· ≤ ·)) (k : Nat)
    (hk : q.create.size < k) :
    ∃ visits n rest, run k 0 q.create calls = some (visits, n) ∧ drain k k n = some rest ∧
      (rows (returned visits ++ rest)).Pairwise (· < ·) ∧
      (∀ x, lastHint 0 calls ≤ x → (x ∈ rows (returned visits ++ rest) ↔ q.Holds x)) ∧
      (∀ v ∈ visits, v.docs.length < MAX_BLOCK_DOCS ∧ ∀ d ∈ v.docs, v.hint ≤ d.rowID → q.Holds d.rowID) ∧
      (q.noAndNot = true → ∀ x ∈ rows (returned visits ++ rest), q.Holds x) := by
  obtain ⟨visits, n, hrun, hn, hs, hh, hv⟩ := run_spec calls 0 q.create [] (History.start _ 0) q.inv_create hk
    (pairwise_cons.2 ⟨fun x _ => Nat.zero_le x, hmono⟩)
  have hk' : n.size < k := Nat.lt_of_le_of_lt hs hk
  obtain ⟨rest, n', hdrain, hh', hend⟩ := drain_spec k n _ hh hn hk' hk'
  rw [nil_append, ← rows_append] at hh'
  have hnone : ∀ x, x ∉ n'.side.sure := fun x hx => Set.notMem_empty x (hend ▸ n'.side.sub hx)
  refine ⟨visits, n, rest, hrun, hdrain, hh'.asc, fun x hx => ?_, fun v hv' => ?_, fun hq x hx => ?_⟩
  · have hkeep := hh'.keeps x hx
    rw [(q.mem_create x).1, or_iff_left (hnone x)] at hkeep
    exact hkeep.symm
  · refine ⟨(hv v hv').1, fun d hd hle => ?_⟩
    exact (q.mem_create _).1.1 ((hv v hv').2 d hd hle)
  · exact ((q.mem_create x).2 hq).1 (hh'.within x hx)

/-! ### A hint that makes an `ExtAndNot_c` return a rejected row -/

/-- A reader with a skip list of one entry: it jumps over the first `block` documents if all of them are below the
hint. -/
def blockReader (block : Nat) : Skipper where
  skip t ps := match ps[block]? with
    | some p => if p.rowID ≤ t then ps.drop block else ps
    | none => ps
  dropped := by
    intro t ps hps
    cases hp : ps[block]? with
    | none => exact ⟨[], rfl, forall_mem_nil _⟩
    | some p =>
      by_cases hle : p.rowID ≤ t
      · refine ⟨ps.take block, by simp only [if_pos hle, List.take_append_drop], fun g hg => ?_⟩
        obtain ⟨hb, rfl⟩ := List.getElem?_eq_some_iff.1 hp
        rw [← List.take_append_drop block ps, List.drop_eq_getElem_cons hb] at hps
        exact Nat.lt_of_lt_of_le ((List.pairwise_append.1 hps).2.2 g hg _ List.mem_cons_self) hle
      · exact ⟨[], by simp only [if_neg hle, List.nil_append], forall_mem_nil _⟩

def shortKeyword : Keyword Nat where
  postings := postingsOf [(5, 1)]
  ascending := by decide
  reader := blockReader 32
  queriedFields := 1
  hasWideFields := false
  boundaries := none
  weight := id

def longKeyword : Keyword Nat where
  postings := (List.finRange 64).map fun i => ⟨i.val, 1, 1, 1, Nat.lt_trans i.isLt (by decide)⟩
  ascending := by decide
  reader := blockReader 32
  queriedFields := 1
  hasWideFields := false
  boundaries := none
  weight := id

/-- `short - long`, of which the only row of `short` is rejected. -/
def shortNotLong : Query Nat := .op .extAndNot (.term shortKeyword) (.term longKeyword)

/-- The short keyword has no skip list to jump with, the long one has: told to go to row 40, `short - long` returns
row 5, which `long` rejects. -/
theorem andNot_hint_returns_rejected :
    (run 100 0 shortNotLong.create [.hint 40, .get]).map (fun res => res.1.map fun v => (v.hint, rows v.docs)) =
      some [(40, [5])] ∧ ¬ shortNotLong.Holds 5 := by
  decide +kernel

theorem getDocsChunk_exact_shortNotLong :
    ∃ visits n rest, run 100 0 shortNotLong.create [.hint 2, .get, .hint 5] = some (visits, n) ∧
      drain 100 100 n = some rest ∧ (rows (returned visits ++ rest)).Pairwise (· < ·) ∧
      (∀ x, lastHint 0 [.hint 2, .get, .hint 5] ≤ x →
        (x ∈ rows (returned visits ++ rest) ↔ shortNotLong.Holds x)) ∧
      (∀ v ∈ visits, v.docs.length < MAX_BLOCK_DOCS ∧
        ∀ d ∈ v.docs, v.hint ≤ d.rowID → shortNotLong.Holds d.rowID) ∧
      (shortNotLong.noAndNot = true → ∀ x ∈ rows (returned visits ++ rest), shortNotLong.Holds x) :=
  getDocsChunk_exact shortNotLong [.hint 2, .get, .hint 5] (by decide) 100 (by decide)

end ExtNode
end Manticore

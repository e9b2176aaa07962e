import Mathlib
/-!
# GroupSorter — GROUP BY with merged sorters (`sortergroup.cpp`, `aggregate.cpp`, `sortertraits.cpp`)

`CSphKBufferGroupSorter` keeps one match a group: the plain part of the best match of the group and, in attributes of the
same match, the group's key, its count and its aggregates.  An average is kept as a sum while matches come in and is
divided by the count when the sorter is finalized; `m_bAvgFinal` says that it has to be multiplied back before the next
match.  `MoveTo` hands the whole buffer to an empty sorter, or pushes its groups one by one.  The first way takes
`m_bMatchesFinalized` along and leaves `m_bAvgFinal` behind, so a later match is added to a mean as if it were a sum.
Distinct counters and HAVING are not modelled; the plain part is what the sub-sorter and the grouper read.
-/
namespace Manticore
namespace Group
open List

/-! ## Aggregates -/

/-- A sum has the width of its column: `AggrSum_T` is made for `DWORD` and for `int64_t`, and for `float`, which is not
modelled. -/
inductive AggrFunc
  | sum (bits : Nat) | avg | min | max
  deriving DecidableEq

/-- The values an aggregate works on: sums that wrap, exact averages. -/
def AggrFunc.Value : AggrFunc → Type
  | .sum bits => BitVec bits
  | .avg => ℚ
  | .min => Int
  | .max => Int

/-- `AggrSum_T::Update`. -/
def sumUpdate {bits : Nat} (dst src : BitVec bits) : BitVec bits := if src ≠ 0 then dst + src else dst

/-- `AggrAvg_T::Update`; `n` is the count of the source match. -/
def avgUpdate (dst src : ℚ) (n : Nat) (grouped : Bool) : ℚ :=
  if grouped then dst + src * n else if src ≠ 0 then dst + src else dst

/-- `AggrMax_T::Update`. -/
def maxUpdate (dst src : Int) : Int := if dst < src then src else dst

/-- `AggrMin_T::Update`. -/
def minUpdate (dst src : Int) : Int := if src < dst then src else dst

/-- `AggrAvg_T::Ungroup`. -/
def avgUngroup (v : ℚ) (n : Nat) : ℚ := v * n

/-- `AggrAvg_T::Finalize`. -/
def avgFinalize (v : ℚ) (n : Nat) : ℚ := if n ≠ 0 then v / n else v

namespace AggrFunc

def update : (f : AggrFunc) → f.Value → f.Value → Nat → Bool → f.Value
  | .sum _ => fun dst src _ _ => sumUpdate dst src
  | .avg => avgUpdate
  | .min => fun dst src _ _ => minUpdate dst src
  | .max => fun dst src _ _ => maxUpdate dst src

/-- Only an average is changed by `Ungroup`. -/
def ungroup : (f : AggrFunc) → f.Value → Nat → f.Value
  | .avg => avgUngroup
  | .sum _ => fun v _ => v
  | .min => fun v _ => v
  | .max => fun v _ => v

/-- Only an average is changed by `Finalize`. -/
def finalize : (f : AggrFunc) → f.Value → Nat → f.Value
  | .avg => avgFinalize
  | .sum _ => fun v _ => v
  | .min => fun v _ => v
  | .max => fun v _ => v

end AggrFunc

/-! ## Sorters -/

/-- What a query fixes: the grouper, the aggregates, the sub-sorter and `max_matches`. -/
structure Query (M K Col : Type) where
  /-- `m_pGrouper->KeyFromMatch` -/
  key      : M → K
  func     : Col → AggrFunc
  /-- the attribute an aggregate starts from -/
  value    : M → (c : Col) → (func c).Value
  /-- `!m_dAvgs.IsEmpty ()` -/
  hasAvgs  : Bool
  avgs     : hasAvgs = false → ∀ c, func c ≠ .avg
  /-- `m_tSubSorter`: the first match is worse -/
  subLess  : M → M → Bool
  asymm    : ∀ a b, subLess a b = true → subLess b a = false
  negTrans : ∀ a b c, subLess a b = false → subLess b c = false → subLess a c = false
  limit    : Nat
  positive : 0 < limit

variable {M K Col : Type}

/-- A match with its group attributes. -/
structure GroupMatch (q : Query M K Col) where
  plain   : M
  groupby : K
  count   : Nat
  aggr    : (c : Col) → (q.func c).Value

/-- `m_tGroupSorter` with the sort and the partition that use it.  A sort puts no match before one that is less. -/
structure GroupOrder (q : Query M K Col) where
  /-- `m_tGroupSorter.IsLess`: the first goes before the second -/
  less      : GroupMatch q → GroupMatch q → Bool
  sort      : List (Nat × GroupMatch q) → List (Nat × GroupMatch q)
  /-- `BinaryPartition` -/
  partition : Nat → List (Nat × GroupMatch q) → List (Nat × GroupMatch q)
  perm      : ∀ l, (sort l).Perm l
  sorted    : ∀ l, (sort l).Pairwise (fun a b => less b.2 a.2 = false)

/-- `CSphKBufferGroupSorter`: the used part of `m_dIData` with the matches of its slots, the slots behind it, the hash of
group keys and the two flags. -/
structure Sorter (q : Query M K Col) where
  used             : List (Nat × GroupMatch q)
  free             : List Nat
  hash             : K → Option Nat
  avgFinal         : Bool
  matchesFinalized : Bool

section
variable [DecidableEq K] {q : Query M K Col} (ord : GroupOrder q)

/-- A new sorter has `max_matches * GROUPBY_FACTOR` slots. -/
def Sorter.empty (q : Query M K Col) : Sorter q := ⟨[], List.range (q.limit * 4), fun _ => none, false, false⟩

/-- A match as it comes to `Push`; its group attributes are not set yet. -/
def rawMatch (q : Query M K Col) (m : M) : GroupMatch q := ⟨m, q.key m, 0, q.value m⟩

def GroupMatch.finalize (g : GroupMatch q) : GroupMatch q :=
  { g with aggr := fun c => (q.func c).finalize (g.aggr c) g.count }

def GroupMatch.ungroup (g : GroupMatch q) : GroupMatch q :=
  { g with aggr := fun c => (q.func c).ungroup (g.aggr c) g.count }

/-- `CalcAvg ( Avg_e::FINALIZE )`. -/
def Sorter.calcAvgFinalize (s : Sorter q) : Sorter q :=
  if q.hasAvgs then { s with avgFinal := true, used := s.used.map (fun x => (x.1, x.2.finalize)) } else s

/-- `CalcAvg ( Avg_e::UNGROUP )`. -/
def Sorter.calcAvgUngroup (s : Sorter q) : Sorter q :=
  if q.hasAvgs then { s with avgFinal := false, used := s.used.map (fun x => (x.1, x.2.ungroup)) } else s

/-- `m_hGroup2Match.Add`. -/
def addHash (hash : K → Option Nat) (k : K) (i : Nat) : K → Option Nat := fun k' => if k' = k then some i else hash k'

/-- `RebuildHash` of a cleared hash. -/
def Sorter.rebuildHash (s : Sorter q) : Sorter q :=
  { s with hash := s.used.foldl (fun h x => addHash h x.2.groupby x.1) (fun _ => none) }

def Sorter.sortGroups (s : Sorter q) : Sorter q := { s with used := ord.sort s.used }

def Sorter.cutWorst (bound : Nat) (fin : Bool) (s : Sorter q) : Sorter q :=
  let parted := ord.partition bound s.calcAvgFinalize.used
  let kept := { s.calcAvgFinalize with
    used := parted.take bound
    free := (parted.drop bound).map Prod.fst ++ s.free }
  if fin then (kept.sortGroups ord).rebuildHash else kept.calcAvgUngroup.rebuildHash

/-- `PushIntoExistingGroup`. -/
def pushIntoGroup (grouped : Bool) (e g : GroupMatch q) : GroupMatch q where
  plain := if q.subLess g.plain e.plain then e.plain else g.plain
  groupby := g.groupby
  count := g.count + if grouped then e.count else 1
  aggr := fun c => (q.func c).update (g.aggr c) (e.aggr c) e.count grouped

/-- The match a new group starts with. -/
def newGroup (grouped : Bool) (e : GroupMatch q) (k : K) : GroupMatch q :=
  if grouped then e.ungroup else { e with groupby := k, count := 1 }

/-- The first lines of `PushEx`: averages become sums again. -/
def Sorter.reopen (s : Sorter q) : Sorter q :=
  if s.avgFinal then ({ s with matchesFinalized := false } : Sorter q).calcAvgUngroup
  else { s with matchesFinalized := false }

/-- `PushEx` after that. -/
def Sorter.pushOpen (grouped : Bool) (e : GroupMatch q) (k : K) (s : Sorter q) : Sorter q :=
  match s.hash k with
  | some i => { s with used := s.used.map (fun x => if x.1 = i then (x.1, pushIntoGroup grouped e x.2) else x) }
  | none =>
    let s := if s.free = [] then s.cutWorst ord (q.limit * 2) false else s
    match s.free with
    | []        => s
    | i :: free =>
      { s with
        used := s.used ++ [(i, newGroup grouped e k)]
        free := free
        hash := addHash s.hash k i }

def Sorter.pushEx (grouped : Bool) (e : GroupMatch q) (k : K) (s : Sorter q) : Sorter q := s.reopen.pushOpen ord grouped e k

def Sorter.push (s : Sorter q) (m : M) : Sorter q := s.pushEx ord false (rawMatch q m) (q.key m)

def Sorter.pushGrouped (s : Sorter q) (e : GroupMatch q) : Sorter q := s.pushEx ord true e e.groupby

def Sorter.finalizeMatches (s : Sorter q) : Sorter q :=
  if s.matchesFinalized then s
  else if q.limit < s.used.length then ({ s with matchesFinalized := true } : Sorter q).cutWorst ord q.limit true
  else (({ s with matchesFinalized := true } : Sorter q).calcAvgFinalize).sortGroups ord

/-- `Finalize` with finalization of matches. -/
def Sorter.finalize (s : Sorter q) : Sorter q := if s.used = [] then s else s.finalizeMatches ord

/-- `src.MoveTo ( dst )`, as `dst` is left. -/
def Sorter.moveTo (src dst : Sorter q) : Sorter q :=
  if src.used = [] then dst
  else if dst.used = [] then { src with avgFinal := dst.avgFinal }
  else (src.finalizeMatches ord).used.foldl (fun s x => s.pushGrouped ord x.2) dst

def Sorter.flatten (s : Sorter q) : List (GroupMatch q) := (s.finalizeMatches ord).used.map Prod.snd

end

/-! ## Exact groups -/

/-- The value is the aggregate of `vs`; an average is a mean or still a sum. -/
def AggrFunc.Carries : (f : AggrFunc) → Bool → f.Value → List f.Value → Prop
  | .sum bits => fun _ (v : BitVec bits) (vs : List (BitVec bits)) => v = vs.sum
  | .avg => fun mean (v : ℚ) (vs : List ℚ) => v = if mean then vs.sum / vs.length else vs.sum
  | .min => fun _ (v : Int) (vs : List Int) => v ∈ vs ∧ ∀ w ∈ vs, v ≤ w
  | .max => fun _ (v : Int) (vs : List Int) => v ∈ vs ∧ ∀ w ∈ vs, w ≤ v

/-- The match stands for the matches `ms`: their number, their aggregates and one that is best. -/
structure Sums (q : Query M K Col) (ms : List M) (mean : Bool) (g : GroupMatch q) : Prop where
  count : g.count = ms.length
  aggr  : ∀ c, (q.func c).Carries mean (g.aggr c) (ms.map (fun m => q.value m c))
  mem   : g.plain ∈ ms
  best  : ∀ m ∈ ms, q.subLess g.plain m = false

theorem sumUpdate_sum {bits : Nat} {v w : BitVec bits} {vs ws : List (BitVec bits)} (hv : v = vs.sum) (hw : w = ws.sum) :
    sumUpdate v w = (vs ++ ws).sum := by
  rw [sumUpdate, sum_append, ← hv, ← hw]
  split
  · rfl
  · rename_i h0
    rw [not_not.1 h0]
    exact (BitVec.add_zero v).symm

theorem avgUpdate_grouped {v w : ℚ} {vs ws : List ℚ} (hv : v = vs.sum) (hw : w = ws.sum / ws.length) (hne : ws ≠ []) :
    avgUpdate v w ws.length true = (vs ++ ws).sum := by
  have hn : (ws.length : ℚ) ≠ 0 := Nat.cast_ne_zero.2 (mt eq_nil_of_length_eq_zero hne)
  rw [avgUpdate, if_pos rfl, sum_append, ← hv, hw, div_mul_cancel₀ _ hn]

/-- A single match is added as a group of one, whatever its count says. -/
theorem avgUpdate_single (v w : ℚ) (n : Nat) : avgUpdate v w n false = v + w := by
  rw [avgUpdate, if_neg Bool.false_ne_true]
  split
  · rfl
  · rename_i h0
    rw [not_not.1 h0, add_zero]

theorem avgFinalize_sum {v : ℚ} {vs : List ℚ} (hv : v = vs.sum) (hne : vs ≠ []) :
    avgFinalize v vs.length = vs.sum / vs.length := by
  rw [avgFinalize, if_pos (mt eq_nil_of_length_eq_zero hne), hv]

theorem avgUngroup_mean {v : ℚ} {vs : List ℚ} (hv : v = vs.sum / vs.length) (hne : vs ≠ []) :
    avgUngroup v vs.length = vs.sum := by
  have hn : (vs.length : ℚ) ≠ 0 := Nat.cast_ne_zero.2 (mt eq_nil_of_length_eq_zero hne)
  rw [avgUngroup, hv, div_mul_cancel₀ _ hn]

theorem best_append {R : Int → Int → Prop} (htrans : ∀ {a b c : Int}, R a b → R b c → R a c) {u v w : Int} {vs ws : List Int}
    (hv : v ∈ vs ∧ ∀ x ∈ vs, R v x) (hw : w ∈ ws ∧ ∀ x ∈ ws, R w x) (hu : u = w ∧ R w v ∨ u = v ∧ R v w) :
    u ∈ vs ++ ws ∧ ∀ x ∈ vs ++ ws, R u x := by
  rcases hu with ⟨rfl, h⟩ | ⟨rfl, h⟩
  · exact ⟨mem_append_right _ hw.1, forall_mem_append.mpr ⟨fun x hx => htrans h (hv.2 x hx), hw.2⟩⟩
  · exact ⟨mem_append_left _ hv.1, forall_mem_append.mpr ⟨hv.2, fun x hx => htrans h (hw.2 x hx)⟩⟩

theorem minUpdate_append {v w : Int} {vs ws : List Int} (hv : v ∈ vs ∧ ∀ x ∈ vs, v ≤ x)
    (hw : w ∈ ws ∧ ∀ x ∈ ws, w ≤ x) : minUpdate v w ∈ vs ++ ws ∧ ∀ x ∈ vs ++ ws, minUpdate v w ≤ x := by
  refine best_append (R := LE.le) le_trans hv hw ?_
  unfold minUpdate
  split <;> omega

theorem maxUpdate_append {v w : Int} {vs ws : List Int} (hv : v ∈ vs ∧ ∀ x ∈ vs, x ≤ v)
    (hw : w ∈ ws ∧ ∀ x ∈ ws, x ≤ w) : maxUpdate v w ∈ vs ++ ws ∧ ∀ x ∈ vs ++ ws, x ≤ maxUpdate v w := by
  refine best_append (R := GE.ge) ge_trans hv hw ?_
  unfold maxUpdate
  split <;> omega

namespace AggrFunc

section
variable (f : AggrFunc)
include f

theorem carries_single (v : f.Value) (mean : Bool) : f.Carries mean v [v] := by
  cases f with
  | sum bits =>
    have h : ∀ v : BitVec bits, v = [v].sum := fun v => sum_singleton.symm
    exact h v
  | avg =>
    have h : ∀ v : ℚ, v = if mean then [v].sum / ([v].length : Nat) else [v].sum := by
      intro v
      simp
    exact h v
  | min => exact ⟨mem_singleton_self _, fun w hw => le_of_eq (mem_singleton.1 hw).symm⟩
  | max => exact ⟨mem_singleton_self _, fun w hw => le_of_eq (mem_singleton.1 hw)⟩

/-- **Adding a group to a group.** -/
theorem carries_append_grouped {v w : f.Value} {vs ws : List f.Value} (hv : f.Carries false v vs)
    (hw : f.Carries true w ws) (hne : ws ≠ []) : f.Carries false (f.update v w ws.length true) (vs ++ ws) := by
  cases f with
  | sum => exact sumUpdate_sum hv hw
  | avg => exact avgUpdate_grouped hv hw hne
  | min => exact minUpdate_append hv hw
  | max => exact maxUpdate_append hv hw

/-- **Adding one match.** -/
theorem carries_append_single {v : f.Value} (w : f.Value) {vs : List f.Value} (n : Nat)
    (hv : f.Carries false v vs) : f.Carries false (f.update v w n false) (vs ++ [w]) := by
  have hw := carries_single f w
  cases f with
  | sum => exact sumUpdate_sum hv (hw true)
  | avg =>
    have h : ∀ (v w : ℚ) (vs : List ℚ), v = vs.sum → avgUpdate v w n false = (vs ++ [w]).sum := by
      intro v w vs hv
      rw [avgUpdate_single, sum_append, sum_singleton, hv]
    exact h v w vs hv
  | min => exact minUpdate_append hv (hw true)
  | max => exact maxUpdate_append hv (hw true)

theorem carries_finalize {v : f.Value} {vs : List f.Value} (hv : f.Carries false v vs) (hne : vs ≠ []) :
    f.Carries true (f.finalize v vs.length) vs := by
  cases f with
  | avg => exact avgFinalize_sum hv hne
  | sum => exact hv
  | min => exact hv
  | max => exact hv

theorem carries_ungroup {v : f.Value} {vs : List f.Value} (hv : f.Carries true v vs) (hne : vs ≠ []) :
    f.Carries false (f.ungroup v vs.length) vs := by
  cases f with
  | avg => exact avgUngroup_mean hv hne
  | sum => exact hv
  | min => exact hv
  | max => exact hv

theorem carries_of_ne_avg (hf : f ≠ .avg) {v : f.Value} {vs : List f.Value} {mean : Bool}
    (hv : f.Carries mean v vs) (mean' : Bool) : f.Carries mean' v vs := by
  cases f with
  | avg => exact absurd rfl hf
  | sum => exact hv
  | min => exact hv
  | max => exact hv

end

end AggrFunc

end Group
end Manticore

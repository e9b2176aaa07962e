import Manticore.GroupSorter
/-!
# GroupMerge — sorters over whole merge trees (`sortergroup.cpp`)

A `Plan` is how a sorter came to be: the matches pushed, the finalizations, the sorters moved into it.  `Inv` says that a
sorter stands for the matches of its plan; one lemma an operation keeps it, and `flatten_exact` is the result.  The one
operation that may not happen is a push into a sorter that holds means while its flag says sums (`Stale`); such a sorter
is made by moving a finalized sorter into an empty one.
-/
namespace Manticore
namespace Group
open List

variable {M K Col : Type} {q : Query M K Col}

/-! ## One group -/

namespace Sums
variable {ms ns : List M} {g e : GroupMatch q} {mean : Bool}

theorem ne_nil (h : Sums q ms mean g) : ms ≠ [] := ne_nil_of_mem h.mem

theorem map_ne_nil (h : Sums q ms mean g) (c : Col) : ms.map (fun m => q.value m c) ≠ [] :=
  mt map_eq_nil_iff.1 h.ne_nil

theorem of_raw (m : M) (k : K) : Sums q [m] false (newGroup false (rawMatch q m) k) where
  count := rfl
  aggr := fun c => AggrFunc.carries_single _ _ _
  mem := mem_singleton_self m
  best := by
    intro m' hm'
    rw [mem_singleton.1 hm']
    cases h : q.subLess m m with
    | false => exact h
    | true => exact absurd (q.asymm m m h) (by rw [h]; exact Bool.noConfusion)

theorem finalize (h : Sums q ms false g) : Sums q ms true g.finalize where
  count := h.count
  aggr := by
    intro c
    have hc := AggrFunc.carries_finalize (q.func c) (h.aggr c) (h.map_ne_nil c)
    rw [length_map, ← h.count] at hc
    exact hc
  mem := h.mem
  best := h.best

theorem ungroup (h : Sums q ms true g) : Sums q ms false g.ungroup where
  count := h.count
  aggr := by
    intro c
    have hc := AggrFunc.carries_ungroup (q.func c) (h.aggr c) (h.map_ne_nil c)
    rw [length_map, ← h.count] at hc
    exact hc
  mem := h.mem
  best := h.best

theorem of_not_hasAvgs (h : Sums q ms mean g) (hq : q.hasAvgs = false) (mean' : Bool) : Sums q ms mean' g where
  count := h.count
  aggr := fun c => AggrFunc.carries_of_ne_avg _ (q.avgs hq c) (h.aggr c) mean'
  mem := h.mem
  best := h.best

theorem best_append {a b : M} (ha : ∀ m ∈ ms, q.subLess a m = false) (hb : ∀ m ∈ ns, q.subLess b m = false) :
    ∀ m ∈ ms ++ ns, q.subLess (if q.subLess a b then b else a) m = false := by
  intro m hm
  by_cases hab : q.subLess a b = true
  · rw [if_pos hab]
    rcases List.mem_append.1 hm with hm | hm
    · exact q.negTrans b a m (q.asymm a b hab) (ha m hm)
    · exact hb m hm
  · rw [if_neg hab]
    rcases List.mem_append.1 hm with hm | hm
    · exact ha m hm
    · exact q.negTrans a b m (Bool.eq_false_iff.2 hab) (hb m hm)

theorem mem_append {a b : M} (ha : a ∈ ms) (hb : b ∈ ns) : (if q.subLess a b then b else a) ∈ ms ++ ns := by
  split
  · exact mem_append_right _ hb
  · exact mem_append_left _ ha

/-- **A group is pushed into a group.** -/
theorem push_grouped (h : Sums q ms false g) (he : Sums q ns true e) : Sums q (ms ++ ns) false (pushIntoGroup true e g) where
  count := by
    show g.count + e.count = _
    rw [h.count, he.count, length_append]
  aggr := by
    intro c
    have hc := AggrFunc.carries_append_grouped (q.func c) (h.aggr c) (he.aggr c) (he.map_ne_nil c)
    rw [length_map, ← he.count, ← map_append] at hc
    exact hc
  mem := mem_append h.mem he.mem
  best := best_append h.best he.best

/-- **A match is pushed into a group.** -/
theorem push_raw (h : Sums q ms false g) (m : M) : Sums q (ms ++ [m]) false (pushIntoGroup false (rawMatch q m) g) where
  count := by
    show g.count + 1 = _
    rw [h.count, length_append, length_singleton]
  aggr := by
    intro c
    have hc := AggrFunc.carries_append_single (q.func c) (q.value m c) 0 (h.aggr c)
    rw [← map_singleton (f := fun m => q.value m c), ← map_append] at hc
    exact hc
  mem := mem_append h.mem (mem_singleton_self m)
  best := best_append h.best (of_raw m (q.key m)).best

end Sums

/-! ## A sorter -/

variable [DecidableEq K]

/-- The matches of one key. -/
def groupOf (q : Query M K Col) (ms : List M) (k : K) : List M := ms.filter (fun m => q.key m = k)

/-- The matches have at most `max_matches` keys. -/
def FewKeys (q : Query M K Col) (ms : List M) : Prop := (ms.map q.key).toFinset.card ≤ q.limit

/-- The sorter stands for the matches `ms`. -/
structure Inv (ord : GroupOrder q) (s : Sorter q) (ms : List M) : Prop where
  keys     : (s.used.map (fun x => x.2.groupby)).Nodup
  slots    : (s.used.map Prod.fst ++ s.free).Nodup
  hash     : ∀ k i, s.hash k = some i ↔ ∃ g, (i, g) ∈ s.used ∧ g.groupby = k
  complete : ∀ m ∈ ms, ∃ x ∈ s.used, x.2.groupby = q.key m
  exact    : ∀ x ∈ s.used, Sums q (groupOf q ms x.2.groupby) s.matchesFinalized x.2
  size     : s.used.length + s.free.length = q.limit * 4
  sorted   : s.matchesFinalized = true → s.used.Pairwise (fun a b => ord.less b.2 a.2 = false)
  flags    : s.avgFinal = true → q.hasAvgs = true ∧ s.matchesFinalized = true
  fresh    : s.used = [] → s.avgFinal = false

/-- Means are kept and the flag does not say so. -/
def Stale (s : Sorter q) : Prop := q.hasAvgs = true ∧ s.matchesFinalized = true ∧ s.avgFinal = false

variable {k : K} {e : GroupMatch q}

section
variable {ord : GroupOrder q} {s : Sorter q} {ms ns : List M}

theorem mem_groupOf {m : M} : m ∈ groupOf q ms k ↔ m ∈ ms ∧ q.key m = k := by
  rw [groupOf, mem_filter, decide_eq_true_iff]

theorem groupOf_append (ms ns : List M) (k : K) : groupOf q (ms ++ ns) k = groupOf q ms k ++ groupOf q ns k :=
  filter_append _ _

theorem groupOf_same (h : ∀ m ∈ ns, q.key m = k) : groupOf q ns k = ns :=
  filter_eq_self.2 (fun m hm => decide_eq_true (h m hm))

theorem groupOf_other {k' : K} (h : ∀ m ∈ ns, q.key m = k) (hne : k' ≠ k) : groupOf q ns k' = [] :=
  filter_eq_nil_iff.2 (fun m hm hk => hne ((of_decide_eq_true hk).symm.trans (h m hm)))

theorem FewKeys.mono (h : FewKeys q ns) (hsub : ms ⊆ ns) : FewKeys q ms := by
  refine le_trans (Finset.card_le_card ?_) h
  intro k hk
  rw [mem_toFinset] at hk ⊢
  exact map_subset q.key hsub hk

theorem Inv.length_le (h : Inv ord s ms) (hf : FewKeys q ms) : s.used.length ≤ q.limit := by
  have hcard : (s.used.map (fun x => x.2.groupby)).toFinset.card = s.used.length := by
    rw [toFinset_card_of_nodup h.keys, length_map]
  rw [← hcard]
  refine le_trans (Finset.card_le_card ?_) hf
  intro k hk
  rw [mem_toFinset, mem_map] at hk ⊢
  obtain ⟨x, hx, rfl⟩ := hk
  obtain ⟨hm, hkey⟩ := mem_groupOf.1 (h.exact x hx).mem
  exact ⟨_, hm, hkey⟩

theorem inv_empty (ord : GroupOrder q) : Inv ord (Sorter.empty q) [] where
  keys := nodup_nil
  slots := nodup_range
  hash := by
    intro k i
    constructor
    · intro h
      cases h
    · rintro ⟨g, hg, -⟩
      cases hg
  complete := fun m hm => by cases hm
  exact := fun x hx => by cases hx
  size := by simp [Sorter.empty]
  sorted := fun h => by cases h
  flags := fun h => by cases h
  fresh := fun _ => rfl

/-- Only the matches in the slots change: the keys are those of `s`. -/
theorem Inv.map {s' : Sorter q} {f : Nat × GroupMatch q → GroupMatch q} (h : Inv ord s ms)
    (hf : ∀ x, (f x).groupby = x.2.groupby) (hused : s'.used = s.used.map (fun x => (x.1, f x)))
    (hfree : s'.free = s.free) (hhash : s'.hash = s.hash)
    (hcomplete : ∀ m ∈ ns, ∃ x ∈ s.used, x.2.groupby = q.key m)
    (hexact : ∀ x ∈ s.used, Sums q (groupOf q ns x.2.groupby) false (f x))
    (hopen : s'.matchesFinalized = false) (hflag : s'.avgFinal = false) : Inv ord s' ns where
  keys := by
    rw [hused, map_map]
    simpa only [Function.comp_def, hf] using h.keys
  slots := by
    rw [hused, hfree, map_map]
    exact h.slots
  hash := by
    intro k i
    rw [hhash, h.hash, hused]
    constructor
    · rintro ⟨g, hg, rfl⟩
      exact ⟨f (i, g), mem_map.2 ⟨(i, g), hg, rfl⟩, hf (i, g)⟩
    · rintro ⟨g, hg, rfl⟩
      obtain ⟨x, hx, he⟩ := mem_map.1 hg
      cases he
      exact ⟨x.2, hx, (hf x).symm⟩
  complete := by
    intro m hm
    obtain ⟨x, hx, hk⟩ := hcomplete m hm
    rw [hused]
    exact ⟨_, mem_map.2 ⟨x, hx, rfl⟩, (hf x).trans hk⟩
  exact := by
    intro y hy
    rw [hused] at hy
    obtain ⟨x, hx, rfl⟩ := mem_map.1 hy
    simp only [hf, hopen]
    exact hexact x hx
  size := by rw [hused, hfree, length_map, h.size]
  sorted := fun hs => by rw [hopen] at hs; cases hs
  flags := fun hs => by rw [hflag] at hs; cases hs
  fresh := fun _ => hflag

/-- **Before a match is pushed every average is a sum.** -/
theorem inv_reopen (h : Inv ord s ms) (hs : ¬ Stale s) :
    Inv ord s.reopen ms ∧ s.reopen.matchesFinalized = false ∧ s.reopen.avgFinal = false := by
  by_cases ha : s.avgFinal = true
  · obtain ⟨hq, hm⟩ := h.flags ha
    have hr : s.reopen = { s with
        matchesFinalized := false
        avgFinal := false
        used := s.used.map (fun x => (x.1, x.2.ungroup)) } := by
      simp only [Sorter.reopen, if_pos ha, Sorter.calcAvgUngroup, hq, if_true]
    rw [hr]
    refine ⟨h.map (f := fun x => x.2.ungroup) (fun _ => rfl) rfl rfl rfl h.complete (fun x hx => ?_) rfl rfl, rfl, rfl⟩
    have hx' := h.exact x hx
    rw [hm] at hx'
    exact hx'.ungroup
  · have hr : s.reopen = { s with matchesFinalized := false } := if_neg ha
    rw [hr]
    refine ⟨h.map (f := fun x => x.2) (fun _ => rfl) (map_id' _).symm rfl rfl h.complete (fun x hx => ?_) rfl ?_,
      rfl, ?_⟩
    · have hx' := h.exact x hx
      cases hm : s.matchesFinalized with
      | false =>
        rw [hm] at hx'
        exact hx'
      | true =>
        -- the sorter holds means and is not stale: there are no averages
        cases hq : q.hasAvgs with
        | false => exact hx'.of_not_hasAvgs hq false
        | true => exact absurd ⟨hq, hm, Bool.eq_false_iff.2 ha⟩ hs
    · exact Bool.eq_false_iff.2 ha
    · exact Bool.eq_false_iff.2 ha

/-- What is pushed stands for the matches `ns`, all of the key `k`. -/
structure Pushed (q : Query M K Col) (grouped : Bool) (e : GroupMatch q) (k : K) (ns : List M) : Prop where
  key : ∀ m ∈ ns, q.key m = k
  new : Sums q ns false (newGroup grouped e k)
  newKey : (newGroup grouped e k).groupby = k
  into : ∀ {ms : List M} {g : GroupMatch q}, Sums q ms false g → Sums q (ms ++ ns) false (pushIntoGroup grouped e g)

omit [DecidableEq K] in
theorem pushed_raw (m : M) : Pushed q false (rawMatch q m) (q.key m) [m] where
  key := by
    intro m' hm'
    rw [mem_singleton.1 hm']
  new := Sums.of_raw m (q.key m)
  newKey := rfl
  into := fun h => h.push_raw m

omit [DecidableEq K] in
theorem pushed_group (he : Sums q ns true e) (hk : ∀ m ∈ ns, q.key m = e.groupby) :
    Pushed q true e e.groupby ns where
  key := hk
  new := he.ungroup
  newKey := rfl
  into := fun h => h.push_grouped he

section Push
variable {grouped : Bool} {i : Nat}

theorem Pushed.groupOf_other (hp : Pushed q grouped e k ns) {k' : K} (hne : k' ≠ k) :
    groupOf q (ms ++ ns) k' = groupOf q ms k' := by
  rw [groupOf_append, Group.groupOf_other hp.key hne, append_nil]

/-- A slot of the table holds the group the hash finds there, and no other slot does. -/
theorem Inv.slot_iff (h : Inv ord s ms) (hk : s.hash k = some i) {x : Nat × GroupMatch q} (hx : x ∈ s.used) :
    x.1 = i ↔ x.2.groupby = k := by
  obtain ⟨g, hg, hgk⟩ := (h.hash k i).1 hk
  constructor
  · intro hxi
    rw [inj_on_of_nodup_map (List.Nodup.of_append_left h.slots) hx hg hxi, hgk]
  · intro hxk
    have hx' := (h.hash k x.1).2 ⟨x.2, hx, hxk⟩
    rw [hk, Option.some.injEq] at hx'
    exact hx'.symm

/-- The group is there: its match takes the entry in. -/
theorem inv_pushInto (h : Inv ord s ms) (hopen : s.matchesFinalized = false) (hflag : s.avgFinal = false)
    (hp : Pushed q grouped e k ns) (hk : s.hash k = some i) : Inv ord (s.pushOpen ord grouped e k) (ms ++ ns) := by
  obtain ⟨g, hg, hgk⟩ := (h.hash k i).1 hk
  refine h.map (f := fun x => if x.1 = i then pushIntoGroup grouped e x.2 else x.2) ?_ ?_ ?_ ?_ ?_ ?_ ?_ ?_
  · intro x
    split <;> rfl
  · simp only [Sorter.pushOpen, hk]
    refine map_congr_left (fun x _ => ?_)
    split <;> rfl
  · simp only [Sorter.pushOpen, hk]
  · simp only [Sorter.pushOpen, hk]
  · intro m hm
    rcases List.mem_append.1 hm with hm | hm
    · exact h.complete m hm
    · exact ⟨_, hg, hgk.trans (hp.key m hm).symm⟩
  · intro x hx
    have hx' := h.exact x hx
    rw [hopen] at hx'
    by_cases hxi : x.1 = i
    · have hxk := (h.slot_iff hk hx).1 hxi
      rw [hxk] at hx' ⊢
      rw [if_pos hxi, groupOf_append, groupOf_same hp.key]
      exact hp.into hx'
    · rw [if_neg hxi, hp.groupOf_other (mt (h.slot_iff hk hx).2 hxi)]
      exact hx'
  · simp only [Sorter.pushOpen, hk, hopen]
  · simp only [Sorter.pushOpen, hk, hflag]

theorem Inv.hash_snoc (h : Inv ord s ms) {g : GroupMatch q} (hnew : ∀ x ∈ s.used, x.2.groupby ≠ g.groupby) (k : K) (i' : Nat) :
    addHash s.hash g.groupby i k = some i' ↔ ∃ g', (i', g') ∈ s.used ++ [(i, g)] ∧ g'.groupby = k := by
  rw [addHash]
  by_cases hk : k = g.groupby
  · rw [if_pos hk, Option.some.injEq]
    constructor
    · rintro rfl
      exact ⟨g, mem_append_right _ (mem_singleton_self _), hk.symm⟩
    · rintro ⟨g', hg', hgk⟩
      rcases List.mem_append.1 hg' with hg' | hg'
      · exact absurd (hgk.trans hk) (hnew _ hg')
      · cases mem_singleton.1 hg'
        rfl
  · rw [if_neg hk, h.hash]
    constructor
    · rintro ⟨g', hg', hgk⟩
      exact ⟨g', mem_append_left _ hg', hgk⟩
    · rintro ⟨g', hg', hgk⟩
      rcases List.mem_append.1 hg' with hg' | hg'
      · exact ⟨g', hg', hgk⟩
      · cases mem_singleton.1 hg'
        exact absurd hgk.symm hk

/-- A new group takes the next slot. -/
theorem inv_pushNew (h : Inv ord s ms) (hopen : s.matchesFinalized = false) (hflag : s.avgFinal = false)
    (hp : Pushed q grouped e k ns) (hk : s.hash k = none) {free : List Nat} (hfree : s.free = i :: free) :
    Inv ord (s.pushOpen ord grouped e k) (ms ++ ns) := by
  have hnew : ∀ x ∈ s.used, x.2.groupby ≠ k := by
    intro x hx hxk
    cases hk.symm.trans ((h.hash k x.1).2 ⟨x.2, hx, hxk⟩)
  have hempty : groupOf q ms k = [] := by
    refine filter_eq_nil_iff.2 (fun m hm hmk => ?_)
    obtain ⟨x, hx, hxk⟩ := h.complete m hm
    exact hnew x hx (hxk.trans (of_decide_eq_true hmk))
  have hres : s.pushOpen ord grouped e k = { s with
      used := s.used ++ [(i, newGroup grouped e k)]
      free := free
      hash := addHash s.hash k i } := by
    simp only [Sorter.pushOpen, hk, hfree, cons_ne_nil, if_false]
  rw [hres]
  refine ⟨?_, ?_, ?_, fun m hm => ?_, fun x hx => ?_, ?_, fun hs => ?_, fun hs => ?_, fun _ => hflag⟩
  · rw [map_append, map_singleton, hp.newKey]
    refine List.Nodup.append h.keys (nodup_singleton k) (disjoint_singleton.2 fun hmem => ?_)
    obtain ⟨x, hx, hxk⟩ := mem_map.1 hmem
    exact hnew x hx hxk
  · rw [map_append, map_singleton, append_assoc, singleton_append, ← hfree]
    exact h.slots
  · have hs := h.hash_snoc (g := newGroup grouped e k) (i := i) (by rwa [hp.newKey])
    rwa [hp.newKey] at hs
  · rcases List.mem_append.1 hm with hm | hm
    · obtain ⟨x, hx, hxk⟩ := h.complete m hm
      exact ⟨x, mem_append_left _ hx, hxk⟩
    · exact ⟨_, mem_append_right _ (mem_singleton_self _), hp.newKey.trans (hp.key m hm).symm⟩
  · rcases List.mem_append.1 hx with hx | hx
    · rw [hp.groupOf_other (hnew x hx)]
      exact h.exact x hx
    · rw [mem_singleton.1 hx]
      simp only [hp.newKey, groupOf_append, hempty, groupOf_same hp.key, nil_append, hopen]
      exact hp.new
  · have hsize := h.size
    rw [hfree, length_cons] at hsize
    rw [length_append, length_singleton, ← hsize, Nat.add_right_comm, Nat.add_assoc]
  · cases hopen.symm.trans hs
  · cases hflag.symm.trans hs

/-- **One push.**  There is a free slot, as there are four for each key. -/
theorem inv_pushOpen (h : Inv ord s ms) (hopen : s.matchesFinalized = false) (hflag : s.avgFinal = false)
    (hp : Pushed q grouped e k ns) (hf : FewKeys q (ms ++ ns)) : Inv ord (s.pushOpen ord grouped e k) (ms ++ ns) := by
  cases hk : s.hash k with
  | some i => exact inv_pushInto h hopen hflag hp hk
  | none =>
    have hlen := h.length_le (hf.mono (subset_append_left ms ns))
    have hsize := h.size
    have hpos := q.positive
    cases hfree : s.free with
    | nil =>
      rw [hfree, length_nil] at hsize
      omega
    | cons i free => exact inv_pushNew h hopen hflag hp hk hfree

end Push

theorem inv_pushEx {grouped : Bool} (h : Inv ord s ms) (hs : ¬ Stale s)
    (hp : Pushed q grouped e k ns) (hf : FewKeys q (ms ++ ns)) :
    Inv ord (s.pushEx ord grouped e k) (ms ++ ns) := by
  obtain ⟨hr, hopen, hflag⟩ := inv_reopen h hs
  exact inv_pushOpen hr hopen hflag hp hf

/-- The match of a finalized sorter. -/
def finalMatch (g : GroupMatch q) : GroupMatch q := if q.hasAvgs then g.finalize else g

omit [DecidableEq K] in
theorem groupby_finalMatch (g : GroupMatch q) : (finalMatch g).groupby = g.groupby := by
  unfold finalMatch
  split <;> rfl

omit [DecidableEq K] in
theorem Sums.finalMatch {g : GroupMatch q} (h : Sums q ms false g) : Sums q ms true (finalMatch g) := by
  unfold Group.finalMatch
  split
  · exact h.finalize
  · rename_i hq
    exact h.of_not_hasAvgs (Bool.eq_false_iff.2 hq) true

section
variable (h : Inv ord s ms) (hf : FewKeys q ms)
include h hf

/-- **What `FinalizeMatches` makes of a sorter that fits.** -/
theorem finalizeMatches_eq (hm : s.matchesFinalized = false) :
    s.finalizeMatches ord = { s with
      used := ord.sort (s.used.map (fun x => (x.1, finalMatch x.2)))
      avgFinal := q.hasAvgs
      matchesFinalized := true } := by
  have hlen := not_lt.2 (h.length_le hf)
  have hflag : s.avgFinal = false := by
    rw [Bool.eq_false_iff]
    intro ha
    have := (h.flags ha).2
    rw [hm] at this
    cases this
  cases hq : q.hasAvgs with
  | true => simp [Sorter.finalizeMatches, hm, hlen, Sorter.calcAvgFinalize, Sorter.sortGroups, hq, finalMatch]
  | false => simp [Sorter.finalizeMatches, hm, hlen, Sorter.calcAvgFinalize, Sorter.sortGroups, hq, finalMatch, hflag]

/-- **The groups of a finalized sorter** are exact, with means, and in order. -/
theorem finalizeMatches_spec :
    ((s.finalizeMatches ord).used.map (fun x => x.2.groupby)).Nodup ∧
      (∀ m ∈ ms, ∃ x ∈ (s.finalizeMatches ord).used, x.2.groupby = q.key m) ∧
      (∀ x ∈ (s.finalizeMatches ord).used, Sums q (groupOf q ms x.2.groupby) true x.2) ∧
      (s.finalizeMatches ord).used.Pairwise (fun a b => ord.less b.2 a.2 = false) := by
  cases hm : s.matchesFinalized with
  | true =>
    have hs : s.finalizeMatches ord = s := by rw [Sorter.finalizeMatches, if_pos hm]
    have hex := h.exact
    rw [hm] at hex
    rw [hs]
    exact ⟨h.keys, h.complete, hex, h.sorted hm⟩
  | false =>
    have hex := h.exact
    rw [hm] at hex
    rw [finalizeMatches_eq h hf hm]
    have hperm := ord.perm (s.used.map (fun x => (x.1, finalMatch x.2)))
    refine ⟨?_, ?_, ?_, ord.sorted _⟩
    · refine (hperm.map _).nodup_iff.2 ?_
      rw [map_map]
      simpa only [Function.comp_def, groupby_finalMatch] using h.keys
    · intro m hmem
      obtain ⟨x, hx, hk⟩ := h.complete m hmem
      exact ⟨(x.1, finalMatch x.2), hperm.mem_iff.2 (mem_map.2 ⟨x, hx, rfl⟩), (groupby_finalMatch x.2).trans hk⟩
    · intro y hy
      obtain ⟨x, hx, rfl⟩ := mem_map.1 (hperm.mem_iff.1 hy)
      simp only [groupby_finalMatch]
      exact (hex x hx).finalMatch

theorem inv_finalize : Inv ord (s.finalize ord) ms := by
  unfold Sorter.finalize
  by_cases hnil : s.used = []
  · rw [if_pos hnil]
    exact h
  rw [if_neg hnil]
  cases hm : s.matchesFinalized with
  | true =>
    rw [Sorter.finalizeMatches, if_pos hm]
    exact h
  | false =>
    obtain ⟨hkeys, hcomplete, hexact, hsorted⟩ := finalizeMatches_spec h hf
    have hperm := ord.perm (s.used.map (fun x => (x.1, finalMatch x.2)))
    rw [finalizeMatches_eq h hf hm] at hkeys hcomplete hexact hsorted ⊢
    refine ⟨hkeys, ?_, ?_, hcomplete, hexact, ?_, fun _ => hsorted, fun ha => ⟨ha, rfl⟩, ?_⟩
    · refine ((hperm.map Prod.fst).append_right s.free).nodup_iff.2 ?_
      rw [map_map]
      exact h.slots
    · intro k i
      show s.hash k = some i ↔ _
      rw [h.hash]
      constructor
      · rintro ⟨g, hg, rfl⟩
        exact ⟨finalMatch g, hperm.mem_iff.2 (mem_map.2 ⟨(i, g), hg, rfl⟩), groupby_finalMatch g⟩
      · rintro ⟨g, hg, rfl⟩
        obtain ⟨x, hx, he⟩ := mem_map.1 (hperm.mem_iff.1 hg)
        cases he
        exact ⟨x.2, hx, (groupby_finalMatch x.2).symm⟩
    · show (ord.sort _).length + s.free.length = _
      rw [hperm.length_eq, length_map, h.size]
    · intro hempty
      have hlen := hperm.length_eq
      rw [show ord.sort _ = [] from hempty, length_map, length_nil] at hlen
      exact absurd (eq_nil_of_length_eq_zero hlen.symm) hnil

end

omit [DecidableEq K] in
theorem matchesFinalized_calcAvgUngroup (s : Sorter q) : s.calcAvgUngroup.matchesFinalized = s.matchesFinalized := by
  unfold Sorter.calcAvgUngroup
  split <;> rfl

omit [DecidableEq K] in
theorem matchesFinalized_calcAvgFinalize (s : Sorter q) : s.calcAvgFinalize.matchesFinalized = s.matchesFinalized := by
  unfold Sorter.calcAvgFinalize
  split <;> rfl

theorem matchesFinalized_cutWorst (s : Sorter q) (bound : Nat) (fin : Bool) :
    (s.cutWorst ord bound fin).matchesFinalized = s.matchesFinalized := by
  cases fin with
  | true => exact matchesFinalized_calcAvgFinalize s
  | false => exact (matchesFinalized_calcAvgUngroup _).trans (matchesFinalized_calcAvgFinalize s)

theorem matchesFinalized_pushEx (s : Sorter q) (grouped : Bool) (e : GroupMatch q) (k : K) :
    (s.pushEx ord grouped e k).matchesFinalized = false := by
  have hreopen : s.reopen.matchesFinalized = false := by
    unfold Sorter.reopen
    split
    · exact matchesFinalized_calcAvgUngroup _
    · rfl
  unfold Sorter.pushEx Sorter.pushOpen
  split
  · exact hreopen
  · dsimp only
    split
    · split
      · exact (matchesFinalized_cutWorst _ _ _).trans hreopen
      · exact hreopen
    · split
      · exact (matchesFinalized_cutWorst _ _ _).trans hreopen
      · exact hreopen

theorem not_stale_pushEx (s : Sorter q) (grouped : Bool) (e : GroupMatch q) (k : K) :
    ¬ Stale (s.pushEx ord grouped e k) := by
  rintro ⟨-, hm, -⟩
  rw [matchesFinalized_pushEx] at hm
  cases hm

theorem Inv.congr (h : Inv ord s ms) (heq : ∀ k, groupOf q ms k = groupOf q ns k) : Inv ord s ns where
  keys := h.keys
  slots := h.slots
  hash := h.hash
  complete := by
    intro m hm
    have hmem : m ∈ groupOf q ms (q.key m) := by
      rw [heq]
      exact mem_groupOf.2 ⟨hm, rfl⟩
    exact h.complete m (mem_groupOf.1 hmem).1
  exact := by
    intro x hx
    rw [← heq]
    exact h.exact x hx
  size := h.size
  sorted := h.sorted
  flags := h.flags
  fresh := h.fresh

theorem Inv.nil_of_used (h : Inv ord s ms) (hu : s.used = []) : ms = [] := by
  cases hms : ms with
  | nil => rfl
  | cons m rest =>
    obtain ⟨x, hx, -⟩ := h.complete m (by rw [hms]; exact mem_cons_self)
    rw [hu] at hx
    cases hx

/-- The matches of the groups in `l`. -/
def matchesOf (q : Query M K Col) (ns : List M) (l : List (Nat × GroupMatch q)) : List M :=
  l.flatMap (fun x => groupOf q ns x.2.groupby)

theorem groupOf_matchesOf (k : K) : ∀ (l : List (Nat × GroupMatch q)), (l.map (fun x => x.2.groupby)).Nodup →
    groupOf q (matchesOf q ns l) k = if k ∈ l.map (fun x => x.2.groupby) then groupOf q ns k else []
  | [], _ => rfl
  | x :: l, hnd => by
    rw [map_cons, nodup_cons] at hnd
    have hkey : ∀ m ∈ groupOf q ns x.2.groupby, q.key m = x.2.groupby := fun m hm => (mem_groupOf.1 hm).2
    rw [matchesOf, flatMap_cons, groupOf_append, map_cons]
    have ih := groupOf_matchesOf k l hnd.2
    rw [matchesOf] at ih
    rw [ih]
    by_cases hk : k = x.2.groupby
    · rw [hk, groupOf_same hkey, if_neg hnd.1, append_nil, if_pos mem_cons_self]
    · rw [groupOf_other hkey hk, nil_append]
      simp only [mem_cons, hk, false_or]

/-- **The groups of one sorter are pushed into another.** -/
theorem inv_foldl_pushGrouped (hf : FewKeys q (ms ++ ns)) : ∀ (l : List (Nat × GroupMatch q)) (done : List M)
    (s : Sorter q), Inv ord s (ms ++ done) → ¬ Stale s → done ⊆ ns →
    (∀ x ∈ l, Sums q (groupOf q ns x.2.groupby) true x.2) →
    Inv ord (l.foldl (fun s x => s.pushGrouped ord x.2) s) (ms ++ (done ++ matchesOf q ns l))
  | [], done, s, h, _, _, _ => by
    rw [matchesOf, flatMap_nil, append_nil]
    exact h
  | x :: l, done, s, h, hs, hdone, hex => by
    have hsub : done ++ groupOf q ns x.2.groupby ⊆ ns :=
      append_subset.2 ⟨hdone, fun m hm => (mem_groupOf.1 hm).1⟩
    have hfew : FewKeys q (ms ++ done ++ groupOf q ns x.2.groupby) := by
      rw [append_assoc]
      refine hf.mono ?_
      exact append_subset.2 ⟨subset_append_left _ _, fun m hm => mem_append_right _ (hsub hm)⟩
    have hpush := inv_pushEx h hs
      (pushed_group (hex x mem_cons_self) (fun m hm => (mem_groupOf.1 hm).2)) hfew
    rw [append_assoc] at hpush
    have ih := inv_foldl_pushGrouped hf l _ _ hpush (not_stale_pushEx s true x.2 x.2.groupby) hsub
      (fun y hy => hex y (mem_cons_of_mem x hy))
    rw [append_assoc] at ih
    exact ih

/-- **One sorter is moved into another.** -/
theorem inv_moveTo {src dst : Sorter q} (hsrc : Inv ord src ns) (hdst : Inv ord dst ms)
    (hs : src.used ≠ [] → dst.used ≠ [] → ¬ Stale dst) (hf : FewKeys q (ms ++ ns)) :
    Inv ord (src.moveTo ord dst) (ms ++ ns) := by
  unfold Sorter.moveTo
  by_cases hse : src.used = []
  · rw [if_pos hse, hsrc.nil_of_used hse, append_nil]
    exact hdst
  rw [if_neg hse]
  by_cases hde : dst.used = []
  · have hflag := hdst.fresh hde
    rw [if_pos hde, hdst.nil_of_used hde, nil_append]
    exact {
      keys := hsrc.keys
      slots := hsrc.slots
      hash := hsrc.hash
      complete := hsrc.complete
      exact := hsrc.exact
      size := hsrc.size
      sorted := hsrc.sorted
      flags := fun ha => by rw [show dst.avgFinal = true from ha] at hflag; cases hflag
      fresh := fun _ => hflag }
  · rw [if_neg hde]
    obtain ⟨hkeys, hcomplete, hexact, -⟩ := finalizeMatches_spec hsrc (hf.mono (subset_append_right ms ns))
    have hdst' : Inv ord dst (ms ++ []) := by rwa [append_nil]
    have hfold := inv_foldl_pushGrouped hf (src.finalizeMatches ord).used [] dst hdst' (hs hse hde)
      (nil_subset _) hexact
    refine hfold.congr (fun k => ?_)
    rw [nil_append, groupOf_append, groupOf_append, groupOf_matchesOf k _ hkeys]
    split
    · rfl
    · rename_i hk
      -- no match of the moved sorter has the key
      have hnone : groupOf q ns k = [] := by
        refine filter_eq_nil_iff.2 (fun m hm hmk => hk ?_)
        obtain ⟨x, hx, hxk⟩ := hcomplete m hm
        exact mem_map.2 ⟨x, hx, hxk.trans (of_decide_eq_true hmk)⟩
      rw [hnone]

end

/-! ## Plans -/

/-- How a sorter came to be. -/
inductive Plan (M : Type)
  | empty
  | push (p : Plan M) (m : M)
  | finalize (p : Plan M)
  | moveTo (src dst : Plan M)

/-- The sorter a plan leaves. -/
def Plan.run (ord : GroupOrder q) : Plan M → Sorter q
  | .empty          => Sorter.empty q
  | .push p m       => (p.run ord).push ord m
  | .finalize p     => (p.run ord).finalize ord
  | .moveTo src dst => (src.run ord).moveTo ord (dst.run ord)

/-- The matches that went into it. -/
def Plan.matches : Plan M → List M
  | .empty          => []
  | .push p m       => p.matches ++ [m]
  | .finalize p     => p.matches
  | .moveTo src dst => dst.matches ++ src.matches

/-- No match or group is pushed into a sorter that holds means while its flag says sums. -/
def Plan.NeverStale (ord : GroupOrder q) : Plan M → Prop
  | .empty          => True
  | .push p _       => p.NeverStale ord ∧ ¬ Stale (p.run ord)
  | .finalize p     => p.NeverStale ord
  | .moveTo src dst => src.NeverStale ord ∧ dst.NeverStale ord ∧
    ((src.run ord).used ≠ [] → (dst.run ord).used ≠ [] → ¬ Stale (dst.run ord))

theorem inv_run (ord : GroupOrder q) (p : Plan M) : p.NeverStale ord → FewKeys q p.matches →
    Inv ord (p.run ord) p.matches := by
  induction p with
  | empty =>
    intro _ _
    exact inv_empty ord
  | push p m ih =>
    intro hs hf
    exact inv_pushEx (ih hs.1 (hf.mono (subset_append_left _ _))) hs.2 (pushed_raw m) hf
  | finalize p ih =>
    intro hs hf
    exact inv_finalize (ih hs hf) hf
  | moveTo src dst ihs ihd =>
    intro hs hf
    exact inv_moveTo (ihs hs.1 (hf.mono (subset_append_right _ _)))
      (ihd hs.2.1 (hf.mono (subset_append_left _ _))) hs.2.2 hf

/-- **GROUP BY over merged sorters.**  When the keys fit, every plan that never pushes into a stale sorter ends with every
group once, in the order of the group comparator, and each with the count, the aggregates and a best match of exactly the
matches of its key. -/
theorem flatten_exact (ord : GroupOrder q) (p : Plan M) (hs : p.NeverStale ord) (hf : FewKeys q p.matches) :
    (((p.run ord).flatten ord).map GroupMatch.groupby).Nodup ∧
      (∀ k, k ∈ ((p.run ord).flatten ord).map GroupMatch.groupby ↔ ∃ m ∈ p.matches, q.key m = k) ∧
      ((p.run ord).flatten ord).Pairwise (fun a b => ord.less b a = false) ∧
      ∀ g ∈ (p.run ord).flatten ord, Sums q (groupOf q p.matches g.groupby) true g := by
  obtain ⟨hkeys, hcomplete, hexact, hsorted⟩ := finalizeMatches_spec (inv_run ord p hs hf) hf
  unfold Sorter.flatten
  refine ⟨?_, ?_, ?_, ?_⟩
  · rw [map_map]
    exact hkeys
  · intro k
    constructor
    · intro hk
      obtain ⟨g, hg, rfl⟩ := mem_map.1 hk
      obtain ⟨x, hx, rfl⟩ := mem_map.1 hg
      obtain ⟨hm, hkey⟩ := mem_groupOf.1 (hexact x hx).mem
      exact ⟨_, hm, hkey⟩
    · rintro ⟨m, hm, rfl⟩
      obtain ⟨x, hx, hk⟩ := hcomplete m hm
      exact mem_map.2 ⟨x.2, mem_map.2 ⟨x, hx, rfl⟩, hk⟩
  · exact pairwise_map.2 hsorted
  · intro g hg
    obtain ⟨x, hx, rfl⟩ := mem_map.1 hg
    exact hexact x hx

/-! ## Averages of one group -/

/-- `SELECT AVG(v) ... GROUP BY k` over rows that all have the same key; a row is its value. -/
def avgQuery : Query Nat Unit Unit where
  key := fun _ => ()
  func := fun _ => .avg
  value := fun m _ => ((m : ℚ) : ℚ)
  hasAvgs := true
  avgs := fun h => by cases h
  subLess := fun a b => decide (a < b)
  asymm := by
    intro a b h
    rw [decide_eq_true_iff] at h
    rw [decide_eq_false_iff_not]
    omega
  negTrans := by
    intro a b c h1 h2
    rw [decide_eq_false_iff_not] at h1 h2 ⊢
    omega
  limit := 1
  positive := Nat.one_pos

def anyOrder : GroupOrder avgQuery where
  less := fun _ _ => false
  sort := id
  partition := fun _ l => l
  perm := fun l => List.Perm.refl l
  sorted := fun _ => List.pairwise_of_forall (fun _ _ => rfl)

def average (g : GroupMatch avgQuery) : ℚ := g.aggr ()

/-- The rows 10 and 20 in a finalized sorter, then the row 30, finalized and moved there. -/
def keptMean : Plan Nat := .moveTo (.finalize (.push .empty 30)) (.finalize (.push (.push .empty 10) 20))

theorem flatten_exact_keptMean :
    keptMean.NeverStale anyOrder ∧ FewKeys avgQuery keptMean.matches ∧
      ∀ g ∈ (keptMean.run anyOrder).flatten anyOrder, Sums avgQuery [10, 20, 30] true g := by
  have hstale : keptMean.NeverStale anyOrder := by
    refine ⟨⟨trivial, ?_⟩, ⟨⟨trivial, ?_⟩, ?_⟩, fun _ _ => ?_⟩
    · rintro ⟨-, hm, -⟩
      cases hm
    · rintro ⟨-, hm, -⟩
      cases hm
    · rintro ⟨-, hm, -⟩
      cases hm
    · -- the sorter that receives was finalized itself, so its flag is set
      rintro ⟨-, -, ha⟩
      cases ha
  have hfew : FewKeys avgQuery keptMean.matches := by
    show ([(), (), ()] : List Unit).toFinset.card ≤ 1
    decide
  exact ⟨hstale, hfew, (flatten_exact anyOrder keptMean hstale hfew).2.2.2⟩

/-- The rows 10 and 20 in a finalized sorter, moved into an empty one; then the row 30, finalized and moved there too. -/
def movedMean : Plan Nat :=
  .moveTo (.finalize (.push .empty 30)) (.moveTo (.finalize (.push (.push .empty 10) 20)) .empty)

/-- **A finalized sorter moved into an empty one spoils the average**: of 10, 20 and 30 it is 15. -/
theorem movedMean_average :
    FewKeys avgQuery movedMean.matches ∧ movedMean.matches = [10, 20, 30] ∧
      ((movedMean.run anyOrder).flatten anyOrder).map (fun g => (g.count, average g)) = [(3, 15)] := by
  refine ⟨?_, rfl, by decide +kernel⟩
  show ([(), (), ()] : List Unit).toFinset.card ≤ 1
  decide

end Group
end Manticore

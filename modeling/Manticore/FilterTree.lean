import Mathlib
import Manticore.FileIo
import Manticore.FilterSettings
/-!
# FilterTree — building the filters of a query (`CreateFiltersFromSettings`, `CreateFilterTree`)

The filters of a query become objects with an `Eval`.  A filter tree is built bottom up and goes to one of the two
slots of the context; a list without a tree is joined into one conjunction per slot.  A tree above fifty items that
needs more stack than is left is built on a bigger one, wrapped, and then the code goes on into the branch for plain
lists.  `sphCreateFilters_tree_iff` says when the context left behind still evaluates the tree.
-/
namespace Manticore
namespace Filters
open List
open Option (bind_eq_bind bind_some map_some)

variable {i : Nat} {t : Tree}

section
variable {Row : Type}

/-- The `ISphFilter` objects that are put together here; a leaf is what `sphCreateFilter` returns. -/
inductive Filter (Row : Type)
  | leaf (eval : Row → Bool)
  | and2 (a b : Filter Row)
  | and (l : List (Filter Row))
  | or (a b : Filter Row)
  | proxyHeavy (a : Filter Row) (desiredStack : Int)

mutual
/-- `Eval`. -/
def Filter.eval : Filter Row → Row → Bool
  | .leaf f, row => f row
  | .and2 a b, row => a.eval row && b.eval row
  | .and l, row => Filter.evalAll l row
  | .or a b, row => a.eval row || b.eval row
  | .proxyHeavy a _, row => a.eval row

/-- The loop of `Filter_And::Eval`. -/
def Filter.evalAll : List (Filter Row) → Row → Bool
  | [], _ => true
  | f :: l, row => f.eval row && Filter.evalAll l row
end

/-- `Join`: `Filter_And2` and `Filter_And` take the new filter in, the others are put into a new `Filter_And`. -/
def Filter.join : Filter Row → Filter Row → Filter Row
  | .and2 a b, f => .and2 a (.and2 b f)
  | .and l, f => .and (l ++ [f])
  | a, f => .and [a, f]

/-- `sphJoinFilters`. -/
def joinFilters : Option (Filter Row) → Option (Filter Row) → Option (Filter Row)
  | none, b => b
  | some a, none => some a
  | some a, some b => some (a.join b)

/-- The numbers `EvalStackForExpr` reads off the running coroutine. -/
structure StackInfo where
  used : Nat
  size : Nat
  maxSize : Nat
  pageSize : Nat
  startFilterStackSize : Nat
  filterStackSize : Nat
  mocked : Bool

/-- `EvalStackForExpr`: -1 when the stack is enough, the size to run on when it is not, an error when that is above
the limit. -/
def evalStackForExpr (st : StackInfo) (maxDepth : Nat) : Except Str Int :=
  let calculated := st.startFilterStackSize + maxDepth * st.filterStackSize
  if st.used + calculated + st.startFilterStackSize / 2 ≤ st.size then .ok (-1)
  else
    let needed := (toInt32 calculated + 32 * 1024 + st.pageSize - 1) / st.pageSize * st.pageSize
    let kilobytes := (needed + 1024 - needed % 1024) / 1024
    if (st.maxSize : Int) < needed then
      .error s!"query filters too complex, not enough stack (thread_stack={kilobytes}K or higher required)".toUTF8.toList
    else .ok needed

/-- What filters are made with: the variables and columns that are known, `sphCreateFilter`, the selectivity
estimate, and the stack. -/
structure CreateFilterContext (Row : Type) where
  isWeightColumn : Str → Bool
  scan : Bool
  uservars : Option (Str → Option (List Attr))
  createFilter : FilterSettings → Except Str (Row → Bool)
  selectivity : FilterSettings → Int
  stack : StackInfo

/-- The slots `m_pFilter` and `m_pWeightFilter`. -/
structure Slots (Row : Type) where
  filter : Option (Filter Row) := none
  weightFilter : Option (Filter Row) := none

/-- A row passes every filter that is set. -/
def Slots.passes (s : Slots Row) (row : Row) : Bool :=
  (s.filter.all fun f => f.eval row) && (s.weightFilter.all fun f => f.eval row)

def emptyName : Str := "filter with empty name".toUTF8.toList
def noVariables : Str := "no global variables found".toUTF8.toList
def undefinedVariable (name : Str) : Str := "undefined global variable '".toUTF8.toList ++ name ++ [39]

/-- The name `@rowid`. -/
def rowidName : Str := [64, 114, 111, 119, 105, 100]

section
variable (ctx : CreateFilterContext Row)

/-- A user variable is replaced by its values. -/
def bindUservar (f : FilterSettings) : Except Str FilterSettings :=
  if f.type ≠ .userVar then .ok f
  else
    match ctx.uservars, f.strings with
    | some vars, [name] =>
      match vars name with
      | none => .error (undefinedVariable name)
      | some values => .ok ({ f with type := .values }.setExternalValues values)
    | _, _ => .error noVariables

/-- The filter of one leaf, or of one item of the list. -/
def createBound (f : FilterSettings) : Except Str (Row → Bool) := bindUservar ctx f >>= ctx.createFilter

/-- The leaf case of `CreateFilterNode`. -/
def createLeaf (f : FilterSettings) : Except Str (Row → Bool) :=
  if f.attrName = [] then .error emptyName else createBound ctx f

/-- Both children are built before either is looked at; an error of the right one overwrites that of the left. -/
def joinNode (or : Bool) : Except Str (Filter Row × Bool) → Except Str (Filter Row × Bool) →
    Except Str (Filter Row × Bool)
  | _, .error e => .error e
  | .error e, .ok _ => .error e
  | .ok (l, wl), .ok (r, wr) => .ok (if or then .or l r else .and2 l r, wl || wr)

/-- `CreateFilterNode`: the filter and whether a weight column was met; `none` when the fuel is used up. -/
def createFilterNode (filters : List FilterSettings) (items : List FilterTreeItem) :
    Nat → Nat → Option (Except Str (Filter Row × Bool))
  | 0, _ => none
  | k + 1, i => do
    let item ← items[i]?
    match item.filterItem with
    | some n =>
      let f ← filters[n]?
      pure ((createLeaf ctx f).map fun eval => (.leaf eval, ctx.isWeightColumn f.attrName))
    | none =>
      let l ← createFilterNode filters items k (← item.left)
      let r ← createFilterNode filters items k (← item.right)
      pure (joinNode item.or l r)

/-- `CreateFilterTree`. -/
def createFilterTree (filters : List FilterSettings) (items : List FilterTreeItem) (fuel : Nat) :
    Option (Except Str (Slots Row)) :=
  (createFilterNode ctx filters items fuel (items.length - 1)).map fun res =>
    res.map fun (f, weight) => if weight then { weightFilter := some f } else { filter := some f }

/-- `FilterInfo_t`. -/
structure FilterInfo (Row : Type) where
  filter : Filter Row
  selectivity : Int
  order : Nat

/-- `operator <` of `FilterInfo_t`, with equality. -/
def FilterInfo.le (a b : FilterInfo Row) : Bool :=
  if a.selectivity = b.selectivity then a.order ≤ b.order else a.selectivity < b.selectivity

/-- `ReorderAndCombine`. -/
def reorderAndCombine (l : List (FilterInfo Row)) : Option (Filter Row) :=
  match l with
  | [i] => some i.filter
  | l => (l.insertionSort fun a b => a.le b).foldl (fun acc i => joinFilters acc (some i.filter)) none

/-- The filters that the loop over the list does not skip. -/
def listed (f : FilterSettings) : Bool :=
  f.attrName ≠ [] && !(f.attrName = rowidName && f.type = .range) && !(ctx.scan && ctx.isWeightColumn f.attrName)

/-- The loop over the list: the plain filters and the weight filters made so far. -/
def createList (single : Bool) : Nat → List FilterSettings → List (FilterInfo Row) → List (FilterInfo Row) →
    Except Str (List (FilterInfo Row) × List (FilterInfo Row))
  | _, [], fs, ws => .ok (fs, ws)
  | i, f :: filters, fs, ws =>
    if !listed ctx f then createList single (i + 1) filters fs ws
    else
      match bindUservar ctx f with
      | .error e => .error e
      | .ok bound =>
        match ctx.createFilter bound with
        | .error e => .error e
        | .ok eval =>
          let info : FilterInfo Row :=
            { filter := .leaf eval, order := i, selectivity := if single then 2 ^ 63 - 1 else ctx.selectivity bound }
          if ctx.isWeightColumn f.attrName then createList single (i + 1) filters fs (ws ++ [info])
          else createList single (i + 1) filters (fs ++ [info]) ws

/-- The branch for plain lists: both slots are assigned. -/
def createFromList (filters : List FilterSettings) : Except Str (Slots Row) :=
  match createList ctx (filters.length == 1) 0 filters [] [] with
  | .error e => .error e
  | .ok (fs, ws) => .ok { filter := reorderAndCombine fs, weightFilter := reorderAndCombine ws }

/-- `EvalMaxTreeHeight`: the stack of nodes to visit, each with its height; `none` when the fuel is used up. -/
def evalMaxTreeHeight (items : List FilterTreeItem) : Nat → List (Nat × Nat) → Nat → Option Nat
  | _, [], best => some best
  | 0, _ :: _, _ => none
  | k + 1, (i, h) :: nodes, best => do
    let item ← items[i]?
    let push (child : Option Nat) (nodes : List (Nat × Nat)) := (child.map fun c => (c, h + 1)).toList ++ nodes
    evalMaxTreeHeight items k (push item.right (push item.left nodes)) (max best h)

def TREE_SIZE_THRESH : Nat := 50

/-- The stack that a tree of that many items and that height needs. -/
def stackNeeded (st : StackInfo) (length height : Nat) : Except Str Int :=
  if length > TREE_SIZE_THRESH && !st.mocked then evalStackForExpr st height else .ok (-1)

/-- `Filter_ProxyHeavy` around the filter just built. -/
def Slots.wrapHeavy (s : Slots Row) (stack : Int) : Slots Row :=
  match s.weightFilter with
  | some w => { s with weightFilter := some (.proxyHeavy w stack) }
  | none => { s with filter := s.filter.map (.proxyHeavy · stack) }

/-- `CreateFiltersFromSettings`. -/
def createFiltersFromSettings (slots : Slots Row) (filters : List FilterSettings) (items : List FilterTreeItem)
    (fuel : Nat) : Option (Except Str (Slots Row)) :=
  if filters = [] then some (.ok slots)
  else if items = [] then some (createFromList ctx filters)
  else
    match evalMaxTreeHeight items fuel [(items.length - 1, 1)] 1 with
    | none => none
    | some height =>
      match stackNeeded ctx.stack items.length height with
      | .error e => some (.error e)
      | .ok stack =>
        match createFilterTree ctx filters items fuel with
        | none => none
        | some built =>
          if stack < 0 then some built
          else
            -- the wrapped tree is left in its slot and the list is built over it; a failure to build it is not looked at
            let _heavy := (built.toOption.getD slots).wrapHeavy stack
            some (createFromList ctx filters)

/-- `sphCreateFilters` on a context without a KNN guard, whose slots are empty. -/
def sphCreateFilters (filters : List FilterSettings) (items : List FilterTreeItem) (fuel : Nat) :
    Option (Except Str (Slots Row)) :=
  createFiltersFromSettings ctx {} filters items fuel

/-- The value of a filter on a row: that of the object made for it, false when none can be made. -/
def filterValue (row : Row) (f : FilterSettings) : Bool :=
  match createLeaf ctx f with
  | .ok eval => eval row
  | .error _ => false

/-- The value of a leaf of the tree. -/
def leafValue (filters : List FilterSettings) (row : Row) (n : Nat) : Bool :=
  filters[n]?.any (filterValue ctx row)

/-- The value of the list that the branch for plain lists keeps. -/
def listValue (filters : List FilterSettings) (row : Row) : Bool :=
  filters.all fun f => !listed ctx f || filterValue ctx row f

end

/-! ## Conjunctions -/

theorem Filter.evalAll_eq (row : Row) : ∀ (l : List (Filter Row)), Filter.evalAll l row = l.all fun f => f.eval row
  | [] => rfl
  | f :: l => by rw [Filter.evalAll, Filter.evalAll_eq row l, all_cons]

theorem Filter.eval_join (a f : Filter Row) (row : Row) : (a.join f).eval row = (a.eval row && f.eval row) := by
  cases a with
  | and2 a b => simp only [Filter.join, Filter.eval, Bool.and_assoc]
  | and l => simp only [Filter.join, Filter.eval, Filter.evalAll_eq, all_append, all_cons, all_nil,
      Bool.and_true]
  | leaf f => simp only [Filter.join, Filter.eval, Filter.evalAll, Bool.and_true]
  | or a b => simp only [Filter.join, Filter.eval, Filter.evalAll, Bool.and_true]
  | proxyHeavy a n => simp only [Filter.join, Filter.eval, Filter.evalAll, Bool.and_true]

theorem foldl_joinFilters (row : Row) : ∀ (l : List (FilterInfo Row)) (acc : Option (Filter Row)),
    ((l.foldl (fun acc i => joinFilters acc (some i.filter)) acc).all fun f => f.eval row) =
      ((acc.all fun f => f.eval row) && l.all fun i => i.filter.eval row)
  | [], acc => by simp
  | i :: l, none => by
    rw [foldl_cons, foldl_joinFilters row l]
    simp [joinFilters]
  | i :: l, some a => by
    rw [foldl_cons, foldl_joinFilters row l]
    simp [joinFilters, Filter.eval_join, Bool.and_assoc]

/-- The order and the way the filters are joined do not matter to a row. -/
theorem reorderAndCombine_all (row : Row) (l : List (FilterInfo Row)) :
    ((reorderAndCombine l).all fun f => f.eval row) = l.all fun i => i.filter.eval row := by
  have hsort : ((l.insertionSort fun a b => a.le b).all fun i => i.filter.eval row) =
      l.all fun i => i.filter.eval row := by
    rw [Bool.eq_iff_iff, all_eq_true, all_eq_true]
    simp only [mem_insertionSort]
  unfold reorderAndCombine
  split
  · simp
  · rw [foldl_joinFilters, hsort]
    simp

/-! ## The list -/

section
variable (ctx : CreateFilterContext Row)

theorem filterValue_of_listed {f : FilterSettings} {bound : FilterSettings} {eval : Row → Bool} (hl : listed ctx f = true)
    (hb : bindUservar ctx f = .ok bound) (he : ctx.createFilter bound = .ok eval) (row : Row) :
    filterValue ctx row f = eval row := by
  have hne : f.attrName ≠ [] := by
    intro hn
    simp [listed, hn] at hl
  have hc : createLeaf ctx f = .ok eval := by
    rw [createLeaf, if_neg hne, createBound, hb]
    exact he
  rw [filterValue, hc]

theorem createList_value (single : Bool) (row : Row) : ∀ (filters : List FilterSettings) (i : Nat)
    (fs ws fs' ws' : List (FilterInfo Row)), createList ctx single i filters fs ws = .ok (fs', ws') →
    ((fs'.all fun i => i.filter.eval row) && (ws'.all fun i => i.filter.eval row)) =
      (((fs.all fun i => i.filter.eval row) && (ws.all fun i => i.filter.eval row)) && listValue ctx filters row)
  | [], i, fs, ws, fs', ws', h => by
    cases h
    simp [listValue]
  | f :: filters, i, fs, ws, fs', ws', h => by
    rw [createList] at h
    by_cases hl : listed ctx f = true
    · rw [hl] at h
      cases hb : bindUservar ctx f with
      | error e => simp [hb] at h
      | ok bound =>
        cases he : ctx.createFilter bound with
        | error e => simp [hb, he] at h
        | ok eval =>
          have hv := filterValue_of_listed ctx hl hb he row
          simp only [hb, he, Bool.not_true, Bool.false_eq_true, if_false] at h
          -- the new filter goes to the end of one of the two lists
          split at h
          · have ih := createList_value single row filters _ _ _ _ _ h
            rw [ih]
            simp only [listValue, all_append, all_cons, all_nil, Filter.eval, hl, hv, Bool.not_true,
              Bool.false_or, Bool.and_true, Bool.and_assoc]
          · have ih := createList_value single row filters _ _ _ _ _ h
            rw [ih]
            simp only [listValue, all_append, all_cons, all_nil, Filter.eval, hl, hv, Bool.not_true,
              Bool.false_or, Bool.and_true, Bool.and_assoc, Bool.and_left_comm]
    · rw [Bool.not_eq_true] at hl
      rw [hl] at h
      have ih := createList_value single row filters _ _ _ _ _ h
      rw [ih]
      simp [listValue, hl]

/-- The branch for plain lists leaves the conjunction of the filters it keeps. -/
theorem createFromList_passes {filters : List FilterSettings} {slots : Slots Row}
    (h : createFromList ctx filters = .ok slots) (row : Row) : slots.passes row = listValue ctx filters row := by
  rw [createFromList] at h
  cases hc : createList ctx (filters.length == 1) 0 filters [] [] with
  | error e => simp [hc] at h
  | ok res =>
    rw [hc] at h
    cases h
    rw [Slots.passes, reorderAndCombine_all, reorderAndCombine_all, createList_value ctx _ row _ _ _ _ _ _ hc]
    simp

/-! ## The tree -/

theorem Tree.height_le_size : ∀ (t : Tree), t.height ≤ t.size
  | .leaf _ => le_refl 1
  | .node _ l r => by
    have hl := Tree.height_le_size l
    have hr := Tree.height_le_size r
    rw [Tree.height, Tree.size]
    omega

theorem joinNode_ok {or : Bool} {l r : Except Str (Filter Row × Bool)} {f : Filter Row} {w : Bool}
    (h : joinNode or l r = .ok (f, w)) :
    ∃ fl wl fr wr, l = .ok (fl, wl) ∧ r = .ok (fr, wr) ∧ f = if or then .or fl fr else .and2 fl fr := by
  match l, r, h with
  | .ok (fl, wl), .ok (fr, wr), h =>
    cases h
    exact ⟨fl, wl, fr, wr, rfl, rfl, rfl⟩
  | .error e, .ok _, h => cases h
  | .ok _, .error e, h => cases h
  | .error _, .error _, h => cases h

variable {items : List FilterTreeItem}

/-- The filter built for an item evaluates the tree the item stands for. -/
theorem createFilterNode_spec (filters : List FilterSettings) (h : Represents items filters.length i t) :
    ∀ k, t.height ≤ k → ∃ res,
      createFilterNode ctx filters items k i = some res ∧
        ∀ f w, res = .ok (f, w) → ∀ row, f.eval row = t.eval (leafValue ctx filters row) := by
  induction h with
  | @leaf i n or h hk =>
    intro k hle
    obtain ⟨k, rfl⟩ := Nat.exists_eq_add_of_le' hle
    have hget : filters[n]? = some filters[n] := getElem?_eq_getElem hk
    refine ⟨(createLeaf ctx filters[n]).map fun eval => (.leaf eval, ctx.isWeightColumn filters[n].attrName), by
      simp only [Tree.height, createFilterNode, h, hget, bind_eq_bind, bind_some, Option.pure_def], ?_⟩
    intro f w hres row
    cases hc : createLeaf ctx filters[n] with
    | error e => simp [hc, Except.map] at hres
    | ok eval =>
      simp only [hc, Except.map, Except.ok.injEq, Prod.mk.injEq] at hres
      rw [← hres.1]
      simp only [Filter.eval, Tree.eval, leafValue, hget, Option.any_some, filterValue, hc]
  | @node i l r or tl tr h hl hr ihl ihr =>
    intro k hle
    rw [Tree.height] at hle
    obtain ⟨k, rfl⟩ := Nat.exists_eq_add_of_le' (le_trans (Nat.le_add_left 1 _) hle)
    obtain ⟨resl, hresl, hevl⟩ := ihl k (by omega)
    obtain ⟨resr, hresr, hevr⟩ := ihr k (by omega)
    refine ⟨joinNode or resl resr, by simp only [createFilterNode, h, hresl, hresr, bind_eq_bind,
      bind_some, Option.pure_def], ?_⟩
    intro f w hres row
    obtain ⟨fl, wl, fr, wr, rfl, rfl, rfl⟩ := joinNode_ok hres
    have h1 := hevl fl wl rfl row
    have h2 := hevr fr wr rfl row
    cases or <;> simp [Filter.eval, Tree.eval, h1, h2]

/-- The greatest height that the nodes of the stack lead to. -/
def reach : List ((Nat × Nat) × Tree) → Nat → Nat
  | [], best => best
  | ((_, h), t) :: nodes, best => reach nodes (max best (h + t.height - 1))

theorem Tree.height_pos (t : Tree) : 0 < t.height := by
  cases t <;> exact Nat.succ_pos _

theorem evalMaxTreeHeight_spec (n : Nat) (items : List FilterTreeItem) : ∀ (k : Nat) (nodes : List ((Nat × Nat) × Tree))
    (best : Nat), (∀ p ∈ nodes, Represents items n p.1.1 p.2) → (nodes.map fun p => p.2.size).sum ≤ k →
      evalMaxTreeHeight items k (nodes.map Prod.fst) best = some (reach nodes best)
  | k, [], best, _, _ => by cases k <;> rfl
  | 0, (p, t) :: nodes, best, _, hs => by
    simp only [map_cons, sum_cons] at hs
    have hh := t.height_le_size
    have hp := t.height_pos
    omega
  | k + 1, ((i, h), t) :: nodes, best, hr, hs => by
    have hrest : ∀ p ∈ nodes, Represents items n p.1.1 p.2 := (forall_mem_cons.mp hr).2
    rw [map_cons, sum_cons] at hs
    cases hr _ (mem_cons_self ..) with
    | @leaf _ m or hi hk =>
      have ih := evalMaxTreeHeight_spec n items k nodes (max best h) hrest (by simp only [Tree.size] at hs; omega)
      simpa only [map_cons, evalMaxTreeHeight, hi, bind_eq_bind, bind_some, Option.map_none,
        Option.toList_none, nil_append, reach, Tree.height, Nat.add_sub_cancel] using ih
    | @node _ l r or tl tr hi hl hr' =>
      have ih := evalMaxTreeHeight_spec n items k (((r, h + 1), tr) :: ((l, h + 1), tl) :: nodes) (max best h)
        (by
          intro p hp
          rcases mem_cons.1 hp with rfl | hp
          · exact hr'
          · rcases mem_cons.1 hp with rfl | hp
            · exact hl
            · exact hrest p hp)
        (by
          simp only [Tree.size] at hs
          simp only [map_cons, sum_cons]
          omega)
      have hmax : max (max (max best h) (h + 1 + tr.height - 1)) (h + 1 + tl.height - 1) =
          max best (h + (max tl.height tr.height + 1) - 1) := by omega
      rw [reach, reach, hmax] at ih
      simpa only [map_cons, evalMaxTreeHeight, hi, bind_eq_bind, bind_some, map_some,
        Option.toList_some, singleton_append, cons_append, nil_append, reach, Tree.height] using ih

theorem Represents.item {n : Nat} (h : Represents items n i t) : i < items.length := by
  cases h with
  | leaf or h hk => exact (List.getElem?_eq_some_iff.1 h).1
  | node h hl hr => exact (List.getElem?_eq_some_iff.1 h).1

theorem Represents.filters_pos {n : Nat} (h : Represents items n i t) : 0 < n := by
  induction h with
  | leaf or h hk => exact Nat.zero_lt_of_lt hk
  | node h hl hr ihl ihr => exact ihl

theorem createFilterTree_passes {filters : List FilterSettings}
    (h : Represents items filters.length (items.length - 1) t) {fuel : Nat} (hf : t.height ≤ fuel) : ∃ res,
      createFilterTree ctx filters items fuel = some res ∧
        ∀ slots, res = .ok slots → ∀ row, slots.passes row = t.eval (leafValue ctx filters row) := by
  obtain ⟨res, hres, hev⟩ := createFilterNode_spec ctx filters h fuel hf
  refine ⟨_, by rw [createFilterTree, hres, map_some], ?_⟩
  intro slots hs row
  cases res with
  | error e => cases hs
  | ok p =>
    obtain ⟨f, w⟩ := p
    have hrow := hev f w rfl row
    cases hs
    cases w <;> simp [Slots.passes, hrow]

/-- **The filters of a context with a tree evaluate the tree on a row exactly when the tree was built on the current
stack, or when the conjunction of the listed filters happens to have the value of the tree on that row.** -/
theorem sphCreateFilters_tree_iff (filters : List FilterSettings) (items : List FilterTreeItem) (t : Tree)
    (h : Represents items filters.length (items.length - 1) t) (fuel : Nat) (hf : t.size ≤ fuel) : ∃ res,
      sphCreateFilters ctx filters items fuel = some res ∧
        ∀ slots, res = .ok slots → ∀ row,
          (slots.passes row = t.eval (leafValue ctx filters row) ↔
            (∀ stack, stackNeeded ctx.stack items.length t.height = .ok stack → stack < 0) ∨
              listValue ctx filters row = t.eval (leafValue ctx filters row)) := by
  have hfilters : filters ≠ [] := ne_nil_of_length_pos h.filters_pos
  have hitems : items ≠ [] := ne_nil_of_length_pos (Nat.zero_lt_of_lt h.item)
  have hheight := evalMaxTreeHeight_spec filters.length items fuel [((items.length - 1, 1), t)] 1
    (by
      intro p hp
      rw [mem_singleton.1 hp]
      exact h)
    (by simpa using hf)
  have hreach : reach [((items.length - 1, 1), t)] 1 = t.height := by
    have hp := t.height_pos
    rw [reach, reach]
    omega
  obtain ⟨built, hbuilt, hpass⟩ := createFilterTree_passes ctx h (le_trans t.height_le_size hf)
  rw [sphCreateFilters, createFiltersFromSettings, if_neg hfilters, if_neg hitems]
  rw [hreach] at hheight
  simp only [map_cons, map_nil] at hheight
  simp only [hheight, hbuilt]
  cases hst : stackNeeded ctx.stack items.length t.height with
  | error e => exact ⟨_, rfl, fun slots hs => by cases hs⟩
  | ok stack =>
    by_cases hneg : stack < 0
    · refine ⟨built, by simp only [hneg, if_true], fun slots hs row => ?_⟩
      refine ⟨fun _ => .inl fun st' hst' => ?_, fun _ => hpass slots hs row⟩
      cases hst'
      exact hneg
    · refine ⟨createFromList ctx filters, by simp only [hneg, if_false], fun slots hs row => ?_⟩
      rw [createFromList_passes ctx hs row]
      constructor
      · exact .inr
      · rintro (hall | heq)
        · exact absurd (hall stack rfl) hneg
        · exact heq

end

/-- Rows are numbers and every filter holds for the numbers of its value list; the coroutine has eight kilobytes. -/
def numbers : CreateFilterContext Nat where
  isWeightColumn _ := false
  scan := false
  uservars := none
  createFilter f := .ok fun row => f.getValues.contains (BitVec.ofNat 64 row)
  selectivity _ := 0
  stack :=
    { used := 0, size := 8192, maxSize := 1048576, pageSize := 4096, startFilterStackSize := 6144,
      filterStackSize := 200, mocked := false }

/-- The filter `id = n`. -/
def idEq (n : Nat) : FilterSettings := { attrName := [105, 100], values := [BitVec.ofNat 64 n] }

/-- `id = 0 OR id = 1`. -/
theorem sphCreateFilters_tree_iff_twoLeaves :
    let filters := [idEq 0, idEq 1]
    let items : List FilterTreeItem :=
      [{ filterItem := some 0 }, { filterItem := some 1 }, { left := some 0, right := some 1, or := true }]
    let t := Tree.node true (.leaf 0) (.leaf 1)
    ∃ res, sphCreateFilters numbers filters items 3 = some res ∧ ∀ slots, res = .ok slots → ∀ row,
      (slots.passes row = t.eval (leafValue numbers filters row) ↔
        (∀ stack, stackNeeded numbers.stack items.length t.height = .ok stack → stack < 0) ∨
          listValue numbers filters row = t.eval (leafValue numbers filters row)) :=
  sphCreateFilters_tree_iff numbers [idEq 0, idEq 1]
    [{ filterItem := some 0 }, { filterItem := some 1 }, { left := some 0, right := some 1, or := true }]
    (.node true (.leaf 0) (.leaf 1)) (.node rfl (.leaf false rfl (by decide)) (.leaf false rfl (by decide))) 3 (by decide)

/-- `id = 0 OR id = 1 OR .. OR id = 25` as the parser builds it: twenty-six leaves, then twenty-five nodes. -/
def chainItems : List FilterTreeItem :=
  (List.range 26).map (fun i => { filterItem := some i }) ++
    (List.range 25).map fun i => { left := some (if i = 0 then 0 else 25 + i), right := some (i + 1), or := true }

def chainFilters : List FilterSettings := (List.range 26).map idEq

/-- The tree of the first `n + 1` alternatives. -/
def chain : Nat → Tree
  | 0 => .leaf 0
  | n + 1 => .node true (chain n) (.leaf (n + 1))

theorem represents_chain : ∀ n, n ≤ 25 → Represents chainItems 26 (if n = 0 then 0 else 25 + n) (chain n)
  | 0, _ => .leaf false (by decide) (by decide)
  | n + 1, hn => by
    have hnode : ∀ n < 25, chainItems[25 + (n + 1)]? =
        some { left := some (if n = 0 then 0 else 25 + n), right := some (n + 1), or := true } := by decide
    have hleaf : ∀ n < 25, chainItems[n + 1]? = some { filterItem := some (n + 1) } := by decide
    exact .node (hnode n hn) (represents_chain n (Nat.le_of_succ_le hn)) (.leaf false (hleaf n hn) (by omega))

/-- **A big OR becomes an AND**: the row 3 satisfies one of the twenty-six alternatives and is refused. -/
theorem heavy_or_is_and :
    Represents chainItems chainFilters.length (chainItems.length - 1) (chain 25) ∧
      (chain 25).eval (leafValue numbers chainFilters 3) = true ∧
      (sphCreateFilters numbers chainFilters chainItems 51).map (fun res => res.toOption.map fun s => s.passes 3) =
        some (some false) := by
  refine ⟨represents_chain 25 (by decide), by decide, ?_⟩
  decide +kernel

end
end Filters
end Manticore

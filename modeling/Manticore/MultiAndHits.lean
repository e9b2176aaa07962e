import Mathlib
import Manticore.MergeRun
import Manticore.NWay
import Manticore.Queue
/-!
# MultiAndHits — the hits of a document of the multi-keyword AND (`ExtMultiAnd_T::CollectHits`)

The node merges the hit lists of its keywords by position and query position, and drops the hits in fields the keyword
was not asked for.  There is a merge for two keywords, one for three, and one with a priority queue for more.

A keyword's reader is the list of the hits it has still to return; `EMPTY_HIT` is its end.  The field test is compiled in
(`TEST_FIELDS`).
-/
namespace Manticore
namespace MultiAnd

open NWay (ExtHit)
open List

/-- What the merges read of a `NodeInfo_t`, with the hits of the document. -/
structure HitNode where
  hits : List Nat
  queriedFields : FieldMask
  atomPos : Nat
  nodepos : Nat
  deriving DecidableEq, Inhabited

/-- `HitInfo_t`: the hit under the cursor is the first of `hits`. -/
structure HitInfo where
  hits : List Nat
  nodePos : Nat
  queryPos : Nat

def HitInfo.hitpos (t : HitInfo) : Nat := t.hits.headD Hitman.EMPTY_HIT

def initHitMerge (n : HitNode) : HitInfo := ⟨n.hits, n.nodepos, n.atomPos % 2 ^ 16⟩

def isHitLess (l r : HitInfo) : Bool := l.hitpos < r.hitpos ∨ l.hitpos = r.hitpos ∧ l.queryPos ≤ r.queryPos

/-- `m_dQueriedFields.Test ( HITMAN::GetField ( uHit ) )` -/
def allows (mask : FieldMask) (hit : Nat) : Bool := mask.getLsbD (Hitman.getField hit)

/-- `m_dNodes[i]` -/
def node (nodes : List HitNode) (i : Nat) : HitNode := nodes.getD i default

/-- The hit is added when `m_dNodes[iNode]` allows its field, and the cursor moves on. -/
def addHit (nodes : List HitNode) (rowID : Nat) (t : HitInfo) (iNode : Nat) : Option ExtHit × HitInfo :=
  (if allows (node nodes iNode).queriedFields t.hitpos then
    some { rowID, hitpos := t.hitpos, querypos := t.queryPos, nodepos := t.nodePos }
  else none, { t with hits := t.hits.tail })

/-- `DoHitMerge` of two -/
def doHitMerge (nodes : List HitNode) (rowID : Nat) : Nat → HitInfo → HitInfo →
    Option (List ExtHit × HitInfo × HitInfo)
  | 0, _, _ => none
  | fuel + 1, l, r =>
    if l.hits = [] ∨ r.hits = [] then some ([], l, r)
    else if isHitLess l r then
      (doHitMerge nodes rowID fuel (addHit nodes rowID l 0).2 r).map fun x =>
        ((addHit nodes rowID l 0).1.toList ++ x.1, x.2)
    else
      (doHitMerge nodes rowID fuel l (addHit nodes rowID r 1).2).map fun x =>
        ((addHit nodes rowID r 1).1.toList ++ x.1, x.2)

/-- The loop of `DoHitMerge` of three -/
def doHitMerge3Loop (nodes : List HitNode) (rowID : Nat) : Nat → HitInfo → HitInfo → HitInfo →
    Option (List ExtHit × HitInfo × HitInfo × HitInfo)
  | 0, _, _, _ => none
  | fuel + 1, a, b, c =>
    if a.hits = [] ∨ b.hits = [] ∨ c.hits = [] then some ([], a, b, c)
    else if isHitLess a b && isHitLess a c then
      (doHitMerge3Loop nodes rowID fuel (addHit nodes rowID a 0).2 b c).map fun x =>
        ((addHit nodes rowID a 0).1.toList ++ x.1, x.2)
    else if isHitLess b a && isHitLess b c then
      (doHitMerge3Loop nodes rowID fuel a (addHit nodes rowID b 1).2 c).map fun x =>
        ((addHit nodes rowID b 1).1.toList ++ x.1, x.2)
    else
      (doHitMerge3Loop nodes rowID fuel a b (addHit nodes rowID c 2).2).map fun x =>
        ((addHit nodes rowID c 2).1.toList ++ x.1, x.2)

/-- `DoHitMerge` of three: what is left when one list ends is merged by `DoHitMerge` of two. -/
def doHitMerge3 (nodes : List HitNode) (rowID fuel : Nat) (a b c : HitInfo) :
    Option (List ExtHit × HitInfo × HitInfo × HitInfo) := do
  let (out, a, b, c) ← doHitMerge3Loop nodes rowID fuel a b c
  if a.hits = [] then
    let (out', b, c) ← doHitMerge nodes rowID fuel b c
    some (out ++ out', a, b, c)
  else if b.hits = [] then
    let (out', a, c) ← doHitMerge nodes rowID fuel a c
    some (out ++ out', a, b, c)
  else
    let (out', a, b) ← doHitMerge nodes rowID fuel a b
    some (out ++ out', a, b, c)

def copyHits (nodes : List HitNode) (rowID : Nat) (t : HitInfo) (iNode : Nat) : List ExtHit :=
  t.hits.filterMap fun hit => if allows (node nodes iNode).queriedFields hit then
    some { rowID, hitpos := hit, querypos := t.queryPos, nodepos := t.nodePos } else none

/-- More than the turns any of the loops takes. -/
def turns (nodes : List HitNode) : Nat := (nodes.map (·.hits.length)).sum + 1

def mergeHits2 (nodes : List HitNode) (rowID : Nat) : Option (List ExtHit) := do
  let (out, l, r) ← doHitMerge nodes rowID (turns nodes) (initHitMerge (node nodes 0)) (initHitMerge (node nodes 1))
  some (out ++ copyHits nodes rowID l 0 ++ copyHits nodes rowID r 1)

def mergeHits3 (nodes : List HitNode) (rowID : Nat) : Option (List ExtHit) := do
  let (out, a, b, c) ← doHitMerge3 nodes rowID (turns nodes) (initHitMerge (node nodes 0)) (initHitMerge (node nodes 1))
    (initHitMerge (node nodes 2))
  some (out ++ copyHits nodes rowID a 0 ++ copyHits nodes rowID b 1 ++ copyHits nodes rowID c 2)

/-- `HitWithQpos_t` -/
structure HitWithQpos where
  node : Nat
  hit : Nat
  queryPos : Nat
  deriving Inhabited

def HitWithQpos.isLess (a b : HitWithQpos) : Bool := a.hit < b.hit ∨ a.hit = b.hit ∧ a.queryPos ≤ b.queryPos

/-- The queue, and what each keyword's reader has still to return.  A reader at its end is `m_bHitsOver`. -/
structure HitQueue where
  queue : Queue HitWithQpos
  rest : List (List Nat)

/-- The next hit the mask allows, and what follows it. -/
def nextAllowed (mask : FieldMask) : List Nat → Option (Nat × List Nat)
  | [] => none
  | hit :: rest => if allows mask hit then some (hit, rest) else nextAllowed mask rest

def pushNextHit (nodes : List HitNode) (s : HitQueue) (i : Nat) : HitQueue :=
  match nextAllowed (node nodes i).queriedFields (s.rest.getD i []) with
  | none => { s with rest := s.rest.set i [] }
  | some (hit, rest) =>
    { queue := (s.queue.push HitWithQpos.isLess ⟨i, hit, (node nodes i).atomPos % 2 ^ 16⟩).1, rest := s.rest.set i rest }

/-- The loop over the queue. -/
def drain (nodes : List HitNode) (rowID : Nat) : Nat → HitQueue → Option (List ExtHit)
  | 0, _ => none
  | fuel + 1, s =>
    if s.queue.data = [] then some []
    else
      let top := s.queue.root
      (drain nodes rowID fuel (pushNextHit nodes { s with queue := s.queue.pop HitWithQpos.isLess } top.node)).map fun out =>
        { rowID, hitpos := top.hit, querypos := top.queryPos, nodepos := (node nodes top.node).nodepos } :: out

def mergeHitsN (nodes : List HitNode) (rowID : Nat) : Option (List ExtHit) :=
  drain nodes rowID (turns nodes)
    ((List.range nodes.length).foldl (pushNextHit nodes) ⟨{ size := nodes.length }, nodes.map (·.hits)⟩)

/-- `CollectHits`, for one document -/
def collectHits (nodes : List HitNode) (rowID : Nat) : Option (List ExtHit) :=
  if nodes.length = 2 then mergeHits2 nodes rowID
  else if nodes.length = 3 then mergeHits3 nodes rowID
  else mergeHitsN nodes rowID

/-! ## The merges as runs -/

/-- The order of the merges, ties included: by position, by query position, by keyword. -/
def before (nodes : List HitNode) (e f : Nat × Nat) : Prop :=
  e.2 < f.2 ∨ e.2 = f.2 ∧ ((node nodes e.1).atomPos % 2 ^ 16 < (node nodes f.1).atomPos % 2 ^ 16 ∨
    (node nodes e.1).atomPos % 2 ^ 16 = (node nodes f.1).atomPos % 2 ^ 16 ∧ e.1 ≤ f.1)

theorem before_trans (nodes : List HitNode) (e f g : Nat × Nat) (h : before nodes e f) (h' : before nodes f g) :
    before nodes e g := by
  unfold before at *
  omega

variable {f : Nat × Nat}

theorem before_antisymm (nodes : List HitNode) {e : Nat × Nat} (h : before nodes e f) (h' : before nodes f e) :
    e.1 = f.1 := by
  unfold before at *
  omega

theorem before_total (nodes : List HitNode) (e f : Nat × Nat) : before nodes e f ∨ before nodes f e := by
  unfold before
  omega

/-- The hit of the `i`-th keyword at a position. -/
def hitOf (nodes : List HitNode) (rowID : Nat) (e : Nat × Nat) : ExtHit :=
  { rowID, hitpos := e.2, querypos := (node nodes e.1).atomPos % 2 ^ 16, nodepos := (node nodes e.1).nodepos }

/-- The hit, if the keyword that `used` gives for it allows its field. -/
def emit (nodes : List HitNode) (rowID : Nat) (used : Nat → Nat) (e : Nat × Nat) : Option ExtHit :=
  if allows (node nodes (used e.1)).queriedFields e.2 then some (hitOf nodes rowID e) else none

variable {nodes : List HitNode} {rowID : Nat} {l r t : HitInfo} {x : Nat} {ys : List Nat} {out : List ExtHit}

section Merge
/-- The cursor of the `i`-th keyword. -/
structure Of (nodes : List HitNode) (i : Nat) (t : HitInfo) : Prop where
  nodePos : t.nodePos = (node nodes i).nodepos
  queryPos : t.queryPos = (node nodes i).atomPos % 2 ^ 16

theorem of_initHitMerge (nodes : List HitNode) (i : Nat) : Of nodes i (initHitMerge (node nodes i)) := ⟨rfl, rfl⟩

variable {xs : List Nat} {i : Nat}

theorem isHitLess_iff {j : Nat} (hl : Of nodes i l) (hr : Of nodes j r) (hij : i < j) {y : Nat} (hx : l.hits = x :: xs)
    (hy : r.hits = y :: ys) :
    isHitLess l r = true ↔ before nodes (i, x) (j, y) := by
  unfold isHitLess HitInfo.hitpos before
  rw [hl.queryPos, hr.queryPos, hx, hy, decide_eq_true_iff]
  simp only [headD_cons]
  omega

theorem isHitLess_of_before {j : Nat} (hl : Of nodes i l) (hr : Of nodes j r) {y : Nat} (hx : l.hits = x :: xs)
    (hy : r.hits = y :: ys) (h : before nodes (i, x) (j, y)) :
    isHitLess l r = true := by
  unfold before at h
  unfold isHitLess HitInfo.hitpos
  rw [hl.queryPos, hr.queryPos, hx, hy, decide_eq_true_iff]
  simp only [headD_cons] at h ⊢
  omega

theorem addHit_eq (ht : Of nodes i t) (hx : t.hits = x :: xs)
    (rowID : Nat) (used : Nat → Nat) : addHit nodes rowID t (used i) = (emit nodes rowID used (i, x), { t with hits := xs }) := by
  unfold addHit emit hitOf HitInfo.hitpos
  rw [hx, ht.nodePos, ht.queryPos]
  rfl

theorem addHit_own (ht : Of nodes i t) (hx : t.hits = x :: xs)
    (rowID : Nat) : addHit nodes rowID t i = (emit nodes rowID id (i, x), { t with hits := xs }) :=
  addHit_eq ht hx rowID id

/-- What a merge of the `i`-th and the `k`-th of the streams `s` does, the others being empty: it runs until one of the two
ends, each hit taken being before some hit of the other. -/
structure TwoWay (nodes : List HitNode) (rowID i k : Nat) (s : List (List Nat)) (l r : HitInfo) (out : List ExtHit)
    (l' r' : HitInfo) (t : List (Nat × Nat)) : Prop where
  run : MergeRun.Run (before nodes) s t ((s.set i l'.hits).set k r'.hits)
  out_eq : out = t.filterMap (emit nodes rowID fun j => if j = i then 0 else 1)
  left : Of nodes i l'
  right : Of nodes k r'
  ended : l'.hits = [] ∨ r'.hits = []
  later : ∀ e ∈ t, e.1 = i ∧ (∃ y ∈ r.hits, before nodes e (k, y)) ∨ e.1 = k ∧ ∃ y ∈ l.hits, before nodes e (i, y)

theorem filterMap_cons_toList {α β : Type} (f : α → Option β) (a : α) (l : List α) :
    (a :: l).filterMap f = (f a).toList ++ l.filterMap f := by
  cases h : f a <;> simp [h]

theorem doHitMerge_spec (rowID : Nat) {k : Nat} (hik : i < k) : ∀ (fuel : Nat) {l r : HitInfo} {s : List (List Nat)}, Of nodes i l →
    Of nodes k r → s[i]? = some l.hits → s[k]? = some r.hits →
    (∀ (j : Nat) (ys : List Nat), j ≠ i → j ≠ k → s[j]? = some ys → ys = []) → l.hits.length + r.hits.length < fuel →
    ∃ out l' r' t, doHitMerge nodes rowID fuel l r = some (out, l', r') ∧ TwoWay nodes rowID i k s l r out l' r' t
  | 0, _, _, _, _, _, _, _, _, hf => absurd hf (Nat.not_lt_zero _)
  | fuel + 1, l, r, s, hl, hr, hsi, hsk, hothers, hf => by
    have hne : i ≠ k := ne_of_lt hik
    obtain ⟨hib, hig⟩ := List.getElem?_eq_some_iff.mp hsi
    obtain ⟨hkb, hkg⟩ := List.getElem?_eq_some_iff.mp hsk
    rw [doHitMerge]
    by_cases hend : l.hits = [] ∨ r.hits = []
    · rw [if_pos hend]
      refine ⟨[], l, r, [], rfl, ?_, rfl, hl, hr, hend, forall_mem_nil _⟩
      rw [← hig, set_getElem_self hib, ← hkg, set_getElem_self hkb]
      exact .nil s
    · rw [if_neg hend]
      obtain ⟨x, xs, hx⟩ := exists_cons_of_ne_nil fun h => hend (.inl h)
      obtain ⟨y, ys, hy⟩ := exists_cons_of_ne_nil fun h => hend (.inr h)
      rw [hx] at hsi
      rw [hy] at hsk
      rw [hx, hy, length_cons, length_cons] at hf
      have hiff := isHitLess_iff hl hr hik hx hy
      by_cases hless : isHitLess l r = true
      · -- the left one goes first
        have hbef := hiff.mp hless
        have hadd : addHit nodes rowID l 0 = (emit nodes rowID (fun j => if j = i then 0 else 1) (i, x), { l with hits := xs }) := by
          have := addHit_eq hl hx rowID fun j => if j = i then 0 else 1
          rwa [if_pos rfl] at this
        obtain ⟨out, l', r', t, hrec, h⟩ := doHitMerge_spec rowID hik fuel (l := { l with hits := xs }) (r := r) (s := s.set i xs)
          ⟨hl.nodePos, hl.queryPos⟩ hr (getElem?_set_self hib) (by rw [getElem?_set_ne hne, hsk, hy])
          (fun j zs hji hjk hj => hothers j zs hji hjk (by rwa [getElem?_set_ne (Ne.symm hji)] at hj))
          (by rw [hy, length_cons]; show xs.length + _ < _; omega)
        refine ⟨_, l', r', (i, x) :: t, by rw [if_pos hless, hadd, hrec]; rfl, ?_, ?_, h.left, h.right, h.ended, ?_⟩
        · refine .cons hsi (fun j z zs hj hz => ?_) (by have := h.run; rwa [set_set] at this)
          by_cases hjk : j = k
          · subst hjk
            rw [hsk] at hz
            cases hz
            exact hbef
          · cases hothers j _ hj hjk hz
        · rw [filterMap_cons_toList, h.out_eq]
        · intro e he
          rcases mem_cons.mp he with rfl | he
          · exact .inl ⟨rfl, y, by rw [hy]; exact mem_cons_self, hbef⟩
          · rcases h.later e he with hi | ⟨h1, z, hz, hb⟩
            · exact .inl hi
            · exact .inr ⟨h1, z, by rw [hx]; exact mem_cons_of_mem _ hz, hb⟩
      · -- the right one goes first
        have hbef := (before_total nodes (i, x) (k, y)).resolve_left fun h => hless (hiff.mpr h)
        have hadd : addHit nodes rowID r 1 = (emit nodes rowID (fun j => if j = i then 0 else 1) (k, y), { r with hits := ys }) := by
          have := addHit_eq hr hy rowID fun j => if j = i then 0 else 1
          rwa [if_neg (Ne.symm hne)] at this
        obtain ⟨out, l', r', t, hrec, h⟩ := doHitMerge_spec rowID hik fuel (l := l) (r := { r with hits := ys }) (s := s.set k ys)
          hl ⟨hr.nodePos, hr.queryPos⟩ (by rw [getElem?_set_ne (Ne.symm hne), hsi, hx]) (getElem?_set_self hkb)
          (fun j zs hji hjk hj => hothers j zs hji hjk (by rwa [getElem?_set_ne (Ne.symm hjk)] at hj))
          (by rw [hx, length_cons]; show _ + ys.length < _; omega)
        refine ⟨_, l', r', (k, y) :: t, by rw [if_neg hless, hadd, hrec]; rfl, ?_, ?_, h.left, h.right, h.ended, ?_⟩
        · refine .cons hsk (fun j z zs hj hz => ?_)
            (by have := h.run; rwa [set_comm _ _ (Ne.symm hne), set_set] at this)
          by_cases hji : j = i
          · subst hji
            rw [hsi] at hz
            cases hz
            exact hbef
          · cases hothers j _ hji hj hz
        · rw [filterMap_cons_toList, h.out_eq]
        · intro e he
          rcases mem_cons.mp he with rfl | he
          · exact .inr ⟨rfl, x, by rw [hx]; exact mem_cons_self, hbef⟩
          · rcases h.later e he with ⟨h1, z, hz, hb⟩ | hk
            · exact .inl ⟨h1, z, by rw [hy]; exact mem_cons_of_mem _ hz, hb⟩
            · exact .inr hk

/-- What the loop over three streams does: a hit is taken while every stream has hits, so some hit of every other stream
comes after it. -/
structure ThreeWay (nodes : List HitNode) (rowID : Nat) (s : List (List Nat)) (out : List ExtHit) (s' : List (List Nat))
    (t : List (Nat × Nat)) : Prop where
  run : MergeRun.Run (before nodes) s t s'
  out_eq : out = t.filterMap (emit nodes rowID id)
  later : ∀ e ∈ t, ∀ (j : Nat) (ys : List Nat), j ≠ e.1 → s[j]? = some ys → ∃ y ∈ ys, before nodes e (j, y)

variable {t : List (Nat × Nat)} {s : List (List Nat)}

theorem ThreeWay.cons {s' : List (List Nat)} (head : s[i]? = some (x :: xs))
    (least : ∀ (j : Nat) (zs : List Nat), j ≠ i → s[j]? = some zs → ∃ y ys, zs = y :: ys ∧ before nodes (i, x) (j, y))
    (h : ThreeWay nodes rowID (s.set i xs) out s' t) :
    ThreeWay nodes rowID s ((emit nodes rowID id (i, x)).toList ++ out) s' ((i, x) :: t) := by
  refine ⟨.cons head (fun j y ys hj hy => ?_) h.run, by rw [filterMap_cons_toList, h.out_eq], fun e he j zs hj hz => ?_⟩
  · obtain ⟨y', ys', heq, hb⟩ := least j _ hj hy
    cases heq
    exact hb
  · rcases mem_cons.mp he with rfl | het
    · obtain ⟨y, ys, rfl, hb⟩ := least j zs hj hz
      exact ⟨y, mem_cons_self, hb⟩
    · by_cases hji : j = i
      · subst hji
        rw [head] at hz
        cases hz
        obtain ⟨y, hy, hb⟩ := h.later e het j xs hj (getElem?_set_self (List.getElem?_eq_some_iff.mp head).1)
        exact ⟨y, mem_cons_of_mem _ hy, hb⟩
      · exact h.later e het j zs hj (by rwa [getElem?_set_ne (Ne.symm hji)])

theorem doHitMerge3Loop_spec (rowID : Nat) : ∀ (fuel : Nat) {a b c : HitInfo}, Of nodes 0 a → Of nodes 1 b → Of nodes 2 c →
    a.hits.length + b.hits.length + c.hits.length < fuel →
    ∃ out a' b' c' t, doHitMerge3Loop nodes rowID fuel a b c = some (out, a', b', c') ∧
      ThreeWay nodes rowID [a.hits, b.hits, c.hits] out [a'.hits, b'.hits, c'.hits] t ∧
      Of nodes 0 a' ∧ Of nodes 1 b' ∧ Of nodes 2 c' ∧ (a'.hits = [] ∨ b'.hits = [] ∨ c'.hits = [])
  | 0, _, _, _, _, _, _, hf => absurd hf (Nat.not_lt_zero _)
  | fuel + 1, a, b, c, ha, hb, hc, hf => by
    rw [doHitMerge3Loop]
    by_cases hend : a.hits = [] ∨ b.hits = [] ∨ c.hits = []
    · rw [if_pos hend]
      exact ⟨[], a, b, c, [], rfl, ⟨.nil _, rfl, forall_mem_nil _⟩, ha, hb, hc, hend⟩
    rw [if_neg hend]
    obtain ⟨x, xs, hx⟩ := exists_cons_of_ne_nil fun h => hend (.inl h)
    obtain ⟨y, ys, hy⟩ := exists_cons_of_ne_nil fun h => hend (.inr (.inl h))
    obtain ⟨z, zs, hz⟩ := exists_cons_of_ne_nil fun h => hend (.inr (.inr h))
    have hab := isHitLess_iff ha hb (by decide) hx hy
    have hac := isHitLess_iff ha hc (by decide) hx hz
    have hbc := isHitLess_iff hb hc (by decide) hy hz
    -- the streams other than the one a hit is taken from
    have hthree : ∀ (j : Nat) (ws : List Nat), [a.hits, b.hits, c.hits][j]? = some ws →
        j = 0 ∧ ws = x :: xs ∨ j = 1 ∧ ws = y :: ys ∨ j = 2 ∧ ws = z :: zs := by
      intro j ws hj
      rcases j with _ | _ | _ | j
      · exact .inl ⟨rfl, (Option.some.inj hj).symm.trans hx⟩
      · exact .inr (.inl ⟨rfl, (Option.some.inj hj).symm.trans hy⟩)
      · exact .inr (.inr ⟨rfl, (Option.some.inj hj).symm.trans hz⟩)
      · simp at hj
    by_cases h1 : (isHitLess a b && isHitLess a c) = true
    · rw [if_pos h1]
      rw [Bool.and_eq_true] at h1
      obtain ⟨out, a', b', c', t, hrec, h, hrest⟩ := doHitMerge3Loop_spec rowID fuel (a := { a with hits := xs }) (b := b) (c := c)
        ⟨ha.nodePos, ha.queryPos⟩ hb hc (by show xs.length + _ + _ < _; rw [hx, length_cons] at hf; omega)
      refine ⟨_, a', b', c', (0, x) :: t, by rw [addHit_own ha hx rowID, hrec]; rfl, ?_, hrest⟩
      refine ThreeWay.cons (by rw [hx]; rfl) (fun j ws hj hw => ?_) h
      rcases hthree j ws hw with ⟨rfl, -⟩ | ⟨rfl, rfl⟩ | ⟨rfl, rfl⟩
      · exact absurd rfl hj
      · exact ⟨y, ys, rfl, hab.mp h1.1⟩
      · exact ⟨z, zs, rfl, hac.mp h1.2⟩
    rw [if_neg h1]
    rw [Bool.and_eq_true, hab, hac] at h1
    by_cases h2 : (isHitLess b a && isHitLess b c) = true
    · rw [if_pos h2]
      rw [Bool.and_eq_true] at h2
      have hyz := hbc.mp h2.2
      have hyx : before nodes (1, y) (0, x) := by
        refine (before_total nodes (0, x) (1, y)).resolve_left fun hxy => ?_
        exact h1 ⟨hxy, before_trans nodes _ _ _ hxy hyz⟩
      obtain ⟨out, a', b', c', t, hrec, h, hrest⟩ := doHitMerge3Loop_spec rowID fuel (a := a) (b := { b with hits := ys }) (c := c)
        ha ⟨hb.nodePos, hb.queryPos⟩ hc (by show _ + ys.length + _ < _; rw [hy, length_cons] at hf; omega)
      refine ⟨_, a', b', c', (1, y) :: t, by rw [addHit_own hb hy rowID, hrec]; rfl, ?_, hrest⟩
      refine ThreeWay.cons (by rw [hy]; rfl) (fun j ws hj hw => ?_) h
      rcases hthree j ws hw with ⟨rfl, rfl⟩ | ⟨rfl, -⟩ | ⟨rfl, rfl⟩
      · exact ⟨x, xs, rfl, hyx⟩
      · exact absurd rfl hj
      · exact ⟨z, zs, rfl, hyz⟩
    · rw [if_neg h2]
      rw [Bool.and_eq_true, hbc] at h2
      have hboth : before nodes (2, z) (0, x) ∧ before nodes (2, z) (1, y) := by
        rcases before_total nodes (0, x) (1, y) with hxy | hyx
        · have hzx := (before_total nodes (0, x) (2, z)).resolve_left fun hxz => h1 ⟨hxy, hxz⟩
          exact ⟨hzx, before_trans nodes _ _ _ hzx hxy⟩
        · have hzy := (before_total nodes (1, y) (2, z)).resolve_left fun hyz =>
            h2 ⟨isHitLess_of_before hb ha hy hx hyx, hyz⟩
          exact ⟨before_trans nodes _ _ _ hzy hyx, hzy⟩
      obtain ⟨out, a', b', c', t, hrec, h, hrest⟩ := doHitMerge3Loop_spec rowID fuel (a := a) (b := b) (c := { c with hits := zs })
        ha hb ⟨hc.nodePos, hc.queryPos⟩ (by show _ + _ + zs.length < _; rw [hz, length_cons] at hf; omega)
      refine ⟨_, a', b', c', (2, z) :: t, by rw [addHit_own hc hz rowID, hrec]; rfl, ?_, hrest⟩
      refine ThreeWay.cons (by rw [hz]; rfl) (fun j ws hj hw => ?_) h
      rcases hthree j ws hw with ⟨rfl, rfl⟩ | ⟨rfl, rfl⟩ | ⟨rfl, -⟩
      · exact ⟨x, xs, rfl, hboth.1⟩
      · exact ⟨y, ys, rfl, hboth.2⟩
      · exact absurd rfl hj

theorem copyHits_eq {t : HitInfo} (ht : Of nodes i t) :
    copyHits nodes rowID t i = (t.hits.map fun x => (i, x)).filterMap (emit nodes rowID id) := by
  rw [copyHits, filterMap_map, ht.nodePos, ht.queryPos]
  rfl

/-- At most one stream has hits left. -/
def Single (s : List (List Nat)) : Prop :=
  ∀ (i j : Nat) (xs ys : List Nat), i ≠ j → s[i]? = some xs → s[j]? = some ys → xs = [] ∨ ys = []

/-- The phases of the merge of three: until the stream `e` ends, until another one does, and the copy of the rest.  The
second phase uses the masks of the first two keywords, whichever are left. -/
structure Phases (nodes : List HitNode) (rowID : Nat) (s : List (List Nat)) (out : List ExtHit) (e : Nat)
    (s₁ s₂ : List (List Nat)) (t₁ t₂ t₃ : List (Nat × Nat)) : Prop where
  lt : e < 3
  first : ThreeWay nodes rowID s (t₁.filterMap (emit nodes rowID id)) s₁ t₁
  empty : s₁[e]? = some []
  second : MergeRun.Run (before nodes) s₁ t₂ s₂
  cross : ∀ f ∈ t₂, f.1 < 3 ∧ f.1 ≠ e ∧ ∃ k < 3, k ≠ e ∧ k ≠ f.1 ∧ ∃ zs, s₁[k]? = some zs ∧ ∃ z ∈ zs, before nodes f (k, z)
  single : Single s₂
  third : MergeRun.Run (before nodes) s₂ t₃ [[], [], []]
  out_eq : out = t₁.filterMap (emit nodes rowID id) ++ t₂.filterMap (emit nodes rowID fun j => if j < e then j else j - 1) ++
    t₃.filterMap (emit nodes rowID id)

theorem run_copy3 {zs : List Nat} (h : Single [xs, ys, zs]) : MergeRun.Run (before nodes) [xs, ys, zs]
    (xs.map (fun x => (0, x)) ++ ys.map (fun x => (1, x)) ++ zs.map fun x => (2, x)) [[], [], []] := by
  have hother : ∀ {i : Nat} {ws : List Nat}, [xs, ys, zs][i]? = some ws → ws ≠ [] →
      ∀ (j : Nat) (vs : List Nat), j ≠ i → [xs, ys, zs][j]? = some vs → vs = [] := fun hi hne j vs hj hv =>
    (h _ _ _ _ hj hv hi).resolve_right hne
  refine (MergeRun.Run.append (.copy (i := 0) rfl (hother rfl)) (.copy (i := 1) rfl ?_)).append (.copy (i := 2) rfl ?_)
  · intro hne j vs hj hv
    rcases j with _ | j
    · exact (Option.some.inj hv).symm
    · exact hother (i := 1) rfl hne (j + 1) vs hj hv
  · intro hne j vs hj hv
    rcases j with _ | _ | j
    · exact (Option.some.inj hv).symm
    · exact (Option.some.inj hv).symm
    · exact hother (i := 2) rfl hne (j + 2) vs hj hv

theorem emit_congr {u v : Nat → Nat} (h : ∀ f ∈ t, u f.1 = v f.1) :
    t.filterMap (emit nodes rowID u) = t.filterMap (emit nodes rowID v) := by
  refine filterMap_congr fun f hf => ?_
  rw [emit, emit, h f hf]

theorem length_left {s' : List (List Nat)} (h : MergeRun.Run (before nodes) s t s') :
    (s'.map List.length).sum ≤ (s.map List.length).sum := by
  have := h.perm.length_eq
  rw [length_append, MergeRun.length_tagged, MergeRun.length_tagged] at this
  omega

/-- The second and the third phase, when the stream `e` has ended and `i` and `k` are left. -/
theorem phases_of_two {e k fuel : Nat} {s₁ : List (List Nat)} {t₁ : List (Nat × Nat)}
    (h₁ : ThreeWay nodes rowID s out s₁ t₁) (hempty : s₁[e]? = some []) (hlen : s₁.length = 3) (hik : i < k) (hk : k < 3)
    (he : e < 3) (hie : i ≠ e) (hke : k ≠ e) (hol : Of nodes i l) (hor : Of nodes k r) (hl : s₁[i]? = some l.hits)
    (hr : s₁[k]? = some r.hits) (hf : l.hits.length + r.hits.length < fuel) :
    ∃ out' l' r', doHitMerge nodes rowID fuel l r = some (out', l', r') ∧ Of nodes i l' ∧ Of nodes k r' ∧
      ∀ {a b c : HitInfo}, (s₁.set i l'.hits).set k r'.hits = [a.hits, b.hits, c.hits] → Of nodes 0 a → Of nodes 1 b →
        Of nodes 2 c → ∃ s₂ t₂ t₃, Phases nodes rowID s
          (out ++ out' ++ copyHits nodes rowID a 0 ++ copyHits nodes rowID b 1 ++ copyHits nodes rowID c 2) e s₁ s₂ t₁ t₂ t₃ := by
  have hi : i < 3 := lt_trans hik hk
  obtain ⟨out', l', r', t₂, htwo, h₂⟩ := doHitMerge_spec rowID hik fuel hol hor hl hr (by
    intro j ys hji hjk hj
    have hj3 := (List.getElem?_eq_some_iff.mp hj).1
    obtain rfl : j = e := by omega
    exact Option.some.inj (hj.symm.trans hempty)) hf
  refine ⟨out', l', r', htwo, h₂.left, h₂.right, fun {a b c} hleft ha hb hc => ?_⟩
  have hsingle : Single [a.hits, b.hits, c.hits] := by
    rw [← hleft]
    intro j m xs ys hjm hj hm
    -- of two streams one is the ended one, or they are the two that were merged
    have hat : ∀ (n : Nat) (ws : List Nat), ((s₁.set i l'.hits).set k r'.hits)[n]? = some ws →
        n = e ∧ ws = [] ∨ n = i ∧ ws = l'.hits ∨ n = k ∧ ws = r'.hits := by
      intro n ws hn
      have hn3 : n < 3 := by
        have := (List.getElem?_eq_some_iff.mp hn).1
        rwa [length_set, length_set, hlen] at this
      by_cases hnk : n = k
      · subst hnk
        rw [getElem?_set_self (by rw [length_set, hlen]; exact hk)] at hn
        exact .inr (.inr ⟨rfl, (Option.some.inj hn).symm⟩)
      · rw [getElem?_set_ne (Ne.symm hnk)] at hn
        by_cases hni : n = i
        · subst hni
          rw [getElem?_set_self (by rw [hlen]; exact hi)] at hn
          exact .inr (.inl ⟨rfl, (Option.some.inj hn).symm⟩)
        · obtain rfl : n = e := by omega
          rw [getElem?_set_ne (Ne.symm hni), hempty] at hn
          exact .inl ⟨rfl, (Option.some.inj hn).symm⟩
    have hended := h₂.ended
    rcases hat j xs hj with ⟨-, h⟩ | ⟨h1, h⟩ | ⟨h1, h⟩
    · exact .inl h
    · rcases hat m ys hm with ⟨-, h'⟩ | ⟨h2, -⟩ | ⟨-, h'⟩
      · exact .inr h'
      · exact absurd (h1.trans h2.symm) hjm
      · rw [h, h']
        exact hended
    · rcases hat m ys hm with ⟨-, h'⟩ | ⟨-, h'⟩ | ⟨h2, -⟩
      · exact .inr h'
      · rw [h, h']
        exact hended.symm
      · exact absurd (h1.trans h2.symm) hjm
  refine ⟨[a.hits, b.hits, c.hits], t₂, _, he, h₁.out_eq ▸ h₁, hempty, hleft ▸ h₂.run, fun f hf => ?_, hsingle, run_copy3 hsingle, ?_⟩
  · rcases h₂.later f hf with ⟨h1, z, hz, hb'⟩ | ⟨h1, z, hz, hb'⟩
    · exact ⟨by omega, by omega, k, hk, hke, by omega, _, hr, z, hz, hb'⟩
    · exact ⟨by omega, by omega, i, hi, hie, by omega, _, hl, z, hz, hb'⟩
  · have hmasks : t₂.filterMap (emit nodes rowID fun j => if j = i then 0 else 1) =
        t₂.filterMap (emit nodes rowID fun j => if j < e then j else j - 1) := by
      refine emit_congr fun f hf => ?_
      rcases h₂.later f hf with ⟨h1, -⟩ | ⟨h1, -⟩
      · rw [h1, if_pos rfl]
        split <;> omega
      · rw [h1, if_neg (by omega)]
        split <;> omega
    rw [filterMap_append, filterMap_append, ← copyHits_eq ha, ← copyHits_eq hb, ← copyHits_eq hc, ← hmasks,
      ← h₂.out_eq, ← h₁.out_eq]
    simp only [append_assoc]

theorem mergeHits3_phases (rowID : Nat) (hturns : (node nodes 0).hits.length + (node nodes 1).hits.length + (node nodes 2).hits.length <
    turns nodes) : ∃ out e s₁ s₂ t₁ t₂ t₃, mergeHits3 nodes rowID = some out ∧
      Phases nodes rowID [(node nodes 0).hits, (node nodes 1).hits, (node nodes 2).hits] out e s₁ s₂ t₁ t₂ t₃ := by
  obtain ⟨out, a, b, c, t₁, hloop, h₁, ha, hb, hc, hend⟩ := doHitMerge3Loop_spec rowID (turns nodes)
    (of_initHitMerge nodes 0) (of_initHitMerge nodes 1) (of_initHitMerge nodes 2) hturns
  have hleft := length_left h₁.run
  change a.hits.length + (b.hits.length + (c.hits.length + 0)) ≤ (node nodes 0).hits.length +
    ((node nodes 1).hits.length + ((node nodes 2).hits.length + 0)) at hleft
  by_cases ha0 : a.hits = []
  · obtain ⟨out', b', c', htwo, hb', hc', hp⟩ := phases_of_two (e := 0) h₁ (by rw [ha0]; rfl) rfl (by decide : 1 < 2) (by decide)
      (by decide) (by decide) (by decide) hb hc rfl rfl (by omega : _ < turns nodes)
    obtain ⟨s₂, t₂, t₃, hp⟩ := hp rfl ha hb' hc'
    refine ⟨_, 0, _, s₂, t₁, t₂, t₃, ?_, hp⟩
    simp only [mergeHits3, doHitMerge3, hloop, htwo, ha0, if_true, Option.bind_eq_bind, Option.bind_some]
  by_cases hb0 : b.hits = []
  · obtain ⟨out', a', c', htwo, ha', hc', hp⟩ := phases_of_two (e := 1) h₁ (by rw [hb0]; rfl) rfl (by decide : 0 < 2) (by decide)
      (by decide) (by decide) (by decide) ha hc rfl rfl (by omega : _ < turns nodes)
    obtain ⟨s₂, t₂, t₃, hp⟩ := hp rfl ha' hb hc'
    refine ⟨_, 1, _, s₂, t₁, t₂, t₃, ?_, hp⟩
    simp only [mergeHits3, doHitMerge3, hloop, htwo, ha0, hb0, if_true, if_false, Option.bind_eq_bind, Option.bind_some]
  · have hc0 : c.hits = [] := (hend.resolve_left ha0).resolve_left hb0
    obtain ⟨out', a', b', htwo, ha', hb', hp⟩ := phases_of_two (e := 2) h₁ (by rw [hc0]; rfl) rfl (by decide : 0 < 1) (by decide)
      (by decide) (by decide) (by decide) ha hb rfl rfl (by omega : _ < turns nodes)
    obtain ⟨s₂, t₂, t₃, hp⟩ := hp rfl ha' hb' hc
    refine ⟨_, 2, _, s₂, t₁, t₂, t₃, ?_, hp⟩
    simp only [mergeHits3, doHitMerge3, hloop, htwo, ha0, hb0, if_false, Option.bind_eq_bind, Option.bind_some]

end Merge

/-! ## Exact merges -/

/-- The merged hit order. -/
def hitLe (g h : ExtHit) : Prop := g.hitpos < h.hitpos ∨ g.hitpos = h.hitpos ∧ g.querypos ≤ h.querypos

/-- The hits of every keyword in the fields it was asked for. -/
def wanted (nodes : List HitNode) (rowID : Nat) : List ExtHit :=
  nodes.flatMap fun n => (n.hits.filter (allows n.queriedFields)).map fun hit =>
    { rowID, hitpos := hit, querypos := n.atomPos % 2 ^ 16, nodepos := n.nodepos }

/-- The hits wanted, in the merged order. -/
def Merged (nodes : List HitNode) (rowID : Nat) (out : List ExtHit) : Prop :=
  out.Pairwise hitLe ∧ out.Perm (wanted nodes rowID)

/-- A hit that the three-way merge reaches when the keyword `e` has no more hits and the third keyword still has. -/
def Crossed (nodes : List HitNode) (e : Nat) (f : Nat × Nat) : Prop :=
  e < 3 ∧ f.1 < 3 ∧ f.1 ≠ e ∧ f.2 ∈ (node nodes f.1).hits ∧ (∀ y ∈ (node nodes e).hits, before nodes (e, y) f) ∧
    ∃ k < 3, k ≠ e ∧ k ≠ f.1 ∧ ∃ z ∈ (node nodes k).hits, before nodes f (k, z)

/-- With three keywords, a hit crossed is in a field that its keyword and the one before it (not counting the keyword that
has ended) both allow or both do not. -/
def Judged (nodes : List HitNode) : Prop :=
  nodes.length = 3 → ∀ e f, Crossed nodes e f →
    allows (node nodes (if f.1 < e then f.1 else f.1 - 1)).queriedFields f.2 = allows (node nodes f.1).queriedFields f.2

variable {i : Nat}

section Exact
theorem node_eq {n : HitNode} (h : nodes[i]? = some n) : node nodes i = n := by
  rw [node, getD_eq_getElem?_getD, h]
  rfl

theorem flatMap_tagged {f : HitNode → List ExtHit} {hits : HitNode → List Nat} {g : Nat × Nat → Option ExtHit}
    (h : ∀ i, f (node nodes i) = (hits (node nodes i)).filterMap fun x => g (i, x)) : ∀ (pre rest : List HitNode),
    nodes = pre ++ rest → rest.flatMap f = (MergeRun.tagged pre.length (rest.map hits)).filterMap g
  | pre, [], _ => rfl
  | pre, n :: rest, hn => by
    have ih := flatMap_tagged h (pre ++ [n]) rest (by rw [hn, append_assoc]; rfl)
    have hnode : node nodes pre.length = n := node_eq (by rw [hn]; simp)
    rw [length_append, length_singleton] at ih
    rw [flatMap_cons, ih, map_cons, MergeRun.tagged, filterMap_append, filterMap_map, ← hnode, h]
    rfl

theorem wanted_eq : wanted nodes rowID = (MergeRun.tagged 0 (nodes.map (·.hits))).filterMap (emit nodes rowID id) := by
  have hnode : ∀ i, ((node nodes i).hits.filter (allows (node nodes i).queriedFields)).map (fun x => hitOf nodes rowID (i, x)) =
      (node nodes i).hits.filterMap fun x => emit nodes rowID id (i, x) := by
    intro i
    induction (node nodes i).hits with
    | nil => rfl
    | cons x xs ih =>
      rw [filterMap_cons_toList, ← ih, filter_cons, emit, id]
      cases allows (node nodes i).queriedFields x <;> rfl
  exact flatMap_tagged hnode [] nodes rfl

theorem emit_sublist (u : Nat → Nat) (t : List (Nat × Nat)) :
    (t.filterMap (emit nodes rowID u)).Sublist (t.map (hitOf nodes rowID)) := by
  induction t with
  | nil => exact .slnil
  | cons f t ih =>
    rw [filterMap_cons_toList, map_cons, emit]
    split
    · exact ih.cons_cons _
    · exact ih.cons _

theorem hitLe_of_before {t : List (Nat × Nat)} (h : t.Pairwise (before nodes)) :
    (t.map (hitOf nodes rowID)).Pairwise hitLe := by
  refine h.map _ fun e f hef => ?_
  unfold before at hef
  unfold hitLe hitOf
  simp only
  omega

theorem ordered_map {le : Nat × Nat → Nat × Nat → Prop} (hle : ∀ i x y, x < y ∨ x = y → le (i, x) (i, y))
    {hits : HitNode → List Nat} (hasc : ∀ n ∈ nodes, (hits n).Pairwise (· ≤ ·)) : MergeRun.Ordered le (nodes.map hits) := by
  intro i xs hi
  rw [getElem?_map] at hi
  obtain ⟨n, hn, rfl⟩ := Option.map_eq_some_iff.mp hi
  exact (hasc n (mem_of_getElem? hn)).imp fun {x y} hxy => hle i x y (lt_or_eq_of_le hxy)

theorem ordered_hits (hasc : ∀ n ∈ nodes, n.hits.Pairwise (· ≤ ·)) : MergeRun.Ordered (before nodes) (nodes.map (·.hits)) :=
  ordered_map (fun _ _ _ h => h.imp_right fun h => ⟨h, .inr ⟨rfl, le_refl _⟩⟩) hasc

/-- **A run through all the hits, each judged by its own keyword, is exact.** -/
theorem merged_of_run (rowID : Nat) (hasc : ∀ n ∈ nodes, n.hits.Pairwise (· ≤ ·)) {t : List (Nat × Nat)} {s : List (List Nat)}
    (h : MergeRun.Run (before nodes) (nodes.map (·.hits)) t s) (hs : ∀ xs ∈ s, xs = []) :
    Merged nodes rowID (t.filterMap (emit nodes rowID id)) := by
  obtain ⟨hord, -⟩ := h.ordered (before_trans nodes) (ordered_hits hasc)
  refine ⟨(hitLe_of_before hord).sublist (emit_sublist id t), ?_⟩
  have hperm := h.perm
  rw [MergeRun.tagged_eq_nil hs, append_nil] at hperm
  rw [wanted_eq]
  exact (hperm.filterMap _).symm

theorem mergeHits2_exact (rowID : Nat) (hlen : nodes.length = 2) (hasc : ∀ n ∈ nodes, n.hits.Pairwise (· ≤ ·)) :
    ∃ out, mergeHits2 nodes rowID = some out ∧ Merged nodes rowID out := by
  obtain ⟨m, n, rfl⟩ := length_eq_two.mp hlen
  obtain ⟨out, l, r, t, hmerge, h⟩ := doHitMerge_spec rowID (s := [m.hits, n.hits]) (by decide : 0 < 1) (turns [m, n])
    (of_initHitMerge [m, n] 0) (of_initHitMerge [m, n] 1) rfl rfl
    (fun j ys hj1 hj2 hj => by
      rcases j with _ | _ | j
      · exact absurd rfl hj1
      · exact absurd rfl hj2
      · simp at hj)
    (by simp [turns, initHitMerge, node])
  have hcopy : MergeRun.Run (before [m, n]) [l.hits, r.hits] (l.hits.map (fun x => (0, x)) ++ r.hits.map fun x => (1, x))
      [[], []] := by
    refine .append (.copy (i := 0) rfl ?_) (.copy (i := 1) rfl ?_)
    · intro hne j ys hj hy
      rcases j with _ | _ | j
      · exact absurd rfl hj
      · exact (Option.some.inj hy).symm.trans (h.ended.resolve_left hne)
      · simp at hy
    · intro _ j ys hj hy
      rcases j with _ | _ | j
      · exact (Option.some.inj hy).symm
      · exact absurd rfl hj
      · simp at hy
  refine ⟨_, by rw [mergeHits2, hmerge]; rfl, ?_⟩
  have hout : out = t.filterMap (emit [m, n] rowID id) := by
    rw [h.out_eq]
    refine emit_congr fun f hf => ?_
    rcases h.later f hf with ⟨h1, -⟩ | ⟨h1, -⟩ <;> rw [h1] <;> rfl
  rw [copyHits_eq h.left, copyHits_eq h.right, hout, ← filterMap_append, ← filterMap_append, append_assoc]
  exact merged_of_run rowID hasc (h.run.append hcopy) (by simp)

theorem hits_get (hi : i < 3) :
    [(node nodes 0).hits, (node nodes 1).hits, (node nodes 2).hits][i]? = some (node nodes i).hits := by
  obtain rfl | rfl | rfl : i = 0 ∨ i = 1 ∨ i = 2 := by omega
  all_goals rfl

theorem mem_hits : f ∈ MergeRun.tagged 0 [(node nodes 0).hits, (node nodes 1).hits, (node nodes 2).hits] ↔
    f.1 < 3 ∧ f.2 ∈ (node nodes f.1).hits := by
  rw [MergeRun.mem_tagged]
  constructor
  · rintro ⟨i, xs, hi, h1, h2⟩
    have hlt : i < 3 := (List.getElem?_eq_some_iff.mp hi).1
    rw [zero_add] at h1
    rw [hits_get hlt] at hi
    cases hi
    rw [h1]
    exact ⟨hlt, h2⟩
  · exact fun ⟨hlt, hmem⟩ => ⟨f.1, (node nodes f.1).hits, hits_get hlt, (zero_add _).symm, hmem⟩

/-- **The second phase takes the crossed hits, and no others.** -/
theorem Phases.mem_second (hasc : ∀ n ∈ nodes, n.hits.Pairwise (· ≤ ·)) (hlen : nodes.length = 3) {e : Nat}
    {s₁ s₂ : List (List Nat)} {t₁ t₂ t₃ : List (Nat × Nat)}
    (h : Phases nodes rowID [(node nodes 0).hits, (node nodes 1).hits, (node nodes 2).hits] out e s₁ s₂ t₁ t₂ t₃) :
    (∀ f ∈ t₂, Crossed nodes e f) ∧ ∀ e' f, Crossed nodes e' f → e' = e ∧ f ∈ t₂ := by
  have hnodes : [(node nodes 0).hits, (node nodes 1).hits, (node nodes 2).hits] = nodes.map (·.hits) := by
    obtain ⟨a, b, c, rfl⟩ := length_eq_three.mp hlen
    rfl
  have hord : MergeRun.Ordered (before nodes) [(node nodes 0).hits, (node nodes 1).hits, (node nodes 2).hits] :=
    hnodes ▸ ordered_hits hasc
  obtain ⟨-, hrest₁, hord₁⟩ := h.first.run.ordered (before_trans nodes) hord
  obtain ⟨-, hrest₂, -⟩ := h.second.ordered (before_trans nodes) hord₁
  have hperm₁ := h.first.run.perm
  have hperm₂ := h.second.perm
  have hcross : ∀ f ∈ t₂, Crossed nodes e f := by
    intro f hf
    have hf₁ : f ∈ MergeRun.tagged 0 s₁ := hperm₂.mem_iff.mpr (mem_append_left _ hf)
    obtain ⟨hlt, hne, k, hk, hke, hkf, zs, hzs, z, hz, hb⟩ := h.cross f hf
    obtain ⟨-, hmem⟩ := mem_hits.mp (hperm₁.mem_iff.mpr (mem_append_right _ hf₁))
    refine ⟨h.lt, hlt, hne, hmem, fun y hy => ?_, k, hk, hke, hkf, z, ?_, hb⟩
    · -- the hits of the ended keyword were all taken before
      refine hrest₁ (e, y) ?_ f hf₁
      refine (List.mem_append.mp (hperm₁.mem_iff.mp (mem_hits.mpr ⟨h.lt, hy⟩))).resolve_right fun hleft => ?_
      obtain ⟨i, xs, hi, h1, h2⟩ := MergeRun.mem_tagged.mp hleft
      rw [zero_add] at h1
      cases h1
      rw [h.empty] at hi
      cases hi
      cases h2
    · have hk₁ : (k, z) ∈ MergeRun.tagged 0 s₁ := MergeRun.mem_tagged.mpr ⟨k, zs, hzs, (zero_add _).symm, hz⟩
      exact (mem_hits.mp (hperm₁.mem_iff.mpr (mem_append_right _ hk₁))).2
  refine ⟨hcross, ?_⟩
  rintro e' f ⟨he', hlt, hne, hmem, hall, k, hk, hke, hkf, z, hz, hb⟩
  have hf₂ : f ∈ t₂ := by
    rcases List.mem_append.mp (hperm₁.mem_iff.mp (mem_hits.mpr ⟨hlt, hmem⟩)) with hf | hf
    · -- not while the ended keyword had hits
      exfalso
      obtain ⟨y, hy, hfy⟩ := h.first.later f hf e' _ (Ne.symm hne) (hits_get he')
      exact hne (before_antisymm nodes hfy (hall y hy))
    · rcases List.mem_append.mp (hperm₂.mem_iff.mp hf) with hf | hf
      · exact hf
      · -- not when it is alone: the hit `z` of another keyword comes later
        exfalso
        have hz₂ : (k, z) ∈ MergeRun.tagged 0 s₂ := by
          rcases List.mem_append.mp (hperm₁.mem_iff.mp ((mem_hits (f := (k, z))).mpr ⟨hk, hz⟩)) with hz₁ | hz₁
          · exact absurd (before_antisymm nodes hb (hrest₁ _ hz₁ f (hperm₂.mem_iff.mpr (mem_append_right _ hf)))).symm hkf
          · rcases List.mem_append.mp (hperm₂.mem_iff.mp hz₁) with hz₂ | hz₂
            · exact absurd (before_antisymm nodes hb (hrest₂ _ hz₂ f hf)).symm hkf
            · exact hz₂
        obtain ⟨i, xs, hi, h1, h2⟩ := MergeRun.mem_tagged.mp hf
        obtain ⟨j, ys, hj, h3, h4⟩ := MergeRun.mem_tagged.mp hz₂
        rw [zero_add] at h1 h3
        rcases h.single i j xs ys (by rw [← h1, ← h3]; exact Ne.symm hkf) hi hj with rfl | rfl
        · cases h2
        · cases h4
  refine ⟨?_, hf₂⟩
  by_contra hee
  obtain ⟨-, -, hfe, -, hall', -⟩ := hcross f hf₂
  -- otherwise the third keyword is the ended one
  obtain rfl : k = e := by
    have := h.lt
    omega
  exact hfe (before_antisymm nodes hb (hall' z hz))

theorem hitOf_injective (hnd : (nodes.map (·.nodepos)).Nodup) {g : Nat × Nat} (hf : f.1 < nodes.length)
    (hg : g.1 < nodes.length) (h : hitOf nodes rowID f = hitOf nodes rowID g) : f = g := by
  injection h with _ hpos _ hnode
  refine Prod.ext ?_ hpos
  have hget : ∀ i < nodes.length, (nodes.map (·.nodepos))[i]? = some (node nodes i).nodepos := by
    intro i hi
    rw [getElem?_map, node, getD_eq_getElem?_getD, getElem?_eq_getElem hi]
    rfl
  refine (getElem?_inj (by rwa [length_map]) hnd).mp ?_
  rw [hget _ hf, hget _ hg, hnode]

/-- **The merge of three is exact iff the crossed hits are judged alike.** -/
theorem mergeHits3_exact_iff (rowID : Nat) (hlen : nodes.length = 3) (hasc : ∀ n ∈ nodes, n.hits.Pairwise (· ≤ ·))
    (hnd : (nodes.map (·.nodepos)).Nodup) : ∃ out, mergeHits3 nodes rowID = some out ∧ (Merged nodes rowID out ↔ Judged nodes) := by
  have hnodes : [(node nodes 0).hits, (node nodes 1).hits, (node nodes 2).hits] = nodes.map (·.hits) := by
    obtain ⟨a, b, c, rfl⟩ := length_eq_three.mp hlen
    rfl
  obtain ⟨out, e, s₁, s₂, t₁, t₂, t₃, hout, h⟩ := mergeHits3_phases rowID (show (node nodes 0).hits.length + (node nodes 1).hits.length +
      (node nodes 2).hits.length < turns nodes by
    obtain ⟨a, b, c, rfl⟩ := length_eq_three.mp hlen
    simp only [turns, node, map_cons, map_nil, sum_cons, sum_nil, getD_cons_zero, getD_cons_succ]
    omega)
  obtain ⟨hcross, hsecond⟩ := h.mem_second hasc hlen
  have hrun : MergeRun.Run (before nodes) (nodes.map (·.hits)) (t₁ ++ t₂ ++ t₃) [[], [], []] :=
    hnodes ▸ (h.first.run.append h.second).append h.third
  have hexact := merged_of_run rowID hasc hrun (by simp)
  rw [filterMap_append, filterMap_append] at hexact
  refine ⟨out, hout, ?_⟩
  rw [h.out_eq]
  constructor
  · rintro ⟨-, hperm⟩ - e' f hf
    obtain ⟨rfl, hf₂⟩ := hsecond e' f hf
    have hlt : ∀ g ∈ t₂, g.1 < nodes.length := fun g hg => by rw [hlen]; exact (hcross g hg).2.1
    -- the parts that are judged right cancel
    have hsame := (perm_append_left_iff _).mp ((perm_append_right_iff _).mp (hperm.trans hexact.2.symm))
    have hmem : ∀ u v : Nat → Nat, (t₂.filterMap (emit nodes rowID u)).Perm (t₂.filterMap (emit nodes rowID v)) →
        allows (node nodes (u f.1)).queriedFields f.2 = true → allows (node nodes (v f.1)).queriedFields f.2 = true := by
      intro u v huv hu
      have hin : hitOf nodes rowID f ∈ t₂.filterMap (emit nodes rowID u) :=
        mem_filterMap.mpr ⟨f, hf₂, by rw [emit, if_pos hu]⟩
      obtain ⟨g, hg, hgv⟩ := mem_filterMap.mp (huv.mem_iff.mp hin)
      rw [emit] at hgv
      split at hgv
      · rename_i hv
        cases hitOf_injective hnd (hlt g hg) (hlt f hf₂) (Option.some.inj hgv)
        exact hv
      · cases hgv
    exact Bool.eq_iff_iff.mpr ⟨hmem _ _ hsame, hmem _ _ hsame.symm⟩
  · intro hjudged
    have hemit : t₂.filterMap (emit nodes rowID fun j => if j < e then j else j - 1) = t₂.filterMap (emit nodes rowID id) := by
      refine filterMap_congr fun f hf => ?_
      rw [emit, emit, hjudged hlen e f (hcross f hf)]
      rfl
    rw [hemit]
    exact hexact

end Exact

/-! ## The merge with a queue -/

/-- The order of the queue: by position and query position. -/
def weakly (nodes : List HitNode) (e f : Nat × Nat) : Prop :=
  e.2 < f.2 ∨ e.2 = f.2 ∧ (node nodes e.1).atomPos % 2 ^ 16 ≤ (node nodes f.1).atomPos % 2 ^ 16

def HitWithQpos.le (a b : HitWithQpos) : Prop := a.hit < b.hit ∨ a.hit = b.hit ∧ a.queryPos ≤ b.queryPos

theorem compares_isLess : Queue.Compares HitWithQpos.le HitWithQpos.isLess where
  trans {x y z} hxy hyz := by
    unfold HitWithQpos.le at *
    omega
  less {x y} h := by
    unfold HitWithQpos.le
    exact of_decide_eq_true h
  more {x y} h := by
    have := of_decide_eq_false h
    unfold HitWithQpos.le
    omega

/-- The hit of a keyword in the queue. -/
def entry (nodes : List HitNode) (i hit : Nat) : HitWithQpos := ⟨i, hit, (node nodes i).atomPos % 2 ^ 16⟩

/-- The first hit of every stream, as queue entries; the first stream is that of the `k`-th keyword. -/
def heads (nodes : List HitNode) : Nat → List (List Nat) → List HitWithQpos
  | _, [] => []
  | k, xs :: s => (xs.head?.map (entry nodes k)).toList ++ heads nodes (k + 1) s

/-- The hits of a keyword in the fields it was asked for. -/
def HitNode.allowed (n : HitNode) : List Nat := n.hits.filter (allows n.queriedFields)

section Queued
theorem mem_heads {w : HitWithQpos} : ∀ {s : List (List Nat)} {k : Nat},
    w ∈ heads nodes k s ↔ ∃ i x xs, s[i]? = some (x :: xs) ∧ w = entry nodes (k + i) x
  | [], k => by simp [heads]
  | xs :: s, k => by
    rw [heads, List.mem_append, mem_heads (s := s)]
    constructor
    · rintro (h | ⟨i, y, ys, hi, h⟩)
      · cases xs with
        | nil => cases h
        | cons y ys => exact ⟨0, y, ys, rfl, by simpa using h⟩
      · exact ⟨i + 1, y, ys, hi, by rw [h, add_right_comm, add_assoc]⟩
    · rintro ⟨i, y, ys, hi, h⟩
      cases i with
      | zero =>
        cases hi
        exact .inl (by simp [h])
      | succ i => exact .inr ⟨i, y, ys, hi, by rw [h, add_right_comm, add_assoc]⟩

theorem heads_set (nodes : List HitNode) {xs : List Nat} : ∀ {s : List (List Nat)} {i k : Nat}, s[i]? = some (x :: xs) →
    (heads nodes k s).Perm (entry nodes (k + i) x :: heads nodes k (s.set i []))
  | [], i, k, h => by simp at h
  | ys :: s, 0, k, h => by
    cases h
    exact List.Perm.refl _
  | ys :: s, i + 1, k, h => by
    have ih := heads_set nodes (s := s) (k := k + 1) (i := i) h
    rw [add_right_comm] at ih
    exact (ih.append_left _).trans perm_middle

theorem length_heads_le (nodes : List HitNode) : ∀ (s : List (List Nat)) (k : Nat), (heads nodes k s).length ≤ s.length
  | [], _ => le_refl _
  | xs :: s, k => by
    have := length_heads_le nodes s (k + 1)
    rw [heads, length_append, length_cons]
    cases xs with
    | nil => simp only [head?_nil, Option.map_none, Option.toList_none, length_nil]; omega
    | cons x xs => simp only [head?_cons, Option.map_some, Option.toList_some, length_singleton]; omega

theorem nextAllowed_spec (mask : FieldMask) : ∀ l : List Nat, nextAllowed mask l = none ∧ l.filter (allows mask) = [] ∨
      ∃ hit rest, nextAllowed mask l = some (hit, rest) ∧ l.filter (allows mask) = hit :: rest.filter (allows mask)
  | [] => .inl ⟨rfl, rfl⟩
  | hit :: l => by
    rw [nextAllowed, filter_cons]
    cases h : allows mask hit with
    | true => exact .inr ⟨hit, l, rfl, rfl⟩
    | false => exact nextAllowed_spec mask l

/-- The queue holds the first hit of every stream. -/
structure Pending (nodes : List HitNode) (s : List (List Nat)) (q : HitQueue) : Prop where
  heap : Queue.Heap HitWithQpos.le q.queue.data
  size : q.queue.size = nodes.length
  first : q.queue.data.Perm (heads nodes 0 s)
  length : s.length = nodes.length
  readers : q.rest.length = nodes.length

/-- **A push opens an empty stream**: it is what the keyword's reader has still to return, in the allowed fields. -/
theorem pushNextHit_spec {s : List (List Nat)} {q : HitQueue} (h : Pending nodes s q) (hs : s[i]? = some []) :
    Pending nodes (s.set i ((q.rest.getD i []).filter (allows (node nodes i).queriedFields))) (pushNextHit nodes q i) ∧
      ((pushNextHit nodes q i).rest.getD i []).filter (allows (node nodes i).queriedFields) =
        ((q.rest.getD i []).filter (allows (node nodes i).queriedFields)).tail ∧
      ∀ j, j ≠ i → (pushNextHit nodes q i).rest.getD j [] = q.rest.getD j [] := by
  obtain ⟨hi, hget⟩ := List.getElem?_eq_some_iff.mp hs
  have hir : i < q.rest.length := by rwa [h.readers, ← h.length]
  have hrest : ∀ (l : List Nat) (j : Nat), (q.rest.set i l).getD j [] = if j = i then l else q.rest.getD j [] := by
    intro l j
    rw [getD_eq_getElem?_getD, getElem?_set, getD_eq_getElem?_getD]
    by_cases hj : j = i
    · subst hj
      rw [if_pos rfl, if_pos rfl, if_pos hir]
      rfl
    · rw [if_neg (Ne.symm hj), if_neg hj]
  rcases nextAllowed_spec (node nodes i).queriedFields (q.rest.getD i []) with ⟨hnext, hfil⟩ | ⟨hit, rest, hnext, hfil⟩
  · have hpush : pushNextHit nodes q i = { q with rest := q.rest.set i [] } := by rw [pushNextHit, hnext]
    have hset : s.set i [] = s := by
      have := set_getElem_self hi
      rwa [hget] at this
    rw [hpush, hfil, hset]
    refine ⟨⟨h.heap, h.size, h.first, h.length, by rw [length_set, h.readers]⟩, ?_, fun j hj => ?_⟩
    · rw [hrest, if_pos rfl]
      rfl
    · rw [hrest, if_neg hj]
  · have hpush : pushNextHit nodes q i =
        { queue := (q.queue.push HitWithQpos.isLess (entry nodes i hit)).1, rest := q.rest.set i rest } := by
      rw [pushNextHit, hnext]
      rfl
    rw [hpush, hfil]
    have hset : (s.set i (hit :: rest.filter (allows (node nodes i).queriedFields)))[i]? =
        some (hit :: rest.filter (allows (node nodes i).queriedFields)) := getElem?_set_self hi
    have hopen := heads_set nodes (k := 0) hset
    have hback : (s.set i (hit :: rest.filter (allows (node nodes i).queriedFields))).set i [] = s := by
      rw [set_set]
      have := set_getElem_self hi
      rwa [hget] at this
    rw [hback, zero_add] at hopen
    have hroom : q.queue.data.length < q.queue.size := by
      rw [h.first.length_eq, h.size, ← h.length]
      have hle := length_heads_le nodes (s.set i (hit :: rest.filter (allows (node nodes i).queriedFields))) 0
      rw [hopen.length_eq, length_cons, length_set] at hle
      exact hle
    obtain ⟨hheap, hperm, hsize⟩ := Queue.push_spec compares_isLess h.heap hroom (entry nodes i hit)
    refine ⟨⟨hheap, hsize.trans h.size, hperm.trans ((h.first.cons _).trans hopen.symm), by rw [length_set, h.length],
      by rw [length_set, h.readers]⟩, ?_, fun j hj => ?_⟩
    · rw [hrest, if_pos rfl]
      rfl
    · rw [hrest, if_neg hj]

theorem open_spec (nodes : List HitNode) : ∀ k ≤ nodes.length, ∃ s,
    Pending nodes s ((List.range k).foldl (pushNextHit nodes) ⟨{ size := nodes.length }, nodes.map (·.hits)⟩) ∧
    (∀ i < nodes.length, s[i]? = some (if i < k then (node nodes i).allowed else [])) ∧
    ∀ i < nodes.length, (((List.range k).foldl (pushNextHit nodes) ⟨{ size := nodes.length }, nodes.map (·.hits)⟩).rest.getD i []).filter
      (allows (node nodes i).queriedFields) = if i < k then (node nodes i).allowed.tail else (node nodes i).allowed
  | 0, _ => by
    refine ⟨List.replicate nodes.length [], ⟨?_, rfl, ?_, length_replicate, length_map _⟩, fun i hi => ?_, fun i hi => ?_⟩
    · exact fun j _ hj => absurd hj (Nat.not_lt_zero _)
    · have hnil : heads nodes 0 (List.replicate nodes.length []) = [] := by
        refine eq_nil_iff_forall_not_mem.mpr fun w hw => ?_
        obtain ⟨i, x, xs, hi, -⟩ := mem_heads.mp hw
        have := eq_of_mem_replicate (mem_of_getElem? hi)
        cases this
      rw [hnil]
      exact List.Perm.refl _
    · rw [getElem?_replicate, if_pos hi, if_neg (Nat.not_lt_zero _)]
    · show ((nodes.map (·.hits)).getD i []).filter _ = _
      rw [getD_eq_getElem?_getD, getElem?_map, getElem?_eq_getElem hi, HitNode.allowed,
        node_eq (getElem?_eq_getElem hi)]
      rfl
  | k + 1, hk => by
    obtain ⟨s, h, hs, hrest⟩ := open_spec nodes k (Nat.le_of_succ_le hk)
    have hsk : s[k]? = some [] := by rw [hs k hk, if_neg (lt_irrefl _)]
    obtain ⟨h', htail, hsame⟩ := pushNextHit_spec h hsk
    have hfil := hrest k hk
    rw [if_neg (lt_irrefl _)] at hfil
    rw [hfil] at h' htail
    have hlater : ∀ {i}, i ≠ k → (i < k + 1 ↔ i < k) := by omega
    rw [range_succ, foldl_append, foldl_cons, foldl_nil]
    refine ⟨_, h', fun i hi => ?_, fun i hi => ?_⟩
    · by_cases hik : i = k
      · subst hik
        rw [getElem?_set_self (List.getElem?_eq_some_iff.mp hsk).1, if_pos (Nat.lt_succ_self _)]
      · rw [getElem?_set_ne (Ne.symm hik), hs i hi]
        simp only [hlater hik]
    · by_cases hik : i = k
      · subst hik
        rw [if_pos (Nat.lt_succ_self _)]
        exact htail
      · rw [hsame i hik, hrest i hi]
        simp only [hlater hik]

/-- **The queue merges the streams.** -/
theorem drain_spec (rowID : Nat) : ∀ (fuel : Nat) {s : List (List Nat)} {q : HitQueue}, Pending nodes s q →
    (∀ i xs, s[i]? = some xs → (q.rest.getD i []).filter (allows (node nodes i).queriedFields) = xs.tail) →
    (MergeRun.tagged 0 s).length < fuel →
    ∃ t s', drain nodes rowID fuel q = some (t.map (hitOf nodes rowID)) ∧ MergeRun.Run (weakly nodes) s t s' ∧
      ∀ xs ∈ s', xs = []
  | 0, _, _, _, _, hf => absurd hf (Nat.not_lt_zero _)
  | fuel + 1, s, q, h, hrest, hf => by
    rw [drain]
    by_cases hempty : q.queue.data = []
    · rw [if_pos hempty]
      refine ⟨[], s, rfl, .nil s, fun xs hxs => ?_⟩
      have hnil := h.first
      rw [hempty] at hnil
      cases xs with
      | nil => rfl
      | cons x xs =>
        obtain ⟨i, hi, hget⟩ := mem_iff_getElem.mp hxs
        have hmem : entry nodes (0 + i) x ∈ heads nodes 0 s :=
          mem_heads.mpr ⟨i, x, xs, by rw [getElem?_eq_getElem hi, hget], rfl⟩
        rw [nil_perm.mp hnil] at hmem
        cases hmem
    · rw [if_neg hempty]
      obtain ⟨top, rest, hdata⟩ := exists_cons_of_ne_nil hempty
      have hroot : q.queue.root = top := by rw [Queue.root, hdata]; rfl
      obtain ⟨i, x, xs, hi, htop⟩ := mem_heads.mp (h.first.mem_iff.mp (by rw [hdata]; exact mem_cons_self))
      rw [zero_add] at htop
      obtain ⟨hheap, hpop⟩ := Queue.pop_spec compares_isLess h.heap hdata
      have hib := (List.getElem?_eq_some_iff.mp hi).1
      have hopened := heads_set nodes (k := 0) hi
      rw [zero_add, ← htop] at hopened
      have hpopped : Pending nodes (s.set i []) { q with queue := q.queue.pop HitWithQpos.isLess } := by
        refine ⟨hheap, h.size, hpop.trans ?_, by rw [length_set, h.length], h.readers⟩
        have := h.first.trans hopened
        rw [hdata] at this
        exact this.cons_inv
      obtain ⟨hpush, htail, hsame⟩ := pushNextHit_spec hpopped (getElem?_set_self hib)
      have hfil : (q.rest.getD i []).filter (allows (node nodes i).queriedFields) = xs := hrest i _ hi
      rw [show ({ q with queue := q.queue.pop HitWithQpos.isLess } : HitQueue).rest = q.rest from rfl, hfil] at hpush htail
      rw [set_set] at hpush
      have hfuel := (MergeRun.tagged_set (k := 0) hi).length_eq
      rw [length_cons] at hfuel
      obtain ⟨t, s', hdrain, hrun, hover⟩ := drain_spec rowID fuel hpush (by
        intro j ys hj
        by_cases hji : j = i
        · subst hji
          rw [getElem?_set_self hib] at hj
          cases hj
          exact htail
        · rw [getElem?_set_ne (Ne.symm hji)] at hj
          rw [hsame j hji]
          exact hrest j ys hj) (by omega)
      refine ⟨(i, x) :: t, s', ?_, .cons hi (fun j y ys hj hy => ?_) hrun, hover⟩
      · simp only [hroot, htop, entry] at hdrain ⊢
        rw [hdrain]
        rfl
      · have hmem : entry nodes (0 + j) y ∈ q.queue.data := h.first.mem_iff.mpr (mem_heads.mpr ⟨j, y, ys, hy, rfl⟩)
        have hle := Queue.root_le compares_isLess h.heap hmem
        rw [hroot, htop, zero_add] at hle
        exact hle

theorem mergeHitsN_exact (nodes : List HitNode) (rowID : Nat) (hasc : ∀ n ∈ nodes, n.hits.Pairwise (· ≤ ·)) :
    ∃ out, mergeHitsN nodes rowID = some out ∧ Merged nodes rowID out := by
  obtain ⟨s, h, hs, hrest⟩ := open_spec nodes nodes.length (le_refl _)
  have hs' : s = nodes.map HitNode.allowed := by
    refine ext_getElem? fun i => ?_
    rw [getElem?_map]
    by_cases hi : i < nodes.length
    · rw [hs i hi, if_pos hi, node_eq (getElem?_eq_getElem hi), getElem?_eq_getElem hi]
      rfl
    · rw [getElem?_eq_none (by rw [h.length]; exact Nat.le_of_not_lt hi),
        getElem?_eq_none (Nat.le_of_not_lt hi)]
      rfl
  subst hs'
  have hlen : ∀ ns : List HitNode, ((ns.map HitNode.allowed).map List.length).sum ≤ (ns.map (·.hits.length)).sum := by
    intro ns
    rw [map_map]
    exact sum_le_sum fun n _ => length_filter_le _ _
  obtain ⟨t, s', hdrain, hrun, hover⟩ := drain_spec rowID (turns nodes) h (by
    intro i xs hi
    have hib := (List.getElem?_eq_some_iff.mp hi).1
    rw [length_map] at hib
    rw [hs i hib, if_pos hib] at hi
    cases hi
    rw [hrest i hib, if_pos hib]) (by
    rw [MergeRun.length_tagged]
    exact Nat.lt_succ_of_le (hlen nodes))
  refine ⟨_, hdrain, ?_, ?_⟩
  · have hord : MergeRun.Ordered (weakly nodes) (nodes.map HitNode.allowed) :=
      ordered_map (fun _ _ _ h => h.imp_right fun h => ⟨h, le_refl _⟩) fun n hn => (hasc n hn).filter _
    obtain ⟨hpair, -⟩ := hrun.ordered (by unfold weakly; omega) hord
    exact hpair.map _ fun e f hef => hef
  · have hperm := hrun.perm
    rw [MergeRun.tagged_eq_nil hover, append_nil] at hperm
    have hwanted : wanted nodes rowID = (MergeRun.tagged 0 (nodes.map HitNode.allowed)).filterMap (some ∘ hitOf nodes rowID) :=
      have hnode : ∀ i, (node nodes i).allowed.map (fun x => hitOf nodes rowID (i, x)) =
          (node nodes i).allowed.filterMap fun x => (some ∘ hitOf nodes rowID) (i, x) := fun i => by rw [← filterMap_eq_map]; rfl
      flatMap_tagged hnode [] nodes rfl
    rw [hwanted, filterMap_eq_map]
    exact (hperm.map _).symm

end Queued

/-- **Every merge is exact, the merge of three iff the crossed hits are judged alike**: the hits of each keyword in its own
fields come out, in the merged order. -/
theorem collectHits_exact_iff {nodes : List HitNode} (hasc : ∀ n ∈ nodes, n.hits.Pairwise (· ≤ ·))
    (hnd : (nodes.map (·.nodepos)).Nodup) (rowID : Nat) :
    (∃ out, collectHits nodes rowID = some out ∧ (Merged nodes rowID out ↔ Judged nodes)) ∧
      ∃ out, mergeHitsN nodes rowID = some out ∧ Merged nodes rowID out := by
  refine ⟨?_, mergeHitsN_exact nodes rowID hasc⟩
  by_cases h2 : nodes.length = 2
  · obtain ⟨out, hout, h⟩ := mergeHits2_exact rowID h2 hasc
    exact ⟨out, by rw [collectHits, if_pos h2, hout], iff_of_true h fun h3 => by omega⟩
  by_cases h3 : nodes.length = 3
  · obtain ⟨out, hout, h⟩ := mergeHits3_exact_iff rowID h3 hasc hnd
    exact ⟨out, by rw [collectHits, if_neg h2, if_pos h3, hout], h⟩
  · obtain ⟨out, hout, h⟩ := mergeHitsN_exact nodes rowID hasc
    exact ⟨out, by rw [collectHits, if_neg h2, if_neg h3, hout], iff_of_true h fun h3' => absurd h3' h3⟩

/-- `@title a` with `b` and `c` in any field, on a document with `a` in the first field and `b c` in the second. -/
def titleQuery : List HitNode :=
  [{ hits := [1], queriedFields := 1#256, atomPos := 1, nodepos := 0 },
   { hits := [2 ^ 24 + 1], queriedFields := BitVec.allOnes 256, atomPos := 2, nodepos := 1 },
   { hits := [2 ^ 24 + 2], queriedFields := BitVec.allOnes 256, atomPos := 3, nodepos := 2 }]

/-- **The hit of `b` is lost**: after the only hit of `a`, it is tested with the fields of `a`. -/
theorem mergeHits3_loses_hit : ∃ out, collectHits titleQuery 7 = some out ∧
    out.map (·.hitpos) = [1, 2 ^ 24 + 2] ∧ (wanted titleQuery 7).map (·.hitpos) = [1, 2 ^ 24 + 1, 2 ^ 24 + 2] :=
  ⟨_, rfl, by decide, by decide⟩

theorem collectHits_exact_iff_titleQuery :
    (∃ out, collectHits titleQuery 7 = some out ∧ (Merged titleQuery 7 out ↔ Judged titleQuery)) ∧
      ∃ out, mergeHitsN titleQuery 7 = some out ∧ Merged titleQuery 7 out :=
  collectHits_exact_iff (by decide) (by decide) 7

end MultiAnd
end Manticore

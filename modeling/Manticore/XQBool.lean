import Manticore.XQNode
/-!
# XQBool — boolean query trees and the parts the rewrite rules share

What a boolean tree matches, the climbing of `Grand<N>`, the choice of the weakest node of a group and the collection
of its related nodes.  Most rules work on branches `A !N` of one OR node: an ANDNOT node with its AND and its NOT.
-/
namespace Manticore
namespace XQ

open PtrTree
open List
open Option (bind_eq_bind bind_some)

variable {κ : Type}

abbrev Query (κ : Type) := Tree (Data κ)

/-- What a node makes of its children; `v` tells which keywords the document has. -/
def meaning (v : κ → Bool) (a : Data κ) (bs : List Bool) : Bool :=
  if a.words.isEmpty then
    match a.op with
    | .and => bs.all id
    | .andNot => bs.all id
    | .or => bs.any id
    | .not => !bs.any id
    | _ => false
  else a.words.all v

/-- The documents of a boolean query, one document at a time. -/
def Query.matches (v : κ → Bool) (t : Query κ) : Bool := Tree.eval (meaning v) t

/-- A node of a boolean query: a single keyword, or an operator over its children. -/
inductive BoolNode (h : Heap (Data κ)) (c : Node κ) : Prop
  | leaf (w : κ) : c.data.words = [w] → c.children = [] → c.data.op = .and ∨ c.data.op = .or → BoolNode h c
  | and : c.data.words = [] → c.data.op = .and → c.children ≠ [] → BoolNode h c
  | or : c.data.words = [] → c.data.op = .or → c.children ≠ [] → BoolNode h c
  | not (p : Nat) : c.data.words = [] → c.data.op = .not → c.children = [p] → BoolNode h c
  | andNot (p q : Nat) (d e : Node κ) : c.data.words = [] → c.data.op = .andNot → c.children = [p, q] → h p = some d →
      h q = some e → d.data.op = .and → e.data.op = .not → BoolNode h c

/-- Every node below `root` is a node of a boolean query. -/
def BoolTree (h : Heap (Data κ)) (root : Nat) : Prop := ∀ p c, Below h root p → h p = some c → BoolNode h c

/-- Two nodes match the same documents. -/
def SameDocs (h : Heap (Data κ)) (p q : Nat) : Prop :=
  ∀ par par' t t', Rep h par p t → Rep h par' q t' → ∀ v, Query.matches v t = Query.matches v t'

variable {h : Heap (Data κ)} {p q : Nat}

theorem SameDocs.of_rep {par par' : Nat} {t : Query κ} (hp : Rep h par p t) (hq : Rep h par' q t) :
    SameDocs h p q := by
  intro _ _ u u' hu hu' v
  rw [hu.unique hp, hu'.unique hq]

/-- The nodes of a list, the first at address `1`. -/
def Store.ofNodes (ns : List (Node κ)) : Store κ where
  nodes p := if p = 0 then none else ns[p - 1]?
  next := ns.length + 1
  fuzzy _ := 0
  magic _ := 0
  fresh p hp := by
    by_cases h0 : p = 0
    · rw [if_pos h0] at hp
      exact absurd rfl hp
    · rw [if_neg h0] at hp
      have hlt : p - 1 < ns.length := by
        by_contra hge
        exact hp (List.getElem?_eq_none (Nat.le_of_not_lt hge))
      omega
  start := Nat.succ_pos _

/-- A node with the keyword `k`, and one without keywords. -/
def wordNode (k parent : Nat) : Node Nat := { data := { words := [k] }, parent }
def opNode (op : Op) (children : List Nat) (parent : Nat) : Node Nat := { data := { op }, children, parent }

/-- Whether a node belongs to a boolean query. -/
def isBoolNode (h : Heap (Data κ)) (c : Node κ) : Bool :=
  match c.data.op, c.data.words, c.children with
  | .and, [_], [] => true
  | .or, [_], [] => true
  | .and, [], _ :: _ => true
  | .or, [], _ :: _ => true
  | .not, [], [_] => true
  | .andNot, [], [p, q] =>
    match h p, h q with
    | some d, some e => d.data.op == .and && e.data.op == .not
    | _, _ => false
  | _, _, _ => false

theorem boolNode_of_isBoolNode {c : Node κ} (hc : isBoolNode h c = true) : BoolNode h c := by
  unfold isBoolNode at hc
  split at hc
  · rename_i w hop hw hk
    exact .leaf w hw hk (.inl hop)
  · rename_i w hop hw hk
    exact .leaf w hw hk (.inr hop)
  · rename_i hop hw hk
    exact .and hw hop (by rw [hk]; exact cons_ne_nil _ _)
  · rename_i hop hw hk
    exact .or hw hop (by rw [hk]; exact cons_ne_nil _ _)
  · rename_i p hop hw hk
    exact .not p hw hop hk
  · rename_i p q hop hw hk
    split at hc
    · rename_i d e hd he
      rw [Bool.and_eq_true, beq_iff_eq, beq_iff_eq] at hc
      exact .andNot p q d e hw hop hk hd he hc.1 hc.2
    · cases hc
  · cases hc

theorem Store.mem_of_ofNodes {ns : List (Node κ)} {c : Node κ} (hc : (Store.ofNodes ns).nodes p = some c) : c ∈ ns := by
  have hn : (Store.ofNodes ns).nodes p = if p = 0 then none else ns[p - 1]? := rfl
  by_cases h0 : p = 0
  · rw [hn, if_pos h0] at hc
    cases hc
  · rw [hn, if_neg h0] at hc
    exact mem_of_getElem? hc

/-- A store whose nodes all belong to a boolean query holds boolean trees only. -/
theorem boolTree_of_all {ns : List (Node κ)} (h : ns.all (isBoolNode (Store.ofNodes ns).nodes) = true) (root : Nat) :
    BoolTree (Store.ofNodes ns).nodes root := fun _ _ _ hc =>
  boolNode_of_isBoolNode (all_eq_true.mp h _ (Store.mem_of_ofNodes hc))

/-! ## Shared parts of the rules -/

/-- `Grand<k>::From`. -/
def grand (s : Store κ) : Nat → Nat → Option Nat
  | 0, p => some p
  | k + 1, p => do
    let q ← grand s k p
    let c ← s.nodes q
    return c.parent

/-- `Grand<k>::Valid`. -/
def valid (s : Store κ) : Nat → Nat → Bool
  | 0, p => p != 0
  | k + 1, p => valid s k p && (grand s (k + 1) p).getD 0 != 0

/-- `GetOp` of `Grand<k>::From`. -/
def grandOp (s : Store κ) (k : Nat) (p : Nat) : Option Op := do
  let q ← grand s k p
  let c ← s.nodes q
  return c.data.op

def weakestGo (s : Store κ) : List Nat → Nat → Nat → Int → Option Nat
  | [], _, best, _ => some best
  | p :: ps, i, best, prox => do
    let c ← s.nodes p
    if c.data.op = .proximity ∧ prox < c.data.opArg then weakestGo s ps (i + 1) i c.data.opArg
    else weakestGo s ps (i + 1) best prox

/-- `CSphTransformation::GetWeakestIndex`. -/
def getWeakestIndex (s : Store κ) (ps : List Nat) : Option Nat := weakestGo s ps 0 0 (-1)

def weakestChildGo (s : Store κ) : List Nat → Nat → Nat → Int → Option Nat
  | [], _, best, _ => some best
  | p :: ps, i, best, prox => do
    let c ← s.nodes p
    match c.children with
    | [] => weakestChildGo s ps (i + 1) best prox
    | q :: _ => do
      let d ← s.nodes q
      if d.data.op = .proximity ∧ prox < d.data.opArg then weakestChildGo s ps (i + 1) i d.data.opArg
      else weakestChildGo s ps (i + 1) best prox

/-- `CSphTransformation::GetWeakestChildIndex`. -/
def getWeakestChildIndex (s : Store κ) (ps : List Nat) : Option Nat := weakestChildGo s ps 0 0 (-1)

/-- `CSphTransformation::CollectRelatedNodes<Grand<ex>, Grand<par>>`. -/
def collectRelatedNodes (s : Store κ) (ex par : Nat) : List Nat → Option (List Nat)
  | [] => some []
  | p :: ps => do
    let e ← grand s ex p
    let q ← grand s par p
    let c ← s.nodes q
    let rest ← collectRelatedNodes s ex par ps
    return c.children.filter (· ≠ e) ++ rest

variable {s : Store κ}

theorem weakestGo_spec (ps : List Nat) : ∀ (i best : Nat) (prox : Int), (∀ p ∈ ps, ∃ c, s.nodes p = some c) →
    ∃ w, weakestGo s ps i best prox = some w ∧ (w = best ∨ i ≤ w ∧ w < i + ps.length) := by
  induction ps with
  | nil => exact fun i best _ _ => ⟨best, rfl, .inl rfl⟩
  | cons p ps ih =>
    intro i best prox hlive
    obtain ⟨c, hc⟩ := hlive p mem_cons_self
    have hlive' := (forall_mem_cons.mp hlive).2
    simp only [weakestGo, hc, bind_eq_bind, bind_some, length_cons]
    split
    · obtain ⟨w, hw, h | h⟩ := ih (i + 1) i c.data.opArg hlive'
      · exact ⟨w, hw, .inr (by omega)⟩
      · exact ⟨w, hw, .inr (by omega)⟩
    · obtain ⟨w, hw, h | h⟩ := ih (i + 1) best prox hlive'
      · exact ⟨w, hw, .inl h⟩
      · exact ⟨w, hw, .inr (by omega)⟩

theorem getWeakestIndex_spec (s : Store κ) {ps : List Nat} (hne : ps ≠ []) (hlive : ∀ p ∈ ps, ∃ c, s.nodes p = some c) :
    ∃ i w, getWeakestIndex s ps = some i ∧ ps[i]? = some w ∧ w ∈ ps := by
  obtain ⟨i, hi, h⟩ := weakestGo_spec ps 0 0 (-1) hlive
  have hlt : i < ps.length := by
    have := length_pos_of_ne_nil hne
    omega
  exact ⟨i, _, hi, getElem?_eq_getElem hlt, getElem_mem hlt⟩

/-- `HasSameParent`. -/
def hasSameParent (s : Store κ) (ps : List Nat) : Bool := !decide (ps.map (grand s 1)).Nodup

/-- `HasSameGrand`. -/
def hasSameGrand (s : Store κ) (ps : List Nat) : Bool := !decide (ps.map (grand s 2)).Nodup

/-- The tree at `p` matches the document `v`. -/
def NodeMatches (h : Heap (Data κ)) (p : Nat) (v : κ → Bool) : Prop := ∃ par t, Rep h par p t ∧ Query.matches v t = true

/-- Whatever the node `o` is taken to match, the tree at `root` does the same on the document `v`. -/
def Indifferent (h : Heap (Data κ)) (root o : Nat) (v : κ → Bool) : Prop :=
  ∀ E E', Val h (fun q => Below h root q ∧ ¬ Below h o q) (meaning v) E →
    Val h (fun q => Below h root q ∧ ¬ Below h o q) (meaning v) E' → E root = E' root

/-- A group of equal nodes, as they are collected for a rule: they stand below one node, `k` levels up. -/
structure Group (s : Store κ) (root k : Nat) (check : Nat → Bool) (similar : List Nat) : Prop where
  two   : 2 ≤ similar.length
  nodup : similar.Nodup
  below : ∀ x ∈ similar, Below s.nodes root x
  check : ∀ x ∈ similar, check x = true
  key   : ∃ o, ∀ x ∈ similar, grand s k x = some o
  same  : ∀ x ∈ similar, ∀ y ∈ similar, SameDocs s.nodes x y

theorem weakestChildGo_spec (ps : List Nat) : ∀ (i best : Nat) (prox : Int),
    (∀ p ∈ ps, ∃ c, s.nodes p = some c ∧ ∀ q ∈ c.children, ∃ d, s.nodes q = some d) →
    ∃ w, weakestChildGo s ps i best prox = some w ∧ (w = best ∨ i ≤ w ∧ w < i + ps.length) := by
  induction ps with
  | nil => exact fun i best _ _ => ⟨best, rfl, .inl rfl⟩
  | cons p ps ih =>
    intro i best prox hlive
    obtain ⟨c, hc, hkids⟩ := hlive p mem_cons_self
    have hlive' := (forall_mem_cons.mp hlive).2
    have hskip : ∀ best' prox', best' = best ∨ best' = i →
        ∃ w, weakestChildGo s ps (i + 1) best' prox' = some w ∧ (w = best ∨ i ≤ w ∧ w < i + (ps.length + 1)) := by
      intro best' prox' hbest
      obtain ⟨w, hw, h⟩ := ih (i + 1) best' prox' hlive'
      exact ⟨w, hw, by omega⟩
    simp only [weakestChildGo, hc, bind_eq_bind, bind_some, length_cons]
    cases hck : c.children with
    | nil => exact hskip best prox (.inl rfl)
    | cons q qs =>
      obtain ⟨d, hd⟩ := hkids q (by rw [hck]; exact mem_cons_self)
      simp only [hd, bind_some]
      split
      · exact hskip i _ (.inr rfl)
      · exact hskip best _ (.inl rfl)

theorem getWeakestChildIndex_spec {ps : List Nat} (hne : ps ≠ [])
    (hlive : ∀ p ∈ ps, ∃ c, s.nodes p = some c ∧ ∀ q ∈ c.children, ∃ d, s.nodes q = some d) :
    ∃ i w, getWeakestChildIndex s ps = some i ∧ ps[i]? = some w ∧ w ∈ ps := by
  obtain ⟨i, hi, h⟩ := weakestChildGo_spec ps 0 0 (-1) hlive
  have hlt : i < ps.length := by
    have := length_pos_of_ne_nil hne
    omega
  exact ⟨i, _, hi, getElem?_eq_getElem hlt, getElem_mem hlt⟩

theorem rep_leaf {par : Nat} {d : Data κ} (h0 : p ≠ 0) (hc : h p = some { data := d, parent := par }) :
    Rep h par p (.node d []) := ⟨h0, _, hc, rfl, rfl, nodup_nil, trivial⟩

deriving instance DecidableEq for Data

variable {k : Nat}

theorem group_of_leaves {root : Nat} {check : Nat → Bool} {similar : List Nat} (o : Nat) (d : Data κ)
    (hg : 2 ≤ similar.length ∧ similar.Nodup ∧ ∀ x ∈ similar, descends s.nodes k root x = true ∧ check x = true ∧
      grand s k x = some o ∧ (s.nodes x).map (fun c => (c.data, c.children)) = some (d, [])) :
    Group s root k check similar where
  two := hg.1
  nodup := hg.2.1
  below x hx := below_of_descends (hg.2.2 x hx).1
  check x hx := (hg.2.2 x hx).2.1
  key := ⟨o, fun x hx => (hg.2.2 x hx).2.2.1⟩
  same x hx y hy := by
    have hleaf : ∀ z ∈ similar, ∃ par, Rep s.nodes par z (.node d []) := by
      intro z hz
      obtain ⟨⟨a, ps, par⟩, hc, heq⟩ := Option.map_eq_some_iff.mp (hg.2.2 z hz).2.2.2
      cases heq
      exact ⟨par, rep_leaf (Nat.ne_of_gt (s.pos hc)) hc⟩
    obtain ⟨_, hrx⟩ := hleaf x hx
    obtain ⟨_, hry⟩ := hleaf y hy
    exact .of_rep hrx hry

/-! ## Branches of an OR node -/

/-- `o` has the child `an`, an ANDNOT node of `a` and of a NOT node `nt` over `n`. -/
structure Branch (h : Heap (Data κ)) (o an a nt n : Nat) : Prop where
  top : ∃ c, h o = some c ∧ c.data.words = [] ∧ c.data.op = .or ∧ an ∈ c.children
  andNot : ∃ c, h an = some c ∧ c.data.words = [] ∧ c.data.op = .andNot ∧ c.children = [a, nt] ∧ c.parent = o
  and : ∃ c, h a = some c ∧ c.data.op = .and ∧ c.parent = an
  not : ∃ c, h nt = some c ∧ c.data.words = [] ∧ c.data.op = .not ∧ c.children = [n] ∧ c.parent = an
  arg : ∃ c, h n = some c ∧ c.parent = nt

namespace Branch

variable {S : Nat → Prop} {rank : Nat → Nat} {o : Nat} {an a nt n : Nat} {a' nt' : Nat} {v : κ → Bool} {E : Nat → Bool}

section
variable (hb : Branch h o an a nt n)
include hb

section
variable (hs : Shape h S rank) (ho : S o)
include hs ho

theorem mem_an : S an ∧ rank an < rank o := by
  obtain ⟨c, hc, -, -, hmem⟩ := hb.top
  obtain ⟨h1, h2, -⟩ := hs.kids o c ho hc an hmem
  exact ⟨h1, h2⟩

theorem mem_a : S a ∧ rank a < rank an := by
  obtain ⟨c, hc, -, -, hkids, -⟩ := hb.andNot
  obtain ⟨h1, h2, -⟩ := hs.kids an c (hb.mem_an hs ho).1 hc a (by rw [hkids]; exact mem_cons_self)
  exact ⟨h1, h2⟩

theorem mem_nt : S nt ∧ rank nt < rank an := by
  obtain ⟨c, hc, -, -, hkids, -⟩ := hb.andNot
  obtain ⟨h1, h2, -⟩ := hs.kids an c (hb.mem_an hs ho).1 hc nt (by rw [hkids]; exact mem_cons_of_mem _ mem_cons_self)
  exact ⟨h1, h2⟩

theorem mem_n : S n ∧ rank n < rank nt := by
  obtain ⟨c, hc, -, -, hkids, -⟩ := hb.not
  obtain ⟨h1, h2, -⟩ := hs.kids nt c (hb.mem_nt hs ho).1 hc n (by rw [hkids]; exact mem_cons_self)
  exact ⟨h1, h2⟩

end

theorem a_ne_nt : a ≠ nt := by
  rintro rfl
  obtain ⟨c, hc, hop, -⟩ := hb.and
  obtain ⟨d, hd, -, hop', -⟩ := hb.not
  cases hc.symm.trans hd
  rw [hop] at hop'
  cases hop'

theorem below_a : Below h an a := by
  obtain ⟨c, hc, -, -, hkids, -⟩ := hb.andNot
  exact Below.refl.step hc (by rw [hkids]; exact mem_cons_self)

theorem below_nt : Below h an nt := by
  obtain ⟨c, hc, -, -, hkids, -⟩ := hb.andNot
  exact Below.refl.step hc (by rw [hkids]; exact mem_cons_of_mem _ mem_cons_self)

theorem below_n : Below h an n := by
  obtain ⟨c, hc, -, -, hkids, -⟩ := hb.not
  exact hb.below_nt.step hc (by rw [hkids]; exact mem_cons_self)

section
variable (hs : Shape h S rank) (ho : S o)
include hs ho

theorem not_below_a_an : ¬ Below h a an := by
  obtain ⟨ha, hlt⟩ := hb.mem_a hs ho
  exact hs.not_below_of_lt ha hlt

theorem not_below_both (h1 : Below h a q) (h2 : Below h nt q) : False := by
  obtain ⟨c, hc, -, -, hkids, -⟩ := hb.andNot
  exact hs.below_disjoint (hb.mem_an hs ho).1 hc (by rw [hkids]; exact mem_cons_self)
    (by rw [hkids]; exact mem_cons_of_mem _ mem_cons_self) hb.a_ne_nt h1 h2

theorem not_below_n_an : ¬ Below h n an ∧ ¬ Below h n nt := by
  obtain ⟨hn, hlt⟩ := hb.mem_n hs ho
  obtain ⟨-, hlt'⟩ := hb.mem_nt hs ho
  exact ⟨hs.not_below_of_lt hn (lt_trans hlt hlt'), hs.not_below_of_lt hn hlt⟩

theorem not_below_above (hle : rank o ≤ rank q) : ¬ Below h an q := by
  obtain ⟨hS, hlt⟩ := hb.mem_an hs ho
  exact hs.not_below_of_lt hS (lt_of_lt_of_le hlt hle)

end

theorem below_nt_n : Below h nt n := by
  obtain ⟨c, hc, -, -, hkids, -⟩ := hb.not
  exact Below.refl.step hc (by rw [hkids]; exact mem_cons_self)

theorem disjoint {an' n' : Nat} (hb' : Branch h o an' a' nt' n') (hs : Shape h S rank)
    (ho : S o) (hne : an ≠ an') (h1 : Below h an q) (h2 : Below h an' q) : False := by
  obtain ⟨c, hc, -, -, hmem⟩ := hb.top
  obtain ⟨c', hc', -, -, hmem'⟩ := hb'.top
  cases hc.symm.trans hc'
  exact hs.below_disjoint ho hc hmem hmem' hne h1 h2

theorem val (hs : Shape h S rank) (ho : S o)
    (hE : Val h S (meaning v) E) : E an = (E a && !E n) := by
  obtain ⟨c, hc, hw, hop, hkids, -⟩ := hb.andNot
  obtain ⟨d, hd, hw', hop', hkids', -⟩ := hb.not
  rw [hE an c (hb.mem_an hs ho).1 hc, hkids, map_cons, map_singleton, hE nt d (hb.mem_nt hs ho).1 hd, hkids',
    map_singleton]
  simp only [meaning, hw, hop, hw', hop', isEmpty_nil, if_true, all_cons, all_nil, any_cons,
    any_nil, Bool.or_false, Bool.and_true, id]

end

/-- The parts of a branch are told by its ANDNOT node. -/
theorem parts {n' : Nat} (hx : Branch h o an a nt n) (hy : Branch h o an a' nt' n') : a = a' ∧ nt = nt' ∧ n = n' := by
  obtain ⟨c, hc, -, -, hkids, -⟩ := hx.andNot
  obtain ⟨c', hc', -, -, hkids', -⟩ := hy.andNot
  cases hc.symm.trans hc'
  rw [hkids] at hkids'
  obtain ⟨rfl, rfl⟩ : a = a' ∧ nt = nt' := by simpa using hkids'
  obtain ⟨d, hd, -, -, hkids, -⟩ := hx.not
  obtain ⟨d', hd', -, -, hkids', -⟩ := hy.not
  cases hd.symm.trans hd'
  rw [hkids] at hkids'
  exact ⟨rfl, rfl, by simpa using hkids'⟩

variable {x : Nat}

theorem an_inj {y : Nat} (hx : Branch h o an a nt x) (hy : Branch h o an a' nt' y) : x = y := (hx.parts hy).2.2

end Branch

variable {root : Nat}

section Climb

variable {p : Nat} {c : Node κ}

theorem parent_cell (hr : Rooted s.nodes S rank root) {d : Node κ} (hp : S p) (hc : s.nodes p = some c)
    (hd : s.nodes c.parent = some d) : S c.parent ∧ rank p < rank c.parent ∧ p ∈ d.children := by
  obtain ⟨hS, hlt, d', hd', hmem⟩ := hr.parent_mem hp hc (Nat.ne_of_gt (s.pos hd))
  cases hd.symm.trans hd'
  exact ⟨hS, hlt, hmem⟩

theorem grandOp_cases {op : Op} (h : grandOp s k p = some op) :
    ∃ q c, grand s k p = some q ∧ s.nodes q = some c ∧ c.data.op = op := by
  unfold grandOp at h
  cases hq : grand s k p with
  | none => rw [hq] at h; cases h
  | some q =>
    cases hc : s.nodes q with
    | none => simp only [hq, hc, bind_eq_bind, bind_some, Option.bind_none] at h; cases h
    | some c =>
      simp only [hq, hc, bind_eq_bind, bind_some] at h
      cases h
      exact ⟨q, c, rfl, hc, rfl⟩

theorem grand_succ (hq : grand s k p = some q) (hc : s.nodes q = some c) :
    grand s (k + 1) p = some c.parent := by
  rw [grand, hq]
  simp only [bind_eq_bind, bind_some, hc]
  rfl

theorem BoolNode.inner (hb : BoolNode h c) (hp : p ∈ c.children) : c.data.words = [] := by
  cases hb with
  | leaf w hw hkids hop => rw [hkids] at hp; cases hp
  | and hw => exact hw
  | or hw => exact hw
  | not q hw => exact hw
  | andNot q r d e hw => exact hw

theorem BoolNode.children_not (hb : BoolNode h c) (hop : c.data.op = .not) (hp : p ∈ c.children) : c.children = [p] := by
  cases hb with
  | leaf w hw hkids hop' => rw [hkids] at hp; cases hp
  | and hw hop' => rw [hop'] at hop; cases hop
  | or hw hop' => rw [hop'] at hop; cases hop
  | not q hw hop' hkids =>
    rw [hkids] at hp ⊢
    rw [mem_singleton.mp hp]
  | andNot q r d e hw hop' => rw [hop'] at hop; cases hop

theorem BoolNode.children_andNot (hb : BoolNode h c) (hop : c.data.op = .andNot) :
    ∃ p q d e, c.children = [p, q] ∧ h p = some d ∧ h q = some e ∧ d.data.op = .and ∧ e.data.op = .not := by
  cases hb with
  | leaf w hw hkids hop' => rcases hop' with h | h <;> rw [h] at hop <;> cases hop
  | and hw hop' => rw [hop'] at hop; cases hop
  | or hw hop' => rw [hop'] at hop; cases hop
  | not q hw hop' => rw [hop'] at hop; cases hop
  | andNot q r d e hw hop' hkids hd he hd' he' => exact ⟨q, r, d, e, hkids, hd, he, hd', he'⟩

section
variable (hr : Rooted s.nodes S rank root) (hbool : ∀ p c, S p → s.nodes p = some c → BoolNode s.nodes c)
include hr hbool

theorem branch_of_not {x n : Nat} (hn : S n) (hk : grand s k x = some n) (h1 : grandOp s (k + 1) x = some .not)
    (h2 : grandOp s (k + 2) x = some .andNot) (h3 : grandOp s (k + 3) x = some .or) :
    ∃ o an a nt, Branch s.nodes o an a nt n ∧ S o ∧ grand s (k + 1) x = some nt ∧ grand s (k + 2) x = some an ∧
      grand s (k + 3) x = some o := by
  obtain ⟨nt, c1, hg1, hc1, hop1⟩ := grandOp_cases h1
  obtain ⟨an, c2, hg2, hc2, hop2⟩ := grandOp_cases h2
  obtain ⟨o, c3, hg3, hc3, hop3⟩ := grandOp_cases h3
  obtain ⟨c, hc⟩ := hr.live n hn
  cases (grand_succ hk hc).symm.trans hg1
  cases (grand_succ hg1 hc1).symm.trans hg2
  cases (grand_succ hg2 hc2).symm.trans hg3
  obtain ⟨hS1, -, hm1⟩ := parent_cell hr hn hc hc1
  obtain ⟨hS2, -, hm2⟩ := parent_cell hr hS1 hc1 hc2
  obtain ⟨hS3, -, hm3⟩ := parent_cell hr hS2 hc2 hc3
  have hb1 := hbool _ _ hS1 hc1
  have hb2 := hbool _ _ hS2 hc2
  have hb3 := hbool _ _ hS3 hc3
  obtain ⟨a, q, d, e, hkids, hd, he, hopd, hope⟩ := hb2.children_andNot hop2
  have hq : q = c.parent := by
    rw [hkids] at hm2
    rcases mem_pair.mp hm2 with h | h
    · rw [h] at hc1
      cases hc1.symm.trans hd
      rw [hop1] at hopd
      cases hopd
    · exact h.symm
  subst hq
  obtain ⟨-, -, d', hd', hpar⟩ := hr.kids _ c2 hS2 hc2 a (by rw [hkids]; exact mem_cons_self)
  cases hd.symm.trans hd'
  refine ⟨_, _, a, _, ⟨⟨c3, hc3, hb3.inner hm3, hop3, hm3⟩, ⟨c2, hc2, hb2.inner hm2, hop2, hkids, rfl⟩,
    ⟨d, hd, hopd, hpar⟩, ⟨c1, hc1, hb1.inner hm1, hop1, hb1.children_not hop1 hm1, rfl⟩, ⟨c, hc, rfl⟩⟩, hS3, hg1, hg2, hg3⟩

theorem branch_of_parent
    {x : Nat} {op : Op} (hx : S x) (h1 : grandOp s 1 x = some op) (h2 : grandOp s 2 x = some .not)
    (h3 : grandOp s 3 x = some .andNot) (h4 : grandOp s 4 x = some .or) :
    ∃ o an a nt p c, Branch s.nodes o an a nt p ∧ S o ∧ s.nodes p = some c ∧ c.data.words = [] ∧ c.data.op = op ∧
      x ∈ c.children ∧ c.parent = nt ∧ grand s 1 x = some p ∧ grand s 2 x = some nt ∧ grand s 3 x = some an ∧
      grand s 4 x = some o := by
  obtain ⟨c, hc⟩ := hr.live x hx
  obtain ⟨q, d, hq, hd, hop⟩ := grandOp_cases h1
  cases (grand_succ (k := 0) rfl hc).symm.trans hq
  obtain ⟨hqS, -, hmem⟩ := parent_cell hr hx hc hd
  obtain ⟨o, an, a, nt, hb, ho, hg2, hg3, hg4⟩ := branch_of_not hr hbool (k := 1) hqS hq h2 h3 h4
  obtain ⟨d', hd', hdpar⟩ := hb.arg
  cases hd.symm.trans hd'
  exact ⟨o, an, a, nt, _, d, hb, ho, hd, (hbool _ _ hqS hd).inner hmem, hop, hmem, hdpar, hq, hg2, hg3, hg4⟩

end

theorem collectRelated_branches {o : Nat} {an a nt n : Nat → Nat} {similar : List Nat}
    (hB : ∀ x ∈ similar, Branch s.nodes o (an x) (a x) (nt x) (n x))
    (hg : ∀ x ∈ similar, grand s k x = some (nt x) ∧ grand s (k + 1) x = some (an x)) :
    collectRelatedNodes s k (k + 1) similar = some (similar.map a) := by
  induction similar with
  | nil => rfl
  | cons x xs ih =>
    obtain ⟨h1, h2⟩ := hg x mem_cons_self
    obtain ⟨c, hc, -, -, hkids, -⟩ := (hB x mem_cons_self).andNot
    have hne := (hB x mem_cons_self).a_ne_nt
    have hfil : c.children.filter (· ≠ nt x) = [a x] := by
      rw [hkids]
      simp [hne]
    simp only [collectRelatedNodes, h1, h2, hc, ih (forall_mem_cons.mp hB).2
      (forall_mem_cons.mp hg).2, bind_eq_bind, bind_some, hfil]
    rfl

/-- The way up from `o` stays while the nodes of at least its rank keep their parents. -/
theorem chain_above {h' : Heap (Data κ)} (hr : Rooted h S rank root) {o : Nat} (ho : S o)
    (hsame : ∀ q c, S q → rank o ≤ rank q → h q = some c → ∃ c', h' q = some c' ∧ c'.parent = c.parent) : Chain h' o := by
  refine (hr.chain ho).mono (A := fun q => S q ∧ rank o ≤ rank q) ⟨ho, le_refl _⟩ ?_
  rintro q c ⟨hq, hle⟩ hc
  refine ⟨hsame q c hq hle hc, fun h0 => ?_⟩
  obtain ⟨hS, hlt, -⟩ := hr.parent_mem hq hc h0
  exact ⟨hS, le_trans hle (le_of_lt hlt)⟩

theorem SameDocs.val (hs : Shape s.nodes S rank) {x y : Nat} (hxy : SameDocs s.nodes x y) (hx : S x) (hy : S y)
    {v : κ → Bool} {E : Nat → Bool} (hE : Val s.nodes S (meaning v) E) : E x = E y := by
  obtain ⟨c, hc⟩ := hs.live x hx
  obtain ⟨d, hd⟩ := hs.live y hy
  obtain ⟨t, ht, hte⟩ := hs.rep hx hc
  obtain ⟨u, hu, hue⟩ := hs.rep hy hd
  rw [← hte Bool _ E hE, ← hue Bool _ E hE]
  exact hxy _ _ t u ht hu v

section Group
variable {check : Nat → Bool} {similar : List Nat} (hg : Group s root k check similar)
include hg

theorem Group.ne_nil : similar ≠ [] := ne_nil_of_length_pos (lt_of_lt_of_le Nat.zero_lt_two hg.two)

theorem Group.val (hs : Shape s.nodes (Below s.nodes root) rank) (v : κ → Bool) (E : Nat → Bool)
    (hE : Val s.nodes (Below s.nodes root) (meaning v) E) : ∀ x ∈ similar, ∀ y ∈ similar, E x = E y := fun x hx y hy =>
  (hg.same x hx y hy).val hs (hg.below x hx) (hg.below y hy) hE

/-- What the check says about each node holds below one and the same node. -/
theorem Group.common {P : Nat → Nat → Prop}
    (h : ∀ o, ∀ x ∈ similar, check x = true → grand s k x = some o → Below s.nodes root o ∧ P o x) :
    ∃ o, Below s.nodes root o ∧ (∀ x ∈ similar, grand s k x = some o) ∧ ∀ x ∈ similar, P o x := by
  obtain ⟨o, hkey⟩ := hg.key
  obtain ⟨x, hx⟩ := exists_mem_of_ne_nil _ hg.ne_nil
  exact ⟨o, (h o x hx (hg.check x hx) (hkey x hx)).1, hkey, fun x hx => (h o x hx (hg.check x hx) (hkey x hx)).2⟩

end Group

/-- A tree with the value of the root matches what the tree at the root matches. -/
theorem matches_eq_of_val {t t' : Query κ} (ht : Rep s.nodes 0 root t)
    (hval : ∀ v E, Val s.nodes (Below s.nodes root) (meaning v) E → Query.matches v t' = E root) (v : κ → Bool) :
    Query.matches v t' = Query.matches v t := by
  obtain ⟨E, hE, hEt⟩ := ht.rooted.toShape.exists_val (meaning v)
  rw [hval v E hE, Query.matches, hEt root 0 t ht]

theorem nodeMatches_iff (hs : Shape s.nodes S rank) (hp : S p) {v : κ → Bool} {E : Nat → Bool}
    (hE : Val s.nodes S (meaning v) E) : NodeMatches s.nodes p v ↔ E p = true := by
  obtain ⟨c, hc⟩ := hs.live p hp
  obtain ⟨t, ht, hte⟩ := hs.rep hp hc
  constructor
  · rintro ⟨par, u, hu, hm⟩
    rw [← hte Bool _ E hE, ← hu.unique ht]
    exact hm
  · intro h
    exact ⟨_, t, ht, by rw [Query.matches, hte Bool _ E hE, h]⟩

end Climb

section Merge

variable {h' : Heap (Data κ)} {wk : Nat} {co : Node κ}

section
variable (hr : Rooted h S rank root) (ho : S o)
include hr ho

theorem below_of_outside (hout : ∀ q, S q → ¬ Below h o q → h' q = h q) :
    Below h' root o := by
  have hall : ∀ q, Below h root q → q = o ∨ ¬ Below h o q → Below h' root q := by
    intro q hb
    induction hb with
    | refl => exact fun _ => .refl
    | step hb hc hmem ih =>
      rename_i q r c
      intro hr'
      have hqS := hr.toShape.below_mem hr.mem hb
      have hq : ¬ Below h o q := by
        rcases hr' with rfl | h
        · exact hr.toShape.not_below_of_lt ho (hr.kids q c hqS hc r hmem).2.1
        · exact fun hq => h (hq.step hc hmem)
      exact (ih (.inr hq)).step ((hout q hqS hq).trans hc) hmem
  exact hall o (hr.mem_below ho) (.inl rfl)

/-- **A tree of the same value in the place of the one at `o`.** -/
theorem rep_inPlace (hco : h o = some co)
    (hnow : Now meaning h S h' co.parent o fun _ E => E o) (hout : ∀ q, S q → ¬ Below h o q → h' q = h q) :
    ∃ t', Rep h' 0 root t' ∧ Below h' root o ∧ ∀ v E, Val h S (meaning v) E → Query.matches v t' = E root := by
  obtain ⟨t, ht, hte⟩ := hnow
  obtain ⟨t', ht', hval⟩ := hr.replant ho hco ht (fun _ => .refl) fun q d hd hq hb => by
    rw [hout q hq hb, hd, map_replace_self, ite_self]
  rw [Splice.newRoot_self] at ht'
  exact ⟨t', ht', below_of_outside hr ho hout, fun v E hE =>
    hval Bool _ E (fun q c hq hc => hE q c hq.1 hc) (hte v E hE)⟩

/-- **Some children of an OR node are merged into one of them**: `wk` stands for all of `ks`, the others of `ks` leave, and what
is below none of them is as before. -/
theorem rep_merge (hco : h o = some co) (hwords : co.data.words = [])
    (hop : co.data.op = .or) {K gone : List Nat} (hks : ∀ r ∈ K, r ∈ co.children) (hnd : K.Nodup) (hperm : K.Perm (wk :: gone))
    (hnow : Now meaning h S h' o wk fun _ E => K.any E)
    (htop : h' o = some { co with children := co.children.filter (· ∉ gone) })
    (hout : ∀ q, S q → q ≠ o → (∀ r ∈ K, ¬ Below h r q) → h' q = h q) :
    ∃ t', Rep h' 0 root t' ∧ Below h' root o ∧ ∀ v E, Val h S (meaning v) E → Query.matches v t' = E root := by
  have hs := hr.toShape
  have hwk : wk ∈ K := hperm.mem_iff.mpr mem_cons_self
  have hwg : wk ∉ gone := (nodup_cons.mp (hperm.nodup_iff.mp hnd)).1
  have houter : ∀ q, S q → ¬ Below h o q → h' q = h q := by
    intro q hq hb
    refine hout q hq (fun h => hb (h ▸ .refl)) ?_
    exact fun r hr hbr => hb ((Below.refl.step hco (hks r hr)).trans hbr)
  have hnode := Now.node (f := meaning) (h := h) (S := S) (g := fun _ E r => if r = wk then K.any E else E r) (hs.ne_zero ho)
    htop ((hs.nodup o co ho hco).filter _) (by
      intro r hr'
      obtain ⟨hrc, hrg⟩ := mem_filter.mp hr'
      by_cases hrw : r = wk
      · simp only [if_pos hrw]
        rw [hrw]
        exact hnow
      · simp only [if_neg hrw]
        obtain ⟨hrS, hrlt, d, hd, hpar⟩ := hs.kids o co ho hco r hrc
        have hrk : r ∉ K := by
          rw [hperm.mem_iff]
          simpa [hrw] using hrg
        have hsame : ∀ q, Below h r q → h' q = h q := by
          intro q hb
          refine hout q (hs.below_mem hrS hb) ?_ ?_
          · rintro rfl
            exact hs.not_below_of_lt hrS hrlt hb
          · intro x hx hbx
            exact hs.below_disjoint ho hco hrc (hks x hx) (fun h => hrk (h ▸ hx)) hb hbx
        exact Now.keep hs hrS hd (by rw [hsame r .refl, hd, ← hpar]) fun q hq _ => hsame q hq)
  refine rep_inPlace hr ho hco (hnode.congr fun v E hE => ?_) houter
  rw [hE o co ho hco]
  simp only [meaning, hwords, hop, isEmpty_nil, if_true, any_map, Function.comp_def, id]
  rw [Bool.eq_iff_iff]
  simp only [any_eq_true, mem_filter, decide_eq_true_eq]
  constructor
  · rintro ⟨r, ⟨hrc, -⟩, hrE⟩
    by_cases hrw : r = wk
    · rw [if_pos hrw, any_eq_true] at hrE
      obtain ⟨x, hx, hxE⟩ := hrE
      exact ⟨x, hks x hx, hxE⟩
    · exact ⟨r, hrc, by rwa [if_neg hrw] at hrE⟩
  · rintro ⟨r, hrc, hrE⟩
    by_cases hrk : r ∈ K
    · exact ⟨wk, ⟨hks wk hwk, hwg⟩, by rw [if_pos rfl]; exact any_eq_true.mpr ⟨r, hrk, hrE⟩⟩
    · rw [hperm.mem_iff, mem_cons, not_or] at hrk
      exact ⟨r, ⟨hrc, hrk.2⟩, by rw [if_neg hrk.1]; exact hrE⟩

end

end Merge

end XQ
end Manticore

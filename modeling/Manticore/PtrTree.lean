import Mathlib.Data.List.Forall2
import Mathlib.Data.Finset.Card
import Mathlib.Data.List.Nodup
import Mathlib.Logic.Function.Basic
import Mathlib.Tactic.Common
/-!
# PtrTree — trees of cells that point at their children and at their parent

A heap maps addresses to cells, and address `0` is the null pointer.  `Rep h par p t` says that the tree `t` stands at
`p` under the parent `par`.  Tree surgery is justified cell by cell: a set of cells closed under the children (`Shape`)
with one equation per cell (`Val`) determines the tree at every cell and its value, so a rewrite only has to give the
values of the cells it touched.
-/
namespace Manticore
namespace PtrTree
open List
open Option (elim_some map_some)

structure Cell (α : Type) where
  data     : α
  children : List Nat := []
  parent   : Nat := 0

abbrev Heap (α : Type) := Nat → Option (Cell α)

inductive Tree (α : Type) where
  | node (data : α) (kids : List (Tree α))

universe u

variable {α β : Type}

/-! ## Trees -/

mutual
def Tree.eval (f : α → List β → β) : Tree α → β
  | .node a ts => f a (Tree.evalAll f ts)
def Tree.evalAll (f : α → List β → β) : List (Tree α) → List β
  | [] => []
  | t :: ts => t.eval f :: Tree.evalAll f ts
end

mutual
def Tree.depth : Tree α → Nat
  | .node _ ts => Tree.depthAll ts + 1
def Tree.depthAll : List (Tree α) → Nat
  | [] => 0
  | t :: ts => max t.depth (Tree.depthAll ts)
end

mutual
/-- The tree `t` stands at `p`, and its root points at `par`. -/
def Rep (h : Heap α) (par p : Nat) : Tree α → Prop
  | .node a ts => p ≠ 0 ∧ ∃ c, h p = some c ∧ c.data = a ∧ c.parent = par ∧ c.children.Nodup ∧ RepAll h p c.children ts
def RepAll (h : Heap α) (par : Nat) : List Nat → List (Tree α) → Prop
  | [], [] => True
  | p :: ps, t :: ts => Rep h par p t ∧ RepAll h par ps ts
  | _, _ => False
end

mutual
def decRep [DecidableEq α] (h : Heap α) (par p : Nat) : (t : Tree α) → Decidable (Rep h par p t)
  | .node a ts =>
    match hc : h p with
    | none => isFalse fun hr => by
      obtain ⟨-, c, hc', -⟩ := hr
      cases hc.symm.trans hc'
    | some c =>
      have := decRepAll h p c.children ts
      decidable_of_iff (p ≠ 0 ∧ c.data = a ∧ c.parent = par ∧ c.children.Nodup ∧ RepAll h p c.children ts)
        ⟨fun hr => ⟨hr.1, c, hc, hr.2⟩, fun hr => by
          obtain ⟨h0, c', hc', hcell⟩ := hr
          cases hc.symm.trans hc'
          exact ⟨h0, hcell⟩⟩
def decRepAll [DecidableEq α] (h : Heap α) (par : Nat) : (ps : List Nat) → (ts : List (Tree α)) → Decidable (RepAll h par ps ts)
  | [], [] => isTrue trivial
  | p :: ps, t :: ts =>
    have := decRep h par p t
    have := decRepAll h par ps ts
    inferInstanceAs (Decidable (_ ∧ _))
  | [], _ :: _ => isFalse id
  | _ :: _, [] => isFalse id
end

instance [DecidableEq α] (h : Heap α) (par p : Nat) (t : Tree α) : Decidable (Rep h par p t) := decRep h par p t

variable {h h' : Heap α} {par q p root : Nat} {S : Nat → Prop} {rank : Nat → Nat} {t : Tree α}

theorem RepAll.of_mem {ps : List Nat} : ∀ {ts : List (Tree α)}, RepAll h par ps ts → q ∈ ps → ∃ t ∈ ts, Rep h par q t := by
  induction ps with
  | nil => intro ts _ hq; cases hq
  | cons p ps ih =>
    intro ts hts hq
    cases ts with
    | nil => exact absurd hts id
    | cons t ts =>
      rcases mem_cons.mp hq with rfl | hq
      · exact ⟨t, mem_cons_self, hts.1⟩
      · obtain ⟨t', ht', hr⟩ := ih hts.2 hq
        exact ⟨t', mem_cons_of_mem _ ht', hr⟩

theorem Tree.depth_le_depthAll {ts : List (Tree α)} (h : t ∈ ts) : t.depth ≤ Tree.depthAll ts := by
  induction ts with
  | nil => cases h
  | cons u ts ih =>
    rcases mem_cons.mp h with rfl | h
    · exact le_max_left ..
    · exact le_trans (ih h) (le_max_right ..)

variable {n : Nat}

theorem RepAll.unique_of {ps : List Nat}
    (ih : ∀ (p : Nat) (t t' : Tree α), t.depth ≤ n → Rep h par p t → Rep h par p t' → t = t') :
    ∀ {ts ts' : List (Tree α)}, Tree.depthAll ts ≤ n → RepAll h par ps ts → RepAll h par ps ts' → ts = ts' := by
  induction ps with
  | nil =>
    intro ts ts' _ hr hr'
    cases ts with
    | nil =>
      cases ts' with
      | nil => rfl
      | cons => exact absurd hr' id
    | cons => exact absurd hr id
  | cons p ps ihl =>
    intro ts ts' hn hr hr'
    cases ts with
    | nil => exact absurd hr id
    | cons t ts =>
      cases ts' with
      | nil => exact absurd hr' id
      | cons t' ts' =>
        rw [Tree.depthAll] at hn
        rw [ih p t t' (by omega) hr.1 hr'.1, ihl (by omega) hr.2 hr'.2]

/-- **One tree at most stands at an address.** -/
theorem Rep.unique {par' : Nat} {t' : Tree α} (hr : Rep h par p t) (hr' : Rep h par' p t') : t = t' := by
  have hall : ∀ (n : Nat) (par par' p : Nat) (t t' : Tree α), t.depth ≤ n → Rep h par p t → Rep h par' p t' → t = t' := by
    intro n
    induction n with
    | zero =>
      intro par par' p t t' hn
      obtain ⟨a, ts⟩ := t
      rw [Tree.depth] at hn
      omega
    | succ n ih =>
      intro par par' p t t' hn hr hr'
      obtain ⟨a, ts⟩ := t
      obtain ⟨a', ts'⟩ := t'
      obtain ⟨-, c, hc, rfl, -, -, hall⟩ := hr
      obtain ⟨-, c', hc', rfl, -, -, hall'⟩ := hr'
      cases hc.symm.trans hc'
      rw [RepAll.unique_of (fun q u u' => ih p p q u u') (Nat.le_of_succ_le_succ hn) hall hall']
  exact hall t.depth par par' p t t' (le_refl _) hr hr'

/-! ## The cells below an address -/

inductive Below (h : Heap α) (p : Nat) : Nat → Prop
  | refl : Below h p p
  | step {q r : Nat} {c : Cell α} : Below h p q → h q = some c → r ∈ c.children → Below h p r

variable {r : Nat}

theorem Below.trans (hpq : Below h p q) (hqr : Below h q r) : Below h p r := by
  induction hqr with
  | refl => exact hpq
  | step _ hc hr ih => exact ih.step hc hr

/-- A set with `p` that is closed under the children has every cell below `p`. -/
theorem Below.mem_of_closed (hb : Below h p q) {K : Nat → Prop} (hp : K p)
    (hK : ∀ x c, K x → h x = some c → ∀ y ∈ c.children, K y) : K q := by
  induction hb with
  | refl => exact hp
  | step _ hc hr ih => exact hK _ _ ih hc _ hr

/-- Whether `q` is at most `n` steps below `p`. -/
def descends (h : Heap α) : Nat → Nat → Nat → Bool
  | 0, p, q => p == q
  | n + 1, p, q => p == q || (h p).any fun c => c.children.any (descends h n · q)

theorem below_of_descends : ∀ {n p : Nat}, descends h n p q = true → Below h p q
  | 0, p, hd => by
    cases beq_iff_eq.mp hd
    exact .refl
  | n + 1, p, hd => by
    simp only [descends, Bool.or_eq_true, beq_iff_eq, Option.any_eq_true, any_eq_true] at hd
    rcases hd with rfl | ⟨c, hc, r, hr, hd⟩
    · exact .refl
    · exact (Below.refl.step hc hr).trans (below_of_descends hd)

variable {c : Cell α}

theorem Below.exists_child (hb : Below h p q) (hne : q ≠ p) (hc : h p = some c) : ∃ r ∈ c.children, Below h r q := by
  induction hb with
  | refl => exact absurd rfl hne
  | step hb hd hr ih =>
    rename_i x y d
    by_cases hx : x = p
    · subst hx
      cases hc.symm.trans hd
      exact ⟨y, hr, .refl⟩
    · obtain ⟨r, hrc, hrb⟩ := ih hx
      exact ⟨r, hrc, hrb.step hd hr⟩

theorem Rep.below (hr : Rep h par p t) (hb : Below h p q) : ∃ par' t', Rep h par' q t' ∧ t'.depth ≤ t.depth ∧
      (q ≠ p → Below h p par' ∧ ∃ d, h par' = some d ∧ q ∈ d.children) := by
  induction hb with
  | refl => exact ⟨par, t, hr, le_refl _, fun hne => absurd rfl hne⟩
  | step hb hc hmem ih =>
    rename_i x y c
    obtain ⟨par', t', hr', hle, -⟩ := ih
    obtain ⟨a, ts⟩ := t'
    obtain ⟨-, c', hc', -, -, -, hall⟩ := hr'
    cases hc.symm.trans hc'
    obtain ⟨u, hu, hru⟩ := hall.of_mem hmem
    have := Tree.depth_le_depthAll hu
    rw [Tree.depth] at hle
    exact ⟨x, u, hru, by omega, fun _ => ⟨hb, c, hc, hmem⟩⟩

mutual
theorem Rep.congr {h' : Heap α} {par q : Nat} : ∀ {t : Tree α}, Rep h par q t → (∀ r, Below h q r → h' r = h r) → Rep h' par q t
  | .node _ _, ⟨h0, c, hc, ha, hpar, hnd, hall⟩, hsame => ⟨h0, c, (hsame q .refl).trans hc, ha, hpar, hnd,
      hall.congr fun _ hp r hb => hsame r ((Below.refl.step hc hp).trans hb)⟩
theorem RepAll.congr {h' : Heap α} {par : Nat} : ∀ {ps : List Nat} {ts : List (Tree α)}, RepAll h par ps ts →
    (∀ p ∈ ps, ∀ r, Below h p r → h' r = h r) → RepAll h' par ps ts
  | [], [], _, _ => trivial
  | p :: _, _ :: _, ⟨ht, hts⟩, hsame => ⟨ht.congr (hsame p mem_cons_self),
      hts.congr fun q hq => hsame q (mem_cons_of_mem p hq)⟩
end

theorem Rep.move {par' : Nat} (ht : Rep h par q t) (hc : h q = some c) (hq : h' q = some { c with parent := par' })
    (hsame : ∀ r, Below h q r → r ≠ q → h' r = h r) : Rep h' par' q t := by
  have hcopy := ht
  obtain ⟨a, ts⟩ := t
  obtain ⟨h0, c', hc', rfl, -, hnd, hall⟩ := ht
  cases hc.symm.trans hc'
  refine ⟨h0, _, hq, rfl, rfl, hnd, hall.congr ?_⟩
  intro p hp r hb
  refine hsame r ((Below.refl.step hc hp).trans hb) ?_
  -- the tree at `q` would be as deep as one below it
  rintro rfl
  obtain ⟨u, hu, hru⟩ := hall.of_mem hp
  obtain ⟨_, t', ht', hle, -⟩ := hru.below hb
  have := Tree.depth_le_depthAll hu
  rw [ht'.unique hcopy, Tree.depth] at hle
  omega

/-! ## Shapes -/

/-- The cells of `S` form trees: children are in `S`, of lower rank, and point back. -/
structure Shape (h : Heap α) (S : Nat → Prop) (rank : Nat → Nat) : Prop where
  null  : ¬ S 0
  live  : ∀ p, S p → ∃ c, h p = some c
  kids  : ∀ p c, S p → h p = some c → ∀ q ∈ c.children, S q ∧ rank q < rank p ∧ ∃ d, h q = some d ∧ d.parent = p
  nodup : ∀ p c, S p → h p = some c → c.children.Nodup

/-- The cells of `S` are those of one tree, with its root at `root`. -/
structure Rooted (h : Heap α) (S : Nat → Prop) (rank : Nat → Nat) (root : Nat) : Prop extends Shape h S rank where
  mem    : S root
  top    : ∀ c, h root = some c → c.parent = 0
  le_top : ∀ p, S p → rank p ≤ rank root
  up     : ∀ p c, S p → h p = some c → p ≠ root → S c.parent ∧ ∃ d, h c.parent = some d ∧ p ∈ d.children

/-- Every cell of `S` has the value that its data and the values of its children give. -/
def Val (h : Heap α) (S : Nat → Prop) (f : α → List β → β) (E : Nat → β) : Prop :=
  ∀ p c, S p → h p = some c → E p = f c.data (c.children.map E)

theorem repAll_of {ι : Sort u} {B : ι → Type} {f : ∀ i, α → List (B i) → B i} {g : ∀ i, Nat → B i} (par : Nat) (ps : List Nat)
    (ih : ∀ q ∈ ps, ∃ t, Rep h par q t ∧ ∀ i, t.eval (f i) = g i q) :
    ∃ ts, RepAll h par ps ts ∧ ∀ i, Tree.evalAll (f i) ts = ps.map (g i) := by
  induction ps with
  | nil => exact ⟨[], trivial, fun _ => rfl⟩
  | cons p ps ihl =>
    obtain ⟨t, ht, hte⟩ := ih p mem_cons_self
    obtain ⟨ts, hts, htse⟩ := ihl (forall_mem_cons.mp ih).2
    refine ⟨t :: ts, ⟨ht, hts⟩, ?_⟩
    intro i
    rw [Tree.evalAll, hte i, htse i, map_cons]

/-- **A shape holds a tree at every cell**, and every solution of the cells' equations is its value. -/
theorem Shape.rep (hs : Shape h S rank) (hp : S p) (hc : h p = some c) :
    ∃ t, Rep h c.parent p t ∧ ∀ (β : Type) (f : α → List β → β) (E : Nat → β), Val h S f E → t.eval f = E p := by
  induction hn : rank p using Nat.strongRecOn generalizing p c with
  | ind n ih =>
    obtain ⟨ts, hts, htse⟩ := repAll_of (f := fun i : { x : (β : Type) × (α → List β → β) × (Nat → β) // Val h S x.2.1 x.2.2 } => i.1.2.1)
      (g := fun i => i.1.2.2) p c.children fun q hq => by
        obtain ⟨hq', hlt, d, hd, hpar⟩ := hs.kids p c hp hc q hq
        obtain ⟨t, ht, hte⟩ := ih (rank q) (hn ▸ hlt) hq' hd rfl
        rw [hpar] at ht
        exact ⟨t, ht, fun i => hte i.1.1 i.1.2.1 i.1.2.2 i.2⟩
    refine ⟨.node c.data ts, ⟨fun h0 => hs.null (h0 ▸ hp), c, hc, rfl, rfl, hs.nodup p c hp hc, hts⟩, ?_⟩
    intro β f E hE
    rw [Tree.eval, htse ⟨⟨β, f, E⟩, hE⟩, ← hE p c hp hc]

open Classical in
/-- The tree at an address, if there is one. -/
noncomputable def treeAt (h : Heap α) (p : Nat) : Option (Tree α) :=
  if ht : ∃ t par, Rep h par p t then some (Classical.choose ht) else none

theorem treeAt_eq (hr : Rep h par p t) : treeAt h p = some t := by
  have ht : ∃ t par, Rep h par p t := ⟨t, par, hr⟩
  obtain ⟨par', hr'⟩ := Classical.choose_spec ht
  rw [treeAt, dif_pos ht, hr'.unique hr]

noncomputable def rankOf (h : Heap α) (p : Nat) : Nat := (treeAt h p).elim 0 Tree.depth

theorem rankOf_eq (hr : Rep h par p t) : rankOf h p = t.depth := by
  rw [rankOf, treeAt_eq hr, elim_some]

/-- **The cells of a tree.** -/
theorem Rep.shape (hr : Rep h par root t) : Shape h (Below h root) (rankOf h) where
  null hb := by
    obtain ⟨par, t', hr', -, -⟩ := hr.below hb
    obtain ⟨a, ts⟩ := t'
    exact hr'.1 rfl
  live p hb := by
    obtain ⟨par, t', hr', -, -⟩ := hr.below hb
    obtain ⟨a, ts⟩ := t'
    obtain ⟨-, c, hc, -⟩ := hr'
    exact ⟨c, hc⟩
  kids p c hb hc q hq := by
    obtain ⟨par, t', hr', -, -⟩ := hr.below hb
    have hrank := rankOf_eq hr'
    obtain ⟨a, ts⟩ := t'
    obtain ⟨-, c', hc', -, -, -, hall⟩ := hr'
    cases hc.symm.trans hc'
    obtain ⟨u, hu, hru⟩ := hall.of_mem hq
    have hle := Tree.depth_le_depthAll hu
    have hrankq := rankOf_eq hru
    obtain ⟨b, us⟩ := u
    obtain ⟨-, d, hd, -, hpar, -, -⟩ := hru
    rw [Tree.depth] at hrank
    exact ⟨hb.step hc hq, by omega, d, hd, hpar⟩
  nodup p c hb hc := by
    obtain ⟨par, t', hr', -, -⟩ := hr.below hb
    obtain ⟨a, ts⟩ := t'
    obtain ⟨-, c', hc', -, -, hnd, -⟩ := hr'
    cases hc.symm.trans hc'
    exact hnd

theorem Rep.rooted (hr : Rep h 0 root t) : Rooted h (Below h root) (rankOf h) root where
  toShape := hr.shape
  mem := .refl
  top c hc := by
    obtain ⟨a, ts⟩ := t
    obtain ⟨-, c', hc', -, hpar, -, -⟩ := hr
    cases hc.symm.trans hc'
    exact hpar
  le_top p hb := by
    obtain ⟨par, t', hr', hle, -⟩ := hr.below hb
    rw [rankOf_eq hr', rankOf_eq hr]
    exact hle
  up p c hb hc hne := by
    obtain ⟨par, t', hr', -, hup⟩ := hr.below hb
    obtain ⟨a, ts⟩ := t'
    obtain ⟨-, c', hc', -, hpar, -, -⟩ := hr'
    cases hc.symm.trans hc'
    rw [hpar]
    exact hup hne

theorem Shape.exists_val (hs : Shape h S rank) [Inhabited β] (f : α → List β → β) :
    ∃ E : Nat → β, Val h S f E ∧ ∀ p par t, Rep h par p t → t.eval f = E p := by
  refine ⟨fun p => (treeAt h p).elim default (Tree.eval f), ?_, ?_⟩
  · intro p c hp hc
    obtain ⟨t, ht, -⟩ := hs.rep hp hc
    simp only [treeAt_eq ht, elim_some]
    obtain ⟨a, ts⟩ := t
    obtain ⟨-, c', hc', rfl, -, -, hall⟩ := ht
    cases hc.symm.trans hc'
    rw [Tree.eval]
    congr 1
    generalize hps : c.children = ps at hall
    clear hps
    induction ps generalizing ts with
    | nil =>
      cases ts with
      | nil => rfl
      | cons => exact absurd hall id
    | cons q ps ihl =>
      cases ts with
      | nil => exact absurd hall id
      | cons u us => rw [Tree.evalAll, map_cons, treeAt_eq hall.1, elim_some, ihl us hall.2]
  · intro p par t ht
    simp only [treeAt_eq ht, elim_some]

/-- A cell without children that holds no data, in the place of `o`. -/
def blank (h : Heap α) (o : Nat) : Heap (Option α) := fun q =>
  (h q).map fun c => if q = o then ⟨none, [], c.parent⟩ else ⟨some c.data, c.children, c.parent⟩

variable {o : Nat}

/-- The value of one cell may be chosen. -/
theorem Shape.exists_val_except (hs : Shape h S rank) (ho : S o) (f : α → List β → β) (b : β) :
    ∃ E : Nat → β, Val h (fun q => S q ∧ q ≠ o) f E ∧ E o = b := by
  have hblank : Shape (blank h o) S rank := by
    refine ⟨hs.null, ?_, ?_, ?_⟩
    · intro q hq
      obtain ⟨c, hc⟩ := hs.live q hq
      exact ⟨_, by rw [blank, hc, map_some]⟩
    · intro q c hq hc
      obtain ⟨d, hd⟩ := hs.live q hq
      rw [blank, hd, map_some, Option.some.injEq] at hc
      subst hc
      intro k hk
      split at hk
      · cases hk
      · obtain ⟨hkS, hlt, e, he, hpar⟩ := hs.kids q d hq hd k hk
        refine ⟨hkS, hlt, _, by rw [blank, he, map_some], ?_⟩
        split <;> exact hpar
    · intro q c hq hc
      obtain ⟨d, hd⟩ := hs.live q hq
      rw [blank, hd, map_some, Option.some.injEq] at hc
      subst hc
      split
      · exact nodup_nil
      · exact hs.nodup q d hq hd
  have : Inhabited β := ⟨b⟩
  obtain ⟨E, hE, -⟩ := hblank.exists_val fun a xs => a.elim b fun a => f a xs
  refine ⟨E, ?_, ?_⟩
  · intro q c hq hc
    rw [hE q _ hq.1 (by rw [blank, hc, map_some, if_neg hq.2])]
    rfl
  · obtain ⟨c, hc⟩ := hs.live o ho
    rw [hE o _ ho (by rw [blank, hc, map_some, if_pos rfl])]
    rfl

/-! ## Cells below others in a shape -/

namespace Shape

variable (hs : Shape h S rank)
include hs

section
variable (hp : S p)
include hp

theorem below_mem (hb : Below h p q) : S q := by
  induction hb with
  | refl => exact hp
  | step _ hc hr ih => exact (hs.kids _ _ ih hc _ hr).1

theorem below_rank (hb : Below h p q) : q = p ∨ rank q < rank p := by
  induction hb with
  | refl => exact .inl rfl
  | step hb hc hr ih =>
    have hlt := (hs.kids _ _ (hs.below_mem hp hb) hc _ hr).2.1
    rcases ih with rfl | ih
    · exact .inr hlt
    · exact .inr (lt_trans hlt ih)

theorem below_le (hb : Below h p q) : rank q ≤ rank p := by
  rcases hs.below_rank hp hb with h | h
  · rw [h]
  · exact le_of_lt h

theorem not_below_of_lt (hlt : rank p < rank q) : ¬ Below h p q :=
  fun hb => Nat.not_le_of_lt hlt (hs.below_le hp hb)

theorem below_parent (hb : Below h p q) (hne : q ≠ p) (hc : h q = some c) :
    Below h p c.parent := by
  cases hb with
  | refl => exact absurd rfl hne
  | step hb hd hr =>
    obtain ⟨-, -, c', hc', hpar⟩ := hs.kids _ _ (hs.below_mem hp hb) hd _ hr
    cases hc.symm.trans hc'
    rw [hpar]
    exact hb

theorem below_disjoint {x : Nat} (hc : h p = some c) (hq : q ∈ c.children)
    (hr : r ∈ c.children) (hne : q ≠ r) (hqx : Below h q x) (hrx : Below h r x) : False := by
  obtain ⟨hqS, hqlt, dq, hdq, hqpar⟩ := hs.kids p c hp hc q hq
  obtain ⟨hrS, hrlt, dr, hdr, hrpar⟩ := hs.kids p c hp hc r hr
  induction hqx with
  | refl =>
    -- `q` itself is below `r`, so its parent `p` is, although `p` has the higher rank
    have hb := hs.below_parent hrS hrx hne hdq
    rw [hqpar] at hb
    exact hs.not_below_of_lt hrS hrlt hb
  | step hqy hy hyx ih =>
    rename_i y z d
    obtain ⟨hzS, -, e, he, hzpar⟩ := hs.kids y d (hs.below_mem hqS hqy) hy z hyx
    by_cases hzr : z = r
    · -- `r` is below `q`, and the same argument applies
      subst hzr
      cases hdr.symm.trans he
      rw [hrpar] at hzpar
      subst hzpar
      exact hs.not_below_of_lt hqS hqlt hqy
    · have hb := hs.below_parent hrS hrx hzr he
      rw [hzpar] at hb
      exact ih hb

theorem ne_zero : p ≠ 0 := fun h0 => hs.null (h0 ▸ hp)

end

theorem restrict {S' : Nat → Prop} (hsub : ∀ p, S' p → S p)
    (hclosed : ∀ p c, S' p → h p = some c → ∀ q ∈ c.children, S' q) : Shape h S' rank where
  null h0 := hs.null (hsub _ h0)
  live p hp := hs.live p (hsub p hp)
  kids p c hp hc q hq := ⟨hclosed p c hp hc q hq, (hs.kids p c (hsub p hp) hc q hq).2⟩
  nodup p c hp hc := hs.nodup p c (hsub p hp) hc

theorem restrict_below (hp : S p) : Shape h (Below h p) rank :=
  hs.restrict (fun _ hb => hs.below_mem hp hb) fun _ _ hb hc _ hq => hb.step hc hq

theorem congr (heq : ∀ p, S p → h' p = h p) : Shape h' S rank where
  null := hs.null
  live p hp := by
    rw [heq p hp]
    exact hs.live p hp
  kids p c hp hc q hq := by
    rw [heq p hp] at hc
    obtain ⟨hq', hlt, d, hd, hpar⟩ := hs.kids p c hp hc q hq
    exact ⟨hq', hlt, d, by rw [heq q hq', hd], hpar⟩
  nodup p c hp hc := by
    rw [heq p hp] at hc
    exact hs.nodup p c hp hc

end Shape

/-! ## Building a shape cell by cell -/

/-- One more cell on top of a shape, above its children in rank. -/
theorem Shape.cons (hs : Shape h S rank) (h0 : q ≠ 0) (hc : h q = some c) (hnd : c.children.Nodup)
    (hkids : ∀ r ∈ c.children, S r ∧ rank r < rank q ∧ ∃ d, h r = some d ∧ d.parent = q) :
    Shape h (fun x => x = q ∨ S x) rank where
  null := by
    rintro (h | h)
    · exact h0 h.symm
    · exact hs.null h
  live := by
    rintro x (rfl | hx)
    · exact ⟨c, hc⟩
    · exact hs.live x hx
  kids := by
    rintro x d (rfl | hx) hd r hr
    · cases hc.symm.trans hd
      exact ⟨.inr (hkids r hr).1, (hkids r hr).2⟩
    · exact ⟨.inr (hs.kids x d hx hd r hr).1, (hs.kids x d hx hd r hr).2⟩
  nodup := by
    rintro x d (rfl | hx) hd
    · cases hc.symm.trans hd
      exact hnd
    · exact hs.nodup x d hx hd

/-- A shape whose cells lost some children. -/
theorem Shape.thin {B : Nat → Prop} (hs : Shape h S rank) (hB : ∀ q, B q → S q)
    (hcell : ∀ q c, B q → h q = some c → ∃ c', h' q = some c' ∧ c'.children.Nodup ∧ ∀ r ∈ c'.children, r ∈ c.children ∧ B r ∧
      ∀ d, h r = some d → ∃ d', h' r = some d' ∧ d'.parent = d.parent)
    : Shape h' B rank where
  null h0 := hs.null (hB 0 h0)
  live q hq := by
    obtain ⟨c, hc⟩ := hs.live q (hB q hq)
    obtain ⟨c', hc', -⟩ := hcell q c hq hc
    exact ⟨c', hc'⟩
  kids q c' hq hc' r hr := by
    obtain ⟨c, hc⟩ := hs.live q (hB q hq)
    obtain ⟨c'', hc'', -, hkids⟩ := hcell q c hq hc
    cases hc'.symm.trans hc''
    obtain ⟨hrc, hBr, hpar⟩ := hkids r hr
    obtain ⟨-, hlt, d, hd, hdpar⟩ := hs.kids q c (hB q hq) hc r hrc
    obtain ⟨d', hd', hpar'⟩ := hpar d hd
    exact ⟨hBr, hlt, d', hd', hpar'.trans hdpar⟩
  nodup q c' hq hc' := by
    obtain ⟨c, hc⟩ := hs.live q (hB q hq)
    obtain ⟨c'', hc'', hnd, -⟩ := hcell q c hq hc
    cases hc'.symm.trans hc''
    exact hnd

theorem Below.congr (hb : Below h p q) {K : Nat → Prop} (hp : K p)
    (hK : ∀ x c, K x → h x = some c → h' x = some c ∧ ∀ y ∈ c.children, K y) : Below h' p q := by
  have hall : Below h' p q ∧ K q := by
    induction hb with
    | refl => exact ⟨.refl, hp⟩
    | step _ hc hr ih =>
      obtain ⟨hc', hkids⟩ := hK _ _ ih.2 hc
      exact ⟨ih.1.step hc' hr, hkids _ hr⟩
  exact hall.1

namespace Rooted

theorem eq_root (hr : Rooted h S rank root) (hp : S p) (hc : h p = some c) (h0 : c.parent = 0) :
    p = root := by
  by_contra hne
  exact hr.null (h0 ▸ (hr.up p c hp hc hne).1)

theorem parent_mem (hr : Rooted h S rank root) (hp : S p) (hc : h p = some c) (h0 : c.parent ≠ 0) :
    S c.parent ∧ rank p < rank c.parent ∧ ∃ d, h c.parent = some d ∧ p ∈ d.children := by
  have hne : p ≠ root := by
    rintro rfl
    exact h0 (hr.top c hc)
  obtain ⟨hS, d, hd, hmem⟩ := hr.up p c hp hc hne
  exact ⟨hS, (hr.kids _ d hS hd p hmem).2.1, d, hd, hmem⟩

theorem parent_ne (hr : Rooted h S rank root) (hp : S p) (hc : h p = some c) (hq : S q) (hle : rank q ≤ rank p) :
    c.parent ≠ q := by
  rintro rfl
  exact Nat.not_lt_of_le hle (hr.parent_mem hp hc (hr.ne_zero hq)).2.1

end Rooted

/-! ## The way up -/

/-- All parents from `p` on are cells, up to one without parent. -/
inductive Chain (h : Heap α) : Nat → Prop
  | top {p : Nat} {c : Cell α} : h p = some c → c.parent = 0 → Chain h p
  | step {p : Nat} {c : Cell α} : h p = some c → Chain h c.parent → Chain h p

theorem Chain.live (hc : Chain h p) : ∃ c, h p = some c := by
  cases hc with
  | top hc _ => exact ⟨_, hc⟩
  | step hc _ => exact ⟨_, hc⟩

theorem Chain.parent (hch : Chain h p) (hc : h p = some c) (h0 : c.parent ≠ 0) : Chain h c.parent := by
  cases hch with
  | top hc' hz =>
    cases hc.symm.trans hc'
    exact absurd hz h0
  | step hc' hch =>
    cases hc.symm.trans hc'
    exact hch

/-- The way up stays when its cells keep their parents. -/
theorem Chain.mono (hch : Chain h p) {A : Nat → Prop} (hp : A p)
    (hA : ∀ q c, A q → h q = some c → (∃ c', h' q = some c' ∧ c'.parent = c.parent) ∧ (c.parent ≠ 0 → A c.parent)) :
    Chain h' p := by
  induction hch with
  | top hc h0 =>
    obtain ⟨⟨c', hc', hpar⟩, -⟩ := hA _ _ hp hc
    exact .top hc' (hpar.trans h0)
  | step hc hch ih =>
    obtain ⟨⟨c', hc', hpar⟩, hup⟩ := hA _ _ hp hc
    by_cases h0 : c'.parent = 0
    · exact .top hc' h0
    · refine .step hc' ?_
      rw [hpar] at h0 ⊢
      exact ih (hup h0)

/-- A cell may change everything but its parent. -/
theorem Chain.update {c' : Cell α} (hch : Chain h p) (hc : h q = some c)
    (hpar : c'.parent = c.parent) : Chain (Function.update h q (some c')) p := by
  refine hch.mono (A := fun _ => True) trivial ?_
  intro x d _ hd
  refine ⟨?_, fun _ => trivial⟩
  by_cases hx : x = q
  · subst hx
    cases hc.symm.trans hd
    exact ⟨c', Function.update_self .., hpar⟩
  · exact ⟨d, by rw [Function.update_of_ne hx, hd], rfl⟩

theorem Rooted.chain (hr : Rooted h S rank root) (hp : S p) : Chain h p := by
  induction hn : rank root - rank p using Nat.strongRecOn generalizing p with
  | ind n ih =>
    obtain ⟨c, hc⟩ := hr.live p hp
    by_cases h0 : c.parent = 0
    · exact .top hc h0
    · obtain ⟨hS, hlt, -⟩ := hr.parent_mem hp hc h0
      have hle := hr.le_top _ hS
      exact .step hc (ih _ (by omega) hS rfl)

theorem Rooted.mem_below (hr : Rooted h S rank root) (hp : S p) : Below h root p := by
  induction hn : rank root - rank p using Nat.strongRecOn generalizing p with
  | ind n ih =>
    obtain ⟨c, hc⟩ := hr.live p hp
    by_cases h0 : c.parent = 0
    · rw [hr.eq_root hp hc h0]
      exact .refl
    · obtain ⟨hS, hlt, d, hd, hmem⟩ := hr.parent_mem hp hc h0
      have hle := hr.le_top _ hS
      exact (ih _ (by omega) hS rfl).step hd hmem

/-! ## Replacing a subtree -/

namespace Splice

/-- Where the new tree starts. -/
def newRoot (root o p : Nat) : Nat := if o = root then p else root

theorem newRoot_self (root o : Nat) : newRoot root o o = root := by
  unfold newRoot
  split
  · rename_i h
    exact h
  · rfl

end Splice

section
variable (hr : Rooted h S rank root)
include hr

theorem Rooted.not_below_root (ho : S o) (hne : o ≠ root) : ¬ Below h o root := by
  intro hb
  rcases hr.toShape.below_rank ho hb with h | h
  · exact hne h.symm
  · exact absurd (hr.le_top o ho) (Nat.not_le_of_lt h)

theorem Rooted.newRoot_eq {co : Cell α} (ho : S o) (hco : h o = some co) (p : Nat) :
    Splice.newRoot root o p = if co.parent = 0 then p else root := by
  unfold Splice.newRoot
  by_cases h0 : co.parent = 0
  · rw [if_pos h0, if_pos (hr.eq_root ho hco h0)]
  · rw [if_neg h0, if_neg]
    rintro rfl
    exact h0 (hr.top co hco)

/-- **Another tree in the place of the one at `o`**: the value of the whole is that of the cells outside. -/
theorem Rooted.replant {co : Cell α} (ho : S o) (hco : h o = some co)
    (ht : Rep h' co.parent p t) (hp : S p → Below h o p)
    (hout : ∀ q d, h q = some d → S q → ¬ Below h o q →
      h' q = some { d with children := if q = co.parent then d.children.map fun x => if x = o then p else x else d.children })
    : ∃ t', Rep h' 0 (Splice.newRoot root o p) t' ∧ ∀ (β : Type) (f : α → List β → β) (E : Nat → β),
      Val h (fun q => S q ∧ ¬ Below h o q) f E → t.eval f = E o → t'.eval f = E root := by
  have hs := hr.toShape
  -- the cells outside, by their rank
  have hall : ∀ n q d, rank q = n → S q → ¬ Below h o q → h q = some d → ∃ t', Rep h' d.parent q t' ∧
      ∀ i : { x : (β : Type) × (α → List β → β) × (Nat → β) //
        Val h (fun q => S q ∧ ¬ Below h o q) x.2.1 x.2.2 ∧ t.eval x.2.1 = x.2.2 o }, t'.eval i.1.2.1 = i.1.2.2 q := by
    intro n
    induction n using Nat.strongRecOn with
    | ind n ih =>
      intro q d hn hq hb hd
      have hchild : ∀ x ∈ d.children, x ≠ o → S x ∧ ¬ Below h o x ∧ x ≠ p := by
        intro x hx hxo
        obtain ⟨hxS, -, c, hc, hpar⟩ := hs.kids q d hq hd x hx
        have hbx : ¬ Below h o x := fun hbx => hb (hpar ▸ hs.below_parent ho hbx hxo hc)
        exact ⟨hxS, hbx, fun h => hbx (h ▸ hp (h ▸ hxS))⟩
      have hkids : (if q = co.parent then d.children.map fun x => if x = o then p else x else d.children) =
          d.children.map fun x => if x = o then p else x := by
        split
        · rfl
        · rename_i hne
          refine (map_congr_left ?_ |>.trans (map_id _)).symm
          intro x hx
          refine if_neg fun hxo => hne ?_
          obtain ⟨-, -, c, hc, hpar⟩ := hs.kids q d hq hd x hx
          rw [hxo, hco] at hc
          cases hc
          exact hpar.symm
      have hcell := hout q d hd hq hb
      rw [hkids] at hcell
      obtain ⟨ts, hts, htse⟩ := repAll_of (h := h') (f := fun i : { x : (β : Type) × (α → List β → β) × (Nat → β) //
          Val h (fun q => S q ∧ ¬ Below h o q) x.2.1 x.2.2 ∧ t.eval x.2.1 = x.2.2 o } => i.1.2.1)
          (g := fun i r => if r = p then i.1.2.2 o else i.1.2.2 r) q (d.children.map fun x => if x = o then p else x) (by
        intro r hrm
        obtain ⟨x, hx, rfl⟩ := mem_map.mp hrm
        obtain ⟨hxS, hlt, c, hc, hpar⟩ := hs.kids q d hq hd x hx
        by_cases hxo : x = o
        · subst hxo
          cases hco.symm.trans hc
          rw [hpar] at ht
          simp only [if_true]
          exact ⟨t, ht, fun i => i.2.2⟩
        · obtain ⟨-, hbx, hxp⟩ := hchild x hx hxo
          obtain ⟨t', ht', hte⟩ := ih (rank x) (hn ▸ hlt) x c rfl hxS hbx hc
          rw [hpar] at ht'
          simp only [if_neg hxo, if_neg hxp]
          exact ⟨t', ht', hte⟩)
      refine ⟨.node d.data ts, ⟨hs.ne_zero hq, _, hcell, rfl, rfl, ?_, hts⟩, ?_⟩
      · refine (hs.nodup q d hq hd).map_on ?_
        intro x hx y hy hxy
        by_cases hxo : x = o <;> by_cases hyo : y = o
        · exact hxo.trans hyo.symm
        · rw [if_pos hxo, if_neg hyo] at hxy
          exact absurd hxy.symm (hchild y hy hyo).2.2
        · rw [if_neg hxo, if_pos hyo] at hxy
          exact absurd hxy (hchild x hx hxo).2.2
        · rwa [if_neg hxo, if_neg hyo] at hxy
      · intro i
        rw [Tree.eval, htse i, i.2.1 q d ⟨hq, hb⟩ hd, map_map]
        refine congrArg _ (map_congr_left ?_)
        intro x hx
        simp only [Function.comp_apply]
        by_cases hxo : x = o
        · rw [if_pos hxo, if_pos rfl, hxo]
        · rw [if_neg hxo, if_neg (hchild x hx hxo).2.2]
  unfold Splice.newRoot
  by_cases hor : o = root
  · subst hor
    rw [hr.top co hco] at ht
    rw [if_pos rfl]
    exact ⟨t, ht, fun β f E _ h => h⟩
  · have hb := hr.not_below_root ho hor
    obtain ⟨d, hd⟩ := hs.live root hr.mem
    obtain ⟨t', ht', hte⟩ := hall _ root d rfl hr.mem hb hd
    rw [hr.top d hd] at ht'
    rw [if_neg hor]
    exact ⟨t', ht', fun β f E hE heq => hte ⟨⟨β, f, E⟩, hE, heq⟩⟩

/-- A tree with another root has no cell of the old one whose way up is as before. -/
theorem Rooted.not_below_new (ht : Rep h' 0 q t) (hq : ¬ S q) (ho : S o)
    (hup : ∀ x c, S x → Below h x o → h x = some c → ∃ c', h' x = some c' ∧ c'.parent = c.parent) : ¬ Below h' q o := by
  have hall : ∀ n x, rank root - rank x = n → S x → Below h x o → ¬ Below h' q x := by
    intro n
    induction n using Nat.strongRecOn with
    | ind n ih =>
      intro x hn hx hxo hb
      obtain ⟨c, hc⟩ := hr.live x hx
      obtain ⟨c', hc', hpar⟩ := hup x c hx hxo hc
      have hbp := ht.shape.below_parent .refl hb (fun h => hq (h ▸ hx)) hc'
      rw [hpar] at hbp
      by_cases h0 : c.parent = 0
      · exact ht.shape.null (h0 ▸ hbp)
      · obtain ⟨hS, hlt, d, hd, hmem⟩ := hr.parent_mem hx hc h0
        have hle := hr.le_top _ hS
        exact ih _ (by omega) _ rfl hS ((Below.refl.step hd hmem).trans hxo) hbp
  exact hall _ o rfl ho .refl

end

theorem map_replace_self (o : Nat) (l : List Nat) : (l.map fun x => if x = o then o else x) = l := by
  refine (map_congr_left ?_).trans (map_id l)
  intro x _
  split
  · rename_i hx
    exact hx.symm
  · rfl

/-! ## Values after a rewrite -/

/-- In `h'` a tree stands at `q` under `par`, with the value `G` in terms of the values that the cells of `S` have in `h`. -/
def Now {ι : Type} (f : ι → α → List β → β) (h : Heap α) (S : Nat → Prop) (h' : Heap α) (par q : Nat)
    (G : ι → (Nat → β) → β) : Prop :=
  ∃ t, Rep h' par q t ∧ ∀ i E, Val h S (f i) E → t.eval (f i) = G i E

namespace Now

variable {ι : Type} {f : ι → α → List β → β}
  {G : ι → (Nat → β) → β}

/-- A subtree that was moved as a whole. -/
theorem keep (hs : Shape h S rank) (hq : S q) (hc : h q = some c) (hq' : h' q = some { c with parent := par })
    (hsame : ∀ r, Below h q r → r ≠ q → h' r = h r) : Now f h S h' par q fun _ E => E q := by
  obtain ⟨t, ht, hte⟩ := hs.rep hq hc
  exact ⟨t, ht.move hc hq' hsame, fun i E hE => hte β (f i) E hE⟩

section
variable (hn : Now f h S h' par q G)
include hn

theorem frame {h₂ : Heap α} (hsame : ∀ r, Below h' q r → h₂ r = h' r) : Now f h S h₂ par q G := by
  obtain ⟨t, ht, hte⟩ := hn
  exact ⟨t, ht.congr hsame, hte⟩

theorem cell : ∃ c, h' q = some c ∧ c.parent = par := by
  obtain ⟨⟨a, ts⟩, ⟨-, c, hc, -, hpar, -⟩, -⟩ := hn
  exact ⟨c, hc, hpar⟩

/-- A root is below no other tree. -/
theorem eq_of_below {G' : ι → (Nat → β) → β} (hr : Now f h S h' 0 r G')
    (hb : Below h' q r) : r = q := by
  obtain ⟨t, ht, -⟩ := hn
  obtain ⟨d, hd, hpar⟩ := hr.cell
  by_contra hne
  have hup := ht.shape.below_parent .refl hb hne hd
  rw [hpar] at hup
  exact ht.shape.null hup

end

section
variable (h0 : q ≠ 0) (hc : h' q = some c) (hnd : c.children.Nodup)
include h0 hc hnd

theorem nodes {L : List (ι → (Nat → β) → β)}
    (hkids : List.Forall₂ (Now f h S h' q) c.children L) :
    Now f h S h' c.parent q fun i E => f i c.data (L.map fun G => G i E) := by
  have hall : ∀ {ps : List Nat} {L : List (ι → (Nat → β) → β)}, List.Forall₂ (Now f h S h' q) ps L →
      ∃ ts, RepAll h' q ps ts ∧ ∀ i E, Val h S (f i) E → Tree.evalAll (f i) ts = L.map fun G => G i E := by
    intro ps L hps
    induction hps with
    | nil => exact ⟨[], trivial, fun _ _ _ => rfl⟩
    | cons hp _ ih =>
      obtain ⟨t, ht, hte⟩ := hp
      obtain ⟨ts, hts, htse⟩ := ih
      exact ⟨t :: ts, ⟨ht, hts⟩, fun i E hE => by rw [Tree.evalAll, hte i E hE, htse i E hE, map_cons]⟩
  obtain ⟨ts, hts, htse⟩ := hall hkids
  exact ⟨.node c.data ts, ⟨h0, c, hc, rfl, rfl, hnd, hts⟩, fun i E hE => by rw [Tree.eval, htse i E hE]⟩

theorem node {g : ι → (Nat → β) → Nat → β}
    (hkids : ∀ r ∈ c.children, Now f h S h' q r fun i E => g i E r) :
    Now f h S h' c.parent q fun i E => f i c.data (c.children.map (g i E)) := by
  have hn := nodes (L := c.children.map fun r i E => g i E r) h0 hc hnd
    (forall₂_map_right_iff.mpr (forall₂_same.mpr hkids))
  simpa only [map_map, Function.comp_def] using hn

end

theorem congr {G' : ι → (Nat → β) → β} (hn : Now f h S h' par q G) (hG : ∀ i E, Val h S (f i) E → G i E = G' i E) :
    Now f h S h' par q G' := by
  obtain ⟨t, ht, hte⟩ := hn
  exact ⟨t, ht, fun i E hE => (hte i E hE).trans (hG i E hE)⟩

end Now

/-! ## Loops over nodes -/

/-- What each turn keeps, the loop keeps. -/
theorem foldlM_run {σ : Type} {f : σ → α → Option σ} {P : α → Prop} {I : List α → σ → Prop}
    (hstep : ∀ {done s x}, I done s → (∀ y ∈ done, P y) → P x → x ∉ done → ∃ s', f s x = some s' ∧ I (done ++ [x]) s') {s : σ}
    (hinit : I [] s) {xs : List α} (hP : ∀ x ∈ xs, P x) (hnd : xs.Nodup) : ∃ s', xs.foldlM f s = some s' ∧ I xs s' := by
  induction xs using List.reverseRecOn with
  | nil => exact ⟨s, rfl, hinit⟩
  | append_singleton xs x ih =>
    obtain ⟨hnd, -, hnew⟩ := nodup_append.mp hnd
    have hPs : ∀ y ∈ xs, P y := (forall_mem_append.mp hP).1
    obtain ⟨s₁, h₁, hI₁⟩ := ih hPs hnd
    obtain ⟨s₂, h₂, hI₂⟩ := hstep hI₁ hPs (hP x (mem_append_right _ mem_cons_self))
      fun hx => hnew x hx x mem_cons_self rfl
    refine ⟨s₂, ?_, hI₂⟩
    rw [foldlM_append, h₁]
    exact (bind_pure (f s₁ x)).trans h₂

/-! ## A rank within the addresses -/

section Card

open Classical

/-- The number of cells below `p` among the first `n` addresses. -/
noncomputable def weight (h : Heap α) (n : Nat) (p : Nat) : Nat := ((Finset.range n).filter (Below h p)).card

theorem Shape.weight (hs : Shape h S rank)
    (hn : ∀ p, S p → p < n) : Shape h S (weight h n) where
  null := hs.null
  live := hs.live
  nodup := hs.nodup
  kids p c hp hc q hq := by
    obtain ⟨hq', hlt, hd⟩ := hs.kids p c hp hc q hq
    refine ⟨hq', Finset.card_lt_card ?_, hd⟩
    rw [Finset.ssubset_iff_of_subset]
    · refine ⟨p, Finset.mem_filter.mpr ⟨Finset.mem_range.mpr (hn p hp), .refl⟩, fun hmem => ?_⟩
      exact hs.not_below_of_lt hq' hlt (Finset.mem_filter.mp hmem).2
    · intro x hx
      obtain ⟨hxn, hxb⟩ := Finset.mem_filter.mp hx
      exact Finset.mem_filter.mpr ⟨hxn, (Below.refl.step hc hq).trans hxb⟩

theorem Shape.weight_lt (hs : Shape h S rank) (hp : S p)
    (hpn : p < n) : PtrTree.weight h n p < n := by
  have hsub : (Finset.range n).filter (Below h p) ⊂ Finset.range n := by
    refine (Finset.filter_ssubset).mpr ⟨0, Finset.mem_range.mpr (Nat.zero_lt_of_lt hpn), fun hb => ?_⟩
    exact hs.null (hs.below_mem hp hb)
  have := Finset.card_lt_card hsub
  rwa [Finset.card_range] at this

end Card

end PtrTree
end Manticore

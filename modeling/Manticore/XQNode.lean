import Manticore.PtrTree
import Mathlib.Data.Finset.Card
/-!
# XQNode — query nodes in memory

`XQNode_t` with its operator, its words, its children and its parent, and the surgery every rewrite rule is made of.
Reading or writing a node that was freed has no result.  The two hash caches stand beside the nodes: `Rehash` forgets
them on the way up and stops at the first node that has none.
-/
namespace Manticore
namespace XQ

open PtrTree
open List
open Option (bind_eq_bind bind_some map_some some_ne_none)
open Function (update_of_ne update_self)
export PtrTree (Tree Rep)

/-- `XQOperator_e`. -/
inductive Op where
  | and | or | maybe | not | andNot | before | phrase | proximity | quorum | near | notNear | sentence | paragraph
  | null | scan
deriving DecidableEq, Repr

/-- `m_eOp`, `m_dWords` and `m_iOpArg`. -/
structure Data (κ : Type) where
  op    : Op := .and
  words : List κ := []
  opArg : Int := 0

abbrev Node (κ : Type) := Cell (Data κ)

structure Store (κ : Type) where
  nodes : Heap (Data κ)
  next  : Nat
  /-- `m_iFuzzyHash` and `m_iMagicHash`, zero when not computed. -/
  fuzzy : Nat → Nat
  magic : Nat → Nat
  fresh : ∀ p : Nat, nodes p ≠ none → 0 < p ∧ p < next
  start : 0 < next

variable {κ : Type}

namespace Store

variable {p : Nat} {c : Node κ}

theorem lt_next (s : Store κ) (h : s.nodes p = some c) : p < s.next :=
  (s.fresh p (by rw [h]; exact some_ne_none c)).2

theorem lt_of_mem (s : Store κ) {S : Nat → Prop} {rank : Nat → Nat} (hs : Shape s.nodes S rank) (hp : S p) :
    p < s.next := by
  obtain ⟨c, hc⟩ := hs.live p hp
  exact s.lt_next hc

theorem pos (s : Store κ) (h : s.nodes p = some c) : 0 < p :=
  (s.fresh p (by rw [h]; exact some_ne_none c)).1

def set (s : Store κ) (p : Nat) (c : Node κ) : Store κ :=
  if h : 0 < p ∧ p < s.next then
    { s with
      nodes := Function.update s.nodes p (some c)
      fresh := by
        intro q hq
        by_cases hqp : q = p
        · exact hqp ▸ h
        · rw [Function.update_of_ne hqp] at hq
          exact s.fresh q hq }
  else s

def erase (s : Store κ) (p : Nat) : Store κ :=
  { s with
    nodes := Function.update s.nodes p none
    fresh := by
      intro q hq
      by_cases hqp : q = p
      · rw [hqp, Function.update_self] at hq
        exact absurd rfl hq
      · rw [Function.update_of_ne hqp] at hq
        exact s.fresh q hq }

/-- A node at a new address, with no hash yet. -/
def alloc (s : Store κ) (c : Node κ) : Store κ :=
  { nodes := Function.update s.nodes s.next (some c)
    next := s.next + 1
    fuzzy := Function.update s.fuzzy s.next 0
    magic := Function.update s.magic s.next 0
    fresh := by
      intro q hq
      have hpos := s.start
      by_cases hqp : q = s.next
      · omega
      · rw [Function.update_of_ne hqp] at hq
        have := s.fresh q hq
        omega
    start := Nat.succ_pos _ }

/-- Both hashes of `p` are unset. -/
def forget (s : Store κ) (p : Nat) : Store κ :=
  { s with fuzzy := Function.update s.fuzzy p 0, magic := Function.update s.magic p 0 }

section
variable (s : Store κ)
include s

@[simp] theorem nodes_erase (p : Nat) : (s.erase p).nodes = Function.update s.nodes p none := rfl
@[simp] theorem nodes_alloc (c : Node κ) : (s.alloc c).nodes = Function.update s.nodes s.next (some c) := rfl
@[simp] theorem next_alloc (c : Node κ) : (s.alloc c).next = s.next + 1 := rfl
theorem nodes_set (h : s.nodes p = some c) (d : Node κ) :
    (s.set p d).nodes = Function.update s.nodes p (some d) := by
  rw [set, dif_pos ⟨s.pos h, s.lt_next h⟩]

@[simp] theorem next_set (p : Nat) (d : Node κ) : (s.set p d).next = s.next := by
  unfold set
  split
  · rfl
  · rfl

end

end Store

/-! ## Surgery -/

/-- A change to the fields of the node at `p`. -/
def modify (s : Store κ) (p : Nat) (f : Node κ → Node κ) : Option (Store κ) := (s.nodes p).map fun c => s.set p (f c)

/-- `XQNode_t::Rehash`; every turn but the last forgets the hashes of one node. -/
def rehashGo : Nat → Store κ → Nat → Option (Store κ)
  | 0, s, _ => some s
  | k + 1, s, p => do
    let c ← s.nodes p
    if s.fuzzy p = 0 ∧ s.magic p = 0 then return s
    if c.parent = 0 then return s.forget p
    rehashGo k (s.forget p) c.parent

def rehash (s : Store κ) (p : Nat) : Option (Store κ) := rehashGo s.next s p

def setParent (s : Store κ) (p par : Nat) : Option (Store κ) := modify s p fun c => { c with parent := par }

/-- A write through `dChildren()`, which leaves the hashes alone. -/
def setChildren (s : Store κ) (p : Nat) (f : List Nat → List Nat) : Option (Store κ) :=
  modify s p fun c => { c with children := f c.children }

/-- `XQNode_t::WithChildren`. -/
def withChildren (s : Store κ) (p : Nat) (f : List Nat → List Nat) : Option (Store κ) := do
  let s ← setChildren s p f
  rehash s p

/-- `XQNode_t::AddNewChild`. -/
def addNewChild (s : Store κ) (p q : Nat) : Option (Store κ) := do
  let s ← setParent s q p
  let s ← setChildren s p (· ++ [q])
  rehash s p

/-- `XQNode_t::RemoveChild`. -/
def removeChild (s : Store κ) (p q : Nat) : Option (Store κ) := do
  let s ← rehash s p
  setChildren s p (·.erase q)

/-- `XQNode_t::SetOp`, the operator only. -/
def setOp (s : Store κ) (p : Nat) (op : Op) : Option (Store κ) := do
  let s ← modify s p fun c => { c with data := { c.data with op := op } }
  rehash s p

/-- `XQNode_t::SetOp` with the children. -/
def setOpArgs (s : Store κ) (p : Nat) (op : Op) (args : List Nat) : Option (Store κ) := do
  let s ← setOp s p op
  let s ← setChildren s p fun _ => args
  args.foldlM (fun s q => setParent s q p) s

/-- `new XQNode_t ( XQLimitSpec_t() )`; its address is the old `next`. -/
def newNode (s : Store κ) : Store κ := s.alloc { data := {} }

/-- `XQNode_t::~XQNode_t` after `SafeDelete`: the children first, null pointers skipped. -/
def free : Nat → Store κ → Nat → Option (Store κ)
  | 0, _, _ => none
  | k + 1, s, p =>
    if p = 0 then some s
    else do
      let c ← s.nodes p
      let s ← c.children.foldlM (free k) s
      return s.erase p

/-- `SafeDelete`.  No way down is longer than the number of addresses. -/
def delete (s : Store κ) (p : Nat) : Option (Store κ) := free s.next s p

def deleteUnless (keep : Bool) (s : Store κ) (x : Nat) : Option (Store κ) := if keep then some s else delete s x

/-- `XQNode_t::Clone`. -/
def cloneGo : Nat → Store κ → Nat → Option (Store κ × Nat)
  | 0, _, _ => none
  | k + 1, s, p => do
    let c ← s.nodes p
    let s' ← c.children.foldlM (fun s' q => do
      let (s', q') ← cloneGo k s' q
      addNewChild s' s.next q') (s.alloc { data := c.data })
    return (s', s.next)

def clone (s : Store κ) (p : Nat) : Option (Store κ × Nat) := cloneGo s.next s p

/-- The first `old` becomes `new`. -/
def replaceFirst (old new : Nat) : List Nat → List Nat
  | [] => []
  | q :: qs => if q = old then new :: qs else q :: replaceFirst old new qs

/-- `CSphTransformation::ReplaceNode`. -/
def replaceNode (s : Store κ) (old new : Nat) : Option (Store κ) := do
  let c ← s.nodes old
  if c.parent = 0 then return s
  let d ← s.nodes c.parent
  if old ∉ d.children then return s
  let s ← setChildren s c.parent (replaceFirst old new)
  let s ← setParent s new c.parent
  rehash s c.parent

/-! ## What the surgery does -/

variable {s : Store κ} {p : Nat} {c : Node κ} {S : Nat → Prop} {src : Nat → Nat}

theorem modify_spec (h : s.nodes p = some c) (f : Node κ → Node κ) :
    ∃ s', modify s p f = some s' ∧ s'.nodes = Function.update s.nodes p (some (f c)) ∧ s'.next = s.next :=
  ⟨s.set p (f c), by rw [modify, h, map_some], s.nodes_set h _, s.next_set p _⟩

theorem rehashGo_spec (k : Nat) : ∀ {s : Store κ} {p : Nat}, Chain s.nodes p →
    ∃ s', rehashGo k s p = some s' ∧ s'.nodes = s.nodes ∧ s'.next = s.next := by
  induction k with
  | zero => exact fun {s p} _ => ⟨s, rfl, rfl, rfl⟩
  | succ k ih =>
    intro s p hch
    obtain ⟨c, hc⟩ := hch.live
    rw [rehashGo, hc]
    simp only [bind_eq_bind, bind_some]
    split
    · exact ⟨s, rfl, rfl, rfl⟩
    · split
      · exact ⟨s.forget p, rfl, rfl, rfl⟩
      · rename_i h0
        exact ih (s := s.forget p) (hch.parent hc h0)

theorem rehash_spec (h : Chain s.nodes p) :
    ∃ s', rehash s p = some s' ∧ s'.nodes = s.nodes ∧ s'.next = s.next := rehashGo_spec _ h

section
variable (h : s.nodes p = some c)
include h

theorem setParent_spec (par : Nat) :
    ∃ s', setParent s p par = some s' ∧ s'.nodes = Function.update s.nodes p (some { c with parent := par }) ∧
      s'.next = s.next := modify_spec h _

theorem setChildren_spec (f : List Nat → List Nat) :
    ∃ s', setChildren s p f = some s' ∧ s'.nodes = Function.update s.nodes p (some { c with children := f c.children }) ∧
      s'.next = s.next := modify_spec h _

theorem withChildren_spec (hch : Chain s.nodes p) (f : List Nat → List Nat) :
    ∃ s', withChildren s p f = some s' ∧ s'.nodes = Function.update s.nodes p (some { c with children := f c.children }) ∧
      s'.next = s.next := by
  obtain ⟨s₁, h₁, hn₁, hx₁⟩ := setChildren_spec h f
  obtain ⟨s₂, h₂, hn₂, hx₂⟩ := rehash_spec (s := s₁) (p := p) (by rw [hn₁]; exact hch.update h rfl)
  exact ⟨s₂, by rw [withChildren, h₁]; exact h₂, hn₂.trans hn₁, hx₂.trans hx₁⟩

theorem removeChild_spec (hch : Chain s.nodes p) (q : Nat) : ∃ s', removeChild s p q = some s' ∧
      s'.nodes = Function.update s.nodes p (some { c with children := c.children.erase q }) ∧ s'.next = s.next := by
  obtain ⟨s₁, h₁, hn₁, hx₁⟩ := rehash_spec hch
  obtain ⟨s₂, h₂, hn₂, hx₂⟩ := setChildren_spec (hn₁ ▸ h) (·.erase q)
  exact ⟨s₂, by rw [removeChild, h₁]; exact h₂, by rw [hn₂, hn₁], hx₂.trans hx₁⟩

theorem setOp_spec (hch : Chain s.nodes p) (op : Op) : ∃ s', setOp s p op = some s' ∧
      s'.nodes = Function.update s.nodes p (some { c with data := { c.data with op := op } }) ∧ s'.next = s.next := by
  obtain ⟨s₁, h₁, hn₁, hx₁⟩ := modify_spec h fun c => { c with data := { c.data with op := op } }
  obtain ⟨s₂, h₂, hn₂, hx₂⟩ := rehash_spec (s := s₁) (p := p) (by rw [hn₁]; exact hch.update h rfl)
  exact ⟨s₂, by rw [setOp, h₁]; exact h₂, hn₂.trans hn₁, hx₂.trans hx₁⟩

end

theorem addNewChild_spec {q : Nat} {d : Node κ} (hp : s.nodes p = some c) (hq : s.nodes q = some d) (hne : p ≠ q)
    (hch : Chain (Function.update s.nodes q (some { d with parent := p })) p) :
    ∃ s', addNewChild s p q = some s' ∧ s'.nodes = Function.update (Function.update s.nodes q (some { d with parent := p })) p
      (some { c with children := c.children ++ [q] }) ∧ s'.next = s.next := by
  obtain ⟨s₁, h₁, hn₁, hx₁⟩ := setParent_spec hq p
  have hp₁ : s₁.nodes p = some c := by rw [hn₁, update_of_ne hne, hp]
  obtain ⟨s₂, h₂, hn₂, hx₂⟩ := setChildren_spec hp₁ (· ++ [q])
  obtain ⟨s₃, h₃, hn₃, hx₃⟩ := rehash_spec (s := s₂) (p := p) (by rw [hn₂]; exact (hn₁ ▸ hch).update hp₁ rfl)
  refine ⟨s₃, ?_, by rw [hn₃, hn₂, hn₁], by omega⟩
  simp only [addNewChild, h₁, h₂, bind_eq_bind, bind_some]
  exact h₃

theorem setParents_spec (par : Nat) (args : List Nat) : ∀ {s : Store κ}, (∀ q ∈ args, ∃ d, s.nodes q = some d) →
    ∃ s', args.foldlM (fun s q => setParent s q par) s = some s' ∧ s'.next = s.next ∧
      ∀ q, s'.nodes q = if q ∈ args then (s.nodes q).map fun d => { d with parent := par } else s.nodes q := by
  induction args with
  | nil => exact fun {s} _ => ⟨s, rfl, rfl, fun q => (if_neg not_mem_nil).symm⟩
  | cons a args ih =>
    intro s hlive
    obtain ⟨d, hd⟩ := hlive a mem_cons_self
    obtain ⟨s₁, h₁, hn₁, hx₁⟩ := setParent_spec hd par
    have hlive₁ : ∀ q ∈ args, ∃ d, s₁.nodes q = some d := by
      intro q hq
      rw [hn₁]
      by_cases hqa : q = a
      · subst hqa
        exact ⟨_, update_self ..⟩
      · rw [update_of_ne hqa]
        exact hlive q (mem_cons_of_mem _ hq)
    obtain ⟨s₂, h₂, hx₂, hn₂⟩ := ih hlive₁
    refine ⟨s₂, ?_, hx₂.trans hx₁, ?_⟩
    · rw [foldlM_cons, h₁]
      exact h₂
    · intro q
      rw [hn₂ q, hn₁]
      by_cases hqa : q = a
      · subst hqa
        rw [update_self, hd, if_pos mem_cons_self]
        split
        · rfl
        · rfl
      · rw [update_of_ne hqa]
        by_cases hq : q ∈ args
        · rw [if_pos hq, if_pos (mem_cons_of_mem _ hq)]
        · rw [if_neg hq, if_neg]
          exact fun h => (mem_cons.mp h).elim hqa hq

theorem setOpArgs_spec (op : Op) (args : List Nat) (hp : s.nodes p = some c) (hch : Chain s.nodes p) (hargs : p ∉ args)
    (hlive : ∀ q ∈ args, ∃ d, s.nodes q = some d) : ∃ s', setOpArgs s p op args = some s' ∧ s'.next = s.next ∧
      s'.nodes p = some { data := { c.data with op := op }, children := args, parent := c.parent } ∧
      (∀ q d, q ∈ args → s.nodes q = some d → s'.nodes q = some { d with parent := p }) ∧
      ∀ q, q ≠ p → q ∉ args → s'.nodes q = s.nodes q := by
  obtain ⟨s₁, h₁, hn₁, hx₁⟩ := setOp_spec hp hch op
  have hp₁ : s₁.nodes p = some { c with data := { c.data with op := op } } := by rw [hn₁, update_self]
  obtain ⟨s₂, h₂, hn₂, hx₂⟩ := setChildren_spec hp₁ fun _ => args
  have hback : ∀ q, q ≠ p → s₂.nodes q = s.nodes q := by
    intro q hq
    rw [hn₂, update_of_ne hq, hn₁, update_of_ne hq]
  obtain ⟨s₃, h₃, hx₃, hn₃⟩ := setParents_spec p args (s := s₂) (by
    intro q hq
    rw [hback q fun h => hargs (h ▸ hq)]
    exact hlive q hq)
  refine ⟨s₃, ?_, by omega, ?_, ?_, ?_⟩
  · simp only [setOpArgs, h₁, h₂, bind_eq_bind, bind_some]
    exact h₃
  · rw [hn₃, if_neg hargs, hn₂, update_self]
  · intro q d hq hd
    rw [hn₃, if_pos hq, hback q fun h => hargs (h ▸ hq), hd, map_some]
  · intro q hqp hq
    rw [hn₃, if_neg hq, hback q hqp]

/-! ### Deleting a subtree -/

theorem free_spec (k : Nat) : ∀ {s : Store κ} {S : Nat → Prop} {rank : Nat → Nat} {p : Nat}, Shape s.nodes S rank → S p →
    rank p < k → ∃ s', free k s p = some s' ∧ s'.next = s.next ∧ (∀ q, Below s.nodes p q → s'.nodes q = none) ∧
      ∀ q, ¬ Below s.nodes p q → s'.nodes q = s.nodes q := by
  induction k with
  | zero => exact fun _ _ hk => absurd hk (Nat.not_lt_zero _)
  | succ k ih =>
    intro s S rank p hs hp hk
    obtain ⟨c, hc⟩ := hs.live p hp
    have hkids := hs.kids p c hp hc
    -- the children are freed one by one; those still to come keep their subtrees
    have hfold : ∀ (qs : List Nat), (∀ q ∈ qs, q ∈ c.children) → qs.Nodup → ∀ s₁ : Store κ, s₁.next = s.next →
        (∀ x, (∃ q ∈ qs, Below s.nodes q x) → s₁.nodes x = s.nodes x) →
        ∃ s₂, qs.foldlM (free k) s₁ = some s₂ ∧ s₂.next = s.next ∧
          (∀ x, (∃ q ∈ qs, Below s.nodes q x) → s₂.nodes x = none) ∧
          ∀ x, ¬ (∃ q ∈ qs, Below s.nodes q x) → s₂.nodes x = s₁.nodes x := by
      intro qs
      induction qs with
      | nil =>
        intro _ _ s₁ hx₁ _
        exact ⟨s₁, rfl, hx₁, fun x ⟨q, hq, _⟩ => absurd hq not_mem_nil, fun _ _ => rfl⟩
      | cons q qs ihq =>
        intro hsub hnd s₁ hx₁ hsame
        obtain ⟨hqs, hnd⟩ := nodup_cons.mp hnd
        have hq := hsub q mem_cons_self
        have hqS := (hkids q hq).1
        have hlt := (hkids q hq).2.1
        have hsame' : ∀ x, Below s.nodes q x → s₁.nodes x = s.nodes x := fun x hx => hsame x ⟨q, mem_cons_self, hx⟩
        have hbelow : ∀ x, Below s₁.nodes q x ↔ Below s.nodes q x := by
          intro x
          constructor
          · intro hb
            refine hb.congr (K := Below s.nodes q) .refl ?_
            intro y d hy hd
            rw [hsame' y hy] at hd
            exact ⟨hd, fun z hz => hy.step hd hz⟩
          · intro hb
            refine hb.congr (K := Below s.nodes q) .refl ?_
            intro y d hy hd
            exact ⟨by rw [hsame' y hy, hd], fun z hz => hy.step hd hz⟩
        obtain ⟨s₂, h₂, hx₂, hgone, hkeep⟩ := ih ((hs.restrict_below hqS).congr hsame') .refl (by omega)
        have hdisj : ∀ x, (∃ r ∈ qs, Below s.nodes r x) → ¬ Below s.nodes q x := by
          rintro x ⟨r, hr, hrx⟩ hqx
          have hrc := hsub r (mem_cons_of_mem _ hr)
          have hne : q ≠ r := fun h => hqs (h ▸ hr)
          exact hs.below_disjoint hp hc hq hrc hne hqx hrx
        obtain ⟨s₃, h₃, hx₃, hgone₃, hkeep₃⟩ := ihq (forall_mem_cons.mp hsub).2 hnd s₂
          (hx₂.trans hx₁) (by
            intro x hx
            rw [hkeep x (fun hb => hdisj x hx ((hbelow x).mp hb))]
            obtain ⟨r, hr, hrx⟩ := hx
            exact hsame x ⟨r, mem_cons_of_mem _ hr, hrx⟩)
        refine ⟨s₃, ?_, hx₃, ?_, ?_⟩
        · rw [foldlM_cons, h₂]
          exact h₃
        · rintro x ⟨r, hr, hrx⟩
          by_cases hqs' : ∃ r ∈ qs, Below s.nodes r x
          · exact hgone₃ x hqs'
          · rw [hkeep₃ x hqs']
            rcases mem_cons.mp hr with rfl | hr
            · exact hgone x ((hbelow x).mpr hrx)
            · exact absurd ⟨r, hr, hrx⟩ hqs'
        · intro x hx
          rw [hkeep₃ x (fun ⟨r, hr, hrx⟩ => hx ⟨r, mem_cons_of_mem _ hr, hrx⟩)]
          exact hkeep x (fun hb => hx ⟨q, mem_cons_self, (hbelow x).mp hb⟩)
    obtain ⟨s₂, h₂, hx₂, hgone, hkeep⟩ := hfold c.children (fun q hq => hq) (hs.nodup p c hp hc) s rfl fun _ _ => rfl
    refine ⟨s₂.erase p, ?_, hx₂, ?_, ?_⟩
    · rw [free, if_neg (hs.ne_zero hp), hc]
      simp only [bind_eq_bind, bind_some, h₂]
      rfl
    · intro q hb
      rw [Store.nodes_erase]
      by_cases hqp : q = p
      · rw [hqp, update_self]
      · rw [update_of_ne hqp]
        obtain ⟨r, hr, hb'⟩ := hb.exists_child hqp hc
        exact hgone q ⟨r, hr, hb'⟩
    · intro q hb
      have hqp : q ≠ p := fun h => hb (h ▸ .refl)
      rw [Store.nodes_erase, update_of_ne hqp]
      exact hkeep q fun ⟨r, hr, hb'⟩ => hb ((Below.refl.step hc hr).trans hb')

variable {rank : Nat → Nat}

/-- **`SafeDelete` frees what is below the node and nothing else.** -/
theorem delete_spec (hs : Shape s.nodes S rank) (hp : S p) :
    ∃ s', delete s p = some s' ∧ s'.next = s.next ∧ (∀ q, Below s.nodes p q → s'.nodes q = none) ∧
      ∀ q, ¬ Below s.nodes p q → s'.nodes q = s.nodes q := by
  have hlt : ∀ q, S q → q < s.next := fun q hq => s.lt_of_mem hs hq
  exact free_spec s.next (hs.weight hlt) hp (hs.weight_lt hp (hlt p hp))

theorem delete_alone (hc : s.nodes p = some c) (hkids : c.children = []) :
    ∃ s', delete s p = some s' ∧ s'.next = s.next ∧ s'.nodes p = none ∧ ∀ q, q ≠ p → s'.nodes q = s.nodes q := by
  have hshape : Shape s.nodes (fun q => q = p) fun _ => 0 := by
    refine ⟨fun h => absurd (s.pos hc) (h ▸ lt_irrefl _), ?_, ?_, ?_⟩
    · rintro q rfl
      exact ⟨c, hc⟩
    · rintro q d rfl hd r hr
      cases hc.symm.trans hd
      rw [hkids] at hr
      cases hr
    · rintro q d rfl hd
      cases hc.symm.trans hd
      rw [hkids]
      exact nodup_nil
  obtain ⟨s', h', hx', hgone, hkeep⟩ := delete_spec hshape (p := p) rfl
  exact ⟨s', h', hx', hgone p .refl, fun q hq => hkeep q fun hb => hq (hshape.below_mem rfl hb)⟩

/-! ### Copies -/

/-- The addresses from `s.next` on hold copies of nodes of `S`; `src` tells which. -/
structure Copy (s s' : Store κ) (S : Nat → Prop) (src : Nat → Nat) : Prop where
  le   : s.next ≤ s'.next
  old  : ∀ q : Nat, q < s.next → s'.nodes q = s.nodes q
  node : ∀ q : Nat, s.next ≤ q → q < s'.next → ∃ c d, s'.nodes q = some c ∧ S (src q) ∧ s.nodes (src q) = some d ∧
    c.data = d.data ∧ c.children.map src = d.children ∧
    ∀ x ∈ c.children, s.next ≤ x ∧ x < s'.next ∧ ∃ e, s'.nodes x = some e ∧ e.parent = q

variable {s' : Store κ}

theorem Copy.shape (hc : Copy s s' S src) (hs : Shape s.nodes S rank) :
    Shape s'.nodes (fun q => s.next ≤ q ∧ q < s'.next) fun q => rank (src q) where
  null h0 := Nat.not_lt_of_le h0.1 s.start
  live q hq := by
    obtain ⟨c, d, hc', -⟩ := hc.node q hq.1 hq.2
    exact ⟨c, hc'⟩
  kids q c hq hqc x hx := by
    obtain ⟨c', d, hc', hS, hd, -, hmap, hkids⟩ := hc.node q hq.1 hq.2
    cases hqc.symm.trans hc'
    obtain ⟨hle, hlt, hpar⟩ := hkids x hx
    have hmem : src x ∈ d.children := hmap ▸ mem_map_of_mem hx
    exact ⟨⟨hle, hlt⟩, (hs.kids _ d hS hd _ hmem).2.1, hpar⟩
  nodup q c hq hqc := by
    obtain ⟨c', d, hc', hS, hd, -, hmap, -⟩ := hc.node q hq.1 hq.2
    cases hqc.symm.trans hc'
    exact List.Nodup.of_map src (hmap ▸ hs.nodup _ d hS hd)

theorem Copy.val {β : Type} (hc : Copy s s' S src) {f : Data κ → List β → β} {E : Nat → β}
    (hE : Val s.nodes S f E) : Val s'.nodes (fun q => s.next ≤ q ∧ q < s'.next) f fun q => E (src q) := by
  intro q c hq hqc
  obtain ⟨c', d, hc', hS, hd, hdata, hmap, -⟩ := hc.node q hq.1 hq.2
  cases hqc.symm.trans hc'
  show E (src q) = f c.data (c.children.map (E ∘ src))
  rw [hE _ d hS hd, hdata, ← map_map, hmap]

/-- The copies below a root at `s.next` that is still getting its children. -/
structure Growing (s s' : Store κ) (S : Nat → Prop) (src : Nat → Nat) (a : Data κ) (done : List Nat) : Prop where
  lt   : s.next < s'.next
  old  : ∀ q : Nat, q < s.next → s'.nodes q = s.nodes q
  root : ∃ ks, s'.nodes s.next = some { data := a, children := ks, parent := 0 } ∧ ks.map src = done ∧
    ∀ x ∈ ks, s.next < x ∧ x < s'.next ∧ ∃ e, s'.nodes x = some e ∧ e.parent = s.next
  node : ∀ q : Nat, s.next < q → q < s'.next → ∃ c d, s'.nodes q = some c ∧ S (src q) ∧ s.nodes (src q) = some d ∧
    c.data = d.data ∧ c.children.map src = d.children ∧
    ∀ x ∈ c.children, s.next < x ∧ x < s'.next ∧ ∃ e, s'.nodes x = some e ∧ e.parent = q

theorem growing_alloc (s : Store κ) (S : Nat → Prop) (src : Nat → Nat) (a : Data κ) :
    Growing s (s.alloc { data := a }) S src a [] where
  lt := Nat.lt_succ_self _
  old _ hq := update_of_ne (ne_of_lt hq) ..
  root := ⟨[], update_self .., rfl, forall_mem_nil _⟩
  node _ hlt hlt' := absurd hlt' (Nat.not_lt_of_le hlt)

theorem Growing.add {s₁ s₂ : Store κ} {src' : Nat → Nat} {a : Data κ} {done : List Nat} (hg : Growing s s₁ S src a done)
    (hc : Copy s₁ s₂ S src') (hlt : s₁.next < s₂.next) (htop : ∀ c, s₂.nodes s₁.next = some c → c.parent = 0)
    (hS : ∀ p, S p → p < s.next) :
    ∃ s₃ src₃, addNewChild s₂ s.next s₁.next = some s₃ ∧ Growing s s₃ S src₃ a (done ++ [src' s₁.next]) := by
  obtain ⟨ks, hroot, hks, hkids⟩ := hg.root
  have hroot₂ : s₂.nodes s.next = some { data := a, children := ks, parent := 0 } := by rw [hc.old _ hg.lt, hroot]
  obtain ⟨c, d, hq, hSq, hd, hdata, hmap, hqkids⟩ := hc.node s₁.next (le_refl _) hlt
  have hne : s.next ≠ s₁.next := ne_of_lt hg.lt
  obtain ⟨s₃, h₃, hn₃, hx₃⟩ := addNewChild_spec hroot₂ hq hne
    (.top (by rw [update_of_ne hne, hroot₂]) rfl)
  refine ⟨s₃, fun q => if q < s₁.next then src q else src' q, h₃, ?_⟩
  have hother : ∀ q, q ≠ s.next → q ≠ s₁.next → s₃.nodes q = s₂.nodes q := by
    intro q h h'
    rw [hn₃, update_of_ne h, update_of_ne h']
  have hq₃ : s₃.nodes s₁.next = some { c with parent := s.next } := by
    rw [hn₃, update_of_ne hne.symm, update_self]
  have hlive : ∀ x e, x ≠ s₁.next → s.next < x → s₂.nodes x = some e → s₃.nodes x = some e := by
    intro x e h h' he
    rw [hother x (Nat.ne_of_gt h') h, he]
  refine ⟨?_, ?_, ?_, ?_⟩
  · rw [hx₃]
    exact lt_trans hg.lt hlt
  · intro q hq'
    rw [hother q (ne_of_lt hq') (ne_of_lt (lt_trans hq' hg.lt)), hc.old q (lt_trans hq' hg.lt),
      hg.old q hq']
  · refine ⟨ks ++ [s₁.next], by rw [hn₃, update_self], ?_, ?_⟩
    · rw [map_append, map_singleton, if_neg (lt_irrefl _), ← hks]
      congr 1
      refine map_congr_left ?_
      intro x hx
      exact if_pos (hkids x hx).2.1
    · intro x hx
      rcases List.mem_append.mp hx with hx | hx
      · obtain ⟨h1, h2, e, he, hpar⟩ := hkids x hx
        refine ⟨h1, ?_, e, hlive x e (ne_of_lt h2) h1 (by rw [hc.old x h2, he]), hpar⟩
        rw [hx₃]
        exact lt_trans h2 hlt
      · rw [mem_singleton.mp hx]
        refine ⟨hg.lt, ?_, _, hq₃, rfl⟩
        rw [hx₃]
        exact hlt
  · intro q hlt₁ hlt₂
    rw [hx₃] at hlt₂
    by_cases hq' : q < s₁.next
    · obtain ⟨c, d, hc', hSq, hd, hdata, hmap, hkids⟩ := hg.node q hlt₁ hq'
      simp only [if_pos hq']
      refine ⟨c, d, hlive q c (ne_of_lt hq') hlt₁ (by rw [hc.old q hq', hc']), hSq, hd, hdata, ?_, ?_⟩
      · rw [← hmap]
        refine map_congr_left ?_
        intro x hx
        exact if_pos (hkids x hx).2.1
      · intro x hx
        obtain ⟨h1, h2, e, he, hpar⟩ := hkids x hx
        refine ⟨h1, ?_, e, hlive x e (ne_of_lt h2) h1 (by rw [hc.old x h2, he]), hpar⟩
        rw [hx₃]
        exact lt_trans h2 hlt
    · obtain ⟨c, d, hc', hSq, hd, hdata, hmap, hkids⟩ := hc.node q (Nat.le_of_not_lt hq') hlt₂
      simp only [if_neg hq']
      have hcell : ∃ c', s₃.nodes q = some c' ∧ c'.data = c.data ∧ c'.children = c.children := by
        by_cases hqn : q = s₁.next
        · subst hqn
          cases hq.symm.trans hc'
          exact ⟨_, hq₃, rfl, rfl⟩
        · exact ⟨c, hlive q c hqn hlt₁ hc', rfl, rfl⟩
      obtain ⟨c', hc₃, hdata', hkids'⟩ := hcell
      refine ⟨c', d, hc₃, hSq, ?_, hdata'.trans hdata, ?_, ?_⟩
      · rw [← hg.old _ (hS _ hSq), hd]
      · rw [hkids', ← hmap]
        refine map_congr_left ?_
        intro x hx
        exact if_neg (Nat.not_lt_of_le (hkids x hx).1)
      · intro x hx
        rw [hkids'] at hx
        obtain ⟨h1, h2, e, he, hpar⟩ := hkids x hx
        have hxn : x ≠ s₁.next := by
          rintro rfl
          rw [htop e he] at hpar
          exact absurd s.start (Nat.not_lt_of_le (le_trans (le_of_lt hlt₁) (le_of_eq hpar.symm)))
        exact ⟨lt_of_lt_of_le hg.lt h1, by rw [hx₃]; exact h2, e, hlive x e hxn (lt_of_lt_of_le hg.lt h1) he, hpar⟩

theorem Growing.copy (hg : Growing s s' S src c.data c.children) (hp : S p) (hc : s.nodes p = some c) :
    Copy s s' S fun q => if q = s.next then p else src q where
  le := le_of_lt hg.lt
  old := hg.old
  node q hle hlt := by
    have hsrc : ∀ ks : List Nat, (∀ x ∈ ks, s.next < x) →
        ks.map (fun q => if q = s.next then p else src q) = ks.map src := by
      intro ks hks
      refine map_congr_left ?_
      intro x hx
      exact if_neg (Nat.ne_of_gt (hks x hx))
    by_cases hq : q = s.next
    · subst hq
      obtain ⟨ks, hroot, hmap, hkids⟩ := hg.root
      simp only [if_true]
      refine ⟨_, c, hroot, hp, hc, rfl, ?_, ?_⟩
      · rw [hsrc ks fun x hx => (hkids x hx).1, hmap]
      · intro x hx
        obtain ⟨h1, h2⟩ := hkids x hx
        exact ⟨le_of_lt h1, h2⟩
    · obtain ⟨c', d, hc', hS, hd, hdata, hmap, hkids⟩ := hg.node q (lt_of_le_of_ne hle (Ne.symm hq)) hlt
      simp only [if_neg hq]
      refine ⟨c', d, hc', hS, hd, hdata, ?_, ?_⟩
      · rw [hsrc _ fun x hx => (hkids x hx).1, hmap]
      · intro x hx
        obtain ⟨h1, h2⟩ := hkids x hx
        exact ⟨le_of_lt h1, h2⟩

theorem cloneGo_spec (k : Nat) : ∀ {s : Store κ} {S : Nat → Prop} {rank : Nat → Nat} {p : Nat}, Shape s.nodes S rank →
    S p → rank p < k → ∃ s' src, cloneGo k s p = some (s', s.next) ∧ Copy s s' S src ∧ src s.next = p ∧ s.next < s'.next ∧
      ∀ c, s'.nodes s.next = some c → c.parent = 0 := by
  induction k with
  | zero => exact fun _ _ hk => absurd hk (Nat.not_lt_zero _)
  | succ k ih =>
    intro s S rank p hs hp hk
    obtain ⟨c, hc⟩ := hs.live p hp
    have hlt : ∀ q, S q → q < s.next := fun q hq => s.lt_of_mem hs hq
    have hfold : ∀ (qs done : List Nat) (s₁ : Store κ) (src : Nat → Nat), (∀ q ∈ qs, q ∈ c.children) →
        Growing s s₁ S src c.data done → ∃ s₂ src₂, qs.foldlM (fun s' q => do
          let (s', q') ← cloneGo k s' q
          addNewChild s' s.next q') s₁ = some s₂ ∧ Growing s s₂ S src₂ c.data (done ++ qs) := by
      intro qs
      induction qs with
      | nil =>
        intro done s₁ src _ hg
        exact ⟨s₁, src, rfl, by rwa [append_nil]⟩
      | cons q qs ihq =>
        intro done s₁ src hsub hg
        obtain ⟨hqS, hqlt, -⟩ := hs.kids p c hp hc q (hsub q mem_cons_self)
        have hs₁ : Shape s₁.nodes S rank := hs.congr fun x hx => hg.old x (hlt x hx)
        obtain ⟨s₂, src₂, h₂, hcopy, hsrc, hlt₂, htop⟩ := ih hs₁ hqS (lt_of_lt_of_le hqlt (Nat.le_of_lt_succ hk))
        obtain ⟨s₃, src₃, h₃, hg₃⟩ := hg.add hcopy hlt₂ htop hlt
        rw [hsrc] at hg₃
        obtain ⟨s₄, src₄, h₄, hg₄⟩ := ihq (done ++ [q]) s₃ src₃ (forall_mem_cons.mp hsub).2 hg₃
        refine ⟨s₄, src₄, ?_, by rwa [append_assoc, singleton_append] at hg₄⟩
        simp only [foldlM_cons, h₂, h₃, bind_eq_bind, bind_some]
        exact h₄
    obtain ⟨s₂, src₂, h₂, hg₂⟩ := hfold c.children [] _ id (fun _ h => h) (growing_alloc s S id c.data)
    refine ⟨s₂, fun q => if q = s.next then p else src₂ q, ?_, hg₂.copy hp hc, if_pos rfl, hg₂.lt, ?_⟩
    · simp only [cloneGo, hc, bind_eq_bind, bind_some]
      simp only [bind_eq_bind] at h₂
      rw [h₂]
      rfl
    · intro d hd
      obtain ⟨ks, hroot, -⟩ := hg₂.root
      cases hroot.symm.trans hd
      rfl

/-- **`Clone` copies the subtree to new addresses and leaves the rest alone.** -/
theorem clone_spec (hs : Shape s.nodes S rank) (hp : S p) :
    ∃ s' src, clone s p = some (s', s.next) ∧ Copy s s' S src ∧ src s.next = p ∧ s.next < s'.next ∧
      ∀ c, s'.nodes s.next = some c → c.parent = 0 := by
  have hlt : ∀ q, S q → q < s.next := fun q hq => s.lt_of_mem hs hq
  exact cloneGo_spec s.next (hs.weight hlt) hp (hs.weight_lt hp (hlt p hp))

/-! ### Replacing a child -/

variable {l : List Nat}

theorem replaceFirst_eq_map {old new : Nat} (hnd : l.Nodup) :
    replaceFirst old new l = l.map fun x => if x = old then new else x := by
  induction l with
  | nil => rfl
  | cons q l ih =>
    obtain ⟨hq, hnd⟩ := nodup_cons.mp hnd
    rw [replaceFirst, map_cons]
    by_cases h : q = old
    · rw [if_pos h, if_pos h]
      congr 1
      calc l = l.map id := (map_id _).symm
        _ = l.map (fun x => if x = old then new else x) :=
          map_congr_left fun x hx => (if_neg fun hxo : x = old => hq (h ▸ hxo ▸ hx)).symm
    · rw [if_neg h, if_neg h, ih hnd]

theorem replaceNode_spec {old new : Nat} {d e : Node κ} (hold : s.nodes old = some c) (h0 : c.parent ≠ 0)
    (hpar : s.nodes c.parent = some d) (hmem : old ∈ d.children) (hnew : s.nodes new = some e) (hne : new ≠ c.parent)
    (hch : Chain (Function.update s.nodes new (some { e with parent := c.parent })) c.parent) :
    ∃ s', replaceNode s old new = some s' ∧ s'.next = s.next ∧
      s'.nodes = Function.update (Function.update s.nodes c.parent (some { d with
        children := replaceFirst old new d.children })) new (some { e with parent := c.parent }) := by
  obtain ⟨s₁, h₁, hn₁, hx₁⟩ := setChildren_spec hpar (replaceFirst old new)
  have hnew₁ : s₁.nodes new = some e := by rw [hn₁, update_of_ne hne, hnew]
  obtain ⟨s₂, h₂, hn₂, hx₂⟩ := setParent_spec hnew₁ c.parent
  have hch₂ : Chain s₂.nodes c.parent := by
    rw [hn₂, hn₁, Function.update_comm hne.symm]
    exact hch.update (c := d) (by rw [update_of_ne hne.symm, hpar]) rfl
  obtain ⟨s₃, h₃, hn₃, hx₃⟩ := rehash_spec hch₂
  refine ⟨s₃, ?_, by omega, by rw [hn₃, hn₂, hn₁]⟩
  simp only [replaceNode, hold, hpar, h₁, h₂, bind_eq_bind, bind_some, if_neg h0, hmem, not_true_eq_false,
    if_false]
  exact h₃

/-! ### Lists of children -/

theorem exists_ne_of_two (hnd : l.Nodup) (htwo : 2 ≤ l.length) (x : Nat) : ∃ r ∈ l, r ≠ x := by
  by_contra hno
  have hsub : l ⊆ [x] := by
    intro r hr
    by_contra hne
    exact hno ⟨r, hr, fun h => hne (mem_singleton.mpr h)⟩
  have := (subperm_of_subset hnd hsub).length_le
  rw [length_singleton] at this
  omega

theorem two_le_length_flatMap {f : Nat → List Nat} (htwo : 2 ≤ l.length) (hf : ∀ x ∈ l, f x ≠ []) :
    2 ≤ (l.flatMap f).length := by
  rcases l with _ | ⟨x, _ | ⟨y, l⟩⟩
  · cases htwo
  · exact absurd htwo (Nat.not_succ_le_self 1)
  · have hx := length_pos_of_ne_nil (hf x mem_cons_self)
    have hy := length_pos_of_ne_nil (hf y (mem_cons_of_mem _ mem_cons_self))
    rw [flatMap_cons, flatMap_cons, length_append, length_append]
    omega

theorem filter_erase (hnd : l.Nodup) (done : List Nat) (x : Nat) :
    (l.filter (· ∉ done)).erase x = l.filter (· ∉ done ++ [x]) := by
  rw [(hnd.filter _).erase_eq_filter, filter_filter]
  refine filter_congr ?_
  intro q _
  by_cases h : q = x
  · simp [h]
  · simp [h]

end XQ
end Manticore

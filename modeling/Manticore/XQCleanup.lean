import Manticore.XQBool
/-!
# XQCleanup — `SubtreeRemoveEmpty`, `CompositeFixup`, `CleanupSubtree`

An AND or an OR with one child stands for that child.  `CompositeFixup` climbs over all such nodes and puts the child in
the place of the highest.
-/
namespace Manticore
namespace XQ

open PtrTree
open List
open Option (bind_eq_bind bind_some)
open Function (update_of_ne update_self)

variable {κ : Type}

/-- An AND or an OR without words. -/
def Composite (a : Data κ) : Prop := a.words = [] ∧ (a.op = .or ∨ a.op = .and)

/-- The loop of `SubtreeRemoveEmpty`; gives the node and its parent. -/
def climbEmpty : Nat → Store κ → Nat → Nat → Option (Nat × Nat)
  | 0, _, _, _ => none
  | k + 1, s, node, par =>
    if par = 0 then some (node, par)
    else do
      let c ← s.nodes par
      if c.children.length ≤ 1 ∧ c.data.words.isEmpty then climbEmpty k s par c.parent else return (node, par)

/-- `SubtreeRemoveEmpty`; tells whether the node was empty. -/
def subtreeRemoveEmpty (s : Store κ) (p : Nat) : Option (Store κ × Bool) := do
  let c ← s.nodes p
  if ¬ (c.data.words.isEmpty ∧ c.children.isEmpty) then return (s, false)
  let (node, par) ← climbEmpty s.next s p c.parent
  if par = 0 then do
    let s ← delete s node
    return (s, true)
  else do
    let s ← removeChild s par node
    let s ← delete s node
    return (s, true)

/-- The loop of `CompositeFixup`; gives the node and its parent. -/
def climbSingle : Nat → Store κ → Nat → Nat → Option (Nat × Nat)
  | 0, _, _, _ => none
  | k + 1, s, node, par =>
    if par = 0 then some (node, par)
    else do
      let c ← s.nodes par
      if c.children.length = 1 ∧ c.data.words.isEmpty ∧ (c.data.op = .or ∨ c.data.op = .and) then
        climbSingle k s par c.parent
      else return (node, par)

/-- The loop over the children of the parent that `CompositeFixup` reached, if any. -/
def hangChild (s : Store κ) (par node child : Nat) : Option (Store κ) :=
  if par = 0 then some s
  else do
    let d ← s.nodes par
    if node ∉ d.children then return s
    let s ← setChildren s par (replaceFirst node child)
    let s ← setParent s child par
    rehash s par

/-- `CompositeFixup`; gives the root afterwards. -/
def compositeFixup (s : Store κ) (root p : Nat) : Option (Store κ × Nat) := do
  let c ← s.nodes p
  if ¬ c.data.words.isEmpty ∨ c.children.length ≠ 1 ∨ (c.data.op ≠ .or ∧ c.data.op ≠ .and) then return (s, root)
  let child ← c.children[0]?
  let s ← setParent s child 0
  let s ← withChildren s p fun _ => []
  let (node, par) ← climbSingle s.next s p c.parent
  let s ← hangChild s par node child
  let s ← delete s node
  return (s, if par = 0 then child else root)

/-- `CleanupSubtree`. -/
def cleanupSubtree (s : Store κ) (root p : Nat) : Option (Store κ × Nat) := do
  let (s, removed) ← subtreeRemoveEmpty s p
  if removed then return (s, root)
  compositeFixup s root p

/-! ## The climb -/

/-- `u` is reached from `p` over parents that are composite nodes with one child. -/
inductive Singles (h : Heap (Data κ)) (p : Nat) : Nat → Prop
  | refl : Singles h p p
  | step {u r : Nat} {c d : Node κ} : Singles h p u → h u = some c → c.parent = r → h r = some d → d.children = [u] →
      Composite d.data → Singles h p r

variable {u : Nat} {c : Node κ}

/-- The climb stops at once below a parent with more than one child. -/
theorem Singles.eq_of_parent {h : Heap (Data κ)} {p : Nat} (hu : Singles h p u) (hc : h p = some c)
    (hno : ∀ d, h c.parent = some d → d.children = [p] → False) : u = p := by
  induction hu with
  | refl => rfl
  | step _ hc' hpar hd hkids _ ih =>
    subst ih
    cases hc.symm.trans hc'
    subst hpar
    exact (hno _ hd hkids).elim

/-- A value that a composite node takes over from its only child. -/
def Neutral {β : Type} (f : Data κ → List β → β) : Prop := ∀ a x, Composite a → f a [x] = x

theorem neutral_meaning (v : κ → Bool) : Neutral (meaning v) := by
  rintro a x ⟨hwords, hop | hop⟩
  · simp [meaning, hwords, hop]
  · simp [meaning, hwords, hop]

section Climb

variable {s : Store κ} {S : Nat → Prop} {rank : Nat → Nat} {root p : Nat}

section
variable (hr : Rooted s.nodes S rank root) (hp : S p)
include hr hp

theorem Singles.mem (hu : Singles s.nodes p u) :
    S u ∧ Below s.nodes u p ∧ rank p ≤ rank u := by
  induction hu with
  | refl => exact ⟨hp, .refl, le_refl _⟩
  | step hu hc hpar hd hkids _ ih =>
    obtain ⟨huS, hub, hle⟩ := ih
    subst hpar
    obtain ⟨hS, hlt, -⟩ := parent_cell hr huS hc hd
    refine ⟨hS, ?_, le_trans hle (le_of_lt hlt)⟩
    exact (Below.refl.step hd (by rw [hkids]; exact mem_cons_self)).trans hub

theorem Singles.val {β : Type} (hu : Singles s.nodes p u)
    {f : Data κ → List β → β} (hf : Neutral f) {E : Nat → β} (hE : Val s.nodes S f E) : E u = E p := by
  induction hu with
  | refl => rfl
  | step hu hc hpar hd hkids hcomp ih =>
    subst hpar
    obtain ⟨hS, -, -⟩ := parent_cell hr (hu.mem hr hp).1 hc hd
    rw [hE _ _ hS hd, hkids, map_singleton, hf _ _ hcomp, ih]

/-- The loop ends within the number of addresses, at the top of the single nodes. -/
theorem climbSingle_spec {s' : Store κ}
    (hsame : ∀ q, S q → rank p < rank q → s'.nodes q = s.nodes q) {n : Nat} {f : Nat → Nat}
    (hwt : ∀ q c, S q → s.nodes q = some c → c.parent ≠ 0 → f q < f c.parent) (hn : ∀ q, S q → f q < n) (k : Nat) :
    ∀ {u : Nat} {c : Node κ}, Singles s.nodes p u → s.nodes u = some c → n ≤ k + f u →
      ∃ u' c', climbSingle k s' u c.parent = some (u', c'.parent) ∧ Singles s.nodes p u' ∧ s.nodes u' = some c' := by
  induction k with
  | zero =>
    intro u c hu _ hle
    have := hn u (hu.mem hr hp).1
    omega
  | succ k ih =>
    intro u c hu hc hle
    obtain ⟨huS, -, hrank⟩ := hu.mem hr hp
    rw [climbSingle]
    by_cases h0 : c.parent = 0
    · rw [if_pos h0]
      exact ⟨u, c, by rw [h0], hu, hc⟩
    · obtain ⟨hS, hlt, d, hd, hmem⟩ := hr.parent_mem huS hc h0
      rw [if_neg h0, hsame _ hS (by omega), hd]
      simp only [bind_eq_bind, bind_some]
      by_cases hcond : d.children.length = 1 ∧ d.data.words.isEmpty = true ∧ (d.data.op = .or ∨ d.data.op = .and)
      · rw [if_pos hcond]
        obtain ⟨x, hx⟩ := length_eq_one_iff.mp hcond.1
        have hkids : d.children = [u] := by
          rw [hx] at hmem ⊢
          rw [mem_singleton.mp hmem]
        have hw := hwt u c huS hc h0
        exact ih (hu.step hc rfl hd hkids ⟨List.isEmpty_iff.mp hcond.2.1, hcond.2.2⟩) hd (by omega)
      · rw [if_neg hcond]
        exact ⟨u, c, rfl, hu, hc⟩

/-- What is freed: the single nodes above the child. -/
theorem shape_singles {x : Nat} (hc : s.nodes p = some c)
    (hkids : c.children = [x]) (hu : Singles s.nodes p u) {h' : Heap (Data κ)} (hp' : h' p = some { c with children := [] })
    (hsame : ∀ q, Below s.nodes u q → ¬ Below s.nodes x q → q ≠ p → h' q = s.nodes q) :
    Shape h' (fun q => Below s.nodes u q ∧ ¬ Below s.nodes x q) rank := by
  have hs := hr.toShape
  obtain ⟨huS, hub, -⟩ := hu.mem hr hp
  obtain ⟨hxS, hxlt, cx, hcx, hxpar⟩ := hs.kids p c hp hc x (by rw [hkids]; exact mem_cons_self)
  have hcell : ∀ q, Below s.nodes u q → ¬ Below s.nodes x q → ∀ d, s.nodes q = some d →
      ∃ d', h' q = some d' ∧ d'.parent = d.parent := by
    intro q hq hqx d hd
    by_cases hqp : q = p
    · subst hqp
      cases hc.symm.trans hd
      exact ⟨_, hp', rfl⟩
    · exact ⟨d, by rw [hsame q hq hqx hqp, hd], rfl⟩
  refine ⟨fun h => hs.null (hs.below_mem huS h.1), ?_, ?_, ?_⟩
  · rintro q ⟨hq, hqx⟩
    obtain ⟨d, hd⟩ := hs.live q (hs.below_mem huS hq)
    obtain ⟨d', hd', -⟩ := hcell q hq hqx d hd
    exact ⟨d', hd'⟩
  · rintro q d ⟨hq, hqx⟩ hd r hrm
    by_cases hqp : q = p
    · subst hqp
      cases hp'.symm.trans hd
      exact absurd hrm not_mem_nil
    · rw [hsame q hq hqx hqp] at hd
      obtain ⟨hrS, hlt, e, he, hpar⟩ := hs.kids q d (hs.below_mem huS hq) hd r hrm
      have hrx : ¬ Below s.nodes x r := by
        intro hb
        by_cases hrx : r = x
        · subst hrx
          cases hcx.symm.trans he
          exact hqp (hpar.symm.trans hxpar)
        · have := hs.below_parent hxS hb hrx he
          rw [hpar] at this
          exact hqx this
      obtain ⟨e', he', hpar'⟩ := hcell r (hq.step hd hrm) hrx e he
      exact ⟨⟨hq.step hd hrm, hrx⟩, hlt, e', he', hpar'.trans hpar⟩
  · rintro q d ⟨hq, hqx⟩ hd
    by_cases hqp : q = p
    · subst hqp
      cases hp'.symm.trans hd
      exact nodup_nil
    · rw [hsame q hq hqx hqp] at hd
      exact hs.nodup q d (hs.below_mem huS hq) hd

end

theorem hangChild_spec (par node : Nat) {child : Nat} {e : Node κ} (hchild : s.nodes child = some e) (he : par = 0 → e.parent = 0)
    (hne : child ≠ par) (hmem : par ≠ 0 → ∃ d, s.nodes par = some d ∧ node ∈ d.children)
    (hch : par ≠ 0 → Chain (Function.update s.nodes child (some { e with parent := par })) par) :
    ∃ s', hangChild s par node child = some s' ∧ s'.next = s.next ∧ s'.nodes child = some { e with parent := par } ∧
      ∀ q d, q ≠ child → s.nodes q = some d →
        s'.nodes q = some { d with children := if q = par then replaceFirst node child d.children else d.children } := by
  by_cases h0 : par = 0
  · refine ⟨s, by rw [hangChild, if_pos h0], rfl, ?_, ?_⟩
    · rw [hchild, h0, ← he h0]
    · intro q d _ hd
      have hpos := s.pos hd
      rw [if_neg (by omega), hd]
  obtain ⟨d, hpar, hmem⟩ := hmem h0
  obtain ⟨s₁, h₁, hn₁, hx₁⟩ := setChildren_spec hpar (replaceFirst node child)
  have hchild₁ : s₁.nodes child = some e := by rw [hn₁, update_of_ne hne, hchild]
  obtain ⟨s₂, h₂, hn₂, hx₂⟩ := setParent_spec hchild₁ par
  have hch₂ : Chain s₂.nodes par := by
    rw [hn₂, hn₁, Function.update_comm hne.symm]
    exact (hch h0).update (c := d) (by rw [update_of_ne hne.symm, hpar]) rfl
  obtain ⟨s₃, h₃, hn₃, hx₃⟩ := rehash_spec hch₂
  refine ⟨s₃, ?_, by omega, by rw [hn₃, hn₂, update_self], ?_⟩
  · simp only [hangChild, if_neg h0, hpar, h₁, h₂, bind_eq_bind, bind_some, hmem, not_true_eq_false, if_false]
    exact h₃
  · intro q e' hq he'
    rw [hn₃, hn₂, update_of_ne hq, hn₁]
    by_cases hqp : q = par
    · subst hqp
      cases hpar.symm.trans he'
      rw [update_self, if_pos rfl]
    · rw [update_of_ne hqp, if_neg hqp, he']

theorem compositeFixup_other (hc : s.nodes p = some c)
    (hno : ¬ (Composite c.data ∧ c.children.length = 1)) : compositeFixup s root p = some (s, root) := by
  have hcond : ¬ c.data.words.isEmpty ∨ c.children.length ≠ 1 ∨ (c.data.op ≠ .or ∧ c.data.op ≠ .and) := by
    by_contra hcon
    rw [not_or, not_or, not_not, not_not, not_and_or, not_not, not_not] at hcon
    exact hno ⟨⟨List.isEmpty_iff.mp hcon.1, hcon.2.2⟩, hcon.2.1⟩
  simp only [compositeFixup, hc, bind_eq_bind, bind_some, if_pos hcond]
  rfl

/-- **`CompositeFixup` puts the only child of `p` in the place of the highest single node above `p`.** -/
theorem compositeFixup_single (hr : Rooted s.nodes S rank root) (hp : S p) {x : Nat} (hc : s.nodes p = some c)
    (hcomp : Composite c.data) (hkids : c.children = [x]) :
    ∃ s' u cu, compositeFixup s root p = some (s', Splice.newRoot root u x) ∧ s'.next = s.next ∧ Singles s.nodes p u ∧
      s.nodes u = some cu ∧ (∀ d, s.nodes x = some d → s'.nodes x = some { d with parent := cu.parent }) ∧
      (∀ q, Below s.nodes x q → q ≠ x → s'.nodes q = s.nodes q) ∧
      ∀ q d, s.nodes q = some d → ¬ Below s.nodes u q → s'.nodes q = some { d with
        children := if q = cu.parent then d.children.map fun r => if r = u then x else r else d.children } := by
  have hs := hr.toShape
  obtain ⟨hxS, hxlt, cx, hcx, hxpar⟩ := hs.kids p c hp hc x (by rw [hkids]; exact mem_cons_self)
  have hxp : x ≠ p := fun h => by rw [h] at hxlt; exact lt_irrefl _ hxlt
  obtain ⟨s₁, h₁, hn₁, hx₁⟩ := setParent_spec hcx 0
  have hc₁ : s₁.nodes p = some c := by rw [hn₁, update_of_ne hxp.symm, hc]
  have hch₁ : Chain s₁.nodes p := by
    refine chain_above hr hp ?_
    intro q d _ hle hd
    refine ⟨d, ?_, rfl⟩
    rw [hn₁, update_of_ne, hd]
    rintro rfl
    omega
  obtain ⟨s₂, h₂, hn₂, hx₂⟩ := withChildren_spec hc₁ hch₁ fun _ => []
  have hsame₂ : ∀ q, q ≠ p → q ≠ x → s₂.nodes q = s.nodes q := by
    intro q hq hqx
    rw [hn₂, update_of_ne hq, hn₁, update_of_ne hqx]
  have hhigh : ∀ q, S q → rank p < rank q → q ≠ p ∧ q ≠ x := by
    rintro q - hlt
    constructor
    · rintro rfl
      exact lt_irrefl _ hlt
    · rintro rfl
      omega
  have hlt : ∀ q, S q → q < s.next := fun q hq => s.lt_of_mem hs hq
  have hwt := hs.weight hlt
  obtain ⟨u, cu, hclimb, hu, hcu⟩ := climbSingle_spec hr hp (n := s.next) (f := PtrTree.weight s.nodes s.next)
    (fun q hq hq' => hsame₂ q (hhigh q hq hq').1 (hhigh q hq hq').2)
    (by
      intro q d hq hd h0
      obtain ⟨hS, -, e, he, hmem⟩ := hr.parent_mem hq hd h0
      exact (hwt.kids _ e hS he q hmem).2.1)
    (fun q hq => hwt.weight_lt hq (hlt q hq)) s₂.next .refl hc (by omega)
  obtain ⟨huS, hub, hule⟩ := hu.mem hr hp
  have hux : ¬ Below s.nodes x u := hs.not_below_of_lt hxS (by omega)
  have hlow : ∀ q, Below s.nodes x q → Below s.nodes u q := fun q hq =>
    (hub.step hc (by rw [hkids]; exact mem_cons_self)).trans hq
  have hxlow : ∀ q, Below s.nodes x q → q ≠ p := by
    rintro q hq rfl
    exact hs.not_below_of_lt hxS hxlt hq
  have hp₂ : s₂.nodes p = some { c with children := [] } := by rw [hn₂, update_self]
  have hx₂' : s₂.nodes x = some { cx with parent := 0 } := by
    rw [hn₂, update_of_ne hxp, hn₁, update_self]
  have hgne : ∀ q, S q → rank q ≤ rank u → q ≠ cu.parent := by
    rintro q hq hle rfl
    have := (hr.parent_mem huS hcu (hs.ne_zero hq)).2.1
    omega
  obtain ⟨s₃, h₃, hx₃, hchild₃, hsame₃⟩ := hangChild_spec cu.parent u hx₂' (fun _ => rfl)
    (hgne x hxS (by omega)) (by
      intro h0
      obtain ⟨hS, hlt', d, hd, hmem⟩ := hr.parent_mem huS hcu h0
      obtain ⟨h1, h2⟩ := hhigh _ hS (by omega)
      exact ⟨d, (hsame₂ _ h1 h2).trans hd, hmem⟩) (by
      intro h0
      obtain ⟨hS, hlt', -⟩ := hr.parent_mem huS hcu h0
      refine chain_above hr hS ?_
      intro q d hq hle hd
      obtain ⟨h1, h2⟩ := hhigh q hq (by omega)
      exact ⟨d, by rw [update_of_ne h2, hsame₂ q h1 h2, hd], rfl⟩)
  have hin₃ : ∀ q d, Below s.nodes u q → q ≠ x → s₂.nodes q = some d → s₃.nodes q = some d := by
    intro q d hq hqx hd
    rw [hsame₃ q d hqx hd, if_neg (hgne q (hs.below_mem huS hq) (hs.below_le huS hq))]
  -- the single nodes are freed
  have hs₃ := shape_singles hr hp hc hkids hu (hin₃ p _ hub hxp.symm hp₂) (by
    intro q hq hqx hqp
    obtain ⟨d, hd⟩ := hs.live q (hs.below_mem huS hq)
    have hqx' : q ≠ x := fun h => hqx (h ▸ .refl)
    rw [hin₃ q d hq hqx' ((hsame₂ q hqp hqx').trans hd), hd])
  obtain ⟨s₄, h₄, hx₄, -, hkeep⟩ := delete_spec hs₃ (p := u) ⟨.refl, hux⟩
  have hstay : ∀ q, ¬ (Below s.nodes u q ∧ ¬ Below s.nodes x q) → s₄.nodes q = s₃.nodes q := fun q hq =>
    hkeep q fun hb => hq (hs₃.below_mem ⟨.refl, hux⟩ hb)
  refine ⟨s₄, u, cu, ?_, by omega, hu, hcu, ?_, ?_, ?_⟩
  · have hcond : ¬ (¬ c.data.words.isEmpty = true ∨ c.children.length ≠ 1 ∨ (c.data.op ≠ .or ∧ c.data.op ≠ .and)) := by
      rw [hcomp.1, hkids]
      rintro (h | h | h)
      · exact h rfl
      · exact h rfl
      · exact hcomp.2.elim h.1 h.2
    simp only [compositeFixup, hc, if_neg hcond, bind_eq_bind, bind_some]
    simp only [hkids, getElem?_cons_zero, h₁, h₂, hclimb, h₃, h₄, bind_some, hr.newRoot_eq huS hcu]
    rfl
  · intro d hd
    cases hcx.symm.trans hd
    rw [hstay x fun h => h.2 .refl, hchild₃]
  · intro q hq hqx
    obtain ⟨d, hd⟩ := hs.live q (hs.below_mem hxS hq)
    rw [hstay q fun h => h.2 hq, hin₃ q d (hlow q hq) hqx ((hsame₂ q (hxlow q hq) hqx).trans hd), hd]
  · intro q d hd hb
    have hqx : q ≠ x := fun h => hb (h ▸ hlow x .refl)
    rw [hstay q fun h => hb h.1, hsame₃ q d hqx ((hsame₂ q (fun h => hb (h ▸ hub)) hqx).trans hd)]
    by_cases hqu : q = cu.parent
    · subst hqu
      rw [if_pos rfl, if_pos rfl, replaceFirst_eq_map]
      exact hs.nodup _ d (hr.parent_mem huS hcu (Nat.ne_of_gt (s.pos hd))).1 hd
    · rw [if_neg hqu, if_neg hqu]

/-- **`CompositeFixup` leaves a tree of the same value**, and what is not below the root as it was. -/
theorem compositeFixup_rep {t : Query κ} (ht : Rep s.nodes 0 root t) (hp : Below s.nodes root p) :
    ∃ s' root' t', compositeFixup s root p = some (s', root') ∧ s'.next = s.next ∧ Rep s'.nodes 0 root' t' ∧
      Below s.nodes root root' ∧ (∀ q d, s.nodes q = some d → ¬ Below s.nodes root q → s'.nodes q = some d) ∧
      ∀ (β : Type) [Inhabited β] (f : Data κ → List β → β), Neutral f → t'.eval f = t.eval f := by
  have hr := ht.rooted
  have hs := hr.toShape
  obtain ⟨c, hc⟩ := hr.live p hp
  by_cases hsingle : Composite c.data ∧ c.children.length = 1
  · obtain ⟨x, hx⟩ := length_eq_one_iff.mp hsingle.2
    obtain ⟨hxS, -, cx, hcx, -⟩ := hr.kids p c hp hc x (by rw [hx]; exact mem_cons_self)
    obtain ⟨s', u, cu, h', hnext, hu, hcu, hx', hin, hout⟩ := compositeFixup_single hr hp hc hsingle.1 hx
    obtain ⟨huS, hub, -⟩ := hu.mem hr hp
    -- the tree at `x` moves into the place of the one at `u`
    obtain ⟨tx, htx, htxe⟩ := hs.rep hxS hcx
    obtain ⟨t', ht', hte⟩ := hr.replant huS hcu (htx.move hcx (hx' cx hcx) hin)
      (fun _ => hub.step hc (by rw [hx]; exact mem_cons_self)) fun q d hd _ hb => hout q d hd hb
    refine ⟨s', _, t', h', hnext, ht', ?_, ?_, ?_⟩
    · rw [Splice.newRoot]
      split
      · exact hxS
      · exact .refl
    · intro q d hd hq
      rw [hout q d hd fun h => hq (huS.trans h), if_neg]
      rintro rfl
      exact hq (hr.parent_mem huS hcu (Nat.ne_of_gt (s.pos hd))).1
    · intro β _ f hf
      obtain ⟨E, hE, hEt⟩ := hs.exists_val f
      rw [hte β f E (fun q d hq hd => hE q d hq.1 hd) ?_, hEt root 0 t ht]
      rw [htxe β f E hE, hu.val hr hp hf hE, hE p c hp hc, hx, map_singleton, hf _ _ hsingle.1]
  · exact ⟨s, root, t, compositeFixup_other hc hsingle, rfl, ht, .refl, fun _ _ hd _ => hd, fun _ _ _ _ => rfl⟩

end Climb

end XQ
end Manticore

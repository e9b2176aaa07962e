import Manticore.XQBuild
import Manticore.XQCleanup
/-!
# TransformCommonSubTerm — `((A (AA | X)) | (B (BB | X)) | R)`

The common node leaves the ORs, and one more branch `(A | B) X` with copies of `A` and `B` takes over its documents.  The
ORs leave their ANDs while these are copied and come back as the last children; an OR left with one child is collapsed at
the end.
-/
namespace Manticore
namespace XQ

open PtrTree
open List hiding and or
open Option (bind_eq_bind bind_some)
open Function (comp_def update_of_ne)

variable {κ : Type} {s s₁ : Store κ} {S : Nat → Prop} {rank : Nat → Nat} {root o w : Nat} {g p : Nat → Nat} {similar : List Nat}

/-- `CSphTransformation::CheckCommonSubTerm`. -/
def checkCommonSubTerm (s : Store κ) (p : Nat) : Bool :=
  valid s 3 p && (s.nodes p).any (fun c => c.data.op != .phrase || c.children.isEmpty) && grandOp s 1 p == some .or &&
    grandOp s 2 p == some .and && grandOp s 3 p == some .or

/-- One turn of the first loop; gives the parent of the equal node, which leaves its own parent. -/
def excludeSimilar (weakest : Nat) (s : Store κ) (x : Nat) : Option (Store κ × Nat) := do
  let c ← s.nodes x
  let s ← cutSimilar weakest s x
  let d ← s.nodes c.parent
  let s ← removeChild s d.parent c.parent
  return (s, c.parent)

/-- The different parents of the related nodes, in order. -/
def relatedParents (s : Store κ) (related : List Nat) : Option (List Nat) :=
  related.foldlM (fun done r => do
    let c ← s.nodes r
    return if c.parent ∈ done then done else done ++ [c.parent]) []

/-- `Clone` with a `CompositeFixup` of the copy. -/
def cloneFixed (s : Store κ) (p : Nat) : Option (Store κ × Nat) := do
  let (s, q) ← clone s p
  compositeFixup s q q

def pushBack (s : Store κ) (excl : Nat) : Option (Store κ) := do
  let c ← s.nodes excl
  withChildren s c.parent (· ++ [excl])

/-- `CSphTransformation::MakeTransformCommonSubTerm`; gives the root afterwards. -/
def makeTransformCommonSubTerm (s : Store κ) (root : Nat) (similar related : List Nat) : Option (Store κ × Nat) := do
  let w ← getWeakestIndex s similar
  let x ← similar[w]?
  let (s, excluded) ← eachNode (excludeSimilar x) similar s
  let parents ← relatedParents s related
  let (s, clones) ← eachNode cloneFixed parents s
  let s ← excluded.foldlM pushBack s
  let (s, or) ← newOp s .or clones
  let commonOr ← grand s 3 x
  let (s, and) ← newOp s .and [or, x]
  let s ← addNewChild s commonOr and
  excluded.foldlM (fun (st : Store κ × Nat) excl => cleanupSubtree st.1 st.2 excl) (s, root)

/-- `CSphTransformation::TransformCommonSubTerm` on one group of equal nodes; `useful` is what the costs say.  Gives the
root and whether the tree was changed. -/
def transformCommonSubTerm (useful : Bool) (s : Store κ) (root : Nat) (similar : List Nat) :
    Option (Store κ × Nat × Bool) :=
  if similar.length < 2 ∨ hasSameParent s similar ∨ hasSameGrand s similar then some (s, root, false)
  else do
    let related ← collectRelatedNodes s 1 2 similar
    if related.length ≤ 1 ∨ ¬ useful then return (s, root, false)
    let (s, root) ← makeTransformCommonSubTerm s root similar related
    return (s, root, true)

/-! ## Branches -/

/-- No AND and no OR has just one child, except an AND below an ANDNOT. -/
def NoSingles (h : Heap (Data κ)) (root : Nat) : Prop :=
  ∀ p c, Below h root p → h p = some c → c.children.length = 1 → Composite c.data →
    c.data.op = .and ∧ ∃ d, h c.parent = some d ∧ d.data.op = .andNot

/-- A branch `A (X | ...)`: the node `x` is a child of the OR node `p`, that of the AND node `g`, and that of `o`. -/
structure Term (h : Heap (Data κ)) (o g p x : Nat) : Prop where
  top : ∃ c, h o = some c ∧ c.data.words = [] ∧ c.data.op = .or ∧ g ∈ c.children
  and : ∃ c, h g = some c ∧ c.data.words = [] ∧ c.data.op = .and ∧ p ∈ c.children ∧ c.parent = o ∧ 2 ≤ c.children.length
  or  : ∃ c, h p = some c ∧ c.data.words = [] ∧ c.data.op = .or ∧ x ∈ c.children ∧ c.parent = g ∧ 2 ≤ c.children.length

section Terms

variable {x : Nat}

theorem Term.ranks {h : Heap (Data κ)} {g p : Nat} (ht : Term h o g p x) (hs : Shape h S rank) (ho : S o) :
    (S g ∧ rank g < rank o ∧ Below h o g) ∧ (S p ∧ rank p < rank g ∧ Below h g p) ∧ S x ∧ rank x < rank p ∧ Below h p x := by
  obtain ⟨c, hc, -, -, hg⟩ := ht.top
  obtain ⟨d, hd, -, -, hp, -⟩ := ht.and
  obtain ⟨e, he, -, -, hx, -⟩ := ht.or
  obtain ⟨hgS, hglt, -⟩ := hs.kids o c ho hc g hg
  obtain ⟨hpS, hplt, -⟩ := hs.kids g d hgS hd p hp
  obtain ⟨hxS, hxlt, -⟩ := hs.kids p e hpS he x hx
  exact ⟨⟨hgS, hglt, Below.refl.step hc hg⟩, ⟨hpS, hplt, Below.refl.step hd hp⟩, hxS, hxlt, Below.refl.step he hx⟩

theorem Term.disjoint {h : Heap (Data κ)} {g p g' p' x' : Nat} (ht : Term h o g p x) (ht' : Term h o g' p' x')
    (hs : Shape h S rank) (ho : S o) (hne : g ≠ g') {q : Nat} (h1 : Below h g q) (h2 : Below h g' q) : False := by
  obtain ⟨c, hc, -, -, hmem⟩ := ht.top
  obtain ⟨c', hc', -, -, hmem'⟩ := ht'.top
  cases hc.symm.trans hc'
  exact hs.below_disjoint ho hc hmem hmem' hne h1 h2

/-- The branches above the equal nodes of a tree, all below the OR node `o` and each with an AND of its own. -/
structure Terms (s : Store κ) (S : Nat → Prop) (rank : Nat → Nat) (root o : Nat) (g p : Nat → Nat) (similar : List Nat) : Prop
    extends Rooted s.nodes S rank root where
  common : S o
  term : ∀ x ∈ similar, Term s.nodes o (g x) (p x) x
  inj : ∀ x ∈ similar, ∀ y ∈ similar, g x = g y → x = y
  distinct : similar.Nodup

variable (hT : Terms s S rank root o g p similar)
include hT

section
variable (hx : x ∈ similar)
include hx

theorem Terms.ranks : (S (g x) ∧ rank (g x) < rank o ∧ Below s.nodes o (g x)) ∧
    (S (p x) ∧ rank (p x) < rank (g x) ∧ Below s.nodes (g x) (p x)) ∧ S x ∧ rank x < rank (p x) ∧ Below s.nodes (p x) x :=
  (hT.term x hx).ranks hT.toShape hT.common

theorem Terms.down {q : Nat} (hq : Below s.nodes x q) : Below s.nodes (p x) q ∧ Below s.nodes (g x) q := by
  obtain ⟨-, ⟨-, -, hgp⟩, -, -, hpx⟩ := hT.ranks hx
  exact ⟨hpx.trans hq, hgp.trans (hpx.trans hq)⟩

theorem Terms.unique {y q : Nat} (hy : y ∈ similar) (hbx : Below s.nodes (g x) q)
    (hby : Below s.nodes (g y) q) : x = y := by
  by_contra hne
  exact (hT.term x hx).disjoint (hT.term y hy) hT.toShape hT.common (fun h => hne (hT.inj x hx y hy h)) hbx hby

theorem Terms.mem_top {co : Node κ} (hco : s.nodes o = some co) : g x ∈ co.children := by
  obtain ⟨c, hc, -, -, hmem⟩ := (hT.term x hx).top
  cases hco.symm.trans hc
  exact hmem

end

theorem Terms.apart : Apart s o similar where
  nodup := hT.distinct
  below x hx := by
    obtain ⟨⟨-, hglt, hog⟩, ⟨-, hplt, hgp⟩, -, hxlt, hpx⟩ := hT.ranks hx
    refine ⟨hog.trans (hgp.trans hpx), ?_⟩
    rintro rfl
    omega
  unique x hx y hy q hbx hby :=
    hT.unique hx hy (hT.down hx hbx).2 (hT.down hy hby).2

theorem Terms.above {y q : Nat} (hx : x ∈ similar) (hy : y ∈ similar) (hq : Below s.nodes (g x) q) (hlt : rank x < rank q) :
    ¬ Below s.nodes y q := by
  intro h
  cases hT.unique hx hy hq (hT.down hy h).2
  exact hT.not_below_of_lt (hT.ranks hx).2.2.1 hlt h

theorem Terms.or_ne (hw : w ∈ similar) (hx : x ∈ similar) : p x ≠ w ∧ p x ≠ o ∧ ∀ y ∈ similar, p x ≠ g y := by
  obtain ⟨⟨-, hglt, -⟩, ⟨-, hplt, hgp⟩, -, hxlt, -⟩ := hT.ranks hx
  refine ⟨fun h => hT.above hx hw hgp hxlt (h ▸ .refl), fun h => ?_, fun y hy h => ?_⟩
  · have := congrArg rank h
    omega
  · cases hT.unique hx hy hgp (h ▸ .refl)
    have := congrArg rank h
    omega

end Terms

/-! ## The first loop -/

section Exclude

/-- The nodes that are no children any more after the loop over `done`. -/
def excludedNodes (p : Nat → Nat) (done : List Nat) : List Nat := done.flatMap fun x => [x, p x]

theorem excludeSimilar_step (hT : Terms s S rank root o g p similar) {R D : List Nat}
    (hp : Pruned s S R D s₁) (hD : ∀ d ∈ D, d ∈ similar) {x : Nat} (hx : x ∈ similar) (hnew : x ∉ D) :
    ∃ s₂, excludeSimilar w s₁ x = some (s₂, p x) ∧ Pruned s S (R ++ [x, p x]) (if x = w then D else D ++ [x]) s₂ := by
  have ha := hT.apart
  obtain ⟨⟨hgS, -⟩, ⟨hpS, hplt, hgp⟩, hxS, hxlt, -⟩ := hT.ranks hx
  obtain ⟨e, he, -, -, hxe, hepar, -⟩ := (hT.term x hx).or
  obtain ⟨-, -, c, hc, hpar⟩ := hT.kids _ e hpS he x hxe
  have hcell := hp.cell x c hxS (fun y hy hb => hnew (ha.unique x hx y (hD y hy) x .refl hb ▸ hy)) hc
  obtain ⟨s₂, h₂, hp₂⟩ := cutSimilar_step hT.toRooted hT.common ha hp hD hx hnew (w := w)
  have hD₂ : ∀ d ∈ (if x = w then D else D ++ [x]), d ∈ similar := by
    intro d hd
    split at hd
    · exact hD d hd
    · rcases List.mem_append.mp hd with h | h
      · exact hD d h
      · exact mem_singleton.mp h ▸ hx
  have hpcell := hp₂.cell (p x) e hpS (fun d hd => hT.above hx (hD₂ d hd) hgp hxlt) he
  obtain ⟨s₃, h₃, hp₃⟩ := hp₂.remove hT.toRooted hpS he (by rw [hepar]; exact hT.ne_zero hgS) (by
    intro d hd
    rw [hepar]
    exact hT.above hx (hD₂ d hd) .refl (by omega))
  refine ⟨s₃, ?_, by simpa only [append_assoc, singleton_append] using hp₃⟩
  simp only [excludeSimilar, hcell, h₂, hpar, hpcell, h₃, bind_eq_bind, bind_some]
  rfl

theorem excludeSimilar_run (hT : Terms s S rank root o g p similar) (xs : List Nat) :
    ∀ {d : List Nat} {s₁ : Store κ}, Pruned s S (excludedNodes p d) (d.filter (· ≠ w)) s₁ →
      (∀ x ∈ d, x ∈ similar) → (∀ x ∈ xs, x ∈ similar) → (d ++ xs).Nodup →
      ∃ s₂, eachNode (excludeSimilar w) xs s₁ = some (s₂, xs.map p) ∧
        Pruned s S (excludedNodes p (d ++ xs)) ((d ++ xs).filter (· ≠ w)) s₂ := by
  induction xs with
  | nil =>
    intro d s₁ hp _ _ _
    exact ⟨s₁, rfl, by rwa [append_nil]⟩
  | cons x xs ih =>
    intro d s₁ hp hdone hxs hnd'
    have hnew : x ∉ d := fun hmem => (nodup_append.mp hnd').2.2 x hmem x mem_cons_self rfl
    obtain ⟨s₂, h₂, hp₂⟩ := excludeSimilar_step hT hp (fun d hd => hdone d (mem_filter.mp hd).1)
      (hxs x mem_cons_self) (w := w) fun h => hnew (mem_filter.mp h).1
    have hR : excludedNodes p d ++ [x, p x] = excludedNodes p (d ++ [x]) := by
      rw [excludedNodes, excludedNodes, flatMap_append, flatMap_singleton]
    rw [hR, filter_ne_snoc] at hp₂
    obtain ⟨s₃, h₃, hp₃⟩ := ih hp₂ (by
      intro y hy
      rcases List.mem_append.mp hy with hy | hy
      · exact hdone y hy
      · exact mem_singleton.mp hy ▸ hxs x mem_cons_self) (forall_mem_cons.mp hxs).2
      (by rwa [append_assoc, singleton_append])
    rw [append_assoc, singleton_append] at hp₃
    refine ⟨s₃, ?_, hp₃⟩
    simp only [eachNode, h₂, h₃, bind_eq_bind, bind_some]
    rfl

end Exclude

/-! ## Copies of the ANDs -/

theorem duplicates_cloneFixed : Duplicates (κ := κ) cloneFixed fun _ => True := by
  intro s h S par p c G hn _ _
  obtain ⟨s₁, h₁, hg₁, ⟨t, ht, hte⟩, hlow⟩ := clone_now hn
  obtain ⟨s₂, q, t', h₂, hx₂, ht', hq, hold, hval⟩ := compositeFixup_rep ht .refl
  refine ⟨s₂, q, ?_, ⟨by rw [hx₂]; exact hg₁.next, fun r d hd _ => ?_⟩, hlow q hq, t', ht', fun v E hE => ?_⟩
  · simp only [cloneFixed, h₁, bind_eq_bind, bind_some]
    exact h₂
  · exact hold r d (hg₁.old r d hd (by simp)) fun hb => Nat.not_lt_of_le (hlow r hb) (s.lt_next hd)
  · rw [hval Bool _ (neutral_meaning v), hte v E hE]

/-! ## The related nodes -/

def kidsOf (s : Store κ) (q : Nat) : List Nat := ((s.nodes q).map Cell.children).getD []

theorem kidsOf_eq {q : Nat} {c : Node κ} (hc : s.nodes q = some c) : kidsOf s q = c.children := by
  rw [kidsOf, hc, Option.map_some, Option.getD_some]

section Related

theorem collectRelated_terms (hB : ∀ x ∈ similar, Term s.nodes o (g x) (p x) x)
    (hg : ∀ x ∈ similar, grand s 1 x = some (p x) ∧ grand s 2 x = some (g x)) :
    collectRelatedNodes s 1 2 similar = some (similar.flatMap fun x => (kidsOf s (g x)).filter (· ≠ p x)) := by
  induction similar with
  | nil => rfl
  | cons x xs ih =>
    obtain ⟨h1, h2⟩ := hg x mem_cons_self
    obtain ⟨c, hc, -⟩ := (hB x mem_cons_self).and
    simp only [collectRelatedNodes, h1, h2, hc, ih (forall_mem_cons.mp hB).2
      (forall_mem_cons.mp hg).2, bind_eq_bind, bind_some, flatMap_cons, kidsOf_eq hc]
    rfl

theorem relatedParents_block {q : Nat} (rs : List Nat) (hrs : ∀ r ∈ rs, ∃ c, s.nodes r = some c ∧ c.parent = q) (done : List Nat) :
    rs.foldlM (fun done r => do
      let c ← s.nodes r
      return if c.parent ∈ done then done else done ++ [c.parent]) done =
      some (if rs = [] ∨ q ∈ done then done else done ++ [q]) := by
  induction rs generalizing done with
  | nil => rw [if_pos (.inl rfl)]; rfl
  | cons r rs ih =>
    obtain ⟨c, hc, hpar⟩ := hrs r mem_cons_self
    rw [foldlM_cons, hc]
    simp only [bind_eq_bind, bind_some, hpar, Option.pure_def]
    have ih' := ih (forall_mem_cons.mp hrs).2
    simp only [bind_eq_bind, Option.pure_def] at ih'
    rw [ih']
    by_cases hq : q ∈ done
    · simp [hq]
    · simp [hq]

theorem relatedParents_eq {l : Nat → List Nat} (hl : ∀ x ∈ similar, l x ≠ [] ∧ ∀ r ∈ l x, ∃ c, s.nodes r = some c ∧ c.parent = g x)
    (hnd : (similar.map g).Nodup) : relatedParents s (similar.flatMap l) = some (similar.map g) := by
  have hgo : ∀ (xs done : List Nat), (∀ x ∈ xs, x ∈ similar) → (done ++ xs.map g).Nodup →
      (xs.flatMap l).foldlM (fun done r => do
        let c ← s.nodes r
        return if c.parent ∈ done then done else done ++ [c.parent]) done = some (done ++ xs.map g) := by
    intro xs
    induction xs with
    | nil =>
      intro done _ _
      rw [map_nil, append_nil]
      rfl
    | cons x xs ih =>
      intro done hxs hnd
      obtain ⟨hne, hrs⟩ := hl x (hxs x mem_cons_self)
      have hnew : g x ∉ done := fun h => (nodup_append.mp hnd).2.2 _ h _ (by simp) rfl
      rw [flatMap_cons, foldlM_append, relatedParents_block (l x) hrs done]
      simp only [hne, hnew, or_self, if_false, bind_eq_bind, bind_some]
      have ih' := ih (done ++ [g x]) (forall_mem_cons.mp hxs).2 (by
        simpa only [append_assoc, singleton_append, map_cons] using hnd)
      simp only [bind_eq_bind] at ih'
      rw [ih', append_assoc, singleton_append, map_cons]
  exact hgo similar [] (fun _ h => h) hnd

end Related

/-! ## The ORs come back -/

/-- The ORs of `done` are the last children of their ANDs. -/
structure Pushed (g p : Nat → Nat) (s : Store κ) (done : List Nat) (s' : Store κ) : Prop where
  next : s'.next = s.next
  same : ∀ q, (∀ x ∈ done, q ≠ g x) → s'.nodes q = s.nodes q
  cell : ∀ x ∈ done, ∀ c, s.nodes (g x) = some c → s'.nodes (g x) = some { c with children := c.children ++ [p x] }

section Push

theorem Pushed.parent {done : List Nat} (hd : Pushed g p s done s₁) {q : Nat} {c : Node κ} (hc : s.nodes q = some c) :
    ∃ c', s₁.nodes q = some c' ∧ c'.data = c.data ∧ c'.parent = c.parent := by
  by_cases h : ∃ x ∈ done, q = g x
  · obtain ⟨x, hx, rfl⟩ := h
    exact ⟨_, hd.cell x hx c hc, rfl, rfl⟩
  · exact ⟨c, by rw [hd.same q fun x hx hq => h ⟨x, hx, hq⟩, hc], rfl, rfl⟩

theorem Pushed.grows {done : List Nat} (hd : Pushed g p s done s₁) : Grows (done.map g) s s₁ :=
  ⟨le_of_eq hd.next.symm, fun q _ hc hq => (hd.same q fun _ hx h => hq (h ▸ mem_map_of_mem hx)).trans hc⟩

theorem pushBack_run (hlive : ∀ x ∈ similar, (∃ e, s.nodes (p x) = some e ∧ e.parent = g x) ∧ ∃ c, s.nodes (g x) = some c)
    (hinj : ∀ x ∈ similar, ∀ y ∈ similar, g x = g y → x = y)
    (hch : ∀ h' : Heap (Data κ), (∀ q c, s.nodes q = some c → ∃ c', h' q = some c' ∧ c'.data = c.data ∧ c'.parent = c.parent) →
      ∀ x ∈ similar, Chain h' (g x)) (hnd : similar.Nodup) :
    ∃ s₂, (similar.map p).foldlM pushBack s = some s₂ ∧ Pushed g p s similar s₂ := by
  rw [foldlM_map]
  refine foldlM_run (I := Pushed g p s) ?_ ⟨rfl, fun _ _ => rfl, forall_mem_nil _⟩ (fun _ h => h) hnd
  intro d s₁ x hd hdone hx hnew
  obtain ⟨⟨e, he, hpar⟩, c, hc⟩ := hlive x hx
  have hne : ∀ y ∈ d, g x ≠ g y := fun y hy h => hnew (hinj x hx y (hdone y hy) h ▸ hy)
  obtain ⟨e', he', -, hpar'⟩ := hd.parent he
  have hc₁ : s₁.nodes (g x) = some c := by rw [hd.same _ hne, hc]
  obtain ⟨s₂, h₂, hn₂, hx₂⟩ := withChildren_spec hc₁ (hch s₁.nodes (fun q c hc => hd.parent hc) x hx) (· ++ [p x])
  refine ⟨s₂, ?_, hx₂.trans hd.next, ?_, ?_⟩
  · simp only [pushBack, he', hpar', hpar, bind_eq_bind, bind_some]
    exact h₂
  · intro q hq
    rw [hn₂, update_of_ne (hq x (by simp)), hd.same q fun y hy => hq y (List.mem_append.mpr (.inl hy))]
  · intro y hy d hyd
    rw [hn₂]
    rcases List.mem_append.mp hy with hy | hy
    · rw [update_of_ne (hne y hy).symm, hd.cell y hy d hyd]
    · cases mem_singleton.mp hy
      cases hc.symm.trans hyd
      rw [Function.update_self]

end Push

/-! ## The branches afterwards -/

section Tree

variable {co : Node κ}

theorem mem_excludedNodes {y : Nat} : y ∈ excludedNodes p similar ↔ ∃ x ∈ similar, y = x ∨ y = p x := by
  simp [excludedNodes]

/-- No equal node and no OR above one is below `q`. -/
def Untouched (s : Store κ) (p : Nat → Nat) (similar : List Nat) (q : Nat) : Prop :=
  ∀ r c, Below s.nodes q r → s.nodes r = some c → ∀ y ∈ c.children, y ∉ excludedNodes p similar

theorem untouched_of_below {q : Nat} (hq : ∀ y ∈ similar, ¬ Below s.nodes q y ∧ ¬ Below s.nodes q (p y)) :
    Untouched s p similar q := by
  intro r c hb hc z hz hmem
  obtain ⟨y, hy, rfl | rfl⟩ := mem_excludedNodes.mp hmem
  · exact (hq z hy).1 (hb.step hc hz)
  · exact (hq y hy).2 (hb.step hc hz)

/-- The ORs are the last children of their ANDs again. -/
def Regained (s : Store κ) (g p : Nat → Nat) (similar : List Nat) (h' : Heap (Data κ)) : Prop :=
  ∀ x ∈ similar, ∀ c, s.nodes (g x) = some c →
    h' (g x) = some { c with children := c.children.filter (· ∉ excludedNodes p similar) ++ [p x] }

variable (hT : Terms s S rank root o g p similar) (hw : w ∈ similar)
  (hp : Pruned s S (excludedNodes p similar) (similar.filter (· ≠ w)) s₁) {h' : Heap (Data κ)}
  (hold : ∀ q c, s₁.nodes q = some c → q ≠ w → q ≠ o → (∀ x ∈ similar, q ≠ g x) → h' q = some c) {x r : Nat} {c : Node κ}

include hT

theorem Terms.rest (hx : x ∈ similar) : Rest s o w similar (g x) ∧ Rest s o w similar (p x) := by
  obtain ⟨⟨-, -, hog⟩, ⟨-, hplt, hgp⟩, -, hxlt, -⟩ := hT.ranks hx
  exact ⟨.inl ⟨hog, fun y hy => hT.above hx hy .refl (by omega)⟩,
    .inl ⟨hog.trans hgp, fun y hy => hT.above hx hy hgp hxlt⟩⟩

include hw hp in
theorem Terms.rest_cell {q : Nat} (hq : Rest s o w similar q) (hc : s.nodes q = some c) :
    s₁.nodes q = some { c with children := c.children.filter (· ∉ excludedNodes p similar) } := by
  have ha := hT.apart
  exact hp.cell q c (hT.below_mem hT.common (hq.below ha hw)) (hq.kept ha hw) hc

/-- A node below `g x` that is apart from the branch to `x`. -/
theorem Terms.beside (hx : x ∈ similar) {z : Nat} (hgr : Below s.nodes (g x) r) (hzx : Below s.nodes z x)
    (hapart : ∀ q, Below s.nodes z q → ¬ Below s.nodes r q) (hrp : ¬ Below s.nodes r (p x)) :
    Rest s o w similar r ∧ Untouched s p similar r := by
  have hown : ∀ y ∈ similar, ∀ q, Below s.nodes r q → Below s.nodes (g y) q → y = x := fun y hy q h h' =>
    (hT.unique hx hy (hgr.trans h) h').symm
  refine ⟨.inl ⟨(hT.ranks hx).1.2.2.trans hgr, fun y hy hyr => ?_⟩, untouched_of_below fun y hy => ⟨fun h => ?_, fun h => ?_⟩⟩
  · cases hown y hy r .refl (hT.down hy hyr).2
    exact hapart r (hzx.trans hyr) .refl
  · cases hown y hy y h (hT.down hy .refl).2
    exact hapart x hzx h
  · cases hown y hy _ h (hT.ranks hy).2.1.2.2
    exact hrp h

theorem Terms.sibling (hx : x ∈ similar) (hc : s.nodes (g x) = some c) (hrc : r ∈ c.children) (hne : r ≠ p x) :
    Rest s o w similar r ∧ Untouched s p similar r := by
  obtain ⟨⟨hgS, -⟩, -, -, -, hpx⟩ := hT.ranks hx
  obtain ⟨d, hd, -, -, hmem, -⟩ := (hT.term x hx).and
  cases hc.symm.trans hd
  have hapart : ∀ q, Below s.nodes (p x) q → ¬ Below s.nodes r q := fun q h h' =>
    hT.below_disjoint hgS hc hmem hrc hne.symm h h'
  exact hT.beside hx (Below.refl.step hc hrc) hpx hapart (hapart _ .refl)

theorem Terms.alternative (hx : x ∈ similar) (hc : s.nodes (p x) = some c) (hrc : r ∈ c.children) (hne : r ≠ x) :
    Rest s o w similar r ∧ Untouched s p similar r := by
  obtain ⟨-, ⟨hpS, -, hgp⟩, -⟩ := hT.ranks hx
  obtain ⟨d, hd, -, -, hmem, -⟩ := (hT.term x hx).or
  cases hc.symm.trans hd
  obtain ⟨hrS, hrlt, -⟩ := hT.kids _ c hpS hc r hrc
  exact hT.beside hx (hgp.trans (Below.refl.step hc hrc)) .refl
    (fun q h h' => hT.below_disjoint hpS hc hmem hrc hne.symm h h') (hT.not_below_of_lt hrS hrlt)

theorem Terms.other (hco : s.nodes o = some co) (hrc : r ∈ co.children) (hne : r ∉ similar.map g) :
    Rest s o w similar r ∧ Untouched s p similar r := by
  have hout : ∀ y ∈ similar, ∀ q, Below s.nodes r q → ¬ Below s.nodes (g y) q := by
    intro y hy q h h'
    exact hT.below_disjoint hT.common hco hrc (hT.mem_top hy hco) (fun h => hne (mem_map.mpr ⟨y, hy, h.symm⟩)) h h'
  refine ⟨.inl ⟨Below.refl.step hco hrc, fun y hy hyr => ?_⟩, untouched_of_below fun y hy => ⟨fun h => ?_, fun h => ?_⟩⟩
  · exact hout y hy r .refl (hT.down hy hyr).2
  · exact hout y hy y h (hT.down hy .refl).2
  · exact hout y hy _ h (hT.ranks hy).2.1.2.2

include hw in
theorem Terms.kept : Untouched s p similar w := by
  intro r c hb hc z hz hmem
  obtain ⟨y, hy, rfl | rfl⟩ := mem_excludedNodes.mp hmem
  · exact hT.apart.not_child hT.toShape hT.common hw hb hc hz hy
  · obtain ⟨-, ⟨-, -, hgp⟩, -, hlt, -⟩ := hT.ranks hy
    exact hT.above hy hw hgp hlt (hb.step hc hz)

include hw hp in
theorem Terms.untouched_same {q : Nat} (hq : Rest s o w similar q) (hu : Untouched s p similar q) (hb : Below s.nodes q r) :
    s₁.nodes r = s.nodes r :=
  hp.same_rest hT.toShape hT.common hT.apart hw (fun x hx => mem_excludedNodes.mpr ⟨x, hx, .inl rfl⟩) hq hu hb

include hw hp hold in
theorem Terms.untouched_keep {q : Nat} (hq : Rest s o w similar q) (hu : Untouched s p similar q) (hqw : q ≠ w)
    (hlt : rank q < rank o) (hc : s.nodes q = some c) : Now meaning s.nodes S h' c.parent q fun _ E => E q := by
  refine hp.now_rest hT.toShape hT.common hT.apart hw (fun x hx => mem_excludedNodes.mpr ⟨x, hx, .inl rfl⟩) hq hu hc
    fun r d hb hd => hold r d hd ?_ ?_ ?_
  · rintro rfl
    cases hb with
    | refl => exact hqw rfl
    | step hb hc hmem => exact hu _ _ hb hc _ hmem (mem_excludedNodes.mpr ⟨_, hw, .inl rfl⟩)
  · rintro rfl
    exact hT.not_below_of_lt (hT.below_mem hT.common (hq.below hT.apart hw)) hlt hb
  · rintro x hx rfl
    obtain ⟨e, he, -, -, hmem, -⟩ := (hT.term x hx).and
    exact hu _ e hb he _ hmem (mem_excludedNodes.mpr ⟨x, hx, .inr rfl⟩)

theorem Terms.filter_excluded (hx : x ∈ similar) :
    (∀ c, s.nodes (g x) = some c → ∀ r, r ∈ c.children.filter (· ∉ excludedNodes p similar) ↔ r ∈ c.children ∧ r ≠ p x) ∧
      ∀ c, s.nodes (p x) = some c → ∀ r, r ∈ c.children.filter (· ∉ excludedNodes p similar) ↔ r ∈ c.children ∧ r ≠ x := by
  obtain ⟨⟨hgS, -⟩, ⟨hpS, hplt, hgp⟩, -, hxlt, -⟩ := hT.ranks hx
  have hown : ∀ r, Below s.nodes (g x) r → r ∈ excludedNodes p similar → r = x ∨ r = p x := by
    intro r hgr hmem
    obtain ⟨y, hy, rfl | rfl⟩ := mem_excludedNodes.mp hmem
    · exact .inl (hT.unique hx hy hgr (hT.down hy .refl).2).symm
    · cases hT.unique hx hy hgr (hT.ranks hy).2.1.2.2
      exact .inr rfl
  constructor
  · intro c hc r
    rw [mem_filter]
    refine and_congr_right fun hrc => ⟨fun h hrp => ?_, fun hne => decide_eq_true fun hmem => ?_⟩
    · exact of_decide_eq_true h (mem_excludedNodes.mpr ⟨x, hx, .inr hrp⟩)
    · rcases hown r (Below.refl.step hc hrc) hmem with h | h
      · -- the equal node has one parent only
        obtain ⟨-, -, d, hd, hpar⟩ := hT.kids _ c hgS hc r hrc
        obtain ⟨e, he, -, -, hxe, -⟩ := (hT.term x hx).or
        obtain ⟨-, -, d', hd', hpar'⟩ := hT.kids _ e hpS he x hxe
        rw [h] at hd
        cases hd.symm.trans hd'
        have := congrArg rank (hpar.symm.trans hpar')
        omega
      · exact hne h
  · intro c hc r
    rw [mem_filter]
    refine and_congr_right fun hrc => ⟨fun h hrx => ?_, fun hne => decide_eq_true fun hmem => ?_⟩
    · exact of_decide_eq_true h (mem_excludedNodes.mpr ⟨x, hx, .inl hrx⟩)
    · rcases hown r (hgp.step hc hrc) hmem with h | h
      · exact hne h
      · have := (hT.kids _ c hpS hc r hrc).2.1
        rw [h] at this
        exact lt_irrefl _ this

/-- What is left of the children of an AND, and of an OR. -/
def restAll (s : Store κ) (R : List Nat) (q : Nat) (E : Nat → Bool) : Bool := ((kidsOf s q).filter (· ∉ R)).all E
def restAny (s : Store κ) (R : List Nat) (q : Nat) (E : Nat → Bool) : Bool := ((kidsOf s q).filter (· ∉ R)).any E

theorem Terms.value (hx : x ∈ similar) {v : κ → Bool} {E : Nat → Bool} (hE : Val s.nodes S (meaning v) E) :
    E (g x) = (restAll s (excludedNodes p similar) (g x) E && (E x || restAny s (excludedNodes p similar) (p x) E)) := by
  obtain ⟨⟨hgS, -⟩, ⟨hpS, -⟩, -⟩ := hT.ranks hx
  obtain ⟨c, hc, hcw, hcop, hpc, -⟩ := (hT.term x hx).and
  obtain ⟨d, hd, hdw, hdop, hxd, -⟩ := (hT.term x hx).or
  obtain ⟨hfg, hfp⟩ := hT.filter_excluded hx
  have hgE : E (g x) = c.children.all E := by
    rw [hE _ c hgS hc]
    simp [meaning, hcw, hcop]
  have hpE : E (p x) = d.children.any E := by
    rw [hE _ d hpS hd]
    simp [meaning, hdw, hdop]
  rw [restAll, restAny, kidsOf_eq hc, kidsOf_eq hd, hgE, Bool.eq_iff_iff, Bool.and_eq_true, Bool.or_eq_true, all_eq_true,
    all_eq_true, any_eq_true]
  have hpE : E (p x) = true ↔ E x = true ∨ ∃ r ∈ d.children.filter (· ∉ excludedNodes p similar), E r = true := by
    rw [hpE, any_eq_true]
    constructor
    · rintro ⟨r, hr', hrE⟩
      by_cases hrx : r = x
      · exact .inl (hrx ▸ hrE)
      · exact .inr ⟨r, (hfp d hd r).mpr ⟨hr', hrx⟩, hrE⟩
    · rintro (h | ⟨r, hr', hrE⟩)
      · exact ⟨x, hxd, h⟩
      · exact ⟨r, ((hfp d hd r).mp hr').1, hrE⟩
  constructor
  · intro h
    exact ⟨fun r hr' => h r ((hfg c hc r).mp hr').1, hpE.mp (h _ hpc)⟩
  · rintro ⟨hall, hx'⟩ r hrc
    by_cases hrp : r = p x
    · rw [hrp]
      exact hpE.mpr hx'
    · exact hall r ((hfg c hc r).mpr ⟨hrc, hrp⟩)

include hw hp hold in
theorem Terms.factors (hx : x ∈ similar) (hc : s.nodes (g x) = some c)
    (hr' : r ∈ c.children.filter (· ∉ excludedNodes p similar)) : Now meaning s.nodes S h' (g x) r fun _ E => E r := by
  obtain ⟨⟨hgS, hglt, -⟩, -⟩ := hT.ranks hx
  obtain ⟨hrc, hrp⟩ := ((hT.filter_excluded hx).1 c hc r).mp hr'
  obtain ⟨hrR, hu⟩ := hT.sibling (w := w) hx hc hrc hrp
  obtain ⟨-, hrlt, d, hd, hpar⟩ := hT.kids _ c hgS hc r hrc
  rw [← hpar]
  refine hT.untouched_keep hw hp hold hrR hu ?_ (by omega) hd
  rintro rfl
  exact of_decide_eq_true (mem_filter.mp hr').2 (mem_excludedNodes.mpr ⟨r, hw, .inl rfl⟩)

include hw hp in
theorem Terms.copied (hx : x ∈ similar) :
    Now meaning s.nodes S s₁.nodes o (g x) fun _ E => restAll s (excludedNodes p similar) (g x) E := by
  obtain ⟨⟨hgS, -⟩, -⟩ := hT.ranks hx
  obtain ⟨c, hc, hwords, hop, -, hpar, -⟩ := (hT.term x hx).and
  have hn := Now.node (f := meaning) (h := s.nodes) (S := S) (g := fun _ E r => E r) (hT.ne_zero hgS)
    (hT.rest_cell hw hp (hT.rest hx).1 hc) ((hT.nodup _ c hgS hc).filter _)
    fun r hr' => hT.factors hw hp (fun _ _ hc _ _ _ => hc) hx hc hr'
  refine hpar ▸ hn.congr fun v E _ => ?_
  simp [restAll, kidsOf_eq hc, meaning, hwords, hop]

include hw hp hold in
theorem Terms.now (hx : x ∈ similar)
    (hreg : Regained s g p similar h') : Now meaning s.nodes S h' o (g x) fun _ E =>
      restAll s (excludedNodes p similar) (g x) E && restAny s (excludedNodes p similar) (p x) E := by
  obtain ⟨⟨hgS, hglt, -⟩, ⟨hpS, hplt, hgp⟩, -, hxlt, -⟩ := hT.ranks hx
  obtain ⟨c, hc, hcw, hcop, hpc, hcpar, -⟩ := (hT.term x hx).and
  obtain ⟨d, hd, hdw, hdop, hxd, hdpar, -⟩ := (hT.term x hx).or
  obtain ⟨hfg, hfp⟩ := hT.filter_excluded hx
  obtain ⟨hpw, hpo, hpg⟩ := hT.or_ne hw hx
  have hpcell := hold (p x) _ (hT.rest_cell hw hp (hT.rest hx).2 hd) hpw hpo hpg
  have hpn := Now.node (f := meaning) (h := s.nodes) (S := S) (g := fun _ E r => E r) (hT.ne_zero hpS) hpcell
    ((hT.nodup _ d hpS hd).filter _) (by
      intro r hr'
      obtain ⟨hrc, hrx⟩ := (hfp d hd r).mp hr'
      obtain ⟨hrR, hu⟩ := hT.alternative (w := w) hx hd hrc hrx
      obtain ⟨-, hrlt, e, he, hpar⟩ := hT.kids _ d hpS hd r hrc
      rw [← hpar]
      refine hT.untouched_keep hw hp hold hrR hu ?_ (by omega) he
      rintro rfl
      exact of_decide_eq_true (mem_filter.mp hr').2 (mem_excludedNodes.mpr ⟨r, hw, .inl rfl⟩))
  have hn := Now.nodes (f := meaning) (h := s.nodes) (S := S) (hT.ne_zero hgS) (hreg x hx c hc) (by
      refine nodup_append.mpr ⟨(hT.nodup _ c hgS hc).filter _, nodup_singleton _, ?_⟩
      rintro y hy z hz rfl
      exact ((hfg c hc y).mp hy).2 (mem_singleton.mp hz))
    (rel_append (forall₂_map_right_iff.mpr (forall₂_same.mpr fun r hr' =>
      hT.factors hw hp hold hx hc hr')) (.cons (hdpar ▸ hpn) .nil))
  refine hcpar ▸ hn.congr fun v E _ => ?_
  simp [restAll, restAny, kidsOf_eq hc, kidsOf_eq hd, meaning, hcw, hcop, hdw, hdop, comp_def]

include hw hp hold in
theorem Terms.top_kids (hco : s.nodes o = some co) (hokids : ∀ r ∈ co.children, r ∉ excludedNodes p similar)
    (hreg : Regained s g p similar h')
    (hrc : r ∈ co.children) : ∃ G, Now meaning s.nodes S h' o r G ∧ ∀ v E, (r ∉ similar.map g → G v E = E r) ∧
      ∀ x ∈ similar, r = g x → G v E =
        (restAll s (excludedNodes p similar) (g x) E && restAny s (excludedNodes p similar) (p x) E) := by
  by_cases hrg : r ∈ similar.map g
  · obtain ⟨x, hx, rfl⟩ := mem_map.mp hrg
    refine ⟨_, hT.now hw hp hold hx hreg, fun v E => ⟨fun h => absurd hrg h, fun y hy h => ?_⟩⟩
    cases hT.inj x hx y hy h
    rfl
  · obtain ⟨hrR, hu⟩ := hT.other (w := w) hco hrc hrg
    obtain ⟨-, hrlt, d, hd, hpar⟩ := hT.kids o co hT.common hco r hrc
    refine ⟨fun _ E => E r, hpar ▸ hT.untouched_keep hw hp hold hrR hu ?_ hrlt hd, fun v E =>
      ⟨fun _ => rfl, fun x hx h => absurd (mem_map.mpr ⟨x, hx, h.symm⟩) hrg⟩⟩
    rintro rfl
    exact hokids r hrc (mem_excludedNodes.mpr ⟨r, hw, .inl rfl⟩)

end Tree

theorem term_or {co : Node κ} {v : κ → Bool}
    {E F : Nat → Bool} {a b : Nat → Bool} (ho : S o) (hE : Val s.nodes S (meaning v) E) (hco : s.nodes o = some co)
    (hwords : co.data.words = []) (hop : co.data.op = .or) (hmem : ∀ x ∈ similar, g x ∈ co.children)
    (hsame : ∀ x ∈ similar, E x = E w) (hother : ∀ r ∈ co.children, r ∉ similar.map g → F r = E r)
    (hbranch : ∀ x ∈ similar, E (g x) = (a (g x) && (E x || b x)) ∧ F (g x) = (a (g x) && b x)) :
    meaning v co.data (co.children.map F ++ [meaning v { op := .and } [meaning v { op := .or } ((similar.map g).map a), E w]]) =
      E o := by
  have hnew : meaning v co.data (co.children.map F ++
      [meaning v { op := .and } [meaning v { op := .or } ((similar.map g).map a), E w]]) =
      (co.children.any F || ((similar.map g).any a && E w)) := by
    simp [meaning, hwords, hop, comp_def, any_append]
  have hold : E o = co.children.any E := by
    rw [hE o co ho hco]
    simp [meaning, hwords, hop]
  rw [hnew, hold, any_map]
  refine any_added hmem hother fun x hx => ?_
  obtain ⟨h1, h2⟩ := hbranch x hx
  rw [h1, h2, hsame x hx, Bool.or_comm, Bool.and_or_distrib_left]
  rfl

/-! ## The cleanup -/

/-- The branches of `xs` below the common OR, before their ORs are cleaned up. -/
structure Tidy (h : Heap (Data κ)) (root o : Nat) (g p : Nat → Nat) (xs : List Nat) : Prop where
  below : Below h root o
  top   : ∀ x ∈ xs, ∃ c, h o = some c ∧ g x ∈ c.children
  and   : ∀ x ∈ xs, ∃ c, h (g x) = some c ∧ p x ∈ c.children ∧ 2 ≤ c.children.length ∧ c.parent = o
  or    : ∀ x ∈ xs, ∃ c, h (p x) = some c ∧ Composite c.data ∧ c.children ≠ [] ∧ c.parent = g x

theorem cleanupSubtree_eq {q : Nat} {c : Node κ} (hc : s.nodes q = some c) (hne : c.children ≠ []) :
    cleanupSubtree s root q = compositeFixup s root q := by
  have hempty : ¬ (c.data.words.isEmpty = true ∧ c.children.isEmpty = true) := fun h => hne (List.isEmpty_iff.mp h.2)
  simp only [cleanupSubtree, subtreeRemoveEmpty, hc, bind_eq_bind, bind_some, if_pos hempty]
  rfl

section Cleanup

variable {t : Query κ}

/-- Nothing of the other branches is below the OR of a branch. -/
theorem Tidy.apart {xs : List Nat} (hr : Rooted s.nodes S rank root)
    (ht : Tidy s.nodes root o g p xs) {x y : Nat} (hx : x ∈ xs) (hy : y ∈ xs) (hne : p y ≠ p x) :
    ¬ Below s.nodes (p x) o ∧ ¬ Below s.nodes (p x) (g y) ∧ ¬ Below s.nodes (p x) (p y) := by
  have hs := hr.toShape
  have hoS : S o := hs.below_mem hr.mem ht.below
  obtain ⟨co, hco, hgo⟩ := ht.top x hx
  obtain ⟨cg, hcg, hpg, -, hgpar⟩ := ht.and x hx
  obtain ⟨cp, hcp, -, -, hppar⟩ := ht.or x hx
  obtain ⟨dg, hdg, -, -, hgpar'⟩ := ht.and y hy
  obtain ⟨dp, hdp, -, -, hppar'⟩ := ht.or y hy
  obtain ⟨hgS, hglt, -⟩ := hs.kids o co hoS hco _ hgo
  obtain ⟨hpS, hplt, -⟩ := hs.kids _ cg hgS hcg _ hpg
  have ho : ¬ Below s.nodes (p x) o := hs.not_below_of_lt hpS (by omega)
  have hg : ¬ Below s.nodes (p x) (g y) := by
    intro h
    by_cases hgp : g y = p x
    · -- the OR of a branch is no child of `o`
      rw [hgp] at hdg
      cases hcp.symm.trans hdg
      have := congrArg rank (hppar.symm.trans hgpar')
      omega
    · have := hs.below_parent hpS h hgp hdg
      rw [hgpar'] at this
      exact ho this
  refine ⟨ho, hg, fun h => hg ?_⟩
  have := hs.below_parent hpS h hne hdp
  rwa [hppar'] at this

/-- One OR is cleaned up; the other branches stay. -/
theorem cleanup_step {x : Nat} {xs : List Nat} (hrep : Rep s.nodes 0 root t) (ht : Tidy s.nodes root o g p (x :: xs))
    (hnd : ((x :: xs).map p).Nodup) :
    ∃ s' t', cleanupSubtree s root (p x) = some (s', root) ∧ Rep s'.nodes 0 root t' ∧ Tidy s'.nodes root o g p xs ∧
      ∀ v, Query.matches v t' = Query.matches v t := by
  have hr := hrep.rooted
  have hs := hr.toShape
  have hxm : x ∈ x :: xs := mem_cons_self
  obtain ⟨co, hco, hgo⟩ := ht.top x hxm
  obtain ⟨cg, hcg, hpg, htwo, hgpar⟩ := ht.and x hxm
  obtain ⟨cp, hcp, hcomp, hne, hppar⟩ := ht.or x hxm
  have hpB : Below s.nodes root (p x) := (ht.below.step hco hgo).step hcg hpg
  rw [cleanupSubtree_eq hcp hne]
  by_cases hone : cp.children.length = 1
  · obtain ⟨y, hy⟩ := length_eq_one_iff.mp hone
    obtain ⟨s', u, cu, h', -, hu, hcu, -, -, hcells⟩ := compositeFixup_single hr hpB hcp hcomp hy
    -- the AND above has another child, so the climb stops at once
    have hup : u = p x := hu.eq_of_parent hcp fun d hd hkids => by
      rw [hppar, hcg, Option.some.injEq] at hd
      rw [hd, hkids, length_singleton] at htwo
      omega
    subst hup
    cases hcp.symm.trans hcu
    have hroot : p x ≠ root := by
      intro h
      have := hr.top cp (h ▸ hcp)
      rw [hppar] at this
      exact Nat.ne_of_gt (s.pos hcg) this
    obtain ⟨s'', root'', t', h'', -, ht', -, -, hval⟩ := compositeFixup_rep hrep hpB
    cases h'.symm.trans h''
    rw [Splice.newRoot, if_neg hroot] at h' ht'
    refine ⟨s', t', h', ht', ?_, fun v => hval Bool _ (neutral_meaning v)⟩
    have hother : ∀ z ∈ xs, z ∈ x :: xs ∧ p z ≠ p x := by
      intro z hz
      refine ⟨mem_cons_of_mem _ hz, fun h => ?_⟩
      rw [map_cons] at hnd
      exact (nodup_cons.mp hnd).1 (h ▸ mem_map_of_mem hz)
    have hout : ∀ q c, ¬ Below s.nodes (p x) q → s.nodes q = some c → ∃ c', s'.nodes q = some c' ∧
        c'.data = c.data ∧ c'.parent = c.parent ∧ c'.children.length = c.children.length ∧
        ∀ r ∈ c.children, r ≠ p x → r ∈ c'.children := by
      intro q c hqp hc
      refine ⟨_, hcells q c hc hqp, rfl, rfl, ?_, fun r hrc hrp => ?_⟩
      · split
        · exact length_map _
        · rfl
      · dsimp only
        split
        · exact mem_map.mpr ⟨r, hrc, if_neg hrp⟩
        · exact hrc
    have hself : ¬ Below s.nodes (p x) o := by
      have hlt := (hs.kids o co ht.below hco _ hgo).2.1
      have hlt' := (hs.kids _ cg (ht.below.step hco hgo) hcg _ hpg).2.1
      exact hs.not_below_of_lt hpB (by omega)
    have hog : Below s.nodes o (g x) := Below.refl.step hco hgo
    have hb : Below s'.nodes root o := by
      refine below_of_outside hr ht.below fun q hq hqo => ?_
      obtain ⟨c, hc⟩ := hs.live q hq
      rw [hcells q c hc fun h => hqo ((hog.step hcg hpg).trans h), if_neg, hc]
      rw [hppar]
      rintro rfl
      exact hqo hog
    refine ⟨hb, ?_, ?_, ?_⟩
    · intro z hz
      obtain ⟨hzm, hzp⟩ := hother z hz
      obtain ⟨-, hgz, -⟩ := ht.apart hr hxm hzm hzp
      obtain ⟨c, hc, hmem⟩ := ht.top z hzm
      obtain ⟨c', hc', -, -, -, hkeep⟩ := hout o c hself hc
      exact ⟨c', hc', hkeep _ hmem fun h => hgz (h ▸ .refl)⟩
    · intro z hz
      obtain ⟨hzm, hzp⟩ := hother z hz
      obtain ⟨-, hgz, -⟩ := ht.apart hr hxm hzm hzp
      obtain ⟨c, hc, hmem, hlen, hpar⟩ := ht.and z hzm
      obtain ⟨c', hc', -, hpar', hlen', hkeep⟩ := hout _ c hgz hc
      exact ⟨c', hc', hkeep _ hmem hzp, by omega, hpar'.trans hpar⟩
    · intro z hz
      obtain ⟨hzm, hzp⟩ := hother z hz
      obtain ⟨-, -, hpz⟩ := ht.apart hr hxm hzm hzp
      obtain ⟨c, hc, hcomp', hne', hpar⟩ := ht.or z hzm
      obtain ⟨c', hc', hdata, hpar', hlen', -⟩ := hout _ c hpz hc
      refine ⟨c', hc', hdata ▸ hcomp', fun h => hne' ?_, hpar'.trans hpar⟩
      rw [h, length_nil] at hlen'
      exact length_eq_zero_iff.mp hlen'.symm
  · refine ⟨s, t, compositeFixup_other hcp fun h => hone h.2, hrep, ?_, fun _ => rfl⟩
    exact ⟨ht.below, (forall_mem_cons.mp ht.top).2, (forall_mem_cons.mp ht.and).2,
      (forall_mem_cons.mp ht.or).2⟩

theorem cleanup_run (xs : List Nat) : ∀ {s : Store κ} {t : Query κ}, Rep s.nodes 0 root t → Tidy s.nodes root o g p xs →
    (xs.map p).Nodup → ∃ s' t', (xs.map p).foldlM (fun (st : Store κ × Nat) excl => cleanupSubtree st.1 st.2 excl) (s, root) =
      some (s', root) ∧ Rep s'.nodes 0 root t' ∧ ∀ v, Query.matches v t' = Query.matches v t := by
  induction xs with
  | nil => exact fun {s t} hrep _ _ => ⟨s, t, rfl, hrep, fun _ => rfl⟩
  | cons x xs ih =>
    intro s t hrep ht hnd
    obtain ⟨s₁, t₁, h₁, hrep₁, ht₁, hval₁⟩ := cleanup_step hrep ht hnd
    obtain ⟨s₂, t₂, h₂, hrep₂, hval₂⟩ := ih hrep₁ ht₁ (by rw [map_cons] at hnd; exact (nodup_cons.mp hnd).2)
    refine ⟨s₂, t₂, ?_, hrep₂, fun v => (hval₂ v).trans (hval₁ v)⟩
    rw [map_cons, foldlM_cons, h₁]
    exact h₂

end Cleanup

/-! ## The whole rule -/

section Rule

variable {co : Node κ}

/-- The common OR is not touched by the first loops. -/
theorem Terms.top_same (hT : Terms s S rank root o g p similar) (hne : similar ≠ []) (hco : s.nodes o = some co) :
    (∀ y ∈ similar, ¬ Below s.nodes y o) ∧ (∀ x ∈ similar, o ≠ g x) ∧ ∀ r ∈ co.children, r ∉ excludedNodes p similar := by
  refine ⟨fun y hy hb => ?_, fun x hx h => ?_, fun r hrc hmem => ?_⟩
  · obtain ⟨x, hx⟩ := exists_mem_of_ne_nil _ hne
    obtain ⟨⟨-, hglt, hog⟩, ⟨-, hplt, -⟩, -, hxlt, -⟩ := hT.ranks hx
    exact hT.above hx hy .refl (by omega) (hb.trans hog)
  · have := (hT.ranks hx).1.2.1
    rw [← h] at this
    exact lt_irrefl _ this
  · obtain ⟨-, -, d, hd, hpar⟩ := hT.kids o co hT.common hco r hrc
    obtain ⟨x, hx, h⟩ := mem_excludedNodes.mp hmem
    obtain ⟨⟨hgS, hglt, -⟩, ⟨hpS, hplt, -⟩, -⟩ := hT.ranks hx
    obtain ⟨cg, hcg, -, -, hpg, -⟩ := (hT.term x hx).and
    obtain ⟨cp, hcp, -, -, hxp, -⟩ := (hT.term x hx).or
    rcases h with rfl | rfl
    · obtain ⟨-, -, d', hd', hpar'⟩ := hT.kids _ cp hpS hcp r hxp
      cases hd.symm.trans hd'
      have := congrArg rank (hpar.symm.trans hpar')
      omega
    · obtain ⟨-, -, d', hd', hpar'⟩ := hT.kids _ cg hgS hcg _ hpg
      cases hd.symm.trans hd'
      have := congrArg rank (hpar.symm.trans hpar')
      omega

theorem other_factors {g p x : Nat} (hs : Shape s.nodes S rank) (ho : S o)
    (hx : Term s.nodes o g p x) : (kidsOf s g).filter (· ≠ p) ≠ [] := by
  obtain ⟨c, hc, -, -, -, -, htwo⟩ := hx.and
  obtain ⟨⟨hgS, -⟩, -⟩ := hx.ranks hs ho
  obtain ⟨r, hrc, hrp⟩ := exists_ne_of_two (hs.nodup _ c hgS hc) htwo p
  rw [kidsOf_eq hc]
  intro hnil
  exact filter_eq_nil_iff.mp hnil r hrc (decide_eq_true hrp)

section Branch

/-- The new OR `or` holds copies of what is left of the ANDs, and the ORs of the branches are back. -/
structure Branched (s : Store κ) (S : Nat → Prop) (g p : Nat → Nat) (similar : List Nat) (w : Nat) (s₁ s' : Store κ)
    (or : Nat) : Prop where
  fresh    : s₁.next ≤ or
  grows    : Grows (w :: similar.map g) s₁ s'
  parents  : KeepsParents s S (similar.filter (· ≠ w)) s'.nodes
  regained : Regained s g p similar s'.nodes
  kept     : ∀ q, Below s.nodes w q → s'.nodes q = s.nodes q
  copies   : Now meaning s.nodes S s'.nodes 0 or fun v E =>
    meaning v { op := .or } ((similar.map g).map fun q => restAll s (excludedNodes p similar) q E)

variable (hT : Terms s S rank root o g p similar) (hw : w ∈ similar)
  (hp : Pruned s S (excludedNodes p similar) (similar.filter (· ≠ w)) s₁)
include hT

theorem Terms.and_ne_below (hw : w ∈ similar) {x : Nat} (hx : x ∈ similar) : ¬ Below s.nodes w (g x) := by
  obtain ⟨-, ⟨-, hplt, -⟩, -, hxlt, -⟩ := hT.ranks hx
  exact hT.above hx hw .refl (by omega)

include hw

theorem Terms.mem_rest {q : Nat} (hq : Rest s o w similar q) : S q ∧ ∀ x ∈ similar.filter (· ≠ w), ¬ Below s.nodes x q :=
  ⟨hT.below_mem hT.common (hq.below hT.apart hw), hq.kept hT.apart hw⟩

include hp

theorem Terms.relatedParents_and :
    relatedParents s₁ (similar.flatMap fun x => (kidsOf s (g x)).filter (· ≠ p x)) = some (similar.map g) := by
  refine relatedParents_eq (fun x hx => ⟨other_factors hT.toShape hT.common (hT.term x hx), fun r hr' => ?_⟩)
    (hT.distinct.map_on hT.inj)
  obtain ⟨c, hc, -⟩ := (hT.term x hx).and
  rw [kidsOf_eq hc] at hr'
  obtain ⟨hrc, hrp⟩ := mem_filter.mp hr'
  obtain ⟨hrS, -, d, hd, hpar⟩ := hT.kids _ c (hT.ranks hx).1.1 hc r hrc
  have hrR := (hT.sibling (w := w) hx hc hrc (by simpa using hrp)).1
  exact ⟨_, hp.cell r d hrS (hrR.kept hT.apart hw) hd, hpar⟩

theorem Terms.not_below_new {h' : Heap (Data κ)} {q r : Nat} {G : (κ → Bool) → (Nat → Bool) → Bool}
    (hpar : KeepsParents s S (similar.filter (· ≠ w)) h') (hq : s₁.next ≤ q) (hn : Now meaning s.nodes S h' 0 q G)
    (hr' : Rest s o w similar r) : ¬ Below h' q r := by
  obtain ⟨t, ht, -⟩ := hn
  obtain ⟨hrS, hrD⟩ := hT.mem_rest hw hr'
  exact hT.toRooted.not_below_new ht (hp.not_mem_new hT.toShape hq) hrS fun y c hy hyr hc =>
    hpar y c hy (fun x hx hb => hrD x hx (hb.trans hyr)) hc

theorem Terms.pushBack_run {s₂ : Store κ} (hg : Grows [] s₁ s₂) : KeepsParents s S (similar.filter (· ≠ w)) s₂.nodes ∧
    ∃ s₃, (similar.map p).foldlM pushBack s₂ = some s₃ ∧ Pushed g p s₂ similar s₃ := by
  have hpar₂ : KeepsParents s S (similar.filter (· ≠ w)) s₂.nodes := fun q c hq hqD hc =>
    ⟨_, hg.old q _ (hp.cell q c hq hqD hc) not_mem_nil, rfl⟩
  refine ⟨hpar₂, XQ.pushBack_run (fun x hx => ?_) hT.inj (fun h' hh' x hx => ?_) hT.distinct⟩
  · obtain ⟨hgR, hpR⟩ := hT.rest (w := w) hx
    obtain ⟨hgS, hgD⟩ := hT.mem_rest hw hgR
    obtain ⟨hpS, hpD⟩ := hT.mem_rest hw hpR
    obtain ⟨c, hc, -⟩ := (hT.term x hx).and
    obtain ⟨d, hd, -, -, -, hdpar, -⟩ := (hT.term x hx).or
    obtain ⟨d', hd', hpar⟩ := hpar₂ _ d hpS hpD hd
    obtain ⟨c', hc', -⟩ := hpar₂ _ c hgS hgD hc
    exact ⟨⟨d', hd', hpar.trans hdpar⟩, c', hc'⟩
  · obtain ⟨hgS, hgD⟩ := hT.mem_rest hw (hT.rest (w := w) hx).1
    refine chain_kept hT.toRooted hgS hgD fun q c hq hqD hc => ?_
    obtain ⟨c₂, hc₂, hpar₂⟩ := hpar₂ q c hq hqD hc
    obtain ⟨c', hc', -, hpar⟩ := hh' q c₂ hc₂
    exact ⟨c', hc', hpar.trans hpar₂⟩

theorem Terms.branched : ∃ s₂ clones s₃ s₄ or, eachNode cloneFixed (similar.map g) s₁ = some (s₂, clones) ∧
    (similar.map p).foldlM pushBack s₂ = some s₃ ∧ newOp s₃ .or clones = some (s₄, or) ∧
      Branched s S g p similar w s₁ s₄ or := by
  obtain ⟨s₂, clones, h₂, hg₂, hcnd, hcl, hclones₂⟩ := eachNode_now duplicates_cloneFixed (s := s₁) (h := s.nodes) (S := S)
    (G := fun q _ E => restAll s (excludedNodes p similar) q E) (similar.map g) (by
      intro q hq
      obtain ⟨x, hx, rfl⟩ := mem_map.mp hq
      have hn := hT.copied hw hp hx
      obtain ⟨c, hc, -⟩ := hn.cell
      exact ⟨o, c, hn, hc, trivial⟩)
  obtain ⟨hpar₂, s₃, h₃, hpush⟩ := hT.pushBack_run hw hp hg₂
  have hclones₃ : List.Forall₂ (Now meaning s.nodes S s₃.nodes 0) clones
      ((similar.map g).map fun q _ E => restAll s (excludedNodes p similar) q E) := by
    refine ((forall₂_and_left clones _).mpr ⟨hcl, hclones₂⟩).imp ?_
    rintro q G ⟨hq, hn⟩
    refine hpush.grows.now hn fun y hy => ?_
    obtain ⟨x, hx, rfl⟩ := mem_map.mp hy
    exact hT.not_below_new hw hp hpar₂ hq hn (hT.rest hx).1
  obtain ⟨s₄, h₄, -, hg₄, hor₄⟩ := newOp_roots hclones₃ hcnd .or
  have hold : ∀ {q c}, S q → s₃.nodes q = some c → s₄.nodes q = some c := fun hq hc =>
    hg₄.old _ _ hc fun h => hp.not_mem_new hT.toShape (hcl _ h) hq
  refine ⟨s₂, clones, s₃, s₄, _, h₂, h₃, h₄, ?_, ?_, ?_, ?_, ?_, hor₄.congr fun v E _ => by rw [map_map, comp_def]⟩
  · exact hg₂.next.trans (le_of_eq hpush.next.symm)
  · exact (Grows.trans ⟨hg₂.next, fun q c hc _ => hg₂.old q c hc not_mem_nil⟩ hpush.grows fun y hy =>
      .inl (mem_cons_of_mem _ hy)).trans hg₄ fun y hy => .inr (hcl y hy)
  · intro q c hq hqD hc
    obtain ⟨c₂, hc₂, hpar₂⟩ := hpar₂ q c hq hqD hc
    obtain ⟨c₃, hc₃, -, hpar₃⟩ := hpush.parent hc₂
    exact ⟨c₃, hold hq hc₃, hpar₃.trans hpar₂⟩
  · intro x hx c hc
    have hgR := (hT.rest (w := w) hx).1
    exact hold (hT.mem_rest hw hgR).1 (hpush.cell x hx _ (hg₂.old _ _ (hT.rest_cell hw hp hgR hc) not_mem_nil))
  · intro q hb
    have hqS := hT.below_mem (hT.ranks hw).2.2.1 hb
    obtain ⟨c, hc⟩ := hT.live q hqS
    have hc₁ := (hT.untouched_same hw hp (.inr .refl) (hT.kept hw) hb).trans hc
    rw [hc]
    refine hold hqS (hpush.grows.old q c (hg₂.old q c hc₁ not_mem_nil) fun h => ?_)
    obtain ⟨x, hx, rfl⟩ := mem_map.mp h
    exact hT.and_ne_below hw hx hb

variable {s₄ : Store κ} {or : Nat} (hb : Branched s S g p similar w s₁ s₄ or)
include hb

omit hp in
theorem Branched.grand_eq : grand s₄ 3 w = some o := by
  obtain ⟨hgR, hpR⟩ := hT.rest (w := w) hw
  obtain ⟨hgS, hgD⟩ := hT.mem_rest hw hgR
  obtain ⟨hpS, hpD⟩ := hT.mem_rest hw hpR
  obtain ⟨cg, hcg, -, -, -, hgpar, -⟩ := (hT.term w hw).and
  obtain ⟨cp, hcp, -, -, hwp, hppar, -⟩ := (hT.term w hw).or
  obtain ⟨-, -, cw, hcw, hwpar⟩ := hT.kids _ cp hpS hcp w hwp
  obtain ⟨dp, hdp, hdppar⟩ := hb.parents _ cp hpS hpD hcp
  obtain ⟨dg, hdg, hdgpar⟩ := hb.parents _ cg hgS hgD hcg
  have h1 := grand_succ (k := 0) (p := w) rfl ((hb.kept w .refl).trans hcw)
  rw [hwpar] at h1
  have h2 := grand_succ h1 hdp
  rw [hdppar, hppar] at h2
  have h3 := grand_succ h2 hdg
  rwa [hdgpar, hgpar] at h3

theorem Branched.newAnd : ∃ s₅, newOp s₄ .and [or, w] = some (s₅, s₄.next) ∧ Grows (w :: similar.map g) s₁ s₅ ∧
    Regained s g p similar s₅.nodes ∧ Now meaning s.nodes S s₅.nodes 0 s₄.next fun v E => meaning v { op := .and }
      [meaning v { op := .or } ((similar.map g).map fun q => restAll s (excludedNodes p similar) q E), E w] := by
  have hwS : S w := (hT.ranks hw).2.2.1
  obtain ⟨cw, hcw⟩ := hT.live w hwS
  have hw₄ : Now meaning s.nodes S s₄.nodes cw.parent w fun _ E => E w :=
    Now.keep hT.toShape hwS hcw ((hb.kept w .refl).trans hcw) fun q hq _ => hb.kept q hq
  have hnotS := hp.not_mem_new hT.toShape hb.fresh
  obtain ⟨s₅, h₅, -, hg₅, hand₅⟩ := newOp_now (.cons ⟨_, hb.copies⟩ (.cons ⟨_, hw₄⟩ .nil))
    (by simpa using fun h : or = w => hnotS (h ▸ hwS)) (by
    intro q hq r hr' hqr
    rcases mem_pair.mp hq with rfl | rfl
    · rcases mem_pair.mp hr' with rfl | rfl
      · rfl
      · exact absurd hqr (hT.not_below_new hw hp hb.parents hb.fresh hb.copies (.inr .refl))
    · rcases mem_pair.mp hr' with rfl | rfl
      · exact hw₄.eq_of_below hb.copies hqr
      · rfl) .and
  refine ⟨s₅, h₅, hb.grows.trans hg₅ fun y hy => ?_, fun x hx c hc => ?_, hand₅⟩
  · rcases mem_pair.mp hy with rfl | rfl
    · exact .inr hb.fresh
    · exact .inl mem_cons_self
  · refine hg₅.old _ _ (hb.regained x hx c hc) fun h => ?_
    rcases mem_pair.mp h with h | h
    · exact hnotS (h ▸ (hT.ranks hx).1.1)
    · exact hT.and_ne_below hw hx (h ▸ .refl)

omit hb in
theorem Terms.tidy (hco : s.nodes o = some co) {h₅ h₆ : Heap (Data κ)} {new : List Nat} (hreg : Regained s g p similar h₅)
    (hold : ∀ q c, s₁.nodes q = some c → q ≠ w → q ≠ o → (∀ x ∈ similar, q ≠ g x) → h₅ q = some c)
    (ho : h₆ o = some { co with children := co.children ++ new }) (hsame : ∀ q, S q → q ≠ o → h₆ q = h₅ q)
    (hbelow : Below h₆ root o) : Tidy h₆ root o g p similar := by
  refine ⟨hbelow, fun x hx => ⟨_, ho, List.mem_append.mpr (.inl (hT.mem_top hx hco))⟩, fun x hx => ?_, fun x hx => ?_⟩
  · obtain ⟨⟨hgS, hglt, -⟩, -⟩ := hT.ranks hx
    obtain ⟨c, hc, -, -, hpc, hpar, htwo⟩ := (hT.term x hx).and
    have hgo : g x ≠ o := fun h => Nat.ne_of_lt hglt (congrArg rank h)
    refine ⟨_, (hsame _ hgS hgo).trans (hreg x hx c hc), List.mem_append.mpr (.inr mem_cons_self), ?_, hpar⟩
    obtain ⟨r, hrc, hrp⟩ := exists_ne_of_two (hT.nodup _ c hgS hc) htwo (p x)
    have := length_pos_of_mem (((hT.filter_excluded hx).1 c hc r).mpr ⟨hrc, hrp⟩)
    rw [length_append, length_singleton]
    exact Nat.succ_le_succ this
  · have hpR := (hT.rest (w := w) hx).2
    have hpS := (hT.ranks hx).2.1.1
    obtain ⟨c, hc, hwords, hop, hxc, hpar, htwo⟩ := (hT.term x hx).or
    obtain ⟨hpw, hpo, hpg⟩ := hT.or_ne hw hx
    refine ⟨_, (hsame _ hpS hpo).trans (hold _ _ (hT.rest_cell hw hp hpR hc) hpw hpo hpg), ⟨hwords, .inl hop⟩, ?_, hpar⟩
    obtain ⟨r, hrc, hrx⟩ := exists_ne_of_two (hT.nodup _ c hpS hc) htwo x
    exact ne_nil_of_mem (((hT.filter_excluded hx).2 c hc r).mpr ⟨hrc, hrx⟩)

omit hw hp hb in
theorem Terms.or_nodup : (similar.map p).Nodup := hT.distinct.map_on fun x hx y hy h => by
  obtain ⟨c, hc, -, -, -, hpar, -⟩ := (hT.term x hx).or
  obtain ⟨d, hd, -, -, -, hpar', -⟩ := (hT.term y hy).or
  rw [h] at hc
  cases hc.symm.trans hd
  exact hT.inj x hx y hy (hpar.symm.trans hpar')

/-- The common OR gets the new branch; it has the value it had, and the ORs of the branches can be cleaned up. -/
theorem Branched.rep (hco : s.nodes o = some co)
    (hsame : ∀ v E, Val s.nodes S (meaning v) E → ∀ x ∈ similar, ∀ y ∈ similar, E x = E y) :
    ∃ s₅ s₆ t₆, newOp s₄ .and [or, w] = some (s₅, s₄.next) ∧ addNewChild s₅ o s₄.next = some s₆ ∧ Rep s₆.nodes 0 root t₆ ∧
      Tidy s₆.nodes root o g p similar ∧ ∀ v E, Val s.nodes S (meaning v) E → Query.matches v t₆ = E root := by
  have ha := hT.apart
  obtain ⟨hotop, hog, hokids⟩ := hT.top_same (ne_nil_of_mem hw) hco
  obtain ⟨s₅, h₅, hg, hreg, hand₅⟩ := hb.newAnd hT hw hp
  have hnotS := hp.not_mem_new hT.toShape hb.grows.next
  have hold : ∀ q c, s₁.nodes q = some c → q ≠ w → q ≠ o → (∀ x ∈ similar, q ≠ g x) → s₅.nodes q = some c := by
    intro q c hc hqw _ hqg
    refine hg.old q c hc fun h => ?_
    rcases mem_cons.mp h with h | h
    · exact hqw h
    · obtain ⟨x, hx, h⟩ := mem_map.mp h
      exact hqg x hx h.symm
  have hoD : ∀ y ∈ w :: similar.map g, Below s.nodes o y ∧ y ≠ o := by
    intro y hy
    rcases mem_cons.mp hy with rfl | hy
    · exact ha.below y hw
    · obtain ⟨x, hx, rfl⟩ := mem_map.mp hy
      exact ⟨(hT.ranks hx).1.2.2, (hog x hx).symm⟩
  have hoR : Rest s o w similar o := .inl ⟨.refl, hotop⟩
  have ho₅ := hg.old o co ((hp.same hT.common (hoR.kept ha hw) hco hokids).trans hco) fun h => (hoD o h).2 rfl
  have hout : ∀ r, S r → ¬ Below s.nodes o r → s₅.nodes r = s.nodes r := by
    intro r hrS hro
    obtain ⟨c, hc⟩ := hT.live r hrS
    have hr₁ := hp.out hT.toRooted (o := o) (fun x hx => (ha.below x (mem_filter.mp hx).1).1) (by
      intro y hy c hc
      obtain ⟨x, hx, rfl | rfl⟩ := mem_excludedNodes.mp hy
      · exact ha.parent_below hT.toShape hT.common hx hc
      · obtain ⟨d, hd, -, -, -, hpar, -⟩ := (hT.term x hx).or
        cases hc.symm.trans hd
        rw [hpar]
        exact (hT.ranks hx).1.2.2) hrS hro
    rw [hc, hg.old r c (hr₁.trans hc) fun h => hro (hoD r h).1]
  have hkids := fun r hrc => hT.top_kids hw hp hold hco hokids hreg (r := r) hrc
  choose! G hG using hkids
  obtain ⟨c, hc, hwords, hop, -⟩ := (hT.term w hw).top
  cases hco.symm.trans hc
  have hmem : ∀ x ∈ similar, g x ∈ co.children := fun x hx => hT.mem_top hx hco
  obtain ⟨s₆, t₆, h₆, ho₆, hsame₆, ht₆, hbo, hte⟩ := rep_addNewChild hT.toRooted hT.common hco ho₅ hout hnotS hand₅
    (fun r hrc => (hG r hrc).1) fun v E hE => term_or hT.common hE hco hwords hop hmem
      (fun x hx => hsame v E hE x hx w hw) (fun r hrc => ((hG r hrc).2 v E).1) fun x hx =>
        ⟨hT.value hx hE, ((hG _ (hmem x hx)).2 v E).2 x hx rfl⟩
  exact ⟨s₅, s₆, t₆, h₅, h₆, ht₆, hT.tidy hw hp hco hreg hold ho₆ (fun q hq hqo => hsame₆ q hqo fun h => hnotS (h ▸ hq)) hbo,
    hte⟩

end Branch

theorem makeTransformCommonSubTerm_spec (hT : Terms s S rank root o g p similar) (hco : s.nodes o = some co) (hne : similar ≠ [])
    (hsame : ∀ v E, Val s.nodes S (meaning v) E → ∀ x ∈ similar, ∀ y ∈ similar, E x = E y) :
    ∃ s' t', makeTransformCommonSubTerm s root similar (similar.flatMap fun x => (kidsOf s (g x)).filter (· ≠ p x)) =
        some (s', root) ∧ Rep s'.nodes 0 root t' ∧ ∀ v E, Val s.nodes S (meaning v) E → Query.matches v t' = E root := by
  obtain ⟨i, w, hi, hwi, hw⟩ := getWeakestIndex_spec s hne fun x hx => hT.live x (hT.ranks hx).2.2.1
  obtain ⟨s₁, h₁, hp⟩ := excludeSimilar_run hT (w := w) similar (d := []) (Pruned.init s S) (forall_mem_nil _)
    (fun _ h => h) hT.distinct
  have hrel := hT.relatedParents_and hw hp
  obtain ⟨s₂, clones, s₃, s₄, or, h₂, h₃, h₄, hb⟩ := hT.branched hw hp
  have hgrand := hb.grand_eq hT hw
  obtain ⟨s₅, s₆, t₆, h₅, h₆, ht₆, htidy, hval₆⟩ := hb.rep hT hw hp hco hsame
  obtain ⟨s₇, t₇, h₇, ht₇, hval₇⟩ := cleanup_run similar ht₆ htidy hT.or_nodup
  refine ⟨s₇, t₇, ?_, ht₇, fun v E hE => (hval₇ v).trans (hval₆ v E hE)⟩
  simp only [makeTransformCommonSubTerm, hi, hwi, h₁, hrel, h₂, h₃, h₄, hgrand, h₅, h₆, bind_eq_bind, bind_some]
  exact h₇

theorem terms_of_group {t : Query κ} (ht : Rep s.nodes 0 root t) (hbool : BoolTree s.nodes root)
    (hsingle : NoSingles s.nodes root) (hg : Group s root 3 (checkCommonSubTerm s) similar) :
    ∃ o, Below s.nodes root o ∧ (∀ x ∈ similar, grand s 3 x = some o) ∧
      ∀ x ∈ similar, ∃ g p, Term s.nodes o g p x ∧ grand s 1 x = some p ∧ grand s 2 x = some g := by
  have hr := ht.rooted
  have htwo : ∀ q d, Below s.nodes root q → s.nodes q = some d → d.children ≠ [] → Composite d.data →
      (d.data.op = .and → ∀ e, s.nodes d.parent = some e → e.data.op ≠ .andNot) → 2 ≤ d.children.length := by
    intro q d hq hd hne hcomp hno
    by_contra hlt
    have hpos := length_pos_of_ne_nil hne
    obtain ⟨hand, e, he, hop⟩ := hsingle q d hq hd (by omega) hcomp
    exact hno hand e he hop
  refine hg.common fun o x hx hck hkey => ?_
  simp only [checkCommonSubTerm, Bool.and_eq_true, beq_iff_eq] at hck
  obtain ⟨⟨⟨⟨-, -⟩, h1⟩, h2⟩, h3⟩ := hck
  obtain ⟨c, hc⟩ := hr.live x (hg.below x hx)
  obtain ⟨p, cp, hg1, hcp, hop1⟩ := grandOp_cases h1
  obtain ⟨g, cg, hg2, hcg, hop2⟩ := grandOp_cases h2
  obtain ⟨o', co, hg3, hco, hop3⟩ := grandOp_cases h3
  cases (grand_succ (k := 0) rfl hc).symm.trans hg1
  cases (grand_succ hg1 hcp).symm.trans hg2
  cases (grand_succ hg2 hcg).symm.trans hg3
  cases hg3.symm.trans hkey
  obtain ⟨hpS, -, hm1⟩ := parent_cell hr (hg.below x hx) hc hcp
  obtain ⟨hgS, -, hm2⟩ := parent_cell hr hpS hcp hcg
  obtain ⟨hoS, -, hm3⟩ := parent_cell hr hgS hcg hco
  refine ⟨hoS, _, _, ⟨⟨co, hco, (hbool _ _ hoS hco).inner hm3, hop3, hm3⟩,
    ⟨cg, hcg, (hbool _ _ hgS hcg).inner hm2, hop2, hm2, rfl, ?_⟩, ⟨cp, hcp, (hbool _ _ hpS hcp).inner hm1, hop1, hm1, rfl, ?_⟩⟩,
    hg1, hg2⟩
  · refine htwo _ cg hgS hcg (ne_nil_of_mem hm2) ⟨(hbool _ _ hgS hcg).inner hm2, .inr hop2⟩ ?_
    intro _ e he
    cases hco.symm.trans he
    rw [hop3]
    exact Op.noConfusion
  · refine htwo _ cp hpS hcp (ne_nil_of_mem hm1) ⟨(hbool _ _ hpS hcp).inner hm1, .inl hop1⟩ ?_
    intro h
    rw [hop1] at h
    cases h

end Rule

/-- **COMMON SUBTERM leaves a tree that matches the same documents**, for any number of branches, of further factors and
alternatives and of other children of the OR. -/
theorem commonSubTerm_keep {κ : Type} {s : Store κ} {root : Nat} {t : Query κ} {similar : List Nat}
    (ht : Rep s.nodes 0 root t) (hbool : BoolTree s.nodes root) (hsingle : NoSingles s.nodes root)
    (hg : Group s root 3 (checkCommonSubTerm s) similar) (useful : Bool) :
    ∃ s' t', transformCommonSubTerm useful s root similar =
        some (s', root, useful && !hasSameParent s similar && !hasSameGrand s similar) ∧
      Rep s'.nodes 0 root t' ∧ ∀ v, Query.matches v t' = Query.matches v t := by
  have hr := ht.rooted
  have hs := hr.toShape
  obtain ⟨o, ho, -, hterm⟩ := terms_of_group ht hbool hsingle hg
  choose! g p hterm using hterm
  have hB : ∀ x ∈ similar, Term s.nodes o (g x) (p x) x := fun x hx => (hterm x hx).1
  have hcollect := collectRelated_terms hB fun x hx => (hterm x hx).2
  by_cases hskip : hasSameParent s similar = true ∨ hasSameGrand s similar = true
  · refine ⟨s, t, ?_, ht, fun _ => rfl⟩
    rw [transformCommonSubTerm, if_pos (.inr hskip)]
    rcases hskip with h | h
    · rw [h, Bool.not_true, Bool.and_false, Bool.false_and]
    · rw [h, Bool.not_true, Bool.and_false]
  · have hno : ¬ (similar.length < 2 ∨ hasSameParent s similar = true ∨ hasSameGrand s similar = true) := fun h =>
      h.elim (Nat.not_lt_of_le hg.two) hskip
    rw [not_or, Bool.not_eq_true, Bool.not_eq_true] at hskip
    rw [hskip.1, hskip.2]
    cases useful with
    | false =>
      refine ⟨s, t, ?_, ht, fun _ => rfl⟩
      simp only [transformCommonSubTerm, if_neg hno, hcollect, bind_eq_bind, bind_some]
      rw [if_pos (.inr Bool.false_ne_true)]
      rfl
    | true =>
      have hnd : (similar.map (grand s 2)).Nodup := by simpa [hasSameGrand] using hskip.2
      have hinj : ∀ x ∈ similar, ∀ y ∈ similar, g x = g y → x = y := fun x hx y hy h =>
        inj_on_of_nodup_map hnd hx hy (by rw [(hterm x hx).2.2, (hterm y hy).2.2, h])
      have hrel : ¬ (similar.flatMap fun x => (kidsOf s (g x)).filter (· ≠ p x)).length ≤ 1 := by
        refine Nat.not_le_of_lt (two_le_length_flatMap hg.two ?_)
        exact fun x hx => other_factors hs ho (hB x hx)
      obtain ⟨co, hco⟩ := hs.live o ho
      obtain ⟨s', t', h', ht', hval⟩ := makeTransformCommonSubTerm_spec ⟨hr, ho, hB, hinj, hg.nodup⟩ hco
        hg.ne_nil (hg.val hs)
      refine ⟨s', t', ?_, ht', matches_eq_of_val ht hval⟩
      simp only [transformCommonSubTerm, if_neg hno, hcollect, h', bind_eq_bind, bind_some]
      rw [if_neg fun h => h.elim hrel fun h => h trivial]
      rfl

/-- `(A (N | AA)) | (B (N | BB))`, with the keywords `0`, `1` for `A`, `B` and `2` for `N`. -/
def subTermBranches : List (Node Nat) :=
  [opNode .or [2, 3] 0, opNode .and [4, 5] 1, opNode .and [6, 7] 1, wordNode 0 2, opNode .or [8, 9] 2, wordNode 1 3,
   opNode .or [10, 11] 3, wordNode 2 5, wordNode 3 5, wordNode 2 7, wordNode 4 7]

/-- The tree of one branch of `subTermBranches`. -/
def subTermBranch (a n : Nat) : Query Nat :=
  .node { op := .and } [.node { words := [a] } [], .node { op := .or } [.node { words := [2] } [], .node { words := [n] } []]]

theorem noSingles_subTermBranches : NoSingles (Store.ofNodes subTermBranches).nodes 1 := by
  have hall : ∀ c ∈ subTermBranches, c.children.length ≠ 1 := by decide
  intro q c _ hc hone
  exact absurd hone (hall c (Store.mem_of_ofNodes hc))

theorem commonSubTerm_keep_subTermBranches :
    ∃ s' t', transformCommonSubTerm true (Store.ofNodes subTermBranches) 1 [8, 10] =
        some (s', 1, true && !hasSameParent (Store.ofNodes subTermBranches) [8, 10] &&
          !hasSameGrand (Store.ofNodes subTermBranches) [8, 10]) ∧ Rep s'.nodes 0 1 t' ∧
      ∀ v, Query.matches v t' = Query.matches v (.node { op := .or } [subTermBranch 0 3, subTermBranch 1 4]) :=
  commonSubTerm_keep (by decide) (boolTree_of_all (by decide) 1) noSingles_subTermBranches
    (group_of_leaves 1 { words := [2] } (by decide)) true

end XQ
end Manticore

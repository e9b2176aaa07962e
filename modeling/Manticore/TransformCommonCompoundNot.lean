import Manticore.XQBuild
import Manticore.XQCleanup
/-!
# TransformCommonCompoundNot — `((A !(N AA)) | (B !(N BB)) | R)`

The common node leaves the ANDs under the NOTs, and one more branch `(A | B) !N` with copies of `A` and `B` takes over the
documents without it.
-/
namespace Manticore
namespace XQ

open PtrTree
open List hiding and or
open Option (bind_eq_bind bind_some)
open Function (comp_def)

variable {κ : Type}

/-- `CSphTransformation::CheckCommonCompoundNot`. -/
def checkCommonCompoundNot (s : Store κ) (p : Nat) : Bool :=
  valid s 4 p && grandOp s 1 p == some .and && grandOp s 2 p == some .not && grandOp s 3 p == some .andNot &&
    grandOp s 4 p == some .or

/-- A copy of a related node, or of its child if it has just one. -/
def cloneRelated (s : Store κ) (p : Nat) : Option (Store κ × Nat) := do
  let c ← s.nodes p
  if c.children.length = 1 then do
    let q ← c.children[0]?
    clone s q
  else clone s p

def singleRelatedOrNewOr (s : Store κ) (clones : List Nat) : Option (Store κ × Nat) :=
  if 1 < clones.length then newOp s .or clones
  else do
    let q ← clones[0]?
    return (s, q)

/-- `CSphTransformation::MakeTransformCommonCompoundNot`. -/
def makeTransformCommonCompoundNot (s : Store κ) (similar related : List Nat) : Option (Store κ) := do
  let w ← getWeakestIndex s similar
  let weakest ← similar[w]?
  let commonOr ← grand s 4 weakest
  let s ← similar.foldlM (cutSimilar weakest) s
  let (s, not) ← newOp s .not [weakest]
  let (s, clones) ← eachNode cloneRelated related s
  let (s, or) ← singleRelatedOrNewOr s clones
  let (s, and) ← newOp s .and [or]
  let (s, andNot) ← newOp s .andNot [and, not]
  addNewChild s commonOr andNot

/-- `CSphTransformation::TransformCommonCompoundNot` on one group of equal nodes; `useful` is what the costs say.  Tells
whether the tree was changed. -/
def transformCommonCompoundNot (useful : Bool) (s : Store κ) (similar : List Nat) : Option (Store κ × Bool) :=
  if similar.length < 2 ∨ hasSameGrand s similar then some (s, false)
  else do
    let related ← collectRelatedNodes s 2 3 similar
    if related.length ≤ 1 ∨ ¬ useful then return (s, false)
    let s ← makeTransformCommonCompoundNot s similar (uniq related)
    return (s, true)

/-! ## The parts of the rule -/

/-- A branch `A !(N ...)`: the node `x` is a child of the AND node `p` under the NOT. -/
structure Factor (h : Heap (Data κ)) (o an a nt p x : Nat) : Prop where
  branch : Branch h o an a nt p
  and    : ∃ c, h p = some c ∧ c.data.words = [] ∧ c.data.op = .and ∧ x ∈ c.children

variable {q : Nat} {c : Node κ}

theorem now_child {h h' : Heap (Data κ)} {S : Nat → Prop} {par p : Nat} {G : (κ → Bool) → (Nat → Bool) → Bool}
    (hn : Now meaning h S h' par p G) (hc : h' p = some c) (hkids : c.children = [q]) (hcomp : Composite c.data) :
    Now meaning h S h' p q G := by
  obtain ⟨⟨a, ts⟩, ⟨-, d, hd, rfl, -, -, hall⟩, hte⟩ := hn
  cases hc.symm.trans hd
  rw [hkids] at hall
  obtain ⟨t, ht, rfl⟩ : ∃ t, Rep h' p q t ∧ ts = [t] := by
    match ts, hall with
    | [t], ⟨ht, _⟩ => exact ⟨t, ht, rfl⟩
  refine ⟨t, ht, fun v E hE => ?_⟩
  rw [← hte v E hE, Tree.eval]
  exact (neutral_meaning v _ _ hcomp).symm

theorem duplicates_cloneRelated :
    Duplicates (κ := κ) cloneRelated fun c => c.children.length = 1 → Composite c.data := by
  intro s h S par p c G hn hc hP
  by_cases hone : c.children.length = 1
  · obtain ⟨q, hq⟩ := length_eq_one_iff.mp hone
    have hnq := now_child hn hc hq (hP hone)
    obtain ⟨d, hd, -⟩ := hnq.cell
    obtain ⟨s', r, h', hr⟩ := duplicates_clone hnq hd trivial
    refine ⟨s', r, ?_, hr⟩
    simp only [cloneRelated, hc, bind_eq_bind, bind_some, if_pos hone]
    rw [hq]
    exact h'
  · obtain ⟨s', r, h', hr⟩ := duplicates_clone hn hc trivial
    refine ⟨s', r, ?_, hr⟩
    simp only [cloneRelated, hc, bind_eq_bind, bind_some, if_neg hone]
    exact h'

section Rewrite

variable {s : Store κ} {S : Nat → Prop} {rank : Nat → Nat} {root o w : Nat} {an a nt p : Nat → Nat} {similar : List Nat}
  {co : Node κ}

section Factors

/-- The branches above the equal nodes of a tree, all below the OR node `o` and each with an ANDNOT of its own. -/
structure Factors (s : Store κ) (S : Nat → Prop) (rank : Nat → Nat) (root o : Nat) (an a nt p : Nat → Nat) (similar : List Nat) : Prop
    extends Rooted s.nodes S rank root where
  common : S o
  factor : ∀ x ∈ similar, Factor s.nodes o (an x) (a x) (nt x) (p x) x
  inj : ∀ x ∈ similar, ∀ y ∈ similar, an x = an y → x = y
  distinct : similar.Nodup

variable {x y : Nat} (hF : Factors s S rank root o an a nt p similar)
include hF

theorem Factors.below (hx : x ∈ similar) : S (p x) ∧ rank x < rank (p x) ∧ Below s.nodes (p x) x := by
  obtain ⟨c, hc, -, -, hmem⟩ := (hF.factor x hx).and
  have hpS := ((hF.factor x hx).branch.mem_n hF.toShape hF.common).1
  exact ⟨hpS, (hF.kids _ c hpS hc x hmem).2.1, Below.refl.step hc hmem⟩

theorem Factors.down (hx : x ∈ similar) (hq : Below s.nodes x q) : Below s.nodes (an x) q :=
  (hF.factor x hx).branch.below_n.trans ((hF.below hx).2.2.trans hq)

theorem Factors.unique (hx : x ∈ similar) (hy : y ∈ similar) (hbx : Below s.nodes (an x) q)
    (hby : Below s.nodes y q) : x = y := by
  by_contra hne
  refine (hF.factor x hx).branch.disjoint (hF.factor y hy).branch hF.toShape hF.common (fun h => hne (hF.inj x hx y hy h)) hbx ?_
  exact hF.down hy hby

theorem Factors.apart : Apart s o similar where
  nodup := hF.distinct
  below x hx := by
    have hb := (hF.factor x hx).branch
    obtain ⟨hanS, hanlt⟩ := hb.mem_an hF.toShape hF.common
    obtain ⟨-, hntlt⟩ := hb.mem_nt hF.toShape hF.common
    obtain ⟨-, hplt⟩ := hb.mem_n hF.toShape hF.common
    obtain ⟨-, hxlt, hpx⟩ := hF.below hx
    obtain ⟨c, hc, -, -, hmem⟩ := hb.top
    refine ⟨(Below.refl.step hc hmem).trans (hb.below_n.trans hpx), ?_⟩
    rintro rfl
    omega
  unique x hx y hy q hbx hby :=
    hF.unique hx hy (hF.down hx hbx) hby

theorem Factors.mem_top (hx : x ∈ similar) (hco : s.nodes o = some co) : an x ∈ co.children := by
  obtain ⟨c, hc, -, -, hmem⟩ := (hF.factor x hx).branch.top
  cases hco.symm.trans hc
  exact hmem

theorem Factors.part_a (hx : x ∈ similar) (hy : y ∈ similar) : ¬ Below s.nodes (a x) y ∧ ¬ Below s.nodes y (a x) := by
  have hb := (hF.factor x hx).branch
  have hdown : ∀ z, Below s.nodes x z → Below s.nodes (nt x) z := fun z hz =>
    hb.below_nt_n.trans ((hF.below hx).2.2.trans hz)
  constructor
  · intro h
    cases hF.unique hx hy (hb.below_a.trans h) .refl
    exact hb.not_below_both hF.toShape hF.common h (hdown x .refl)
  · intro h
    cases hF.unique hx hy hb.below_a h
    exact hb.not_below_both hF.toShape hF.common .refl (hdown _ h)

theorem Factors.above (hx : x ∈ similar) (hy : y ∈ similar) (hq : Below s.nodes (an x) q)
    (hlt : rank x < rank q) : ¬ Below s.nodes y q := by
  intro h
  cases hF.unique hx hy hq h
  exact hF.not_below_of_lt (hF.below_mem (hF.below hx).1 (hF.below hx).2.2) hlt h

end Factors

/-- A node below `o` that is not below one of the equal nodes. -/
def Spared (s : Store κ) (o : Nat) (similar : List Nat) (q : Nat) : Prop :=
  Below s.nodes o q ∧ ∀ y ∈ similar, ¬ Below s.nodes y q

/-- The value of the branch that is added. -/
def addedBranch (v : κ → Bool) (related : List Nat) (w : Nat) (E : Nat → Bool) : Bool :=
  meaning v { op := .andNot } [meaning v { op := .and } [meaning v { op := .or } (related.map E)],
    meaning v { op := .not } [E w]]

theorem addedBranch_eq (v : κ → Bool) (related : List Nat) (w : Nat) (E : Nat → Bool) :
    addedBranch v related w E = (related.any E && !E w) := by
  simp [addedBranch, meaning]

section Values

variable {x : Nat} (hF : Factors s S rank root o an a nt p similar) (hw : w ∈ similar) {s₁ : Store κ}
  (hp : Pruned s S similar (similar.filter (· ≠ w)) s₁) {h' : Heap (Data κ)}
  (hold : ∀ q c, s₁.nodes q = some c → q ≠ w → q ≠ o → h' q = some c)

theorem Spared.not_mem (hq : Spared s o similar q) : q ∉ similar := fun h => hq.2 q h .refl

include hF

theorem Factors.spared (hx : x ∈ similar) : Spared s o similar (an x) ∧ Spared s o similar (a x) ∧
    Spared s o similar (nt x) ∧ Spared s o similar (p x) := by
  have hb := (hF.factor x hx).branch
  obtain ⟨-, hntlt⟩ := hb.mem_nt hF.toShape hF.common
  obtain ⟨-, hplt⟩ := hb.mem_n hF.toShape hF.common
  obtain ⟨-, hxlt, -⟩ := hF.below hx
  obtain ⟨c, hc, -, -, hmem⟩ := hb.top
  have hdown : Below s.nodes o (an x) := Below.refl.step hc hmem
  refine ⟨⟨hdown, fun y hy => ?_⟩, ⟨hdown.trans hb.below_a, fun y hy => ?_⟩, ⟨hdown.trans hb.below_nt, fun y hy => ?_⟩,
    ⟨hdown.trans hb.below_n, fun y hy => ?_⟩⟩
  · exact hF.above hx hy .refl (by omega)
  · exact (hF.part_a hx hy).2
  · exact hF.above hx hy hb.below_nt (by omega)
  · exact hF.above hx hy hb.below_n hxlt

include hp in
theorem Spared.cell (hq : Spared s o similar q) (hc : s.nodes q = some c) :
    s₁.nodes q = some { c with children := c.children.filter (· ∉ similar) } :=
  hp.cell q c (hF.below_mem hF.common hq.1) (fun y hy => hq.2 y (mem_filter.mp hy).1) hc

include hw hp in
theorem Factors.same {r : Nat} (hq : Spared s o similar q) (hno : ∀ y ∈ similar, ¬ Below s.nodes q y)
    (hb : Below s.nodes q r) : s₁.nodes r = s.nodes r :=
  hp.same_rest hF.toShape hF.common hF.apart hw (fun _ h => h) (.inl hq)
    (fun _ _ hb hc x hx hmem => hno x hmem (hb.step hc hx)) hb

include hw hp hold in
theorem Factors.keep (hq : Spared s o similar q) (hlt : rank q < rank o) (hc : s.nodes q = some c)
    (hno : ∀ y ∈ similar, ¬ Below s.nodes q y) : Now meaning s.nodes S h' c.parent q fun _ E => E q := by
  refine hp.now_rest hF.toShape hF.common hF.apart hw (fun _ h => h) (.inl hq)
    (fun _ _ hb hc x hx hmem => hno x hmem (hb.step hc hx)) hc fun r d hb hd =>
      hold r d hd (fun h => hno w hw (h ▸ hb)) ?_
  rintro rfl
  exact hF.not_below_of_lt (hF.below_mem hF.common hq.1) hlt hb

include hw hp hold in
theorem Factors.now (hx : x ∈ similar) : ∃ G, Now meaning s.nodes S h' o (an x) G ∧
    ∀ v E, Val s.nodes S (meaning v) E → ∃ b, E (an x) = (E (a x) && !(b && E x)) ∧ G v E = (E (a x) && !b) := by
  have hb := (hF.factor x hx).branch
  obtain ⟨hanC, haC, hntC, hpC⟩ := hF.spared hx
  obtain ⟨c, hc, hwords, hop, hmem⟩ := (hF.factor x hx).and
  have hcell : ∀ q d, Spared s o similar q → rank q < rank o → s.nodes q = some d →
      h' q = some { d with children := d.children.filter (· ∉ similar) } := by
    intro q d hq hlt hd
    refine hold q _ (hq.cell hF hp hd) (fun h => hq.not_mem (h ▸ hw)) ?_
    rintro rfl
    exact lt_irrefl _ hlt
  obtain ⟨-, hanlt⟩ := hb.mem_an hF.toShape hF.common
  obtain ⟨-, hntlt⟩ := hb.mem_nt hF.toShape hF.common
  obtain ⟨hpS, hplt⟩ := hb.mem_n hF.toShape hF.common
  -- the other factors under the NOT
  have hother : ∀ r ∈ c.children, r ≠ x → Spared s o similar r ∧ ∀ y ∈ similar, ¬ Below s.nodes r y := by
    intro r hrc hrx
    have hpr : Below s.nodes (an x) r := hb.below_n.trans (Below.refl.step hc hrc)
    refine ⟨⟨hpC.1.step hc hrc, fun y hy hyr => ?_⟩, fun y hy hry => ?_⟩
    · cases hF.unique hx hy hpr hyr
      exact hF.below_disjoint hpS hc hmem hrc (Ne.symm hrx) hyr .refl
    · cases hF.unique hx hy (hpr.trans hry) .refl
      exact hF.below_disjoint hpS hc hrc hmem hrx hry .refl
  have hfil : ∀ r, r ∈ c.children.filter (· ∉ similar) ↔ r ∈ c.children ∧ r ≠ x := by
    intro r
    rw [mem_filter]
    refine and_congr_right fun hrc => ⟨fun h hrx => of_decide_eq_true h (hrx ▸ hx), fun hrx => ?_⟩
    exact decide_eq_true (hother r hrc hrx).1.not_mem
  have hp' := Now.node (f := meaning) (h := s.nodes) (S := S) (g := fun _ E r => E r) (hF.ne_zero hpS)
    (hcell _ c hpC (by omega) hc) ((hF.nodup _ c hpS hc).filter _) (by
      intro r hr'
      obtain ⟨hrc, hrx⟩ := (hfil r).mp hr'
      obtain ⟨-, hrlt, d, hd, hpar⟩ := hF.kids _ c hpS hc r hrc
      rw [← hpar]
      exact hF.keep hw hp hold (hother r hrc hrx).1 (by omega) hd (hother r hrc hrx).2)
  obtain ⟨cp, hcp, hppar⟩ := hb.arg
  cases hc.symm.trans hcp
  obtain ⟨cn, hcn, hnwords, hnop, hnkids, hnpar⟩ := hb.not
  obtain ⟨ca, hca, haop, hapar⟩ := hb.and
  obtain ⟨can, hcan, hanwords, hanop, hankids, hanpar⟩ := hb.andNot
  have hn' := hcell _ cn hntC (by omega) hcn
  rw [hnkids, filter_eq_self.mpr (by simp [hpC.not_mem])] at hn'
  have ha' := hF.keep hw hp hold haC (lt_trans (hb.mem_a hF.toShape hF.common).2 hanlt) hca fun y hy => (hF.part_a hx hy).1
  have han' := hcell _ can hanC hanlt hcan
  rw [hankids, filter_eq_self.mpr (by simp [haC.not_mem, hntC.not_mem])] at han'
  rw [hapar] at ha'
  have hnot := Now.nodes (hF.ne_zero (hb.mem_nt hF.toShape hF.common).1) hn' (nodup_singleton _) (.cons (hppar ▸ hp') .nil)
  have hall := Now.nodes (hF.ne_zero (hb.mem_an hF.toShape hF.common).1) han' (by simpa using hb.a_ne_nt)
    (.cons ha' (.cons (hnpar ▸ hnot) .nil))
  refine ⟨_, hanpar ▸ hall, fun v E hE => ⟨(c.children.filter (· ∉ similar)).all E, ?_, ?_⟩⟩
  · have hval : E (p x) = c.children.all E := by
      rw [hE _ c hpS hc]
      simp [meaning, hwords, hop]
    rw [hb.val hF.toShape hF.common hE, hval]
    congr 2
    rw [Bool.eq_iff_iff, Bool.and_eq_true, all_eq_true, all_eq_true]
    refine ⟨fun h => ⟨fun r hr' => h r ((hfil r).mp hr').1, h x hmem⟩, ?_⟩
    rintro ⟨h, hxE⟩ r hrc
    by_cases hrx : r = x
    · rw [hrx]
      exact hxE
    · exact h r ((hfil r).mpr ⟨hrc, hrx⟩)
  · simp [meaning, hwords, hop, hnwords, hnop, hanwords, hanop]

include hw hp hold in
theorem Factors.top_kids (hco : s.nodes o = some co) {r : Nat} (hrc : r ∈ co.children) : ∃ G, Now meaning s.nodes S h' o r G ∧
    ∀ v E, Val s.nodes S (meaning v) E → (r ∉ similar.map an → G v E = E r) ∧
      ∀ x ∈ similar, r = an x → ∃ b, E r = (E (a x) && !(b && E x)) ∧ G v E = (E (a x) && !b) := by
  by_cases hran : r ∈ similar.map an
  · obtain ⟨x, hx, rfl⟩ := mem_map.mp hran
    obtain ⟨G, hn, hG⟩ := hF.now hw hp hold hx
    refine ⟨G, hn, fun v E hE => ⟨fun h => absurd hran h, fun y hy h => ?_⟩⟩
    cases hF.inj x hx y hy h
    exact hG v E hE
  · have hout : ∀ y ∈ similar, ∀ q, Below s.nodes r q → ¬ Below s.nodes (an y) q := by
      intro y hy q hrq hyq
      exact hF.below_disjoint hF.common hco hrc (hF.mem_top hy hco) (fun h => hran (mem_map.mpr ⟨y, hy, h.symm⟩)) hrq hyq
    obtain ⟨-, hrlt, d, hd, hpar⟩ := hF.kids o co hF.common hco r hrc
    refine ⟨fun _ E => E r, hpar ▸ hF.keep hw hp hold
      ⟨Below.refl.step hco hrc, fun y hy hb => hout y hy r .refl (hF.down hy hb)⟩ hrlt hd
      fun y hy hb => hout y hy y hb (hF.down hy .refl), fun v E hE => ⟨fun _ => rfl, fun x hx h => ?_⟩⟩
    exact absurd (mem_map.mpr ⟨x, hx, h.symm⟩) hran

end Values

theorem factor_or {v : κ → Bool} {E F : Nat → Bool} (hF : Factors s S rank root o an a nt p similar) (hE : Val s.nodes S (meaning v) E)
    (hw : w ∈ similar) (hco : s.nodes o = some co)
    (hsame : ∀ x ∈ similar, E x = E w) (hother : ∀ r ∈ co.children, r ∉ similar.map an → F r = E r)
    (hbranch : ∀ x ∈ similar, ∃ b, E (an x) = (E (a x) && !(b && E x)) ∧ F (an x) = (E (a x) && !b)) :
    meaning v co.data (co.children.map F ++ [addedBranch v (similar.map a) w E]) = E o := by
  obtain ⟨c, hc, hwords, hop, -⟩ := (hF.factor w hw).branch.top
  cases hco.symm.trans hc
  have hval : E o = co.children.any E := by
    rw [hE o co hF.common hco]
    simp [meaning, hwords, hop]
  have hnew : meaning v co.data (co.children.map F ++ [addedBranch v (similar.map a) w E]) =
      (co.children.any F || ((similar.map a).any E && !E w)) := by
    rw [addedBranch_eq]
    simp [meaning, hwords, hop, comp_def, any_append]
  rw [hnew, hval, any_map]
  refine any_added (fun x hx => hF.mem_top hx hco) hother fun x hx => ?_
  -- without the common node the added branch matches, with it the old one
  obtain ⟨b, h1, h2⟩ := hbranch x hx
  rw [h1, h2, hsame x hx, Bool.not_and, Bool.and_or_distrib_left]
  rfl

theorem makeTransformCommonCompoundNot_spec (hF : Factors s S rank root o an a nt p similar) (hco : s.nodes o = some co)
    (htwo : 2 ≤ similar.length)
    (hkey : ∀ x ∈ similar, grand s 4 x = some o)
    (hrel : ∀ x ∈ similar, ∀ c, s.nodes (a x) = some c → c.children.length = 1 → Composite c.data)
    (hsame : ∀ v E, Val s.nodes S (meaning v) E → ∀ x ∈ similar, ∀ y ∈ similar, E x = E y) :
    ∃ s' t', makeTransformCommonCompoundNot s similar (similar.map a) = some s' ∧ Rep s'.nodes 0 root t' ∧
      ∀ v E, Val s.nodes S (meaning v) E → Query.matches v t' = E root := by
  have hr := hF.toRooted
  have hs := hF.toShape
  have ho := hF.common
  have ha := hF.apart
  obtain ⟨i, w, hi, hwi, hw⟩ := getWeakestIndex_spec s (show similar ≠ [] by rintro rfl; simp at htwo) fun x hx =>
    hs.live x (ha.mem hs ho hx)
  obtain ⟨s₁, h₁, hp⟩ := cutSimilar_run hr ho ha w
  -- the kept node and the parts `A`
  obtain ⟨cw, hcw⟩ := hs.live w (ha.mem hs ho hw)
  have hw₁ : Now meaning s.nodes S s₁.nodes cw.parent w fun _ E => E w :=
    hp.now_rest hs ho ha hw (fun _ h => h) (.inr .refl) (fun r c hb hc x hx => ha.not_child hs ho hw hb hc hx) hcw
      fun _ _ _ hd => hd
  have ha₁ : ∀ q ∈ similar.map a, ∃ par c, Now meaning s.nodes S s₁.nodes par q (fun _ E => E q) ∧ s₁.nodes q = some c ∧
      (c.children.length = 1 → Composite c.data) ∧ ¬ Below s₁.nodes q w := by
    intro q hq
    obtain ⟨x, hx, rfl⟩ := mem_map.mp hq
    have hb := (hF.factor x hx).branch
    have haC := (hF.spared hx).2.1
    obtain ⟨c, hc, -⟩ := hb.and
    have hno : ∀ y ∈ similar, ¬ Below s.nodes (a x) y := fun y hy => (hF.part_a hx hy).1
    have hsameA : ∀ r, Below s.nodes (a x) r → s₁.nodes r = s.nodes r := fun r =>
      hF.same hw hp haC hno
    refine ⟨_, c, hF.keep hw hp (fun _ _ hc _ _ => hc) haC
      (lt_trans (hb.mem_a hs ho).2 (hb.mem_an hs ho).2) hc hno, (hsameA _ .refl).trans hc, hrel x hx c hc, fun h => hno w hw ?_⟩
    exact h.mem_of_closed (K := Below s.nodes (a x)) .refl fun y d hy hd z hz => hy.step ((hsameA y hy).symm.trans hd) hz
  -- the nodes of the added branch
  obtain ⟨s₂, h₂, hx₂, hg₂, hnot₂⟩ := newOp_now (.cons ⟨_, hw₁⟩ .nil) (nodup_singleton w) (by simp) .not
  obtain ⟨s₃, clones, h₃, hg₃, hcnd, hcl, hclones⟩ := eachNode_now duplicates_cloneRelated (s := s₂) (h := s.nodes) (S := S)
    (G := fun q _ E => E q) (similar.map a) (by
      intro q hq
      obtain ⟨par, c, hn, hc, hP, hno⟩ := ha₁ q hq
      have hnw : ∀ x ∈ [w], ¬ Below s₁.nodes q x := by simpa using hno
      exact ⟨par, c, hg₂.now hn hnw, hg₂.old q c hc fun h => hnw q h .refl, hP⟩)
  have hnotlt : ∀ q ∈ clones, s₁.next < q := fun q hq => by
    have := hcl q hq
    omega
  obtain ⟨s₄, h₄, hx₄, hg₄, hor₄⟩ := newOp_roots hclones hcnd .or
  have hle₃ := hg₃.next
  have hnot₄ := hg₄.now_root (hg₃.now hnot₂ (by simp)) (fun h => lt_irrefl _ (hnotlt _ h)) hclones
  obtain ⟨s₅, h₅, hx₅, hg₅, hand₅⟩ := newOp_roots (.cons hor₄ .nil) (nodup_singleton _) .and
  have hnot₅ := hg₅.now_root hnot₄ (by rw [mem_singleton]; omega) (.cons hor₄ .nil)
  obtain ⟨s₆, h₆, hx₆, hg₆, hnew₆⟩ := newOp_roots (.cons hand₅ (.cons hnot₅ .nil)) (by
    rw [nodup_cons, mem_singleton]
    exact ⟨by omega, nodup_singleton _⟩) .andNot
  have hg : Grows [w] s₁ s₆ := by
    refine (((hg₂.trans hg₃ (by simp)).trans hg₄ ?_).trans hg₅ ?_).trans hg₆ ?_
    · exact fun q hq => .inr (le_of_lt (hnotlt q hq))
    · intro q hq
      rw [mem_singleton.mp hq]
      exact .inr (by omega)
    · intro q hq
      rcases mem_pair.mp hq with rfl | rfl
      · exact .inr (by omega)
      · exact .inr (le_refl _)
  -- the common OR
  have hoC : Spared s o similar o := ⟨.refl, fun y hy hyo => (hF.spared hw).1.2 y hy (hyo.step hco (hF.mem_top hw hco))⟩
  have hkids : ∀ r ∈ co.children, r ∉ similar := by
    intro r hrc hrs
    have hb := (hF.factor r hrs).branch
    obtain ⟨-, hntlt⟩ := hb.mem_nt hs ho
    obtain ⟨-, hplt⟩ := hb.mem_n hs ho
    obtain ⟨-, hrlt, -⟩ := hF.below hrs
    refine hs.below_disjoint ho hco hrc (hF.mem_top hrs hco) (fun h => ?_) .refl (hF.down hrs .refl)
    have := congrArg rank h
    omega
  have hwo : w ≠ o := (ha.below w hw).2
  have hco₆ : s₆.nodes o = some co := by
    refine hg.old o co ?_ (by simpa using hwo.symm)
    rw [hp.same ho (fun y hy => hoC.2 y (mem_filter.mp hy).1) hco hkids, hco]
  have hold : ∀ q c, s₁.nodes q = some c → q ≠ w → q ≠ o → s₆.nodes q = some c := fun q c hc hqw _ =>
    hg.old q c hc (by simpa using hqw)
  have hkids₆ := fun r hrc => hF.top_kids hw hp hold hco (r := r) hrc
  choose! G hG using hkids₆
  obtain ⟨s₇, t', h₇, -, -, ht', -, hte⟩ := rep_addNewChild hr ho hco hco₆ (by
      intro r hrS hro
      obtain ⟨c, hc⟩ := hs.live r hrS
      have hr₁ := hp.out hr (fun x hx => (ha.below x (mem_filter.mp hx).1).1) (fun y hy c hc => ha.parent_below hs ho hy hc)
        hrS hro
      rw [hc, hg.old r c (hr₁.trans hc)]
      rw [mem_singleton]
      rintro rfl
      exact hro (ha.below r hw).1) (hp.not_mem_new hs (by omega)) hnew₆ (fun r hrc => (hG r hrc).1) (by
    intro v E hE
    have hor := factor_or (F := fun r => G r v E) hF hE hw hco (fun x hx => hsame v E hE x hx w hw)
      (fun r hrc => ((hG r hrc).2 v E hE).1) fun x hx => ((hG _ (hF.mem_top hx hco)).2 v E hE).2 x hx rfl
    simpa only [addedBranch, map_cons, map_nil, map_map, comp_def] using hor)
  refine ⟨s₇, t', ?_, ht', hte⟩
  have hclones : 1 < clones.length := by
    have := hclones.length_eq
    rw [length_map, length_map] at this
    omega
  simp only [makeTransformCommonCompoundNot, hi, hwi, hkey w hw, h₁, h₂, h₃, singleRelatedOrNewOr, if_pos hclones, h₄, h₅, h₆,
    bind_eq_bind, bind_some]
  exact h₇

theorem factors_of_group {t : Query κ} (ht : Rep s.nodes 0 root t) (hbool : BoolTree s.nodes root)
    (hg : Group s root 4 (checkCommonCompoundNot s) similar) :
    ∃ o, Below s.nodes root o ∧ (∀ x ∈ similar, grand s 4 x = some o) ∧
      ∀ x ∈ similar, ∃ an a nt p, Factor s.nodes o an a nt p x ∧ grand s 2 x = some nt ∧ grand s 3 x = some an := by
  refine hg.common fun o x hx hck hkey => ?_
  simp only [checkCommonCompoundNot, Bool.and_eq_true, beq_iff_eq] at hck
  obtain ⟨⟨⟨⟨-, h1⟩, h2⟩, h3⟩, h4⟩ := hck
  obtain ⟨o', an, a, nt, p, c, hb, ho', hc, hwords, hop, hmem, -, -, hg2, hg3, hg4⟩ :=
    branch_of_parent ht.rooted hbool (hg.below x hx) h1 h2 h3 h4
  cases hg4.symm.trans hkey
  exact ⟨ho', an, a, nt, p, ⟨hb, c, hc, hwords, hop, hmem⟩, hg2, hg3⟩

end Rewrite

/-! ## The rule -/

/-- **COMMON COMPOUND NOT leaves a tree that matches the same documents**, for any number of branches, of further factors
and of other children of the OR. -/
theorem commonCompoundNot_keep {κ : Type} {s : Store κ} {root : Nat} {t : Query κ} {similar : List Nat}
    (ht : Rep s.nodes 0 root t) (hbool : BoolTree s.nodes root) (hg : Group s root 4 (checkCommonCompoundNot s) similar)
    (useful : Bool) :
    ∃ s' t', transformCommonCompoundNot useful s similar = some (s', useful && !hasSameGrand s similar) ∧
      Rep s'.nodes 0 root t' ∧ ∀ v, Query.matches v t' = Query.matches v t := by
  have hr := ht.rooted
  have hs := hr.toShape
  obtain ⟨o, ho, hkey, hfac⟩ := factors_of_group ht hbool hg
  choose! an a nt p hfac using hfac
  have hB : ∀ x ∈ similar, Factor s.nodes o (an x) (a x) (nt x) (p x) x := fun x hx => (hfac x hx).1
  have hcollect : collectRelatedNodes s 2 3 similar = some (similar.map a) :=
    collectRelated_branches (fun x hx => (hB x hx).branch) fun x hx => (hfac x hx).2
  have htwo : ¬ (similar.map a).length ≤ 1 := by
    rw [length_map]
    exact Nat.not_le_of_lt hg.two
  cases hgrand : hasSameGrand s similar with
  | true =>
    refine ⟨s, t, ?_, ht, fun _ => rfl⟩
    rw [transformCommonCompoundNot, if_pos (.inr hgrand), Bool.not_true, Bool.and_false]
  | false =>
    have hno : ¬ (similar.length < 2 ∨ hasSameGrand s similar = true) := by
      rw [hgrand]
      exact fun h => h.elim (Nat.not_lt_of_le hg.two) Bool.false_ne_true
    cases useful with
    | false =>
      refine ⟨s, t, ?_, ht, fun _ => rfl⟩
      simp only [transformCommonCompoundNot, if_neg hno, hcollect, bind_eq_bind, bind_some]
      rw [if_pos (.inr Bool.false_ne_true)]
      rfl
    | true =>
      have hnd : (similar.map (grand s 2)).Nodup := by simpa [hasSameGrand] using hgrand
      have hinj : ∀ x ∈ similar, ∀ y ∈ similar, an x = an y → x = y := by
        intro x hx y hy h
        have hnt := ((h ▸ (hB x hx).branch).parts (hB y hy).branch).2.1
        exact inj_on_of_nodup_map hnd hx hy (by rw [(hfac x hx).2.1, (hfac y hy).2.1, hnt])
      have huniq : uniq (similar.map a) = similar.map a := by
        refine uniq_of_nodup (hg.nodup.map_on ?_)
        intro x hx y hy h
        obtain ⟨c, hc, -, hpar⟩ := (hB x hx).branch.and
        obtain ⟨d, hd, -, hpar'⟩ := (hB y hy).branch.and
        rw [h] at hc
        cases hc.symm.trans hd
        exact hinj x hx y hy (hpar.symm.trans hpar')
      obtain ⟨co, hco⟩ := hs.live o ho
      have hF : Factors s _ _ root o an a nt p similar := ⟨hr, ho, hB, hinj, hg.nodup⟩
      obtain ⟨s', t', h', ht', hval⟩ := makeTransformCommonCompoundNot_spec hF hco hg.two hkey (by
          intro x hx c hc hone
          obtain ⟨d, hd, hop, -⟩ := (hB x hx).branch.and
          cases hc.symm.trans hd
          obtain ⟨q, hq⟩ := length_eq_one_iff.mp hone
          have hab := hs.below_mem ho ((hF.spared hx).2.1.1)
          exact ⟨(hbool _ _ hab hc).inner (by rw [hq]; exact mem_cons_self), .inr hop⟩)
        (hg.val hs)
      refine ⟨s', t', ?_, ht', matches_eq_of_val ht hval⟩
      simp only [transformCommonCompoundNot, if_neg hno, hcollect, huniq, h', bind_eq_bind, bind_some]
      rw [if_neg fun h => h.elim htwo fun h => h trivial]
      rfl

/-- `(A !(N AA)) | (B !(N BB))`, with the keywords `0`, `1` for `A`, `B` and `2` for `N`. -/
def compoundBranches : List (Node Nat) :=
  [opNode .or [2, 3] 0, opNode .andNot [4, 5] 1, opNode .andNot [6, 7] 1, wordNode 0 2, opNode .not [8] 2,
   wordNode 1 3, opNode .not [9] 3, opNode .and [10, 11] 5, opNode .and [12, 13] 7, wordNode 2 8, wordNode 3 8,
   wordNode 2 9, wordNode 4 9]

/-- The tree of one branch of `compoundBranches`. -/
def compoundBranch (a n : Nat) : Query Nat :=
  .node { op := .andNot } [.node { words := [a] } [],
    .node { op := .not } [.node { op := .and } [.node { words := [2] } [], .node { words := [n] } []]]]

theorem commonCompoundNot_keep_compoundBranches :
    ∃ s' t', transformCommonCompoundNot true (Store.ofNodes compoundBranches) [10, 12] =
        some (s', true && !hasSameGrand (Store.ofNodes compoundBranches) [10, 12]) ∧ Rep s'.nodes 0 1 t' ∧
      ∀ v, Query.matches v t' = Query.matches v (.node { op := .or } [compoundBranch 0 3, compoundBranch 1 4]) :=
  commonCompoundNot_keep (by decide) (boolTree_of_all (by decide) 1) (group_of_leaves 1 { words := [2] } (by decide)) true

end XQ
end Manticore

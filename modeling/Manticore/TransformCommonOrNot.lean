import Manticore.XQBool
/-!
# TransformCommonOrNot — `((A !(N | N1)) | (B !(N | N2)) | R)`

The common node leaves the ORs under the NOTs and is negated once, above the whole common OR: the result is
`((A !N1) | (B !N2) | R) !N`.  A child `R` that took no part stands under that negation too.
-/
namespace Manticore
namespace XQ

open PtrTree
open List
open Option (bind_eq_bind bind_some)
open Function (comp_def update_of_ne update_self)

variable {κ : Type}

/-- `CSphTransformation::CheckCommonOrNot`. -/
def checkCommonOrNot (s : Store κ) (p : Nat) : Bool :=
  valid s 4 p && grandOp s 1 p == some .or && grandOp s 2 p == some .not && grandOp s 3 p == some .andNot &&
    grandOp s 4 p == some .or

/-- One turn of the loop that unlinks the equal nodes. -/
def unlinkSimilar (weakest : Nat) (s : Store κ) (x : Nat) : Option (Store κ) := do
  let c ← s.nodes x
  let s ← removeChild s c.parent x
  let s ← deleteUnless (x == weakest) s x
  let d ← s.nodes c.parent
  if 1 < d.children.length then return s
  let last ← d.children[0]?
  let s ← replaceNode s c.parent last
  let s ← setChildren s c.parent fun _ => []
  delete s c.parent

/-- The new ANDNOT takes the place of the common OR; gives the new root. -/
def replaceOr (s : Store κ) (root commonOr new : Nat) : Option (Store κ × Nat) := do
  let c ← s.nodes commonOr
  if c.parent = 0 then return (s, new)
  let s ← replaceNode s commonOr new
  return (s, root)

/-- The last part of `MakeTransformCommonOrNot`: the common OR and the weakest node go under a new ANDNOT. -/
def negateOr (s : Store κ) (root commonOr weakest : Nat) : Option (Store κ × Nat) := do
  let andNot := s.next
  let and := s.next + 1
  let not := s.next + 2
  let (s, root) ← replaceOr (newNode (newNode (newNode s))) root commonOr andNot
  let s ← setOpArgs s not .not [weakest]
  let s ← setOpArgs s and .and [commonOr]
  let s ← setOpArgs s andNot .andNot [and, not]
  return (s, root)

/-- `CSphTransformation::MakeTransformCommonOrNot`; gives the new root. -/
def makeTransformCommonOrNot (s : Store κ) (root : Nat) (similar : List Nat) : Option (Store κ × Nat) := do
  let w ← getWeakestIndex s similar
  let weakest ← similar[w]?
  let commonOr ← grand s 4 weakest
  let s ← similar.foldlM (unlinkSimilar weakest) s
  negateOr s root commonOr weakest

/-! ## Unlinking the equal nodes -/

/-- A branch `A !(N | ...)`: the node `x` is one of the children `ks` of the OR node `p` under the NOT. -/
structure Leg (h : Heap (Data κ)) (o an a nt p : Nat) (ks : List Nat) (x : Nat) : Prop where
  branch : Branch h o an a nt p
  or     : ∃ c, h p = some c ∧ c.data.words = [] ∧ c.data.op = .or ∧ c.children = ks ∧ c.parent = nt
  mem    : x ∈ ks
  two    : 2 ≤ ks.length

variable {s s₁ : Store κ} {S : Nat → Prop} {rank : Nat → Nat} {root o w : Nat} {similar : List Nat} {y q x : Nat} {co : Node κ}

section Unlink

variable {an a nt p : Nat → Nat} {ks : Nat → List Nat}

section
variable {h : Heap (Data κ)} {an a nt p x : Nat} {ks : List Nat} (hl : Leg h o an a nt p ks x) (hs : Shape h S rank) (ho : S o)
include hl hs ho

theorem Leg.child (hy : y ∈ ks) :
    S y ∧ rank y < rank p ∧ Below h p y ∧ ∃ c, h y = some c ∧ c.parent = p := by
  obtain ⟨c, hc, -, -, hkids, -⟩ := hl.or
  obtain ⟨hpS, -⟩ := hl.branch.mem_n hs ho
  have hyc : y ∈ c.children := by rw [hkids]; exact hy
  obtain ⟨h1, h2, h3⟩ := hs.kids p c hpS hc y hyc
  exact ⟨h1, h2, Below.refl.step hc hyc, h3⟩

theorem Leg.off (hq : ¬ Below h nt q) : q ≠ nt ∧ q ≠ p ∧ ¬ Below h x q ∧ q ∉ ks := by
  have hb := hl.branch.below_nt_n
  refine ⟨fun h => hq (h ▸ .refl), fun h => hq (h ▸ hb), fun h => ?_, fun h => hq (hb.trans (hl.child hs ho h).2.2.1)⟩
  exact hq (hb.trans ((hl.child hs ho hl.mem).2.2.1.trans h))

end

/-- The equal nodes of `done` are out of their ORs, and an OR left with one child is replaced by it. -/
structure Cut (s : Store κ) (nt p : Nat → Nat) (ks : Nat → List Nat) (w : Nat) (done : List Nat) (s₁ : Store κ) : Prop where
  next   : s₁.next = s.next
  same   : ∀ q, (∀ x ∈ done, q ≠ nt x ∧ q ≠ p x ∧ (x ≠ w → ¬ Below s.nodes x q) ∧ (ks x).erase x ≠ [q]) → s₁.nodes q = s.nodes q
  several : ∀ x ∈ done, 2 < (ks x).length → s₁.nodes (nt x) = s.nodes (nt x) ∧
    ∀ c, s.nodes (p x) = some c → s₁.nodes (p x) = some { c with children := (ks x).erase x }
  single : ∀ x ∈ done, ∀ y, (ks x).erase x = [y] →
    (∀ c, s.nodes (nt x) = some c → s₁.nodes (nt x) = some { c with children := [y] }) ∧
    ∀ c, s.nodes y = some c → s₁.nodes y = some { c with parent := nt x }

variable (hr : Rooted s.nodes S rank root) (hs : Shape s.nodes S rank) (ho : S o)
  (hB : ∀ x ∈ similar, Leg s.nodes o (an x) (a x) (nt x) (p x) (ks x) x)
  (hp : ∀ x ∈ similar, ∀ y ∈ similar, p x = p y → x = y)

include hB hp in
theorem an_ne_leg (hx : x ∈ similar) (hy : y ∈ similar) (hne : x ≠ y) : an x ≠ an y := fun h =>
  hne (hp x hx y hy ((h ▸ (hB x hx).branch).parts (hB y hy).branch).2.2)

variable {done : List Nat}

include hs ho hB in
theorem Cut.branch_same (hd : Cut s nt p ks w done s₁)
    (hdone : ∀ x ∈ done, x ∈ similar) (hq : ∀ x ∈ done, ¬ Below s.nodes (nt x) q) : s₁.nodes q = s.nodes q := by
  refine hd.same q ?_
  intro x hx
  obtain ⟨h1, h2, h3, h4⟩ := (hB x (hdone x hx)).off hs ho (hq x hx)
  exact ⟨h1, h2, fun _ => h3, fun h => h4 (mem_of_mem_erase (by rw [h]; exact mem_cons_self))⟩

include hr ho hB in
theorem Cut.chain (hd : Cut s nt p ks w done s₁) (hdone : ∀ x ∈ done, x ∈ similar)
    {h' : Heap (Data κ)} (hh' : ∀ q, (∀ x ∈ similar, ¬ Below s.nodes (an x) q) → h' q = s₁.nodes q) : Chain h' o := by
  have hs := hr.toShape
  refine chain_above hr ho ?_
  intro q c _ hle hc
  have hno : ∀ x ∈ similar, ¬ Below s.nodes (an x) q := fun x hx => (hB x hx).branch.not_below_above hs ho hle
  have hnt : ∀ x ∈ done, ¬ Below s.nodes (nt x) q := fun x hx h => hno x (hdone x hx) ((hB x (hdone x hx)).branch.below_nt.trans h)
  exact ⟨c, by rw [hh' q hno, hd.branch_same hs ho hB hdone hnt, hc], rfl⟩

theorem replaceOr_single {nt p : Nat} {cp ct cy : Node κ} (hp : s.nodes p = some cp) (hpar : cp.parent = nt)
    (hnt : s.nodes nt = some ct) (hntk : ct.children = [p]) (hy : s.nodes y = some cy)
    (hyp : y ≠ p) (hynt : y ≠ nt) (hpnt : p ≠ nt) (hch : Chain (Function.update s.nodes y (some { cy with parent := nt })) nt) :
    ∃ s₁ s₂ s₃, replaceNode s p y = some s₁ ∧ setChildren s₁ p (fun _ => []) = some s₂ ∧ delete s₂ p = some s₃ ∧
      s₃.next = s.next ∧ s₃.nodes nt = some { ct with children := [y] } ∧ s₃.nodes y = some { cy with parent := nt } ∧
      ∀ q, q ≠ nt → q ≠ y → q ≠ p → s₃.nodes q = s.nodes q := by
  subst hpar
  obtain ⟨s₁, h₁, hx₁, hn₁⟩ := replaceNode_spec hp (Nat.ne_of_gt (s.pos hnt)) hnt (by rw [hntk]; exact mem_cons_self) hy
    hynt hch
  rw [hntk, replaceFirst, if_pos rfl] at hn₁
  have hp₁ : s₁.nodes p = some cp := by rw [hn₁, update_of_ne hyp.symm, update_of_ne hpnt, hp]
  obtain ⟨s₂, h₂, hn₂, hx₂⟩ := setChildren_spec hp₁ fun _ => []
  have hp₂ : s₂.nodes p = some { cp with children := [] } := by rw [hn₂, update_self]
  obtain ⟨s₃, h₃, hx₃, -, hkeep⟩ := delete_alone hp₂ rfl
  have hstay : ∀ q, q ≠ p → s₃.nodes q = s₁.nodes q := by
    intro q hq
    rw [hkeep q hq, hn₂, update_of_ne hq]
  refine ⟨s₁, s₂, s₃, h₁, h₂, h₃, by omega, ?_, ?_, ?_⟩
  · rw [hstay _ hpnt.symm, hn₁, update_of_ne hynt.symm, update_self]
  · rw [hstay y hyp, hn₁, update_self]
  · intro q hqn hqy hqp
    rw [hstay q hqp, hn₁, update_of_ne hqy, update_of_ne hqn]

include hs ho hB hp in
/-- One more turn, which touches only what is below the NOT of its branch. -/
theorem Cut.snoc {s₂ : Store κ} (hd : Cut s nt p ks w done s₁)
    (hdone : ∀ x ∈ done, x ∈ similar) (hx : x ∈ similar) (hnew : x ∉ done) (hnext : s₂.next = s₁.next)
    (hown : ∀ q, q ≠ nt x → q ≠ p x → (x ≠ w → ¬ Below s.nodes x q) → (ks x).erase x ≠ [q] → s₂.nodes q = s₁.nodes q)
    (hseveral : 2 < (ks x).length → s₂.nodes (nt x) = s.nodes (nt x) ∧
      ∀ c, s.nodes (p x) = some c → s₂.nodes (p x) = some { c with children := (ks x).erase x })
    (hsingle : ∀ y, (ks x).erase x = [y] →
      (∀ c, s.nodes (nt x) = some c → s₂.nodes (nt x) = some { c with children := [y] }) ∧
      ∀ c, s.nodes y = some c → s₂.nodes y = some { c with parent := nt x }) : Cut s nt p ks w (done ++ [x]) s₂ := by
  have hfar : ∀ y ∈ done, ∀ q, Below s.nodes (an y) q → s₂.nodes q = s₁.nodes q := by
    intro y hy q hq
    have hoff : ¬ Below s.nodes (nt x) q := fun h => (hB x hx).branch.disjoint (hB y (hdone y hy)).branch hs ho
      (an_ne_leg hB hp hx (hdone y hy) fun h => hnew (h ▸ hy)) ((hB x hx).branch.below_nt.trans h) hq
    obtain ⟨h1, h2, h3, h4⟩ := (hB x hx).off hs ho hoff
    exact hown q h1 h2 (fun _ => h3) fun h => h4 (mem_of_mem_erase (by rw [h]; exact mem_cons_self))
  refine ⟨hnext.trans hd.next, fun q hq => ?_, fun y hy hlen => ?_, fun y hy z hz => ?_⟩
  · obtain ⟨h1, h2, h3, h4⟩ := hq x (List.mem_append.mpr (.inr mem_cons_self))
    exact (hown q h1 h2 h3 h4).trans (hd.same q fun y hy => hq y (List.mem_append.mpr (.inl hy)))
  · rcases List.mem_append.mp hy with hy | hy
    · have hb := (hB y (hdone y hy)).branch
      obtain ⟨h1, h2⟩ := hd.several y hy hlen
      exact ⟨(hfar y hy _ hb.below_nt).trans h1, fun c hc => (hfar y hy _ hb.below_n).trans (h2 c hc)⟩
    · cases mem_singleton.mp hy
      exact hseveral hlen
  · rcases List.mem_append.mp hy with hy | hy
    · have hl := hB y (hdone y hy)
      obtain ⟨h1, h2⟩ := hd.single y hy z hz
      have hzk : z ∈ ks y := mem_of_mem_erase (by rw [hz]; exact mem_cons_self)
      exact ⟨fun c hc => (hfar y hy _ hl.branch.below_nt).trans (h1 c hc),
        fun c hc => (hfar y hy _ (hl.branch.below_n.trans (hl.child hs ho hzk).2.2.1)).trans (h2 c hc)⟩
    · cases mem_singleton.mp hy
      exact hsingle z hz

include hs ho hB hp in
theorem Cut.untouched (hd : Cut s nt p ks w done s₁) (hdone : ∀ x ∈ done, x ∈ similar) (hx : x ∈ similar) (hnew : x ∉ done)
    (hq : Below s.nodes (an x) q) : s₁.nodes q = s.nodes q := by
  refine hd.branch_same hs ho hB hdone fun y hy h => ?_
  have hb := (hB y (hdone y hy)).branch
  exact (hB x hx).branch.disjoint hb hs ho (an_ne_leg hB hp hx (hdone y hy) fun h => hnew (h ▸ hy)) hq (hb.below_nt.trans h)

include hr ho hB hp in
/-- The equal node leaves its OR and is freed, unless it is the one that stays. -/
theorem Cut.dropped (hd : Cut s nt p ks w done s₁) (hdone : ∀ x ∈ done, x ∈ similar) (hx : x ∈ similar) (hnew : x ∉ done)
    {cp : Node κ} (hcp : s.nodes (p x) = some cp) :
    ∃ s₂ s₃, removeChild s₁ (p x) x = some s₂ ∧ deleteUnless (x == w) s₂ x = some s₃ ∧ s₃.next = s₁.next ∧
      s₃.nodes (p x) = some { cp with children := (ks x).erase x } ∧
      ∀ q, q ≠ p x → (x ≠ w → ¬ Below s.nodes x q) → s₃.nodes q = s₁.nodes q := by
  have hs := hr.toShape
  have hl := hB x hx
  have hb := hl.branch
  obtain ⟨c, hc, -, -, hpk, hppar⟩ := hl.or
  cases hcp.symm.trans hc
  obtain ⟨ct, hct, -, -, -, htpar⟩ := hb.not
  obtain ⟨cn, hcn, -, -, -, hnpar⟩ := hb.andNot
  obtain ⟨hxS, hxlt, hxb, -⟩ := hl.child hs ho hl.mem
  have hsame : ∀ q, Below s.nodes (an x) q → s₁.nodes q = s.nodes q := fun q => hd.untouched hs ho hB hp hdone hx hnew
  have hcp₁ : s₁.nodes (p x) = some cp := (hsame _ hb.below_n).trans hcp
  have hch₁ : Chain s₁.nodes (p x) := by
    refine .step hcp₁ ?_
    rw [hppar]
    refine .step ((hsame _ hb.below_nt).trans hct) ?_
    rw [htpar]
    refine .step ((hsame _ .refl).trans hcn) ?_
    rw [hnpar]
    exact hd.chain hr ho hB hdone fun q _ => rfl
  obtain ⟨s₂, h₂, hn₂, hx₂⟩ := removeChild_spec hcp₁ hch₁ x
  rw [hpk] at hn₂
  have hkeep : ∃ s₃, deleteUnless (x == w) s₂ x = some s₃ ∧ s₃.next = s₂.next ∧
      ∀ q, (x ≠ w → ¬ Below s.nodes x q) → s₃.nodes q = s₂.nodes q := by
    by_cases hxw : x = w
    · exact ⟨s₂, by rw [deleteUnless, if_pos (by simpa using hxw)], rfl, fun _ _ => rfl⟩
    · have hshape : Shape s₂.nodes (Below s.nodes x) rank := (hs.restrict_below hxS).congr fun q hq => by
        rw [hn₂, update_of_ne fun h : q = p x => hs.not_below_of_lt hxS hxlt (h ▸ hq), hsame q (hb.below_n.trans (hxb.trans hq))]
      obtain ⟨s₃, h₃, hx₃, -, hkeep⟩ := delete_spec hshape .refl
      refine ⟨s₃, by rw [deleteUnless, if_neg (by simpa using hxw), h₃], hx₃, ?_⟩
      exact fun q hq => hkeep q fun hb => hq hxw (hshape.below_mem .refl hb)
  obtain ⟨s₃, h₃, hx₃, hkeep₃⟩ := hkeep
  refine ⟨s₂, s₃, h₂, h₃, hx₃.trans hx₂, ?_, fun q hq hqx => ?_⟩
  · rw [hkeep₃ _ fun _ => hs.not_below_of_lt hxS hxlt, hn₂, update_self]
  · rw [hkeep₃ q hqx, hn₂, update_of_ne hq]

include hr ho hB hp in
theorem Cut.step (hd : Cut s nt p ks w done s₁)
    (hdone : ∀ x ∈ done, x ∈ similar) (hx : x ∈ similar) (hnew : x ∉ done) :
    ∃ s₂, unlinkSimilar w s₁ x = some s₂ ∧ Cut s nt p ks w (done ++ [x]) s₂ := by
  have hs := hr.toShape
  have hl := hB x hx
  have hb := hl.branch
  obtain ⟨hpS, hplt⟩ := hb.mem_n hs ho
  obtain ⟨hntS, hntlt⟩ := hb.mem_nt hs ho
  obtain ⟨cp, hcp, -, -, hpk, hppar⟩ := hl.or
  obtain ⟨ct, hct, -, -, htk, htpar⟩ := hb.not
  obtain ⟨cn, hcn, -, -, -, hnpar⟩ := hb.andNot
  obtain ⟨hxS, hxlt, hxb, cx, hcx, hxpar⟩ := hl.child hs ho hl.mem
  have hnd : (ks x).Nodup := hpk ▸ hs.nodup _ cp hpS hcp
  have hsame : ∀ q, Below s.nodes (an x) q → s₁.nodes q = s.nodes q := fun q => hd.untouched hs ho hB hp hdone hx hnew
  have hcx₁ : s₁.nodes x = some cx := (hsame x (hb.below_n.trans hxb)).trans hcx
  have hpnt : p x ≠ nt x := fun h => by rw [h] at hplt; exact lt_irrefl _ hplt
  have hpan : p x ≠ an x := fun h => by rw [h] at hplt; omega
  obtain ⟨s₂, s₃, h₂, h₃, hx₃, hcp₃, hsame₃⟩ := hd.dropped hr ho hB hp hdone hx hnew hcp
  have hct₃ : s₃.nodes (nt x) = some ct := by
    rw [hsame₃ _ hpnt.symm fun _ => hs.not_below_of_lt hxS (by omega), hsame _ hb.below_nt, hct]
  have hlen : ((ks x).erase x).length = (ks x).length - 1 := length_erase_of_mem hl.mem
  have htwo := hl.two
  by_cases hmany : 2 < (ks x).length
  · refine ⟨s₃, ?_, hd.snoc hs ho hB hp hdone hx hnew hx₃ (fun q _ h1 h2 _ => hsame₃ q h1 h2) ?_ ?_⟩
    · simp only [unlinkSimilar, hcx₁, hxpar, h₂, h₃, hcp₃, bind_eq_bind, bind_some]
      rw [if_pos (by omega)]
      rfl
    · intro _
      refine ⟨by rw [hct₃, hct], fun c hc => ?_⟩
      cases hcp.symm.trans hc
      exact hcp₃
    · intro y hy
      rw [hy, length_singleton] at hlen
      omega
  · obtain ⟨y, hy⟩ := length_eq_one_iff.mp (show ((ks x).erase x).length = 1 by omega)
    have hymem : y ∈ (ks x).erase x := by rw [hy]; exact mem_cons_self
    obtain ⟨hyx, hyk⟩ := hnd.mem_erase_iff.mp hymem
    obtain ⟨hyS, hylt, hyb, cy, hcy, hypar⟩ := hl.child hs ho hyk
    have hyp : y ≠ p x := fun h => by rw [h] at hylt; exact lt_irrefl _ hylt
    have hynt : y ≠ nt x := fun h => by rw [h] at hylt; omega
    have hyx' : ¬ Below s.nodes x y := by
      intro h
      exact hs.below_disjoint hpS hcp (hpk ▸ hl.mem) (hpk ▸ hyk) (Ne.symm hyx) h .refl
    have hcy₃ : s₃.nodes y = some cy := by
      rw [hsame₃ y hyp fun _ => hyx', hsame y (hb.below_n.trans hyb), hcy]
    have hch₃ : Chain (Function.update s₃.nodes y (some { cy with parent := nt x })) (nt x) := by
      obtain ⟨hanS, hanlt⟩ := hb.mem_an hs ho
      have hyan : y ≠ an x := fun h => by rw [h] at hylt; omega
      refine .step (by rw [update_of_ne hynt.symm, hct₃]) ?_
      rw [htpar]
      refine .step (by rw [update_of_ne hyan.symm, hsame₃ _ hpan.symm fun _ => hs.not_below_of_lt hxS (by omega), hsame _ .refl, hcn]) ?_
      rw [hnpar]
      refine hd.chain hr ho hB hdone ?_
      intro q hq
      obtain ⟨-, h1, h2, h3⟩ := hl.off hs ho fun h => hq x hx (hb.below_nt.trans h)
      rw [update_of_ne fun h : q = y => h3 (h ▸ hyk), hsame₃ q h1 fun _ => h2]
    obtain ⟨s₄, s₅, s₆, h₄, h₅, h₆, hx₆, hnt₆, hy₆, hfar₆⟩ := replaceOr_single hcp₃ hppar hct₃ htk hcy₃ hyp hynt hpnt hch₃
    refine ⟨s₆, ?_, hd.snoc hs ho hB hp hdone hx hnew (hx₆.trans hx₃) ?_ (fun h => absurd h hmany) ?_⟩
    · simp only [unlinkSimilar, hcx₁, hxpar, h₂, h₃, hcp₃, hy, bind_eq_bind, bind_some, length_singleton,
        lt_irrefl, if_false, getElem?_cons_zero, h₄, h₅]
      exact h₆
    · intro q hqn hqp hqx hqy
      rw [hfar₆ q hqn (fun h => hqy (h ▸ hy)) hqp, hsame₃ q hqp hqx]
    · intro z hz
      cases hy.symm.trans hz
      refine ⟨fun c hc => ?_, fun c hc => ?_⟩
      · cases hct.symm.trans hc
        exact hnt₆
      · cases hcy.symm.trans hc
        exact hy₆

theorem Cut.init (s : Store κ) (nt p : Nat → Nat) (ks : Nat → List Nat) (w : Nat) : Cut s nt p ks w [] s where
  next := rfl
  same _ _ := rfl
  several _ hx := absurd hx not_mem_nil
  single _ hx := absurd hx not_mem_nil

/-! ## The tree without the equal nodes -/

section Without

include hs ho hB hp in
theorem leg_unique (hx : x ∈ similar) (hy : y ∈ similar) (hbx : Below s.nodes (an x) q)
    (hby : Below s.nodes (an y) q) : x = y := by
  by_contra hne
  exact (hB x hx).branch.disjoint (hB y hy).branch hs ho (an_ne_leg hB hp hx hy hne) hbx hby

include hs ho hB in
theorem below_an_of_kid (hx : x ∈ similar) (hy : y ∈ ks x) (hq : Below s.nodes y q) : Below s.nodes (an x) q :=
  (hB x hx).branch.below_n.trans (((hB x hx).child hs ho hy).2.2.1.trans hq)

include hs ho hB in
theorem not_only_kid (hx : x ∈ similar) (hy : y ∈ ks x) (hq : Below s.nodes y q) (hne : q ≠ y) :
    (ks x).erase x ≠ [q] := by
  intro h
  obtain ⟨cp, hcp, -, -, hpk, -⟩ := (hB x hx).or
  have hqk : q ∈ ks x := mem_of_mem_erase (by rw [h]; exact mem_cons_self)
  exact hs.below_disjoint ((hB x hx).branch.mem_n hs ho).1 hcp (hpk ▸ hqk) (hpk ▸ hy) hne .refl hq

include hs ho hB hp in
/-- A child that stays keeps its cells, unless it takes the place of its OR. -/
theorem Cut.same_below (hd : Cut s nt p ks w similar s₁) (hx : x ∈ similar) (hy : y ∈ ks x)
    (hxw : y = x → x = w) (hq : Below s.nodes y q) (hone : (ks x).erase x ≠ [q]) : s₁.nodes q = s.nodes q := by
  have hl := hB x hx
  obtain ⟨hpS, hplt⟩ := hl.branch.mem_n hs ho
  obtain ⟨cp, hcp, -, -, hpk, -⟩ := hl.or
  obtain ⟨hyS, hylt, -⟩ := hl.child hs ho hy
  have hle := hs.below_le hyS hq
  refine hd.same q ?_
  intro z hz
  by_cases hzx : z = x
  · subst hzx
    refine ⟨?_, ?_, fun hzw h => ?_, hone⟩
    · rintro rfl
      omega
    · rintro rfl
      omega
    · exact hs.below_disjoint hpS hcp (hpk ▸ hl.mem) (hpk ▸ hy) (fun h => hzw (hxw h.symm)) h hq
  · have hoff : ¬ Below s.nodes (nt z) q := fun h =>
      hzx (leg_unique hs ho hB hp hz hx ((hB z hz).branch.below_nt.trans h) (below_an_of_kid hs ho hB hx hy hq))
    obtain ⟨h1, h2, h3, h4⟩ := (hB z hz).off hs ho hoff
    exact ⟨h1, h2, fun _ => h3, fun h => h4 (mem_of_mem_erase (by rw [h]; exact mem_cons_self))⟩

section Values

variable (hd : Cut s nt p ks w similar s₁) (hw : w ∈ similar) {h' : Heap (Data κ)}
  (hlow : ∀ q c, S q → rank q < rank o → q ≠ w → s₁.nodes q = some c → h' q = some c)

include hs ho hB hp hd hw hlow in
/-- The children that are left of the OR above an equal node, under its NOT. -/
theorem Cut.now_not (hx : x ∈ similar) :
    Now meaning s.nodes S h' (an x) (nt x) fun _ E => !((ks x).erase x).any E := by
  have hl := hB x hx
  have hb := hl.branch
  obtain ⟨-, hanlt⟩ := hb.mem_an hs ho
  obtain ⟨hntS, hntlt⟩ := hb.mem_nt hs ho
  obtain ⟨hpS, hplt⟩ := hb.mem_n hs ho
  obtain ⟨cp, hcp, hpw, hpop, hpk, hppar⟩ := hl.or
  obtain ⟨ct, hct, htw, htop, htk, htpar⟩ := hb.not
  have hnd : (ks x).Nodup := hpk ▸ hs.nodup _ cp hpS hcp
  have hwlt : rank w < rank (p w) := ((hB w hw).child hs ho (hB w hw).mem).2.1
  -- the weakest node stands below its own OR, so it is none of the cells here
  have hnw : ∀ q, Below s.nodes (an x) q → (x = w → rank (p w) ≤ rank q) → q ≠ w := by
    rintro q hq hrank rfl
    have hxq := leg_unique hs ho hB hp hx hw hq (below_an_of_kid hs ho hB hw (hB q hw).mem .refl)
    have := hrank hxq
    omega
  have hkid : ∀ par y, y ∈ (ks x).erase x → (∀ c, s.nodes y = some c → s₁.nodes y = some { c with parent := par }) →
      Now meaning s.nodes S h' par y fun _ E => E y := by
    intro par y hy hcell
    obtain ⟨hyx, hyk⟩ := hnd.mem_erase_iff.mp hy
    obtain ⟨hyS, hylt, hyb, cy, hcy, -⟩ := hl.child hs ho hyk
    have hlt : ∀ q, Below s.nodes y q → S q ∧ rank q < rank o ∧ q ≠ w := by
      intro q hq
      have hle := hs.below_le hyS hq
      refine ⟨hs.below_mem hyS hq, by omega, ?_⟩
      rintro rfl
      cases leg_unique hs ho hB hp hx hw (below_an_of_kid hs ho hB hx hyk hq) (below_an_of_kid hs ho hB hw (hB q hw).mem .refl)
      exact hs.below_disjoint hpS hcp (hpk ▸ hyk) (hpk ▸ hl.mem) hyx hq .refl
    refine Now.keep hs hyS hcy (hlow y _ (hlt y .refl).1 (hlt y .refl).2.1 (hlt y .refl).2.2 (hcell cy hcy)) ?_
    intro q hq hne
    obtain ⟨hqS, hqlt, hqw⟩ := hlt q hq
    obtain ⟨c, hc⟩ := hs.live q hqS
    have hq₁ := hd.same_below hs ho hB hp hx hyk (fun h => absurd h hyx) hq (not_only_kid hs ho hB hx hyk hq hne)
    rw [hlow q c hqS hqlt hqw (hq₁.trans hc), hc]
  have hnt' : ∀ c, s₁.nodes (nt x) = some c → h' (nt x) = some c := fun c =>
    hlow _ c hntS (by omega) (hnw _ hb.below_nt (by rintro rfl; omega))
  have htwo := hl.two
  by_cases hlen : 2 < (ks x).length
  · obtain ⟨h1, h2⟩ := hd.several x hx hlen
    have hp' : h' (p x) = some { cp with children := (ks x).erase x } :=
      hlow _ _ hpS (by omega) (hnw _ hb.below_n (by rintro rfl; omega)) (h2 cp hcp)
    have hor := Now.node (f := meaning) (h := s.nodes) (S := S) (g := fun _ E => E) (hs.ne_zero hpS) hp' (hnd.erase x) (by
      intro y hy
      obtain ⟨hyx, hyk⟩ := hnd.mem_erase_iff.mp hy
      obtain ⟨-, -, -, d, hd', hpar⟩ := hl.child hs ho hyk
      refine hkid (p x) y hy fun c hc => ?_
      cases hd'.symm.trans hc
      rw [← hpar, hd.same_below hs ho hB hp hx hyk (fun h => absurd h hyx) .refl ?_, hd']
      intro h
      have := length_erase_of_mem hl.mem
      rw [h, length_singleton] at this
      omega)
    rw [show ({ cp with children := (ks x).erase x } : Node κ).parent = nt x from hppar] at hor
    have hnot := Now.node (g := fun v E _ => meaning v cp.data (((ks x).erase x).map E)) (hs.ne_zero hntS)
      (hnt' ct (h1.trans hct)) (by rw [htk]; exact nodup_singleton _) (by
      intro r hr
      rw [htk] at hr
      cases mem_singleton.mp hr
      exact hor)
    rw [htpar] at hnot
    refine hnot.congr fun v E _ => ?_
    simp only [htk, meaning, htw, htop, hpw, hpop, isEmpty_nil, if_true, map_cons, map_nil, any_cons,
      any_nil, Bool.or_false, id, any_map, comp_def]
  · obtain ⟨y, hy⟩ := length_eq_one_iff.mp (show ((ks x).erase x).length = 1 by
      rw [length_erase_of_mem hl.mem]
      omega)
    obtain ⟨h1, h2⟩ := hd.single x hx y hy
    have hnot := Now.node (f := meaning) (h := s.nodes) (S := S) (g := fun _ E => E) (hs.ne_zero hntS) (hnt' _ (h1 ct hct))
      (nodup_singleton _) (by
        intro r hr
        cases mem_singleton.mp hr
        exact hkid (nt x) y (by rw [hy]; exact mem_cons_self) h2)
    rw [show ({ ct with children := [y] } : Node κ).parent = an x from htpar] at hnot
    refine hnot.congr fun v E _ => ?_
    simp only [hy, meaning, htw, htop, isEmpty_nil, if_true, map_cons, map_nil, any_cons, any_nil,
      Bool.or_false, id]

include hs ho hB hp hd hw hlow in
theorem Cut.now_branch (hx : x ∈ similar) :
    Now meaning s.nodes S h' o (an x) fun _ E => E (a x) && !((ks x).erase x).any E := by
  have hb := (hB x hx).branch
  obtain ⟨hanS, hanlt⟩ := hb.mem_an hs ho
  obtain ⟨haS, -⟩ := hb.mem_a hs ho
  obtain ⟨hntS, hntlt⟩ := hb.mem_nt hs ho
  obtain ⟨cn, hcn, hnw, hnop, hnk, hnpar⟩ := hb.andNot
  obtain ⟨ca, hca, -, hapar⟩ := hb.and
  have hsame : ∀ q, Below s.nodes (an x) q → ¬ Below s.nodes (nt x) q → h' q = s.nodes q := by
    intro q hq hnt
    have hoff : ∀ z ∈ similar, ¬ Below s.nodes (nt z) q := by
      intro z hz h
      cases leg_unique hs ho hB hp hx hz hq ((hB z hz).branch.below_nt.trans h)
      exact hnt h
    have hle := hs.below_le hanS hq
    obtain ⟨c, hc⟩ := hs.live q (hs.below_mem hanS hq)
    rw [hc]
    refine hlow q c (hs.below_mem hanS hq) (by omega) ?_ ((hd.branch_same hs ho hB (fun x hx => hx) hoff).trans hc)
    rintro rfl
    exact hoff q hw ((hB q hw).branch.below_nt_n.trans ((hB q hw).child hs ho (hB q hw).mem).2.2.1)
  have hkeep : Now meaning s.nodes S h' (an x) (a x) fun _ E => E (a x) := by
    refine Now.keep hs haS hca ?_ ?_
    · rw [hsame _ hb.below_a fun h => hb.not_below_both hs ho .refl h, hca, ← hapar]
    · exact fun q hq _ => hsame q (hb.below_a.trans hq) fun h => hb.not_below_both hs ho hq h
  have hne := hb.a_ne_nt.symm
  have hnode := Now.node (g := fun _ E r => if r = a x then E (a x) else !((ks x).erase x).any E) (hs.ne_zero hanS)
    ((hsame _ .refl (hs.not_below_of_lt hntS hntlt)).trans hcn) (by rw [hnk]; simpa using hb.a_ne_nt) (by
      intro r hr
      rw [hnk] at hr
      rcases mem_pair.mp hr with rfl | rfl
      · simp only [if_true]
        exact hkeep
      · simp only [if_neg hne]
        exact hd.now_not hs ho hB hp hw hlow hx)
  rw [hnpar] at hnode
  refine hnode.congr fun v E _ => ?_
  simp only [hnk, meaning, hnw, hnop, isEmpty_nil, if_true, map_cons, map_nil, if_neg hne, all_cons,
    all_nil, Bool.and_true, id]

include hs ho hB hp hd hw hlow in
theorem Cut.now_or {par : Nat} (hco : s.nodes o = some co) (ho' : h' o = some { co with parent := par }) :
    ∃ g : (κ → Bool) → (Nat → Bool) → Nat → Bool, Now meaning s.nodes S h' par o (fun v E => co.children.any (g v E)) ∧
      (∀ v E, ∀ x ∈ similar, g v E (an x) = (E (a x) && !((ks x).erase x).any E)) ∧
      ∀ v E, ∀ r ∈ co.children, r ∉ similar.map an → g v E r = E r := by
  obtain ⟨c, hc, hwords, hop, -⟩ := (hB w hw).branch.top
  cases hco.symm.trans hc
  have htop : ∀ x ∈ similar, an x ∈ co.children := by
    intro x hx
    obtain ⟨c, hc, -, -, hmem⟩ := (hB x hx).branch.top
    cases hco.symm.trans hc
    exact hmem
  have hkid : ∀ r ∈ co.children, ∃ G, Now meaning s.nodes S h' o r G ∧
      (∀ x ∈ similar, r = an x → ∀ v E, G v E = (E (a x) && !((ks x).erase x).any E)) ∧
      (r ∉ similar.map an → ∀ v E, G v E = E r) := by
    intro r hr
    by_cases hra : r ∈ similar.map an
    · obtain ⟨x, hx, rfl⟩ := mem_map.mp hra
      refine ⟨_, hd.now_branch hs ho hB hp hw hlow hx, fun y hy hxy v E => ?_, fun h => absurd hra h⟩
      cases leg_unique hs ho hB hp hx hy (hxy ▸ .refl) .refl
      rfl
    · obtain ⟨hrS, hrlt, c, hc, hpar⟩ := hs.kids o co ho hco r hr
      have hsame : ∀ q, Below s.nodes r q → h' q = s.nodes q := by
        intro q hq
        have hoff : ∀ x ∈ similar, ¬ Below s.nodes (an x) q := fun x hx h =>
          hs.below_disjoint ho hco hr (htop x hx) (fun h => hra (h ▸ mem_map_of_mem hx)) hq h
        have hle := hs.below_le hrS hq
        have hq₁ := hd.branch_same hs ho hB (fun x hx => hx) fun x hx h => hoff x hx ((hB x hx).branch.below_nt.trans h)
        obtain ⟨c, hc⟩ := hs.live q (hs.below_mem hrS hq)
        rw [hc]
        refine hlow q c (hs.below_mem hrS hq) (by omega) ?_ (hq₁.trans hc)
        rintro rfl
        exact hoff q hw (below_an_of_kid hs ho hB hw (hB q hw).mem .refl)
      refine ⟨_, Now.keep hs hrS hc (by rw [hsame r .refl, hc, ← hpar]) fun q hq _ => hsame q hq, fun x hx h => ?_,
        fun _ _ _ => rfl⟩
      exact absurd (h ▸ mem_map_of_mem hx) hra
  choose! G hG hbranch hby using hkid
  refine ⟨fun v E r => G r v E, ?_, fun v E x hx => hbranch _ (htop x hx) x hx rfl v E, fun v E r hr hra => hby r hr hra v E⟩
  refine (Now.node (g := fun v E r => G r v E) (hs.ne_zero ho) ho' (hs.nodup o co ho hco) hG).congr fun v E _ => ?_
  simp only [meaning, hwords, hop, isEmpty_nil, if_true, any_map, comp_def, id]

end Values

/-- The children of the common OR that took no part. -/
def bystanders (an : Nat → Nat) (co : Node κ) (similar : List Nat) : List Nat := co.children.filter (· ∉ similar.map an)

include hs ho hB in
/-- **The value of the rewritten tree**: that of the common OR, except that no child that took no part is matched together
with the common node. -/
theorem val_or (hw : w ∈ similar) (hco : s.nodes o = some co) {v : κ → Bool} {E g : Nat → Bool}
    (hE : Val s.nodes S (meaning v) E) (hsame : ∀ x ∈ similar, E x = E w)
    (hbranch : ∀ x ∈ similar, g (an x) = (E (a x) && !((ks x).erase x).any E))
    (hby : ∀ r ∈ co.children, r ∉ similar.map an → g r = E r) :
    (co.children.any g && !E w) = (E o && !(E w && (bystanders an co similar).any E)) := by
  obtain ⟨c, hc, hwords, hop, -⟩ := (hB w hw).branch.top
  cases hco.symm.trans hc
  have hval : ∀ x ∈ similar, E (an x) = (E (a x) && !(E w || ((ks x).erase x).any E)) := by
    intro x hx
    obtain ⟨cp, hcp, hpw, hpop, hpk, -⟩ := (hB x hx).or
    have hpE : E (p x) = (E w || ((ks x).erase x).any E) := by
      rw [hE _ cp ((hB x hx).branch.mem_n hs ho).1 hcp, hpk]
      simp only [meaning, hpw, hpop, isEmpty_nil, if_true, any_map, comp_def, id]
      rw [(perm_cons_erase (hB x hx).mem).any_eq, any_cons, hsame x hx]
    rw [(hB x hx).branch.val hs ho hE, hpE]
  rw [hE o co ho hco]
  simp only [meaning, hwords, hop, isEmpty_nil, if_true, any_map, comp_def, id]
  rw [Bool.eq_iff_iff]
  simp only [Bool.and_eq_true, any_eq_true, Bool.not_eq_true', Bool.and_eq_false_iff, bystanders]
  constructor
  · rintro ⟨⟨r, hr, hrE⟩, hwE⟩
    refine ⟨⟨r, hr, ?_⟩, .inl hwE⟩
    by_cases hra : r ∈ similar.map an
    · obtain ⟨x, hx, rfl⟩ := mem_map.mp hra
      rw [hbranch x hx] at hrE
      rw [hval x hx, hwE, Bool.false_or]
      exact hrE
    · rw [← hby r hr hra]
      exact hrE
  · rintro ⟨⟨r, hr, hrE⟩, hno⟩
    by_cases hra : r ∈ similar.map an
    · obtain ⟨x, hx, rfl⟩ := mem_map.mp hra
      rw [hval x hx, Bool.and_eq_true, Bool.not_eq_true', Bool.or_eq_false_iff] at hrE
      refine ⟨⟨an x, hr, ?_⟩, hrE.2.1⟩
      rw [hbranch x hx, hrE.1, hrE.2.2]
      rfl
    · refine ⟨⟨r, hr, by rw [hby r hr hra]; exact hrE⟩, ?_⟩
      rcases hno with h | h
      · exact h
      · exact absurd hrE (by
          rw [any_eq_false] at h
          exact h r (mem_filter.mpr ⟨hr, by simpa using hra⟩))

end Without

end Unlink

/-! ## The new ANDNOT -/

section
variable {s₀ : Store κ} (hold : ∀ q < s.next, s₀.nodes q = s.nodes q) (hnew : s₀.nodes s.next = some { data := {} })

include hold hnew in
/-- A fresh node takes the place of the common OR. -/
theorem replaceOr_fresh (root : Nat) (ho : s.nodes o = some co)
    (hg : co.parent ≠ 0 → (∃ d, s.nodes co.parent = some d ∧ o ∈ d.children) ∧
      Chain (Function.update s₀.nodes s.next (some { data := {}, parent := co.parent })) co.parent) :
    ∃ s₁, replaceOr s₀ root o s.next = some (s₁, if co.parent = 0 then s.next else root) ∧
      s₁.nodes s.next = some { data := {}, parent := co.parent } ∧ (∀ q, s.next < q → s₁.nodes q = s₀.nodes q) ∧
      ∀ q d, s.nodes q = some d → s₁.nodes q = some { d with
        children := if q = co.parent then replaceFirst o s.next d.children else d.children } := by
  have ho₀ : s₀.nodes o = some co := (hold o (s.lt_next ho)).trans ho
  by_cases h0 : co.parent = 0
  · refine ⟨s₀, ?_, by rw [h0, hnew], fun _ _ => rfl, fun q d hd => ?_⟩
    · simp only [replaceOr, ho₀, h0, bind_eq_bind, bind_some, if_true]
      rfl
    · have hpos := s.pos hd
      rw [if_neg (by omega), hold q (s.lt_next hd), hd]
  · obtain ⟨⟨d, hd, hmem⟩, hch⟩ := hg h0
    have hglt := s.lt_next hd
    obtain ⟨s₁, h₁, -, hn₁⟩ := replaceNode_spec ho₀ h0 ((hold _ hglt).trans hd) hmem hnew (by omega) hch
    refine ⟨s₁, ?_, by rw [hn₁, update_self], fun q hq => ?_, fun q e he => ?_⟩
    · simp only [replaceOr, ho₀, bind_eq_bind, bind_some, if_neg h0, h₁]
      rfl
    · rw [hn₁, update_of_ne (by omega), update_of_ne (by omega)]
    · have hlt := s.lt_next he
      rw [hn₁, update_of_ne (by omega)]
      by_cases hq : q = co.parent
      · subst hq
        cases hd.symm.trans he
        rw [update_self, if_pos rfl]
      · rw [update_of_ne hq, if_neg hq, hold q hlt, he]

end

theorem negateOr_spec (root : Nat) {cw : Node κ} (ho : s.nodes o = some co)
    (hw : s.nodes w = some cw) (how : o ≠ w) (hgo : co.parent ≠ o) (hgw : co.parent ≠ w)
    (hg : co.parent ≠ 0 → (∃ d, s.nodes co.parent = some d ∧ o ∈ d.children) ∧ ∀ h' : Heap (Data κ), (∀ q c, q ≠ o → q ≠ w →
      s.nodes q = some c → ∃ c', h' q = some c' ∧ c'.parent = c.parent) → Chain h' co.parent) :
    ∃ s', negateOr s root o w = some (s', if co.parent = 0 then s.next else root) ∧
      s'.nodes s.next = some { data := { op := .andNot }, children := [s.next + 1, s.next + 2], parent := co.parent } ∧
      s'.nodes (s.next + 1) = some { data := {}, children := [o], parent := s.next } ∧
      s'.nodes (s.next + 2) = some { data := { op := .not }, children := [w], parent := s.next } ∧
      s'.nodes o = some { co with parent := s.next + 1 } ∧ s'.nodes w = some { cw with parent := s.next + 2 } ∧
      ∀ q d, q ≠ o → q ≠ w → s.nodes q = some d → s'.nodes q = some { d with
        children := if q = co.parent then replaceFirst o s.next d.children else d.children } := by
  have holt := s.lt_next ho
  have hwlt := s.lt_next hw
  generalize hn : s.next = n at *
  -- three fresh nodes
  obtain ⟨s₀, hs₀⟩ : ∃ s₀, s₀ = newNode (newNode (newNode s)) := ⟨_, rfl⟩
  have hold₀ : ∀ q, q < n → s₀.nodes q = s.nodes q := by
    intro q hq
    rw [hs₀, newNode, newNode, newNode]
    simp only [Store.nodes_alloc, Store.next_alloc, hn]
    rw [update_of_ne (by omega), update_of_ne (by omega), update_of_ne (by omega)]
  have hnew₀ : s₀.nodes n = some { data := {} } ∧ s₀.nodes (n + 1) = some { data := {} } ∧
      s₀.nodes (n + 2) = some { data := {} } := by
    rw [hs₀, newNode, newNode, newNode]
    simp only [Store.nodes_alloc, Store.next_alloc, hn]
    refine ⟨?_, ?_, ?_⟩
    · rw [update_of_ne (by omega), update_of_ne (by omega), update_self]
    · rw [update_of_ne (by omega), update_self]
    · rw [update_self]
  obtain ⟨s₁, h₁, hn₁, hfar₁, hold₁⟩ := replaceOr_fresh (fun q hq => hold₀ q (hn ▸ hq)) (by rw [hn, hnew₀.1]) root ho fun h0 =>
    ⟨(hg h0).1, (hg h0).2 _ fun q c _ _ hc => ⟨c, by
      have hlt := s.lt_next hc
      rw [update_of_ne (by omega), hold₀ q (by omega), hc], rfl⟩⟩
  rw [hn] at h₁ hn₁ hfar₁
  simp only [hn] at hold₁
  have hand₁ : s₁.nodes (n + 1) = some { data := {} } := (hfar₁ _ (by omega)).trans hnew₀.2.1
  have hnot₁ : s₁.nodes (n + 2) = some { data := {} } := (hfar₁ _ (by omega)).trans hnew₀.2.2
  have ho₁ : s₁.nodes o = some co := by rw [hold₁ o co ho, if_neg hgo.symm]
  have hw₁ : s₁.nodes w = some cw := by rw [hold₁ w cw hw, if_neg hgw.symm]
  obtain ⟨s₂, h₂, -, hnot₂, hargs₂, hfar₂⟩ := setOpArgs_spec .not [w] hnot₁ (.top hnot₁ rfl)
    (by rw [mem_singleton]; omega) (by
      intro q hq
      cases mem_singleton.mp hq
      exact ⟨_, hw₁⟩)
  have hfar₂' : ∀ q, q ≠ n + 2 → q ≠ w → s₂.nodes q = s₁.nodes q := fun q h h' =>
    hfar₂ q h (by rw [mem_singleton]; exact h')
  have hand₂ : s₂.nodes (n + 1) = some { data := {} } := by rw [hfar₂' _ (by omega) (by omega), hand₁]
  obtain ⟨s₃, h₃, -, hand₃, hargs₃, hfar₃⟩ := setOpArgs_spec .and [o] hand₂ (.top hand₂ rfl)
    (by rw [mem_singleton]; omega) (by
      intro q hq
      cases mem_singleton.mp hq
      exact ⟨co, by rw [hfar₂' o (by omega) how, ho₁]⟩)
  have hfar₃' : ∀ q, q ≠ n + 1 → q ≠ o → s₃.nodes q = s₂.nodes q := fun q h h' =>
    hfar₃ q h (by rw [mem_singleton]; exact h')
  have hn₃ : s₃.nodes n = some { data := {}, parent := co.parent } := by
    rw [hfar₃' n (by omega) (by omega), hfar₂' n (by omega) (by omega), hn₁]
  have hnot₃ : s₃.nodes (n + 2) = some { data := { op := .not }, children := [w], parent := 0 } := by
    rw [hfar₃' _ (by omega) (by omega), hnot₂]
  have hch₃ : Chain s₃.nodes n := by
    by_cases h0 : co.parent = 0
    · exact .top hn₃ h0
    · refine .step hn₃ ((hg h0).2 _ ?_)
      intro q c hqo hqw hc
      have hlt := s.lt_next hc
      exact ⟨_, (hfar₃' q (by omega) hqo).trans ((hfar₂' q (by omega) hqw).trans (hold₁ q c hc)), rfl⟩
  obtain ⟨s₄, h₄, -, hn₄, hargs₄, hfar₄⟩ := setOpArgs_spec .andNot [n + 1, n + 2] hn₃ hch₃
    (by rw [mem_pair]; omega) (by
      intro q hq
      rcases mem_pair.mp hq with rfl | rfl
      · exact ⟨_, hand₃⟩
      · exact ⟨_, hnot₃⟩)
  have hfar : ∀ q, q < n → s₄.nodes q = s₃.nodes q := fun q hq => hfar₄ q (by omega) (by rw [mem_pair]; omega)
  refine ⟨s₄, ?_, hn₄, hargs₄ _ _ mem_cons_self hand₃,
    hargs₄ _ _ (mem_cons_of_mem _ mem_cons_self) hnot₃, ?_, ?_, ?_⟩
  · simp only [negateOr, hn, ← hs₀, h₁, h₂, h₃, h₄, bind_eq_bind, bind_some]
    rfl
  · rw [hfar o holt]
    exact hargs₃ o co mem_cons_self (by rw [hfar₂' o (by omega) how, ho₁])
  · rw [hfar w hwlt, hfar₃' w (by omega) how.symm]
    exact hargs₂ w cw mem_cons_self hw₁
  · intro q d hqo hqw hd
    have hlt := s.lt_next hd
    rw [hfar q (by omega), hfar₃' q (by omega) hqo, hfar₂' q (by omega) hqw, hold₁ q d hd]

/-! ## What the rule leaves -/

section Rewrite

variable {an a nt p : Nat → Nat} {ks : Nat → List Nat}
 {co : Node κ} (hr : Rooted s.nodes S rank root) (ho : S o) (hco : s.nodes o = some co)
  (hB : ∀ x ∈ similar, Leg s.nodes o (an x) (a x) (nt x) (p x) (ks x) x) (hp : ∀ x ∈ similar, ∀ y ∈ similar, p x = p y → x = y)

include hr ho hco hB hp in
theorem commonOrNot_rep (hnd : similar.Nodup) (hw : w ∈ similar) :
    ∃ s₁ s₂ t', similar.foldlM (unlinkSimilar w) s = some s₁ ∧
      negateOr s₁ root o w = some (s₂, Splice.newRoot root o s.next) ∧ Rep s₂.nodes 0 (Splice.newRoot root o s.next) t' ∧
      ∀ v E E₀, Val s.nodes S (meaning v) E → Val s.nodes (fun q => S q ∧ ¬ Below s.nodes o q) (meaning v) E₀ →
        (∀ x ∈ similar, E x = E w) → E₀ o = (E o && !(E w && (bystanders an co similar).any E)) →
        Query.matches v t' = E₀ root := by
  have hs := hr.toShape
  obtain ⟨s₁, h₁, hd⟩ := foldlM_run (fun hd hdone hx hnew => hd.step hr ho hB hp hdone hx hnew) (Cut.init s nt p ks w) (fun x hx => hx) hnd
  -- outside the branches the loop changed nothing
  have hsame₁ : ∀ q, rank o ≤ rank q ∨ ¬ Below s.nodes o q → s₁.nodes q = s.nodes q := by
    intro q h
    refine hd.branch_same hs ho hB (fun x hx => hx) fun x hx hb => ?_
    have hban := (hB x hx).branch.below_nt.trans hb
    rcases h with h | h
    · exact (hB x hx).branch.not_below_above hs ho h hban
    · obtain ⟨c, hc, -, -, hm⟩ := (hB x hx).branch.top
      exact h ((Below.refl.step hc hm).trans hban)
  have ho₁ : s₁.nodes o = some co := (hsame₁ o (.inl (le_refl _))).trans hco
  have hlw := hB w hw
  obtain ⟨hwS, hwlt, hwb, cw, hcw, -⟩ := hlw.child hs ho hlw.mem
  have hkeepw : ∀ q, Below s.nodes w q → s₁.nodes q = s.nodes q := by
    intro q hq
    refine hd.same_below hs ho hB hp hw hlw.mem (fun _ => rfl) hq ?_
    by_cases hqw : q = w
    · rintro h
      obtain ⟨cp, hcp, -, -, hpk, -⟩ := hlw.or
      have hndk : (ks w).Nodup := hpk ▸ hs.nodup _ cp (hlw.branch.mem_n hs ho).1 hcp
      have hmem : w ∈ (ks w).erase w := by rw [h, hqw]; exact mem_cons_self
      exact (hndk.mem_erase_iff.mp hmem).1 rfl
    · exact not_only_kid hs ho hB hw hlw.mem hq hqw
  have hwo : rank w < rank o := by
    obtain ⟨-, h1⟩ := hlw.branch.mem_an hs ho
    obtain ⟨-, h2⟩ := hlw.branch.mem_nt hs ho
    obtain ⟨-, h3⟩ := hlw.branch.mem_n hs ho
    omega
  have hgne : ∀ q, S q → rank q ≤ rank o → co.parent ≠ q := by
    rintro q hq hle rfl
    have := (hr.parent_mem ho hco (hs.ne_zero hq)).2.1
    omega
  obtain ⟨s₂, h₂, hn₂, hand₂, hnot₂, ho₂, hw₂, hfar₂⟩ := negateOr_spec root ho₁ ((hkeepw w .refl).trans hcw)
    (fun h => Nat.ne_of_gt hwo (congrArg rank h)) (hgne o ho (le_refl _)) (hgne w hwS (le_of_lt hwo)) (by
      intro h0
      obtain ⟨hgS, hglt, d, hd', hm⟩ := hr.parent_mem ho hco h0
      refine ⟨⟨d, (hsame₁ _ (.inl (le_of_lt hglt))).trans hd', hm⟩, ?_⟩
      intro h' hh'
      refine chain_above hr hgS ?_
      intro q c hq hle hc
      refine hh' q c ?_ ?_ ((hsame₁ q (.inl (by omega))).trans hc)
      · rintro rfl
        omega
      · rintro rfl
        omega)
  rw [hd.next] at h₂ hn₂ hand₂ hnot₂ ho₂ hw₂ hfar₂
  rw [← hr.newRoot_eq ho hco] at h₂
  -- below the common OR only its own cell and that of the weakest node are new
  have hlow : ∀ q c, S q → rank q < rank o → q ≠ w → s₁.nodes q = some c → s₂.nodes q = some c := by
    intro q c hq hlt hqw hc
    rw [hfar₂ q c (fun h => ne_of_lt hlt (congrArg rank h)) hqw hc, if_neg (hgne q hq (le_of_lt hlt)).symm]
  obtain ⟨g, hor, hbranch, hby⟩ := hd.now_or hs ho hB hp hw hlow hco ho₂
  have hnw : Now meaning s.nodes S s₂.nodes (s.next + 2) w fun _ E => E w := by
    refine Now.keep hs hwS hcw hw₂ fun q hq hne => ?_
    have hle := hs.below_le hwS hq
    obtain ⟨c, hc⟩ := hs.live q (hs.below_mem hwS hq)
    rw [hlow q c (hs.below_mem hwS hq) (by omega) hne ((hkeepw q hq).trans hc), hc]
  have hnand := Now.node (g := fun v E _ => co.children.any (g v E)) (Nat.succ_ne_zero _) hand₂ (nodup_singleton _) (by
    intro r hrm
    cases mem_singleton.mp hrm
    exact hor)
  have hnnot := Now.node (g := fun _ E _ => E w) (Nat.succ_ne_zero _) hnot₂ (nodup_singleton _) (by
    intro r hrm
    cases mem_singleton.mp hrm
    exact hnw)
  have hnew := Now.node (g := fun v E r => if r = s.next + 1 then co.children.any (g v E) else !E w) (Nat.ne_of_gt s.start) hn₂
    (by simp) (by
      intro r hrm
      rcases mem_pair.mp hrm with rfl | rfl
      · simp only [if_true]
        refine hnand.congr fun v E _ => ?_
        simp [meaning]
      · simp only [if_neg (show s.next + 2 ≠ s.next + 1 by omega)]
        refine hnnot.congr fun v E _ => ?_
        simp [meaning])
  obtain ⟨t, ht, hte⟩ := hnew
  obtain ⟨t', ht', hval⟩ := hr.replant ho hco ht (by
    intro hS
    obtain ⟨c, hc⟩ := hs.live _ hS
    exact absurd (s.lt_next hc) (lt_irrefl _)) (by
    intro q d hd' hq hb
    have hqo : q ≠ o := fun h => hb (h ▸ .refl)
    have hqw : q ≠ w := by
      rintro rfl
      obtain ⟨c, hc, -, -, hm⟩ := hlw.branch.top
      exact hb ((Below.refl.step hc hm).trans (below_an_of_kid hs ho hB hw hlw.mem .refl))
    rw [hfar₂ q d hqo hqw ((hsame₁ q (.inr hb)).trans hd'), replaceFirst_eq_map (hs.nodup q d hq hd')])
  refine ⟨s₁, s₂, t', h₁, h₂, ht', ?_⟩
  intro v E E₀ hE hE₀ hEw ho'
  refine hval Bool _ E₀ hE₀ ?_
  rw [hte v E hE, ho', ← val_or hs ho hB hw hco hE hEw (hbranch v E) (hby v E)]
  simp [meaning]

include hr ho in
/-- The value of the tree is that of its cells outside `o`, for the value of `o`. -/
theorem root_of_outside {v : κ → Bool} {E E₀ : Nat → Bool}
    (hE : Val s.nodes S (meaning v) E) (hE₀ : Val s.nodes (fun q => S q ∧ ¬ Below s.nodes o q) (meaning v) E₀)
    (heq : E o = E₀ o) : E root = E₀ root := by
  obtain ⟨co, hco⟩ := hr.live o ho
  obtain ⟨t, ht, hte⟩ := hr.toShape.rep ho hco
  obtain ⟨t', -, hval⟩ := hr.replant ho hco ht (fun _ => .refl) fun q d hd _ _ => by rw [map_replace_self, ite_self, hd]
  rw [← hval Bool _ E (fun q c hq hc => hE q c hq.1 hc) (hte Bool _ E hE),
    ← hval Bool _ E₀ hE₀ ((hte Bool _ E hE).trans heq)]

include hr ho hco hB hp in
theorem makeTransformCommonOrNot_spec (hkey : ∀ x ∈ similar, grand s 4 x = some o) (hnd : similar.Nodup) (hne : similar ≠ [])
    (hsame : ∀ v E, Val s.nodes S (meaning v) E → ∀ x ∈ similar, ∀ y ∈ similar, E x = E y) :
    ∃ s' root' t', makeTransformCommonOrNot s root similar = some (s', root') ∧ Rep s'.nodes 0 root' t' ∧
      ∀ v E E₀, Val s.nodes S (meaning v) E → Val s.nodes (fun q => S q ∧ ¬ Below s.nodes o q) (meaning v) E₀ →
        (∀ x ∈ similar, E₀ o = (E o && !(E x && (bystanders an co similar).any E))) → Query.matches v t' = E₀ root := by
  obtain ⟨i, w, hi, hwi, hw⟩ := getWeakestIndex_spec s hne (by
    intro x hx
    obtain ⟨-, -, -, c, hc, -⟩ := (hB x hx).child hr.toShape ho (hB x hx).mem
    exact ⟨c, hc⟩)
  obtain ⟨s₁, s₂, t', h₁, h₂, ht', hval⟩ := commonOrNot_rep hr ho hco hB hp hnd hw
  refine ⟨s₂, _, t', ?_, ht', ?_⟩
  · simp only [makeTransformCommonOrNot, hi, hwi, hkey w hw, h₁, bind_eq_bind, bind_some]
    exact h₂
  · intro v E E₀ hE hE₀ ho'
    exact hval v E E₀ hE hE₀ (fun x hx => hsame v E hE x hx w hw) (ho' w hw)

section
variable {t : Query κ} (ht : Rep s.nodes 0 root t) (hbool : BoolTree s.nodes root) (hg : Group s root 4 (checkCommonOrNot s) similar)
include ht hbool hg

theorem legs_of_group
    (htwo : ∀ x ∈ similar, ∀ q c, grand s 1 x = some q → s.nodes q = some c → 2 ≤ c.children.length) :
    ∃ o, Below s.nodes root o ∧ (∀ x ∈ similar, grand s 4 x = some o) ∧
      ∀ x ∈ similar, ∃ an a nt p ks, Leg s.nodes o an a nt p ks x ∧ grand s 1 x = some p ∧ grand s 3 x = some an := by
  refine hg.common fun o x hx hck hkey => ?_
  simp only [checkCommonOrNot, Bool.and_eq_true, beq_iff_eq] at hck
  obtain ⟨⟨⟨⟨-, h1⟩, h2⟩, h3⟩, h4⟩ := hck
  obtain ⟨o', an, a, nt, p, c, hb, ho', hc, hwords, hop, hmem, hpar, hg1, -, hg3, hg4⟩ :=
    branch_of_parent ht.rooted hbool (hg.below x hx) h1 h2 h3 h4
  cases hg4.symm.trans hkey
  exact ⟨ho', an, a, nt, p, c.children, ⟨hb, ⟨c, hc, hwords, hop, rfl, hpar⟩, hmem, htwo x hx _ c hg1 hc⟩, hg1, hg3⟩

theorem commonOrNot_document (hpar : hasSameParent s similar = false)
    (htwo : ∀ x ∈ similar, ∀ q c, grand s 1 x = some q → s.nodes q = some c → 2 ≤ c.children.length) :
    ∃ s' root' t', makeTransformCommonOrNot s root similar = some (s', root') ∧ Rep s'.nodes 0 root' t' ∧
      ∀ v, Query.matches v t' = Query.matches v t ↔ ∀ o co, (∀ x ∈ similar, grand s 4 x = some o) → s.nodes o = some co →
        (∃ x ∈ similar, NodeMatches s.nodes x v) →
        (∃ r ∈ co.children, (∀ x ∈ similar, grand s 3 x ≠ some r) ∧ NodeMatches s.nodes r v) → Indifferent s.nodes root o v := by
  have hr := ht.rooted
  have hs := hr.toShape
  obtain ⟨o, ho, hkey, hleg⟩ := legs_of_group ht hbool hg htwo
  choose! an a nt p ks hleg using hleg
  obtain ⟨co, hco⟩ := hr.live o ho
  have hp : ∀ x ∈ similar, ∀ y ∈ similar, p x = p y → x = y := by
    have hnd : (similar.map (grand s 1)).Nodup := by simpa [hasSameParent] using hpar
    intro x hx y hy hxy
    exact inj_on_of_nodup_map hnd hx hy (by rw [(hleg x hx).2.1, (hleg y hy).2.1, hxy])
  obtain ⟨x₀, hx₀⟩ := exists_mem_of_ne_nil _ hg.ne_nil
  have hsame := hg.val hs
  obtain ⟨s', root', t', h', ht', hval⟩ := makeTransformCommonOrNot_spec hr ho hco (fun x hx => (hleg x hx).1) hp hkey hg.nodup
    hg.ne_nil hsame
  refine ⟨s', root', t', h', ht', ?_⟩
  intro v
  obtain ⟨E, hE, hEt⟩ := hs.exists_val (meaning v)
  have htE : Query.matches v t = E root := hEt root 0 t ht
  have hout : Val s.nodes (fun q => Below s.nodes root q ∧ ¬ Below s.nodes o q) (meaning v) E := fun q c hq hc => hE q c hq.1 hc
  have hby : (∃ r ∈ co.children, (∀ x ∈ similar, grand s 3 x ≠ some r) ∧ NodeMatches s.nodes r v) ↔
      (bystanders an co similar).any E = true := by
    have hiff : ∀ r ∈ co.children, (NodeMatches s.nodes r v ↔ E r = true) := fun r hrc =>
      nodeMatches_iff hs (hs.kids o co ho hco r hrc).1 hE
    simp only [bystanders, any_eq_true, mem_filter, decide_eq_true_eq]
    constructor
    · rintro ⟨r, hrc, hra, hrm⟩
      refine ⟨r, ⟨hrc, fun hm => ?_⟩, (hiff r hrc).mp hrm⟩
      obtain ⟨x, hx, hxr⟩ := mem_map.mp hm
      exact hra x hx (hxr ▸ (hleg x hx).2.2)
    · rintro ⟨r, ⟨hrc, hra⟩, hrE⟩
      refine ⟨r, hrc, fun x hx h => hra ?_, (hiff r hrc).mpr hrE⟩
      have := (hleg x hx).2.2.symm.trans h
      cases this
      exact mem_map_of_mem hx
  have hN : (∃ x ∈ similar, NodeMatches s.nodes x v) ↔ E x₀ = true := by
    constructor
    · rintro ⟨x, hx, hm⟩
      rw [hsame v E hE x₀ hx₀ x hx]
      exact (nodeMatches_iff hs (hg.below x hx) hE).mp hm
    · exact fun h => ⟨x₀, hx₀, (nodeMatches_iff hs (hg.below x₀ hx₀) hE).mpr h⟩
  have hany : ∀ x ∈ similar, E x = E x₀ := fun x hx => hsame v E hE x hx x₀ hx₀
  have hoE : (bystanders an co similar).any E = true → E o = true := by
    intro h
    obtain ⟨c, hc, hwords, hop, -⟩ := (hleg x₀ hx₀).1.branch.top
    cases hco.symm.trans hc
    obtain ⟨r, hr', hrE⟩ := any_eq_true.mp h
    rw [hE o co ho hco]
    simp only [meaning, hwords, hop, isEmpty_nil, if_true, any_map, comp_def, id]
    exact any_eq_true.mpr ⟨r, (mem_filter.mp hr').1, hrE⟩
  -- only a document with the common node that a bystander matches is lost
  constructor
  · intro heq o' co' hkey' hco' hN' hby'
    cases (hkey x₀ hx₀).symm.trans (hkey' x₀ hx₀)
    cases hco.symm.trans hco'
    rw [hN] at hN'
    rw [hby] at hby'
    have hroot : ∀ E₀, Val s.nodes (fun q => Below s.nodes root q ∧ ¬ Below s.nodes o q) (meaning v) E₀ →
        E₀ root = Query.matches v t := by
      intro E₀ hE₀
      cases hb : E₀ o with
      | true => rw [← root_of_outside hr ho hE hE₀ (by rw [hoE hby', hb]), htE]
      | false =>
        rw [← heq]
        refine (hval v E E₀ hE hE₀ ?_).symm
        intro x hx
        rw [hb, hany x hx, hN', hby', Bool.and_self, Bool.not_true, Bool.and_false]
    intro E₁ E₂ hE₁ hE₂
    rw [hroot E₁ hE₁, hroot E₂ hE₂]
  · intro hind
    by_cases hbad : E x₀ = true ∧ (bystanders an co similar).any E = true
    · have hind' := hind o co hkey hco (hN.mpr hbad.1) (hby.mpr hbad.2)
      obtain ⟨E₀, hE₀, ho₀⟩ := hs.exists_val_except ho (meaning v) false
      have hE₀' : Val s.nodes (fun q => Below s.nodes root q ∧ ¬ Below s.nodes o q) (meaning v) E₀ :=
        fun q c hq hc => hE₀ q c ⟨hq.1, fun h : q = o => hq.2 (h ▸ .refl)⟩ hc
      rw [htE, hind' E E₀ hout hE₀']
      refine hval v E E₀ hE hE₀' ?_
      intro x hx
      rw [ho₀, hany x hx, hbad.1, hbad.2, Bool.and_self, Bool.not_true, Bool.and_false]
    · have heq : ∀ x ∈ similar, E o = (E o && !(E x && (bystanders an co similar).any E)) := by
        intro x hx
        have : (E x && (bystanders an co similar).any E) = false := by
          rw [hany x hx]
          by_contra h
          rw [Bool.not_eq_false, Bool.and_eq_true] at h
          exact hbad h
        rw [this, Bool.not_false, Bool.and_true]
      rw [hval v E E hE hout heq, htE]

end

end Rewrite

/-! ## The rule -/

/-- **When COMMON OR NOT keeps what matches.** The whole common OR moves below the new ANDNOT, its other children with it:
exactly the documents are at risk that have the common node and match a child which takes no part. -/
theorem commonOrNot_keeps_iff {κ : Type} [DecidableEq κ] {s : Store κ} {root : Nat} {t : Query κ} {similar : List Nat}
    (ht : Rep s.nodes 0 root t) (hbool : BoolTree s.nodes root) (hg : Group s root 4 (checkCommonOrNot s) similar)
    (hpar : hasSameParent s similar = false)
    (htwo : ∀ x ∈ similar, ∀ q c, grand s 1 x = some q → s.nodes q = some c → 2 ≤ c.children.length) :
    ∃ s' root' t', makeTransformCommonOrNot s root similar = some (s', root') ∧ Rep s'.nodes 0 root' t' ∧
      ((∀ v, Query.matches v t' = Query.matches v t) ↔
        ∀ v o co, (∀ x ∈ similar, grand s 4 x = some o) → s.nodes o = some co → (∃ x ∈ similar, NodeMatches s.nodes x v) →
          (∃ r ∈ co.children, (∀ x ∈ similar, grand s 3 x ≠ some r) ∧ NodeMatches s.nodes r v) →
          Indifferent s.nodes root o v) := by
  obtain ⟨s', root', t', h', ht', hiff⟩ := commonOrNot_document ht hbool hg hpar htwo
  exact ⟨s', root', t', h', ht', forall_congr' hiff⟩

/-- `(A !(N | N1)) | (B !(N | N2)) | R`, with the keywords `0`, `1` for `A`, `B`, `2` for `N` and `4` for `R`. -/
def orNotBranches : List (Node Nat) :=
  [opNode .or [2, 3, 4] 0, opNode .andNot [5, 6] 1, opNode .andNot [7, 8] 1, wordNode 4 1, wordNode 0 2,
   opNode .not [9] 2, wordNode 1 3, opNode .not [10] 3, opNode .or [11, 12] 6, opNode .or [13, 14] 8, wordNode 2 9,
   wordNode 3 9, wordNode 2 10, wordNode 5 10]

/-- The tree of one branch of `orNotBranches`. -/
def orNotBranch (a n : Nat) : Query Nat :=
  .node { op := .andNot } [.node { words := [a] } [],
    .node { op := .not } [.node { op := .or } [.node { words := [2] } [], .node { words := [n] } []]]]

theorem rep_orNotBranches : Rep (Store.ofNodes orNotBranches).nodes 0 1
    (.node { op := .or } [orNotBranch 0 3, orNotBranch 1 5, .node { words := [4] } []]) := by decide

theorem group_orNotBranches :
    Group (Store.ofNodes orNotBranches) 1 4 (checkCommonOrNot (Store.ofNodes orNotBranches)) [11, 13] :=
  group_of_leaves 1 { words := [2] } (by decide)

theorem two_orNotBranches : ∀ x ∈ [11, 13], ∀ q c, grand (Store.ofNodes orNotBranches) 1 x = some q →
    (Store.ofNodes orNotBranches).nodes q = some c → 2 ≤ c.children.length := by
  intro x hx q c hq hc
  rcases mem_pair.mp hx with rfl | rfl
  · cases hq
    cases hc
    decide
  · cases hq
    cases hc
    decide

theorem commonOrNot_keeps_iff_orNotBranches :
    ∃ s' root' t', makeTransformCommonOrNot (Store.ofNodes orNotBranches) 1 [11, 13] = some (s', root') ∧
      Rep s'.nodes 0 root' t' ∧
      ((∀ v, Query.matches v t' = Query.matches v
          (.node { op := .or } [orNotBranch 0 3, orNotBranch 1 5, .node { words := [4] } []])) ↔
        ∀ v o co, (∀ x ∈ [11, 13], grand (Store.ofNodes orNotBranches) 4 x = some o) →
          (Store.ofNodes orNotBranches).nodes o = some co →
          (∃ x ∈ [11, 13], NodeMatches (Store.ofNodes orNotBranches).nodes x v) →
          (∃ r ∈ co.children, (∀ x ∈ [11, 13], grand (Store.ofNodes orNotBranches) 3 x ≠ some r) ∧
            NodeMatches (Store.ofNodes orNotBranches).nodes r v) → Indifferent (Store.ofNodes orNotBranches).nodes 1 o v) :=
  commonOrNot_keeps_iff rep_orNotBranches (boolTree_of_all (by decide) 1) group_orNotBranches (by decide) two_orNotBranches

/-- The document that has `N` and `R` only is lost. -/
theorem commonOrNot_loses_bystander :
    ∃ s' root' t', makeTransformCommonOrNot (Store.ofNodes orNotBranches) 1 [11, 13] = some (s', root') ∧
      Rep s'.nodes 0 root' t' ∧
      Query.matches (fun k => k == 2 || k == 4) t' = false ∧
      Query.matches (fun k => k == 2 || k == 4)
        (.node { op := .or } [orNotBranch 0 3, orNotBranch 1 5, .node { words := [4] } []]) = true := by
  obtain ⟨s', root', t', h', ht', hiff⟩ := commonOrNot_document rep_orNotBranches (boolTree_of_all (by decide) 1)
    group_orNotBranches (by decide) two_orNotBranches
  have hR : Query.matches (fun k => k == 2 || k == 4)
      (.node { op := .or } [orNotBranch 0 3, orNotBranch 1 5, .node { words := [4] } []]) = true := by decide
  refine ⟨s', root', t', h', ht', ?_, hR⟩
  by_contra hne
  rw [Bool.not_eq_false] at hne
  have hind := (hiff _).mp (hne.trans hR.symm) 1 _ (by decide) rfl
    ⟨11, by decide, 9, .node { words := [2] } [], by decide, by decide⟩
    ⟨4, by decide, by decide, 1, .node { words := [4] } [], by decide, by decide⟩
  -- nothing lies outside the root, so both values are possible for it
  have hnone : ∀ E, Val (Store.ofNodes orNotBranches).nodes (fun q => Below (Store.ofNodes orNotBranches).nodes 1 q ∧
      ¬ Below (Store.ofNodes orNotBranches).nodes 1 q) (meaning fun k => k == 2 || k == 4) E :=
    fun E q c hq => absurd hq.1 hq.2
  exact Bool.noConfusion (hind (fun _ => true) (fun _ => false) (hnone _) (hnone _))

end XQ
end Manticore

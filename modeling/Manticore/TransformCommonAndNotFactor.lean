import Manticore.TransformCommonNot
import Manticore.XQCleanup
/-!
# TransformCommonAndNotFactor — `((A !X) | (A !Y) | R) -> ((A !(X Y)) | R)`

One AND node of the equal ones stays.  The nodes under the other NOTs move below a new AND under its own NOT, the rest of
the other branches is freed, and a common OR with one child left is collapsed.
-/
namespace Manticore
namespace XQ

open PtrTree
open List
open Option (bind_eq_bind bind_some)
open Function (update_of_ne update_self)

variable {κ : Type}

/-- The second child of the parent is a NOT node. -/
def secondIsNot (s : Store κ) (p : Nat) : Bool :=
  match grand s 1 p with
  | none => false
  | some q =>
    match s.nodes q with
    | none => false
    | some c =>
      match c.children with
      | _ :: r :: _ => grandOp s 0 r == some .not
      | _ => false

/-- `CSphTransformation::CheckCommonAndNotFactor`. -/
def checkCommonAndNotFactor (s : Store κ) (p : Nat) : Bool :=
  valid s 2 p && grandOp s 0 p == some .and && grandOp s 1 p == some .andNot && grandOp s 2 p == some .or && secondIsNot s p

/-- The ANDNOT above `x`, its NOT and the node under the NOT. -/
def notArg (s : Store κ) (x : Nat) : Option (Nat × Nat × Nat) := do
  let c ← s.nodes x
  let d ← s.nodes c.parent
  let nt ← d.children[1]?
  let e ← s.nodes nt
  let n ← e.children[0]?
  return (c.parent, nt, n)

/-- One turn of the loop over the equal nodes that do not stay. -/
def absorb (commonOr : Nat) (acc : Store κ × List Nat) (x : Nat) : Option (Store κ × List Nat) := do
  let (an, nt, n) ← notArg acc.1 x
  let s ← setChildren acc.1 nt (·.set 0 0)
  let s ← removeChild s commonOr an
  let s ← delete s an
  return (s, acc.2 ++ [n])

/-- `CSphTransformation::MakeTransformCommonAndNotFactor`; gives the new root. -/
def makeTransformCommonAndNotFactor (s : Store κ) (root : Nat) (similar : List Nat) : Option (Store κ × Nat) := do
  let w ← getWeakestChildIndex s similar
  let x ← similar[w]?
  let (an, nt, n) ← notArg s x
  let c ← s.nodes an
  let andNew := s.next
  let s ← setChildren (newNode s) nt (·.set 0 andNew)
  let s ← setParent s andNew nt
  let s ← rehash s nt
  let (s, args) ← (similar.eraseIdx w).foldlM (absorb c.parent) (s, [n])
  let s ← setOpArgs s andNew .and args
  compositeFixup s root c.parent

/-! ## Absorbing a branch -/

theorem delete_emptied {s : Store κ} {B : Nat → Prop} {rank : Nat → Nat} {an a nt : Nat} {c d : Node κ}
    (hs : Shape s.nodes B rank) (ha : B a) (han : s.nodes an = some c) (hc : c.children = [a, nt]) (hnt : s.nodes nt = some d)
    (hd : d.children = [0]) (hBn : ¬ B nt) (hrank : rank a + 1 < s.next) (hnext : 3 ≤ s.next) :
    ∃ s', delete s an = some s' ∧ s'.next = s.next ∧ ∀ q, q ≠ an → q ≠ nt → ¬ B q → s'.nodes q = s.nodes q := by
  obtain ⟨k, hk⟩ : ∃ k, s.next = k + 3 := ⟨s.next - 3, by omega⟩
  obtain ⟨s₁, h₁, hx₁, -, hkeep⟩ := free_spec (k + 2) hs ha (by omega)
  have hstay : ∀ q, ¬ B q → s₁.nodes q = s.nodes q := fun q hq => hkeep q fun hb => hq (hs.below_mem ha hb)
  have hnt₁ : s₁.nodes nt = some d := by rw [hstay nt hBn, hnt]
  have h₂ : free (k + 2) s₁ nt = some (s₁.erase nt) := by
    rw [free, if_neg (Nat.ne_of_gt (s.pos hnt)), hnt₁]
    simp only [bind_eq_bind, bind_some, hd, foldlM_cons, foldlM_nil, free, if_true]
    rfl
  refine ⟨(s₁.erase nt).erase an, ?_, hx₁, ?_⟩
  · rw [delete, hk, free, if_neg (Nat.ne_of_gt (s.pos han)), han]
    simp only [bind_eq_bind, bind_some, hc, foldlM_cons, foldlM_nil, h₁, h₂]
    rfl
  · intro q hqa hqn hqB
    rw [Store.nodes_erase, update_of_ne hqa, Store.nodes_erase, update_of_ne hqn, hstay q hqB]

variable {done : List Nat} {q : Nat}

section Absorb

variable {s : Store κ} {S : Nat → Prop} {rank : Nat → Nat} {root o w : Nat} {co : Node κ} {an nt n : Nat → Nat}
  {similar : List Nat}

/-- The branches of `done` are gone, up to the nodes under their NOTs. -/
structure Absorbed (s : Store κ) (o : Nat) (co : Node κ) (an nt n : Nat → Nat) (w : Nat) (done : List Nat) (s₁ : Store κ) :
    Prop where
  next  : s₁.next = s.next + 1
  top   : s₁.nodes o = some { co with children := co.children.filter (· ∉ done.map an) }
  other : ∀ q, q ≠ o → q ≠ nt w → q < s.next → (∀ x ∈ done, Below s.nodes (an x) q → Below s.nodes (n x) q) →
    s₁.nodes q = s.nodes q
  not   : ∃ d, s.nodes (nt w) = some d ∧ s₁.nodes (nt w) = some { d with children := [s.next] }
  new   : s₁.nodes s.next = some { data := {}, children := [], parent := nt w }

variable {x : Nat} {s₁ : Store κ}

theorem notArg_branch (s₁ : Store κ) (hb : Branch s.nodes o (an x) x (nt x) (n x))
    (hsame : ∀ q, q = x ∨ q = an x ∨ q = nt x → s₁.nodes q = s.nodes q) : notArg s₁ x = some (an x, nt x, n x) := by
  obtain ⟨ca, hca, -, hapar⟩ := hb.and
  obtain ⟨cn, hcn, -, -, hnkids, -⟩ := hb.andNot
  obtain ⟨ct, hct, -, -, htkids, -⟩ := hb.not
  simp only [notArg, hsame x (.inl rfl), hca, hapar, hsame _ (.inr (.inl rfl)), hcn, hnkids, hsame _ (.inr (.inr rfl)), hct,
    htkids, bind_eq_bind, bind_some, getElem?_cons_succ, getElem?_cons_zero]
  rfl

variable (hs : Shape s.nodes S rank) (hr : Rooted s.nodes S rank root) (ho : S o) (hco : s.nodes o = some co)
  (hB : ∀ x ∈ similar, Branch s.nodes o (an x) x (nt x) (n x)) (hw : w ∈ similar)

include hB in
theorem an_ne {y : Nat} (hx : x ∈ similar) (hy : y ∈ similar) (hne : x ≠ y) : an x ≠ an y :=
  fun h => hne ((h ▸ hB x hx).parts (hB y hy)).1

include hs ho hB in
/-- The nodes of a branch that was not absorbed are as before, except for the NOT of the branch that stays. -/
theorem Absorbed.untouched (hd : Absorbed s o co an nt n w done s₁) (hdone : ∀ x ∈ done, x ∈ similar) (hx : x ∈ similar)
    (hnew : x ∉ done) (hb : Below s.nodes (an x) q) (hqw : q ≠ nt w) : s₁.nodes q = s.nodes q := by
  obtain ⟨hanS, -⟩ := (hB x hx).mem_an hs ho
  obtain ⟨c, hc⟩ := hs.live q (hs.below_mem hanS hb)
  refine hd.other q ?_ hqw (s.lt_next hc) ?_
  · rintro rfl
    exact (hB x hx).not_below_above hs ho (le_refl _) hb
  · intro y hy hby
    have hne : x ≠ y := fun h => hnew (h ▸ hy)
    exact absurd hby fun hby => (hB x hx).disjoint (hB y (hdone y hy)) hs ho (an_ne hB hx (hdone y hy) hne) hb hby

variable {h' : Heap (Data κ)}

include hr ho hco hB hw in
theorem Absorbed.chain (hd : Absorbed s o co an nt n w done s₁) (hdone : ∀ x ∈ done, x ∈ similar)
    (hh' : ∀ q c, (∀ x ∈ similar, ¬ Below s.nodes (an x) q) → s₁.nodes q = some c → ∃ c', h' q = some c' ∧ c'.parent = c.parent)
    : Chain h' o := by
  have hs := hr.toShape
  refine chain_above hr ho ?_
  intro q c _ hle hc
  have hno : ∀ x ∈ similar, ¬ Below s.nodes (an x) q := fun x hx => (hB x hx).not_below_above hs ho hle
  by_cases hqo : q = o
  · subst hqo
    cases hc.symm.trans hco
    obtain ⟨c', hc', hpar⟩ := hh' q _ hno hd.top
    exact ⟨c', hc', hpar⟩
  · refine hh' q c hno ?_
    rw [hd.other q hqo (fun h => hno w hw (h ▸ (hB w hw).below_nt)) (s.lt_next hc)
      fun x hx hb => absurd hb (hno x (hdone x hx)), hc]

include hr ho hco hB hw in
theorem Absorbed.step (hd : Absorbed s o co an nt n w done s₁) (hdone : ∀ x ∈ done, x ∈ similar)
    (hx : x ∈ similar) (hxw : x ≠ w) (hnew : x ∉ done) (args : List Nat) :
    ∃ s₂, absorb o (s₁, args) x = some (s₂, args ++ [n x]) ∧ Absorbed s o co an nt n w (done ++ [x]) s₂ := by
  have hs := hr.toShape
  have hb := hB x hx
  have hbw := hB w hw
  obtain ⟨hanS, hanlt⟩ := hb.mem_an hs ho
  obtain ⟨haS, halt⟩ := hb.mem_a hs ho
  obtain ⟨hntS, hntlt⟩ := hb.mem_nt hs ho
  have hanw : an x ≠ an w := an_ne hB hx hw hxw
  have hno : ∀ q, Below s.nodes (an x) q → q ≠ nt w := by
    rintro q hq rfl
    exact hb.disjoint hbw hs ho hanw hq hbw.below_nt
  have hsame : ∀ q, Below s.nodes (an x) q → s₁.nodes q = s.nodes q := fun q hq =>
    hd.untouched hs ho hB hdone hx hnew hq (hno q hq)
  obtain ⟨cn, hcn, -, -, hnkids, -⟩ := hb.andNot
  obtain ⟨ct, hct, -, -, htkids, -⟩ := hb.not
  have harg := notArg_branch s₁ hb (by
    rintro q (rfl | rfl | rfl)
    · exact hsame _ hb.below_a
    · exact hsame _ .refl
    · exact hsame _ hb.below_nt)
  obtain ⟨s₂, h₂, hn₂, hx₂⟩ := setChildren_spec ((hsame _ hb.below_nt).trans hct) (·.set 0 0)
  rw [htkids, set_cons_zero] at hn₂
  have hnto : nt x ≠ o := by
    rintro h
    rw [h] at hntlt
    omega
  have hano : an x ≠ o := fun h => by rw [h] at hanlt; exact lt_irrefl _ hanlt
  have hannt : an x ≠ nt x := fun h => by rw [h] at hntlt; exact lt_irrefl _ hntlt
  have htop₂ : s₂.nodes o = some { co with children := co.children.filter (· ∉ done.map an) } := by
    rw [hn₂, update_of_ne hnto.symm, hd.top]
  obtain ⟨s₃, h₃, hn₃, hx₃⟩ := removeChild_spec htop₂ (hd.chain hr ho hco hB hw hdone (by
    intro q c hq hc
    exact ⟨c, by rw [hn₂, update_of_ne fun h : q = nt x => hq x hx (h ▸ hb.below_nt), hc], rfl⟩)) (an x)
  have hsame₃ : ∀ q, q ≠ nt x → q ≠ o → s₃.nodes q = s₁.nodes q := by
    intro q h h'
    rw [hn₃, update_of_ne h', hn₂, update_of_ne h]
  have hlow : ∀ q, Below s.nodes (an x) q → q ≠ nt x → s₃.nodes q = s.nodes q := by
    intro q hq hne
    rw [hsame₃ q hne fun h => hb.not_below_above hs ho (le_refl _) (h ▸ hq), hsame q hq]
  -- the equal node goes with the branch, the node under the NOT does not
  have hlt : ∀ q, S q → q < s.next := fun q hq => s.lt_of_mem hs hq
  have hwt := hs.weight hlt
  have hshape : Shape s₃.nodes (Below s.nodes x) (PtrTree.weight s.nodes s.next) := by
    refine (hwt.restrict_below haS).congr ?_
    intro q hq
    exact hlow q (hb.below_a.trans hq) fun h => hb.not_below_both hs ho hq (h ▸ .refl)
  have hw1 := (hwt.kids _ cn hanS hcn x (by rw [hnkids]; exact mem_cons_self)).2.1
  have hw2 := hwt.weight_lt hanS (hlt _ hanS)
  obtain ⟨s₄, h₄, hx₄, hkeep⟩ := delete_emptied hshape .refl ((hlow _ .refl hannt).trans hcn) hnkids
    (show s₃.nodes (nt x) = some { ct with children := [0] } by
      rw [hn₃, update_of_ne hnto, hn₂, update_self]) rfl
    (fun hbx => hb.not_below_both hs ho hbx .refl) (by rw [hx₃, hx₂, hd.next]; omega) (by
      have h1 := hlt _ hanS
      have h2 := hs.ne_zero hanS
      have h3 := hs.ne_zero haS
      have h4 := hlt _ haS
      have h5 : x ≠ an x := fun h => by rw [← h] at halt; exact lt_irrefl _ halt
      rw [hx₃, hx₂, hd.next]
      omega)
  have hstay : ∀ q, q ≠ o → (Below s.nodes (an x) q → Below s.nodes (n x) q) → s₄.nodes q = s₁.nodes q := by
    intro q hqo hq
    have hqan : q ≠ an x := fun h => (hb.not_below_n_an hs ho).1 (h ▸ hq (h ▸ .refl))
    have hqnt : q ≠ nt x := fun h => (hb.not_below_n_an hs ho).2 (h ▸ hq (h ▸ hb.below_nt))
    rw [hkeep q hqan hqnt, hsame₃ q hqnt hqo]
    intro hqx
    exact hb.not_below_both hs ho hqx (hb.below_nt_n.trans (hq (hb.below_a.trans hqx)))
  refine ⟨s₄, ?_, ?_, ?_, ?_, ?_, ?_⟩
  · simp only [absorb, harg, h₂, h₃, h₄, bind_eq_bind, bind_some]
    rfl
  · rw [hx₄, hx₃, hx₂, hd.next]
  · rw [hkeep o hano.symm hnto.symm fun h => hb.not_below_above hs ho (le_refl _) (hb.below_a.trans h), hn₃,
      update_self]
    rw [filter_erase (hs.nodup o co ho hco), map_append, map_singleton]
  · intro q hqo hqw hqlt hkept
    rw [hstay q hqo (hkept x (List.mem_append.mpr (.inr mem_cons_self)))]
    exact hd.other q hqo hqw hqlt fun y hy => hkept y (List.mem_append.mpr (.inl hy))
  · obtain ⟨d, hd₁, hd₂⟩ := hd.not
    refine ⟨d, hd₁, ?_⟩
    rw [hstay _ ?_ fun h => absurd rfl (hno _ h), hd₂]
    intro h
    obtain ⟨-, h1⟩ := hbw.mem_an hs ho
    obtain ⟨-, h2⟩ := hbw.mem_nt hs ho
    rw [h] at h2
    omega
  · have hnS : ¬ S s.next := fun h => lt_irrefl _ (hlt _ h)
    rw [hstay _ (fun h : s.next = o => hnS (h ▸ ho)) fun h => absurd (hs.below_mem hanS h) hnS, hd.new]

/-! ## What the rule leaves -/

include hr ho hco hB hw in
/-- The new AND stands under the NOT that stays. -/
theorem Absorbed.init :
    ∃ s₁ s₂ s₃, setChildren (newNode s) (nt w) (·.set 0 s.next) = some s₁ ∧ setParent s₁ s.next (nt w) = some s₂ ∧
      rehash s₂ (nt w) = some s₃ ∧ Absorbed s o co an nt n w [] s₃ := by
  have hs := hr.toShape
  obtain ⟨ct, hct, -, -, htkids, htpar⟩ := (hB w hw).not
  obtain ⟨hntS, hntlt⟩ := (hB w hw).mem_nt hs ho
  obtain ⟨-, hanlt⟩ := (hB w hw).mem_an hs ho
  have hntne := ne_of_lt (s.lt_next hct)
  have hold : ∀ q, q ≠ s.next → (newNode s).nodes q = s.nodes q := fun q hq => update_of_ne hq ..
  obtain ⟨s₁, h₁, hn₁, hx₁⟩ := setChildren_spec ((hold _ hntne).trans hct) (·.set 0 s.next)
  rw [htkids, set_cons_zero] at hn₁
  have hnew₁ : s₁.nodes s.next = some { data := {} } := by
    rw [hn₁, update_of_ne hntne.symm]
    exact update_self ..
  obtain ⟨s₂, h₂, hn₂, hx₂⟩ := setParent_spec hnew₁ (nt w)
  have hsame : ∀ q, q ≠ nt w → q ≠ s.next → s₂.nodes q = s.nodes q := by
    intro q h h'
    rw [hn₂, update_of_ne h', hn₁, update_of_ne h, hold q h']
  have hnt₂ : s₂.nodes (nt w) = some { ct with children := [s.next] } := by
    rw [hn₂, update_of_ne hntne, hn₁, update_self]
  obtain ⟨s₃, h₃, hn₃, hx₃⟩ := rehash_spec (s := s₂) (p := nt w) (by
    refine chain_above hr hntS ?_
    intro q c _ _ hc
    by_cases hq : q = nt w
    · subst hq
      cases hc.symm.trans hct
      exact ⟨_, hnt₂, rfl⟩
    · exact ⟨c, by rw [hsame q hq (ne_of_lt (s.lt_next hc)), hc], rfl⟩)
  refine ⟨s₁, s₂, s₃, h₁, h₂, h₃, ?_, ?_, ?_, ⟨ct, hct, by rw [hn₃, hnt₂]⟩, ?_⟩
  · rw [hx₃, hx₂, hx₁]
    rfl
  · have hont : o ≠ nt w := by
      intro h
      rw [← h] at hntlt
      omega
    rw [hn₃, hsame o hont (ne_of_lt (s.lt_next hco)), hco]
    simp
  · intro q _ hq hlt _
    rw [hn₃, hsame q hq (ne_of_lt hlt)]
  · rw [hn₃, hn₂, update_self]

/-- The old nodes below the ANDNOT that stays. -/
def Stays (s : Store κ) (n : Nat → Nat) (similar : List Nat) (w q : Nat) : Prop :=
  Below s.nodes w q ∨ ∃ x ∈ similar, Below s.nodes (n x) q

/-- A heap in which the nodes under the NOTs stand under the new AND. -/
structure Factored (s : Store κ) (an nt n : Nat → Nat) (similar : List Nat) (w : Nat) (h' : Heap (Data κ)) : Prop where
  andNot : h' (an w) = s.nodes (an w)
  not    : ∃ d, s.nodes (nt w) = some d ∧ h' (nt w) = some { d with children := [s.next] }
  and    : ∃ ks, ks.Perm (similar.map n) ∧ h' s.next = some { data := {}, children := ks, parent := nt w }
  moved  : ∀ x ∈ similar, ∀ c, s.nodes (n x) = some c → h' (n x) = some { c with parent := s.next }
  kept   : ∀ q, Stays s n similar w q → q ∉ similar.map n → h' q = s.nodes q

include hB hw in
theorem branch_of_stays (hq : Stays s n similar w q) : ∃ x ∈ similar, Below s.nodes (an x) q := by
  rcases hq with h | ⟨x, hx, h⟩
  · exact ⟨w, hw, (hB w hw).below_a.trans h⟩
  · exact ⟨x, hx, (hB x hx).below_n.trans h⟩

include hs ho hB hw in
theorem stays_mem (hq : Stays s n similar w q) : S q := by
  obtain ⟨x, hx, hb⟩ := branch_of_stays hB hw hq
  exact hs.below_mem ((hB x hx).mem_an hs ho).1 hb

include hs ho hB hw in
/-- In its own branch a node that stays is below the equal node or below the node under the NOT. -/
theorem stays_cases (hx : x ∈ similar) (hq : Stays s n similar w q) (hb : Below s.nodes (an x) q) :
    x = w ∧ Below s.nodes w q ∨ Below s.nodes (n x) q := by
  have hsame : ∀ y ∈ similar, Below s.nodes (an y) q → y = x := by
    intro y hy hby
    by_contra hne
    exact (hB y hy).disjoint (hB x hx) hs ho (an_ne hB hy hx hne) hby hb
  rcases hq with h | ⟨y, hy, h⟩
  · exact .inl ⟨(hsame w hw ((hB w hw).below_a.trans h)).symm, h⟩
  · rw [hsame y hy ((hB y hy).below_n.trans h)] at h
    exact .inr h

include hs ho hB hw in
theorem not_stays (hx : x ∈ similar) : ¬ Stays s n similar w (an x) ∧ ¬ Stays s n similar w (nt x) := by
  have hb := hB x hx
  constructor
  · intro hq
    rcases stays_cases hs ho hB hw hx hq .refl with ⟨rfl, h⟩ | h
    · exact hb.not_below_a_an hs ho h
    · exact (hb.not_below_n_an hs ho).1 h
  · intro hq
    rcases stays_cases hs ho hB hw hx hq hb.below_nt with ⟨rfl, h⟩ | h
    · exact hb.not_below_both hs ho h .refl
    · exact (hb.not_below_n_an hs ho).2 h

include hs ho hB hw in
theorem Factored.same_below (hf : Factored s an nt n similar w h') {r : Nat} (hq : Stays s n similar w q)
    (hb : Below s.nodes q r) (hne : r ≠ q) : h' r = s.nodes r := by
  have hstays : ∀ r, Below s.nodes q r → Stays s n similar w r := by
    intro r hb
    rcases hq with h | ⟨x, hx, h⟩
    · exact .inl (h.trans hb)
    · exact .inr ⟨x, hx, h.trans hb⟩
  refine hf.kept r (hstays r hb) ?_
  -- the parent of a moved node is a NOT node, which is not among them
  intro hrn
  obtain ⟨x, hx, rfl⟩ := mem_map.mp hrn
  obtain ⟨e, he, hpar⟩ := (hB x hx).arg
  have hup := hs.below_parent (stays_mem hs ho hB hw hq) hb hne he
  rw [hpar] at hup
  exact (not_stays hs ho hB hw hx).2 (hstays _ hup)

include hB in
theorem n_inj {y : Nat} (hx : x ∈ similar) (hy : y ∈ similar) (h : n x = n y) : x = y := by
  obtain ⟨c, hc, hpar⟩ := (hB x hx).arg
  obtain ⟨d, hd, hpar'⟩ := (hB y hy).arg
  rw [h] at hc
  cases hc.symm.trans hd
  have hnt : nt x = nt y := hpar.symm.trans hpar'
  obtain ⟨e, he, -, -, -, hepar⟩ := (hB x hx).not
  obtain ⟨f, hf, -, -, -, hfpar⟩ := (hB y hy).not
  rw [hnt] at he
  cases he.symm.trans hf
  by_contra hne
  exact an_ne hB hx hy hne (hepar.symm.trans hfpar)

include hB hw in
theorem not_moved : w ∉ similar.map n := by
  intro hm
  obtain ⟨x, hx, hxw⟩ := mem_map.mp hm
  obtain ⟨c, hc, hpar⟩ := (hB x hx).arg
  obtain ⟨e, he, -, hpar'⟩ := (hB w hw).and
  rw [hxw] at hc
  cases hc.symm.trans he
  -- the parent of `w` would be a NOT node and an ANDNOT node
  obtain ⟨d, hd, -, hop, -⟩ := (hB x hx).not
  obtain ⟨d', hd', -, hop', -⟩ := (hB w hw).andNot
  rw [← hpar, hpar'] at hd
  cases hd.symm.trans hd'
  rw [hop] at hop'
  cases hop'

include hs ho hB hw in
theorem Factored.now (hf : Factored s an nt n similar w h') (hnd : similar.Nodup) :
    Now meaning s.nodes S h' o (an w) fun _ E => E w && !similar.all fun x => E (n x) := by
  have hb := hB w hw
  have hmem : ∀ q, Stays s n similar w q → S q := fun q hq => stays_mem hs ho hB hw hq
  have haw : Stays s n similar w w := .inl .refl
  obtain ⟨ks, hperm, hnew⟩ := hf.and
  obtain ⟨hntS, hntlt⟩ := hb.mem_nt hs ho
  obtain ⟨hwS, -⟩ := hb.mem_a hs ho
  obtain ⟨ct, hct, htw, htop, -, htpar⟩ := hb.not
  obtain ⟨d, hd, hnt⟩ := hf.not
  cases hct.symm.trans hd
  obtain ⟨cn, hcn, hnw, hnop, hnkids, hnpar⟩ := hb.andNot
  have hwnt := hb.a_ne_nt
  have hand := Now.node (f := meaning) (h := s.nodes) (S := S) (g := fun _ E r => E r) (Nat.ne_of_gt s.start) hnew
    (hperm.nodup_iff.mpr (hnd.map_on fun x hx y hy h => n_inj hB hx hy h)) (by
      intro r hr
      obtain ⟨x, hx, rfl⟩ := mem_map.mp (hperm.mem_iff.mp hr)
      obtain ⟨c, hc, -⟩ := (hB x hx).arg
      have hk : Stays s n similar w (n x) := .inr ⟨x, hx, .refl⟩
      exact Now.keep hs (hmem _ hk) hc (hf.moved x hx c hc) fun r hb hne => hf.same_below hs ho hB hw hk hb hne)
  have hnot := Now.node (g := fun _ E _ => similar.all fun x => E (n x)) (hs.ne_zero hntS) hnt (nodup_singleton _) (by
    intro r hr
    cases mem_singleton.mp hr
    refine hand.congr fun v E _ => ?_
    simp only [meaning, isEmpty_nil, if_true, all_map, Function.comp_def, id, hperm.all_eq])
  have htop' := Now.node (f := meaning) (h := s.nodes) (S := S) (g := fun _ E r => if r = w then E w else !similar.all fun x => E (n x))
    (hs.ne_zero (hb.mem_an hs ho).1) (hf.andNot.trans hcn) (hs.nodup _ cn (hb.mem_an hs ho).1 hcn) (by
      intro r hr
      rw [hnkids] at hr
      rcases mem_pair.mp hr with rfl | rfl
      · simp only [if_true]
        obtain ⟨ca, hca, -, hapar⟩ := hb.and
        exact Now.keep hs hwS hca (by rw [hf.kept _ haw (not_moved hB hw), hca, ← hapar])
          fun r hb hne => hf.same_below hs ho hB hw haw hb hne
      · simp only [if_neg hwnt.symm, ← htpar]
        refine hnot.congr fun v E _ => ?_
        simp only [meaning, htw, htop, isEmpty_nil, if_true, map_cons, map_nil, any_cons, any_nil,
          Bool.or_false, id])
  rw [hnpar] at htop'
  refine htop'.congr fun v E _ => ?_
  rw [hnkids, map_cons, map_singleton, if_pos rfl, if_neg hwnt.symm]
  simp only [meaning, hnw, hnop, isEmpty_nil, if_true, all_cons, all_nil, Bool.and_true, id]

include hr ho hco hB hw in
/-- All branches but one are absorbed, and the new AND has its children. -/
theorem Absorbed.factored (hd : Absorbed s o co an nt n w (similar.erase w) s₁) (hnd : similar.Nodup) :
    ∃ s₂, setOpArgs s₁ s.next .and (n w :: (similar.erase w).map n) = some s₂ ∧ Factored s an nt n similar w s₂.nodes ∧
      ∀ q, q ≠ nt w → q < s.next → q ∉ similar.map n → s₂.nodes q = s₁.nodes q := by
  have hs := hr.toShape
  have hb := hB w hw
  have hold : ∀ q, S q → q < s.next := fun q hq => s.lt_of_mem hs hq
  have hperm : (n w :: (similar.erase w).map n).Perm (similar.map n) := ((perm_cons_erase hw).map n).symm
  -- nothing that stays was touched before
  have hstays : ∀ q, Stays s n similar w q → s₁.nodes q = s.nodes q := by
    intro q hq
    obtain ⟨x, hx, hbx⟩ := branch_of_stays hB hw hq
    refine hd.other q ?_ (fun h => (not_stays hs ho hB hw hw).2 (h ▸ hq)) (hold q (stays_mem hs ho hB hw hq)) ?_
    · rintro rfl
      exact (hB x hx).not_below_above hs ho (le_refl _) hbx
    · intro y hy hby
      obtain ⟨hyw, hys⟩ := hnd.mem_erase_iff.mp hy
      rcases stays_cases hs ho hB hw hys hq hby with ⟨h, -⟩ | h
      · exact absurd h hyw
      · exact h
  have hnx : ∀ x ∈ similar, s₁.nodes (n x) = s.nodes (n x) := fun x hx => hstays _ (.inr ⟨x, hx, .refl⟩)
  obtain ⟨d, hd₁, hd₂⟩ := hd.not
  have hntn : nt w ∉ similar.map n := by
    intro hm
    obtain ⟨x, hx, hxw⟩ := mem_map.mp hm
    exact (not_stays hs ho hB hw hw).2 (.inr ⟨x, hx, hxw ▸ .refl⟩)
  have hann : an w ∉ similar.map n := by
    intro hm
    obtain ⟨x, hx, hxw⟩ := mem_map.mp hm
    exact (not_stays hs ho hB hw hw).1 (.inr ⟨x, hx, hxw ▸ .refl⟩)
  have hlive : ∀ q ∈ n w :: (similar.erase w).map n, q < s.next ∧ ∃ d, s₁.nodes q = some d := by
    intro q hq
    obtain ⟨x, hx, rfl⟩ := mem_map.mp (hperm.mem_iff.mp hq)
    obtain ⟨c, hc, -⟩ := (hB x hx).arg
    exact ⟨s.lt_next hc, c, by rw [hnx x hx, hc]⟩
  obtain ⟨hntS, hntlt⟩ := hb.mem_nt hs ho
  obtain ⟨hanS, hanlt⟩ := hb.mem_an hs ho
  have hanw : s₁.nodes (an w) = s.nodes (an w) := by
    refine hd.other _ ?_ ?_ (hold _ hanS) ?_
    · intro h
      rw [h] at hanlt
      exact lt_irrefl _ hanlt
    · intro h
      rw [h] at hntlt
      exact lt_irrefl _ hntlt
    · intro x hx hbx
      obtain ⟨hxw, hxs⟩ := hnd.mem_erase_iff.mp hx
      exact absurd hbx fun hbx => (hB x hxs).disjoint hb hs ho (an_ne hB hxs hw hxw) hbx .refl
  have hchain : Chain s₁.nodes s.next := by
    obtain ⟨ct, hct, -, -, -, htpar⟩ := hb.not
    obtain ⟨cn, hcn, -, -, -, hnpar⟩ := hb.andNot
    cases hct.symm.trans hd₁
    refine .step hd.new (.step hd₂ ?_)
    rw [htpar]
    refine .step (hanw.trans hcn) ?_
    rw [hnpar]
    exact hd.chain hr ho hco hB hw (fun x hx => mem_of_mem_erase hx) fun q c _ hc => ⟨c, hc, rfl⟩
  obtain ⟨s₂, h₂, hx₂, hnew₂, hargs₂, hfar₂⟩ := setOpArgs_spec .and _ hd.new hchain
    (fun hm => lt_irrefl _ (hlive _ hm).1) (fun q hq => (hlive q hq).2)
  have hfar : ∀ q, q < s.next → q ∉ similar.map n → s₂.nodes q = s₁.nodes q := fun q hlt hq =>
    hfar₂ q (ne_of_lt hlt) fun hm => hq (hperm.mem_iff.mp hm)
  refine ⟨s₂, h₂, ⟨?_, ?_, ⟨_, hperm, hnew₂⟩, ?_, ?_⟩, fun q _ hlt hq => hfar q hlt hq⟩
  · rw [hfar _ (hold _ hanS) hann, hanw]
  · exact ⟨d, hd₁, by rw [hfar _ (hold _ hntS) hntn, hd₂]⟩
  · intro x hx c hc
    exact hargs₂ _ c (hperm.mem_iff.mpr (mem_map_of_mem hx)) ((hnx x hx).trans hc)
  · intro q hq hqn
    rw [hfar q (hold q (stays_mem hs ho hB hw hq)) hqn, hstays q hq]

include hs ho hB in
theorem val_factored {v : κ → Bool} {E : Nat → Bool} (hE : Val s.nodes S (meaning v) E) (hsame : ∀ x ∈ similar, E x = E w) :
    (E w && !similar.all fun x => E (n x)) = (similar.map an).any E := by
  have hval : ∀ x ∈ similar, E (an x) = (E w && !E (n x)) := by
    intro x hx
    rw [(hB x hx).val hs ho hE, hsame x hx]
  rw [Bool.eq_iff_iff]
  simp only [any_map, any_eq_true, Bool.and_eq_true, Bool.not_eq_true', all_eq_false, Function.comp_apply]
  constructor
  · rintro ⟨hwE, x, hx, hxE⟩
    exact ⟨x, hx, by rw [hval x hx, hwE, Bool.eq_false_iff.mpr hxE]; rfl⟩
  · rintro ⟨x, hx, hxE⟩
    rw [hval x hx, Bool.and_eq_true, Bool.not_eq_true'] at hxE
    exact ⟨hxE.1, x, hx, by rw [hxE.2]; exact Bool.false_ne_true⟩

include hr ho hco hB hw in
theorem factored_rep (hnd : similar.Nodup) (hd : Absorbed s o co an nt n w (similar.erase w) s₁)
    (hsame : ∀ v E, Val s.nodes S (meaning v) E → ∀ x ∈ similar, E x = E w) :
    ∃ s₂ t', setOpArgs s₁ s.next .and (n w :: (similar.erase w).map n) = some s₂ ∧ Rep s₂.nodes 0 root t' ∧
      Below s₂.nodes root o ∧ ∀ v E, Val s.nodes S (meaning v) E → Query.matches v t' = E root := by
  have hs := hr.toShape
  obtain ⟨s₂, h₂, hf, hfar⟩ := hd.factored hr ho hco hB hw hnd
  -- what is in no branch is as before, the common OR apart
  have hout : ∀ q, S q → (∀ x ∈ similar, ¬ Below s.nodes (an x) q) → s₂.nodes q = s₁.nodes q := by
    intro q hq hno
    obtain ⟨c, hc⟩ := hs.live q hq
    refine hfar q (fun h => hno w hw (h ▸ (hB w hw).below_nt)) (s.lt_next hc) ?_
    intro hm
    obtain ⟨x, hx, rfl⟩ := mem_map.mp hm
    exact hno x hx (hB x hx).below_n
  have hout' : ∀ q, S q → q ≠ o → (∀ x ∈ similar, ¬ Below s.nodes (an x) q) → s₂.nodes q = s.nodes q := by
    intro q hq hqo hno
    obtain ⟨c, hc⟩ := hs.live q hq
    rw [hout q hq hno]
    refine hd.other q hqo (fun h => hno w hw (h ▸ (hB w hw).below_nt)) (s.lt_next hc) ?_
    exact fun x hx hb => absurd hb (hno x (mem_of_mem_erase hx))
  have htop : s₂.nodes o = some { co with children := co.children.filter (· ∉ (similar.erase w).map an) } := by
    rw [hout o ho fun x hx => (hB x hx).not_below_above hs ho (le_refl _), hd.top]
  obtain ⟨c, hc, hwords, hop, -⟩ := (hB w hw).top
  cases hco.symm.trans hc
  obtain ⟨t', ht', hbo, hte⟩ := rep_merge hr ho hco hwords hop (K := similar.map an) (by
      intro r hr'
      obtain ⟨x, hx, rfl⟩ := mem_map.mp hr'
      obtain ⟨c, hc, -, -, hmem⟩ := (hB x hx).top
      cases hco.symm.trans hc
      exact hmem) (hnd.map_on fun x hx y hy h => by_contra fun hne => an_ne hB hx hy hne h) ((perm_cons_erase hw).map an)
    ((hf.now hs ho hB hw hnd).congr fun v E hE => val_factored hs ho hB hE (hsame v E hE)) htop (by
      intro q hq hqo hno
      exact hout' q hq hqo fun x hx => hno _ (mem_map_of_mem hx))
  exact ⟨s₂, t', h₂, ht', hbo, hte⟩

theorem makeTransformCommonAndNotFactor_spec (hr : Rooted s.nodes S rank root) (ho : S o) (hco : s.nodes o = some co)
    (hB : ∀ x ∈ similar, Branch s.nodes o (an x) x (nt x) (n x)) (hnd : similar.Nodup) (hne : similar ≠ [])
    (hsame : ∀ v E, Val s.nodes S (meaning v) E → ∀ x ∈ similar, ∀ y ∈ similar, E x = E y) :
    ∃ s' root' t', makeTransformCommonAndNotFactor s root similar = some (s', root') ∧ Rep s'.nodes 0 root' t' ∧
      ∀ v E, Val s.nodes S (meaning v) E → Query.matches v t' = E root := by
  have hs := hr.toShape
  obtain ⟨i, w, hi, hwi', hw⟩ := getWeakestChildIndex_spec hne (by
    intro x hx
    obtain ⟨c, hc, -⟩ := (hB x hx).and
    refine ⟨c, hc, fun q hq => ?_⟩
    obtain ⟨-, -, d, hd, -⟩ := hs.kids x c ((hB x hx).mem_a hs ho).1 hc q hq
    exact ⟨d, hd⟩)
  obtain ⟨hlt, rfl⟩ := List.getElem?_eq_some_iff.mp hwi'
  have hrest := hnd.erase_getElem i hlt
  generalize similar[i] = w at hw hwi' hrest
  have hb := hB w hw
  obtain ⟨cn, hcn, -, -, -, hnpar⟩ := hb.andNot
  have harg := notArg_branch s hb fun _ _ => rfl
  obtain ⟨s₁, s₂, s₃, h₁, h₂, h₃, hinit⟩ := Absorbed.init hr ho hco hB hw
  obtain ⟨⟨s₄, args⟩, h₄, hd, hargs⟩ := foldlM_run (f := absorb o) (P := fun x => x ∈ similar ∧ x ≠ w)
    (I := fun done st => Absorbed s o co an nt n w done st.1 ∧ st.2 = n w :: done.map n) (by
      rintro done ⟨s₁, args⟩ x ⟨hd, rfl⟩ hdone ⟨hx, hxw⟩ hnew
      obtain ⟨s₂, h₂, hd₂⟩ := hd.step hr ho hco hB hw (fun y hy => (hdone y hy).1) hx hxw hnew _
      exact ⟨_, h₂, hd₂, by rw [map_append]; rfl⟩) (s := (s₃, [n w])) ⟨hinit, rfl⟩
    (fun x hx => ⟨mem_of_mem_erase hx, (hnd.mem_erase_iff.mp hx).1⟩) (hnd.erase w)
  subst hargs
  obtain ⟨s₅, t₅, h₅, ht₅, hbo, hval⟩ := factored_rep hr ho hco hB hw hnd hd fun v E hE x hx => hsame v E hE x hx w hw
  obtain ⟨s₆, root', t', h₆, -, ht', -, -, hte⟩ := compositeFixup_rep ht₅ hbo
  refine ⟨s₆, root', t', ?_, ht', ?_⟩
  · simp only [makeTransformCommonAndNotFactor, hi, hwi', harg, hcn, hnpar, h₁, h₂, h₃, ← hrest, h₄, h₅, bind_eq_bind,
      bind_some]
    exact h₆
  · intro v E hE
    rw [Query.matches, hte Bool _ (neutral_meaning v)]
    exact hval v E hE

theorem branch_of_factor (hr : Rooted s.nodes S rank root) (hbool : ∀ p c, S p → s.nodes p = some c → BoolNode s.nodes c)
    (hx : S x) (hck : checkCommonAndNotFactor s x = true) :
    ∃ o an nt n, Branch s.nodes o an x nt n ∧ S o ∧ grand s 2 x = some o := by
  simp only [checkCommonAndNotFactor, Bool.and_eq_true, beq_iff_eq] at hck
  obtain ⟨⟨⟨⟨-, h0⟩, h1⟩, h2⟩, h3⟩ := hck
  obtain ⟨x', c, hg0, hc, hop0⟩ := grandOp_cases h0
  cases hg0
  obtain ⟨an, c1, hg1, hc1, hop1⟩ := grandOp_cases h1
  obtain ⟨o, c2, hg2, hc2, hop2⟩ := grandOp_cases h2
  cases (grand_succ (k := 0) rfl hc).symm.trans hg1
  cases (grand_succ hg1 hc1).symm.trans hg2
  obtain ⟨hS1, -, hm1⟩ := parent_cell hr hx hc hc1
  obtain ⟨hS2, -, hm2⟩ := parent_cell hr hS1 hc1 hc2
  have hb1 := hbool _ _ hS1 hc1
  obtain ⟨p, q, d, e, hkids, hd, he, hopd, hope⟩ := hb1.children_andNot hop1
  have hpx : p = x := by
    rw [hkids] at hm1
    rcases mem_pair.mp hm1 with h | h
    · exact h.symm
    · rw [h] at hc
      cases hc.symm.trans he
      rw [hop0] at hope
      cases hope
  subst hpx
  obtain ⟨hqS, -, e', he', hepar⟩ := hr.kids _ c1 hS1 hc1 q (by rw [hkids]; exact mem_cons_of_mem _ mem_cons_self)
  cases he.symm.trans he'
  have hbq := hbool q e hqS he
  obtain ⟨n, hnkids⟩ : ∃ n, e.children = [n] := by
    cases hbq with
    | leaf w hw hk hop => rcases hop with h | h <;> rw [h] at hope <;> cases hope
    | and hw hop => rw [hop] at hope; cases hope
    | or hw hop => rw [hop] at hope; cases hope
    | not r hw hop hk => exact ⟨r, hk⟩
    | andNot r r' d' e' hw hop => rw [hop] at hope; cases hope
  obtain ⟨hnS, -, f, hf, hfpar⟩ := hr.kids q e hqS he n (by rw [hnkids]; exact mem_cons_self)
  refine ⟨_, _, q, n, ⟨⟨c2, hc2, (hbool _ _ hS2 hc2).inner hm2, hop2, hm2⟩, ⟨c1, hc1, hb1.inner hm1, hop1, hkids, rfl⟩,
    ⟨c, hc, hop0, rfl⟩, ⟨e, he, hbq.inner (by rw [hnkids]; exact mem_cons_self), hope, hnkids, hepar⟩, ⟨f, hf, hfpar⟩⟩,
    hS2, hg2⟩

/-- **AND-NOT FACTOR leaves a tree that matches the same documents.** -/
theorem commonAndNotFactor_rep {t : Query κ} (ht : Rep s.nodes 0 root t) (hbool : BoolTree s.nodes root)
    (hg : Group s root 2 (checkCommonAndNotFactor s) similar) :
    ∃ s' root' t', makeTransformCommonAndNotFactor s root similar = some (s', root') ∧ Rep s'.nodes 0 root' t' ∧
      ∀ v, Query.matches v t' = Query.matches v t := by
  have hr := ht.rooted
  obtain ⟨o, ho, -, hB⟩ := hg.common (P := fun o x => ∃ an nt n, Branch s.nodes o an x nt n) (by
    intro o x hx hck hkey
    obtain ⟨o', an, nt, n, hb, ho', h2⟩ := branch_of_factor hr hbool (hg.below x hx) hck
    cases h2.symm.trans hkey
    exact ⟨ho', an, nt, n, hb⟩)
  choose! an nt n hB using hB
  obtain ⟨co, hco⟩ := hr.live o ho
  obtain ⟨s', root', t', h', ht', hval⟩ :=
    makeTransformCommonAndNotFactor_spec hr ho hco hB hg.nodup hg.ne_nil (hg.val hr.toShape)
  exact ⟨s', root', t', h', ht', matches_eq_of_val ht hval⟩

end Absorb

/-! ## Both rules -/

/-- **COMMON NOT and AND-NOT FACTOR preserve matching and tree shape.**  The tree afterwards stands at the new root, every
child points at its parent, and it matches what the tree matched before. -/
theorem commonNot_andNotFactor_keep {s : Store κ} {root : Nat} {t : Query κ} (ht : Rep s.nodes 0 root t)
    (hbool : BoolTree s.nodes root) :
    (∀ similar, Group s root 3 (checkCommonNot s) similar →
      ∃ related s' root' t', collectRelatedNodes s 1 2 similar = some related ∧
        makeTransformCommonNot s root similar related = some (s', root') ∧ Rep s'.nodes 0 root' t' ∧
        ∀ v, Query.matches v t' = Query.matches v t) ∧
    (∀ similar, Group s root 2 (checkCommonAndNotFactor s) similar →
      ∃ s' root' t', makeTransformCommonAndNotFactor s root similar = some (s', root') ∧ Rep s'.nodes 0 root' t' ∧
        ∀ v, Query.matches v t' = Query.matches v t) :=
  ⟨fun _ hg => commonNot_rep ht hbool hg, fun _ hg => commonAndNotFactor_rep ht hbool hg⟩

/-- `(A !N) | (A !N)`, with the keywords `0` and `1`. -/
def twoBranches : List (Node Nat) :=
  [opNode .or [2, 3] 0, opNode .andNot [4, 5] 1, opNode .andNot [6, 7] 1, wordNode 0 2, opNode .not [8] 2,
   wordNode 0 3, opNode .not [9] 3, wordNode 1 5, wordNode 1 7]

/-- The tree of `twoBranches`. -/
def twoBranchesTree : Query Nat :=
  .node { op := .or } [
    .node { op := .andNot } [.node { words := [0] } [], .node { op := .not } [.node { words := [1] } []]],
    .node { op := .andNot } [.node { words := [0] } [], .node { op := .not } [.node { words := [1] } []]]]

theorem commonNot_andNotFactor_keep_twoBranches :
    (∃ related s' root' t', collectRelatedNodes (Store.ofNodes twoBranches) 1 2 [8, 9] = some related ∧
      makeTransformCommonNot (Store.ofNodes twoBranches) 1 [8, 9] related = some (s', root') ∧ Rep s'.nodes 0 root' t' ∧
      ∀ v, Query.matches v t' = Query.matches v twoBranchesTree) ∧
    ∃ s' root' t', makeTransformCommonAndNotFactor (Store.ofNodes twoBranches) 1 [4, 6] = some (s', root') ∧
      Rep s'.nodes 0 root' t' ∧ ∀ v, Query.matches v t' = Query.matches v twoBranchesTree :=
  have hkeep := commonNot_andNotFactor_keep (s := Store.ofNodes twoBranches) (t := twoBranchesTree) (by decide)
    (boolTree_of_all (by decide) 1)
  ⟨hkeep.1 _ (group_of_leaves 1 { words := [1] } (by decide)), hkeep.2 _ (group_of_leaves 1 { words := [0] } (by decide))⟩

end XQ
end Manticore

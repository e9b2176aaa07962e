import Manticore.XQBool
/-!
# TransformCommonNot — `((A !N) | (B !N) | R) -> (((A|B) !N) | R)`
-/
namespace Manticore
namespace XQ

open PtrTree
open List
open Option (bind_eq_bind bind_some)
open Function (comp_def update_of_ne update_self)

variable {κ : Type}

/-- `CSphTransformation::CheckCommonNot`. -/
def checkCommonNot (s : Store κ) (p : Nat) : Bool :=
  valid s 3 p && grandOp s 1 p == some .not && grandOp s 2 p == some .andNot && grandOp s 3 p == some .or

/-- One turn of the loop that resets the ownership of the related nodes. -/
def detachRelated (commonOr : Nat) (keepOr : Bool) (s : Store κ) (a : Nat) : Option (Store κ) := do
  let c ← s.nodes a
  let s ← removeChild s c.parent a
  if keepOr then do
    let s ← removeChild s commonOr c.parent
    delete s c.parent
  else return s

/-- The parent of the common OR, if any, gets the weakest ANDNOT in its place. -/
def relink (s : Store κ) (grandOr commonOr weakest : Nat) : Option (Store κ) :=
  if grandOr = 0 then some s else withChildren s grandOr (replaceFirst commonOr weakest)

/-- The last part of `MakeTransformCommonNot`: the common OR had two children and disappears. -/
def dropCommonOr (s : Store κ) (root commonOr weakest grandOr : Nat) : Option (Store κ × Nat) := do
  let s ← setParent s weakest grandOr
  let s ← relink s grandOr commonOr weakest
  let s ← removeChild s commonOr weakest
  let s ← delete s commonOr
  return (s, if grandOr = 0 then weakest else root)

/-- The middle part of `MakeTransformCommonNot`: all related nodes under a hub OR, the hub OR under a hub AND, and the
hub AND in the place of the first child of the weakest ANDNOT. -/
def insertHub (s : Store κ) (weakest : Nat) (related : List Nat) : Option (Store κ) := do
  let hubOr := s.next
  let s ← setOpArgs (newNode s) hubOr .or related
  let hubAnd := s.next
  let s ← setOpArgs (newNode s) hubAnd .and [hubOr]
  let s ← setParent s hubAnd weakest
  let s ← setChildren s weakest (·.set 0 hubAnd)
  rehash s weakest

/-- `CSphTransformation::MakeTransformCommonNot`; gives the new root. -/
def makeTransformCommonNot (s : Store κ) (root : Nat) (similar related : List Nat) : Option (Store κ × Nat) := do
  let w ← getWeakestIndex s similar
  let a ← related[w]?
  let ca ← s.nodes a
  let weakest := ca.parent
  let cw ← s.nodes weakest
  let commonOr := cw.parent
  let co ← s.nodes commonOr
  let keepOr := decide (2 < co.children.length)
  -- all related nodes but the weakest leave their ANDNOT nodes
  let s ← (related.eraseIdx w).foldlM (detachRelated commonOr keepOr) s
  let s ← insertHub s weakest related
  if keepOr then return (s, root)
  dropCommonOr s root commonOr weakest co.parent

/-! ## Detaching the related nodes -/

variable {s : Store κ} {S : Nat → Prop} {rank an a nt : Nat → Nat} {root o : Nat} {co : Node κ} {similar : List Nat} {x : Nat}

section Detach

/-- The branches of `done` are gone, up to their related nodes. -/
structure Detached (s : Store κ) (o : Nat) (co : Node κ) (an a : Nat → Nat) (done : List Nat) (s₁ : Store κ) : Prop where
  next  : s₁.next = s.next
  top   : s₁.nodes o = some { co with children := co.children.filter (· ∉ done.map an) }
  other : ∀ q, q ≠ o → (∀ x ∈ done, Below s.nodes (an x) q → Below s.nodes (a x) q) → s₁.nodes q = s.nodes q

theorem shape_husk (hb : Branch s.nodes o (an x) (a x) (nt x) x) (hs : Shape s.nodes S rank) (ho : S o)
    {h' : Heap (Data κ)} {cn : Node κ} (hcn : h' (an x) = some { cn with children := [nt x] })
    (hsame : ∀ q, Below s.nodes (nt x) q → h' q = s.nodes q) :
    Shape h' (fun q => q = an x ∨ Below s.nodes (nt x) q) rank := by
  obtain ⟨hntS, hntlt⟩ := hb.mem_nt hs ho
  obtain ⟨ct, hct, -, -, -, htpar⟩ := hb.not
  refine ((hs.restrict_below hntS).congr hsame).cons (hs.ne_zero (hb.mem_an hs ho).1) hcn (nodup_singleton _) ?_
  intro r hr
  cases mem_singleton.mp hr
  exact ⟨.refl, hntlt, ct, by rw [hsame _ .refl, hct], htpar⟩

theorem Detached.step (hr : Rooted s.nodes S rank root) (ho : S o) (hco : s.nodes o = some co)
    (hB : ∀ x ∈ similar, Branch s.nodes o (an x) (a x) (nt x) x) {done : List Nat} {s₁ : Store κ}
    (hd : Detached s o co an a done s₁) (hdone : ∀ x ∈ done, x ∈ similar) (hx : x ∈ similar) (hnew : x ∉ done) :
    ∃ s₂, detachRelated o true s₁ (a x) = some s₂ ∧ Detached s o co an a (done ++ [x]) s₂ := by
  have hs := hr.toShape
  have hb := hB x hx
  have hno : ∀ q, Below s.nodes (an x) q → q ≠ o := fun q hq h => hb.not_below_above hs ho (le_refl _) (h ▸ hq)
  -- what is below this branch is not freed yet
  have hsame : ∀ q, Below s.nodes (an x) q → s₁.nodes q = s.nodes q := by
    intro q hq
    refine hd.other q (hno q hq) ?_
    intro y hy hyq
    have hne : an x ≠ an y := fun h => hnew (hb.an_inj (h ▸ hB y (hdone y hy)) ▸ hy)
    exact absurd hyq fun hyq => hb.disjoint (hB y (hdone y hy)) hs ho hne hq hyq
  obtain ⟨ca, hca, -, hapar⟩ := hb.and
  obtain ⟨cn, hcn, -, -, hnkids, hnpar⟩ := hb.andNot
  have hca₁ : s₁.nodes (a x) = some ca := by rw [hsame _ hb.below_a, hca]
  have hcn₁ : s₁.nodes (an x) = some cn := by rw [hsame _ .refl, hcn]
  have hchain : ∀ h' : Heap (Data κ), (∀ q, S q → rank o ≤ rank q → h' q = s₁.nodes q ∨
      ∃ c', h' q = some c' ∧ ∀ c, s₁.nodes q = some c → c'.parent = c.parent) → Chain h' o := by
    intro h' hh'
    refine chain_above hr ho ?_
    intro q c hq hle hc
    have hq₁ : ∃ c', s₁.nodes q = some c' ∧ c'.parent = c.parent := by
      by_cases hqo : q = o
      · subst hqo
        cases hco.symm.trans hc
        exact ⟨_, hd.top, rfl⟩
      · refine ⟨c, (hd.other q hqo ?_).trans hc, rfl⟩
        exact fun y hy hyq => absurd hyq ((hB y (hdone y hy)).not_below_above hs ho hle)
    obtain ⟨c₁, hc₁, hpar₁⟩ := hq₁
    rcases hh' q hq hle with h | ⟨c', hc', hpar'⟩
    · exact ⟨c₁, h.trans hc₁, hpar₁⟩
    · exact ⟨c', hc', (hpar' c₁ hc₁).trans hpar₁⟩
  have hano : an x ≠ o := hno _ .refl
  have hch₁ : Chain s₁.nodes (an x) := .step hcn₁ (hnpar ▸ hchain _ fun _ _ _ => .inl rfl)
  obtain ⟨s₂, h₂, hn₂, hx₂⟩ := removeChild_spec hcn₁ hch₁ (a x)
  have htop₂ : s₂.nodes o = some { co with children := co.children.filter (· ∉ done.map an) } := by
    rw [hn₂, update_of_ne hano.symm, hd.top]
  have hch₂ : Chain s₂.nodes o := by
    refine hchain _ ?_
    intro q _ _
    by_cases hq : q = an x
    · subst hq
      refine .inr ⟨_, by rw [hn₂, update_self], ?_⟩
      intro c hc
      cases hc.symm.trans hcn₁
      rfl
    · exact .inl (by rw [hn₂, update_of_ne hq])
  obtain ⟨s₃, h₃, hn₃, hx₃⟩ := removeChild_spec htop₂ hch₂ (an x)
  -- the branch without its related node
  have hkids : cn.children.erase (a x) = [nt x] := by
    rw [hnkids, erase_cons_head]
  have hcn₃ : s₃.nodes (an x) = some { cn with children := [nt x] } := by
    rw [hn₃, update_of_ne hano, hn₂, update_self, hkids]
  have hsame₃ : ∀ q, q ≠ an x → q ≠ o → s₃.nodes q = s₁.nodes q := by
    intro q h h'
    rw [hn₃, update_of_ne h', hn₂, update_of_ne h]
  have hlow : ∀ q, Below s.nodes (an x) q → q ≠ an x → s₃.nodes q = s.nodes q := by
    intro q hq hne
    rw [hsame₃ q hne (hno q hq), hsame q hq]
  obtain ⟨hntS, hntlt⟩ := hb.mem_nt hs ho
  have hrest : ∀ q, Below s.nodes (nt x) q → Below s.nodes (an x) q ∧ q ≠ an x := by
    intro q hq
    refine ⟨hb.below_nt.trans hq, ?_⟩
    rintro rfl
    exact hs.not_below_of_lt hntS hntlt hq
  have hshape := shape_husk hb hs ho hcn₃ fun q hq => hlow q (hrest q hq).1 (hrest q hq).2
  obtain ⟨s₄, h₄, hx₄, -, hkeep₄⟩ := delete_spec hshape (p := an x) (.inl rfl)
  have hgone : ∀ q, Below s₃.nodes (an x) q → q = an x ∨ Below s.nodes (nt x) q := fun q hq =>
    hq.mem_of_closed (K := fun q => q = an x ∨ Below s.nodes (nt x) q) (.inl rfl) fun y c hy hc z hz =>
      (hshape.kids y c hy hc z hz).1
  refine ⟨s₄, ?_, ?_, ?_, ?_⟩
  · simp only [detachRelated, hca₁, bind_eq_bind, bind_some, hapar, h₂, h₃, if_true]
    exact h₄
  · rw [hx₄, hx₃, hx₂, hd.next]
  · have ho₃ : ¬ Below s₃.nodes (an x) o := by
      intro hbl
      rcases hgone o hbl with h | h
      · exact hano h.symm
      · exact hno o (hrest o h).1 rfl
    rw [hkeep₄ o ho₃, hn₃, update_self]
    rw [filter_erase (hs.nodup o co ho hco), map_append, map_singleton]
  · intro q hqo hkept
    have hqx := hkept x (List.mem_append.mpr (.inr mem_cons_self))
    have hnb : ¬ Below s₃.nodes (an x) q := by
      intro hbl
      rcases hgone q hbl with rfl | h
      · exact hb.not_below_a_an hs ho (hqx .refl)
      · exact hb.not_below_both hs ho (hqx (hrest q h).1) h
    have hqan : q ≠ an x := by
      rintro rfl
      exact hnb .refl
    rw [hkeep₄ q hnb, hsame₃ q hqan hqo]
    exact hd.other q hqo fun y hy => hkept y (List.mem_append.mpr (.inl hy))

end Detach

/-! ## The hub -/

theorem insertHub_spec {weakest : Nat} {related : List Nat} {cw : Node κ} (hw : s.nodes weakest = some cw)
    (hwr : weakest ∉ related) (hlive : ∀ r ∈ related, ∃ d, s.nodes r = some d)
    (hch : ∀ h' : Heap (Data κ), (∀ q c, q ∉ related → s.nodes q = some c →
      ∃ c', h' q = some c' ∧ c'.parent = c.parent) → Chain h' weakest) :
    ∃ s', insertHub s weakest related = some s' ∧ s'.next = s.next + 2 ∧
      s'.nodes s.next = some { data := { op := .or }, children := related, parent := s.next + 1 } ∧
      s'.nodes (s.next + 1) = some { data := {}, children := [s.next], parent := weakest } ∧
      s'.nodes weakest = some { cw with children := cw.children.set 0 (s.next + 1) } ∧
      (∀ r d, r ∈ related → s.nodes r = some d → s'.nodes r = some { d with parent := s.next }) ∧
      ∀ q, q ≠ weakest → q ∉ related → q ≠ s.next → q ≠ s.next + 1 → s'.nodes q = s.nodes q := by
  have hlt : ∀ q c, s.nodes q = some c → q < s.next := fun q c hc => s.lt_next hc
  have hor : (newNode s).nodes s.next = some { data := {} } := update_self ..
  have hold : ∀ q, q ≠ s.next → (newNode s).nodes q = s.nodes q := fun q hq => update_of_ne hq ..
  have hrel : ∀ r ∈ related, r < s.next := by
    intro r hr
    obtain ⟨d, hd⟩ := hlive r hr
    exact hlt r d hd
  obtain ⟨s₁, h₁, hx₁, hor₁, hrel₁, hold₁⟩ := setOpArgs_spec (s := newNode s) .or _ hor (.top hor rfl)
    (fun hmem => lt_irrefl _ (hrel _ hmem)) (by
      intro r hr
      rw [hold r (ne_of_lt (hrel r hr))]
      exact hlive r hr)
  have hx₁' : s₁.next = s.next + 1 := hx₁
  have hand : (newNode s₁).nodes s₁.next = some { data := {} } := update_self ..
  have hold' : ∀ q, q ≠ s₁.next → (newNode s₁).nodes q = s₁.nodes q := fun q hq => update_of_ne hq ..
  have hne : s.next ≠ s₁.next := by
    rw [hx₁']
    exact ne_of_lt (Nat.lt_succ_self _)
  have hor₁' : (newNode s₁).nodes s.next = some { data := { op := .or }, children := related, parent := 0 } := by
    rw [hold' _ hne, hor₁]
  obtain ⟨s₂, h₂, hx₂, hand₂, hrel₂, hold₂⟩ := setOpArgs_spec (s := newNode s₁) .and [s.next] hand (.top hand rfl)
    (fun hmem => hne (mem_singleton.mp hmem).symm) (by
      intro r hr
      rw [mem_singleton.mp hr]
      exact ⟨_, hor₁'⟩)
  have hor₂ := hrel₂ s.next _ mem_cons_self hor₁'
  obtain ⟨s₃, h₃, hn₃, hx₃⟩ := setParent_spec hand₂ weakest
  have hwlt := hlt weakest cw hw
  have hw₃ : s₃.nodes weakest = some cw := by
    rw [hn₃, update_of_ne (by omega), hold₂ _ (by omega) (by rw [mem_singleton]; omega), hold' _ (by omega),
      hold₁ _ (by omega) hwr, hold _ (by omega), hw]
  obtain ⟨s₄, h₄, hn₄, hx₄⟩ := setChildren_spec hw₃ (·.set 0 s₁.next)
  have hfar : ∀ q, q ≠ weakest → q ∉ related → q ≠ s.next → q ≠ s₁.next → s₄.nodes q = s.nodes q := by
    intro q hqw hqr hqo hqa
    rw [hn₄, update_of_ne hqw, hn₃, update_of_ne hqa,
      hold₂ q hqa (by rw [mem_singleton]; exact hqo), hold' q hqa, hold₁ q hqo hqr, hold q hqo]
  have hw₄ : s₄.nodes weakest = some { cw with children := cw.children.set 0 s₁.next } := by rw [hn₄, update_self]
  obtain ⟨s₅, h₅, hn₅, hx₅⟩ := rehash_spec (s := s₄) (p := weakest) (hch _ (by
    intro q c hqr hc
    have hqlt := hlt q c hc
    by_cases hqw : q = weakest
    · subst hqw
      cases hc.symm.trans hw
      exact ⟨_, hw₄, rfl⟩
    · exact ⟨c, by rw [hfar q hqw hqr (by omega) (by omega), hc], rfl⟩))
  refine ⟨s₅, ?_, ?_, ?_, ?_, ?_, ?_, ?_⟩
  · simp only [insertHub, h₁, h₂, h₃, h₄, bind_eq_bind, bind_some]
    exact h₅
  · have hx₂' : s₂.next = s₁.next + 1 := hx₂
    omega
  · rw [hn₅, hn₄, update_of_ne (by omega), hn₃, update_of_ne hne, hor₂, hx₁']
  · rw [hn₅, hn₄, ← hx₁', update_of_ne (by omega), hn₃, update_self]
  · rw [hn₅, hw₄, hx₁']
  · intro r d hr hd
    have hrlt := hrel r hr
    have hrw : r ≠ weakest := fun h => hwr (h ▸ hr)
    rw [hn₅, hn₄, update_of_ne hrw, hn₃, update_of_ne (by omega),
      hold₂ r (by omega) (by rw [mem_singleton]; omega), hold' r (by omega)]
    exact hrel₁ r d hr (by rw [hold r (by omega), hd])
  · intro q hqw hqr hqo hqa
    rw [hn₅]
    exact hfar q hqw hqr hqo (by rw [hx₁']; exact hqa)

/-! ## Dropping the common OR -/

theorem dropCommonOr_spec (root : Nat) {wk : Nat} {cw : Node κ} {D : Nat → Prop}
    (ho : s.nodes o = some co) (hwk : s.nodes wk = some cw) (hne : wk ≠ o) (hgw : co.parent ≠ wk) (hgo : co.parent ≠ o)
    (hch : co.parent ≠ 0 → ∀ h' : Heap (Data κ), (∀ q c, q ≠ wk → q ≠ o → s.nodes q = some c →
      ∃ c', h' q = some c' ∧ c'.parent = c.parent) → Chain h' co.parent)
    (hD : ∀ h' : Heap (Data κ), (∀ q, q ≠ wk → q ≠ co.parent → q ≠ o → h' q = s.nodes q) →
      h' o = some { co with children := co.children.erase wk } → Shape h' D rank)
    (hDo : D o) (hDw : ¬ D wk) (hDg : ¬ D co.parent) :
    ∃ s', dropCommonOr s root o wk co.parent = some (s', if co.parent = 0 then wk else root) ∧
      s'.nodes wk = some { cw with parent := co.parent } ∧
      (∀ d, co.parent ≠ 0 → s.nodes co.parent = some d →
        s'.nodes co.parent = some { d with children := replaceFirst o wk d.children }) ∧
      ∀ q, ¬ D q → q ≠ wk → q ≠ co.parent → s'.nodes q = s.nodes q := by
  obtain ⟨s₁, h₁, hn₁, -⟩ := setParent_spec hwk co.parent
  -- the parent of the common OR, when there is one, takes the weakest ANDNOT
  have hpar : ∃ s₂, relink s₁ co.parent o wk = some s₂ ∧
      s₂.nodes wk = some { cw with parent := co.parent } ∧
      (∀ d, co.parent ≠ 0 → s.nodes co.parent = some d →
        s₂.nodes co.parent = some { d with children := replaceFirst o wk d.children }) ∧
      ∀ q, q ≠ wk → q ≠ co.parent → s₂.nodes q = s.nodes q := by
    by_cases h0 : co.parent = 0
    · refine ⟨s₁, if_pos h0, by rw [hn₁, update_self], fun d h => absurd h0 h, ?_⟩
      intro q hq _
      rw [hn₁, update_of_ne hq]
    · obtain ⟨d, hd⟩ := (hch h0 s.nodes fun q c _ _ hc => ⟨c, hc, rfl⟩).live
      have hd₁ : s₁.nodes co.parent = some d := by rw [hn₁, update_of_ne hgw, hd]
      have hch₁ : Chain s₁.nodes co.parent := by
        refine hch h0 _ ?_
        intro q c hq _ hc
        exact ⟨c, by rw [hn₁, update_of_ne hq, hc], rfl⟩
      obtain ⟨s₂, h₂, hn₂, -⟩ := withChildren_spec hd₁ hch₁ (replaceFirst o wk)
      refine ⟨s₂, by rw [relink, if_neg h0, h₂], ?_, ?_, ?_⟩
      · rw [hn₂, update_of_ne hgw.symm, hn₁, update_self]
      · intro e _ he
        cases hd.symm.trans he
        rw [hn₂, update_self]
      · intro q hq hqg
        rw [hn₂, update_of_ne hqg, hn₁, update_of_ne hq]
  obtain ⟨s₂, h₂, hwk₂, hg₂, hold₂⟩ := hpar
  have ho₂ : s₂.nodes o = some co := by rw [hold₂ o hne.symm hgo.symm, ho]
  have hch₂ : Chain s₂.nodes o := by
    by_cases h0 : co.parent = 0
    · exact .top ho₂ h0
    · refine .step ho₂ (hch h0 _ ?_)
      intro q c hq _ hc
      by_cases hqg : q = co.parent
      · subst hqg
        exact ⟨_, hg₂ c h0 hc, rfl⟩
      · exact ⟨c, by rw [hold₂ q hq hqg, hc], rfl⟩
  obtain ⟨s₃, h₃, hn₃, -⟩ := removeChild_spec ho₂ hch₂ wk
  have hs₃ : Shape s₃.nodes D rank := by
    refine hD _ ?_ (by rw [hn₃, update_self])
    intro q hq hqg hqo
    rw [hn₃, update_of_ne hqo, hold₂ q hq hqg]
  obtain ⟨s₄, h₄, -, -, hkeep⟩ := delete_spec hs₃ hDo
  have hstay : ∀ q, ¬ D q → s₄.nodes q = s₂.nodes q := by
    intro q hq
    have hqo : q ≠ o := fun h => hq (h ▸ hDo)
    rw [hkeep q fun hb => hq (hs₃.below_mem hDo hb), hn₃, update_of_ne hqo]
  refine ⟨s₄, ?_, ?_, ?_, ?_⟩
  · simp only [dropCommonOr, h₁, h₂, h₃, h₄, bind_eq_bind, bind_some]
    rfl
  · rw [hstay wk hDw, hwk₂]
  · intro d h0 hd
    rw [hstay _ hDg, hg₂ d h0 hd]
  · intro q hq hqw hqg
    rw [hstay q hq, hold₂ q hqw hqg]

/-! ## What the rule leaves -/

variable {q : Nat}

section Rewrite

variable {w : Nat}

/-- The old nodes under the new ones: the NOT of the weakest branch and the related nodes, each with what is below it. -/
def Kept (s : Store κ) (a nt : Nat → Nat) (similar : List Nat) (w q : Nat) : Prop :=
  Below s.nodes (nt w) q ∨ ∃ x ∈ similar, Below s.nodes (a x) q

/-- A heap in which the related nodes stand under the hub of the weakest ANDNOT. -/
structure Hub (s : Store κ) (an a nt : Nat → Nat) (similar : List Nat) (w : Nat) (h' : Heap (Data κ)) : Prop where
  hubOr  : h' s.next = some { data := { op := .or }, children := similar.map a, parent := s.next + 1 }
  hubAnd : h' (s.next + 1) = some { data := {}, children := [s.next], parent := an w }
  andNot : ∃ c, h' (an w) = some c ∧ c.data.words = [] ∧ c.data.op = .andNot ∧ c.children = [s.next + 1, nt w]
  moved  : ∀ x ∈ similar, ∀ c, s.nodes (a x) = some c → h' (a x) = some { c with parent := s.next }
  kept   : ∀ q, Kept s a nt similar w q → q ∉ similar.map a → h' q = s.nodes q

variable (hs : Shape s.nodes S rank) (ho : S o) (hB : ∀ x ∈ similar, Branch s.nodes o (an x) (a x) (nt x) x)
  (hw : w ∈ similar)

theorem kept_related (hq : q ∈ similar.map a) : Kept s a nt similar w q := by
  obtain ⟨x, hx, rfl⟩ := mem_map.mp hq
  exact .inr ⟨x, hx, .refl⟩

include hB hw in
theorem kept_below (hq : Kept s a nt similar w q) : ∃ x ∈ similar, Below s.nodes (an x) q := by
  rcases hq with h | ⟨x, hx, h⟩
  · exact ⟨w, hw, (hB w hw).below_nt.trans h⟩
  · exact ⟨x, hx, (hB x hx).below_a.trans h⟩

include hs ho hB hw in
theorem kept_mem (hq : Kept s a nt similar w q) : S q ∧ rank q < rank o := by
  obtain ⟨x, hx, hb⟩ := kept_below hB hw hq
  obtain ⟨hS, hlt⟩ := (hB x hx).mem_an hs ho
  exact ⟨hs.below_mem hS hb, lt_of_le_of_lt (hs.below_le hS hb) hlt⟩

include hs ho hB in
theorem branch_unique {y : Nat} (hx : x ∈ similar) (hy : y ∈ similar) (hbx : Below s.nodes (an x) q)
    (hby : Below s.nodes (an y) q) : y = x := by
  by_contra hne
  have hne' : an y ≠ an x := fun h => hne ((h ▸ hB y hy).an_inj (hB x hx))
  exact (hB y hy).disjoint (hB x hx) hs ho hne' hby hbx

include hs ho hB hw in
theorem not_kept_an {x : Nat} (hx : x ∈ similar) : ¬ Kept s a nt similar w (an x) := by
  rintro (h | ⟨y, hy, h⟩)
  · cases branch_unique hs ho hB hx hw .refl ((hB w hw).below_nt.trans h)
    obtain ⟨hntS, hlt⟩ := (hB w hw).mem_nt hs ho
    exact hs.not_below_of_lt hntS hlt h
  · rw [branch_unique hs ho hB hx hy .refl ((hB y hy).below_a.trans h)] at h
    exact (hB x hx).not_below_a_an hs ho h

include hB in
theorem nodup_related (hnd : similar.Nodup) : (similar.map a).Nodup := by
  refine hnd.map_on ?_
  intro x hx y hy hxy
  obtain ⟨c, hc, -, hpar⟩ := (hB x hx).and
  obtain ⟨d, hd, -, hpar'⟩ := (hB y hy).and
  rw [hxy] at hc
  cases hc.symm.trans hd
  have hby := hB y hy
  rw [← hpar', hpar] at hby
  exact (hB x hx).an_inj hby

include hB hw in
theorem nt_not_related : nt w ∉ similar.map a := by
  intro hmem
  obtain ⟨x, hx, hxw⟩ := mem_map.mp hmem
  obtain ⟨c, hc, hop, -⟩ := (hB x hx).and
  obtain ⟨d, hd, -, hop', -⟩ := (hB w hw).not
  rw [hxw] at hc
  cases hc.symm.trans hd
  rw [hop] at hop'
  cases hop'

variable {h' : Heap (Data κ)}

include hs ho hB hw in
/-- The old nodes keep their values under the hub: what is strictly below one of them is as before. -/
theorem Hub.same_below (hh : Hub s an a nt similar w h') {r : Nat} (hq : Kept s a nt similar w q)
    (hb : Below s.nodes q r) (hne : r ≠ q) : h' r = s.nodes r := by
  have hkept : ∀ r, Below s.nodes q r → Kept s a nt similar w r := by
    intro r hb
    rcases hq with h | ⟨x, hx, h⟩
    · exact .inl (h.trans hb)
    · exact .inr ⟨x, hx, h.trans hb⟩
  refine hh.kept r (hkept r hb) ?_
  -- the parent of a related node is an ANDNOT node, which is not among them
  intro hra
  obtain ⟨x, hx, rfl⟩ := mem_map.mp hra
  obtain ⟨e, he, -, hpar⟩ := (hB x hx).and
  have hup := hs.below_parent (kept_mem hs ho hB hw hq).1 hb hne he
  rw [hpar] at hup
  exact not_kept_an hs ho hB hw hx (hkept _ hup)

include hs ho hB hw in
theorem Hub.now (hh : Hub s an a nt similar w h') (hnd : similar.Nodup) {par : Nat}
    (hpar : ∃ c, h' (an w) = some c ∧ c.parent = par) :
    Now meaning s.nodes S h' par (an w) fun _ E => similar.any (fun x => E (a x)) && !E w := by
  have hmem : ∀ q, Kept s a nt similar w q → S q := fun q hq => (kept_mem hs ho hB hw hq).1
  have hnt : Kept s a nt similar w (nt w) := .inl .refl
  obtain ⟨ct, hct, htw, htop, htkids, htpar⟩ := (hB w hw).not
  have hntlt := s.lt_next hct
  obtain ⟨c, hc, hwords, hop, hkids⟩ := hh.andNot
  obtain ⟨c', hc', rfl⟩ := hpar
  cases hc.symm.trans hc'
  have hor := Now.node (f := meaning) (h := s.nodes) (S := S) (g := fun _ E r => E r) (Nat.ne_of_gt s.start) hh.hubOr
    (nodup_related hB hnd) (by
      intro r hr
      obtain ⟨x, hx, rfl⟩ := mem_map.mp hr
      obtain ⟨d, hd, -⟩ := (hB x hx).and
      have hk : Kept s a nt similar w (a x) := .inr ⟨x, hx, .refl⟩
      exact Now.keep hs (hmem _ hk) hd (hh.moved x hx d hd) fun r hb hne => hh.same_below hs ho hB hw hk hb hne)
  have hand := Now.node (g := fun _ E _ => (similar.map a).any E) (Nat.succ_ne_zero s.next) hh.hubAnd
    (nodup_singleton _) (by
      intro r hr
      cases mem_singleton.mp hr
      refine hor.congr fun v E _ => ?_
      simp only [meaning, isEmpty_nil, if_true, any_map, comp_def, id])
  have htop' := Now.node (g := fun _ E r => if r = nt w then E (nt w) else (similar.map a).any E)
    (hs.ne_zero ((hB w hw).mem_an hs ho).1) hc (by
      rw [hkids]
      refine nodup_cons.mpr ⟨?_, nodup_singleton _⟩
      rw [mem_singleton]
      omega) (by
      intro r hr
      rw [hkids] at hr
      rcases mem_pair.mp hr with rfl | rfl
      · simp only [if_neg (show s.next + 1 ≠ nt w by omega)]
        refine hand.congr fun v E _ => ?_
        simp only [meaning, isEmpty_nil, if_true, map_cons, map_nil, all_cons, all_nil, Bool.and_true, id]
      · simp only [if_true]
        exact Now.keep hs (hmem _ hnt) hct (by rw [hh.kept _ hnt (nt_not_related hB hw), hct, ← htpar])
          fun r hb hne => hh.same_below hs ho hB hw hnt hb hne)
  refine htop'.congr fun v E hE => ?_
  rw [hkids, map_cons, map_singleton, if_neg (show s.next + 1 ≠ nt w by omega), if_pos rfl,
    hE (nt w) ct (hmem _ hnt) hct, htkids, map_singleton]
  simp only [meaning, hwords, hop, htw, htop, isEmpty_nil, if_true, all_cons, all_nil, any_cons, any_nil,
    Bool.or_false, Bool.and_true, id, any_map, comp_def]

/-- The loop over the related nodes has freed nothing but parts of the branches that are not the weakest. -/
structure Loosened (s : Store κ) (o : Nat) (co : Node κ) (an a : Nat → Nat) (similar : List Nat) (w : Nat) (s₁ : Store κ) : Prop where
  next : s₁.next = s.next
  top  : ∃ ks, s₁.nodes o = some { co with children := ks }
  rest : ∀ q, q ≠ o → (∀ x ∈ similar, x ≠ w → Below s.nodes (an x) q → Below s.nodes (a x) q) → s₁.nodes q = s.nodes q

include hs ho hB hw in
theorem kept_safe (hq : Kept s a nt similar w q) (hx : x ∈ similar) (hxw : x ≠ w)
    (hb : Below s.nodes (an x) q) : Below s.nodes (a x) q := by
  rcases hq with h | ⟨y, hy, h⟩
  · exact absurd (branch_unique hs ho hB hx hw hb ((hB w hw).below_nt.trans h)).symm hxw
  · cases branch_unique hs ho hB hx hy hb ((hB y hy).below_a.trans h)
    exact h

include hs ho hB hw in
theorem an_safe (hx : x ∈ similar) (hxw : x ≠ w) : ¬ Below s.nodes (an x) (an w) := by
  intro hb
  have hne : an x ≠ an w := fun h => hxw ((h ▸ hB x hx).an_inj (hB w hw))
  exact (hB x hx).disjoint (hB w hw) hs ho hne hb .refl

include ho hB hw in
theorem Loosened.hub {s₁ : Store κ} (hl : Loosened s o co an a similar w s₁) (hr : Rooted s.nodes S rank root)
    (hco : s.nodes o = some co) :
    ∃ s₂, insertHub s₁ (an w) (similar.map a) = some s₂ ∧ Hub s an a nt similar w s₂.nodes ∧
      (∃ c, s₂.nodes (an w) = some c ∧ c.parent = o) ∧
      ∀ q, q < s.next → q ≠ an w → q ∉ similar.map a → s₂.nodes q = s₁.nodes q := by
  have hs := hr.toShape
  obtain ⟨cw, hcw, hwords, hop, hkids, hpar⟩ := (hB w hw).andNot
  have hold : ∀ q, S q → q < s.next := fun q hq => s.lt_of_mem hs hq
  have hrel : ∀ x ∈ similar, s₁.nodes (a x) = s.nodes (a x) := by
    intro x hx
    refine hl.rest _ ?_ fun y hy hyw hb => kept_safe hs ho hB hw (kept_related (mem_map_of_mem hx)) hy hyw hb
    exact fun h => (hB x hx).not_below_above hs ho (le_refl _) (h ▸ (hB x hx).below_a)
  obtain ⟨hanS, hanlt⟩ := (hB w hw).mem_an hs ho
  have hano : an w ≠ o := fun h => by rw [h] at hanlt; exact lt_irrefl _ hanlt
  have hcw₁ : s₁.nodes (an w) = some cw := by
    rw [hl.rest _ hano fun x hx hxw hb => absurd hb (an_safe hs ho hB hw hx hxw), hcw]
  have hwr : an w ∉ similar.map a := fun h => not_kept_an hs ho hB hw hw (kept_related h)
  have habove : ∀ q, rank o ≤ rank q → q ∉ similar.map a := by
    intro q hle hmem
    obtain ⟨x, hx, rfl⟩ := mem_map.mp hmem
    exact (hB x hx).not_below_above hs ho hle (hB x hx).below_a
  obtain ⟨s₂, h₂, -, hor, hand, hanw, hmoved, hfar⟩ := insertHub_spec hcw₁ hwr (by
    intro r hr
    obtain ⟨x, hx, rfl⟩ := mem_map.mp hr
    obtain ⟨c, hc, -⟩ := (hB x hx).and
    exact ⟨c, by rw [hrel x hx, hc]⟩) (by
    intro h' hh'
    obtain ⟨c', hc', hpar'⟩ := hh' _ cw hwr hcw₁
    refine .step hc' ?_
    rw [hpar', hpar]
    refine chain_above hr ho ?_
    intro q c hq hle hc
    by_cases hqo : q = o
    · subst hqo
      cases hc.symm.trans hco
      obtain ⟨ks, hks⟩ := hl.top
      obtain ⟨c', hc', hpar'⟩ := hh' _ _ (habove q hle) hks
      exact ⟨c', hc', hpar'⟩
    · refine hh' q c (habove q hle) ?_
      rw [hl.rest q hqo fun x hx _ hb => absurd hb ((hB x hx).not_below_above hs ho hle), hc])
  rw [hl.next] at hor hand hanw hmoved hfar
  refine ⟨s₂, h₂, ⟨hor, hand, ⟨_, hanw, hwords, hop, ?_⟩, ?_, ?_⟩, ⟨_, hanw, hpar⟩, ?_⟩
  · rw [hkids]
    rfl
  · intro x hx c hc
    exact hmoved _ c (mem_map_of_mem hx) (by rw [hrel x hx, hc])
  · intro q hq hqr
    obtain ⟨hqS, hqrank⟩ := kept_mem hs ho hB hw hq
    have hqlt := hold q hqS
    have hqan : q ≠ an w := fun h => not_kept_an hs ho hB hw hw (h ▸ hq)
    have hqo : q ≠ o := by
      rintro rfl
      exact lt_irrefl _ hqrank
    rw [hfar q hqan hqr (by omega) (by omega)]
    exact hl.rest q hqo fun x hx hxw hb => kept_safe hs ho hB hw hq hx hxw hb
  · intro q hlt hqan hqr
    exact hfar q hqan hqr (by omega) (by omega)

include hs ho hB in
theorem val_branches {v : κ → Bool} {E : Nat → Bool} (hE : Val s.nodes S (meaning v) E) (hsame : ∀ x ∈ similar, E x = E w) :
    (similar.any (fun x => E (a x)) && !E w) = (similar.map an).any E := by
  have hval : ∀ x ∈ similar, E (an x) = (E (a x) && !E w) := by
    intro x hx
    rw [(hB x hx).val hs ho hE, hsame x hx]
  rw [Bool.eq_iff_iff]
  simp only [any_map, any_eq_true, Bool.and_eq_true, Function.comp_apply]
  constructor
  · rintro ⟨⟨x, hx, hxE⟩, hwE⟩
    exact ⟨x, hx, by rw [hval x hx, hxE, hwE]; rfl⟩
  · rintro ⟨x, hx, hxE⟩
    rw [hval x hx, Bool.and_eq_true] at hxE
    exact ⟨⟨x, hx, hxE.1⟩, hxE.2⟩

include hB in
theorem nodup_an (hnd : similar.Nodup) : (similar.map an).Nodup :=
  hnd.map_on fun x hx y hy hxy => (hxy ▸ hB x hx).an_inj (hB y hy)

include hB in
theorem child_of_top (hco : s.nodes o = some co) (hx : x ∈ similar) : an x ∈ co.children := by
  obtain ⟨c, hc, -, -, hmem⟩ := (hB x hx).top
  cases hco.symm.trans hc
  exact hmem

include hs ho hB hw in
/-- The common OR stays: it keeps the weakest ANDNOT and the children that took no part. -/
theorem rep_keepOr {s₂ : Store κ} (hr : Rooted s.nodes S rank root) (hco : s.nodes o = some co) (hnd : similar.Nodup)
    (hh : Hub s an a nt similar w s₂.nodes) (han : ∃ c, s₂.nodes (an w) = some c ∧ c.parent = o)
    (htop : s₂.nodes o = some { co with children := co.children.filter fun r => r ∉ (similar.erase w).map an })
    (hout : ∀ q, S q → q ≠ o → (∀ x ∈ similar, ¬ Below s.nodes (an x) q) → s₂.nodes q = s.nodes q)
    (hsame : ∀ v E, Val s.nodes S (meaning v) E → ∀ x ∈ similar, E x = E w) :
    ∃ t', Rep s₂.nodes 0 root t' ∧ ∀ v E, Val s.nodes S (meaning v) E → Query.matches v t' = E root := by
  have hperm : (similar.map an).Perm (an w :: (similar.erase w).map an) := (perm_cons_erase hw).map an
  obtain ⟨c, hc, hwords, hop, -⟩ := (hB w hw).top
  cases hco.symm.trans hc
  obtain ⟨t', ht', -, hval⟩ := rep_merge hr ho hco hwords hop (K := similar.map an) (by
      intro r hr'
      obtain ⟨x, hx, rfl⟩ := mem_map.mp hr'
      exact child_of_top hB hco hx) (nodup_an hB hnd) hperm
    ((hh.now hs ho hB hw hnd han).congr fun v E hE => val_branches hs ho hB hE (hsame v E hE)) htop (by
      intro q hq hqo hno
      exact hout q hq hqo fun x hx => hno _ (mem_map_of_mem hx))
  exact ⟨t', ht', hval⟩

include hs ho hB hw in
/-- The common OR had no other children: the weakest ANDNOT takes its place. -/
theorem rep_dropOr {s₃ : Store κ} (hr : Rooted s.nodes S rank root) (hco : s.nodes o = some co) (hnd : similar.Nodup)
    (hh : Hub s an a nt similar w s₃.nodes) (han : ∃ c, s₃.nodes (an w) = some c ∧ c.parent = co.parent)
    (hall : co.children.Perm (similar.map an))
    (hout : ∀ q d, s.nodes q = some d → S q → ¬ Below s.nodes o q → s₃.nodes q = some { d with
      children := if q = co.parent then d.children.map fun x => if x = o then an w else x else d.children })
    (hsame : ∀ v E, Val s.nodes S (meaning v) E → ∀ x ∈ similar, E x = E w) :
    ∃ t', Rep s₃.nodes 0 (Splice.newRoot root o (an w)) t' ∧
      ∀ v E, Val s.nodes S (meaning v) E → Query.matches v t' = E root := by
  obtain ⟨t, ht, hte⟩ := hh.now hs ho hB hw hnd han
  obtain ⟨t', ht', hval⟩ := hr.replant ho hco ht (fun _ => .step .refl hco (child_of_top hB hco hw)) hout
  refine ⟨t', ht', fun v E hE => hval Bool _ E (fun q c hq hc => hE q c hq.1 hc) ?_⟩
  obtain ⟨c, hc, hwords, hop, -⟩ := (hB w hw).top
  cases hco.symm.trans hc
  refine (hte v E hE).trans ((val_branches hs ho hB hE (hsame v E hE)).trans ?_)
  rw [hE o co ho hco]
  simp only [meaning, hwords, hop, isEmpty_nil, if_true, any_map, comp_def, id]
  rw [hall.any_eq, any_map]
  rfl

theorem Hub.congr {h'' : Heap (Data κ)} (hh : Hub s an a nt similar w h')
    (hnew : ∀ q, q = s.next ∨ q = s.next + 1 ∨ Kept s a nt similar w q → h'' q = h' q)
    (han : ∀ c, h' (an w) = some c → ∃ par, h'' (an w) = some { c with parent := par }) :
    Hub s an a nt similar w h'' where
  hubOr := by rw [hnew _ (.inl rfl), hh.hubOr]
  hubAnd := by rw [hnew _ (.inr (.inl rfl)), hh.hubAnd]
  andNot := by
    obtain ⟨c, hc, hwords, hop, hkids⟩ := hh.andNot
    obtain ⟨par, hc'⟩ := han c hc
    exact ⟨_, hc', hwords, hop, hkids⟩
  moved x hx c hc := by rw [hnew _ (.inr (.inr (.inr ⟨x, hx, .refl⟩))), hh.moved x hx c hc]
  kept q hq hqr := by rw [hnew q (.inr (.inr hq)), hh.kept q hq hqr]

include ho hB hw in
/-- The rule on an OR node with more than two children. -/
theorem run_keepOr (hr : Rooted s.nodes S rank root) (hco : s.nodes o = some co) (hnd : similar.Nodup)
    (hsame : ∀ v E, Val s.nodes S (meaning v) E → ∀ x ∈ similar, E x = E w) :
    ∃ s₁ s₂ t', ((similar.erase w).map a).foldlM (detachRelated o true) s = some s₁ ∧
      insertHub s₁ (an w) (similar.map a) = some s₂ ∧ Rep s₂.nodes 0 root t' ∧
      ∀ v E, Val s.nodes S (meaning v) E → Query.matches v t' = E root := by
  have hs := hr.toShape
  have hinit : Detached s o co an a [] s := by
    refine ⟨rfl, ?_, fun _ _ _ => rfl⟩
    rw [hco]
    simp
  obtain ⟨s₁, h₁, hd⟩ := foldlM_run (fun hd hdone hx hnew => hd.step hr ho hco hB hdone hx hnew) hinit
    (fun x hx => mem_of_mem_erase hx) (hnd.erase w)
  rw [← foldlM_map] at h₁
  have hl : Loosened s o co an a similar w s₁ := by
    refine ⟨hd.next, ⟨_, hd.top⟩, ?_⟩
    intro q hqo hq
    refine hd.other q hqo ?_
    intro x hx hb
    obtain ⟨hxw, hxs⟩ := hnd.mem_erase_iff.mp hx
    exact hq x hxs hxw hb
  obtain ⟨s₂, h₂, hh, han, hfar⟩ := hl.hub ho hB hw hr hco
  have hfar' : ∀ q, S q → (∀ x ∈ similar, ¬ Below s.nodes (an x) q) → s₂.nodes q = s₁.nodes q := by
    intro q hq hout
    refine hfar q (s.lt_of_mem hs hq) (fun h => hout w hw (h ▸ .refl)) ?_
    intro hmem
    obtain ⟨x, hx, rfl⟩ := mem_map.mp hmem
    exact hout x hx (hB x hx).below_a
  have htop : s₂.nodes o = some { co with children := co.children.filter fun r => r ∉ (similar.erase w).map an } := by
    rw [hfar' o ho fun x hx => (hB x hx).not_below_above hs ho (le_refl _), hd.top]
  obtain ⟨t', ht', hval⟩ := rep_keepOr hs ho hB hw hr hco hnd hh han htop (by
    intro q hq hqo hout
    rw [hfar' q hq hout]
    exact hl.rest q hqo fun x hx _ hb => absurd hb (hout x hx)) hsame
  exact ⟨s₁, s₂, t', h₁, h₂, ht', hval⟩

section Drop

variable {y : Nat} (hys : y ∈ similar) (hyw : y ≠ w)

/-- The nodes that are freed with the common OR: itself, the other ANDNOT and the NOT below that. -/
def Freed (s : Store κ) (o an nt q : Nat) : Prop := q = o ∨ q = an ∨ Below s.nodes nt q

include hs ho hB hys

theorem freed_mem (hq : Freed s o (an y) (nt y) q) : S q ∧ rank q ≤ rank o := by
  obtain ⟨hanS, hanlt⟩ := (hB y hys).mem_an hs ho
  obtain ⟨hntS, hntlt⟩ := (hB y hys).mem_nt hs ho
  rcases hq with rfl | rfl | hb
  · exact ⟨ho, le_refl _⟩
  · exact ⟨hanS, le_of_lt hanlt⟩
  · exact ⟨hs.below_mem hntS hb, by have := hs.below_le hntS hb; omega⟩

include hw hyw

theorem not_freed_an : ¬ Freed s o (an y) (nt y) (an w) := by
  obtain ⟨-, hanlt⟩ := (hB w hw).mem_an hs ho
  rintro (h | h | h)
  · exact Nat.ne_of_lt hanlt (congrArg rank h)
  · exact hyw ((h ▸ hB y hys).an_inj (hB w hw))
  · exact an_safe hs ho hB hw hys hyw ((hB y hys).below_nt.trans h)

theorem not_freed_kept (hq : Kept s a nt similar w q) : ¬ Freed s o (an y) (nt y) q := by
  rintro (rfl | rfl | hb)
  · exact lt_irrefl _ (kept_mem hs ho hB hw hq).2
  · exact not_kept_an hs ho hB hw hys hq
  · exact (hB y hys).not_below_both hs ho (kept_safe hs ho hB hw hq hys hyw ((hB y hys).below_nt.trans hb)) hb

omit hs ho hB hys hw hyw

/-- The hub stands, and the ANDNOT of `y` has lost its related node. -/
structure Hubbed (s : Store κ) (S : Nat → Prop) (o : Nat) (an a nt : Nat → Nat) (similar : List Nat) (w y : Nat)
    (s₂ : Store κ) : Prop where
  hub   : Hub s an a nt similar w s₂.nodes
  husk  : ∃ c : Node κ, s₂.nodes (an y) = some { c with children := [nt y] } ∧ c.parent = o
  other : ∀ q, S q → q ≠ an w → q ≠ an y → q ∉ similar.map a → s₂.nodes q = s.nodes q

include ho hB hw hys hyw in
theorem run_hubbed (hr : Rooted s.nodes S rank root) (hco : s.nodes o = some co) :
    ∃ s₁ s₂, detachRelated o false s (a y) = some s₁ ∧ insertHub s₁ (an w) (similar.map a) = some s₂ ∧
      Hubbed s S o an a nt similar w y s₂ := by
  have hs := hr.toShape
  have hby := hB y hys
  obtain ⟨hanS, hanlt⟩ := hby.mem_an hs ho
  obtain ⟨ca, hca, -, hapar⟩ := hby.and
  obtain ⟨cn, hcn, -, -, hnkids, hnpar⟩ := hby.andNot
  obtain ⟨s₁, h₁, hn₁, hx₁⟩ := removeChild_spec hcn (hr.chain hanS) (a y)
  rw [hnkids, erase_cons_head] at hn₁
  have hano : o ≠ an y := fun h => Nat.ne_of_lt hanlt (congrArg rank h).symm
  have hl : Loosened s o co an a similar w s₁ := by
    refine ⟨hx₁, ⟨co.children, by rw [hn₁, update_of_ne hano, hco]⟩, ?_⟩
    intro q _ hq
    rw [hn₁, update_of_ne]
    rintro rfl
    exact hby.not_below_a_an hs ho (hq y hys hyw .refl)
  obtain ⟨s₂, h₂, hh, -, hfar⟩ := hl.hub ho hB hw hr hco
  refine ⟨s₁, s₂, ?_, h₂, hh, ⟨cn, ?_, hnpar⟩, fun q hq hqw hqy hqr => ?_⟩
  · simp only [detachRelated, hca, hapar, h₁, bind_eq_bind, bind_some, Bool.false_eq_true, if_false]
    rfl
  · have hanne : an y ≠ an w := fun h => hyw ((h ▸ hby).an_inj (hB w hw))
    rw [hfar _ (s.lt_next hcn) hanne fun h => not_kept_an hs ho hB hw hys (kept_related h), hn₁, update_self]
  · rw [hfar q (s.lt_of_mem hs hq) hqw hqr, hn₁, update_of_ne hqy]

section Hubbed

variable {s₂ : Store κ} (hh : Hubbed s S o an a nt similar w y s₂)

include hs ho hB hw hys hh in
theorem Hubbed.above (hq : S q) (hle : rank o ≤ rank q) : q ≠ an w ∧ s₂.nodes q = s.nodes q := by
  have hne : ∀ x ∈ similar, q ≠ an x := by
    rintro x hx rfl
    exact Nat.not_lt_of_le hle ((hB x hx).mem_an hs ho).2
  refine ⟨hne w hw, hh.other q hq (hne w hw) (hne y hys) fun hmem => ?_⟩
  obtain ⟨x, hx, rfl⟩ := mem_map.mp hmem
  exact (hB x hx).not_below_above hs ho hle (hB x hx).below_a

include ho hB hw hys hyw hh in
/-- What is freed is a tree of its own once the weakest ANDNOT has left the common OR. -/
theorem Hubbed.shape_freed (hr : Rooted s.nodes S rank root) (hco : s.nodes o = some co)
    (hkids : ∀ r ∈ co.children, r = an w ∨ r = an y) {h' : Heap (Data κ)}
    (hsame : ∀ q, q ≠ an w → q ≠ co.parent → q ≠ o → h' q = s₂.nodes q)
    (ho' : h' o = some { co with children := co.children.erase (an w) }) : Shape h' (Freed s o (an y) (nt y)) rank := by
  have hs := hr.toShape
  have hby := hB y hys
  obtain ⟨-, hanlt⟩ := hby.mem_an hs ho
  obtain ⟨hntS, hntlt⟩ := hby.mem_nt hs ho
  have hfreed : ∀ q, Freed s o (an y) (nt y) q → q ≠ o → h' q = s₂.nodes q ∧ q ≠ an w := by
    intro q hq hqo
    have hqw : q ≠ an w := fun h => not_freed_an hs ho hB hw hys hyw (h ▸ hq)
    obtain ⟨hqS, hqle⟩ := freed_mem hs ho hB hys hq
    exact ⟨hsame q hqw (hr.parent_ne ho hco hqS hqle).symm hqo, hqw⟩
  obtain ⟨cn, hcn, hnpar⟩ := hh.husk
  have hano : an y ≠ o := fun h => Nat.ne_of_lt hanlt (congrArg rank h)
  have hany' : h' (an y) = some { cn with children := [nt y] } := by rw [(hfreed _ (.inr (.inl rfl)) hano).1, hcn]
  have hhusk := shape_husk hby hs ho hany' fun q hb => by
    have hlt : rank q < rank (an y) := lt_of_le_of_lt (hs.below_le hntS hb) hntlt
    have hq : Freed s o (an y) (nt y) q := .inr (.inr hb)
    obtain ⟨h1, hqw⟩ := hfreed q hq fun h => by rw [h] at hlt; omega
    rw [h1]
    exact hh.other q (hs.below_mem hntS hb) hqw (fun h => Nat.ne_of_lt hlt (congrArg rank h)) fun h =>
      not_freed_kept hs ho hB hw hys hyw (kept_related h) hq
  refine hhusk.cons (hs.ne_zero ho) ho' ((hs.nodup o co ho hco).erase _) ?_
  intro r hr'
  obtain ⟨hrw, hrc⟩ := (hs.nodup o co ho hco).mem_erase_iff.mp hr'
  cases (hkids r hrc).resolve_left hrw
  exact ⟨.inl rfl, hanlt, _, hany', hnpar⟩

include ho hB hw hys hyw hh in
theorem Hubbed.drop (hr : Rooted s.nodes S rank root) (hco : s.nodes o = some co)
    (hkids : ∀ r ∈ co.children, r = an w ∨ r = an y) :
    ∃ s₃, dropCommonOr s₂ root o (an w) co.parent = some (s₃, if co.parent = 0 then an w else root) ∧
      Hub s an a nt similar w s₃.nodes ∧ (∃ c, s₃.nodes (an w) = some c ∧ c.parent = co.parent) ∧
      (∀ d, co.parent ≠ 0 → s₂.nodes co.parent = some d →
        s₃.nodes co.parent = some { d with children := replaceFirst o (an w) d.children }) ∧
      ∀ q, ¬ Freed s o (an y) (nt y) q → q ≠ an w → q ≠ co.parent → s₃.nodes q = s₂.nodes q := by
  have hs := hr.toShape
  obtain ⟨hanwS, hanwlt⟩ := (hB w hw).mem_an hs ho
  obtain ⟨cw, hcw, -⟩ := hh.hub.andNot
  have hgne : ∀ {q}, S q → rank q ≤ rank o → co.parent ≠ q := hr.parent_ne ho hco
  have hmem := fun q => @freed_mem _ _ _ _ _ _ _ _ _ q hs ho hB y hys
  have ho₂ : s₂.nodes o = some co := (hh.above hs ho hB hw hys ho (le_refl _)).2.trans hco
  obtain ⟨s₃, h₃, hcw₃, hg₃, hstay⟩ := dropCommonOr_spec root ho₂ hcw (fun h => Nat.ne_of_lt hanwlt (congrArg rank h))
    (hgne hanwS (le_of_lt hanwlt)) (hgne ho (le_refl _)) (by
      intro h0 h' hh'
      obtain ⟨hgS, hglt, -⟩ := hr.parent_mem ho hco h0
      refine chain_above hr hgS fun q c hq hle hc => ?_
      obtain ⟨hqw, hq₂⟩ := hh.above hs ho hB hw hys hq (le_trans (le_of_lt hglt) hle)
      refine hh' q c hqw ?_ (hq₂.trans hc)
      rintro rfl
      exact Nat.not_lt_of_le hle hglt) (fun h' => hh.shape_freed ho hB hw hys hyw hr hco hkids) (.inl rfl)
    (not_freed_an hs ho hB hw hys hyw) fun hd => hgne (hmem _ hd).1 (hmem _ hd).2 rfl
  have hnew : ∀ q, s.next ≤ q → s₃.nodes q = s₂.nodes q := by
    intro q hle
    have hnS : ¬ S q := fun hq => Nat.not_lt_of_le hle (s.lt_of_mem hs hq)
    refine hstay q (fun hd => hnS (hmem q hd).1) (fun h => hnS (h ▸ hanwS)) ?_
    rintro rfl
    exact hnS (hr.parent_mem ho hco fun h0 => Nat.not_lt_of_le (h0 ▸ hle) s.start).1
  refine ⟨s₃, h₃, hh.hub.congr ?_ fun c hc => ?_, ⟨_, hcw₃, rfl⟩, hg₃, hstay⟩
  · rintro q (rfl | rfl | hq)
    · exact hnew _ (le_refl _)
    · exact hnew _ (Nat.le_succ _)
    · obtain ⟨hqS, hqlt⟩ := kept_mem hs ho hB hw hq
      exact hstay q (not_freed_kept hs ho hB hw hys hyw hq) (fun h => not_kept_an hs ho hB hw hw (h ▸ hq))
        (hgne hqS (le_of_lt hqlt)).symm
  · cases hcw.symm.trans hc
    exact ⟨_, hcw₃⟩

end Hubbed

end Drop

include ho hB hw in
/-- The rule on an OR node with the branches of `w` and of `y` and nothing else. -/
theorem run_dropOr (hr : Rooted s.nodes S rank root) (hco : s.nodes o = some co) (hnd : similar.Nodup) {y : Nat}
    (hy : similar.erase w = [y]) (hall : co.children.Perm (similar.map an))
    (hsame : ∀ v E, Val s.nodes S (meaning v) E → ∀ x ∈ similar, E x = E w) :
    ∃ s₁ s₂ s₃ t', ((similar.erase w).map a).foldlM (detachRelated o false) s = some s₁ ∧
      insertHub s₁ (an w) (similar.map a) = some s₂ ∧
      dropCommonOr s₂ root o (an w) co.parent = some (s₃, if co.parent = 0 then an w else root) ∧
      Rep s₃.nodes 0 (if co.parent = 0 then an w else root) t' ∧
      ∀ v E, Val s.nodes S (meaning v) E → Query.matches v t' = E root := by
  have hs := hr.toShape
  obtain ⟨hyw, hys⟩ : y ≠ w ∧ y ∈ similar := hnd.mem_erase_iff.mp (by rw [hy]; exact mem_cons_self)
  have hkids : ∀ r ∈ co.children, r = an w ∨ r = an y := by
    intro r hrc
    obtain ⟨x, hx, rfl⟩ := mem_map.mp (hall.mem_iff.mp hrc)
    by_cases hxw : x = w
    · exact .inl (hxw ▸ rfl)
    · have := hnd.mem_erase_iff.mpr ⟨hxw, hx⟩
      rw [hy] at this
      exact .inr (mem_singleton.mp this ▸ rfl)
  obtain ⟨s₁, s₂, h₁, h₂, hh⟩ := run_hubbed ho hB hw hys hyw hr hco
  obtain ⟨s₃, h₃, hhub, han, hg₃, hstay⟩ := hh.drop ho hB hw hys hyw hr hco hkids
  obtain ⟨t', ht', hval⟩ := rep_dropOr hs ho hB hw hr hco hnd hhub han hall (by
    intro q d hd hq hb
    have hqne : ∀ x ∈ similar, ¬ Below s.nodes (an x) q := by
      intro x hx hbx
      exact hb ((Below.refl.step hco (child_of_top hB hco hx)).trans hbx)
    have hqw : q ≠ an w := fun h => hqne w hw (h ▸ .refl)
    have hq₂ : s₂.nodes q = some d := by
      rw [hh.other q hq hqw (fun h => hqne y hys (h ▸ .refl)), hd]
      intro hmem
      obtain ⟨x, hx, rfl⟩ := mem_map.mp hmem
      exact hqne x hx (hB x hx).below_a
    by_cases hqg : q = co.parent
    · subst hqg
      rw [if_pos rfl, hg₃ d (hs.ne_zero hq) hq₂, replaceFirst_eq_map (hs.nodup _ d hq hd)]
    · rw [if_neg hqg, hstay q ?_ hqw hqg, hq₂]
      rintro (rfl | rfl | hbq)
      · exact hb .refl
      · exact hqne y hys .refl
      · exact hqne y hys ((hB y hys).below_nt.trans hbq)) hsame
  rw [hr.newRoot_eq ho hco] at ht'
  refine ⟨s₁, s₂, s₃, t', ?_, h₂, h₃, ht', hval⟩
  rw [hy, map_singleton, foldlM_cons, h₁]
  rfl

theorem makeTransformCommonNot_spec (hr : Rooted s.nodes S rank root) (ho : S o) (hco : s.nodes o = some co)
    (hB : ∀ x ∈ similar, Branch s.nodes o (an x) (a x) (nt x) x) (hnd : similar.Nodup) (h2 : 2 ≤ similar.length)
    (hsame : ∀ v E, Val s.nodes S (meaning v) E → ∀ x ∈ similar, ∀ y ∈ similar, E x = E y) :
    ∃ s' root' t', makeTransformCommonNot s root similar (similar.map a) = some (s', root') ∧ Rep s'.nodes 0 root' t' ∧
      ∀ v E, Val s.nodes S (meaning v) E → Query.matches v t' = E root := by
  obtain ⟨i, w, hi, hiw, hw⟩ := getWeakestIndex_spec s (show similar ≠ [] by
    rintro rfl
    exact absurd h2 (by decide)) (by
    intro x hx
    obtain ⟨c, hc, -⟩ := (hB x hx).arg
    exact ⟨c, hc⟩)
  have hrel : (similar.map a)[i]? = some (a w) := by rw [getElem?_map, hiw, Option.map_some]
  obtain ⟨hlt, hwi⟩ := List.getElem?_eq_some_iff.mp hiw
  have hrest : (similar.map a).eraseIdx i = (similar.erase w).map a := by
    rw [eraseIdx_map, ← hwi, hnd.erase_getElem]
  obtain ⟨ca, hca, -, hapar⟩ := (hB w hw).and
  obtain ⟨cn, hcn, -, -, -, hnpar⟩ := (hB w hw).andNot
  by_cases hlen : 2 < co.children.length
  · obtain ⟨s₁, s₂, t', h₁, h₂, ht', hval⟩ := run_keepOr ho hB hw hr hco hnd fun v E hE x hx => hsame v E hE x hx w hw
    refine ⟨s₂, root, t', ?_, ht', hval⟩
    simp only [makeTransformCommonNot, hi, hrel, hca, hapar, hcn, hnpar, hco, hrest, hlen, decide_true, h₁, h₂,
      bind_eq_bind, bind_some, if_true]
    rfl
  · have hsub : similar.map an ⊆ co.children := by
      intro r hr'
      obtain ⟨x, hx, rfl⟩ := mem_map.mp hr'
      exact child_of_top hB hco hx
    have hperm := (subperm_of_subset (nodup_an hB hnd) hsub).perm_of_length_le (by rw [length_map]; omega)
    have hlen₂ := hperm.length_eq
    rw [length_map] at hlen₂
    obtain ⟨y, hy⟩ := length_eq_one_iff.mp (show (similar.erase w).length = 1 by
      rw [length_erase_of_mem hw]
      omega)
    obtain ⟨s₁, s₂, s₃, t', h₁, h₂, h₃, ht', hval⟩ := run_dropOr ho hB hw hr hco hnd hy
      hperm.symm fun v E hE x hx => hsame v E hE x hx w hw
    refine ⟨s₃, _, t', ?_, ht', hval⟩
    simp only [makeTransformCommonNot, hi, hrel, hca, hapar, hcn, hnpar, hco, hrest, hlen, decide_false, h₁, h₂,
      bind_eq_bind, bind_some, Bool.false_eq_true, if_false]
    exact h₃

/-- **COMMON NOT leaves a tree that matches the same documents.** -/
theorem commonNot_rep {t : Query κ} (ht : Rep s.nodes 0 root t) (hbool : BoolTree s.nodes root)
    (hg : Group s root 3 (checkCommonNot s) similar) :
    ∃ related s' root' t', collectRelatedNodes s 1 2 similar = some related ∧
      makeTransformCommonNot s root similar related = some (s', root') ∧ Rep s'.nodes 0 root' t' ∧
      ∀ v, Query.matches v t' = Query.matches v t := by
  have hr := ht.rooted
  obtain ⟨o, ho, -, hB⟩ := hg.common
    (P := fun o x => ∃ an a nt, Branch s.nodes o an a nt x ∧ grand s 1 x = some nt ∧ grand s 2 x = some an) (by
    intro o x hx hck hkey
    simp only [checkCommonNot, Bool.and_eq_true, beq_iff_eq] at hck
    obtain ⟨o', an, a, nt, hb, ho', h1, h2, h3⟩ := branch_of_not hr hbool (k := 0) (hg.below x hx) rfl hck.1.1.2 hck.1.2 hck.2
    cases h3.symm.trans hkey
    exact ⟨ho', an, a, nt, hb, h1, h2⟩)
  choose! an a nt hB using hB
  obtain ⟨co, hco⟩ := hr.live o ho
  obtain ⟨s', root', t', h', ht', hval⟩ := makeTransformCommonNot_spec hr ho hco (fun x hx => (hB x hx).1) hg.nodup hg.two
    (hg.val hr.toShape)
  exact ⟨_, s', root', t', collectRelated_branches (fun x hx => (hB x hx).1) (fun x hx => (hB x hx).2), h', ht',
    matches_eq_of_val ht hval⟩

end Rewrite

end XQ
end Manticore

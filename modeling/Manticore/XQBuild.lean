import Manticore.Arrays
import Manticore.XQBool
/-!
# XQBuild — taking nodes out of a query tree and building new ones beside it

A rule takes some nodes out of the tree (`Pruned`), and then makes new nodes and copies out of what it has (`Grows`): every
new node stands over trees that have no parent yet, and its value follows from theirs.
-/
namespace Manticore
namespace XQ

open PtrTree
open List
open Arrays (exists_of_forall₂)
open Function (update_of_ne update_self)

variable {κ : Type}

/-- `new XQNode_t`, then `SetOp` with the children. -/
def newOp (s : Store κ) (op : Op) (args : List Nat) : Option (Store κ × Nat) := do
  let s' ← setOpArgs (newNode s) s.next op args
  return (s', s.next)

/-- One step for every node of a list, in order, and the nodes that the steps give. -/
def eachNode (step : Store κ → Nat → Option (Store κ × Nat)) : List Nat → Store κ → Option (Store κ × List Nat)
  | [], s => some (s, [])
  | p :: ps, s => do
    let (s, q) ← step s p
    let (s, qs) ← eachNode step ps s
    return (s, q :: qs)

/-- `Uniq ( sph::stable )`, and the loops that add what is not there yet. -/
def uniq (ps : List Nat) : List Nat := ps.foldl (fun done p => if p ∈ done then done else done ++ [p]) []

theorem uniq_of_nodup {ps : List Nat} (hnd : ps.Nodup) : uniq ps = ps := by
  have hgo : ∀ (ps done : List Nat), (done ++ ps).Nodup →
      ps.foldl (fun done p => if p ∈ done then done else done ++ [p]) done = done ++ ps := by
    intro ps
    induction ps with
    | nil => exact fun done _ => (append_nil done).symm
    | cons p ps ih =>
      intro done hnd
      have hp : p ∉ done := fun h => (nodup_append.mp hnd).2.2 p h p mem_cons_self rfl
      rw [foldl_cons, if_neg hp, ih (done ++ [p]) (by rwa [append_assoc, singleton_append]), append_assoc,
        singleton_append]
  exact hgo ps [] hnd

/-- A node leaves its parent, and is freed unless it is the one that is kept. -/
def cutSimilar (weakest : Nat) (s : Store κ) (x : Nat) : Option (Store κ) := do
  let c ← s.nodes x
  let s ← removeChild s c.parent x
  deleteUnless (x == weakest) s x

/-! ## Pruning -/

variable {D : List Nat} {q : Nat}

/-- The nodes that are not below one of `D` have the parents they had. -/
def KeepsParents (s : Store κ) (S : Nat → Prop) (D : List Nat) (h' : Heap (Data κ)) : Prop :=
  ∀ q c, S q → (∀ x ∈ D, ¬ Below s.nodes x q) → s.nodes q = some c → ∃ c', h' q = some c' ∧ c'.parent = c.parent

theorem chain_kept {s : Store κ} {S : Nat → Prop} {rank : Nat → Nat} {root : Nat} (hr : Rooted s.nodes S rank root)
    (hq : S q) (hD : ∀ x ∈ D, ¬ Below s.nodes x q) {h' : Heap (Data κ)} (hcell : KeepsParents s S D h') : Chain h' q := by
  refine (hr.chain hq).mono (A := fun q => S q ∧ ∀ x ∈ D, ¬ Below s.nodes x q) ⟨hq, hD⟩ ?_
  rintro q c ⟨hq, hD⟩ hc
  refine ⟨hcell q c hq hD hc, fun h0 => ?_⟩
  obtain ⟨hS, -, d, hd, hmem⟩ := hr.parent_mem hq hc h0
  exact ⟨hS, fun x hx hb => hD x hx (hb.step hd hmem)⟩

/-- The nodes of `R` are no children any more, and what was below the nodes of `D` may be gone. -/
structure Pruned (s : Store κ) (S : Nat → Prop) (R D : List Nat) (s' : Store κ) : Prop where
  next : s'.next = s.next
  cell : ∀ q c, S q → (∀ x ∈ D, ¬ Below s.nodes x q) → s.nodes q = some c →
    s'.nodes q = some { c with children := c.children.filter (· ∉ R) }

namespace Pruned

variable {s s₁ : Store κ} {S : Nat → Prop} {rank : Nat → Nat} {root : Nat} {R D : List Nat}

theorem init (s : Store κ) (S : Nat → Prop) : Pruned s S [] [] s where
  next := rfl
  cell q c _ _ hc := by
    rw [hc, filter_eq_self.mpr fun _ _ => decide_eq_true not_mem_nil]

variable {y : Nat} {c : Node κ}

section
variable (hp : Pruned s S R D s₁)
include hp

theorem chain (hr : Rooted s.nodes S rank root) (hq : S q)
    (hD : ∀ x ∈ D, ¬ Below s.nodes x q) : Chain s₁.nodes q :=
  chain_kept hr hq hD fun q c hq hqD hc => ⟨_, hp.cell q c hq hqD hc, rfl⟩

theorem remove (hr : Rooted s.nodes S rank root) (hy : S y)
    (hc : s.nodes y = some c) (h0 : c.parent ≠ 0) (hD : ∀ x ∈ D, ¬ Below s.nodes x c.parent) :
    ∃ s₂, removeChild s₁ c.parent y = some s₂ ∧ Pruned s S (R ++ [y]) D s₂ := by
  obtain ⟨hS, -, d, hd, hmem⟩ := hr.parent_mem hy hc h0
  obtain ⟨s₂, h₂, hn₂, hx₂⟩ := removeChild_spec (hp.cell _ d hS hD hd) (hp.chain hr hS hD) y
  refine ⟨s₂, h₂, hx₂.trans hp.next, ?_⟩
  intro q e hq hqD he
  rw [hn₂]
  by_cases hqp : q = c.parent
  · subst hqp
    cases hd.symm.trans he
    rw [update_self, filter_erase (hr.nodup _ d hS hd)]
  · rw [update_of_ne hqp, hp.cell q e hq hqD he]
    congr 2
    refine filter_congr ?_
    intro z hz
    have hzy : z ≠ y := by
      rintro rfl
      obtain ⟨-, -, c', hc', hpar⟩ := hr.kids q e hq he z hz
      cases hc.symm.trans hc'
      exact hqp hpar.symm
    simp [hzy]

theorem shape (hs : Shape s.nodes S rank) {B : Nat → Prop} (hB : ∀ q, B q → S q)
    (hD : ∀ q, B q → ∀ x ∈ D, ¬ Below s.nodes x q)
    (hclosed : ∀ q c, B q → s.nodes q = some c → ∀ r ∈ c.children, r ∉ R → B r) : Shape s₁.nodes B rank := by
  refine hs.thin hB ?_
  intro q c hq hc
  refine ⟨_, hp.cell q c (hB q hq) (hD q hq) hc, (hs.nodup q c (hB q hq) hc).filter _, ?_⟩
  intro r hr
  obtain ⟨hrc, hrR⟩ := mem_filter.mp hr
  have hrB := hclosed q c hq hc r hrc (by simpa using hrR)
  exact ⟨hrc, hrB, fun d hd => ⟨_, hp.cell r d (hB r hrB) (hD r hrB) hd, rfl⟩⟩

theorem drop (hr : Rooted s.nodes S rank root) {x : Nat} (hx : S x)
    (hD : ∀ d ∈ D, ∀ q, Below s.nodes x q → ¬ Below s.nodes d q) :
    ∃ s₂, delete s₁ x = some s₂ ∧ Pruned s S R (D ++ [x]) s₂ := by
  have hs := hr.toShape
  have hshape : Shape s₁.nodes (Below s.nodes x) rank :=
    hp.shape hs (fun q hq => hs.below_mem hx hq) (fun q hq d hd => hD d hd q hq) fun q c hq hc r hr _ => hq.step hc hr
  obtain ⟨s₂, h₂, hx₂, -, hkeep⟩ := delete_spec hshape (p := x) .refl
  refine ⟨s₂, h₂, hx₂.trans hp.next, ?_⟩
  intro q c hq hqD hc
  have hqx : ¬ Below s.nodes x q := hqD x (List.mem_append.mpr (.inr mem_cons_self))
  rw [hkeep q fun hb => hqx (hshape.below_mem .refl hb)]
  exact hp.cell q c hq (fun d hd => hqD d (List.mem_append.mpr (.inl hd))) hc

theorem same (hq : S q) (hD : ∀ x ∈ D, ¬ Below s.nodes x q)
    (hc : s.nodes q = some c) (hR : ∀ x ∈ c.children, x ∉ R) : s₁.nodes q = s.nodes q := by
  rw [hp.cell q c hq hD hc, hc, filter_eq_self.mpr fun x hx => decide_eq_true (hR x hx)]

end

end Pruned

/-! ### The equal nodes of a group -/

variable {r : Nat} {R : List Nat} {s₁ : Store κ}

section Cut

variable {s : Store κ} {S : Nat → Prop} {rank : Nat → Nat} {root o w : Nat} {similar : List Nat}

/-- The nodes of `xs` are inner nodes of the tree at `o`, none below another. -/
structure Apart (s : Store κ) (o : Nat) (xs : List Nat) : Prop where
  nodup  : xs.Nodup
  below  : ∀ x ∈ xs, Below s.nodes o x ∧ x ≠ o
  unique : ∀ x ∈ xs, ∀ y ∈ xs, ∀ q, Below s.nodes x q → Below s.nodes y q → x = y

namespace Apart

variable {x : Nat} (ha : Apart s o similar) (hs : Shape s.nodes S rank) (ho : S o) (hx : x ∈ similar)
include ha hs ho hx

theorem mem : S x := hs.below_mem ho (ha.below x hx).1

theorem parent :
    ∃ c d, s.nodes x = some c ∧ Below s.nodes o c.parent ∧ s.nodes c.parent = some d ∧ x ∈ d.children ∧ c.parent ≠ 0 ∧
      rank x < rank c.parent := by
  obtain ⟨hb, hne⟩ := ha.below x hx
  cases hb with
  | refl => exact absurd rfl hne
  | step hb hd hmem =>
    obtain ⟨hS, hlt, c, hc, hpar⟩ := hs.kids _ _ (hs.below_mem ho hb) hd x hmem
    subst hpar
    exact ⟨c, _, hc, hb, hd, hmem, hs.ne_zero (hs.below_mem ho hb), hlt⟩

theorem not_below_parent {y : Nat} {c : Node κ} (hy : y ∈ similar) (hc : s.nodes x = some c) : ¬ Below s.nodes y c.parent := by
  intro hb
  obtain ⟨c', d, hc', -, hd, hmem, -, hlt⟩ := ha.parent hs ho hx
  cases hc.symm.trans hc'
  cases ha.unique x hx y hy x .refl (hb.step hd hmem)
  exact hs.not_below_of_lt (ha.mem hs ho hx) hlt hb

theorem not_child {y : Nat} {c : Node κ} (hr : Below s.nodes x r) (hc : s.nodes r = some c) (hy : y ∈ c.children) : y ∉ similar := by
  intro hys
  obtain ⟨-, -, d, hd, hpar⟩ := hs.kids r c (hs.below_mem (ha.mem hs ho hx) hr) hc y hy
  exact ha.not_below_parent hs ho hys hx hd (hpar ▸ hr)

end Apart

theorem cutSimilar_step (hr : Rooted s.nodes S rank root) (ho : S o) (ha : Apart s o similar)
    (hp : Pruned s S R D s₁) (hD : ∀ d ∈ D, d ∈ similar) {x : Nat} (hx : x ∈ similar) (hnew : x ∉ D) :
    ∃ s₂, cutSimilar w s₁ x = some s₂ ∧ Pruned s S (R ++ [x]) (if x = w then D else D ++ [x]) s₂ := by
  have hs := hr.toShape
  obtain ⟨c, d, hc, hb, hd, hmem, h0, hlt⟩ := ha.parent hs ho hx
  have hxS := ha.mem hs ho hx
  have hcell := hp.cell x c hxS (fun y hy hb => hnew (ha.unique x hx y (hD y hy) x .refl hb ▸ hy)) hc
  obtain ⟨s₂, h₂, hp₂⟩ := hp.remove hr hxS hc h0 fun y hy => ha.not_below_parent hs ho hx (hD y hy) hc
  have hstep : ∀ s₃, deleteUnless (x == w) s₂ x = some s₃ → cutSimilar w s₁ x = some s₃ := by
    intro s₃ h₃
    simp only [cutSimilar, hcell, h₂, Option.bind_eq_bind, Option.bind_some]
    exact h₃
  by_cases hxw : x = w
  · rw [if_pos hxw]
    exact ⟨s₂, hstep s₂ (by rw [deleteUnless, if_pos (by simpa using hxw)]), hp₂⟩
  · rw [if_neg hxw]
    obtain ⟨s₃, h₃, hp₃⟩ := hp₂.drop hr hxS fun y hy q hxq hyq => hnew (ha.unique x hx y (hD y hy) q hxq hyq ▸ hy)
    exact ⟨s₃, hstep s₃ (by rw [deleteUnless, if_neg (by simpa using hxw), h₃]), hp₃⟩

theorem filter_ne_snoc (done : List Nat) (x w : Nat) :
    (if x = w then done.filter (· ≠ w) else done.filter (· ≠ w) ++ [x]) = (done ++ [x]).filter (· ≠ w) := by
  split
  · rename_i h
    simp [h]
  · rename_i h
    simp [h]

theorem cutSimilar_run (hr : Rooted s.nodes S rank root) (ho : S o) (ha : Apart s o similar) (w : Nat) :
    ∃ s₂, similar.foldlM (cutSimilar w) s = some s₂ ∧ Pruned s S similar (similar.filter (· ≠ w)) s₂ := by
  refine foldlM_run (I := fun done => Pruned s S done (done.filter (· ≠ w))) ?_ (Pruned.init s S) (fun _ h => h) ha.nodup
  intro done s₁ x hp hdone hx hnew
  rw [← filter_ne_snoc]
  exact cutSimilar_step hr ho ha hp (fun d hd => hdone d (mem_filter.mp hd).1) hx fun h => hnew (mem_filter.mp h).1

/-- What is left below `o`, and the one equal node that is kept with its own. -/
def Rest (s : Store κ) (o w : Nat) (similar : List Nat) (q : Nat) : Prop :=
  Below s.nodes o q ∧ (∀ x ∈ similar, ¬ Below s.nodes x q) ∨ Below s.nodes w q

section
variable {q : Nat} (ha : Apart s o similar) (hw : w ∈ similar) (hq : Rest s o w similar q)
include ha hw hq

theorem Rest.below : Below s.nodes o q := by
  rcases hq with h | h
  · exact h.1
  · exact (ha.below w hw).1.trans h

theorem Rest.kept :
    ∀ x ∈ similar.filter (· ≠ w), ¬ Below s.nodes x q := by
  intro x hx hb
  obtain ⟨hx, hxw⟩ := mem_filter.mp hx
  rcases hq with h | h
  · exact h.2 x hx hb
  · exact of_decide_eq_true hxw (ha.unique x hx w hw q hb h)

end

theorem Rest.child (ha : Apart s o similar) (hs : Shape s.nodes S rank) (ho : S o) {c : Node κ}
    (hq : Rest s o w similar q) (hc : s.nodes q = some c) (hr : r ∈ c.children) (hrR : r ∉ similar) : Rest s o w similar r := by
  rcases hq with ⟨hb, hno⟩ | hb
  · refine .inl ⟨hb.step hc hr, fun x hx hxr => hno x hx ?_⟩
    obtain ⟨-, -, d, hd, hpar⟩ := hs.kids q c (hs.below_mem ho hb) hc r hr
    have hrx : r ≠ x := fun h => hrR (h ▸ hx)
    exact hpar ▸ hs.below_parent (ha.mem hs ho hx) hxr hrx hd
  · exact .inr (hb.step hc hr)

section
variable (hs : Shape s.nodes S rank) (ho : S o) (ha : Apart s o similar) (hw : w ∈ similar)
  (hp : Pruned s S R (similar.filter (· ≠ w)) s₁) (hsub : ∀ x ∈ similar, x ∈ R) (hq : Rest s o w similar q)
  (hR : ∀ r c, Below s.nodes q r → s.nodes r = some c → ∀ x ∈ c.children, x ∉ R)
include hs ho ha hw hp hsub hq hR

/-- Where no equal node was taken out the nodes are as before. -/
theorem Pruned.same_rest (hqr : Below s.nodes q r) : s₁.nodes r = s.nodes r := by
  have hrest : Rest s o w similar r := by
    induction hqr with
    | refl => exact hq
    | step hb hc hmem ih => exact ih.child ha hs ho hc hmem fun h => hR _ _ hb hc _ hmem (hsub _ h)
  have hrS := hs.below_mem ho (hrest.below ha hw)
  obtain ⟨c, hc⟩ := hs.live r hrS
  exact hp.same hrS (hrest.kept ha hw) hc (hR r c hqr hc)

theorem Pruned.now_rest {h' : Heap (Data κ)} {c : Node κ} (hc : s.nodes q = some c)
    (hold : ∀ r d, Below s.nodes q r → s₁.nodes r = some d → h' r = some d) :
    Now meaning s.nodes S h' c.parent q fun _ E => E q := by
  have hqS := hs.below_mem ho (hq.below ha hw)
  have hsame : ∀ r, Below s.nodes q r → h' r = s.nodes r := by
    intro r hb
    obtain ⟨d, hd⟩ := hs.live r (hs.below_mem hqS hb)
    rw [hd, hold r d hb ((hp.same_rest hs ho ha hw hsub hq hR hb).trans hd)]
  exact Now.keep hs hqS hc ((hsame q .refl).trans hc) fun r hb _ => hsame r hb

end

theorem Pruned.not_mem_new (hp : Pruned s S R D s₁) (hs : Shape s.nodes S rank) (hq : s₁.next ≤ q) : ¬ S q :=
  fun hS => Nat.not_lt_of_le (hp.next ▸ hq) (s.lt_of_mem hs hS)

theorem Pruned.out (hr : Rooted s.nodes S rank root) (hD : ∀ x ∈ D, Below s.nodes o x)
    (hR : ∀ y ∈ R, ∀ c, s.nodes y = some c → Below s.nodes o c.parent) (hp : Pruned s S R D s₁) (hq : S q)
    (hqo : ¬ Below s.nodes o q) : s₁.nodes q = s.nodes q := by
  obtain ⟨c, hc⟩ := hr.live q hq
  refine hp.same hq (fun y hy hb => hqo ((hD y hy).trans hb)) hc ?_
  intro r hrc hrs
  obtain ⟨-, -, d, hd, hpar⟩ := hr.kids q c hq hc r hrc
  exact hqo (hpar ▸ hR r hrs d hd)

theorem Apart.parent_below (ha : Apart s o similar) (hs : Shape s.nodes S rank) (ho : S o) {y : Nat} {c : Node κ}
    (hy : y ∈ similar) (hc : s.nodes y = some c) : Below s.nodes o c.parent := by
  obtain ⟨c', d, hc', hb, -⟩ := ha.parent hs ho hy
  cases hc.symm.trans hc'
  exact hb

end Cut

/-! ## Building -/

/-- New nodes have been made; the old ones are as before, up to those of `taken`. -/
structure Grows (taken : List Nat) (s s' : Store κ) : Prop where
  next : s.next ≤ s'.next
  old  : ∀ q c, s.nodes q = some c → q ∉ taken → s'.nodes q = some c

section Build

variable {s s₁ s₂ : Store κ} {h : Heap (Data κ)} {S : Nat → Prop} {par p q : Nat} {taken : List Nat}
  {G : (κ → Bool) → (Nat → Bool) → Bool} {Gs : List ((κ → Bool) → (Nat → Bool) → Bool)}

theorem Grows.trans {new : List Nat} (hg : Grows taken s s₁) (hg' : Grows new s₁ s₂)
    (hnew : ∀ x ∈ new, x ∈ taken ∨ s.next ≤ x) : Grows taken s s₂ where
  next := le_trans hg.next hg'.next
  old q c hc hq := hg'.old q c (hg.old q c hc hq) fun h =>
    (hnew q h).elim hq fun hle => Nat.not_lt_of_le hle (s.lt_next hc)

theorem Grows.now (hg : Grows taken s s₁) (hn : Now meaning h S s.nodes par q G) (hno : ∀ x ∈ taken, ¬ Below s.nodes q x) :
    Now meaning h S s₁.nodes par q G := by
  obtain ⟨t, ht, hte⟩ := hn
  refine ⟨t, ht.congr fun r hb => ?_, hte⟩
  obtain ⟨c, hc⟩ := ht.shape.live r hb
  rw [hc, hg.old r c hc fun h => hno r h hb]

theorem Grows.now_root {new : List Nat} (hg : Grows new s s₁) (hn : Now meaning h S s.nodes 0 q G) (hq : q ∉ new)
    (hnew : List.Forall₂ (Now meaning h S s.nodes 0) new Gs) : Now meaning h S s₁.nodes 0 q G := by
  refine hg.now hn fun x hx hb => hq ?_
  obtain ⟨G', -, hn'⟩ := exists_of_forall₂ hnew x hx
  exact hn.eq_of_below hn' hb ▸ hx

/-- **A new node over trees**, none of them below another. -/
theorem newOp_now {args : List Nat} (hargs : List.Forall₂ (fun q G => ∃ par, Now meaning h S s.nodes par q G) args Gs)
    (hnd : args.Nodup) (hsep : ∀ q ∈ args, ∀ r ∈ args, Below s.nodes q r → r = q) (op : Op) :
    ∃ s', newOp s op args = some (s', s.next) ∧ s'.next = s.next + 1 ∧ Grows args s s' ∧
      Now meaning h S s'.nodes 0 s.next fun v E => meaning v { op := op } (Gs.map fun G => G v E) := by
  have hlive : ∀ q ∈ args, ∃ c, s.nodes q = some c := by
    intro q hq
    obtain ⟨G, -, par, hn⟩ := exists_of_forall₂ hargs q hq
    exact hn.cell.imp fun c h => h.1
  have hkeep : ∀ q c, s.nodes q = some c → (newNode s).nodes q = some c := fun q c hc => by
    rw [← hc]
    exact update_of_ne (ne_of_lt (s.lt_next hc)) ..
  have hnew : (newNode s).nodes s.next = some { data := {} } := update_self ..
  obtain ⟨s', h', hx', hq', hargs', hsame'⟩ := setOpArgs_spec op args hnew (.top hnew rfl)
    (fun h => (hlive _ h).elim fun _ hc => lt_irrefl _ (s.lt_next hc))
    (fun q hq => (hlive q hq).imp fun c => hkeep q c)
  have hg : Grows args s s' := by
    refine ⟨by rw [hx']; exact Nat.le_succ _, fun q c hc hq => ?_⟩
    rw [hsame' q (ne_of_lt (s.lt_next hc)) hq, hkeep q c hc]
  refine ⟨s', ?_, hx', hg, Now.nodes (Nat.ne_of_gt s.start) hq' hnd ?_⟩
  · simp only [newOp, h', Option.bind_eq_bind, Option.bind_some]
    rfl
  · refine ((forall₂_and_left args Gs).mpr ⟨fun q hq => hq, hargs⟩).imp ?_
    rintro q G ⟨hq, par, hn⟩
    obtain ⟨c, hc, -⟩ := hn.cell
    obtain ⟨t, ht, hte⟩ := hn
    refine ⟨t, ht.move hc (hargs' q c hq (hkeep q c hc)) fun r hb hne => ?_, hte⟩
    obtain ⟨d, hd⟩ := ht.shape.live r hb
    rw [hd, hg.old r d hd fun hr => hne (hsep q hq r hr hb)]

theorem newOp_roots {args : List Nat} (hargs : List.Forall₂ (Now meaning h S s.nodes 0) args Gs) (hnd : args.Nodup) (op : Op) :
    ∃ s', newOp s op args = some (s', s.next) ∧ s'.next = s.next + 1 ∧ Grows args s s' ∧
      Now meaning h S s'.nodes 0 s.next fun v E => meaning v { op := op } (Gs.map fun G => G v E) := by
  refine newOp_now (hargs.imp fun _ _ hn => ⟨0, hn⟩) hnd ?_ op
  intro q hq r hr hb
  obtain ⟨G, -, hn⟩ := exists_of_forall₂ hargs q hq
  obtain ⟨G', -, hn'⟩ := exists_of_forall₂ hargs r hr
  exact hn.eq_of_below hn' hb

/-- `copy` makes a new tree with the value of the given one. -/
def Duplicates (copy : Store κ → Nat → Option (Store κ × Nat)) (P : Node κ → Prop) : Prop :=
  ∀ {s : Store κ} {h : Heap (Data κ)} {S : Nat → Prop} {par p : Nat} {c : Node κ} {G : (κ → Bool) → (Nat → Bool) → Bool},
    Now meaning h S s.nodes par p G → s.nodes p = some c → P c →
    ∃ s' q, copy s p = some (s', q) ∧ Grows [] s s' ∧ s.next ≤ q ∧ Now meaning h S s'.nodes 0 q G

theorem clone_now (hn : Now meaning h S s.nodes par p G) : ∃ s', clone s p = some (s', s.next) ∧ Grows [] s s' ∧
    Now meaning h S s'.nodes 0 s.next G ∧ ∀ r, Below s'.nodes s.next r → s.next ≤ r := by
  obtain ⟨t, ht, hte⟩ := hn
  have hs := ht.shape
  obtain ⟨s', src, h', hcopy, hsrc, hnext, htop⟩ := clone_spec hs .refl
  have hs' := hcopy.shape hs
  obtain ⟨d, hd⟩ := hs'.live s.next ⟨le_refl _, hnext⟩
  obtain ⟨t', ht', hte'⟩ := hs'.rep ⟨le_refl _, hnext⟩ hd
  rw [htop d hd] at ht'
  refine ⟨s', h', ⟨hcopy.le, fun q c hc _ => by rw [hcopy.old q (s.lt_next hc), hc]⟩, ⟨t', ht', ?_⟩, fun r hb =>
    (hs'.below_mem ⟨le_refl _, hnext⟩ hb).1⟩
  intro v E hE
  obtain ⟨F, hF, hFt⟩ := hs.exists_val (meaning v)
  rw [hte' Bool _ _ (hcopy.val hF), ← hte v E hE, hFt p par t ht]
  exact congrArg F hsrc

theorem duplicates_clone : Duplicates (κ := κ) clone fun _ => True := by
  intro s h S par p c G hn _ _
  obtain ⟨s', h', hg, hn', -⟩ := clone_now hn
  exact ⟨s', s.next, h', hg, le_refl _, hn'⟩

theorem eachNode_now {copy : Store κ → Nat → Option (Store κ × Nat)} {P : Node κ → Prop} (hcopy : Duplicates copy P)
    {G : Nat → (κ → Bool) → (Nat → Bool) → Bool} (ps : List Nat) :
    ∀ {s : Store κ}, (∀ p ∈ ps, ∃ par c, Now meaning h S s.nodes par p (G p) ∧ s.nodes p = some c ∧ P c) →
      ∃ s' qs, eachNode copy ps s = some (s', qs) ∧ Grows [] s s' ∧ qs.Nodup ∧ (∀ q ∈ qs, s.next ≤ q) ∧
        List.Forall₂ (Now meaning h S s'.nodes 0) qs (ps.map G) := by
  induction ps with
  | nil => exact fun {s} _ => ⟨s, [], rfl, ⟨le_refl _, fun _ _ hc _ => hc⟩, nodup_nil, by simp, .nil⟩
  | cons p ps ih =>
    intro s hps
    obtain ⟨par, c, hp, hc, hP⟩ := hps p mem_cons_self
    obtain ⟨s₁, q, h₁, hg₁, hq, hn⟩ := hcopy hp hc hP
    obtain ⟨s₂, qs, h₂, hg₂, hnd, hqs, hall⟩ := ih (s := s₁) (by
      intro r hr
      obtain ⟨par, d, hr, hd, hP⟩ := hps r (mem_cons_of_mem _ hr)
      exact ⟨par, d, hg₁.now hr (by simp), hg₁.old r d hd (by simp), hP⟩)
    obtain ⟨d, hd, -⟩ := hn.cell
    refine ⟨s₂, q :: qs, ?_, hg₁.trans hg₂ (by simp), ?_, ?_, .cons (hg₂.now hn (by simp)) hall⟩
    · simp only [eachNode, h₁, h₂, Option.bind_eq_bind, Option.bind_some]
      rfl
    · exact nodup_cons.mpr ⟨fun h => Nat.not_lt_of_le (hqs q h) (s₁.lt_next hd), hnd⟩
    · intro r hr
      rcases mem_cons.mp hr with rfl | hr
      · exact hq
      · exact le_trans hg₁.next (hqs r hr)

end Build

/-- One more branch `A b` for what the branches of `xs` lose. -/
theorem any_added {kids xs : List Nat} {g : Nat → Nat} {E F A : Nat → Bool} {b : Bool} (hmem : ∀ x ∈ xs, g x ∈ kids)
    (hother : ∀ r ∈ kids, r ∉ xs.map g → F r = E r) (hbranch : ∀ x ∈ xs, E (g x) = (F (g x) || A x && b)) :
    (kids.any F || xs.any A && b) = kids.any E := by
  rw [Bool.eq_iff_iff, Bool.or_eq_true, Bool.and_eq_true, any_eq_true, any_eq_true, any_eq_true]
  constructor
  · rintro (⟨r, hrk, hrF⟩ | ⟨⟨x, hx, hxA⟩, hb⟩)
    · refine ⟨r, hrk, ?_⟩
      by_cases hrg : r ∈ xs.map g
      · obtain ⟨x, hx, rfl⟩ := mem_map.mp hrg
        rw [hbranch x hx, hrF, Bool.true_or]
      · rw [← hother r hrk hrg, hrF]
    · exact ⟨g x, hmem x hx, by rw [hbranch x hx, hxA, hb, Bool.and_self, Bool.or_true]⟩
  · rintro ⟨r, hrk, hrE⟩
    by_cases hrg : r ∈ xs.map g
    · obtain ⟨x, hx, rfl⟩ := mem_map.mp hrg
      rw [hbranch x hx, Bool.or_eq_true, Bool.and_eq_true] at hrE
      rcases hrE with h | h
      · exact .inl ⟨g x, hrk, h⟩
      · exact .inr ⟨⟨x, hx, h.1⟩, h.2⟩
    · exact .inl ⟨r, hrk, by rw [hother r hrk hrg, hrE]⟩

/-- **The new tree becomes the last child of `o`.** -/
theorem rep_addNewChild {h : Heap (Data κ)} {S : Nat → Prop} {rank : Nat → Nat} {root o : Nat} {co : Node κ} {s : Store κ}
    {G : (κ → Bool) → (Nat → Bool) → Bool} {g : Nat → (κ → Bool) → (Nat → Bool) → Bool} (hr : Rooted h S rank root) (ho : S o)
    (hco : h o = some co) (hso : s.nodes o = some co) (hout : ∀ r, S r → ¬ Below h o r → s.nodes r = h r) (hqS : ¬ S q)
    (hq : Now meaning h S s.nodes 0 q G) (hkids : ∀ r ∈ co.children, Now meaning h S s.nodes o r (g r))
    (hval : ∀ v E, Val h S (meaning v) E → meaning v co.data (co.children.map (fun r => g r v E) ++ [G v E]) = E o) :
    ∃ s' t', addNewChild s o q = some s' ∧ s'.nodes o = some { co with children := co.children ++ [q] } ∧
      (∀ r, r ≠ o → r ≠ q → s'.nodes r = s.nodes r) ∧ Rep s'.nodes 0 root t' ∧ Below s'.nodes root o ∧
      ∀ v E, Val h S (meaning v) E → Query.matches v t' = E root := by
  have hs := hr.toShape
  have hne : o ≠ q := fun h => hqS (h ▸ ho)
  have hup : ∀ x c, S x → rank o ≤ rank x → h x = some c → s.nodes x = some c := by
    intro x c hx hle hc
    by_cases hxo : x = o
    · subst hxo
      rw [hso, ← hco, hc]
    · exact (hout x hx fun hb => ((hs.below_rank ho hb).resolve_left hxo).not_ge hle).trans hc
  obtain ⟨d, hd, -⟩ := hq.cell
  obtain ⟨s', h', hn', -⟩ := addNewChild_spec hso hd hne (chain_above hr ho fun x c hx hle hc => ⟨c, by
    have hxq : x ≠ q := fun h => hqS (h ▸ hx)
    rw [update_of_ne hxq, hup x c hx hle hc], rfl⟩)
  have hsame : ∀ r, r ≠ o → r ≠ q → s'.nodes r = s.nodes r := by
    intro r hro hrq
    rw [hn', update_of_ne hro, update_of_ne hrq]
  have ho' : s'.nodes o = some { co with children := co.children ++ [q] } := by rw [hn', update_self]
  have hchild : Now meaning h S s'.nodes o q G := by
    obtain ⟨t, ht, hte⟩ := hq
    refine ⟨t, ht.move hd (by rw [hn', update_of_ne hne.symm, update_self]) fun r hb hrq => ?_, hte⟩
    refine hsame r ?_ hrq
    rintro rfl
    exact hr.not_below_new ht hqS ho (fun x c hx hxo hc => ⟨c, hup x c hx (hs.below_le hx hxo) hc, rfl⟩) hb
  have hold : ∀ r ∈ co.children, Now meaning h S s'.nodes o r (g r) := by
    intro r hrc
    have hrS := (hs.kids o co ho hco r hrc).1
    have hn := hkids r hrc
    refine hn.frame fun x hb => hsame x ?_ ?_
    · -- `o` is above its child
      rintro rfl
      obtain ⟨t, ht, -⟩ := hn
      have := ht.shape.below_le .refl hb
      have := (ht.shape.kids x co hb hso r hrc).2.1
      omega
    · rintro rfl
      exact hqS (hn.eq_of_below hq hb ▸ hrS)
  have hnode := Now.nodes (L := co.children.map g ++ [G]) (hs.ne_zero ho) ho' (by
    refine nodup_append.mpr ⟨hs.nodup o co ho hco, nodup_singleton q, ?_⟩
    rintro x hx y hy rfl
    exact hqS (mem_singleton.mp hy ▸ (hs.kids o co ho hco x hx).1))
    (rel_append (forall₂_map_right_iff.mpr (forall₂_same.mpr hold)) (.cons hchild .nil))
  obtain ⟨t', ht', hb', hte⟩ := rep_inPlace hr ho hco (hnode.congr fun v E hE => by
      rw [← hval v E hE, map_append, map_map]
      rfl) fun r hrS hb => by
    rw [hsame r (fun h => hb (h ▸ .refl)) fun h => hqS (h ▸ hrS), hout r hrS hb]
  exact ⟨s', t', h', ho', hsame, ht', hb', hte⟩

end XQ
end Manticore

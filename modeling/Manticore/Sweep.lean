import Mathlib
/-!
# Sweep — ascending sources read in chunks, and two of them joined by one sweep

A source of values of a linear order returns them in ascending chunks, and may be told that values below some bound
are of no interest.  `Side` is what is left of a source: what it returns when it is left alone (`sure`), and what it
may return whatever it is told (`maybe`).  Two sources are joined by taking the least value left on either side and
deciding by membership whether it is kept (`Join.keep`); `Swept` says what a sweep that has got somewhere has done, and
`History` what a source has returned since the start.
-/
namespace Manticore
namespace Sweep
open List

variable {α : Type*}

/-- What is left of a source. -/
structure Side (α : Type*) where
  sure : Set α
  maybe : Set α
  sub : sure ⊆ maybe

/-- The four ways of joining two sources. -/
inductive Join
  | both
  | either
  | left
  | diff
  deriving DecidableEq, Repr

/-- Is a value of the join, from its membership on the left and on the right? -/
def Join.keep : Join → Prop → Prop → Prop
  | .both, p, q => p ∧ q
  | .either, p, q => p ∨ q
  | .left, p, _ => p
  | .diff, p, q => p ∧ ¬ q

/-- May be a value of the join: a rejection on the right cannot be relied on, as the right may be told to skip it. -/
def Join.may : Join → Prop → Prop → Prop
  | .both, p, q => p ∧ q
  | .either, p, q => p ∨ q
  | .left, p, _ => p
  | .diff, p, _ => p

variable {j : Join} {p q : Prop} {c out : List α} {s s' a b a₁ b₁ a₂ b₂ : Side α} {m : α}

theorem Join.may_of_keep {p' q' : Prop} (hp : p → p') (hq : q → q') (h : j.keep p q) : j.may p' q' := by
  cases j with
  | both => exact ⟨hp h.1, hq h.2⟩
  | either => exact h.imp hp hq
  | left => exact hp h
  | diff => exact hp h.1

theorem Join.may_mono {p' q' : Prop} (hp : p → p') (hq : q → q') (h : j.may p q) : j.may p' q' := by
  cases j with
  | both => exact ⟨hp h.1, hq h.2⟩
  | either => exact h.imp hp hq
  | left => exact hp h
  | diff => exact hp h

theorem Join.or_of_may (h : j.may p q) : p ∨ q := by
  cases j with
  | both => exact .inl h.1
  | either => exact h
  | left => exact .inl h
  | diff => exact .inl h

theorem Join.or_of_keep (h : j.keep p q) : p ∨ q :=
  Join.or_of_may (Join.may_of_keep id id h)

theorem Join.keep_congr {p' q' : Prop} (hp : p ↔ p') (hq : q ↔ q') : j.keep p q ↔ j.keep p' q' := by
  rw [propext hp, propext hq]

/-- Two sources joined. -/
def Join.join (j : Join) (a b : Side α) : Side α where
  sure := {x | j.keep (x ∈ a.sure) (x ∈ b.sure)}
  maybe := {x | j.may (x ∈ a.maybe) (x ∈ b.maybe)}
  sub := fun _ h => Join.may_of_keep (fun hx => a.sub hx) (fun hx => b.sub hx) h

/-- A source with values already read from it and not used yet. -/
def Side.push (c : List α) (s : Side α) : Side α where
  sure := {x | x ∈ c ∨ x ∈ s.sure}
  maybe := {x | x ∈ c ∨ x ∈ s.maybe}
  sub := fun _ h => h.imp id (fun hx => s.sub hx)

@[simp] theorem push_nil (s : Side α) : s.push [] = s := by
  simp [Side.push]

@[simp] theorem mem_sure_push {x : α} : x ∈ (s.push c).sure ↔ x ∈ c ∨ x ∈ s.sure := Iff.rfl

/-- A side replaced by another with no more values, the same ones within `b`. -/
structure AgreeOn (b : Set α) (s s' : Side α) : Prop where
  keeps : ∀ x ∈ b, (x ∈ s.sure ↔ x ∈ s'.sure)
  fewer : s'.maybe ⊆ s.maybe

theorem AgreeOn.refl (b : Set α) (s : Side α) : AgreeOn b s s := ⟨fun _ _ => Iff.rfl, fun _ h => h⟩

theorem AgreeOn.trans {b : Set α} {s'' : Side α} (h : AgreeOn b s s') (h' : AgreeOn b s' s'') : AgreeOn b s s'' :=
  ⟨fun x hx => (h.keeps x hx).trans (h'.keeps x hx), fun _ hx => h.fewer (h'.fewer hx)⟩

theorem AgreeOn.mono {b b' : Set α} (h : AgreeOn b s s') (hb : b' ⊆ b) : AgreeOn b' s s' :=
  ⟨fun x hx => h.keeps x (hb hx), h.fewer⟩

variable {a' : Side α}

theorem AgreeOn.join {c : Set α} {b' : Side α} (ha : AgreeOn c a a') (hb : AgreeOn c b b') :
    AgreeOn c (j.join a b) (j.join a' b') where
  keeps := fun x hx => Join.keep_congr (ha.keeps x hx) (hb.keeps x hx)
  fewer := fun _ h => Join.may_mono (fun hx => ha.fewer hx) (fun hx => hb.fewer hx) h

theorem AgreeOn.push {b : Set α} (c : List α) (h : AgreeOn b s s') :
    AgreeOn b (s.push c) (s'.push c) where
  keeps := fun x hx => or_congr_right (h.keeps x hx)
  fewer := fun _ hx => hx.imp id (fun hx => h.fewer hx)

variable [LinearOrder α]

/-- The values read are ascending, and everything still to come is above them. -/
structure Ready (c : List α) (s : Side α) : Prop where
  asc : c.Pairwise (· < ·)
  above : ∀ x ∈ c, ∀ y ∈ s.maybe, x < y

theorem Ready.nil (s : Side α) : Ready [] s := ⟨.nil, by simp⟩

theorem Ready.tail (h : Ready (m :: c) s) : Ready c s :=
  ⟨h.asc.of_cons, fun x hx => h.above x (mem_cons_of_mem m hx)⟩

theorem Ready.head_lt (h : Ready (m :: c) s) : ∀ x ∈ (s.push c).maybe, m < x := by
  rintro x (hx | hx)
  · exact rel_of_pairwise_cons h.asc hx
  · exact h.above m mem_cons_self x hx

theorem Ready.head_le (h : Ready (m :: c) s) : ∀ x ∈ (s.push (m :: c)).maybe, m ≤ x := by
  rintro x (hx | hx)
  · rcases mem_cons.1 hx with rfl | hx
    · exact le_refl x
    · exact (h.head_lt x (.inl hx)).le
  · exact (h.above m mem_cons_self x hx).le

theorem Ready.fewer (h : Ready c s) (hs : s'.maybe ⊆ s.maybe) : Ready c s' :=
  ⟨h.asc, fun x hx y hy => h.above x hx y (hs hy)⟩

/-! ### One chunk, one hint -/

/-- **A source returned the chunk `c`** and is left with `s'`. -/
structure Yields (s : Side α) (c : List α) (s' : Side α) : Prop where
  asc : c.Pairwise (· < ·)
  keeps : ∀ x, x ∈ s.sure ↔ x ∈ c ∨ x ∈ s'.sure
  fewer : s'.maybe ⊆ s.maybe
  above : ∀ o ∈ c, ∀ x ∈ s'.maybe, o < x
  last : c = [] → s'.maybe = ∅

/-- **A source was told that values below `t` are of no interest.** -/
abbrev Told (t : α) (s s' : Side α) : Prop := AgreeOn {x | t ≤ x} s s'

theorem Yields.ready (h : Yields s c s') : Ready c s' := ⟨h.asc, h.above⟩

theorem Yields.agree (h : Yields s c s') (b : Set α) : AgreeOn b s (s'.push c) where
  keeps := fun x _ => h.keeps x
  fewer := by
    rintro x (hx | hx)
    · exact s.sub ((h.keeps x).2 (.inl hx))
    · exact h.fewer hx

/-! ### A source that is a list -/

/-- The source that returns an ascending list, whatever it is told. -/
def Side.ofList (l : List α) : Side α := ⟨{x | x ∈ l}, {x | x ∈ l}, fun _ h => h⟩

theorem yields_ofList {l : List α} (h : (c ++ l).Pairwise (· < ·)) (hc : c = [] → l = []) :
    Yields (.ofList (c ++ l)) c (.ofList l) := by
  rw [pairwise_append] at h
  refine ⟨h.1, fun x => List.mem_append, fun x hx => List.mem_append.2 (.inr hx), h.2.2, fun hn => ?_⟩
  rw [hc hn]
  exact Set.eq_empty_of_forall_notMem fun x hx => not_mem_nil hx

theorem told_ofList {t : α} {g l : List α} (hg : ∀ x ∈ g, x < t) : Told t (.ofList (g ++ l)) (.ofList l) where
  keeps := fun x hx => by
    show x ∈ g ++ l ↔ x ∈ l
    rw [List.mem_append, or_iff_right fun hxg => absurd (hg x hxg) (not_lt.2 hx)]
  fewer := fun x hx => List.mem_append.2 (.inr hx)

/-! ### The sweep -/

/-- The value `m` leaves a side, where it was iff `p`; everything left is above it. -/
structure Pops (p : Prop) (m : α) (s s' : Side α) : Prop where
  sure : ∀ x, x ∈ s.sure ↔ (x = m ∧ p) ∨ x ∈ s'.sure
  fewer : s'.maybe ⊆ s.maybe
  above : ∀ x ∈ s'.maybe, m < x

theorem pops_head (h : Ready (m :: c) s) : Pops True m (s.push (m :: c)) (s.push c) where
  sure := fun x => by simp [or_assoc]
  fewer := by
    rintro x (hx | hx)
    · exact .inl (mem_cons_of_mem m hx)
    · exact .inr hx
  above := h.head_lt

theorem pops_below (h : ∀ x ∈ s.maybe, m < x) : Pops False m s s where
  sure := fun x => by simp
  fewer := fun _ hx => hx
  above := h

theorem pops_of_lt {n : α} (h : Ready (n :: c) s) (hmn : m < n) : Pops False m (s.push (n :: c)) (s.push (n :: c)) :=
  pops_below fun x hx => lt_of_lt_of_le hmn (h.head_le x hx)

theorem Pops.not_mem (h : Pops p m s s') : m ∉ s'.sure := fun hm =>
  lt_irrefl m (h.above m (s'.sub hm))

theorem Pops.mem_iff (h : Pops p m s s') : m ∈ s.sure ↔ p := by
  rw [h.sure m]
  simp [h.not_mem]

theorem Pops.mem_of_ne {x : α} (h : Pops p m s s') (hx : x ≠ m) : x ∈ s.sure ↔ x ∈ s'.sure := by
  rw [h.sure x]
  simp [hx]

/-- **What a sweep of `a` and `b` that is left with `a'` and `b'` has done**: `out` is what it has kept. -/
structure Swept (j : Join) (a b : Side α) (out : List α) (a' b' : Side α) : Prop where
  asc : out.Pairwise (· < ·)
  keeps : ∀ x, j.keep (x ∈ a.sure) (x ∈ b.sure) ↔ x ∈ out ∨ j.keep (x ∈ a'.sure) (x ∈ b'.sure)
  fewerL : a'.maybe ⊆ a.maybe
  fewerR : b'.maybe ⊆ b.maybe
  aboveL : ∀ o ∈ out, ∀ x ∈ a'.maybe, o < x
  aboveR : ∀ o ∈ out, ∀ x ∈ b'.maybe, o < x

theorem Swept.refl (j : Join) (a b : Side α) : Swept j a b [] a b where
  asc := .nil
  keeps := fun x => by simp
  fewerL := fun _ h => h
  fewerR := fun _ h => h
  aboveL := by simp
  aboveR := by simp

theorem keep_pops {b' : Side α} (ha : Pops p m a a') (hb : Pops q m b b') (x : α) :
    j.keep (x ∈ a.sure) (x ∈ b.sure) ↔ (x = m ∧ j.keep p q) ∨ j.keep (x ∈ a'.sure) (x ∈ b'.sure) := by
  by_cases hx : x = m
  · subst hx
    have hno : ¬ j.keep (x ∈ a'.sure) (x ∈ b'.sure) := fun h => (Join.or_of_keep h).elim ha.not_mem hb.not_mem
    rw [Join.keep_congr ha.mem_iff hb.mem_iff]
    simp [hno]
  · rw [Join.keep_congr (ha.mem_of_ne hx) (hb.mem_of_ne hx)]
    simp [hx]

section
variable (h : Swept j a b out a₁ b₁) (ha : Pops p m a₁ a₂) (hb : Pops q m b₁ b₂)
include h ha hb

theorem Swept.emit (hk : j.keep p q) :
    Swept j a b (out ++ [m]) a₂ b₂ where
  asc := by
    -- `m` was still to come on one of the sides, so it is above everything kept before
    have hm : ∀ o ∈ out, o < m := by
      intro o ho
      rcases Join.or_of_keep hk with hp | hq
      · exact h.aboveL o ho m (a₁.sub (ha.mem_iff.2 hp))
      · exact h.aboveR o ho m (b₁.sub (hb.mem_iff.2 hq))
    rw [pairwise_append]
    exact ⟨h.asc, pairwise_singleton _ _, fun o ho x hx => mem_singleton.1 hx ▸ hm o ho⟩
  keeps := fun x => by
    rw [h.keeps x, keep_pops ha hb x, List.mem_append, mem_singleton]
    simp only [hk, and_true]
    rw [or_assoc]
  fewerL := fun _ hx => h.fewerL (ha.fewer hx)
  fewerR := fun _ hx => h.fewerR (hb.fewer hx)
  aboveL := fun o ho x hx => by
    rcases List.mem_append.1 ho with ho | ho
    · exact h.aboveL o ho x (ha.fewer hx)
    · exact mem_singleton.1 ho ▸ ha.above x hx
  aboveR := fun o ho x hx => by
    rcases List.mem_append.1 ho with ho | ho
    · exact h.aboveR o ho x (hb.fewer hx)
    · exact mem_singleton.1 ho ▸ hb.above x hx

theorem Swept.drop (hk : ¬ j.keep p q) :
    Swept j a b out a₂ b₂ where
  asc := h.asc
  keeps := fun x => by
    rw [h.keeps x, keep_pops ha hb x]
    simp [hk]
  fewerL := fun _ hx => h.fewerL (ha.fewer hx)
  fewerR := fun _ hx => h.fewerR (hb.fewer hx)
  aboveL := fun o ho x hx => h.aboveL o ho x (ha.fewer hx)
  aboveR := fun o ho x hx => h.aboveR o ho x (hb.fewer hx)

end

/-- The sides are replaced by others with no more values, the join of which is the same. -/
theorem Swept.refine (h : Swept j a b out a₁ b₁) (hL : a₂.maybe ⊆ a₁.maybe) (hR : b₂.maybe ⊆ b₁.maybe)
    (hk : ∀ x, j.keep (x ∈ a₁.sure) (x ∈ b₁.sure) ↔ j.keep (x ∈ a₂.sure) (x ∈ b₂.sure)) : Swept j a b out a₂ b₂ where
  asc := h.asc
  keeps := fun x => by rw [h.keeps x, hk x]
  fewerL := fun _ hx => h.fewerL (hL hx)
  fewerR := fun _ hx => h.fewerR (hR hx)
  aboveL := fun o ho x hx => h.aboveL o ho x (hL hx)
  aboveR := fun o ho x hx => h.aboveR o ho x (hR hx)

/-- Where the left of a join matters: under an intersection, only within the right. -/
def Join.readsLeft : Join → Side α → Set α
  | .both, b => b.maybe
  | _, _ => Set.univ

/-- Where the right of a join matters: under an intersection, only within the left. -/
def Join.readsRight : Join → Side α → Set α
  | .both, a => a.maybe
  | _, _ => Set.univ

theorem Swept.refineL (h : Swept j a b out a₁ b₁) (ha : AgreeOn (j.readsLeft b₁) a₁ a₂) : Swept j a b out a₂ b₁ := by
  refine h.refine ha.fewer (fun _ hx => hx) fun x => ?_
  cases j with
  | both => exact and_congr_left fun hx => ha.keeps x (b₁.sub hx)
  | either => exact Join.keep_congr (ha.keeps x trivial) Iff.rfl
  | left => exact Join.keep_congr (ha.keeps x trivial) Iff.rfl
  | diff => exact Join.keep_congr (ha.keeps x trivial) Iff.rfl

theorem Swept.refineR (h : Swept j a b out a₁ b₁) (hb : AgreeOn (j.readsRight a₁) b₁ b₂) : Swept j a b out a₁ b₂ := by
  refine h.refine (fun _ hx => hx) hb.fewer fun x => ?_
  cases j with
  | both => exact and_congr_right fun hx => hb.keeps x (a₁.sub hx)
  | either => exact Join.keep_congr Iff.rfl (hb.keeps x trivial)
  | left => exact Join.keep_congr Iff.rfl (hb.keeps x trivial)
  | diff => exact Join.keep_congr Iff.rfl (hb.keeps x trivial)

/-- **A sweep is one chunk of the join**, provided it kept something unless nothing is left to keep. -/
theorem Swept.yields {b' : Side α} (h : Swept j a b out a' b') (hl : out = [] → (j.join a' b').maybe = ∅) :
    Yields (j.join a b) out (j.join a' b') where
  asc := h.asc
  keeps := h.keeps
  fewer := fun _ hx => Join.may_mono (fun hx => h.fewerL hx) (fun hx => h.fewerR hx) hx
  above := fun o ho x hx => (Join.or_of_may hx).elim (h.aboveL o ho x) (h.aboveR o ho x)
  last := hl

theorem Yields.diff (h : Yields a c a') (hb : b.maybe = ∅) :
    Yields (Join.diff.join a b) c (Join.diff.join a' b) := by
  have hno : ∀ x, x ∉ b.sure := fun x hx => Set.notMem_empty x (hb ▸ b.sub hx)
  refine ⟨h.asc, fun x => ?_, h.fewer, h.above, h.last⟩
  simp only [Join.join, Join.keep, Set.mem_ofPred_eq, hno x, not_false_eq_true, and_true]
  exact h.keeps x

/-! ### Whole histories -/

/-- **What a source that started as `s₀` has returned so far**, the last thing it was told being `t`. -/
structure History (s₀ : Side α) (t : α) (out : List α) (s : Side α) : Prop where
  asc : out.Pairwise (· < ·)
  keeps : ∀ x, t ≤ x → (x ∈ s₀.sure ↔ x ∈ out ∨ x ∈ s.sure)
  fewer : s.maybe ⊆ s₀.maybe
  above : ∀ o ∈ out, ∀ x ∈ s.maybe, o < x
  within : ∀ o ∈ out, o ∈ s₀.maybe

theorem History.start (s₀ : Side α) (t : α) : History s₀ t [] s₀ where
  asc := .nil
  keeps := fun x _ => by simp
  fewer := fun _ h => h
  above := by simp
  within := by simp

section
variable {s₀ : Side α} {t : α} (h : History s₀ t out s)
include h

theorem History.yield (hy : Yields s c s') : History s₀ t (out ++ c) s' where
  asc := by
    rw [pairwise_append]
    exact ⟨h.asc, hy.asc, fun o ho x hx => h.above o ho x ((hy.agree Set.univ).fewer (.inl hx))⟩
  keeps := fun x hx => by rw [h.keeps x hx, hy.keeps x, List.mem_append, or_assoc]
  fewer := fun _ hx => h.fewer (hy.fewer hx)
  above := fun o ho x hx => (List.mem_append.1 ho).elim (fun ho => h.above o ho x (hy.fewer hx))
    fun ho => hy.above o ho x hx
  within := fun o ho => (List.mem_append.1 ho).elim (h.within o) fun ho => h.fewer ((hy.agree Set.univ).fewer (.inl ho))

theorem History.tell {t' : α} (htt : t ≤ t') (ht : Told t' s s') :
    History s₀ t' out s' where
  asc := h.asc
  keeps := fun x hx => by rw [h.keeps x (htt.trans hx), ht.keeps x hx]
  fewer := fun _ hx => h.fewer (ht.fewer hx)
  above := fun o ho x hx => h.above o ho x (ht.fewer hx)
  within := h.within

/-- A chunk's values at or after the last bound are values of the source as it started. -/
theorem History.mem_of_yields {x : α} (hy : Yields s c s') (hx : x ∈ c) (ht : t ≤ x) :
    x ∈ s₀.sure :=
  (h.keeps x ht).2 (.inr ((hy.keeps x).2 (.inl hx)))

end

end Sweep
end Manticore

import Mathlib
import Manticore.HitStream
/-!
# NotNear — the NOTNEAR operator (`ExtNotNear_c`)

A hit of the left operand is kept unless some hit of the right operand stands in its field within the distance, before or
after it.  `FilterHits` walks both hit lists of a document without going back: a right hit too far to the left of one left
hit is so for all later ones, and the first that is not decides.
-/
namespace Manticore
namespace NotNear

open ExtNode (RowID invalidRowID ExtDoc MAX_BLOCK_DOCS)
open NWay (ExtHit)
open HitStream
open List

variable {W : Type}

def field (h : ExtHit) : Nat := Hitman.getField h.hitpos

/-- The DWORD `pos + m_uMatchlen - 1 + m_iDist`. -/
def reach (dist : Int) (h : ExtHit) : Nat := (((h.pos : Int) + h.matchlen - 1 + dist) % 2 ^ 32).toNat

/-- The first loop of `FilterHits`: right hits too far before the left one are left behind. -/
def skipFar (dist : Int) (row : RowID) (must : ExtHit) : List ExtHit → List ExtHit
  | [] => []
  | n :: nots =>
    if n.rowID = row then
      if field n < field must then skipFar dist row must nots
      else if field must < field n then n :: nots
      else if reach dist n < must.pos then skipFar dist row must nots
      else n :: nots
    else n :: nots

/-- The second loop: `bWindowHit`. -/
def windowHit (dist : Int) (row : RowID) (must : ExtHit) : List ExtHit → Bool
  | [] => false
  | n :: nots =>
    if n.rowID = row then
      if field must < field n then false
      else if field n < field must then windowHit dist row must nots
      else if reach dist must < n.pos then false
      else true
    else false

/-- `FilterHits`: the hits added and where the two cursors stand. -/
def filterHits (dist : Int) (row : RowID) : List ExtHit → List ExtHit → List ExtHit × List ExtHit × List ExtHit
  | [], nots => ([], [], nots)
  | m :: must, nots =>
    if m.rowID = row then
      let nots := skipFar dist row m nots
      let r := filterHits dist row must nots
      (if windowHit dist row m nots then r.1 else m :: r.1, r.2)
    else ([], m :: must, nots)

/-- `ExtNotNear_c` -/
structure ExtNotNear (W : Type) where
  left : Reader W
  right : Reader W
  dist : Int
  myHits : List ExtHit := []

/-- Left documents before the right one are copied with their hits: the documents and hits copied, and the cursors. -/
def copyMust (notRow : RowID) : Nat → List (ExtDoc W) → List ExtHit →
    List (ExtDoc W) × List ExtHit × List (ExtDoc W) × List ExtHit
  | 0, docs, hits => ([], [], docs, hits)
  | _ + 1, [], hits => ([], [], [], hits)
  | room + 1, d :: docs, hits =>
    if d.rowID < notRow then
      let hits := skipHits d.rowID hits
      let r := copyMust notRow room docs (hits.dropWhile (·.rowID = d.rowID))
      (d :: r.1, hits.takeWhile (·.rowID = d.rowID) ++ r.2.1, r.2.2)
    else ([], [], d :: docs, hits)

/-- The document both cursors stand at. -/
def filterDoc (docs : List (ExtDoc W)) (n : ExtNotNear W) : List (ExtDoc W) × ExtNotNear W :=
  match n.left.docs with
  | [] => (docs, n)
  | d :: docsL =>
    let r := filterHits n.dist d.rowID n.left.hits n.right.hits
    let matched := decide (r.1 ≠ []) || decide (hitRow r.2.1 = d.rowID)
    -- the tail of the left hits is copied
    let hitsL := r.2.1.dropWhile (·.rowID = d.rowID)
    let docsR := n.right.docs.tail
    (if matched then docs ++ [d] else docs,
      { n with
        left := { n.left with docs := docsL, hits := if docsL = [] then hitsL else skipHits (headRow docsL) hitsL }
        right := { n.right with docs := docsR, hits := if docsR = [] then r.2.2 else skipHits (headRow docsR) r.2.2 }
        myHits := n.myHits ++ (r.1 ++ r.2.1.takeWhile (·.rowID = d.rowID)) })

/-- The right cursors, moved to the left document. -/
def Reader.catchUp (r : Reader W) (row : RowID) : Reader W :=
  { r with docs := skipDocs row r.docs, hits := skipHits (headRow (skipDocs row r.docs)) r.hits }

/-- The first half of a turn: the right operand is told of the left document, and left documents before it are copied.
The flag is `bRightEmpty`. -/
def copyTurn (rightEmpty : Bool) (docs : List (ExtDoc W)) (n : ExtNotNear W) : Bool × List (ExtDoc W) × ExtNotNear W :=
  let right := if rightEmpty then n.right else (n.right.hintRowID (headRow n.left.docs)).warmupDocs
  let rightEmpty := rightEmpty || decide (right.docs = [])
  let notRow := if rightEmpty then invalidRowID else headRow right.docs
  let c := copyMust notRow (MAX_BLOCK_DOCS - 1 - docs.length) n.left.docs n.left.hits
  (rightEmpty, docs ++ c.1,
    { n with left := { n.left with docs := c.2.2.1, hits := c.2.2.2 }, right, myHits := n.myHits ++ c.2.1 })

/-- The second half: the right cursors catch up, and a document of both operands is filtered. -/
def matchTurn (docs : List (ExtDoc W)) (n : ExtNotNear W) : List (ExtDoc W) × ExtNotNear W :=
  let n := { n with right := Reader.catchUp n.right (headRow n.left.docs) }
  if n.right.hits = [] ∨ headRow n.left.docs ≠ headRow n.right.docs then (docs, n) else filterDoc docs n

/-- The loop of `GetDocsChunk`. -/
def loop : Nat → Bool → List (ExtDoc W) → ExtNotNear W → Option (List (ExtDoc W) × ExtNotNear W)
  | 0, _, _, _ => none
  | fuel + 1, rightEmpty, docs, n =>
    if docs.length < MAX_BLOCK_DOCS - 1 then
      let n := { n with left := n.left.warmupDocs }
      if n.left.docs = [] then some (docs, n)
      else
        let t := copyTurn rightEmpty docs n
        if t.2.2.left.docs = [] ∨ t.2.1.length = MAX_BLOCK_DOCS - 1 then loop fuel t.1 t.2.1 t.2.2
        else if t.1 then loop fuel t.1 t.2.1 t.2.2
        else
          let u := matchTurn t.2.1 t.2.2
          loop fuel t.1 u.1 u.2
    else some (docs, n)

def getDocsChunk (fuel : Nat) (n : ExtNotNear W) : Option (List (ExtDoc W) × ExtNotNear W) := loop fuel false [] n

/-- The node as its caller uses it; `k` bounds the turns of one call. -/
def buffered (k : Nat) : BufferedNode W (ExtNotNear W) where
  getDocsChunk := getDocsChunk k
  myHits := fun n => n.myHits
  setHits := fun n hits => { n with myHits := hits }

/-! ## What the operator denotes -/

/-- The distance of two hits, from the end of the one that comes first. -/
def gap (m n : ExtHit) : Int :=
  if m.pos ≤ n.pos then n.pos - (m.pos + m.matchlen - 1) else m.pos - (n.pos + n.matchlen - 1)

/-- Within the distance, in one field. -/
def within (dist : Nat) (m n : ExtHit) : Bool := field m = field n ∧ gap m n ≤ dist

/-- The left hits with no right hit that is near. -/
def keeps (near : ExtHit → ExtHit → Bool) (right : List (Entry W)) (e : Entry W) : List ExtHit :=
  e.hits.filter fun m => right.all fun f => f.rowID ≠ e.rowID || f.hits.all fun n => !near m n

/-- The left documents that keep a hit, with these hits. -/
def denoted (near : ExtHit → ExtHit → Bool) (left right : List (Entry W)) : List (Kept W) :=
  (left.map fun e => (e.doc, keeps near right e)).filter fun k => k.2 ≠ []

/-! ## The hits of one document -/

/-- No sum of the comparisons leaves the DWORD, and a hit has a length. -/
def Fits (dist : Nat) (h : ExtHit) : Prop := 1 ≤ h.matchlen ∧ h.pos + h.matchlen - 1 + dist < 2 ^ 32

/-- Too far to the left. -/
def Far (dist : Nat) (n m : ExtHit) : Prop := field n < field m ∨ field n = field m ∧ n.pos + n.matchlen - 1 + dist < m.pos

section Filter
variable {dist : Nat} {row : RowID} {m n : ExtHit}

theorem reach_of_fits (h : Fits dist m) : reach dist m = m.pos + m.matchlen - 1 + dist := by
  obtain ⟨hlen, hlt⟩ := h
  rw [reach]
  have heq : (m.pos : Int) + m.matchlen - 1 + (dist : Int) = ((m.pos + m.matchlen - 1 + dist : Nat) : Int) := by omega
  omega

theorem field_eq (h : ExtHit) : field h = h.pos / 2 ^ 24 := by
  rw [field, Hitman.getField, NWay.ExtHit.pos, Hitman.getPosWithField]
  omega

theorem field_mono (h : m.pos ≤ n.pos) : field m ≤ field n := by
  rw [field_eq, field_eq]
  exact Nat.div_le_div_right h

theorem Far.mono {m' : ExtHit} (h : Far dist n m) (hle : m.pos ≤ m'.pos) : Far dist n m' := by
  have hf := field_mono hle
  rcases h with h | ⟨h, hlt⟩
  · exact .inl (lt_of_lt_of_le h hf)
  · rcases lt_or_eq_of_le hf with hf | hf
    · exact .inl (h ▸ hf)
    · exact .inr ⟨h.trans hf, lt_of_lt_of_le hlt hle⟩

theorem Far.not_within (h : Far dist n m) (hn : 1 ≤ n.matchlen) : within dist m n = false := by
  rw [within, decide_eq_false_iff_not]
  rintro ⟨hf, hgap⟩
  rcases h with h | ⟨-, hlt⟩
  · omega
  · rw [gap, if_neg (by omega)] at hgap
    omega

theorem within_of_not_far (hm : 1 ≤ m.matchlen) (hn : 1 ≤ n.matchlen) (hf : field m = field n) (hfar : ¬ Far dist n m)
    (hright : n.pos ≤ m.pos + m.matchlen - 1 + dist) : within dist m n = true := by
  have hle : m.pos ≤ n.pos + n.matchlen - 1 + dist := Nat.le_of_not_lt fun hlt => hfar (.inr ⟨hf.symm, hlt⟩)
  rw [within, decide_eq_true_iff]
  refine ⟨hf, ?_⟩
  rw [gap]
  split <;> omega

theorem not_within_of_lt (hm : 1 ≤ m.matchlen) (h : m.pos + m.matchlen - 1 + dist < n.pos) : within dist m n = false := by
  rw [within, decide_eq_false_iff_not]
  rintro ⟨-, hgap⟩
  rw [gap, if_pos (by omega)] at hgap
  omega

theorem not_within_of_field (h : field m < field n) : within dist m n = false := by
  rw [within, decide_eq_false_iff_not]
  omega

theorem skipFar_spec (m : ExtHit) {tail : List ExtHit} (htail : ∀ h ∈ tail, h.rowID ≠ row) : ∀ nots : List ExtHit,
    (∀ h ∈ nots, h.rowID = row ∧ Fits dist h) →
    ∃ gone left, nots = gone ++ left ∧ skipFar dist row m (nots ++ tail) = left ++ tail ∧ (∀ n ∈ gone, Far dist n m) ∧
      ∀ n ∈ left.head?, ¬ Far dist n m
  | [], _ => by
    refine ⟨[], [], rfl, ?_, forall_mem_nil _, fun n hn => absurd hn (Option.not_mem_none n)⟩
    cases tail with
    | nil => rfl
    | cons t tail => exact if_neg (htail t mem_cons_self)
  | n :: nots, hn => by
    obtain ⟨hrow, hfits⟩ := hn n mem_cons_self
    have hmore : Far dist n m → ∃ gone left, n :: nots = gone ++ left ∧ skipFar dist row m (nots ++ tail) = left ++ tail ∧
        (∀ n ∈ gone, Far dist n m) ∧ ∀ n ∈ left.head?, ¬ Far dist n m := by
      intro hfar
      obtain ⟨gone, left, heq, hskip, hgone, hleft⟩ := skipFar_spec m htail nots (forall_mem_cons.mp hn).2
      exact ⟨n :: gone, left, by rw [heq, cons_append], hskip, forall_mem_cons.mpr ⟨hfar, hgone⟩, hleft⟩
    rw [cons_append, skipFar, if_pos hrow, reach_of_fits hfits]
    by_cases hlt : field n < field m
    · rw [if_pos hlt]
      exact hmore (.inl hlt)
    · rw [if_neg hlt]
      by_cases hgt : field m < field n
      · rw [if_pos hgt]
        refine ⟨[], n :: nots, rfl, rfl, forall_mem_nil _, fun k hk => ?_⟩
        cases hk
        rintro (h | ⟨h, -⟩)
        · exact hlt h
        · exact Nat.ne_of_gt hgt h
      · rw [if_neg hgt]
        have hf : field n = field m := le_antisymm (Nat.le_of_not_lt hgt) (Nat.le_of_not_lt hlt)
        by_cases hfar : n.pos + n.matchlen - 1 + dist < m.pos
        · rw [if_pos hfar]
          exact hmore (.inr ⟨hf, hfar⟩)
        · rw [if_neg hfar]
          refine ⟨[], n :: nots, rfl, rfl, forall_mem_nil _, fun k hk => ?_⟩
          cases hk
          rintro (h | ⟨-, h⟩)
          · exact hlt h
          · exact hfar h

/-- **The first right hit that is not too far to the left decides.** -/
theorem windowHit_spec (hm : Fits dist m) {tail left : List ExtHit} (htail : ∀ h ∈ tail, h.rowID ≠ row)
    (hleft : ∀ h ∈ left, h.rowID = row ∧ Fits dist h) (hsorted : left.Pairwise fun a b => a.pos ≤ b.pos)
    (hhead : ∀ n ∈ left.head?, ¬ Far dist n m) : windowHit dist row m (left ++ tail) = left.any (within dist m) := by
  cases left with
  | nil =>
    cases tail with
    | nil => rfl
    | cons t tail => exact if_neg (htail t mem_cons_self)
  | cons n left =>
    have hlater := (pairwise_cons.mp hsorted).1
    have hn := hhead n rfl
    rw [cons_append, windowHit, if_pos (hleft n mem_cons_self).1, reach_of_fits hm]
    by_cases hgt : field m < field n
    · rw [if_pos hgt]
      refine (any_eq_false.mpr fun k hk => ?_).symm
      rw [Bool.not_eq_true]
      rcases mem_cons.mp hk with rfl | hk
      · exact not_within_of_field hgt
      · exact not_within_of_field (lt_of_lt_of_le hgt (field_mono (hlater k hk)))
    · have hnlt : ¬ field n < field m := fun h => hn (.inl h)
      rw [if_neg hgt, if_neg hnlt]
      by_cases hright : m.pos + m.matchlen - 1 + dist < n.pos
      · rw [if_pos hright]
        refine (any_eq_false.mpr fun k hk => ?_).symm
        rw [Bool.not_eq_true]
        rcases mem_cons.mp hk with rfl | hk
        · exact not_within_of_lt hm.1 hright
        · exact not_within_of_lt hm.1 (lt_of_lt_of_le hright (hlater k hk))
      · have hf : field m = field n := le_antisymm (Nat.le_of_not_lt hnlt) (Nat.le_of_not_lt hgt)
        rw [if_neg hright, any_cons,
          within_of_not_far hm.1 (hleft n mem_cons_self).2.1 hf hn (Nat.le_of_not_lt hright)]
        rfl

/-- **`FilterHits` keeps the left hits with no right hit within the distance.** -/
theorem filterHits_spec {tailL tailR : List ExtHit} (htailL : ∀ h ∈ tailL, h.rowID ≠ row) (htailR : ∀ h ∈ tailR, h.rowID ≠ row) :
    ∀ (must gone left : List ExtHit), (∀ h ∈ must, h.rowID = row ∧ Fits dist h) → must.Pairwise (fun a b => a.pos ≤ b.pos) →
      (∀ h ∈ left, h.rowID = row ∧ Fits dist h) → left.Pairwise (fun a b => a.pos ≤ b.pos) →
      (∀ n ∈ gone, 1 ≤ n.matchlen ∧ ∀ m ∈ must, Far dist n m) →
      ∃ left', left' <:+ left ∧ filterHits dist row (must ++ tailL) (left ++ tailR) =
        (must.filter fun m => !(gone ++ left).any (within dist m), tailL, left' ++ tailR)
  | [], gone, left, _, _, _, _, _ => by
    refine ⟨left, suffix_refl _, ?_⟩
    cases tailL with
    | nil => rfl
    | cons t tail => exact if_neg (htailL t mem_cons_self)
  | m :: must, gone, left, hmust, hms, hleft, hls, hgone => by
    obtain ⟨hrow, hfits⟩ := hmust m mem_cons_self
    obtain ⟨far, left₁, rfl, hskip, hfar, hhead⟩ := skipFar_spec m htailR left hleft
    have hleft₁ : ∀ h ∈ left₁, h.rowID = row ∧ Fits dist h := (forall_mem_append.mp hleft).2
    have hls₁ := (pairwise_append.mp hls).2.1
    have hwindow := windowHit_spec hfits htailR hleft₁ hls₁ hhead
    have hlater := (pairwise_cons.mp hms).1
    have hgone' : ∀ n ∈ gone ++ far, 1 ≤ n.matchlen ∧ ∀ k ∈ must, Far dist n k := by
      intro n hn
      rcases List.mem_append.mp hn with hn | hn
      · exact ⟨(hgone n hn).1, fun k hk => (hgone n hn).2 k (mem_cons_of_mem _ hk)⟩
      · exact ⟨(hleft n (mem_append_left _ hn)).2.1, fun k hk => (hfar n hn).mono (hlater k hk)⟩
    -- those passed are not within the distance of this hit
    have hpassed : (gone ++ far).any (within dist m) = false := by
      refine any_eq_false.mpr fun n hn => ?_
      rw [Bool.not_eq_true]
      rcases List.mem_append.mp hn with hn | hn
      · exact ((hgone n hn).2 m mem_cons_self).not_within (hgone n hn).1
      · exact (hfar n hn).not_within (hleft n (mem_append_left _ hn)).2.1
    obtain ⟨left', hsuf, hrest⟩ := filterHits_spec htailL htailR must (gone ++ far) left₁
      (forall_mem_cons.mp hmust).2 (pairwise_cons.mp hms).2 hleft₁ hls₁ hgone'
    refine ⟨left', hsuf.trans (suffix_append _ _), ?_⟩
    rw [cons_append, filterHits, if_pos hrow, hskip]
    dsimp only
    rw [hwindow, hrest, ← append_assoc, filter_cons, any_append, hpassed, Bool.false_or]
    cases left₁.any (within dist m) <;> rfl

end Filter

/-! ## What is denoted by what is left -/

section Denoted
variable {near : ExtHit → ExtHit → Bool} {e f : Entry W} {l l' r r' : List (Entry W)}

theorem keeps_congr (h : ∀ f, f.rowID = e.rowID → (f ∈ r ↔ f ∈ r')) : keeps near r e = keeps near r' e := by
  have hsub : ∀ {r r' : List (Entry W)} {m : ExtHit}, (∀ f, f.rowID = e.rowID → f ∈ r → f ∈ r') →
      (r'.all fun f => f.rowID ≠ e.rowID || f.hits.all fun n => !near m n) = true →
      (r.all fun f => f.rowID ≠ e.rowID || f.hits.all fun n => !near m n) = true := by
    intro r r' m hr hall
    refine all_eq_true.mpr fun f hf => ?_
    by_cases hrow : f.rowID = e.rowID
    · exact all_eq_true.mp hall f (hr f hrow hf)
    · simp [hrow]
  refine filter_congr fun m _ => Bool.eq_iff_iff.mpr ⟨hsub fun f hrow => (h f hrow).mpr, hsub fun f hrow => (h f hrow).mp⟩

theorem denoted_congr (h : ∀ e ∈ l, ∀ f, f.rowID = e.rowID → (f ∈ r ↔ f ∈ r')) : denoted near l r = denoted near l r' := by
  rw [denoted, denoted, map_congr_left fun e he => by rw [keeps_congr (h e he)]]

theorem denoted_append : denoted near (l ++ l') r = denoted near l r ++ denoted near l' r := by
  rw [denoted, map_append, filter_append]
  rfl

theorem keeps_of_alone (h : ∀ f ∈ r, f.rowID ≠ e.rowID) : keeps near r e = e.hits := by
  refine filter_eq_self.mpr fun m _ => all_eq_true.mpr fun f hf => ?_
  simp [h f hf]

theorem denoted_alone (h : ∀ e ∈ l, ∀ f ∈ r, f.rowID ≠ e.rowID) : denoted near l r = l.map fun e => (e.doc, e.hits) := by
  rw [denoted, map_congr_left fun e he => by rw [keeps_of_alone (h e he)], filter_eq_self]
  intro k hk
  obtain ⟨e, -, rfl⟩ := mem_map.mp hk
  exact decide_eq_true e.some

theorem denoted_both (hl : Ascending (e :: l)) (hr : Ascending (f :: r)) (hrow : e.rowID = f.rowID) :
    denoted near (e :: l) (f :: r) =
      (if (e.hits.filter fun m => !f.hits.any (near m)) = [] then [] else [(e.doc, e.hits.filter fun m => !f.hits.any (near m))]) ++
        denoted near l r := by
  have hkeeps : keeps near (f :: r) e = e.hits.filter fun m => !f.hits.any (near m) := by
    refine filter_congr fun m _ => ?_
    have hlater : (r.all fun g => g.rowID ≠ e.rowID || g.hits.all fun n => !near m n) = true := by
      refine all_eq_true.mpr fun g hg => ?_
      have hne : g.rowID ≠ e.rowID := by
        rw [hrow]
        exact Nat.ne_of_gt (hr.head g hg)
      simp [hne]
    rw [all_cons, hlater, Bool.and_true, hrow, any_eq_not_all_not, Bool.not_not]
    simp
  have hrest : denoted near l (f :: r) = denoted near l r := by
    refine denoted_congr fun g hg k hk => ?_
    rw [mem_cons, or_iff_right]
    rintro rfl
    exact Nat.ne_of_gt (hl.head g hg) (hk.symm.trans hrow.symm)
  rw [show e :: l = [e] ++ l from rfl, denoted_append, hrest]
  congr 1
  rw [denoted, map_singleton, hkeeps]
  split
  · rename_i hnil
    rw [hnil]
    rfl
  · rename_i hne
    rw [filter_cons_of_pos (by exact decide_eq_true hne)]
    rfl

theorem buffered_denoted (h : Ascending l) : Buffered (denoted near l r) where
  own := by
    intro k hk m hm
    obtain ⟨e, -, rfl⟩ := mem_map.mp (mem_filter.mp hk).1
    exact e.own m (mem_filter.mp hm).1
  asc := by
    refine List.Pairwise.filter _ ?_
    rw [pairwise_map]
    exact h

end Denoted

/-! ## One turn of the loop -/

/-- The sorted hits of documents whose sums stay in the DWORD. -/
def Fine (dist : Nat) (es : List (Entry W)) : Prop :=
  ∀ e ∈ es, (∀ h ∈ e.hits, Fits dist h) ∧ e.hits.Pairwise fun a b => a.pos ≤ b.pos

section Turn
variable {dist : Nat} {n : ExtNotNear W} {e f : Entry W} {l r pl pr : List (Entry W)}

/-- Documents are copied up to the right one's row or the end of the chunk. -/
theorem copyMust_spec (notRow : RowID) : ∀ (room : Nat) (pl : List (Entry W)) (hits : List ExtHit), Ascending pl →
    (pl ≠ [] → hits = hitsOf pl) →
    ∃ copied left hits', pl = copied ++ left ∧
      copyMust notRow room (docsOf pl) hits = (docsOf copied, hitsOf copied, docsOf left, hits') ∧
      (left ≠ [] → hits' = hitsOf left) ∧ (∀ e ∈ copied, e.rowID < notRow) ∧ copied.length ≤ room ∧
      (copied.length < room → ∀ e ∈ left.head?, notRow ≤ e.rowID)
  | 0, pl, hits, _, hh => ⟨[], pl, hits, rfl, rfl, hh, forall_mem_nil _, Nat.le_refl _,
      fun h => absurd h (Nat.lt_irrefl _)⟩
  | room + 1, [], hits, _, hh => ⟨[], [], hits, rfl, rfl, hh, forall_mem_nil _, Nat.zero_le _,
      fun _ e he => absurd he (Option.not_mem_none e)⟩
  | room + 1, e :: pl, hits, hasc, hh => by
    rw [docsOf_cons, copyMust]
    by_cases hlt : e.doc.rowID < notRow
    · have hskip : skipHits e.rowID hits = e.hits ++ hitsOf pl := by
        rw [hh (cons_ne_nil _ _)]
        exact skipHits_headRow hasc (cons_ne_nil _ _) (forall_mem_nil _)
      obtain ⟨htake, hdrop⟩ := ownHits_append e.own fun h hmem => Nat.ne_of_gt (hasc.lt_of_mem_hitsOf hmem)
      obtain ⟨copied, left, hits', heq, hcopy, hleft, hcopied, hroom, hstop⟩ :=
        copyMust_spec notRow room pl (hitsOf pl) hasc.tail fun _ => rfl
      refine ⟨e :: copied, left, hits', by rw [heq, cons_append], ?_, hleft, forall_mem_cons.mpr ⟨hlt, hcopied⟩,
        Nat.succ_le_succ hroom, fun h => hstop (Nat.lt_of_succ_lt_succ h)⟩
      rw [if_pos hlt, hskip]
      dsimp only
      rw [htake, hdrop, hcopy]
      rfl
    · rw [if_neg hlt]
      refine ⟨[], e :: pl, hits, rfl, rfl, hh, forall_mem_nil _, Nat.zero_le _, fun _ g hg => ?_⟩
      cases hg
      exact Nat.le_of_not_lt hlt

theorem catchUp_spec {rd : Reader W} (h : rd.Stands pr r) (row : RowID) :
    ∃ gone pr' r', pr = gone ++ pr' ∧ r = gone ++ r' ∧ (Reader.catchUp rd row).Stands pr' r' ∧ (∀ g ∈ gone, g.rowID < row) ∧
      ∀ g ∈ pr'.head?, row ≤ g.rowID := by
  have hsplit := (takeWhile_append_dropWhile (p := fun g : Entry W => decide (g.rowID < row)) (l := pr)).symm
  generalize hg : pr.takeWhile (fun g => decide (g.rowID < row)) = gone at hsplit
  generalize hp : pr.dropWhile (fun g => decide (g.rowID < row)) = pr' at hsplit
  have hgone : ∀ g ∈ gone, g.rowID < row := fun g hmem => by
    rw [← hg] at hmem
    have := mem_takeWhile_imp hmem
    simpa using this
  have hhead : ∀ g ∈ pr'.head?, row ≤ g.rowID := fun g hmem => by
    have := head?_dropWhile_not (fun g : Entry W => decide (g.rowID < row)) pr
    rw [hp, Option.mem_def.mp hmem] at this
    simpa using this
  have hdocs : skipDocs row rd.docs = docsOf pr' := by
    rw [skipDocs, h.docs, docsOf, dropWhile_map, ← hp]
    rfl
  have hbefore := Reader.Before.skip (hsplit ▸ h.toBefore) (skipHits (headRow (docsOf pr')) rd.hits)
  refine ⟨gone, pr', pr' ++ rd.stream.chunks.flatten, hsplit, ?_, ?_, hgone, hhead⟩
  · rw [h.eq, hsplit, append_assoc]
  · rw [Reader.catchUp, hdocs]
    refine ⟨hbefore, fun hne => ?_⟩
    have hasc : Ascending (gone ++ pr') := by
      have := h.asc
      rw [h.eq, hsplit] at this
      exact this.left
    show skipHits (headRow (docsOf pr')) rd.hits = _
    rw [h.hits (by rw [hsplit]; exact append_ne_nil_of_right_ne_nil _ hne), hsplit, hitsOf_append]
    refine skipHits_headRow hasc.right hne fun k hk f hf => ?_
    obtain ⟨g, hmem, hrow⟩ := rowID_of_mem_hitsOf hk
    rw [hrow]
    exact (pairwise_append.mp hasc).2.2 g hmem f hf

/-- **A document of both operands** is added with the hits it keeps, if any. -/
theorem filterDoc_spec (docs : List (ExtDoc W)) (hdist : n.dist = dist) (hl : n.left.Stands (e :: pl) l) (hr : n.right.Stands (f :: pr) r)
    (hrow : e.rowID = f.rowID) (hfl : Fine dist l) (hfr : Fine dist r) :
    ∃ ks n', filterDoc docs n = (docs ++ ks.map (·.1), n') ∧ n'.dist = dist ∧ n'.myHits = n.myHits ++ keptHits ks ∧
      n'.left.Stands pl (pl ++ n.left.stream.chunks.flatten) ∧ n'.right.Stands pr (pr ++ n.right.stream.chunks.flatten) ∧
      ks.length ≤ 1 ∧ denoted (within dist) l r =
        ks ++ denoted (within dist) (pl ++ n.left.stream.chunks.flatten) (pr ++ n.right.stream.chunks.flatten) := by
  have hascl := hl.asc
  have hascr := hr.asc
  rw [hl.eq] at hascl
  rw [hr.eq] at hascr
  have hascl' : Ascending (e :: pl) := hascl.left
  have hascr' : Ascending (f :: pr) := hascr.left
  have hel : e ∈ l := by rw [hl.eq]; exact mem_append_left _ mem_cons_self
  have hfr' : f ∈ r := by rw [hr.eq]; exact mem_append_left _ mem_cons_self
  obtain ⟨left', hsuf, hfilter⟩ := filterHits_spec 
    (fun h hh => Nat.ne_of_gt (hascl'.lt_of_mem_hitsOf hh))
    (fun h hh => Nat.ne_of_gt (hrow ▸ hascr'.lt_of_mem_hitsOf hh)) e.hits [] f.hits
    (fun h hh => ⟨e.own h hh, (hfl e hel).1 h hh⟩) (hfl e hel).2
    (fun h hh => ⟨(f.own h hh).trans hrow.symm, (hfr f hfr').1 h hh⟩) (hfr f hfr').2 (forall_mem_nil _)
  rw [nil_append] at hfilter
  generalize hk : (e.hits.filter fun m => !f.hits.any (within dist m)) = kept at hfilter
  -- the left cursor stands behind the document's hits
  have hnext : hitRow (hitsOf pl) ≠ e.rowID := by
    cases hp : hitsOf pl with
    | nil => exact Nat.ne_of_gt e.valid
    | cons h hs => exact Nat.ne_of_gt (hascl'.lt_of_mem_hitsOf (by rw [hp]; exact mem_cons_self))
  obtain ⟨htake, hdrop⟩ := ownHits_append 
    (forall_mem_nil _) fun h hh => Nat.ne_of_gt (hascl'.lt_of_mem_hitsOf hh)
  rw [nil_append] at htake hdrop
  have heq : filterDoc docs n = (if kept ≠ [] then docs ++ [e.doc] else docs, { n with
      left := { n.left with
        docs := docsOf pl, hits := if docsOf pl = [] then hitsOf pl else skipHits (headRow (docsOf pl)) (hitsOf pl) }
      right := { n.right with
        docs := docsOf pr
        hits := if docsOf pr = [] then left' ++ hitsOf pr else skipHits (headRow (docsOf pr)) (left' ++ hitsOf pr) }
      myHits := n.myHits ++ kept }) := by
    rw [filterDoc, hl.docs]
    dsimp only [docsOf_cons]
    rw [hdist, hl.hits (cons_ne_nil _ _), hr.hits (cons_ne_nil _ _), hitsOf_cons, hitsOf_cons, hfilter]
    dsimp only
    rw [htake, hdrop, hr.docs, decide_eq_false hnext, append_nil, Bool.or_false]
    simp only [decide_eq_true_eq]
    rfl
  rw [heq]
  have hleftrow : ∀ h ∈ left', ∀ g ∈ pr, h.rowID < g.rowID := fun h hh g hg => by
    rw [f.own h (hsuf.subset hh)]
    exact hascr'.head g hg
  refine ⟨if kept = [] then [] else [(e.doc, kept)], _, Prod.ext ?_ rfl, hdist, ?_, hl.next fun hne => ?_, hr.next fun hne => ?_, ?_, ?_⟩
  · by_cases hnil : kept = []
    · rw [if_neg (Classical.not_not.mpr hnil), if_pos hnil, map_nil, append_nil]
    · rw [if_pos hnil, if_neg hnil]
      rfl
  · show n.myHits ++ kept = _
    by_cases hnil : kept = []
    · rw [if_pos hnil, hnil]
      rfl
    · rw [if_neg hnil, keptHits, flatMap_singleton]
  · rw [if_neg fun hnil => hne (docsOf_eq_nil.mp hnil)]
    exact skipHits_headRow hascl'.tail hne (forall_mem_nil _)
  · rw [if_neg fun hnil => hne (docsOf_eq_nil.mp hnil)]
    exact skipHits_headRow hascr'.tail hne hleftrow
  · split
    · exact Nat.zero_le _
    · exact Nat.le_refl _
  · rw [← hk, hl.eq, hr.eq]
    exact denoted_both hascl hascr hrow

/-- **Where the loop stands**: `l` and `r` are what the operands have still to give. -/
structure At (dist : Nat) (n : ExtNotNear W) (l r : List (Entry W)) : Prop where
  same : n.dist = dist
  left : ∃ pl, n.left.Stands pl l
  right : ∃ pr, n.right.Stands pr r
  fineL : Fine dist l
  fineR : Fine dist r

/-- What the loop has done: the documents and hits added are the first of those denoted. -/
structure Done (dist : Nat) (docs : List (ExtDoc W)) (n : ExtNotNear W) (l r : List (Entry W)) (ks : List (Kept W))
    (docs' : List (ExtDoc W)) (n' : ExtNotNear W) (l' r' : List (Entry W)) : Prop where
  docs : docs' = docs ++ ks.map (·.1)
  hits : n'.myHits = n.myHits ++ keptHits ks
  denoted : denoted (within dist) l r = ks ++ denoted (within dist) l' r'
  length : docs'.length ≤ MAX_BLOCK_DOCS - 1

theorem Fine.mono {es fs : List (Entry W)} (h : Fine dist es) (hsub : fs ⊆ es) : Fine dist fs := fun e he => h e (hsub he)

/-- The right operand after the hint: nothing at or after the left document is lost, and it has a document unless it is
over. -/
theorem hintRight_spec (rightEmpty : Bool) (hright : n.right.Stands pr r) (hempty : rightEmpty = true → r = []) (row : RowID)
    {right : Reader W} (heq : right = if rightEmpty then n.right else (n.right.hintRowID row).warmupDocs) :
    ∃ pr' r', right.Stands pr' r' ∧ r'.Sublist r ∧ (∀ g ∈ r, row ≤ g.rowID → g ∈ r') ∧
      ((rightEmpty || decide (right.docs = [])) = true → r' = []) ∧
      ((rightEmpty || decide (right.docs = [])) = false → pr' ≠ []) := by
  cases rightEmpty with
  | true =>
    rw [heq, if_pos rfl]
    exact ⟨pr, r, hright, List.Sublist.refl _, fun g hg _ => hg, fun _ => hempty rfl, fun h => absurd h.symm Bool.false_ne_true⟩
  | false =>
    obtain ⟨r₁, hbefore, hsub, hkeeps⟩ := hright.toBefore.hint row
    have hstands : (n.right.hintRowID row).Stands pr r₁ := ⟨hbefore, hright.hits⟩
    rw [Bool.false_or, decide_eq_true_iff, decide_eq_false_iff_not, heq]
    rcases hstands.warmupDocs with ⟨rfl, hover⟩ | ⟨pr', hne, hover⟩
    · exact ⟨[], [], hover, nil_sublist _, hkeeps, fun _ => rfl, fun h => absurd hover.docs h⟩
    · exact ⟨pr', r₁, hover, hsub, hkeeps, fun h => absurd (hover.docs_eq_nil.mp h) hne, fun _ => hne⟩

variable {docs : List (ExtDoc W)}

/-- The first half of a turn; `copied` are the documents copied. -/
theorem copyTurn_spec (rightEmpty : Bool) (h : At dist n l r) (hempty : rightEmpty = true → r = [])
    (hroom : docs.length < MAX_BLOCK_DOCS - 1) (hleft : n.left.Stands (e :: pl) l) :
    ∃ re n' l' r' copied left pr, copyTurn rightEmpty docs n = (re, docs ++ docsOf copied, n') ∧ At dist n' l' r' ∧
      n'.left.Stands left l' ∧ n'.right.Stands pr r' ∧ e :: pl = copied ++ left ∧ l = copied ++ l' ∧ r'.length ≤ r.length ∧
      Done dist docs n l r (copied.map fun g => (g.doc, g.hits)) (docs ++ docsOf copied) n' l' r' ∧
      (re = true → r' = []) ∧ (re = false → pr ≠ []) ∧
      ((docs ++ docsOf copied).length < MAX_BLOCK_DOCS - 1 →
        ∀ g ∈ left.head?, (re = true → invalidRowID ≤ g.rowID) ∧ ∀ f ∈ pr.head?, f.rowID ≤ g.rowID) := by
  obtain ⟨pr₀, hright₀⟩ := h.right
  have hle : ∀ g ∈ l, e.rowID ≤ g.rowID := fun g hg => hleft.le_of_mem hg
  generalize hright₁ : (if rightEmpty then n.right else (n.right.hintRowID (headRow n.left.docs)).warmupDocs) = right
  obtain ⟨pr, r₁, hright, hsub, hsame, hover, hmore⟩ := hintRight_spec rightEmpty hright₀ hempty _ hright₁.symm
  rw [hleft.headRow_cons] at hsame
  generalize hre : (rightEmpty || decide (right.docs = [])) = re at hover hmore
  generalize hnot : (if re then invalidRowID else headRow right.docs) = notRow
  have hnotle : ∀ g ∈ r₁, notRow ≤ g.rowID := by
    intro g hg
    cases re with
    | true =>
      rw [hover rfl] at hg
      exact absurd hg not_mem_nil
    | false =>
      obtain ⟨f, pr, rfl⟩ := exists_cons_of_ne_nil (hmore rfl)
      rw [← hnot, if_neg Bool.false_ne_true, hright.headRow_cons]
      exact hright.le_of_mem hg
  have hasc := hleft.asc
  rw [hleft.eq] at hasc
  obtain ⟨copied, left, hits', hsplit, hcopy, hhits', hcopied, hcroom, hstop⟩ :=
    copyMust_spec notRow (MAX_BLOCK_DOCS - 1 - docs.length) (e :: pl) n.left.hits hasc.left hleft.hits
  rw [← hleft.docs] at hcopy
  have hlsplit : l = copied ++ (left ++ n.left.stream.chunks.flatten) := by rw [hleft.eq, hsplit, append_assoc]
  have hleft₁ : ({ n.left with docs := docsOf left, hits := hits' } : Reader W).Stands left
      (left ++ n.left.stream.chunks.flatten) := ⟨Reader.Before.skip (hsplit ▸ hleft.toBefore) hits', hhits'⟩
  generalize left ++ n.left.stream.chunks.flatten = l₁ at hleft₁ hlsplit
  have hden : denoted (within dist) l r = (copied.map fun g => (g.doc, g.hits)) ++ denoted (within dist) l₁ r₁ := by
    rw [denoted_congr fun g hg k hk => ⟨fun hmem => hsame k hmem (hk ▸ hle g hg), fun hmem => hsub.subset hmem⟩,
      hlsplit, denoted_append,
      denoted_alone fun g hg k hk hrow => absurd (hnotle k hk) (Nat.not_le_of_lt (hrow ▸ hcopied g hg))]
  have heq : copyTurn rightEmpty docs n = (re, docs ++ docsOf copied, { n with
      left := { n.left with docs := docsOf left, hits := hits' }
      right := right
      myHits := n.myHits ++ hitsOf copied }) := by
    rw [copyTurn, hright₁]
    dsimp only
    rw [hre, hnot, hcopy]
  refine ⟨re, _, l₁, r₁, copied, left, pr, heq, ⟨h.same, ⟨left, hleft₁⟩, ⟨pr, hright⟩,
    h.fineL.mono (by rw [hlsplit]; exact subset_append_right _ _), h.fineR.mono hsub.subset⟩, hleft₁, hright, hsplit, hlsplit,
    hsub.length_le, ⟨?_, ?_, hden, ?_⟩, hover, hmore, fun hlt g hg => ?_⟩
  · rw [map_map]
    rfl
  · show n.myHits ++ hitsOf copied = _
    rw [keptHits, flatMap_map]
    rfl
  · rw [length_append, docsOf, length_map]
    omega
  · have hge := hstop (by rw [length_append, docsOf, length_map] at hlt; omega) g hg
    refine ⟨fun h => by rw [← hnot, if_pos h] at hge; exact hge, fun f hf => ?_⟩
    obtain ⟨pr, rfl⟩ : ∃ pr', pr = f :: pr' := by
      cases pr with
      | nil => cases hf
      | cons k pr =>
        cases hf
        exact ⟨pr, rfl⟩
    cases re with
    | true =>
      have := hright.eq
      rw [hover rfl] at this
      cases this
    | false =>
      rw [← hnot, if_neg Bool.false_ne_true, hright.headRow_cons] at hge
      exact hge

/-- The second half of a turn: a document of both operands is done, or right documents are passed. -/
theorem matchTurn_spec (h : At dist n l r) (hleft : n.left.Stands (e :: pl) l) (hright : n.right.Stands pr r)
    (hroom : docs.length < MAX_BLOCK_DOCS - 1) :
    ∃ ks n' l' r', matchTurn docs n = (docs ++ ks.map (·.1), n') ∧ At dist n' l' r' ∧
      Done dist docs n l r ks (docs ++ ks.map (·.1)) n' l' r' ∧ l'.length ≤ l.length ∧ r'.length ≤ r.length ∧
      (l'.length + r'.length < l.length + r.length ∨ ∀ f ∈ pr.head?, e.rowID < f.rowID) := by
  obtain ⟨gone, pr', r', hpr, hr, hcaught, hgone, hhead⟩ := catchUp_spec hright e.rowID
  have hle : ∀ g ∈ l, e.rowID ≤ g.rowID := fun g hg => hleft.le_of_mem hg
  have hden : denoted (within dist) l r = denoted (within dist) l r' := by
    refine denoted_congr fun g hg k hk => ?_
    rw [hr, List.mem_append, or_iff_right]
    exact fun hmem => absurd (hgone k hmem) (not_lt.mpr (hk ▸ hle g hg))
  have hfine : Fine dist r' := h.fineR.mono (by rw [hr]; exact subset_append_right _ _)
  have hrlen : r.length = gone.length + r'.length := by rw [hr, length_append]
  rw [matchTurn, hleft.headRow_cons]
  by_cases hno : (Reader.catchUp n.right e.rowID).hits = [] ∨ e.rowID ≠ headRow (Reader.catchUp n.right e.rowID).docs
  · rw [if_pos hno]
    refine ⟨[], { n with right := Reader.catchUp n.right e.rowID }, l, r', by rw [map_nil, append_nil],
      ⟨h.same, h.left, ⟨pr', hcaught⟩, h.fineL, hfine⟩,
      ⟨rfl, by rw [keptHits, flatMap_nil, append_nil], hden, ?_⟩, le_refl _, by omega, ?_⟩
    · rw [map_nil, append_nil]
      exact le_of_lt hroom
    · cases gone with
      | cons g gone =>
        left
        rw [length_cons] at hrlen
        omega
      | nil =>
        right
        intro f hf
        rw [hpr, nil_append] at hf
        obtain ⟨pr'', rfl⟩ := head?_eq_some_iff.mp hf
        refine lt_of_le_of_ne (hhead f hf) fun heq => hno.elim (fun hnil => ?_) fun hne => hne ?_
        · rw [hcaught.hits (cons_ne_nil _ _), hitsOf_cons] at hnil
          exact f.some (append_eq_nil_iff.mp hnil).1
        · rw [hcaught.headRow_cons]
          exact heq
  · rw [if_neg hno]
    obtain ⟨-, hrow⟩ := not_or.mp hno
    rw [Classical.not_not] at hrow
    cases pr' with
    | nil =>
      rw [hcaught.docs] at hrow
      exact absurd hrow (ne_of_lt e.valid)
    | cons f pr' =>
      rw [hcaught.headRow_cons] at hrow
      obtain ⟨ks, n', heq, hsame, hhits, hl', hr', hone, hden'⟩ :=
        filterDoc_spec (n := { n with right := Reader.catchUp n.right e.rowID }) docs h.same hleft hcaught hrow h.fineL hfine
      dsimp only at hl' hr' hden'
      have hllen := congrArg List.length hleft.eq
      have hrlen' := congrArg List.length hcaught.eq
      rw [cons_append, length_cons] at hllen hrlen'
      refine ⟨ks, n', _, _, heq, ⟨hsame, ⟨pl, hl'⟩, ⟨pr', hr'⟩, h.fineL.mono ?_, hfine.mono ?_⟩,
        ⟨rfl, hhits, hden.trans hden', ?_⟩, ?_, ?_, .inl ?_⟩
      · rw [hleft.eq]
        exact fun g hg => mem_cons_of_mem _ hg
      · rw [hcaught.eq]
        exact fun g hg => mem_cons_of_mem _ hg
      · rw [length_append, length_map]
        omega
      · omega
      · omega
      · omega

theorem Done.trans {docs' docs'' : List (ExtDoc W)} {n' n'' : ExtNotNear W} {l' r' l'' r'' : List (Entry W)}
    {ks ks' : List (Kept W)} (h : Done dist docs n l r ks docs' n' l' r') (h' : Done dist docs' n' l' r' ks' docs'' n'' l'' r'') :
    Done dist docs n l r (ks ++ ks') docs'' n'' l'' r'' where
  docs := by rw [h'.docs, h.docs, map_append, append_assoc]
  hits := by rw [h'.hits, h.hits, keptHits, keptHits, keptHits, flatMap_append, append_assoc]
  denoted := by rw [h.denoted, h'.denoted, append_assoc]
  length := h'.length

/-- **A turn makes progress**, from a document of the left operand and with room in the chunk. -/
theorem loop_step (fuel : Nat) (rightEmpty : Bool) (h : At dist n l r) (hempty : rightEmpty = true → r = [])
    (hroom : docs.length < MAX_BLOCK_DOCS - 1) (hl : l ≠ []) :
    ∃ re ks docs' n' l' r', loop (fuel + 1) rightEmpty docs n = loop fuel re docs' n' ∧ At dist n' l' r' ∧ (re = true → r' = []) ∧
      Done dist docs n l r ks docs' n' l' r' ∧ l'.length + r'.length < l.length + r.length := by
  obtain ⟨pl₀, hleft₀⟩ := h.left
  obtain ⟨pl, hpl, hleft⟩ := (hleft₀.warmupDocs).resolve_left fun h => hl h.1
  obtain ⟨e, pl, rfl⟩ := exists_cons_of_ne_nil hpl
  have hnil : ¬ n.left.warmupDocs.docs = [] := fun hnil => cons_ne_nil _ _ (hleft.docs_eq_nil.mp hnil)
  rw [loop, if_pos hroom, if_neg hnil]
  have hwarm : At dist { n with left := n.left.warmupDocs } l r := ⟨h.same, ⟨_, hleft⟩, h.right, h.fineL, h.fineR⟩
  obtain ⟨re, n₁, l₁, r₁, copied, left, pr, heq, hat, hleft₁, hright₁, hsplit, hlsplit, hrlen, hdone, hover, hmore, hstop⟩ :=
    copyTurn_spec rightEmpty hwarm hempty hroom hleft
  have hdone₁ : Done dist docs n l r (copied.map fun g => (g.doc, g.hits)) (docs ++ docsOf copied) n₁ l₁ r₁ :=
    ⟨hdone.docs, hdone.hits, hdone.denoted, hdone.length⟩
  have hllen : l.length = copied.length + l₁.length := by rw [hlsplit, length_append]
  rw [heq]
  -- a turn that copied something has made progress
  have hcopied : copied ≠ [] → l₁.length + r₁.length < l.length + r.length := fun hne => by
    have := length_pos_iff.mpr hne
    omega
  by_cases hfull : n₁.left.docs = [] ∨ (docs ++ docsOf copied).length = MAX_BLOCK_DOCS - 1
  · rw [if_pos hfull]
    refine ⟨re, _, _, n₁, l₁, r₁, rfl, hat, hover, hdone₁, hcopied ?_⟩
    rintro rfl
    rcases hfull with hfull | hfull
    · rw [hleft₁.docs_eq_nil.mp hfull] at hsplit
      cases hsplit
    · rw [docsOf_nil, append_nil] at hfull
      omega
  · rw [if_neg hfull]
    obtain ⟨hdocs, hlen⟩ := not_or.mp hfull
    obtain ⟨g, left, rfl⟩ := exists_cons_of_ne_nil fun hnil => hdocs (hleft₁.docs_eq_nil.mpr hnil)
    have hlt : (docs ++ docsOf copied).length < MAX_BLOCK_DOCS - 1 := lt_of_le_of_ne hdone.length hlen
    obtain ⟨hvalid, hpassed⟩ := hstop hlt g rfl
    cases hre : re with
    | true =>
      exact absurd (hvalid hre) (Nat.not_le_of_lt g.valid)
    | false =>
      obtain ⟨ks, n', l', r', hmatch, hat', hdone', hl', hr', hless⟩ := matchTurn_spec hat hleft₁ hright₁ hlt
      rw [hmatch]
      refine ⟨false, _, _, n', l', r', rfl, hat', fun h => absurd h Bool.false_ne_true, hdone₁.trans hdone', ?_⟩
      rcases hless with hless | hless
      · omega
      · obtain ⟨f, pr, rfl⟩ := exists_cons_of_ne_nil (hmore hre)
        exact absurd (hpassed f rfl) (Nat.not_le_of_lt (hless f rfl))

/-- **A chunk holds the next documents denoted**, and it is full unless the left operand is over. -/
theorem loop_spec : ∀ (fuel : Nat) (rightEmpty : Bool) (docs : List (ExtDoc W)) (n : ExtNotNear W) (l r : List (Entry W)),
    At dist n l r → (rightEmpty = true → r = []) → docs.length ≤ MAX_BLOCK_DOCS - 1 → l.length + r.length < fuel →
    ∃ ks docs' n' l' r', loop fuel rightEmpty docs n = some (docs', n') ∧ At dist n' l' r' ∧ Done dist docs n l r ks docs' n' l' r' ∧
      l'.length + r'.length ≤ l.length + r.length ∧ (docs'.length < MAX_BLOCK_DOCS - 1 → l' = [])
  | 0, _, _, _, _, _, _, _, _, hfuel => absurd hfuel (Nat.not_lt_zero _)
  | fuel + 1, rightEmpty, docs, n, l, r, h, hempty, hdocs, hfuel => by
    by_cases hroom : docs.length < MAX_BLOCK_DOCS - 1
    · by_cases hl : l = []
      · subst hl
        obtain ⟨pl, hleft⟩ := h.left
        rcases hleft.warmupDocs with ⟨-, hover⟩ | ⟨pl', hne, hstands⟩
        · refine ⟨[], docs, { n with left := n.left.warmupDocs }, [], r, ?_, ⟨h.same, ⟨_, hover⟩, h.right, h.fineL, h.fineR⟩,
            ⟨?_, ?_, rfl, hdocs⟩, le_refl _, fun _ => rfl⟩
          · rw [loop, if_pos hroom, if_pos (hover.docs.trans docsOf_nil)]
          · rw [map_nil, append_nil]
          · rw [keptHits, flatMap_nil, append_nil]
        · exact absurd (append_eq_nil_iff.mp hstands.eq.symm).1 hne
      · obtain ⟨re, ks, docs₁, n₁, l₁, r₁, hstep, hat, hempty₁, hdone, hless⟩ := loop_step fuel rightEmpty h hempty hroom hl
        obtain ⟨ks', docs', n', l', r', hloop, hat', hdone', hle, hfull⟩ :=
          loop_spec fuel re docs₁ n₁ l₁ r₁ hat hempty₁ hdone.length (by omega)
        exact ⟨_, docs', n', l', r', hstep.trans hloop, hat', hdone.trans hdone', by omega, hfull⟩
    · refine ⟨[], docs, n, l, r, ?_, h, ⟨?_, ?_, rfl, hdocs⟩, le_refl _, fun h => absurd h hroom⟩
      · rw [loop, if_neg hroom]
      · rw [map_nil, append_nil]
      · rw [keptHits, flatMap_nil, append_nil]

end Turn

/-! ## Whole runs -/

theorem length_denoted_le (near : ExtHit → ExtHit → Bool) (l r : List (Entry W)) : (denoted near l r).length ≤ l.length := by
  exact le_trans (length_filter_le _ _) (le_of_eq (length_map _))

/-- The node has the documents `ks` to return, and `k` is enough for a call. -/
def To (dist k : Nat) (n : ExtNotNear W) (ks : List (Kept W)) : Prop :=
  ∃ l r, At dist n l r ∧ ks = denoted (within dist) l r ∧ l.length + r.length < k

theorem gives (dist k : Nat) : (buffered k : BufferedNode W _).Gives (To dist k) where
  buffered := fun n ks h => by
    obtain ⟨l, r, hat, rfl, -⟩ := h
    obtain ⟨pl, hpl⟩ := hat.left
    exact buffered_denoted hpl.asc
  setHits := fun n ks hits h => by
    obtain ⟨l, r, hat, rfl, hk⟩ := h
    exact ⟨⟨l, r, ⟨hat.same, hat.left, hat.right, hat.fineL, hat.fineR⟩, rfl, hk⟩, rfl⟩
  chunk := fun n ks h => by
    obtain ⟨l, r, hat, rfl, hk⟩ := h
    obtain ⟨now, docs, n', l', r', hloop, hat', hdone, hle, hover⟩ :=
      loop_spec k false [] n l r hat (fun h => absurd h Bool.false_ne_true) (Nat.zero_le _) hk
    obtain rfl : docs = now.map (·.1) := hdone.docs
    have hlen := hdone.length
    rw [length_map] at hlen hover
    refine ⟨now, denoted (within dist) l' r', n', hloop, hdone.denoted, hdone.hits, ⟨l', r', hat', rfl, by omega⟩,
      fun hnil => ?_, Nat.lt_of_le_of_lt hlen (by decide)⟩
    rw [hover (by rw [hnil, length_nil]; decide)]
    rfl

/-- **NOTNEAR is exact.**  Whatever the chunks of the operands and whatever the hints make of them, the documents returned
are those with a left hit that has no right hit of its field within the distance, and the hits of the documents a caller
asks for are these. -/
theorem notNear_exact (dist : Nat) (left right : Operand W) (hleft : Fine dist left.entries) (hright : Fine dist right.entries)
    (pick : ExtDoc W → Bool) (k : Nat) (hk : left.entries.length + right.entries.length < k) :
    ∃ visits, (buffered k).drain pick k { left := left.reader, right := right.reader, dist := dist } = some visits ∧
      visits.flatMap (·.1) = (denoted (within dist) left.entries right.entries).map (·.1) ∧
      visits.flatMap (·.2) = keptHits ((denoted (within dist) left.entries right.entries).filter fun k => pick k.1) ∧
      ∀ v ∈ visits, v.1.length < MAX_BLOCK_DOCS := by
  have hlen := length_denoted_le (within dist) left.entries right.entries
  obtain ⟨pieces, hdrain, hflat, hpieces⟩ := (gives dist k).drain pick k
    { left := left.reader, right := right.reader, dist := dist } _
    ⟨_, _, ⟨rfl, ⟨[], left.stands⟩, ⟨[], right.stands⟩, hleft, hright⟩, rfl, hk⟩ (forall_mem_nil _) (by omega)
  obtain ⟨hdocs, hhits⟩ := flatMap_visit pick pieces
  rw [hflat] at hdocs hhits
  refine ⟨_, hdrain, hdocs, hhits, fun v hv => ?_⟩
  obtain ⟨c, hc, rfl⟩ := mem_map.mp hv
  rw [visit, length_map]
  exact (hpieces c hc).2

/-- An operand with one document, in row 1. -/
def rowOne (place : Nat) (places : List Nat) : Operand Nat where
  chunks := [oneDoc 1 place places]
  hinter := .none
  full := by simp [oneDoc, ExtNode.invalidRowID]
  ascending := by simp [Ascending, oneDoc, ExtNode.invalidRowID]

/-- Closer than the distance. -/
def closer (dist : Nat) (m n : ExtHit) : Bool := field m = field n ∧ gap m n < dist

/-- `a NOTNEAR/3 b` does not return a document where `b` is the third word after `a`. -/
theorem notNear_excludes_distance :
    (buffered 3).drain (fun _ => true) 3
        { left := (rowOne 1 []).reader, right := (rowOne 4 []).reader, dist := 3 } = some [] ∧
      (denoted (closer 3) (rowOne 1 []).entries (rowOne 4 []).entries).map (·.1.rowID) = [1] := by
  decide

/-- An operand with two documents, in two chunks. -/
def twoRows : Operand Nat where
  chunks := [oneDoc 1 1 [9], oneDoc 2 4 []]
  hinter := .none
  full := by simp [oneDoc, ExtNode.invalidRowID]
  ascending := by simp [Ascending, oneDoc, ExtNode.invalidRowID]

/-- In row 1 the second of two hits stays, and row 2 is in one operand only. -/
theorem notNear_exact_twoRows : Fine 3 twoRows.entries ∧ Fine 3 (rowOne 3 [14]).entries ∧
    ∃ visits, (buffered 5).drain (fun _ => true) 5
        { left := twoRows.reader, right := (rowOne 3 [14]).reader, dist := (3 : Nat) } = some visits ∧
      visits.flatMap (·.1) = (denoted (within 3) twoRows.entries (rowOne 3 [14]).entries).map (·.1) ∧
      visits.flatMap (·.2) =
        keptHits ((denoted (within 3) twoRows.entries (rowOne 3 [14]).entries).filter fun _ => true) ∧
      ∀ v ∈ visits, v.1.length < MAX_BLOCK_DOCS := by
  have hleft : Fine 3 twoRows.entries :=
    forall_mem_cons.mpr ⟨⟨by unfold Fits; decide, by decide⟩, forall_mem_singleton.mpr ⟨by unfold Fits; decide, by decide⟩⟩
  have hright : Fine 3 (rowOne 3 [14]).entries :=
    forall_mem_singleton.mpr ⟨by unfold Fits; decide, by decide⟩
  exact ⟨hleft, hright, notNear_exact 3 twoRows _ hleft hright (fun _ => true) 5 (by decide)⟩

end NotNear
end Manticore

import Manticore.Arrays
import Manticore.HitStream
/-!
# Conditional — terms with a condition on their positions (`ExtConditional_T`, `TermAcceptor_T`)

The node reads its term ahead of the caller: a chunk of raw documents with all their hits, walked with two cursors.  A hit
the acceptor takes makes its document a document of the node, and the hits taken go to a buffer that the caller empties
with `GetHits`.  The raw `GetHits` hands over the hits of a whole chunk, so the hits of one document are never cut.
-/
namespace Manticore
namespace Conditional

open ExtNode (RowID invalidRowID ExtDoc MAX_BLOCK_DOCS)
open NWay (ExtHit)
open HitStream
open Arrays (getD_swap)
open List

variable {W : Type}

/-! ## Acceptors -/

/-- `TermAcceptor_T`: a test on hits that may remember something, and the condition it decides all the same. -/
structure Acceptor where
  State : Type
  init : State
  isAcceptableHit : State → ExtHit → Bool × State
  cond : ExtHit → Bool
  Inv : State → Prop
  inv_init : Inv init
  decides : ∀ s h, Inv s → (isAcceptableHit s h).1 = cond h ∧ Inv (isAcceptableHit s h).2

/-- An acceptor without a state. -/
def Acceptor.pure (cond : ExtHit → Bool) : Acceptor where
  State := Unit
  init := ()
  isAcceptableHit := fun _ h => (cond h, ())
  cond := cond
  Inv := fun _ => True
  inv_init := trivial
  decides := fun _ _ _ => ⟨rfl, trivial⟩

/-- `TERM_POS_FIELD_LIMIT` -/
def Acceptor.fieldLimit (maxFieldPos : Int) : Acceptor := .pure fun h => Hitman.getPos h.hitpos ≤ maxFieldPos

/-- `TERM_POS_FIELD_START` -/
def Acceptor.fieldStart : Acceptor := .pure fun h => Hitman.getPos h.hitpos = 1

/-- `TERM_POS_FIELD_END` -/
def Acceptor.fieldEnd : Acceptor := .pure fun h => Hitman.isEnd h.hitpos

/-- `TERM_POS_FIELD_STARTEND` -/
def Acceptor.fieldStartEnd : Acceptor := .pure fun h => Hitman.getPos h.hitpos = 1 && Hitman.isEnd h.hitpos

/-- `SphZoneHit_e` -/
inductive ZoneHit
  | found
  | noSpan
  | noDocument
  deriving DecidableEq

/-- `ISphZoneCheck`: that a zone does not occur in a document is said of all its hits. -/
structure ZoneCheck where
  isInZone : Nat → ExtHit → ZoneHit
  noDocument : ∀ zone h k, k.rowID = h.rowID → isInZone zone h = .noDocument → isInZone zone k = .noDocument

/-- What `TERM_POS_ZONES` remembers: the zones known not to occur in the last document stand before `checkFrom`. -/
structure Zones where
  zones : List Nat
  lastRow : RowID := invalidRowID
  checkFrom : Nat := 0

/-- The loop over the zones from `i` on, `n` of them. -/
def checkZones (z : ZoneCheck) (h : ExtHit) : Nat → Nat → Zones → Bool × Zones
  | 0, _, s => (false, s)
  | n + 1, i, s =>
    match z.isInZone (s.zones.getD i 0) h with
    | .found => (true, s)
    | .noDocument => checkZones z h n (i + 1) { s with zones := s.zones.swap i s.checkFrom, checkFrom := s.checkFrom + 1 }
    | .noSpan => checkZones z h n (i + 1) s

/-- `TermAcceptor_T<TERM_POS_ZONES>::IsAcceptableHit` -/
def isInZones (z : ZoneCheck) (s : Zones) (h : ExtHit) : Bool × Zones :=
  let s := { s with checkFrom := if s.lastRow ≠ h.rowID then 0 else s.checkFrom, lastRow := h.rowID }
  checkZones z h (s.zones.length - s.checkFrom) s.checkFrom s

/-- The zones are those of the term, in some order, and the first `checkFrom` do not occur in the last document. -/
structure ZonesInv (z : ZoneCheck) (zones : List Nat) (s : Zones) : Prop where
  perm : s.zones.Perm zones
  le : s.checkFrom ≤ s.zones.length
  absent : ∀ h : ExtHit, h.rowID = s.lastRow → ∀ j < s.checkFrom, z.isInZone (s.zones.getD j 0) h = .noDocument

/-- The loop finds a zone if there is one from `i` on, and keeps the invariant. -/
theorem checkZones_spec (z : ZoneCheck) (zones : List Nat) (h : ExtHit) : ∀ (n i : Nat) (s : Zones), ZonesInv z zones s →
    s.lastRow = h.rowID → s.checkFrom ≤ i → i + n = s.zones.length →
    (∀ j < i, z.isInZone (s.zones.getD j 0) h ≠ .found) →
    (checkZones z h n i s).1 = zones.any (fun zone => z.isInZone zone h = .found) ∧ ZonesInv z zones (checkZones z h n i s).2
  | 0, i, s, hs, _, _, hlen, hno => by
    refine ⟨?_, hs⟩
    rw [checkZones, eq_comm, any_eq_false]
    intro zone hzone hfound
    obtain ⟨j, hj, rfl⟩ := getElem_of_mem (hs.perm.mem_iff.mpr hzone)
    refine hno j (by omega) ?_
    rw [getD_eq_getElem _ _ hj]
    exact of_decide_eq_true hfound
  | n + 1, i, s, hs, hrow, hle, hlen, hno => by
    have hi : i < s.zones.length := by omega
    have hc : s.checkFrom < s.zones.length := by omega
    rw [checkZones]
    cases hz : z.isInZone (s.zones.getD i 0) h with
    | found =>
      refine ⟨?_, hs⟩
      rw [eq_comm, any_eq_true]
      rw [getD_eq_getElem _ _ hi] at hz
      exact ⟨_, hs.perm.mem_iff.mp (getElem_mem hi), decide_eq_true hz⟩
    | noSpan =>
      refine checkZones_spec z zones h n (i + 1) s hs hrow (by omega) (by omega) fun j hj => ?_
      rcases lt_or_eq_of_le (Nat.le_of_lt_succ hj) with hj | rfl
      · exact hno j hj
      · rw [hz]
        exact ZoneHit.noConfusion
    | noDocument =>
      refine checkZones_spec z zones h n (i + 1) _ ⟨(swap_perm ..).trans hs.perm, ?_, fun k hk j hj => ?_⟩ hrow ?_ ?_ fun j hj => ?_
      · rw [length_swap]
        exact hc
      · -- the zone at `i` joins those known to be absent
        dsimp only at hk hj ⊢
        rw [getD_swap hi hc]
        split
        · exact z.noDocument _ h k (hk.trans hrow) hz
        · rw [if_neg (by omega)]
          exact hs.absent k hk j (by omega)
      · exact Nat.succ_le_succ hle
      · rw [length_swap]
        omega
      · rw [getD_swap hi hc]
        split
        · rw [hz]
          exact ZoneHit.noConfusion
        · split
          · exact hno _ (by omega)
          · exact hno j (by omega)

/-- **The zones acceptor decides "in one of the zones"**, whatever hits it saw before. -/
def Acceptor.zones (z : ZoneCheck) (zones : List Nat) : Acceptor where
  State := Zones
  init := { zones }
  isAcceptableHit := isInZones z
  cond := fun h => zones.any fun zone => z.isInZone zone h = .found
  Inv := ZonesInv z zones
  inv_init := ⟨List.Perm.refl _, Nat.zero_le _, fun _ _ j hj => absurd hj (Nat.not_lt_zero j)⟩
  decides := fun s h hs => by
    have hs' : ZonesInv z zones { s with checkFrom := if s.lastRow ≠ h.rowID then 0 else s.checkFrom, lastRow := h.rowID } := by
      refine ⟨hs.perm, ?_, fun k hk j hj => ?_⟩
      · dsimp only
        split
        · exact Nat.zero_le _
        · exact hs.le
      · dsimp only at hk hj ⊢
        split at hj
        · exact absurd hj (Nat.not_lt_zero j)
        · rename_i hrow
          exact hs.absent k (hk.trans (Classical.not_not.mp hrow).symm) j hj
    refine checkZones_spec z zones h _ _ _ hs' rfl (Nat.le_refl _) (Nat.add_sub_of_le hs'.le) fun j hj => ?_
    rw [hs'.absent h rfl j hj]
    exact ZoneHit.noConfusion

/-! ## The node -/

/-- `ExtConditional_T`, with the cursors of `BufferedNode_c`. -/
structure ExtConditional (W : Type) (a : Acceptor) where
  node : Stream W
  state : a.State
  rawDocs : List (ExtDoc W) := []
  rawDoc : List (ExtDoc W) := []
  rawHit : List ExtHit := []
  myHits : List ExtHit := []

variable {a : Acceptor}

/-- "skip unneeded hits" -/
def skipUnneeded (a : Acceptor) : a.State → List ExtHit → List ExtHit × a.State
  | s, [] => ([], s)
  | s, h :: hits =>
    let r := a.isAcceptableHit s h
    if r.1 then (h :: hits, r.2) else skipUnneeded a r.2 hits

/-- "copy acceptable hits for this document": the hits copied, those left, and the acceptor. -/
def copyAcceptable (a : Acceptor) (row : RowID) : a.State → List ExtHit → List ExtHit × List ExtHit × a.State
  | s, [] => ([], [], s)
  | s, h :: hits =>
    if h.rowID = row then
      let r := a.isAcceptableHit s h
      let c := copyAcceptable a row r.2 hits
      (if r.1 then h :: c.1 else c.1, c.2)
    else ([], h :: hits, s)

/-- A chunk of raw documents with their hits, or the end of the term. -/
def fetch (n : ExtConditional W a) : ExtConditional W a :=
  let (docs, node) := n.node.getDocsChunk
  if docs = [] then { n with node, rawDocs := [] }
  else { n with node, rawDocs := docs, rawDoc := docs, rawHit := node.getHits docs }

/-- From the hit the cursor stands at: the next document with an acceptable hit, or the end of the raw hits. -/
def scan (docs : List (ExtDoc W)) (n : ExtConditional W a) : List (ExtDoc W) × ExtConditional W a :=
  let r := skipUnneeded a n.state (skipHits (headRow n.rawDoc) n.rawHit)
  match r.1 with
  | [] => (docs, { n with state := r.2, rawHit := [] })
  | h :: hits =>
    match skipDocs h.rowID n.rawDoc with
    | [] => (docs, { n with state := r.2, rawDoc := [], rawHit := hits })
    | d :: rest =>
      let c := copyAcceptable a d.rowID r.2 hits
      (docs ++ [d], { n with state := c.2.2, rawDoc := d :: rest, rawHit := c.2.1, myHits := n.myHits ++ h :: c.1 })

/-- The loop of `GetDocsChunk`. -/
def loop : Nat → List (ExtDoc W) → ExtConditional W a → Option (List (ExtDoc W) × ExtConditional W a)
  | 0, _, _ => none
  | fuel + 1, docs, n =>
    if docs.length = MAX_BLOCK_DOCS - 1 then some (docs, n)
    else if n.rawHit = [] then
      let n := fetch n
      if n.rawDocs = [] then some (docs, n) else loop fuel docs n
    else
      let t := scan docs n
      loop fuel t.1 t.2

def getDocsChunk (fuel : Nat) (n : ExtConditional W a) : Option (List (ExtDoc W) × ExtConditional W a) :=
  let n := if n.rawDocs = [] then fetch n else n
  if n.rawDocs = [] then some ([], n) else loop fuel [] n

/-- The node as its caller uses it; `k` bounds the turns of one call. -/
def buffered (a : Acceptor) (k : Nat) : BufferedNode W (ExtConditional W a) where
  getDocsChunk := getDocsChunk k
  myHits := fun n => n.myHits
  setHits := fun n hits => { n with myHits := hits }

def ExtConditional.create (a : Acceptor) (o : Operand W) : ExtConditional W a where
  node := { chunks := o.chunks, hinter := o.hinter }
  state := a.init

/-- The documents with an acceptable hit, with these hits. -/
def denoted (cond : ExtHit → Bool) (es : List (Entry W)) : List (Kept W) :=
  (es.map fun e => (e.doc, e.hits.filter cond)).filter fun k => k.2 ≠ []

/-! ## Documents denoted -/

section Denoted
variable {cond : ExtHit → Bool} {es fs : List (Entry W)} {e : Entry W}

theorem denoted_append : denoted cond (es ++ fs) = denoted cond es ++ denoted cond fs := by
  rw [denoted, map_append, filter_append]
  rfl

theorem denoted_none (h : ∀ e ∈ es, ∀ k ∈ e.hits, cond k = false) : denoted cond es = [] := by
  refine filter_eq_nil_iff.mpr fun k hk => ?_
  obtain ⟨e, he, rfl⟩ := mem_map.mp hk
  rw [filter_eq_nil_iff.mpr fun k hk => Bool.not_eq_true _ ▸ h e he k hk]
  simp

theorem denoted_cons (h : e.hits.filter cond ≠ []) : denoted cond (e :: es) = (e.doc, e.hits.filter cond) :: denoted cond es :=
  filter_cons_of_pos (decide_eq_true h)

theorem length_denoted_le : (denoted cond es).length ≤ es.length :=
  le_trans (length_filter_le _ _) (le_of_eq (length_map _))

theorem buffered_denoted (h : Ascending es) : Buffered (denoted cond es) where
  own := fun k hk j hj => by
    obtain ⟨e, -, rfl⟩ := mem_map.mp (mem_filter.mp hk).1
    exact e.own j (mem_filter.mp hj).1
  asc := List.Pairwise.filter _ (pairwise_map.mpr h)

/-- Where a scan for an acceptable hit stops: at the end, or at one of the first document that has one. -/
theorem dropWhile_hitsOf (cond : ExtHit → Bool) : ∀ es : List (Entry W),
    ((hitsOf es).dropWhile (fun h => !cond h) = [] ∧ ∀ e ∈ es, ∀ k ∈ e.hits, cond k = false) ∨
    ∃ gone e later low h high, es = gone ++ e :: later ∧ (∀ g ∈ gone, ∀ k ∈ g.hits, cond k = false) ∧ e.hits = low ++ h :: high ∧
      (hitsOf es).dropWhile (fun h => !cond h) = h :: (high ++ hitsOf later) ∧ e.hits.filter cond = h :: high.filter cond
  | [] => .inl ⟨rfl, forall_mem_nil _⟩
  | e :: es => by
    by_cases hno : ∀ k ∈ e.hits, cond k = false
    · have hdrop : (hitsOf (e :: es)).dropWhile (fun h => !cond h) = (hitsOf es).dropWhile fun h => !cond h := by
        rw [hitsOf_cons, dropWhile_append_of_pos fun k hk => by rw [hno k hk]; rfl]
      rw [hdrop]
      rcases dropWhile_hitsOf cond es with ⟨hnil, hall⟩ | ⟨gone, f, later, low, h, high, rfl, hgone, hf, hd, hfilter⟩
      · exact .inl ⟨hnil, forall_mem_cons.mpr ⟨hno, hall⟩⟩
      · exact .inr ⟨e :: gone, f, later, low, h, high, rfl, forall_mem_cons.mpr ⟨hno, hgone⟩, hf, hd, hfilter⟩
    · right
      have hsplit := takeWhile_append_dropWhile (p := fun h => !cond h) (l := e.hits)
      have hlow : ∀ k ∈ e.hits.takeWhile (fun h => !cond h), (!cond k) = true := fun k hk =>
        mem_takeWhile_imp (p := fun h => !cond h) hk
      cases hd : e.hits.dropWhile (fun h => !cond h) with
      | nil =>
        rw [hd, append_nil] at hsplit
        rw [hsplit] at hlow
        exact absurd (fun k hk => Bool.not_eq_true' _ ▸ hlow k hk) hno
      | cons h high =>
        have hh : cond h = true := by
          have := head?_dropWhile_not (fun h => !cond h) e.hits
          rw [hd, head?_cons] at this
          simpa using this
        rw [hd] at hsplit
        generalize e.hits.takeWhile (fun h => !cond h) = low at hsplit hlow
        refine ⟨[], e, es, low, h, high, rfl, forall_mem_nil _, hsplit.symm, ?_, ?_⟩
        · rw [hitsOf_cons, ← hsplit, append_assoc, dropWhile_append_of_pos hlow, cons_append,
            dropWhile_cons_of_neg (by rw [hh]; exact Bool.false_ne_true)]
        · rw [← hsplit, filter_append, filter_eq_nil_iff.mpr fun k hk hck => ?_, nil_append, filter_cons_of_pos hh]
          have := hlow k hk
          rw [hck] at this
          exact Bool.false_ne_true this

end Denoted

/-! ## One turn of the loop -/

theorem skipUnneeded_spec (a : Acceptor) : ∀ (hits : List ExtHit) (s : a.State), a.Inv s →
    (skipUnneeded a s hits).1 = hits.dropWhile (fun h => !a.cond h) ∧ a.Inv (skipUnneeded a s hits).2
  | [], _, hs => ⟨rfl, hs⟩
  | h :: hits, s, hs => by
    obtain ⟨hcond, hs'⟩ := a.decides s h hs
    rw [skipUnneeded, hcond]
    cases hc : a.cond h with
    | true =>
      rw [if_pos rfl, dropWhile_cons_of_neg (by rw [hc]; exact Bool.false_ne_true)]
      exact ⟨rfl, hs'⟩
    | false =>
      rw [if_neg Bool.false_ne_true, dropWhile_cons_of_pos (by rw [hc]; rfl)]
      exact skipUnneeded_spec a hits _ hs'

theorem copyAcceptable_spec (a : Acceptor) {row : RowID} {later : List ExtHit} (hlater : ∀ h ∈ later, h.rowID ≠ row) :
    ∀ (own : List ExtHit) (s : a.State), a.Inv s → (∀ h ∈ own, h.rowID = row) →
    ∃ s', copyAcceptable a row s (own ++ later) = (own.filter a.cond, later, s') ∧ a.Inv s'
  | [], s, hs, _ => by
    rw [nil_append]
    cases later with
    | nil => exact ⟨s, rfl, hs⟩
    | cons h later =>
      rw [copyAcceptable, if_neg (hlater h mem_cons_self)]
      exact ⟨s, rfl, hs⟩
  | h :: own, s, hs, hown => by
    obtain ⟨hcond, hs'⟩ := a.decides s h hs
    obtain ⟨s', hcopy, hinv⟩ := copyAcceptable_spec a hlater own _ hs' (forall_mem_cons.mp hown).2
    refine ⟨s', ?_, hinv⟩
    rw [cons_append, copyAcceptable, if_pos (hown h mem_cons_self)]
    dsimp only
    rw [hcopy, hcond, filter_cons]

/-- **Where the cursors stand**: the hits are those of `pending`, the documents reach back to the last one returned, and
`rest` is all the term has still to give. -/
structure At (n : ExtConditional W a) (front pending rest : List (Entry W)) : Prop where
  inv : a.Inv n.state
  docs : n.rawDoc = docsOf (front ++ pending)
  hits : n.rawHit = hitsOf pending
  eq : rest = pending ++ n.node.chunks.flatten
  full : ∀ c ∈ n.node.chunks, c ≠ []
  asc : Ascending (front ++ rest)
  some : pending ≠ [] → n.rawDocs ≠ []

section Turn
variable {n : ExtConditional W a} {front pending rest : List (Entry W)}

/-- **A fetch** comes to a new chunk, or the term is over. -/
theorem fetch_spec (h : At n front [] rest) :
    (rest = [] ∧ (fetch n).rawDocs = [] ∧ (fetch n).myHits = n.myHits ∧ At (fetch n) front [] []) ∨
    ∃ pending, pending ≠ [] ∧ (fetch n).myHits = n.myHits ∧ At (fetch n) [] pending rest := by
  have hrest := h.eq
  have hasc : Ascending rest := h.asc.right
  have hbefore : ({ stream := n.node } : Reader W).Before [] rest :=
    ⟨rfl, h.eq, h.full, hasc, n.node.current, (append_nil _).symm, fun _ _ e he => absurd he not_mem_nil⟩
  rcases getDocsChunk_spec hbefore with ⟨hnil, hdocs, hb⟩ | ⟨pending, hne, hdocs, hb⟩
  · left
    have heq : fetch n = { n with node := n.node.getDocsChunk.2, rawDocs := [] } := by
      rw [fetch]
      dsimp only at hdocs ⊢
      rw [hdocs, if_pos rfl]
    rw [heq]
    refine ⟨hnil, rfl, rfl, ⟨h.inv, h.docs, h.hits, (hb []).eq, (hb []).full, ?_, fun hne => absurd rfl hne⟩⟩
    have := h.asc
    rw [hnil] at this
    exact this
  · right
    have hne' : ¬ docsOf pending = [] := fun h => hne (docsOf_eq_nil.mp h)
    have heq : fetch n = { n with
        node := n.node.getDocsChunk.2
        rawDocs := docsOf pending
        rawDoc := docsOf pending
        rawHit := n.node.getDocsChunk.2.getHits (docsOf pending) } := by
      rw [fetch]
      dsimp only at hdocs ⊢
      rw [hdocs, if_neg hne']
    rw [heq]
    exact ⟨pending, hne, rfl, ⟨h.inv, rfl, getHits_docsOf (hb []), (hb []).eq, (hb []).full, hasc, fun _ => hne'⟩⟩

/-- **A scan** comes to the next document with an acceptable hit, or to the end of the raw hits. -/
theorem scan_spec (docs : List (ExtDoc W)) (h : At n front pending rest) (hne : pending ≠ []) :
    ∃ ks n' front' pending' rest', scan docs n = (docs ++ ks.map (·.1), n') ∧ n'.myHits = n.myHits ++ keptHits ks ∧
      At n' front' pending' rest' ∧ denoted a.cond rest = ks ++ denoted a.cond rest' ∧ ks.length ≤ 1 ∧
      rest'.length < rest.length := by
  have hasc : Ascending (front ++ pending) := by
    have := h.asc
    rw [h.eq, ← append_assoc] at this
    exact this.left
  have hrest : rest.length = pending.length + n.node.chunks.flatten.length := by rw [h.eq, length_append]
  -- no hit stands before the document cursor
  have hskip : skipHits (headRow n.rawDoc) n.rawHit = hitsOf pending := by
    rw [h.docs, h.hits]
    refine skipHits_append (forall_mem_nil _) fun k hk => ?_
    obtain ⟨f, hf, hrow⟩ := rowID_of_mem_hitsOf hk
    rw [hrow]
    cases front with
    | nil =>
      obtain ⟨e, pending, rfl⟩ := exists_cons_of_ne_nil hne
      rcases mem_cons.mp hf with rfl | hf
      · exact Nat.le_refl _
      · exact Nat.le_of_lt (hasc.head f hf)
    | cons g front => exact Nat.le_of_lt (hasc.head f (mem_append_right _ hf))
  obtain ⟨hunneeded, hinv⟩ := skipUnneeded_spec a (hitsOf pending) n.state h.inv
  rcases dropWhile_hitsOf a.cond pending with ⟨hnil, hall⟩ | ⟨gone, e, later, low, k, high, hpend, hgone, hhits, hdrop, hfilter⟩
  · rw [hnil] at hunneeded
    have heq : scan docs n = (docs, { n with state := (skipUnneeded a n.state (hitsOf pending)).2, rawHit := [] }) := by
      rw [scan, hskip]
      dsimp only
      rw [hunneeded]
    rw [heq]
    refine ⟨[], _, front ++ pending, [], n.node.chunks.flatten, Prod.ext (append_nil _).symm rfl, (append_nil _).symm,
      ⟨hinv, ?_, rfl, rfl, h.full, ?_, fun hne => absurd rfl hne⟩, ?_, Nat.zero_le _, ?_⟩
    · rw [append_nil]
      exact h.docs
    · have := h.asc
      rw [h.eq, ← append_assoc] at this
      exact this
    · rw [h.eq, denoted_append, denoted_none hall]
    · have := length_pos_iff.mpr hne
      omega
  · subst hpend
    rw [hdrop] at hunneeded
    have hk : k.rowID = e.rowID := e.own k (by rw [hhits]; exact mem_append_right _ mem_cons_self)
    have hasc' : Ascending ((front ++ gone) ++ e :: later) := by rw [append_assoc]; exact hasc
    -- the document cursor comes to the document of the hit
    have hdocs : skipDocs k.rowID n.rawDoc = docsOf (e :: later) := by
      rw [h.docs, ← append_assoc, docsOf, map_append, skipDocs, dropWhile_append_of_pos]
      · exact dropWhile_cons_of_neg (by rw [decide_eq_true_iff, hk]; exact Nat.lt_irrefl _)
      · intro d hd
        obtain ⟨g, hg, rfl⟩ := mem_map.mp hd
        rw [hk, decide_eq_true_iff]
        exact (pairwise_append.mp hasc').2.2 g hg e mem_cons_self
    obtain ⟨s', hcopy, hinv'⟩ := copyAcceptable_spec a
      (fun j hj => Nat.ne_of_gt (hasc'.right.lt_of_mem_hitsOf hj)) high _ hinv
      fun j hj => e.own j (by rw [hhits]; exact mem_append_right _ (mem_cons_of_mem _ hj))
    have heq : scan docs n = (docs ++ [e.doc], { n with
        state := s', rawDoc := docsOf (e :: later), rawHit := hitsOf later, myHits := n.myHits ++ e.hits.filter a.cond }) := by
      rw [scan, hskip]
      dsimp only
      rw [hunneeded]
      dsimp only
      rw [hdocs, docsOf_cons]
      dsimp only
      rw [hcopy, hfilter]
    have hrest' : rest = gone ++ e :: (later ++ n.node.chunks.flatten) := by
      rw [h.eq, append_assoc, cons_append]
    refine ⟨[(e.doc, e.hits.filter a.cond)], _, [e], later, later ++ n.node.chunks.flatten, heq, ?_,
      ⟨hinv', rfl, rfl, rfl, h.full, ?_, fun _ => h.some hne⟩, ?_, Nat.le_refl _, ?_⟩
    · rw [keptHits, flatMap_singleton]
    · have := h.asc
      rw [hrest', ← append_assoc] at this
      exact this.right
    · rw [hrest', denoted_append, denoted_none hgone, denoted_cons (by rw [hfilter]; exact cons_ne_nil _ _)]
      rfl
    · rw [hrest', length_append, length_append, length_cons, length_append]
      omega

/-- **A chunk holds the next documents denoted**; it is not full only at the end of the term. -/
theorem loop_spec : ∀ (fuel : Nat) (docs : List (ExtDoc W)) (n : ExtConditional W a) (front pending rest : List (Entry W)),
    At n front pending rest → docs.length ≤ MAX_BLOCK_DOCS - 1 → 2 * rest.length + (if pending = [] then 1 else 0) < fuel →
    ∃ ks n' front' pending' rest', loop fuel docs n = some (docs ++ ks.map (·.1), n') ∧ n'.myHits = n.myHits ++ keptHits ks ∧
      At n' front' pending' rest' ∧ denoted a.cond rest = ks ++ denoted a.cond rest' ∧
      (docs ++ ks.map (·.1)).length ≤ MAX_BLOCK_DOCS - 1 ∧ rest'.length ≤ rest.length ∧
      ((docs ++ ks.map (·.1)).length < MAX_BLOCK_DOCS - 1 → rest' = [])
  | 0, _, _, _, _, _, _, _, hfuel => absurd hfuel (Nat.not_lt_zero _)
  | fuel + 1, docs, n, front, pending, rest, h, hdocs, hfuel => by
    rw [loop]
    by_cases hfull : docs.length = MAX_BLOCK_DOCS - 1
    · rw [if_pos hfull]
      refine ⟨[], n, front, pending, rest, by rw [map_nil, append_nil], (append_nil _).symm, h, rfl, ?_, le_refl _, ?_⟩
      · rw [map_nil, append_nil]
        exact hdocs
      · rw [map_nil, append_nil]
        exact fun hlt => absurd hfull (ne_of_lt hlt)
    · rw [if_neg hfull]
      by_cases hpend : pending = []
      · subst hpend
        have hhits : n.rawHit = [] := h.hits
        rw [if_pos hhits]
        rcases fetch_spec h with ⟨rfl, hnil, hsame, hat⟩ | ⟨pending, hne, hsame, hat⟩
        · rw [if_pos hnil]
          refine ⟨[], _, front, [], [], by rw [map_nil, append_nil], ?_, hat, rfl, ?_, le_refl _, fun _ => rfl⟩
          · rw [hsame]
            exact (append_nil _).symm
          · rw [map_nil, append_nil]
            exact hdocs
        · rw [if_neg (hat.some hne), ← hsame]
          refine loop_spec fuel docs _ _ _ _ hat hdocs ?_
          rw [if_pos rfl] at hfuel
          rw [if_neg hne]
          omega
      · have hhits : ¬ n.rawHit = [] := by
          obtain ⟨e, pending, rfl⟩ := exists_cons_of_ne_nil hpend
          rw [h.hits, hitsOf_cons]
          exact fun hnil => e.some (append_eq_nil_iff.mp hnil).1
        rw [if_neg hhits]
        obtain ⟨ks, n₁, front₁, pending₁, rest₁, hscan, hhits₁, hat, hden, hone, hless⟩ := scan_spec docs h hpend
        rw [hscan]
        have hlen : (docs ++ ks.map (·.1)).length ≤ MAX_BLOCK_DOCS - 1 := by
          rw [length_append, length_map]
          omega
        obtain ⟨ks', n', front', pending', rest', hloop, hhits', hat', hden', hlen', hle, hover⟩ :=
          loop_spec fuel _ n₁ front₁ pending₁ rest₁ hat hlen (by split <;> omega)
        have happ : docs ++ ks.map (·.1) ++ ks'.map (·.1) = docs ++ (ks ++ ks').map (·.1) := by
          rw [map_append, append_assoc]
        rw [happ] at hloop hlen' hover
        refine ⟨ks ++ ks', n', front', pending', rest', hloop, ?_, hat', ?_, hlen', by omega, hover⟩
        · rw [hhits', hhits₁, keptHits, keptHits, keptHits, flatMap_append, append_assoc]
        · rw [hden, hden', append_assoc]

end Turn

/-! ## Whole runs -/

/-- The node has the documents `ks` to return, and `k` is enough for a call. -/
def To (k : Nat) (n : ExtConditional W a) (ks : List (Kept W)) : Prop :=
  ∃ front pending rest, At n front pending rest ∧ ks = denoted a.cond rest ∧ 2 * rest.length + 1 < k

theorem gives (k : Nat) : (buffered a k : BufferedNode W _).Gives (To k) where
  buffered := fun n ks h => by
    obtain ⟨front, pending, rest, hat, rfl, -⟩ := h
    exact buffered_denoted hat.asc.right
  setHits := fun n ks hits h => by
    obtain ⟨front, pending, rest, hat, rfl, hk⟩ := h
    exact ⟨⟨front, pending, rest, ⟨hat.inv, hat.docs, hat.hits, hat.eq, hat.full, hat.asc, hat.some⟩, rfl, hk⟩, rfl⟩
  chunk := fun n ks h => by
    obtain ⟨front, pending, rest, hat, rfl, hk⟩ := h
    -- the first fetch of a call
    have hfirst : (rest = [] ∧ (if n.rawDocs = [] then fetch n else n).rawDocs = [] ∨
        (if n.rawDocs = [] then fetch n else n).rawDocs ≠ []) ∧ (if n.rawDocs = [] then fetch n else n).myHits = n.myHits ∧
        ∃ front' pending', At (if n.rawDocs = [] then fetch n else n) front' pending' rest := by
      by_cases hraw : n.rawDocs = []
      · rw [if_pos hraw]
        have hpend : pending = [] := Classical.byContradiction fun hne => hat.some hne hraw
        subst hpend
        rcases fetch_spec hat with ⟨rfl, hnil, hsame, hat'⟩ | ⟨pending, hne, hsame, hat'⟩
        · exact ⟨.inl ⟨rfl, hnil⟩, hsame, _, _, hat'⟩
        · exact ⟨.inr (hat'.some hne), hsame, _, _, hat'⟩
      · rw [if_neg hraw]
        exact ⟨.inr hraw, rfl, _, _, hat⟩
    show ∃ (now later : List (Kept W)) (s' : _), getDocsChunk k n = some (now.map (·.1), s') ∧ _
    rw [getDocsChunk]
    generalize (if n.rawDocs = [] then fetch n else n) = n₁ at hfirst
    obtain ⟨hover, hsame, front₁, pending₁, hat₁⟩ := hfirst
    by_cases hraw : n₁.rawDocs = []
    · obtain ⟨rfl, -⟩ := hover.resolve_right fun h => h hraw
      rw [if_pos hraw]
      exact ⟨[], [], n₁, rfl, rfl, hsame.trans (append_nil _).symm, ⟨_, _, _, hat₁, rfl, hk⟩, fun _ => rfl, by rw [length_nil]; decide⟩
    · rw [if_neg hraw]
      obtain ⟨ks, n', front', pending', rest', hloop, hhits, hat', hden, hlen, hle, hlast⟩ :=
        loop_spec k [] n₁ front₁ pending₁ rest hat₁ (Nat.zero_le _) (by split <;> omega)
      rw [nil_append] at hloop hlen hlast
      rw [length_map] at hlen hlast
      refine ⟨ks, denoted a.cond rest', n', hloop, hden, hhits.trans (by rw [hsame]; rfl), ⟨_, _, _, hat', rfl, by omega⟩, fun hnil => ?_,
        Nat.lt_of_le_of_lt hlen (by decide)⟩
      rw [hlast (by rw [hnil, length_nil]; decide)]
      rfl

/-- **The node is exact.**  For every acceptor and every stream of documents with hits in chunks of any sizes, the documents
of the chunks returned are those with an acceptable hit, and the hits a caller gets for the documents it picks of a chunk
are their acceptable ones. -/
theorem conditional_exact (a : Acceptor) (o : Operand W) (pick : ExtDoc W → Bool) (k : Nat) (hk : 2 * o.entries.length + 1 < k) :
    ∃ pieces : List (List (Kept W)), (buffered a k).drain pick k (ExtConditional.create a o) = some (pieces.map (visit pick)) ∧
      pieces.flatten = denoted a.cond o.entries ∧ ∀ c ∈ pieces, c ≠ [] ∧ c.length < MAX_BLOCK_DOCS := by
  refine (gives k).drain pick k _ _ ⟨[], [], o.entries, ⟨a.inv_init, rfl, rfl, rfl, o.full, o.ascending, ?_⟩, rfl, hk⟩ ?_ ?_
  · exact fun hne => absurd rfl hne
  · exact forall_mem_nil _
  · have : (denoted a.cond o.entries).length ≤ _ := length_denoted_le
    omega

/-- A term with two documents in two chunks; only the second document has the term at the start of a field. -/
def twoDocs : Operand Nat where
  chunks := [oneDoc 1 2 [], oneDoc 2 1 [3]]
  hinter := .none
  full := by simp [oneDoc, ExtNode.invalidRowID]
  ascending := by simp [Ascending, oneDoc, ExtNode.invalidRowID]

theorem conditional_exact_twoDocs : 2 * twoDocs.entries.length + 1 < 6 ∧
    ∃ pieces : List (List (Kept Nat)), (buffered Acceptor.fieldStart 6).drain (fun _ => true) 6 (ExtConditional.create _ twoDocs) =
        some (pieces.map (visit fun _ => true)) ∧
      pieces.flatten = denoted Acceptor.fieldStart.cond twoDocs.entries ∧ ∀ c ∈ pieces, c ≠ [] ∧ c.length < MAX_BLOCK_DOCS :=
  ⟨by decide, conditional_exact Acceptor.fieldStart twoDocs (fun _ => true) 6 (by decide)⟩

end Conditional
end Manticore

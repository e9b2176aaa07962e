import Mathlib.Data.List.Basic
import Manticore.Wildcard
/-!
# GroupConcat — the GROUP_CONCAT of a group (`AggrConcat_c`)

The attribute of a group is a plain string as long as all values come from one chunk, and a list of strings with the tags
of their chunks afterwards.
-/
namespace Manticore
namespace GroupConcat
open List

/-! ## The source -/

/-- What the attribute of a match holds.  The first byte tells the two apart: only tagged strings start with a zero. -/
inductive Packed where
  | plain (s : Str)
  | tagged (elems : List (Int × Str))
deriving DecidableEq

structure Match where
  tag : Int
  data : Option Packed := none
deriving DecidableEq

def INT_MIN : Int := -2 ^ 31

/-- Two simple matches. -/
def appendStringToString (sep dst : Str) (tagDst : Int) (src : Str) (tagSrc : Int) : Packed :=
  if tagDst = tagSrc then .plain (dst ++ sep ++ src) else .tagged [(tagDst, dst), (tagSrc, src)]

/-- Two complex matches.  The tag of an exhausted one is `INT_MIN`, and the loop ends when both are. -/
def appendBlobToBlob (sep : Str) : List (Int × Str) → List (Int × Str) → List (Int × Str)
  | [], [] => []
  | d :: ds, [] => if d.1 = INT_MIN then [] else d :: appendBlobToBlob sep ds []
  | [], s :: ss => if s.1 = INT_MIN then [] else s :: appendBlobToBlob sep [] ss
  | d :: ds, s :: ss =>
    if s.1 = INT_MIN ∧ d.1 = INT_MIN then []
    else if s.1 < d.1 then d :: appendBlobToBlob sep ds (s :: ss)
    else if d.1 < s.1 then s :: appendBlobToBlob sep (d :: ds) ss
    else (s.1, if d.2 = [] then s.2 else d.2 ++ sep ++ s.2) :: appendBlobToBlob sep ds ss
termination_by dst src => dst.length + src.length

/-- A string and a complex match: the string goes to its tag, or before the first smaller tag. -/
def appendBlobToString (sep string : Str) (tagString : Int) (stringFirst : Bool) : List (Int × Str) → List (Int × Str)
  | [] => [(tagString, string)]
  | (tag, blob) :: rest =>
    if tagString > tag then (tagString, string) :: (tag, blob) :: rest
    else if tagString = tag then (tagString, if stringFirst then string ++ sep ++ blob else blob ++ sep ++ string) :: rest
    else (tag, blob) :: appendBlobToString sep string tagString stringFirst rest

/-- `AggrConcat_c::Update`. -/
def update (sep : Str) (dst src : Match) : Match :=
  match src.data with
  | none => dst
  | some (.plain []) => dst
  | some s => { dst with data := some (
      match dst.data, s with
      | none, s => s
      | some (.plain d), .plain s => appendStringToString sep d dst.tag s src.tag
      | some (.tagged d), .plain s => .tagged (appendBlobToString sep s src.tag false d)
      | some (.plain d), .tagged s => .tagged (appendBlobToString sep d dst.tag true s)
      | some (.tagged d), .tagged s => .tagged (appendBlobToBlob sep d s)) }

/-- `AggrConcat_c::Finalize`, back to a plain string. -/
def finalize (sep : Str) (m : Match) : Match :=
  match m.data with
  | none => m
  | some (.plain _) => m
  | some (.tagged elems) => { m with data := some (.plain (sep.intercalate (elems.map (·.2)))) }

/-- The next value of the group. -/
def push (sep : Str) (g : Match) (p : Int × Str) : Match := update sep g { tag := p.1, data := some (.plain p.2) }

/-- A group has the tag of its first match. -/
def group (sep : Str) (pushes : List (Int × Str)) : Match :=
  pushes.foldl (push sep) { tag := (pushes.head?.map (·.1)).getD 0 }

def groupConcat (sep : Str) (pushes : List (Int × Str)) : Str :=
  match (finalize sep (group sep pushes)).data with
  | some (.plain s) => s
  | _ => []

/-! ## What GROUP_CONCAT is to give -/

/-- **All values in order**: tags are monotone, and the values of one tag are those pushed with it, in that order. -/
def InOrder (sep : Str) (pushes : List (Int × Str)) (out : Str) : Prop :=
  ∃ ps : List (Int × Str), ((ps.map (·.1)).Pairwise (· ≤ ·) ∨ (ps.map (·.1)).Pairwise (· ≥ ·)) ∧
    (∀ t, ps.filter (·.1 = t) = pushes.filter (·.1 = t)) ∧ out = sep.intercalate (ps.map (·.2))

/-! ## Joining and inserting -/

variable {sep : Str}

theorem intercalate_snoc {l : List Str} (hl : l ≠ []) (v : Str) : sep.intercalate (l ++ [v]) = sep.intercalate l ++ (sep ++ v) := by
  induction l with
  | nil => exact absurd rfl hl
  | cons x l ih =>
    cases l with
    | nil => rw [singleton_append, intercalate_cons_cons, intercalate_singleton, intercalate_singleton,
        append_assoc]
    | cons y l =>
      rw [cons_append, intercalate_cons_of_ne_nil (by simp), ih (cons_ne_nil _ _), intercalate_cons_cons,
        append_assoc, append_assoc,
      append_assoc]

theorem intercalate_extend (l : List Str) (s x : Str) : sep.intercalate (l ++ [s ++ x]) = sep.intercalate (l ++ [s]) ++ x := by
  cases l with
  | nil => rw [nil_append, nil_append, intercalate_singleton, intercalate_singleton]
  | cons y l => rw [intercalate_snoc (cons_ne_nil y l), intercalate_snoc (cons_ne_nil y l), append_assoc,
      append_assoc]

variable {es ps pushes : List (Int × Str)} {p : Int × Str}

theorem appendBlobToString_past {t : Int} {v : Str} {first : Bool} {rest : List (Int × Str)} (h : ∀ e ∈ es, t < e.1) :
    appendBlobToString sep v t first (es ++ rest) = es ++ appendBlobToString sep v t first rest := by
  induction es with
  | nil => rfl
  | cons e es ih =>
    have he := h e mem_cons_self
    rw [cons_append, appendBlobToString, if_neg (by omega), if_neg (by omega), ih (forall_mem_cons.mp h).2]
    rfl

variable {g : Match}

theorem push_plain {s : Str} (hg : g.data = some (.plain s)) (hv : p.2 ≠ []) :
    push sep g p = { g with data := some (appendStringToString sep s g.tag p.2 p.1) } := by
  obtain ⟨t, v⟩ := p
  cases v with
  | nil => exact absurd rfl hv
  | cons b v => simp only [push, update, hg]

theorem push_tagged (hg : g.data = some (.tagged es)) (hv : p.2 ≠ []) :
    push sep g p = { g with data := some (.tagged (appendBlobToString sep p.2 p.1 false es)) } := by
  obtain ⟨t, v⟩ := p
  cases v with
  | nil => exact absurd rfl hv
  | cons b v => simp only [push, update, hg]

theorem group_single (hv : p.2 ≠ []) : group sep [p] = { tag := p.1, data := some (.plain p.2) } := by
  obtain ⟨t, v⟩ := p
  cases v with
  | nil => exact absurd rfl hv
  | cons b v => rfl

theorem group_snoc (hne : ps ≠ []) (p : Int × Str) : group sep (ps ++ [p]) = push sep (group sep ps) p := by
  obtain ⟨q, ps, rfl⟩ := exists_cons_of_ne_nil hne
  rw [group, foldl_append]
  rfl

theorem groupConcat_tagged (h : (group sep pushes).data = some (.tagged es)) :
    groupConcat sep pushes = sep.intercalate (es.map (·.2)) := by
  simp only [groupConcat, finalize, h]

/-! ## Tags that never increase -/

/-- The group after pushes whose tags never increase: plain, or strings of falling tags, the last of them still open. -/
def Falls (sep : Str) (done : List (Int × Str)) (g : Match) : Prop :=
  (g.data = some (.plain (sep.intercalate (done.map (·.2)))) ∧ ∀ p ∈ done, p.1 = g.tag) ∨
  ∃ es t s, g.data = some (.tagged (es ++ [(t, s)])) ∧ (∀ e ∈ es, t < e.1) ∧
    sep.intercalate ((es ++ [(t, s)]).map (·.2)) = sep.intercalate (done.map (·.2)) ∧ (∃ p ∈ done, p.1 = t) ∧
    ∃ p ∈ done, ∃ q ∈ done, p.1 ≠ q.1

theorem Falls.push {done : List (Int × Str)} (h : Falls sep done g) (hne : done ≠ []) (hv : p.2 ≠ [])
    (hle : ∀ q ∈ done, p.1 ≤ q.1) : Falls sep (done ++ [p]) (push sep g p) := by
  have hjoin : sep.intercalate ((done ++ [p]).map (·.2)) = sep.intercalate (done.map (·.2)) ++ (sep ++ p.2) := by
    rw [map_append]
    exact intercalate_snoc (by simpa using hne) p.2
  have hmem : p ∈ done ++ [p] := mem_append_right _ mem_cons_self
  rcases h with ⟨hg, htag⟩ | ⟨es, t, s, hg, hes, hout, ⟨q, hq, rfl⟩, r, hr, r', hr', hrr⟩
  · rw [push_plain hg hv, appendStringToString]
    by_cases ht : g.tag = p.1
    · left
      refine ⟨by rw [if_pos ht, hjoin, append_assoc], fun q hq => ?_⟩
      rcases List.mem_append.mp hq with hq | hq
      · exact htag q hq
      · rw [mem_singleton.mp hq, ht]
    · right
      obtain ⟨q, hq⟩ := exists_mem_of_ne_nil _ hne
      have hlt : p.1 < g.tag := lt_of_le_of_ne (htag q hq ▸ hle q hq) (Ne.symm ht)
      refine ⟨[(g.tag, sep.intercalate (done.map (·.2)))], p.1, p.2, by rw [if_neg ht]; rfl, ?_, ?_, ⟨p, hmem, rfl⟩,
        q, mem_append_left _ hq, p, hmem, htag q hq ▸ ht⟩
      · intro e he
        rw [mem_singleton.mp he]
        exact hlt
      · rw [hjoin, map_append, map_singleton, map_singleton, intercalate_snoc (cons_ne_nil _ _),
          intercalate_singleton]
  · right
    rw [push_tagged hg hv, appendBlobToString_past fun e he => lt_of_le_of_lt (hle q hq) (hes e he), appendBlobToString,
      if_neg (not_lt.mpr (hle q hq))]
    by_cases ht : p.1 = q.1
    · refine ⟨es, q.1, s ++ (sep ++ p.2), ?_, hes, ?_, ⟨p, hmem, ht⟩, r, mem_append_left _ hr,
        r', mem_append_left _ hr', hrr⟩
      · rw [if_pos ht, if_neg Bool.false_ne_true, ht, append_assoc]
      · rw [map_append] at hout ⊢
        rw [hjoin, ← hout]
        exact intercalate_extend _ s _
    · refine ⟨es ++ [(q.1, s)], p.1, p.2, ?_, ?_, ?_, ⟨p, hmem, rfl⟩, r, mem_append_left _ hr,
        r', mem_append_left _ hr', hrr⟩
      · rw [if_neg ht, appendBlobToString, append_assoc]
        rfl
      · intro e he
        rcases List.mem_append.mp he with he | he
        · exact lt_of_le_of_lt (hle q hq) (hes e he)
        · rw [mem_singleton.mp he]
          exact lt_of_le_of_ne (hle q hq) ht
      · rw [hjoin, ← hout, map_append]
        exact intercalate_snoc (by simp) p.2

theorem falls_group (sep : Str) (hne : pushes ≠ []) (hv : ∀ p ∈ pushes, p.2 ≠ []) (hmono : (pushes.map (·.1)).Pairwise (· ≥ ·))
    : Falls sep pushes (group sep pushes) := by
  induction pushes using List.reverseRecOn with
  | nil => exact absurd rfl hne
  | append_singleton ps p ih =>
    have hp := hv p (mem_append_right _ mem_cons_self)
    by_cases hps : ps = []
    · subst hps
      rw [nil_append, group_single hp]
      exact .inl ⟨by simp, by simp⟩
    · rw [map_append, pairwise_append] at hmono
      rw [group_snoc hps]
      exact (ih hps (forall_mem_append.mp hv).1 hmono.1).push hps hp fun q hq =>
        hmono.2.2 q.1 (mem_map_of_mem hq) p.1 mem_cons_self

theorem groupConcat_of_falls (hv : ∀ p ∈ pushes, p.2 ≠ []) (hmono : (pushes.map (·.1)).Pairwise (· ≥ ·)) :
    groupConcat sep pushes = sep.intercalate (pushes.map (·.2)) := by
  by_cases hne : pushes = []
  · rw [hne]
    rfl
  · rcases falls_group sep hne hv hmono with ⟨hg, -⟩ | ⟨es, t, s, hg, -, hout, -⟩
    · simp only [groupConcat, finalize, hg]
    · rw [groupConcat_tagged hg, hout]

/-! ## Tags that rise -/

variable {a : Int}

/-- **The first change of the tag** keeps the order of the pushes. -/
theorem group_two (hne : ps ≠ []) (hv : ∀ q ∈ ps ++ [p], q.2 ≠ []) (ha : ∀ q ∈ ps, q.1 = a) (hp : a ≠ p.1) :
    (group sep (ps ++ [p])).data = some (.tagged [(a, sep.intercalate (ps.map (·.2))), p]) := by
  have hmono : (ps.map (·.1)).Pairwise (· ≥ ·) := pairwise_of_forall_mem_list fun t ht u hu => by
    obtain ⟨q, hq, rfl⟩ := mem_map.mp ht
    obtain ⟨r, hr, rfl⟩ := mem_map.mp hu
    exact Int.le_of_eq ((ha r hr).trans (ha q hq).symm)
  obtain ⟨q, hq⟩ := exists_mem_of_ne_nil _ hne
  rcases falls_group sep hne (forall_mem_append.mp hv).1 hmono with ⟨hg, htag⟩ | hno
  · rw [group_snoc hne, push_plain hg (hv p (mem_append_right _ mem_cons_self)), appendStringToString, ← htag q hq, ha q hq,
      if_neg hp]
  · obtain ⟨-, -, -, -, -, -, -, r, hr, r', hr', hrr⟩ := hno
    exact absurd ((ha r hr).trans (ha r' hr').symm) hrr

/-- The group after pushes whose tags never decrease: each larger tag went to the front, and the last string stays. -/
def Piles (last : Int × Str) (done : List (Int × Str)) (g : Match) : Prop :=
  ∃ t v s es, g.data = some (.tagged ((t, v ++ s) :: (es ++ [last]))) ∧ (t, v) ∈ done

theorem Piles.push {last : Int × Str} {done : List (Int × Str)} (h : Piles last done g) (hv : p.2 ≠ [])
    (hle : ∀ q ∈ done, q.1 ≤ p.1) : Piles last (done ++ [p]) (push sep g p) := by
  obtain ⟨t, v, s, es, hg, hmem⟩ := h
  rw [push_tagged hg hv, appendBlobToString]
  rcases lt_or_eq_of_le (hle _ hmem) with hlt | heq
  · refine ⟨p.1, p.2, [], (t, v ++ s) :: es, ?_, mem_append_right _ mem_cons_self⟩
    rw [if_pos hlt, append_nil]
    rfl
  · refine ⟨t, v, s ++ sep ++ p.2, es, ?_, mem_append_left _ hmem⟩
    rw [if_neg (not_lt.mpr (Int.le_of_eq heq.symm)), if_pos heq.symm, if_neg Bool.false_ne_true, ← heq]
    simp only [append_assoc]

/-- **A larger tag that is not the last** spoils the order: the strings end with its first value. -/
theorem piles_group (hne : ps ≠ []) (ha : ∀ q ∈ ps, q.1 = a) (hp : a < p.1) (rs : List (Int × Str)) (hrs : rs ≠ [])
    (hv : ∀ q ∈ ps ++ [p] ++ rs, q.2 ≠ []) (hmono : ((p :: rs).map (·.1)).Pairwise (· ≤ ·)) :
    Piles p rs (group sep (ps ++ [p] ++ rs)) := by
  induction rs using List.reverseRecOn with
  | nil => exact absurd rfl hrs
  | append_singleton rs r ih =>
    have hr := hv r (mem_append_right _ (mem_append_right _ mem_cons_self))
    rw [← append_assoc, group_snoc (by simp)]
    rw [← append_assoc] at hv
    by_cases hnil : rs = []
    · subst hnil
      have htwo : (group sep (ps ++ [p])).data = _ :=
        group_two hne (fun q hq => hv q (mem_append_left _ (by simpa using hq))) ha (Int.ne_of_lt hp)
      rw [append_nil, push_tagged htwo hr, appendBlobToString]
      have hpr : p.1 ≤ r.1 := rel_of_pairwise_cons hmono (by simp)
      refine ⟨r.1, r.2, [], [(a, sep.intercalate (ps.map (·.2)))], ?_, by simp⟩
      rw [if_pos (Int.lt_of_lt_of_le hp hpr), append_nil]
      rfl
    · rw [← cons_append, map_append, pairwise_append] at hmono
      exact (ih hnil (forall_mem_append.mp hv).1 hmono.1).push hr fun q hq =>
        hmono.2.2 q.1 (mem_map_of_mem (mem_cons_of_mem _ hq)) r.1 mem_cons_self

theorem getLast?_intercalate (l : List Str) (b : UInt8) : (sep.intercalate (l ++ [[b]])).getLast? = some b := by
  cases l with
  | nil => rw [nil_append, intercalate_singleton, getLast?_singleton]
  | cons x l => rw [intercalate_snoc (cons_ne_nil x l), ← append_assoc, getLast?_concat]

theorem ends_of_inOrder {b : UInt8} {out : Str} (hin : (a, [b]) ∈ pushes)
    (hleast : ∀ p ∈ pushes, p = (a, [b]) ∨ a < p.1) (h : InOrder sep pushes out) :
    out.head? = some b ∨ out.getLast? = some b := by
  obtain ⟨ps, hps, hfilter, rfl⟩ := h
  have hmem : ∀ p, p ∈ ps ↔ p ∈ pushes := fun p => by
    have := congrArg (p ∈ ·) (hfilter p.1)
    simpa using this
  have hval : ∀ p ∈ ps, p.1 ≤ a → p.2 = [b] := fun p hp hle => by
    rw [(hleast p ((hmem p).mp hp)).resolve_right (not_lt.mpr hle)]
  replace hin := (hmem _).mpr hin
  rcases hps with hps | hps
  · left
    obtain ⟨p, qs, rfl⟩ := exists_cons_of_ne_nil (ne_nil_of_mem hin)
    have hle : p.1 ≤ a := by
      rcases mem_cons.mp hin with h | h
      · rw [← h]
      · exact rel_of_pairwise_cons hps (mem_map_of_mem h)
    rw [map_cons, hval p mem_cons_self hle, intercalate_cons_cons_left, head?_cons]
  · right
    obtain ⟨qs, p, rfl⟩ := ps.eq_nil_or_concat'.resolve_left (ne_nil_of_mem hin)
    have hle : p.1 ≤ a := by
      rcases List.mem_append.mp hin with h | h
      · rw [map_append] at hps
        exact (pairwise_append.mp hps).2.2 a (mem_map_of_mem h) p.1 mem_cons_self
      · rw [← mem_singleton.mp h]
    rw [map_append, map_singleton, hval p (mem_append_right _ mem_cons_self) hle, getLast?_intercalate]

/-- Pushes with a larger tag before the last one. -/
def rising (k : Nat) (a b c : Int) (ts : List Int) : List (Int × Str) :=
  List.replicate (k + 1) (a, [2]) ++ [(b, [1])] ++ (c :: ts).map ((·, [1]))

section Rising
variable {k : Nat} {a b c : Int} {ts : List Int}

theorem map_rising : (rising k a b c ts).map (·.1) = List.replicate (k + 1) a ++ b :: c :: ts := by
  simp [rising, Function.comp_def]

theorem mem_rising (hp : p ∈ rising k a b c ts) : p = (a, [2]) ∨ p.1 ∈ b :: c :: ts ∧ p.2 = [1] := by
  rcases List.mem_append.mp hp with hp | hp
  · rcases List.mem_append.mp hp with hp | hp
    · exact .inl (eq_of_mem_replicate hp)
    · rw [mem_singleton.mp hp]
      exact .inr ⟨mem_cons_self, rfl⟩
  · obtain ⟨t, ht, rfl⟩ := mem_map.mp hp
    exact .inr ⟨mem_cons_of_mem _ ht, rfl⟩

theorem rising_valid (hp : p ∈ rising k a b c ts) : p.2 ≠ [] ∧ p.2.head? ≠ some 0 := by
  rcases mem_rising hp with rfl | ⟨-, h⟩
  · exact ⟨cons_ne_nil _ _, by simp⟩
  · rw [h]
    decide

theorem not_inOrder_rising (hab : a < b) (hmono : (b :: c :: ts).Pairwise (· ≤ ·)) :
    ¬ InOrder sep (rising k a b c ts) (groupConcat sep (rising k a b c ts)) := by
  intro h
  have hleast : ∀ p ∈ rising k a b c ts, p = (a, [2]) ∨ a < p.1 := fun p hp => by
    rcases mem_rising hp with h | ⟨h, -⟩
    · exact .inl h
    · rcases mem_cons.mp h with h | h
      · exact .inr (h ▸ hab)
      · exact .inr (Int.lt_of_lt_of_le hab (rel_of_pairwise_cons hmono h))
  have hfirst : ∀ q ∈ List.replicate (k + 1) ((a, [2]) : Int × Str), q.1 = a := fun q hq => by rw [eq_of_mem_replicate hq]
  have hpiles : Piles (b, [1]) ((c :: ts).map ((·, [1]))) (group sep (rising k a b c ts)) :=
    piles_group (cons_ne_nil _ _) hfirst hab _ (cons_ne_nil _ _) (fun q hq => (rising_valid hq).1)
      (by simpa [Function.comp_def] using hmono)
  obtain ⟨t, v, s, es, hg, hmem⟩ := hpiles
  obtain ⟨u, -, huv⟩ := mem_map.mp hmem
  cases huv
  have hends := ends_of_inOrder (b := 2) (by simp [rising]) hleast h
  rw [groupConcat_tagged hg, ← cons_append, map_append, map_singleton, getLast?_intercalate, map_cons,
    cons_append, cons_append, intercalate_cons_cons_left] at hends
  simp at hends

end Rising

/-! ## The rule -/

/-- **When GROUP_CONCAT keeps the order.**  For tags that are monotone along the pushes: exactly if they never increase, or
increase with the last push only.  The first change of the tag keeps the order of the pushes, later strings go before the
first smaller tag. -/
theorem groupConcat_inOrder_iff (sep : Str) (ts : List Int) (hmono : ts.Pairwise (· ≤ ·) ∨ ts.Pairwise (· ≥ ·)) :
    (∀ pushes : List (Int × Str), pushes.map (·.1) = ts → (∀ p ∈ pushes, p.2 ≠ [] ∧ p.2.head? ≠ some 0) →
      InOrder sep pushes (groupConcat sep pushes)) ↔
    ts.Pairwise (· ≥ ·) ∨ ∃ k a b, ts = List.replicate k a ++ [b] := by
  constructor
  · intro h
    by_contra hno
    rw [not_or] at hno
    have hle := hmono.resolve_right hno.1
    cases ts with
    | nil => exact hno.1 .nil
    | cons a ts =>
      have hsplit : a :: ts = List.replicate ((ts.takeWhile (· = a)).length + 1) a ++ ts.dropWhile (· = a) := by
        rw [replicate_succ, ← eq_replicate_iff.mpr ⟨rfl, fun t ht => by simpa using mem_takeWhile_imp ht⟩,
          cons_append, takeWhile_append_dropWhile]
      have hfirst := head?_dropWhile_not (fun t => decide (t = a)) ts
      rw [hsplit] at h hle hno
      generalize ts.dropWhile (· = a) = rest at *
      match rest with
      | [] => exact hno.1 (by rw [append_nil]; exact pairwise_replicate.mpr (.inr (Int.le_refl a)))
      | [b] => exact hno.2 ⟨_, a, b, rfl⟩
      | b :: c :: rest =>
        have hab : a ≤ b := (pairwise_append.mp hle).2.2 a (by simp) b mem_cons_self
        have hba : b ≠ a := by simpa using hfirst
        exact not_inOrder_rising (lt_of_le_of_ne hab hba.symm) (pairwise_append.mp hle).2.1
          (h _ map_rising fun p hp => rising_valid hp)
  · rintro hts pushes rfl hv
    rcases hts with hge | ⟨k, a, b, hts⟩
    · exact ⟨pushes, .inr hge, fun _ => rfl, groupConcat_of_falls (fun p hp => (hv p hp).1) hge⟩
    · refine ⟨pushes, hmono, fun _ => rfl, ?_⟩
      obtain ⟨ps, rest, rfl, hps, hrest⟩ := map_eq_append_iff.mp hts
      obtain ⟨p, rest, rfl, rfl, hnil⟩ := map_eq_cons_iff.mp hrest
      rw [map_eq_nil_iff] at hnil
      subst hnil
      have ha : ∀ q ∈ ps, q.1 = a := fun q hq => eq_of_mem_replicate (hps ▸ mem_map_of_mem hq)
      by_cases hap : a = p.1
      · refine groupConcat_of_falls (fun p hp => (hv p hp).1) ?_
        rw [hts, ← hap, ← replicate_succ']
        exact pairwise_replicate.mpr (.inr (Int.le_refl a))
      · by_cases hne : ps = []
        · subst hne
          exact groupConcat_of_falls (fun p hp => (hv p hp).1) (pairwise_singleton _ _)
        · rw [groupConcat_tagged (group_two hne (fun p hp => (hv p hp).1) ha hap), map_append, map_singleton,
            intercalate_snoc (by simpa using hne), map_cons, map_singleton, intercalate_cons_cons,
            intercalate_singleton, append_assoc]

theorem groupConcat_inOrder_iff_one_two : (([1, 2] : List Int).Pairwise (· ≤ ·) ∨ ([1, 2] : List Int).Pairwise (· ≥ ·)) ∧
    ∀ pushes : List (Int × Str), pushes.map (·.1) = [1, 2] → (∀ p ∈ pushes, p.2 ≠ [] ∧ p.2.head? ≠ some 0) →
      InOrder [44] pushes (groupConcat [44] pushes) :=
  have hmono : ([1, 2] : List Int).Pairwise (· ≤ ·) ∨ ([1, 2] : List Int).Pairwise (· ≥ ·) := by decide
  ⟨hmono, (groupConcat_inOrder_iff [44] [1, 2] hmono).mpr (.inr ⟨1, 1, 2, rfl⟩)⟩

/-- `a` from the first chunk, then `b` and `c` from the second, come as `c,a,b`. -/
theorem groupConcat_not_inOrder : groupConcat [44] [(1, [97]), (2, [98]), (2, [99])] = [99, 44, 97, 44, 98] ∧
    ¬ InOrder [44] [(1, [97]), (2, [98]), (2, [99])] [99, 44, 97, 44, 98] := by
  refine ⟨by decide, fun h => ?_⟩
  have hends := ends_of_inOrder mem_cons_self (by simp) h
  revert hends
  decide

end GroupConcat
end Manticore

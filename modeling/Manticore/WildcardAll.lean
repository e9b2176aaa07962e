import Manticore.Wildcard
/-!
# WildcardAll — the patterns that match every string (`sphWildcardMatch`)

`match_all_iff` lists them: a run of stars, with at most one `?` at either end of it and any number of `%` before.  A
pattern that matches a single character which it does not name has one of the shapes of `Single`; of these, the ones without
a star match no long string, and a `%` behind the stars stands for itself until the string has ended.
-/
namespace Manticore
open List
namespace Wildcard
open Str

/-- The pattern matches every string: `*`, with at most one `?` beside it and any number of `%` before it, unless it has so
many stars that the table of the legacy matcher is used, which has no room for long strings. -/
def Everything (p : Str) : Prop :=
  ¬ (10 < p.count star ∨ 5 < p.count star ∧ 17 < p.length) ∧ ∃ m j,
    p = replicate m percent ++ replicate (j + 1) star ∨
    p = replicate m percent ++ quest :: replicate (j + 1) star ∨
    p = replicate m percent ++ (replicate (j + 1) star ++ [quest])

theorem ofChar_injective {a b : UInt8} (h : ofChar a = ofChar b) : a = b := by
  unfold ofChar at h
  have ha := a.toNat_lt
  have hb := b.toNat_lt
  refine UInt8.toNat_inj.mp ?_
  split_ifs at h <;> omega

theorem ofChar_lt (c : UInt8) : ofChar c < 128 := by
  unfold ofChar
  have := c.toNat_lt
  split_ifs <;> omega

theorem skipStars_replicate (s p : List Int) (j : Nat) :
    skipStars s (replicate j (ofChar star) ++ p) = skipStars s p := by
  induction j with
  | zero => rfl
  | succ j ih => rw [replicate_succ, cons_append, skipStars, if_pos rfl, ih]

section
variable {k : Nat} {c : Int} {s p : List Int}

theorem rec_escape {y : Int} : wildcardMatchRec (k + 1) (c :: s) (92 :: y :: p) = (decide (c = y) && wildcardMatchRec k s p) := rfl

theorem rec_quest : wildcardMatchRec (k + 1) (c :: s) (ofChar quest :: p) = wildcardMatchRec k s p := by
  rw [wildcardMatchRec.eq_def]
  rfl

theorem rec_percent : wildcardMatchRec (k + 1) (c :: s) (ofChar percent :: p) =
    if p.headD 0 = ofChar star then wildcardMatchRec k (c :: s) p
    else if p.headD 0 ≠ ofChar quest ∧ p.headD 0 ≠ ofChar percent ∧ c ≠ p.headD 0 then
      decide (s.headD 0 = p.headD 0) && wildcardMatchRec k s p
    else if p.headD 0 ≠ ofChar quest ∧ p.headD 0 ≠ ofChar percent ∧ s.headD 0 ≠ p.headD 0 then
      wildcardMatchRec k (c :: s) p
    else wildcardMatchRec k (c :: s) p || wildcardMatchRec k s p := by
  rw [wildcardMatchRec.eq_def]
  rfl

theorem rec_star : wildcardMatchRec (k + 1) (c :: s) (ofChar star :: p) =
    match skipStars (c :: s) p with
    | .inl answer => answer
    | .inr (_, []) => true
    | .inr (s, y :: p) => s.tails.any fun t =>
      match t with
      | [] => false
      | d :: t => d = y && wildcardMatchRec k t p := by
  rw [wildcardMatchRec.eq_def]
  rfl

theorem rec_literal {x : Int} (hesc : x ≠ 92) (hquest : x ≠ ofChar quest) (hpercent : x ≠ ofChar percent)
    (hstar : x ≠ ofChar star) : wildcardMatchRec (k + 1) (c :: s) (x :: p) = (decide (c = x) && wildcardMatchRec k s p) := by
  rw [wildcardMatchRec.eq_def]
  dsimp only
  rw [if_neg hesc, if_neg hquest, if_neg hpercent, if_neg hstar]

theorem rec_stars (j : Nat) : wildcardMatchRec (k + 1) (c :: s) (replicate (j + 1) (ofChar star)) = true := by
  have h := skipStars_replicate (c :: s) [] j
  rw [append_nil] at h
  rw [replicate_succ, rec_star, h]
  rfl

theorem rec_stars_quest (j : Nat) :
    wildcardMatchRec (k + 1) (c :: s) (replicate (j + 1) (ofChar star) ++ [ofChar quest]) = true := by
  rw [replicate_succ, cons_append, rec_star, skipStars_replicate, skipStars, if_neg (by decide), if_pos rfl, tail_cons]
  by_cases hs : s = []
  · rw [if_pos hs]
    rfl
  · rw [if_neg hs]
    rfl

theorem rec_quest_stars (j : Nat) :
    wildcardMatchRec (k + 2) (c :: s) (ofChar quest :: replicate (j + 1) (ofChar star)) = true := by
  rw [rec_quest]
  cases s with
  | nil =>
    have hdrop : (replicate (j + 1) (ofChar star)).dropWhile (fun x => x = ofChar star) = [] :=
      dropWhile_eq_nil_iff.mpr (fun x hx => decide_eq_true (mem_replicate.mp hx).2)
    rw [wildcardMatchRec, hdrop]
    rfl
  | cons d s => exact rec_stars j

/-- A `%` in front of other wildcards takes no character. -/
theorem rec_percents {x : Int} (hx : x = ofChar star ∨ x = ofChar quest)
    (h : wildcardMatchRec k (c :: s) (x :: p) = true) : ∀ m : Nat,
    wildcardMatchRec (m + k) (c :: s) (replicate m (ofChar percent) ++ x :: p) = true
  | 0 => by rwa [zero_add]
  | m + 1 => by
    have ih := rec_percents hx h m
    have hnext : ∀ y, (replicate m (ofChar percent) ++ x :: p).headD 0 = y →
        y = ofChar star ∨ y = ofChar quest ∨ y = ofChar percent := by
      rintro y rfl
      cases m with
      | zero => exact hx.imp_right .inl
      | succ m => exact .inr (.inr rfl)
    rw [show m + 1 + k = m + k + 1 by omega, replicate_succ, cons_append, rec_percent]
    rcases hnext _ rfl with hy | hy | hy
    · rw [if_pos hy]
      exact ih
    · simp only [hy, ih, ne_eq, not_true_eq_false, false_and, if_false, Bool.true_or, ite_self]
    · simp only [hy, ih, ne_eq, not_true_eq_false, false_and, and_false, if_false, Bool.true_or, ite_self]

/-- Without a star no more characters match than the pattern has. -/
theorem length_le_of_rec : ∀ {k : Nat} {s p : List Int}, ofChar star ∉ p → wildcardMatchRec k s p = true → s.length ≤ p.length
  | 0, _, _, _, h => by cases h
  | k + 1, [], p, _, _ => Nat.zero_le _
  | k + 1, c :: s, [], _, h => by cases h
  | k + 1, c :: s, x :: p, hstar, h => by
    obtain ⟨hx, hp⟩ := ne_and_not_mem_of_not_mem_cons hstar
    rw [length_cons, length_cons]
    by_cases hesc : x = 92
    · subst hesc
      cases p with
      | nil => cases h
      | cons y p =>
        rw [rec_escape, Bool.and_eq_true] at h
        have := length_le_of_rec (ne_and_not_mem_of_not_mem_cons hp).2 h.2
        rw [length_cons]
        omega
    · by_cases hquest : x = ofChar quest
      · subst hquest
        rw [rec_quest] at h
        exact Nat.succ_le_succ (length_le_of_rec hp h)
      · by_cases hpercent : x = ofChar percent
        · subst hpercent
          have hboth : wildcardMatchRec k (c :: s) p = true ∨ wildcardMatchRec k s p = true := by
            rw [rec_percent] at h
            split_ifs at h
            · exact .inl h
            · exact .inr ((Bool.and_eq_true _ _).mp h).2
            · exact .inl h
            · exact (Bool.or_eq_true _ _).mp h
          rcases hboth with h | h
          · have := length_le_of_rec hp h
            rw [length_cons] at this
            omega
          · exact Nat.succ_le_succ (length_le_of_rec hp h)
        · rw [rec_literal hesc hquest hpercent (Ne.symm hx), Bool.and_eq_true] at h
          exact Nat.succ_le_succ (length_le_of_rec hp h.2)

theorem rec_nil (h : wildcardMatchRec k [] p = true) :
    ∃ j, p = replicate j (ofChar star) ∨ p = replicate j (ofChar star) ++ [ofChar percent] := by
  cases k with
  | zero => cases h
  | succ k =>
    have hsplit := takeWhile_append_dropWhile (p := fun x => decide (x = ofChar star)) (l := p)
    have hstars : p.takeWhile (fun x => decide (x = ofChar star)) =
        replicate (p.takeWhile (fun x => decide (x = ofChar star))).length (ofChar star) :=
      eq_replicate_of_mem (fun x hx => of_decide_eq_true (mem_takeWhile_imp (p := fun x => decide (x = ofChar star)) hx))
    rw [wildcardMatchRec, Bool.or_eq_true, decide_eq_true_eq, decide_eq_true_eq] at h
    refine ⟨(p.takeWhile (fun x => decide (x = ofChar star))).length, ?_⟩
    rw [← hstars]
    rcases h with h | h
    · rw [h, append_nil] at hsplit
      exact .inl hsplit.symm
    · rw [h] at hsplit
      exact .inr hsplit.symm

theorem skipStars_single : ∀ {p : List Int}, (∃ j, p = replicate j (ofChar star) ∨ p = replicate j (ofChar star) ++ [ofChar quest]) ∨
    skipStars [c] p = .inl false ∨ ∃ y p', skipStars [c] p = .inr ([c], y :: p') ∧ y ∈ p
  | [] => .inl ⟨0, .inl rfl⟩
  | x :: p => by
    by_cases hstar : x = ofChar star
    · subst hstar
      rw [skipStars, if_pos rfl]
      rcases skipStars_single (p := p) with ⟨j, h | h⟩ | h | ⟨y, p', h, hy⟩
      · exact .inl ⟨j + 1, .inl (by rw [h]; rfl)⟩
      · exact .inl ⟨j + 1, .inr (by rw [h]; rfl)⟩
      · exact .inr (.inl h)
      · exact .inr (.inr ⟨y, p', h, mem_cons_of_mem _ hy⟩)
    · by_cases hquest : x = ofChar quest
      · subst hquest
        rw [skipStars, if_neg hstar, if_pos rfl, tail_cons, if_pos rfl]
        cases p with
        | nil => exact .inl ⟨0, .inr rfl⟩
        | cons y p => exact .inr (.inl rfl)
      · rw [skipStars, if_neg hstar, if_neg hquest]
        exact .inr (.inr ⟨x, p, rfl, mem_cons_self⟩)

/-- The shape of a pattern that matches a single character which it does not name. -/
def Single (p : List Int) : Prop :=
  ∃ m j, p = replicate m (ofChar percent) ∨
    p = replicate m (ofChar percent) ++ ofChar quest :: replicate j (ofChar star) ∨
    p = replicate m (ofChar percent) ++ ofChar quest :: (replicate j (ofChar star) ++ [ofChar percent]) ∨
    p = replicate m (ofChar percent) ++ replicate (j + 1) (ofChar star) ∨
    p = replicate m (ofChar percent) ++ (replicate (j + 1) (ofChar star) ++ [ofChar quest])

theorem Single.percent (h : Single p) : Single (ofChar percent :: p) := by
  obtain ⟨m, j, h⟩ := h
  refine ⟨m + 1, j, ?_⟩
  rcases h with rfl | rfl | rfl | rfl | rfl
  · exact .inl rfl
  · exact .inr (.inl rfl)
  · exact .inr (.inr (.inl rfl))
  · exact .inr (.inr (.inr (.inl rfl)))
  · exact .inr (.inr (.inr (.inr rfl)))

theorem single_of_rec : ∀ {k : Nat} {p : List Int}, c ∉ p → wildcardMatchRec k [c] p = true → Single p
  | 0, _, _, h => by cases h
  | k + 1, [], _, h => by cases h
  | k + 1, x :: p, hnew, h => by
    obtain ⟨hx, hp⟩ := ne_and_not_mem_of_not_mem_cons hnew
    by_cases hesc : x = 92
    · subst hesc
      cases p with
      | nil => cases h
      | cons y p =>
        rw [rec_escape, Bool.and_eq_true, decide_eq_true_eq] at h
        exact absurd h.1 (ne_and_not_mem_of_not_mem_cons hp).1
    · by_cases hquest : x = ofChar quest
      · subst hquest
        rw [rec_quest] at h
        obtain ⟨j, rfl | rfl⟩ := rec_nil h
        · exact ⟨0, j, .inr (.inl rfl)⟩
        · exact ⟨0, j, .inr (.inr (.inl rfl))⟩
      · by_cases hpercent : x = ofChar percent
        · subst hpercent
          rw [rec_percent, headD_nil] at h
          cases p with
          | nil => exact ⟨1, 0, .inl rfl⟩
          | cons y p =>
            rw [headD_cons] at h
            have hrest : wildcardMatchRec k [] (y :: p) = true → y ≠ ofChar star → Single (ofChar percent :: y :: p) := by
              intro h hy
              obtain ⟨j, hj | hj⟩ := rec_nil h
              · cases j with
                | zero => cases hj
                | succ j => exact (hy (List.cons.inj hj).1).elim
              · cases j with
                | zero => exact ⟨2, 0, .inl (by rw [hj]; rfl)⟩
                | succ j => exact (hy (List.cons.inj hj).1).elim
            split_ifs at h with h1 h2 h3
            · exact (single_of_rec hp h).percent
            · exact hrest ((Bool.and_eq_true _ _).mp h).2 h1
            · exact (single_of_rec hp h).percent
            · rcases (Bool.or_eq_true _ _).mp h with h | h
              · exact (single_of_rec hp h).percent
              · exact hrest h h1
        · by_cases hstar : x = ofChar star
          · subst hstar
            rcases skipStars_single (c := c) (p := p) with ⟨j, rfl | rfl⟩ | hskip | ⟨y, p', hskip, hy⟩
            · exact ⟨0, j, .inr (.inr (.inr (.inl rfl)))⟩
            · exact ⟨0, j, .inr (.inr (.inr (.inr rfl)))⟩
            · rw [rec_star, hskip] at h
              cases h
            · rw [rec_star, hskip] at h
              have hcy : c ≠ y := fun he => hp (he ▸ hy)
              simp [hcy] at h
          · rw [rec_literal hesc hquest hpercent hstar, Bool.and_eq_true, decide_eq_true_eq] at h
            exact absurd h.1 hx

/-- A `%` after the stars stands for itself, unless the string has ended. -/
theorem rec_closed (hc : c ≠ ofChar percent) (j : Nat) : ∀ {k m n : Nat}, m + 2 ≤ n →
    wildcardMatchRec k (replicate n c) (replicate m (ofChar percent) ++ ofChar quest ::
      (replicate (j + 1) (ofChar star) ++ [ofChar percent])) = false
  | 0, _, _, _ => rfl
  | k + 1, 0, n + 2, _ => by
    rw [replicate_zero, nil_append, replicate_succ, rec_quest, replicate_succ]
    cases k with
    | zero => rfl
    | succ k =>
      rw [replicate_succ, cons_append, rec_star, skipStars_replicate]
      change ((c :: replicate n c).tails.any _) = false
      rw [any_eq_false]
      rintro t ht
      cases t with
      | nil => exact Bool.false_ne_true
      | cons d t =>
        have hd : d = c := by
          have hmem := ((mem_tails _ _).mp ht).subset mem_cons_self
          rw [← replicate_succ] at hmem
          exact (mem_replicate.mp hmem).2
        simp [hd, hc]
  | k + 1, m + 1, n + 3, hn => by
    have hfirst := rec_closed hc j (k := k) (m := m) (n := n + 3) (by omega)
    have hsecond := rec_closed hc j (k := k) (m := m) (n := n + 2) (by omega)
    rw [replicate_succ (n := m), cons_append, replicate_succ (n := n + 2), rec_percent, ← replicate_succ, hfirst, hsecond]
    simp

end

/-- The characters of a name as the matcher gets them. -/
def chars (t : Str) : List Int :=
  let wide := if t.any (fun c => 128 ≤ c) then utf8ToWideChar MAX_WORD_LEN t else []
  if wide = [] then t.map ofChar else wide

theorem chars_ne_nil {t : Str} (h : t ≠ []) : chars t ≠ [] := by
  unfold chars
  generalize (if t.any (fun c => 128 ≤ c) then utf8ToWideChar MAX_WORD_LEN t else []) = wide
  dsimp only
  split
  · exact fun hnil => h (map_eq_nil_iff.mp hnil)
  · rename_i hwide
    exact hwide

theorem chars_replicate (n : Nat) : chars (replicate n 97) = replicate n 97 := by
  have hascii : (replicate n (97 : UInt8)).any (fun c => 128 ≤ c) = false := by
    rw [any_eq_false]
    intro c hc
    rw [(mem_replicate.mp hc).2]
    decide
  rw [chars, hascii]
  exact map_replicate

theorem wildcardMatch_eq {t p : Str} (ht : t ≠ []) (hp : p ≠ []) : wildcardMatch t p =
    if 10 < p.count star ∨ 5 < p.count star ∧ 17 < p.length then wildcardMatchDP (chars t) (p.map ofChar)
    else wildcardMatchRec ((chars t).length + p.length + 1) (chars t) (p.map ofChar) := by
  have hstars : (p.map ofChar).countP (fun x => x = ofChar star) = p.count star := by
    rw [countP_map, count]
    refine countP_congr (fun c _ => ?_)
    rw [Function.comp_apply, decide_eq_true_eq, beq_iff_eq]
    exact ⟨ofChar_injective, fun h => by rw [h]⟩
  have hnil : (decide (t = []) || decide (p = [])) = false := by
    rw [decide_eq_false ht, decide_eq_false hp]
    rfl
  rw [wildcardMatch, hnil, if_neg Bool.false_ne_true]
  change wildcardMatchSpec (chars t) (p.map ofChar) = _
  rw [wildcardMatchSpec, hstars, length_map]
  simp only [Bool.or_eq_true, Bool.and_eq_true, decide_eq_true_eq]

theorem Everything.match {t p : Str} (h : Everything p) (ht : t ≠ []) : wildcardMatch t p = true := by
  obtain ⟨hshort, m, j, h⟩ := h
  have hp : p ≠ [] := by rcases h with rfl | rfl | rfl <;> simp
  rw [wildcardMatch_eq ht hp, if_neg hshort]
  obtain ⟨c, s, hs⟩ := exists_cons_of_ne_nil (chars_ne_nil ht)
  obtain ⟨k, hk⟩ : ∃ k, (chars t).length + p.length + 1 = m + (k + 2) := by
    refine ⟨(chars t).length + p.length + 1 - m - 2, ?_⟩
    have hm : m + 1 ≤ p.length := by
      rcases h with rfl | rfl | rfl <;> simp only [length_append, length_replicate, length_cons] <;> omega
    rw [hs, length_cons]
    omega
  rw [hk, hs]
  rcases h with rfl | rfl | rfl
  · rw [map_append, map_replicate, map_replicate]
    exact rec_percents (.inl rfl) (rec_stars j) m
  · rw [map_append, map_replicate, map_cons, map_replicate]
    exact rec_percents (.inr rfl) (rec_quest_stars j) m
  · rw [map_append, map_replicate, map_append, map_replicate]
    exact rec_percents (.inl rfl) (rec_stars_quest j) m

/-- The table of the legacy matcher has no room for 131 characters. -/
theorem few_stars {p : Str} (hp : p ≠ []) (h : wildcardMatch (replicate 131 97) p = true) :
    ¬ (10 < p.count star ∨ 5 < p.count star ∧ 17 < p.length) := by
  intro hmany
  have hstar : star ∈ p := count_pos_iff.mp (by omega)
  have hesc : (p.map ofChar).all (fun x => x = 92) = false := by
    rw [all_eq_false]
    exact ⟨_, mem_map_of_mem hstar, by decide⟩
  rw [wildcardMatch_eq (by simp) hp, if_pos hmany, wildcardMatchDP, hesc, chars_replicate, length_replicate] at h
  rw [if_neg Bool.false_ne_true, if_pos (by decide)] at h
  cases h

/-- **Only these patterns match every name.** -/
theorem match_all_iff {p : Str} : (∀ t, t ≠ [] → wildcardMatch t p = true) ↔ Everything p := by
  refine ⟨fun h => ?_, fun h t ht => h.match ht⟩
  have hp : p ≠ [] := by
    rintro rfl
    exact absurd (h [97] (by decide)) (by decide)
  have hshort := few_stars hp (h _ (by simp))
  have hrec : ∀ t : Str, t ≠ [] → wildcardMatchRec ((chars t).length + p.length + 1) (chars t) (p.map ofChar) = true := by
    intro t ht
    rw [← h t ht, wildcardMatch_eq ht hp, if_neg hshort]
  -- the letter é is no byte of a pattern
  have hsingle : Single (p.map ofChar) := by
    refine single_of_rec (c := 233) (fun hm => ?_) (hrec [195, 169] (by decide))
    obtain ⟨b, -, hb⟩ := mem_map.mp hm
    have := ofChar_lt b
    omega
  have hname := hrec (replicate (p.length + 2) 97) (by simp)
  rw [chars_replicate] at hname
  have hstar : ofChar star ∈ p.map ofChar := by
    by_contra hno
    have := length_le_of_rec hno hname
    rw [length_replicate, length_map] at this
    omega
  have hinj := map_injective_iff.mpr (fun a b => ofChar_injective (a := a) (b := b))
  have hother : ofChar star ≠ ofChar percent ∧ ofChar star ≠ ofChar quest := by decide
  obtain ⟨m, j, hshape⟩ := hsingle
  rcases hshape with heq | heq | heq | heq | heq
  · rw [heq] at hstar
    exact absurd (mem_replicate.mp hstar).2 hother.1
  · cases j with
    | zero =>
      rw [heq] at hstar
      simp [hother] at hstar
    | succ j =>
      refine ⟨hshort, m, j, .inr (.inl (hinj (heq.trans ?_)))⟩
      rw [map_append, map_replicate, map_cons, map_replicate]
  · cases j with
    | zero =>
      rw [heq] at hstar
      simp [hother] at hstar
    | succ j =>
      have hm : m + 2 ≤ p.length + 2 := by
        have := congrArg List.length heq
        simp only [length_map, length_append, length_replicate] at this
        omega
      rw [heq, rec_closed (by decide) j hm] at hname
      cases hname
  · refine ⟨hshort, m, j, .inl (hinj (heq.trans ?_))⟩
    rw [map_append, map_replicate, map_replicate]
  · refine ⟨hshort, m, j, .inr (.inr (hinj (heq.trans ?_)))⟩
    rw [map_append, map_replicate, map_append, map_replicate]
    rfl

end Wildcard
end Manticore

import Mathlib
/-!
# Search — the bisections of `std/binarysearch_impl.h`

The values are read through `pred`, and a failed read makes the search fail.  The first number bounds the loop.
-/
namespace Manticore
open List

/-- `BinarySearchFirst ( pStart, pEnd, tPred, tRef )`: the first place from `s` on whose value is not below `ref`, or
`e` when all before it are below. -/
def binarySearchFirst (pred : Nat → Option Nat) (ref : Nat) : Nat → Nat → Nat → Option Nat
  | 0,     s, _ => some s
  | f + 1, s, e =>
    if s = e then some s
    else (pred (s + (e - s) / 2)).bind (fun v =>
      if v < ref then binarySearchFirst pred ref f (s + (e - s) / 2 + 1) e
      else binarySearchFirst pred ref f s (s + (e - s) / 2))

/-- **The first place not below**: all before it are below, and it is not below itself unless it is the end. -/
theorem binarySearchFirst_spec (pred : Nat → Option Nat) (v : Nat → Nat) (ref : Nat) :
    ∀ (f s e : Nat), s ≤ e → e ≤ s + f → (∀ c, s ≤ c → c < e → pred c = some (v c)) →
      (∀ c c', s ≤ c → c ≤ c' → c' < e → v c ≤ v c') →
      ∃ r, binarySearchFirst pred ref f s e = some r ∧ s ≤ r ∧ r ≤ e ∧ (∀ c, s ≤ c → c < r → v c < ref) ∧
        (r < e → ref ≤ v r)
  | 0, s, e, hse, hf, _, _ => ⟨s, rfl, le_refl _, hse, fun c h1 h2 => by omega, fun h => by omega⟩
  | f + 1, s, e, hse, hf, hpred, hmono => by
    unfold binarySearchFirst
    by_cases heq : s = e
    · rw [if_pos heq]
      exact ⟨s, rfl, le_refl _, hse, fun c h1 h2 => by omega, fun h => by omega⟩
    · have hmid : s + (e - s) / 2 < e := by omega
      rw [if_neg heq, hpred _ (by omega) hmid, Option.bind_some]
      split
      · rename_i hlt
        obtain ⟨r, hr, hsr, hre, hbelow, hat⟩ := binarySearchFirst_spec pred v ref f (s + (e - s) / 2 + 1) e
          (by omega) (by omega) (fun c h1 h2 => hpred c (by omega) h2)
          (fun c c' h1 h2 h3 => hmono c c' (by omega) h2 h3)
        refine ⟨r, hr, by omega, hre, fun c h1 h2 => ?_, hat⟩
        -- a place up to the middle is below because the middle is
        by_cases hc : c ≤ s + (e - s) / 2
        · exact lt_of_le_of_lt (hmono c _ h1 hc hmid) hlt
        · exact hbelow c (by omega) h2
      · rename_i hge
        obtain ⟨r, hr, hsr, hre, hbelow, hat⟩ := binarySearchFirst_spec pred v ref f s (s + (e - s) / 2)
          (by omega) (by omega) (fun c h1 h2 => hpred c h1 (by omega))
          (fun c c' h1 h2 h3 => hmono c c' h1 h2 (by omega))
        refine ⟨r, hr, hsr, by omega, hbelow, fun _ => ?_⟩
        by_cases hrm : r < s + (e - s) / 2
        · exact hat hrm
        · rw [show r = s + (e - s) / 2 by omega]; omega

/-- The loop of `BinarySearch ( pStart, pEnd, tPred, tRef )`, over the places of a list. -/
def binarySearchLoop (l : List Nat) (ref : Nat) : Nat → Nat → Nat → Option Nat
  | 0, _, _ => none
  | f + 1, s, e =>
    if e - s ≤ 1 then none
    else if ref < l.getD s 0 ∨ l.getD e 0 < ref then none
    else if ref = l.getD (s + (e - s) / 2) 0 then some (s + (e - s) / 2)
    else if ref < l.getD (s + (e - s) / 2) 0 then binarySearchLoop l ref f s (s + (e - s) / 2)
    else binarySearchLoop l ref f (s + (e - s) / 2) e

/-- `BinarySearch` over a whole list: the place of the value, `none` when it is not there. -/
def binarySearch (l : List Nat) (ref : Nat) : Option Nat :=
  if l = [] then none
  else if l.getD 0 0 = ref then some 0
  else if l.getD (l.length - 1) 0 = ref then some (l.length - 1)
  else binarySearchLoop l ref l.length 0 (l.length - 1)

variable {l : List Nat}

theorem binarySearchLoop_some {ref : Nat} : ∀ {f s e i : Nat}, e < l.length →
    binarySearchLoop l ref f s e = some i → i < l.length ∧ l.getD i 0 = ref
  | 0, s, e, i, _, h => by cases h
  | f + 1, s, e, i, he, h => by
    rw [binarySearchLoop] at h
    split at h
    · cases h
    split at h
    · cases h
    split at h
    · rename_i hmid
      cases h
      exact ⟨by omega, hmid.symm⟩
    split at h
    · exact binarySearchLoop_some (by omega) h
    · exact binarySearchLoop_some he h

theorem binarySearch_some {ref i : Nat} (h : binarySearch l ref = some i) : i < l.length ∧ l.getD i 0 = ref := by
  rw [binarySearch] at h
  split at h
  · cases h
  rename_i hne
  have hpos := length_pos_of_ne_nil hne
  split at h
  · rename_i hz
    cases h
    exact ⟨hpos, hz⟩
  split at h
  · rename_i hl
    cases h
    exact ⟨by omega, hl⟩
  · exact binarySearchLoop_some (by omega) h

theorem binarySearchLoop_isSome (hl : l.Pairwise (· < ·)) {i : Nat} (hi : i < l.length) :
    ∀ {f s e : Nat}, e ≤ s + f → e < l.length → s < i → i < e → (binarySearchLoop l (l.getD i 0) f s e).isSome
  | 0, s, e, hf, _, h1, h2 => by omega
  | f + 1, s, e, hf, he, h1, h2 => by
    have hmono : ∀ a b, a < b → b < l.length → l.getD a 0 < l.getD b 0 := by
      intro a b hab hb
      rw [getD_eq_getElem l 0 (by omega : a < l.length), getD_eq_getElem l 0 hb]
      exact pairwise_iff_getElem.mp hl a b (by omega) hb hab
    have hs := hmono s i h1 hi
    have hie := hmono i e h2 he
    rw [binarySearchLoop, if_neg (by omega), if_neg (by omega)]
    split
    · rfl
    · rename_i hne
      rcases lt_trichotomy i (s + (e - s) / 2) with hlt | heq | hgt
      · rw [if_pos (hmono _ _ hlt (by omega))]
        exact binarySearchLoop_isSome hl hi (by omega) (by omega) h1 hlt
      · exact absurd (congrArg (l.getD · 0) heq) hne
      · rw [if_neg (lt_asymm (hmono _ _ hgt hi))]
        exact binarySearchLoop_isSome hl hi (by omega) he hgt h2

theorem binarySearch_of_mem (hl : l.Pairwise (· < ·)) {ref : Nat} (hmem : ref ∈ l) :
    ∃ i, binarySearch l ref = some i := by
  obtain ⟨i, hi, rfl⟩ := mem_iff_getElem.mp hmem
  rw [← getD_eq_getElem l 0 hi, binarySearch, if_neg (ne_nil_of_length_pos (by omega))]
  split
  · exact ⟨0, rfl⟩
  split
  · exact ⟨_, rfl⟩
  rename_i h0 h1
  have hz : 0 < i := pos_of_ne_zero fun h => h0 (by rw [h])
  have hlast : i < l.length - 1 := lt_of_le_of_ne (by omega) fun h => h1 (by rw [h])
  exact Option.isSome_iff_exists.mp (binarySearchLoop_isSome hl hi (by omega) (by omega) hz hlast)

theorem not_mem_of_binarySearch (hl : l.Pairwise (· < ·)) {ref : Nat} (h : binarySearch l ref = none) : ref ∉ l := by
  intro hmem
  obtain ⟨i, hi⟩ := binarySearch_of_mem hl hmem
  rw [h] at hi
  cases hi

end Manticore

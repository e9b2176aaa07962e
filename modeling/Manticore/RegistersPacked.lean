import Mathlib.Data.Finset.Card
import Mathlib.Data.Finset.Range
import Mathlib.Data.List.Induction
import Mathlib.Tactic.IntervalCases
import Manticore.Arrays
/-! # RegistersPacked — six-bit registers in 64-bit words, some across two words

`RegistersPacked_T` of `hyperloglog.h` at 6 bits per bucket and `uint64_t` elements.  Bit offsets are `int`s in the source: they do
not overflow as long as the constructor's own product `iBuckets*iBitsPerBucket` does not. -/
namespace Manticore
namespace Hll
open List
open Arrays (getD_set)

/-! ## The registers -/

structure RegistersPacked (n : Nat) where
  data : List (BitVec 64)
  used : Nat
  size : data.length = (n * 6 + 64 - 1) / 64

namespace RegistersPacked

variable {n : Nat}

/-- `m_uMask` -/
def mask : BitVec 64 := (1 <<< 6) - 1

/-- The constructor. -/
def new (n : Nat) : RegistersPacked n := ⟨List.replicate _ 0, 0, List.length_replicate⟩

def elem (r : RegistersPacked n) (idx : Nat) : BitVec 64 := r.data.getD idx 0

/-- `Get` -/
def get (r : RegistersPacked n) (b : Nat) : BitVec 8 :=
  let idx := b * 6 / 64
  let off := b * 6 % 64
  if off + 6 ≤ 64 then ((r.elem idx >>> off) &&& mask).setWidth 8
  else ((r.elem idx >>> off) ||| ((r.elem (idx + 1) <<< (64 - off)) &&& mask)).setWidth 8

/-- What `Update` writes when the value is above the stored one. -/
def write (r : RegistersPacked n) (b : Nat) (v : BitVec 8) : List (BitVec 64) :=
  let idx := b * 6 / 64
  let off := b * 6 % 64
  let elem₁ := (r.elem idx &&& ~~~(mask <<< off)) ||| (v.setWidth 64 <<< off)
  if off + 6 ≤ 64 then r.data.set idx elem₁
  -- the second mask is shifted by the bits of a bucket, not by the bits that fit in the first word
  else (r.data.set idx elem₁).set (idx + 1) ((r.elem (idx + 1) &&& ~~~(mask >>> 6)) ||| (v.setWidth 64 >>> (64 - off)))

theorem length_write (r : RegistersPacked n) (b : Nat) (v : BitVec 8) : (r.write b v).length = r.data.length := by
  unfold write
  simp only
  split <;> simp only [length_set]

/-- `Update`: the stored value is read as `Get` reads it. -/
def update (r : RegistersPacked n) (b : Nat) (v : BitVec 8) : RegistersPacked n :=
  if r.get b < v then
    ⟨r.write b v, r.used + (if r.get b = 0 then 1 else 0), (r.length_write b v).trans r.size⟩
  else r

/-- `GetNumUnused` -/
def numUnused (r : RegistersPacked n) : Int := n - r.used

/-- The registers after a sequence of updates. -/
def run (ups : List (Nat × BitVec 8)) : RegistersPacked n := ups.foldl (fun r u => r.update u.1 u.2) (new n)

/-! ## Bits -/

/-- Bit `i` of the words laid end to end. -/
def bit (r : RegistersPacked n) (i : Nat) : Bool := (r.elem (i / 64)).getLsbD (i % 64)

theorem getLsbD_mask (j : Nat) : mask.getLsbD j = decide (j < 6) := by
  by_cases h : j < 64
  · interval_cases j <;> rfl
  · rw [BitVec.getLsbD_of_ge _ _ (by omega), decide_eq_false (by omega)]

theorem pos_of_lt {k j : Nat} (h : k % 64 + j < 64) : (k + j) / 64 = k / 64 ∧ (k + j) % 64 = k % 64 + j := by omega

theorem pos_of_ge {k j : Nat} (h : 64 ≤ k % 64 + j) (hj : j < 64) :
    (k + j) / 64 = k / 64 + 1 ∧ (k + j) % 64 = j - (64 - k % 64) := by omega

theorem getLsbD_get (r : RegistersPacked n) (b : Nat) (j : Nat) :
    (r.get b).getLsbD j = (decide (j < 6) && r.bit (b * 6 + j)) := by
  by_cases hj : j < 6
  · have hj8 : j < 8 := by omega
    have hj64 : j < 64 := by omega
    rw [decide_eq_true hj, Bool.true_and]
    unfold get bit
    simp only
    split
    · next hfit =>
      obtain ⟨h1, h2⟩ := pos_of_lt (k := b * 6) (j := j) (by omega)
      simp [h1, h2, getLsbD_mask, hj, hj8]
    · next hfit =>
      by_cases hlow : b * 6 % 64 + j < 64
      · obtain ⟨h1, h2⟩ := pos_of_lt hlow
        have hs : j < 64 - b * 6 % 64 := by omega
        simp [h1, h2, hj8, hs]
      · obtain ⟨h1, h2⟩ := pos_of_ge (k := b * 6) (j := j) (by omega) hj64
        have hs : ¬ j < 64 - b * 6 % 64 := by omega
        simp [h1, h2, getLsbD_mask, hj, hj8, hj64, hs, BitVec.getLsbD_of_ge _ (b * 6 % 64 + j) (by omega : 64 ≤ _)]
  · rw [decide_eq_false hj, Bool.false_and]
    unfold get
    simp only
    split
    · simp [getLsbD_mask, hj]
    · next hfit =>
      simp [getLsbD_mask, hj, BitVec.getLsbD_of_ge _ (b * 6 % 64 + j) (by omega : 64 ≤ _)]

variable {b : Nat} {v : BitVec 8} {ups : List (Nat × BitVec 8)}

theorem get_ext {r r' : RegistersPacked n} (h : ∀ j < 6, r'.bit (b * 6 + j) = r.bit (b * 6 + j)) : r'.get b = r.get b := by
  refine BitVec.eq_of_getLsbD_eq fun j _ => ?_
  rw [getLsbD_get, getLsbD_get]
  by_cases hj : j < 6
  · rw [h j hj]
  · rw [decide_eq_false hj, Bool.false_and, Bool.false_and]

/-! ## One update -/

theorem getLsbD_value (hv : v.toNat < 64) {j : Nat} (hj : 6 ≤ j) : v.getLsbD j = false :=
  Nat.testBit_lt_two_pow (lt_of_lt_of_le hv (Nat.pow_le_pow_right (n := 2) (by decide) hj))

/-- The bits of the bucket become those of the value, but a bit in the second word stays set. -/
theorem bit_write (r : RegistersPacked n) (hb : b < n) (hv : v.toNat < 64) (i : Nat) :
    ((r.write b v).getD (i / 64) 0).getLsbD (i % 64) =
      if b * 6 ≤ i ∧ i < b * 6 + 6 then v.getLsbD (i - b * 6) || (decide (64 ≤ b * 6 % 64 + (i - b * 6)) && r.bit i)
      else r.bit i := by
  have hsize := r.size
  have hidx : b * 6 / 64 < r.data.length := by omega
  have hi := Nat.mod_lt i (show 0 < 64 by decide)
  -- one bit of the first word, whichever branch is taken
  have hfirst : i / 64 = b * 6 / 64 →
      ((r.elem (b * 6 / 64) &&& ~~~(mask <<< (b * 6 % 64))) ||| (v.setWidth 64 <<< (b * 6 % 64))).getLsbD (i % 64) =
        if b * 6 ≤ i ∧ i < b * 6 + 6 then v.getLsbD (i - b * 6) || (decide (64 ≤ b * 6 % 64 + (i - b * 6)) && r.bit i)
        else r.bit i := by
    intro h
    by_cases hlow : i % 64 < b * 6 % 64
    · rw [if_neg (by omega)]
      simp [bit, h, hi, hlow]
    · have hsub : i % 64 - b * 6 % 64 = i - b * 6 := by omega
      by_cases hhigh : i < b * 6 + 6
      · rw [if_pos (by omega), decide_eq_false (show ¬ 64 ≤ b * 6 % 64 + (i - b * 6) by omega)]
        simp [hi, hlow, hsub, getLsbD_mask, show i - b * 6 < 6 by omega]
      · rw [if_neg (by omega)]
        simp only [BitVec.getLsbD_or, BitVec.getLsbD_and, BitVec.getLsbD_not, BitVec.getLsbD_shiftLeft, BitVec.getLsbD_setWidth,
          hsub, getLsbD_mask, show ¬ i - b * 6 < 6 by omega, getLsbD_value hv (show 6 ≤ i - b * 6 by omega)]
        simp [bit, h, hi]
  unfold write
  simp only
  split
  · next hfit =>
    rw [getD_set hidx]
    split
    · next h => exact hfirst h
    · next h =>
      rw [if_neg (by omega)]
      rfl
  · next hfit =>
    rw [getD_set (by rw [length_set]; omega), getD_set hidx]
    split
    · next h =>
      have hmask : ~~~(mask >>> 6) = BitVec.allOnes 64 := by decide
      rw [hmask, BitVec.and_allOnes]
      have hadd : 64 - b * 6 % 64 + i % 64 = i - b * 6 := by omega
      by_cases hhigh : i < b * 6 + 6
      · rw [if_pos (by omega), decide_eq_true (show 64 ≤ b * 6 % 64 + (i - b * 6) by omega)]
        simp [bit, h, hi, hadd, Bool.or_comm, show i - b * 6 < 64 by omega]
      · rw [if_neg (by omega)]
        simp [bit, h, hi, hadd, getLsbD_value hv (show 6 ≤ i - b * 6 by omega)]
    · split
      · next h => exact hfirst h
      · next h₂ h₁ =>
        rw [if_neg (by omega)]
        rfl

theorem bit_update (r : RegistersPacked n) (hb : b < n) (hv : v.toNat < 64) (hlt : r.get b < v) (i : Nat) :
    (r.update b v).bit i =
      if b * 6 ≤ i ∧ i < b * 6 + 6 then v.getLsbD (i - b * 6) || (decide (64 ≤ b * 6 % 64 + (i - b * 6)) && r.bit i)
      else r.bit i := by
  unfold update
  rw [if_pos hlt]
  exact r.bit_write hb hv i

/-- The bits of bucket `b` that are in the word it starts in. -/
def firstBits (b : Nat) : Nat := 64 - b * 6 % 64

/-- The register after an update above it: the bits of the old value in the second word stay. -/
def blend (b : Nat) (old v : BitVec 8) : BitVec 8 := v ||| ((old >>> firstBits b) <<< firstBits b)

theorem get_update_self (r : RegistersPacked n) (hb : b < n) (hv : v.toNat < 64) :
    (r.update b v).get b = if r.get b < v then blend b (r.get b) v else r.get b := by
  split
  · next hlt =>
    refine BitVec.eq_of_getLsbD_eq fun j hj => ?_
    rw [getLsbD_get, bit_update r hb hv hlt, blend, BitVec.getLsbD_or, BitVec.getLsbD_shiftLeft, BitVec.getLsbD_ushiftRight,
      getLsbD_get]
    by_cases hj6 : j < 6
    · rw [if_pos ⟨Nat.le_add_right _ _, Nat.add_lt_add_left hj6 _⟩, Nat.add_sub_cancel_left]
      by_cases hs : j < firstBits b
      · have h1 : ¬ 64 ≤ b * 6 % 64 + j := by unfold firstBits at hs; omega
        simp [hj6, hs, h1]
      · have h1 : 64 ≤ b * 6 % 64 + j := by unfold firstBits at hs; omega
        have h2 : firstBits b + (j - firstBits b) = j := by omega
        simp [hj, hj6, hs, h1, h2]
    · have h2 : ¬ j < firstBits b → firstBits b + (j - firstBits b) = j := by omega
      by_cases hs : j < firstBits b
      · simp [hj6, hs, getLsbD_value hv (not_lt.mp hj6)]
      · simp [hj6, hs, h2 hs, getLsbD_value hv (not_lt.mp hj6)]
  · next hlt =>
    unfold update
    rw [if_neg hlt]

/-- **No update of one bucket changes another.** -/
theorem get_update_of_ne (r : RegistersPacked n) {c : Nat} (hb : b < n) (hv : v.toNat < 64) (hne : c ≠ b) :
    (r.update b v).get c = r.get c := by
  by_cases hlt : r.get b < v
  · refine get_ext fun j hj => ?_
    rw [bit_update r hb hv hlt, if_neg]
    rintro ⟨h1, h2⟩
    exact hne (by omega)
  · unfold update
    rw [if_neg hlt]

/-! ## A whole run -/

/-- An update of the run: a bucket that exists and a value of six bits. -/
def Fits (n : Nat) (u : Nat × BitVec 8) : Prop := u.1 < n ∧ u.2.toNat < 64

/-- The maximum of the values given to bucket `b`. -/
def maxGiven (b : Nat) (ups : List (Nat × BitVec 8)) : Nat := ((ups.filter (·.1 = b)).map (·.2.toNat)).foldl max 0

theorem run_snoc (ups : List (Nat × BitVec 8)) (u : Nat × BitVec 8) :
    (run (ups ++ [u]) : RegistersPacked n) = (run ups).update u.1 u.2 := by
  unfold run
  rw [foldl_append]
  rfl

theorem maxGiven_snoc (b : Nat) (ups : List (Nat × BitVec 8)) (u : Nat × BitVec 8) :
    maxGiven b (ups ++ [u]) = if u.1 = b then max (maxGiven b ups) u.2.toNat else maxGiven b ups := by
  unfold maxGiven
  rw [filter_append, map_append, foldl_append]
  split
  · next h => simp [h]
  · next h => simp [h]

theorem blend_ne_zero {old : BitVec 8} (h : old < v) : blend b old v ≠ 0 := by
  intro h0
  have hv : v = 0 := (BitVec.or_eq_zero_iff.mp h0).1
  rw [hv] at h
  exact absurd h (by simp)

theorem get_new (b : Nat) : (new n).get b = 0 := by
  refine BitVec.eq_of_getLsbD_eq fun j _ => ?_
  have h0 : ∀ i, (new n).bit i = false := by
    intro i
    unfold bit elem new
    rw [getD_eq_getElem?_getD, getElem?_replicate]
    split <;> simp
  rw [getLsbD_get, h0, Bool.and_false]
  simp

/-- The buckets whose register is 0. -/
def zeros (r : RegistersPacked n) : Finset Nat := {b ∈ Finset.range n | r.get b = 0}

theorem zeros_update (r : RegistersPacked n) (hb : b < n) (hv : v.toNat < 64) (hlt : r.get b < v) :
    (r.update b v).zeros = r.zeros.erase b := by
  ext c
  simp only [zeros, Finset.mem_filter, Finset.mem_erase, Finset.mem_range]
  by_cases hc : c = b
  · subst hc
    simpa [get_update_self r hb hv, hlt] using fun _ => blend_ne_zero hlt
  · simp [get_update_of_ne r hb hv hc, hc]

/-- The registers in use are counted, whatever is in them. -/
theorem used_run (hups : ∀ u ∈ ups, Fits n u) :
    (run ups : RegistersPacked n).used + (run ups : RegistersPacked n).zeros.card = n := by
  induction ups using List.reverseRecOn with
  | nil =>
    have h0 : (run [] : RegistersPacked n).zeros = Finset.range n := Finset.filter_true_of_mem fun b _ => get_new b
    rw [h0, Finset.card_range]
    exact zero_add n
  | append_singleton ups u ih =>
    have ih := ih (forall_mem_append.mp hups).1
    obtain ⟨hb, hv⟩ := hups u (mem_append_right _ mem_cons_self)
    rw [run_snoc]
    generalize (run ups : RegistersPacked n) = r at ih
    by_cases hlt : r.get u.1 < u.2
    · have hused : (r.update u.1 u.2).used = r.used + (if r.get u.1 = 0 then 1 else 0) := by
        unfold update
        rw [if_pos hlt]
      rw [zeros_update r hb hv hlt, hused]
      by_cases h0 : r.get u.1 = 0
      · have hmem : u.1 ∈ r.zeros := Finset.mem_filter.mpr ⟨Finset.mem_range.mpr hb, h0⟩
        have hpos := Finset.card_pos.mpr ⟨_, hmem⟩
        rw [if_pos h0, Finset.card_erase_of_mem hmem]
        omega
      · have hmem : u.1 ∉ r.zeros := fun hmem => h0 (Finset.mem_filter.mp hmem).2
        rw [if_neg h0, Finset.erase_eq_of_notMem hmem]
        exact ih
    · have hsame : r.update u.1 u.2 = r := if_neg hlt
      rw [hsame]
      exact ih

/-- **The registers after the updates are max registers**: each is the maximum of the values given to it, no update of one bucket
changes another, and the unused ones are those with a register of 0. -/
structure MaxRegisters (ups : List (Nat × BitVec 8)) (r : RegistersPacked n) : Prop where
  get : ∀ b < n, (r.get b).toNat = maxGiven b ups
  frame : ∀ u c, Fits n u → c < n → c ≠ u.1 → (r.update u.1 u.2).get c = r.get c
  unused : r.numUnused = r.zeros.card

/-- The new value covers what is left of the old one: its bits above those in the first word. -/
def Covers (b old v : Nat) : Prop := old < v → v ||| ((old >>> firstBits b) <<< firstBits b) = v

theorem toNat_blend (b : Nat) (old v : BitVec 8) :
    (blend b old v).toNat = v.toNat ||| ((old.toNat >>> firstBits b) <<< firstBits b) := by
  have hle : (old.toNat >>> firstBits b) <<< firstBits b < 2 ^ 8 := by
    rw [Nat.shiftRight_eq_div_pow, Nat.shiftLeft_eq]
    exact lt_of_le_of_lt (Nat.div_mul_le_self _ _) old.isLt
  rw [blend, BitVec.toNat_or, BitVec.toNat_shiftLeft, BitVec.toNat_ushiftRight, Nat.mod_eq_of_lt hle]

theorem get_step {u : Nat × BitVec 8} (hu : Fits n u)
    (hget : ∀ b < n, ((run ups : RegistersPacked n).get b).toNat = maxGiven b ups) :
    (∀ b < n, ((run (ups ++ [u]) : RegistersPacked n).get b).toNat = maxGiven b (ups ++ [u])) ↔
      Covers u.1 (maxGiven u.1 ups) u.2.toNat := by
  obtain ⟨hb, hv⟩ := hu
  have hself : ((run (ups ++ [u]) : RegistersPacked n).get u.1).toNat = maxGiven u.1 (ups ++ [u]) ↔
      Covers u.1 (maxGiven u.1 ups) u.2.toNat := by
    rw [run_snoc, maxGiven_snoc, if_pos rfl, get_update_self _ hb hv, Covers, ← hget u.1 hb]
    simp only [BitVec.lt_def]
    split
    · next h =>
      rw [toNat_blend, max_eq_right (le_of_lt h)]
      exact ⟨fun h' _ => h', fun h' => h' h⟩
    · next h =>
      rw [max_eq_left (not_lt.mp h)]
      exact ⟨fun _ h' => absurd h' h, fun _ => rfl⟩
  constructor
  · exact fun h => hself.mp (h u.1 hb)
  · intro h c hc
    by_cases hcb : c = u.1
    · rw [hcb]
      exact hself.mpr h
    · rw [run_snoc, maxGiven_snoc, if_neg (Ne.symm hcb), get_update_of_ne _ hb hv hcb]
      exact hget c hc

theorem maxRegisters_iff (hups : ∀ u ∈ ups, Fits n u) :
    MaxRegisters ups (run ups : RegistersPacked n) ↔ ∀ b < n, ((run ups : RegistersPacked n).get b).toNat = maxGiven b ups := by
  refine ⟨MaxRegisters.get, fun h => ⟨h, fun u c hu _ hne => get_update_of_ne _ hu.1 hu.2 hne, ?_⟩⟩
  have := used_run hups
  unfold numUnused
  omega

/-- **The registers are right along a run exactly when every raise of a bucket covers the old bits in the second word.** -/
theorem run_maxRegisters_iff {ups : List (Nat × BitVec 8)} (hups : ∀ u ∈ ups, Fits n u) :
    (∀ done, done <+: ups → MaxRegisters done (run done : RegistersPacked n)) ↔
      ∀ done u, done ++ [u] <+: ups → Covers u.1 (maxGiven u.1 done) u.2.toNat := by
  have hfits : ∀ done, done <+: ups → ∀ u ∈ done, Fits n u := fun done h u hu => hups u (h.subset hu)
  constructor
  · intro h done u hpre
    have hdone : done <+: ups := (prefix_append done [u]).trans hpre
    have hu := hfits _ hpre u (mem_append_right _ mem_cons_self)
    exact (get_step hu (h done hdone).get).mp (h _ hpre).get
  · intro h done hdone
    rw [maxRegisters_iff (hfits done hdone)]
    induction done using List.reverseRecOn with
    | nil => exact fun b _ => by rw [show (run [] : RegistersPacked n).get b = 0 from get_new b]; rfl
    | append_singleton done u ih =>
      have hu := hfits _ hdone u (mem_append_right _ mem_cons_self)
      exact (get_step hu (ih ((prefix_append done [u]).trans hdone))).mpr (h done u hdone)

/-- In bucket 10, which lies in two words, 48 covers the old 16. -/
theorem run_maxRegisters_covered :
    (∀ u ∈ [((10 : Nat), (16 : BitVec 8)), (10, 48)], Fits 16 u) ∧
      ∀ done, done <+: [((10 : Nat), (16 : BitVec 8)), (10, 48)] → MaxRegisters done (run done : RegistersPacked 16) := by
  have hfits : ∀ u ∈ [((10 : Nat), (16 : BitVec 8)), (10, 48)], Fits 16 u := by
    unfold Fits
    decide
  refine ⟨hfits, (run_maxRegisters_iff hfits).mpr ?_⟩
  rintro done u ⟨rest, h⟩
  unfold Covers
  match done with
  | [] =>
    cases h
    decide
  | [_] =>
    cases h
    decide
  | _ :: _ :: _ => simp at h

/-- Bucket 10 takes the last four bits of one word and two of the next: after 16 and 32 it reads 48. -/
theorem raise_keeps_old_bits :
    Fits 16 (10, 16) ∧ Fits 16 (10, 32) ∧ (run [(10, 16), (10, 32)] : RegistersPacked 16).get 10 = 48 ∧
      maxGiven 10 [(10, 16), (10, 32)] = 32 := by
  unfold Fits
  decide

end RegistersPacked
end Hll
end Manticore

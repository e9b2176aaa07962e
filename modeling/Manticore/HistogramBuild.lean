import Mathlib.Data.List.Sort
import Mathlib.Tactic.Common
import Manticore.FileIo
/-!
# HistogramBuild — the two builders of the attribute histograms

`BuildStoreHistograms` of `sphinx.cpp` fills the histograms from the source while the rows are indexed; the function of
that name in `histogram.cpp` fills them from the stored rows when RAM segments are saved and when chunks are merged.  Both
insert as many values, but the second one takes single bytes of a packed set and another hash of a string.
-/
namespace Manticore
namespace Histogram
open List

/-- An attribute with a histogram, as the source gives it for one row.  `integer` stands for the attributes of at most 32
bits (`SPH_ATTR_INTEGER`, `SPH_ATTR_TIMESTAMP`, `SPH_ATTR_BOOL`, `SPH_ATTR_FLOAT`), with the bits of its locator. -/
inductive SourceAttr where
  | integer (bitCount : Nat) (v : Int64)
  | bigint (v : Int64)
  | uint32set (vals : List Int64)
  | int64set (vals : List Int64)
  | string (s : List UInt8)

/-- The attribute in the stored row; a set is its packed values. -/
inductive StoredAttr where
  | integer (v : Int)
  | bigint (v : Int64)
  | uint32set (data : List UInt8)
  | int64set (data : List UInt8)
  | string (data : List UInt8)

/-- The low DWORD of a value. -/
def dword (v : Int64) : Int := v.toInt % 2 ^ 32

/-- `SortMva`: sorted without duplicates.  `Mva32Uniq_fn`, the packer of 32-bit sets and the histogram of such a set all
see the low DWORD only. -/
def sortMva (bMva32 : Bool) (vals : List Int64) : List Int :=
  ((vals.map fun v => if bMva32 then dword v else v.toInt).dedup).insertionSort (· ≤ ·)

/-- The values of a set, `width` bytes each. -/
def pack (width : Nat) (vals : List Int) : List UInt8 := vals.flatMap fun v => putLE width (v % 256 ^ width).toNat

/-- What indexing stores. -/
def store : SourceAttr → StoredAttr
  | .integer bitCount v => .integer (v.toInt % 2 ^ bitCount)
  | .bigint v           => .bigint v
  | .uint32set vals     => .uint32set (pack 4 (sortMva true vals))
  | .int64set vals      => .int64set (pack 8 (sortMva false vals))
  | .string s           => .string s

/-- `g_dCRC32`, the table of the reflected polynomial. -/
def g_dCRC32 (i : BitVec 32) : BitVec 32 :=
  (range 8).foldl (fun c _ => if c.getLsbD 0 then (c >>> 1) ^^^ 0xedb88320#32 else c >>> 1) i

def crc32Next (crc : BitVec 32) (b : UInt8) : BitVec 32 :=
  (crc >>> 8) ^^^ g_dCRC32 ((crc ^^^ b.toBitVec.setWidth 32) &&& 0xff#32)

def sphCRC32 (s : List UInt8) : BitVec 32 := ~~~ s.foldl crc32Next (~~~ 0#32)

def sphFNV64x4 (b : UInt8) (prev : BitVec 64) : BitVec 64 := (prev ^^^ b.toBitVec.setWidth 64) * 0x9ffaac085635bc91#64

/-- `LibcCIHash_fn::Hash` from `SPH_FNV64_SEED`; `lower` is the table `g_dLowerLibcCI` of the locale. -/
def libcCIHash (lower : UInt8 → UInt8) (s : List UInt8) : BitVec 64 :=
  s.foldl (fun acc b => sphFNV64x4 (lower b) acc) 0xcbf29ce484222325#64

/-- The values that the builder of `sphinx.cpp` inserts for one attribute of a row. -/
def insertSource (lower : UInt8 → UInt8) : SourceAttr → List Int
  | .integer _ v    => [dword v]
  | .bigint v       => [v.toInt]
  | .uint32set vals => sortMva true vals
  | .int64set vals  => sortMva false vals
  | .string s       => [if s.length = 0 then 0 else (libcCIHash lower s).toInt]

/-- `tHistograms.Insert ( iAttr, pSrc[iVal] )` for each value: `pSrc` points at bytes. -/
def insertSet (width : Nat) (data : List UInt8) : List Int :=
  (data.take (data.length / width)).map fun b => (b.toNat : Int)

/-- The values that the builder of `histogram.cpp` inserts for one attribute of a stored row. -/
def insertStored : StoredAttr → List Int
  | .integer v      => [v % 2 ^ 32]
  | .bigint v       => [v.toInt]
  | .uint32set data => insertSet 4 data
  | .int64set data  => insertSet 8 data
  | .string data    => [((sphCRC32 data).toNat : Int)]

/-- `BuildStoreHistograms` for one row, over the values inserted into each histogram so far. -/
def buildStoreHistograms {α : Type} {n : Nat} (insert : α → List Int) (hists : Fin n → List Int) (row : Fin n → α) :
    Fin n → List Int := fun i => hists i ++ insert (row i)

/-! ## One attribute -/

/-- The attributes for which both builders insert the same values. -/
def Agrees (lower : UInt8 → UInt8) : SourceAttr → Prop
  | .integer bitCount v => v.toInt % 2 ^ bitCount % 2 ^ 32 = dword v
  | .bigint _           => True
  | .uint32set vals     => ∀ v ∈ vals, dword v < 256 ∧ ∀ u ∈ vals, dword u = dword v
  | .int64set vals      => ∀ v ∈ vals, 0 ≤ v.toInt ∧ v.toInt < 256 ∧ ∀ u ∈ vals, u.toInt = v.toInt
  | .string s           => s = [] ∨ ((sphCRC32 s).toNat : Int) = (libcCIHash lower s).toInt

theorem mem_sortMva {b : Bool} {vals : List Int64} {x : Int} :
    x ∈ sortMva b vals ↔ ∃ v ∈ vals, (if b then dword v else v.toInt) = x := by
  rw [sortMva, mem_insertionSort, mem_dedup, mem_map]

theorem sortMva_ascending (b : Bool) (vals : List Int64) : (sortMva b vals).Pairwise (· < ·) := by
  have hle := pairwise_insertionSort (· ≤ ·) ((vals.map fun v => if b then dword v else v.toInt).dedup)
  have hne := (perm_insertionSort (· ≤ ·) _).nodup_iff.mpr (nodup_dedup (vals.map fun v => if b then dword v else v.toInt))
  exact (hle.and hne).imp fun h => lt_of_le_of_ne h.1 h.2

theorem length_pack (width : Nat) : ∀ vals : List Int, (pack width vals).length = width * vals.length
  | [] => rfl
  | v :: vals => by
    have ih := length_pack width vals
    rw [pack, flatMap_cons, length_append, length_putLE, ← pack, ih, length_cons, Nat.mul_succ, Nat.add_comm]

theorem length_insertSet {width : Nat} (hw : 0 < width) (vals : List Int) :
    (insertSet width (pack width vals)).length = vals.length := by
  have hle : vals.length ≤ width * vals.length := Nat.le_mul_of_pos_left _ hw
  rw [insertSet, length_map, length_take, length_pack, Nat.mul_div_cancel_left _ hw, Nat.min_eq_left hle]

/-- The second byte of the first value stands where the second value is expected. -/
theorem insertSet_pack_iff (k : Nat) {vals : List Int} (hasc : vals.Pairwise (· < ·)) :
    insertSet (k + 2) (pack (k + 2) vals) = vals ↔ ∀ v ∈ vals, 0 ≤ v ∧ v < 256 ∧ ∀ u ∈ vals, u = v := by
  have hcount : (pack (k + 2) vals).length / (k + 2) = vals.length := by
    rw [length_pack, Nat.mul_div_cancel_left _ (by omega)]
  have hpow : (256 : Int) ^ (k + 2) = 256 * (256 * 256 ^ k) := by ring
  have hone : (1 : Int) ≤ 256 ^ k := one_le_pow₀ (by decide)
  have hlow : ∀ v : Int, ((v % 256 ^ (k + 2)).toNat : Int) % 256 = v % 256 := by
    intro v
    rw [Int.toNat_of_nonneg (Int.emod_nonneg _ (by omega)), hpow, Int.emod_emod_of_dvd v ⟨_, rfl⟩]
  rw [insertSet, hcount]
  rcases vals with _ | ⟨v, _ | ⟨u, vals⟩⟩
  · simp [pack]
  · simp only [pack, flatMap_cons, putLE, cons_append, length_cons, length_nil, take_succ_cons, take_zero, map_cons, map_nil,
      UInt8.toNat_ofNat', Int.natCast_mod, mem_singleton, forall_eq, cons.injEq, and_true]
    have := hlow v
    omega
  · have hlt : v < u := rel_of_pairwise_cons hasc mem_cons_self
    refine ⟨fun h => ?_, fun h => ?_⟩
    · simp only [pack, flatMap_cons, putLE, cons_append, length_cons, take_succ_cons, map_cons, cons.injEq,
        UInt8.toNat_ofNat', Int.natCast_mod] at h
      have hv : 0 ≤ v ∧ v < 256 := by
        have := hlow v
        omega
      rw [Int.emod_eq_of_lt hv.1 (by omega)] at h
      omega
    · have heq := (h v mem_cons_self).2.2 u (mem_cons_of_mem _ mem_cons_self)
      omega

/-- **One attribute.**  Both builders insert the same values for it exactly when it is a number that its bits hold, a set
of at most one value below 256, or a string with equal hashes. -/
theorem insertStored_iff (lower : UInt8 → UInt8) (a : SourceAttr) :
    insertStored (store a) = insertSource lower a ↔ Agrees lower a := by
  cases a with
  | integer bitCount v => simp only [store, insertStored, insertSource, Agrees, cons.injEq, and_true]
  | bigint v => simp only [store, insertStored, insertSource, Agrees]
  | uint32set vals =>
    have hset := insertSet_pack_iff 2 (sortMva_ascending true vals)
    have hpos : ∀ v : Int64, 0 ≤ dword v := fun v => Int.emod_nonneg _ (by decide)
    simp only [mem_sortMva, if_true, forall_exists_index, and_imp, forall_apply_eq_imp_iff₂, hpos, true_and] at hset
    exact hset
  | int64set vals =>
    have hset := insertSet_pack_iff 6 (sortMva_ascending false vals)
    simp only [mem_sortMva, Bool.false_eq_true, if_false, forall_exists_index, and_imp, forall_apply_eq_imp_iff₂] at hset
    exact hset
  | string s =>
    rcases s with _ | ⟨b, s⟩
    · exact ⟨fun _ => .inl rfl, fun _ => rfl⟩
    · simp [store, insertStored, insertSource, Agrees]

theorem length_insertStored (lower : UInt8 → UInt8) (a : SourceAttr) :
    (insertStored (store a)).length = (insertSource lower a).length := by
  cases a with
  | uint32set vals => exact length_insertSet (by decide) _
  | int64set vals => exact length_insertSet (by decide) _
  | _ => rfl

/-! ## All rows -/

/-- As many values go in from a row either way, so histograms that differ never become equal again. -/
theorem foldl_buildStoreHistograms_iff {n : Nat} (lower : UInt8 → UInt8) (rows : List (Fin n → SourceAttr)) :
    ∀ hs ht : Fin n → List Int, (∀ i, (hs i).length = (ht i).length) →
    (rows.foldl (buildStoreHistograms fun a => insertStored (store a)) hs =
      rows.foldl (buildStoreHistograms (insertSource lower)) ht ↔ hs = ht ∧ ∀ r ∈ rows, ∀ i, Agrees lower (r i)) := by
  induction rows with
  | nil => simp
  | cons r rows ih =>
    intro hs ht hlen
    rw [foldl_cons, foldl_cons, ih _ _ fun i => by
      rw [buildStoreHistograms, buildStoreHistograms, length_append, length_append, hlen i, length_insertStored lower],
      forall_mem_cons, ← and_assoc]
    refine and_congr_left fun _ => ⟨fun h => ⟨?_, fun i => ?_⟩, fun h => ?_⟩
    · funext i
      exact append_inj_left (congrFun h i) (hlen i)
    · exact (insertStored_iff lower _).mp (append_inj_right (congrFun h i) (hlen i))
    · funext i
      rw [buildStoreHistograms, buildStoreHistograms, h.1, (insertStored_iff lower _).mpr (h.2 i)]

/-- **The builders agree exactly on these rows.**  The same values in the same order are inserted into every histogram if and
only if no attribute of a row has values that its stored form loses. -/
theorem buildStoreHistograms_agree_iff {n : Nat} (lower : UInt8 → UInt8) (rows : List (Fin n → SourceAttr)) :
    rows.foldl (buildStoreHistograms fun a => insertStored (store a)) (fun _ => []) =
      rows.foldl (buildStoreHistograms (insertSource lower)) (fun _ => []) ↔ ∀ r ∈ rows, ∀ i, Agrees lower (r i) := by
  rw [foldl_buildStoreHistograms_iff lower rows _ _ fun _ => rfl]
  exact ⟨fun h => h.2, fun h => ⟨rfl, h⟩⟩

/-- The set `{300}` of a stored row is inserted as `44`, and `{1, 2}` as `1, 0`. -/
theorem stored_set_bytes : insertStored (store (.uint32set [300])) = [44] ∧ insertStored (store (.int64set [1, 2])) = [1, 0] ∧
    ∀ lower, insertSource lower (.uint32set [300]) = [300] ∧ insertSource lower (.int64set [1, 2]) = [1, 2] :=
  ⟨by decide, by decide, fun _ => ⟨rfl, rfl⟩⟩

end Histogram
end Manticore

import Mathlib.Data.Set.Function
import Manticore.FileIo
import Manticore.Wildcard
/-! # JsonKeys — the distinct keys of a JSON field

`PushJsonFieldPtr` over the packed integers and vectors of SphinxBSON, with `sphFNV64` as it is. -/
namespace Manticore
namespace JsonKeys
open List
open Option (bind_eq_bind bind_some)

/-! ## The source -/

/-- `sphFNV64` over bytes; over an integer it takes the bytes of the integer, lowest first. -/
def sphFNV64 (bs : Str) : BitVec 64 :=
  bs.foldl (fun h b => (h ^^^ b.toBitVec.setWidth 64) * 0x100000001b3) 0xcbf29ce484222325

/-- An `n`-byte integer (`sphJsonLoadInt`, `sphJsonLoadBigint`, `GetNUM32LE`). -/
def load (n : Nat) (p : Str) : Option (Nat × Str) :=
  if p.length < n then none else some (valLE (p.take n), p.drop n)

/-- `sphJsonUnpackInt`; the length code 255 is reserved. -/
def unpackInt : Str → Option (Nat × Str)
  | [] => none
  | b :: p =>
    if b = 252 then load 2 p
    else if b = 253 then load 3 p
    else if b = 254 then load 4 p
    else if b = 255 then none
    else some (b.toNat, p)

inductive JsonType where
  | int32 | int64 | double | string | stringVector | int32Vector | int64Vector | doubleVector | other

/-- A `DWORD` as the `int` that bounds a loop: from 2³¹ on it is negative. -/
def asCount (u : Nat) : Nat := if u < 2 ^ 31 then u else 0

/-- The loop over `pValues`, a pointer to `int`s that moves by `size` of them. -/
def pushInts (size : Nat) : Nat → Str → Option (List (BitVec 64))
  | 0,     _ => some []
  | k + 1, p => do
    let v ← load 4 p
    let keys ← pushInts size k (p.drop (4 * size))
    pure (sphFNV64 (putLE 4 v.1) :: keys)

def pushString (p : Str) : Option (BitVec 64 × Str) := do
  let len ← unpackInt p
  if len.1 < 2 ^ 31 ∧ len.1 ≤ len.2.length then pure (sphFNV64 (len.2.take len.1), len.2.drop len.1) else none

/-- The head element and the loop over the tail, which does the same. -/
def pushStrings : Nat → Str → Option (List (BitVec 64))
  | 0,     _ => some []
  | k + 1, p => do
    let key ← pushString p
    let keys ← pushStrings k key.2
    pure (key.1 :: keys)

/-- `PushJsonFieldPtr`: the keys in the order they are pushed, `none` when it reads past the field. -/
def pushJsonFieldPtr (val : Option Str) (json : JsonType) : Option (List (BitVec 64)) :=
  match val with
  | none => some []
  | some p =>
    match json with
    | .int32 => do
      let v ← load 4 p
      pure [sphFNV64 (putLE 4 v.1)]
    | .int64 | .double => do
      let v ← load 8 p
      pure [sphFNV64 (putLE 8 v.1)]
    | .string => do
      let key ← pushString p
      pure [key.1]
    | .int32Vector => do
      let vals ← unpackInt p
      pushInts 1 (asCount vals.1) vals.2
    | .int64Vector | .doubleVector => do
      let vals ← unpackInt p
      pushInts 2 (asCount vals.1) vals.2
    | .stringVector => do
      let total ← unpackInt p
      let count ← unpackInt total.2
      pushStrings (asCount count.1) count.2
    | .other => some []

/-! ## Stored vectors -/

/-- `PackInt` -/
def packInt (v : Nat) : Str :=
  if v < 0xFC then [UInt8.ofNat v]
  else if v < 0x10000 then 252 :: putLE 2 v
  else if v < 0x1000000 then 253 :: putLE 3 v
  else 254 :: putLE 4 v

/-- The element types of the vectors that push keys. -/
inductive ElemType where
  | int32 | int64 | double | string

namespace ElemType

/-- An element; a double is its bit pattern. -/
def Value : ElemType → Type
  | int32          => BitVec 32
  | int64 | double => BitVec 64
  | string         => Str

def vector : ElemType → JsonType
  | int32  => .int32Vector
  | int64  => .int64Vector
  | double => .doubleVector
  | string => .stringVector

/-- One element in the blob (`StoreInt`, `StoreBigint`, `PackStr`). -/
def store : (t : ElemType) → t.Value → Str
  | int32,             x => putLE 4 (BitVec.toNat x)
  | int64, x | double, x => putLE 8 (BitVec.toNat x)
  | string,            s => packInt (List.length s) ++ (show Str from s)

/-- A vector in the blob; before a string vector stands its length (`PackSize`). -/
def stored (t : ElemType) (xs : List t.Value) : Str :=
  let body := packInt xs.length ++ xs.flatMap t.store
  match t with
  | string => packInt body.length ++ body
  | _      => body

/-- The vectors a document can hold: their lengths are `int`s and a string has at most 0xFFFFFF bytes. -/
def Storable : (t : ElemType) → List t.Value → Prop
  | string, xs => xs.length < 2 ^ 31 ∧ (∀ s ∈ xs, List.length s ≤ 0xFFFFFF) ∧ (stored string xs).length < 2 ^ 31
  | _,      xs => xs.length < 2 ^ 31

/-- What `PushJsonFieldPtr` hashes of an element: of an eight-byte number the first four bytes. -/
def hashed : (t : ElemType) → t.Value → Str
  | int32,             x => putLE 4 (BitVec.toNat x)
  | int64, x | double, x => putLE 4 (BitVec.toNat x)
  | string,            s => s

end ElemType

/-! ## Reading back -/

theorem putLE_valLE : ∀ bs : Str, putLE bs.length (valLE bs) = bs
  | [] => rfl
  | b :: bs => by
    have h1 : (b.toNat + 256 * valLE bs) / 256 = valLE bs := by
      have := b.toNat_lt
      omega
    have h2 : UInt8.ofNat (b.toNat + 256 * valLE bs) = b := by
      rw [← UInt8.toNat_inj, UInt8.toNat_ofNat']
      have := b.toNat_lt
      omega
    rw [length_cons, valLE, putLE, h1, h2, putLE_valLE bs]

theorem take_putLE : ∀ n k v : Nat, (putLE (n + k) v).take n = putLE n v
  | 0, _, _ => rfl
  | n + 1, k, v => by rw [add_right_comm, putLE, putLE, take_succ_cons, take_putLE n k]

theorem load_append {n : Nat} (bs rest : Str) (h : n ≤ bs.length) :
    load n (bs ++ rest) = some (valLE (bs.take n), (bs ++ rest).drop n) := by
  rw [load, if_neg (by rw [length_append]; omega), take_append_of_le_length h]

theorem load_putLE {n v : Nat} (h : v < 256 ^ n) (rest : Str) : load n (putLE n v ++ rest) = some (v, rest) := by
  rw [load_append _ _ (le_of_eq (length_putLE n v).symm), take_of_length_le (le_of_eq (length_putLE n v)), valLE_putLE,
    Nat.mod_eq_of_lt h, drop_left' (length_putLE n v)]

theorem unpackInt_packInt {v : Nat} (h : v < 2 ^ 32) (rest : Str) : unpackInt (packInt v ++ rest) = some (v, rest) := by
  unfold packInt
  split
  · next hv =>
    have hne : ∀ b : UInt8, 252 ≤ b.toNat → UInt8.ofNat v ≠ b := by
      rintro b hb rfl
      rw [UInt8.toNat_ofNat'] at hb
      omega
    rw [singleton_append, unpackInt, if_neg (hne 252 (by decide)), if_neg (hne 253 (by decide)),
      if_neg (hne 254 (by decide)), if_neg (hne 255 (by decide)), UInt8.toNat_ofNat', Nat.mod_eq_of_lt (by omega)]
  · split
    · exact load_putLE (n := 2) (by omega) rest
    · split
      · exact load_putLE (n := 3) (by omega) rest
      · exact load_putLE (n := 4) (by omega) rest

theorem pushInts_flatMap {α : Type} (size : Nat) (f : α → Str) (hlen : ∀ x, (f x).length = 4 * (size + 1)) (xs : List α) :
    pushInts (size + 1) xs.length (xs.flatMap f) = some (xs.map fun x => sphFNV64 ((f x).take 4)) := by
  induction xs with
  | nil => rfl
  | cons x xs ih =>
    have h4 : ((f x).take 4).length = 4 := by rw [length_take, hlen]; omega
    rw [length_cons, flatMap_cons, pushInts, load_append _ _ (by rw [hlen]; omega), drop_left' (hlen x), ih]
    have hput := putLE_valLE ((f x).take 4)
    rw [h4] at hput
    simp only [bind_eq_bind, bind_some, Option.pure_def, map_cons, hput]

theorem pushString_packed {s : Str} (h : s.length ≤ 0xFFFFFF) (rest : Str) :
    pushString (packInt s.length ++ s ++ rest) = some (sphFNV64 s, rest) := by
  rw [pushString, append_assoc, unpackInt_packInt (by omega)]
  simp only [bind_eq_bind, bind_some]
  rw [if_pos ⟨by omega, by rw [length_append]; omega⟩, take_left, drop_left]
  rfl

theorem pushStrings_flatMap (xs : List Str) (h : ∀ s ∈ xs, s.length ≤ 0xFFFFFF) :
    pushStrings xs.length (xs.flatMap fun s => packInt s.length ++ s) = some (xs.map sphFNV64) := by
  induction xs with
  | nil => rfl
  | cons s xs ih =>
    rw [length_cons, flatMap_cons, pushStrings, pushString_packed (h s mem_cons_self)]
    simp only [bind_eq_bind, bind_some, ih (forall_mem_cons.mp h).2]
    rfl

/-- **One key per element, in order**: the hash of the bytes read of it. -/
theorem push_stored (t : ElemType) (xs : List t.Value) (h : t.Storable xs) :
    pushJsonFieldPtr (some (t.stored xs)) t.vector = some (xs.map fun x => sphFNV64 (t.hashed x)) := by
  have hints : ∀ {α : Type} (size : Nat) (f : α → Str) (xs : List α), xs.length < 2 ^ 31 → (∀ x, (f x).length = 4 * (size + 1)) →
      (do
        let vals ← unpackInt (packInt xs.length ++ xs.flatMap f)
        pushInts (size + 1) (asCount vals.1) vals.2) = some (xs.map fun x => sphFNV64 ((f x).take 4)) := by
    intro α size f xs hlt hlen
    rw [unpackInt_packInt (by omega)]
    simp only [bind_eq_bind, bind_some, asCount, if_pos hlt]
    exact pushInts_flatMap size f hlen xs
  cases t with
  | int32 =>
    refine (hints 0 (ElemType.store .int32) xs h fun x => length_putLE 4 _).trans ?_
    refine congrArg some (map_congr_left fun x _ => ?_)
    exact congrArg sphFNV64 (take_putLE 4 0 _)
  | int64 =>
    refine (hints 1 (ElemType.store .int64) xs h fun x => length_putLE 8 _).trans ?_
    refine congrArg some (map_congr_left fun x _ => ?_)
    exact congrArg sphFNV64 (take_putLE 4 4 _)
  | double =>
    refine (hints 1 (ElemType.store .double) xs h fun x => length_putLE 8 _).trans ?_
    refine congrArg some (map_congr_left fun x _ => ?_)
    exact congrArg sphFNV64 (take_putLE 4 4 _)
  | string =>
    obtain ⟨hlt, hlen, htotal⟩ := h
    have hbody : (packInt xs.length ++ xs.flatMap (ElemType.store .string)).length < 2 ^ 32 := by
      simp only [ElemType.stored, length_append] at htotal ⊢
      omega
    show (do
      let total ← unpackInt (packInt _ ++ _)
      let count ← unpackInt total.2
      pushStrings (asCount count.1) count.2) = _
    rw [unpackInt_packInt hbody]
    simp only [bind_eq_bind, bind_some]
    rw [unpackInt_packInt (by omega)]
    simp only [bind_some, asCount, if_pos hlt]
    exact pushStrings_flatMap xs hlen

/-! ## Which keys are apart -/

/-- One key is pushed per element, in order, and keys of two elements are equal exactly when the elements are. -/
def KeysSeparate (t : ElemType) (xs ys : List t.Value) : Prop :=
  ∃ ks ls, pushJsonFieldPtr (some (t.stored xs)) t.vector = some ks ∧ pushJsonFieldPtr (some (t.stored ys)) t.vector = some ls ∧
    ks.length = xs.length ∧ ls.length = ys.length ∧
    ∀ i j, i < xs.length → j < ys.length → (ks[i]? = ls[j]? ↔ xs[i]? = ys[j]?)

/-- Eight-byte elements with the same low four bytes are equal. -/
def LowWordsApart : (t : ElemType) → List t.Value → List t.Value → Prop
  | .int64, xs, ys | .double, xs, ys => ∀ x ∈ xs, ∀ y ∈ ys, BitVec.toNat x % 2 ^ 32 = BitVec.toNat y % 2 ^ 32 → x = y
  | _,      _,  _  => True

theorem putLE_inj {n a b : Nat} : putLE n a = putLE n b ↔ a % 256 ^ n = b % 256 ^ n := by
  have hput : ∀ v, putLE n (v % 256 ^ n) = putLE n v := by
    intro v
    have h := putLE_valLE (putLE n v)
    rwa [length_putLE, valLE_putLE] at h
  constructor
  · intro h
    rw [← valLE_putLE, ← valLE_putLE, h]
  · intro h
    rw [← hput a, h, hput b]

theorem lowWordsApart_iff (t : ElemType) (xs ys : List t.Value) :
    LowWordsApart t xs ys ↔ ∀ x ∈ xs, ∀ y ∈ ys, t.hashed x = t.hashed y → x = y := by
  cases t with
  | int32 =>
    refine ⟨fun _ x _ y _ h => ?_, fun _ => trivial⟩
    have hx : BitVec.toNat x < 2 ^ 32 := BitVec.isLt x
    have hy : BitVec.toNat y < 2 ^ 32 := BitVec.isLt y
    have h := putLE_inj.mp h
    exact BitVec.eq_of_toNat_eq (by omega)
  | int64 => simp only [LowWordsApart, ElemType.hashed, putLE_inj]; rfl
  | double => simp only [LowWordsApart, ElemType.hashed, putLE_inj]; rfl
  | string => exact ⟨fun _ x _ y _ h => h, fun _ => trivial⟩

/-- **The keys of two vectors separate their elements exactly when no two different eight-byte elements have the same low four
bytes**, if `sphFNV64` is injective on what it is given. -/
theorem keysSeparate_iff (t : ElemType) (xs ys : List t.Value) (hx : t.Storable xs) (hy : t.Storable ys)
    (hinj : Set.InjOn sphFNV64 {s | ∃ x ∈ xs ++ ys, s = t.hashed x}) : KeysSeparate t xs ys ↔ LowWordsApart t xs ys := by
  rw [lowWordsApart_iff]
  unfold KeysSeparate
  rw [push_stored t xs hx, push_stored t ys hy]
  have hkey : ∀ x ∈ xs, ∀ y ∈ ys, sphFNV64 (t.hashed x) = sphFNV64 (t.hashed y) ↔ t.hashed x = t.hashed y := by
    intro x hx y hy
    exact ⟨fun h => hinj ⟨x, mem_append_left _ hx, rfl⟩ ⟨y, mem_append_right _ hy, rfl⟩ h, fun h => by rw [h]⟩
  constructor
  · rintro ⟨ks, ls, hks, hls, -, -, h⟩ x hx y hy hxy
    cases hks
    cases hls
    obtain ⟨i, hi, rfl⟩ := getElem_of_mem hx
    obtain ⟨j, hj, rfl⟩ := getElem_of_mem hy
    have h := (h i j hi hj).mp (by simp [hi, hj, hxy])
    simpa [hi, hj] using h
  · intro h
    refine ⟨_, _, rfl, rfl, length_map .., length_map .., ?_⟩
    intro i j hi hj
    have hxi := getElem_mem hi
    have hyj := getElem_mem hj
    simp only [getElem?_map, getElem?_eq_getElem hi, getElem?_eq_getElem hj, Option.map_some, Option.some.injEq]
    rw [hkey _ hxi _ hyj]
    exact ⟨h _ hxi _ hyj, fun h => by rw [h]⟩

/-- Vectors with a common element and three different low words. -/
theorem keysSeparate_commonElement : KeysSeparate .int64 [1#64, 4294967298#64] [7#64, 4294967298#64, 1#64] := by
  have hkeys : ∀ x ∈ [1#64, 4294967298#64, 7#64], ∀ y ∈ [1#64, 4294967298#64, 7#64],
      sphFNV64 (putLE 4 x.toNat) = sphFNV64 (putLE 4 y.toNat) → putLE 4 x.toNat = putLE 4 y.toNat := by
    simp [sphFNV64, putLE]
  have hmem : ∀ x ∈ [1#64, 4294967298#64] ++ [7#64, 4294967298#64, 1#64], x ∈ [1#64, 4294967298#64, 7#64] := by simp
  refine (keysSeparate_iff .int64 [1#64, 4294967298#64] [7#64, 4294967298#64, 1#64] (by decide : 2 < 2 ^ 31)
    (by decide : 3 < 2 ^ 31) ?_).mpr ?_
  · rintro a ⟨x, hx, rfl⟩ b ⟨y, hy, rfl⟩ hab
    exact hkeys x (hmem x hx) y (hmem y hy) hab
  · show ∀ x ∈ [1#64, 4294967298#64], ∀ y ∈ [7#64, 4294967298#64, 1#64], x.toNat % 2 ^ 32 = y.toNat % 2 ^ 32 → x = y
    simp

/-- The vectors `[0]` and `[2³²]` of 64-bit integers get one and the same key. -/
theorem int64_keys_collide :
    ElemType.Storable .int64 [0#64] ∧ ElemType.Storable .int64 [4294967296#64] ∧
      Set.InjOn sphFNV64 {s | ∃ x ∈ [0#64] ++ [4294967296#64], s = ElemType.hashed .int64 x} ∧
      ¬ KeysSeparate .int64 [0#64] [4294967296#64] := by
  refine ⟨(by decide : 1 < 2 ^ 31), (by decide : 1 < 2 ^ 31), ?_, ?_⟩
  · have hzero : ∀ z ∈ [0#64, 4294967296#64], putLE 4 z.toNat = [0, 0, 0, 0] := by
      intro z hz
      rcases mem_pair.mp hz with rfl | rfl <;> decide
    rintro a ⟨x, hx, rfl⟩ b ⟨y, hy, rfl⟩ -
    exact (hzero x hx).trans (hzero y hy).symm
  · rintro ⟨ks, ls, hks, hls, -, -, h⟩
    have hsame : pushJsonFieldPtr (some (ElemType.stored .int64 [0#64])) .int64Vector =
        pushJsonFieldPtr (some (ElemType.stored .int64 [4294967296#64])) .int64Vector := by decide
    have hkl : ks = ls := Option.some.inj (hks.symm.trans (hsame.trans hls))
    have h0 := (h 0 0 (by decide) (by decide)).mp (by rw [hkl])
    exact absurd (Option.some.inj h0) (show 0#64 ≠ 4294967296#64 by decide)

end JsonKeys
end Manticore

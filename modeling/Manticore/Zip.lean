import Mathlib
/-!
# Zip — variable-length integers (`std/zip_impl.h`)

A value is cut into septets.  `ZipValueBE` writes them most significant first, `ZipValueLE` least significant first;
every byte but the last carries `0x80`.  A reader is the list of the bytes it still has to read; reading past the end
gives 0, as `CSphReader::GetByte` does.  The 32-bit readers are unrolled in the source (at most five bytes, the fifth
not masked), the 64-bit big-endian reader is a loop.  Values are `Nat`; what a reader keeps is taken modulo its width.
-/
namespace Manticore
namespace Zip
open List

/-- `fnGet ()` of the readers. -/
def getByte : List UInt8 → Nat × List UInt8
  | []      => (0, [])
  | b :: bs => (b.toNat, bs)

@[simp] theorem getByte_cons (b : UInt8) (bs : List UInt8) : getByte (b :: bs) = (b.toNat, bs) := rfl

/-- `sphCalcZippedLen`: the number of septets.  The first argument bounds the loop. -/
def zippedLenGo : Nat → Nat → Nat
  | 0,     _ => 1
  | f + 1, v => if v < 128 then 1 else zippedLenGo f (v / 128) + 1

def zippedLen (v : Nat) : Nat := zippedLenGo v v

/-- The byte `ZipValueBE` writes for septet `i`. -/
def septetBE (v i : Nat) : UInt8 := UInt8.ofNat (v / 128 ^ i % 128 + if i = 0 then 0 else 128)

/-- `ZipValueBE`: `for ( i = nBytes - 1; i >= 0; --i ) fnPut ( ... )`. -/
def zipBE (v : Nat) : List UInt8 := (List.range (zippedLen v)).reverse.map (septetBE v)

/-- `UnzipValueBE` for 64-bit types. -/
def unzipBE64Go : Nat → List UInt8 → Nat × List UInt8
  | acc, []      => (acc * 128 % 2 ^ 64, [])
  | acc, b :: bs =>
    if 128 ≤ b.toNat then unzipBE64Go ((acc * 128 + b.toNat % 128) % 2 ^ 64) bs
    else ((acc * 128 + b.toNat) % 2 ^ 64, bs)

/-- `UnzipValueBE_reference` of a type of `w` bits. -/
def unzipRefBE (w : Nat) : Nat → List UInt8 → Nat × List UInt8
  | acc, []      => (acc * 128 % 2 ^ w, [])
  | acc, b :: bs =>
    if 128 ≤ b.toNat then unzipRefBE w ((acc * 128 + b.toNat % 128) % 2 ^ w) bs
    else ((acc * 128 + b.toNat) % 2 ^ w, bs)

/-- `UnzipValueBE` for 32-bit types, `k` tests of the continuation bit left. -/
def unzipBE32Go : Nat → Nat → List UInt8 → Nat × List UInt8
  | 0,     acc, bs => ((acc * 128 ||| (getByte bs).1) % 2 ^ 32, (getByte bs).2)
  | k + 1, acc, bs =>
    if (getByte bs).1 < 128 then ((acc * 128 + (getByte bs).1 % 128) % 2 ^ 32, (getByte bs).2)
    else unzipBE32Go k ((acc * 128 + (getByte bs).1 % 128) % 2 ^ 32) (getByte bs).2

/-- `UnzipOffset`, `UnzipOffsetBE`. -/
def unzipOffsetBE (bs : List UInt8) : Nat × List UInt8 := unzipBE64Go 0 bs

/-- `UnzipInt`, `UnzipIntBE`, `UnzipRowid`. -/
def unzipIntBE (bs : List UInt8) : Nat × List UInt8 := unzipBE32Go 4 0 bs

theorem lt_pow_zippedLenGo : ∀ (f v : Nat), v ≤ f → v < 128 ^ zippedLenGo f v
  | 0, v, h => by
    have : v = 0 := by omega
    subst this; simp [zippedLenGo]
  | f + 1, v, h => by
    unfold zippedLenGo
    split
    · simpa using ‹v < 128›
    · have := lt_pow_zippedLenGo f (v / 128) (by omega)
      rw [pow_succ]
      omega

theorem lt_pow_zippedLen (v : Nat) : v < 128 ^ zippedLen v := lt_pow_zippedLenGo v v (le_refl v)

theorem zippedLenGo_pos (f v : Nat) : 0 < zippedLenGo f v := by
  cases f with
  | zero => exact Nat.one_pos
  | succ f => unfold zippedLenGo; split <;> omega

theorem zippedLen_pos (v : Nat) : 0 < zippedLen v := zippedLenGo_pos v v

theorem zippedLenGo_le : ∀ (f v n : Nat), v < 128 ^ (n + 1) → zippedLenGo f v ≤ n + 1
  | 0, _, n, _ => by simp [zippedLenGo]
  | f + 1, v, n, h => by
    unfold zippedLenGo
    split
    · omega
    · cases n with
      | zero => simp at h; omega
      | succ n =>
        have := zippedLenGo_le f (v / 128) n (by rw [pow_succ] at h; omega)
        omega

theorem zippedLen_le (v n : Nat) (h : v < 128 ^ (n + 1)) : zippedLen v ≤ n + 1 := zippedLenGo_le v v n h

theorem septetBE_toNat (v i : Nat) : (septetBE v i).toNat = v / 128 ^ i % 128 + if i = 0 then 0 else 128 := by
  unfold septetBE
  rw [UInt8.toNat_ofNat']
  have := Nat.mod_lt (v / 128 ^ i) (show 0 < 128 by decide)
  split <;> omega

theorem length_zipBE (v : Nat) : (zipBE v).length = zippedLen v := by simp [zipBE]

theorem length_zipBE_pos (v : Nat) : 0 < (zipBE v).length := by rw [length_zipBE]; exact zippedLen_pos v

theorem range_reverse_succ (n : Nat) : (List.range (n + 1)).reverse = n :: (List.range n).reverse := by
  rw [range_succ, reverse_append]; rfl

theorem mod_pow_succ_septets (v n : Nat) : v % 128 ^ (n + 1) = v / 128 ^ n % 128 * 128 ^ n + v % 128 ^ n := by
  rw [pow_succ, Nat.mod_mul, mul_comm (v / 128 ^ n % 128), add_comm]

theorem septets_step (w v n acc : Nat) :
    ((acc * 128 + v / 128 ^ (n + 1) % 128) % 2 ^ w * 128 ^ (n + 1) + v % 128 ^ (n + 1)) % 2 ^ w
      = (acc * 128 ^ (n + 1 + 1) + v % 128 ^ (n + 1 + 1)) % 2 ^ w := by
  rw [mod_pow_succ_septets v (n + 1), Nat.add_mod, Nat.mod_mul_mod, ← Nat.add_mod, pow_succ 128 (n + 1)]
  congr 1
  ring

theorem unzipRefBE_septets (w v : Nat) (rest : List UInt8) : ∀ (n acc : Nat),
    unzipRefBE w acc ((List.range (n + 1)).reverse.map (septetBE v) ++ rest)
      = ((acc * 128 ^ (n + 1) + v % 128 ^ (n + 1)) % 2 ^ w, rest)
  | 0, acc => by
    have hlt := Nat.mod_lt v (show 0 < 128 by decide)
    simp [unzipRefBE, septetBE_toNat, show ¬ 128 ≤ v % 128 by omega]
  | n + 1, acc => by
    rw [range_reverse_succ, map_cons, cons_append, unzipRefBE, septetBE_toNat,
      if_neg (Nat.succ_ne_zero n), if_pos (Nat.le_add_left _ _), unzipRefBE_septets w v rest n,
      Nat.add_mod_right, Nat.mod_mod, septets_step]

theorem unzipBE64Go_eq : ∀ (bs : List UInt8) (acc : Nat), unzipBE64Go acc bs = unzipRefBE 64 acc bs
  | [], _ => rfl
  | b :: bs, acc => by rw [unzipRefBE, unzipBE64Go, unzipBE64Go_eq bs]

theorem unzipBE32Go_septets (v : Nat) (rest : List UInt8) : ∀ (n k acc : Nat), n ≤ k →
    unzipBE32Go k acc ((List.range (n + 1)).reverse.map (septetBE v) ++ rest)
      = ((acc * 128 ^ (n + 1) + v % 128 ^ (n + 1)) % 2 ^ 32, rest)
  | 0, k, acc, _ => by
    have hlt := Nat.mod_lt v (show 0 < 128 by decide)
    cases k with
    | zero =>
      have hor := Nat.two_pow_add_eq_or_of_lt (i := 7) hlt acc
      simp only [range_reverse_succ, range_zero, reverse_nil, map_cons, map_nil, cons_append,
        nil_append, unzipBE32Go, getByte_cons, septetBE_toNat, if_pos, pow_zero, Nat.div_one, add_zero]
      rw [mul_comm acc 128, ← hor, mul_comm acc]
      rfl
    | succ k => simp [unzipBE32Go, septetBE_toNat, hlt]
  | n + 1, k, acc, h => by
    obtain ⟨k, rfl⟩ : ∃ j, k = j + 1 := ⟨k - 1, by omega⟩
    rw [range_reverse_succ, map_cons, cons_append, unzipBE32Go, getByte_cons, septetBE_toNat,
      if_neg (Nat.succ_ne_zero n)]
    dsimp only
    rw [if_neg (by omega), unzipBE32Go_septets v rest n k _ (by omega), Nat.add_mod_right, Nat.mod_mod, septets_step]

theorem zipBE_septets (v : Nat) : ∃ n, zippedLen v = n + 1 ∧ zipBE v = (List.range (n + 1)).reverse.map (septetBE v) ∧
    v % 128 ^ (n + 1) = v := by
  obtain ⟨n, hn⟩ : ∃ n, zippedLen v = n + 1 := ⟨_, (Nat.succ_pred_eq_of_pos (zippedLen_pos v)).symm⟩
  have hlt := lt_pow_zippedLen v
  unfold zipBE
  rw [hn] at hlt ⊢
  exact ⟨n, rfl, rfl, Nat.mod_eq_of_lt hlt⟩

/-- **The 64-bit reader takes back what `ZipValueBE` wrote**, whatever follows. -/
theorem unzipOffsetBE_zipBE (v : Nat) (hv : v < 2 ^ 64) (rest : List UInt8) :
    unzipOffsetBE (zipBE v ++ rest) = (v, rest) := by
  obtain ⟨n, -, hz, hmod⟩ := zipBE_septets v
  rw [unzipOffsetBE, hz, unzipBE64Go_eq, unzipRefBE_septets, Nat.zero_mul, zero_add, hmod, Nat.mod_eq_of_lt hv]

/-- **The 32-bit reader takes back what `ZipValueBE` wrote**, whatever follows. -/
theorem unzipIntBE_zipBE (v : Nat) (hv : v < 2 ^ 32) (rest : List UInt8) :
    unzipIntBE (zipBE v ++ rest) = (v, rest) := by
  obtain ⟨n, hn, hz, hmod⟩ := zipBE_septets v
  have hle := zippedLen_le v 4 (by omega)
  rw [unzipIntBE, hz, unzipBE32Go_septets v rest n 4 0 (by omega), Nat.zero_mul, zero_add, hmod, Nat.mod_eq_of_lt hv]

/-! ## Little-endian -/

/-- `ZipValueLE`: the low septet first.  The first argument bounds the loop. -/
def zipLEGo : Nat → Nat → List UInt8
  | 0,     v => [UInt8.ofNat (v % 128)]
  | f + 1, v => if v < 128 then [UInt8.ofNat v] else UInt8.ofNat (v % 128 + 128) :: zipLEGo f (v / 128)

def zipLE (v : Nat) : List UInt8 := zipLEGo v v

/-- `UnzipValueLE`, unrolled: `k` tests of the continuation bit left, `i` septets read into `acc`; the byte after the
last test is not masked. -/
def unzipLEGo (w : Nat) : Nat → Nat → Nat → List UInt8 → Nat × List UInt8
  | 0,     i, acc, bs => ((acc ||| (getByte bs).1 * 128 ^ i) % 2 ^ w, (getByte bs).2)
  | k + 1, i, acc, bs =>
    if (getByte bs).1 < 128 then ((acc ||| (getByte bs).1 % 128 * 128 ^ i) % 2 ^ w, (getByte bs).2)
    else unzipLEGo w k (i + 1) ((acc ||| (getByte bs).1 % 128 * 128 ^ i) % 2 ^ w) (getByte bs).2

/-- `UnzipDword` of the RAM segments. -/
def unzipIntLE (bs : List UInt8) : Nat × List UInt8 := unzipLEGo 32 4 0 0 bs

/-- `UnzipQword` of the RAM segments. -/
def unzipOffsetLE (bs : List UInt8) : Nat × List UInt8 := unzipLEGo 64 9 0 0 bs

/-- `UnzipValueLE_reference` of a type of `w` bits, `i` septets read. -/
def unzipRefLE (w : Nat) : Nat → Nat → List UInt8 → Nat × List UInt8
  | _, acc, []      => (acc, [])
  | i, acc, b :: bs =>
    if 128 ≤ b.toNat then unzipRefLE w (i + 1) ((acc + b.toNat % 128 * 128 ^ i) % 2 ^ w) bs
    else ((acc + b.toNat % 128 * 128 ^ i) % 2 ^ w, bs)

theorem length_zipLEGo : ∀ f v : Nat, (zipLEGo f v).length = zippedLenGo f v
  | 0, _ => rfl
  | f + 1, v => by
    rw [zipLEGo, zippedLenGo]
    split
    · rfl
    · rw [length_cons, length_zipLEGo]

theorem or_septet {acc i : Nat} (h : acc < 128 ^ i) (c : Nat) : acc ||| c * 128 ^ i = acc + c * 128 ^ i := by
  have hp : 128 ^ i = 2 ^ (7 * i) := by
    rw [pow_mul]
    rfl
  rw [hp] at h ⊢
  rw [Nat.or_comm, mul_comm c, ← Nat.two_pow_add_eq_or_of_lt h, add_comm]

theorem zipLEGo_lt {v : Nat} (hv : v < 128) : ∀ f, zipLEGo f v = [UInt8.ofNat v]
  | 0 => by rw [zipLEGo, Nat.mod_eq_of_lt hv]
  | f + 1 => by rw [zipLEGo, if_pos hv]

theorem unzipLEGo_zipLEGo (w : Nat) (rest : List UInt8) : ∀ (f v k i acc : Nat), v ≤ f → v < 128 ^ (k + 1) →
    acc < 128 ^ i → acc + v * 128 ^ i < 2 ^ w →
    unzipLEGo w k i acc (zipLEGo f v ++ rest) = (acc + v * 128 ^ i, rest) ∧
      unzipRefLE w i acc (zipLEGo f v ++ rest) = (acc + v * 128 ^ i, rest)
  | f, v, k, i, acc, hf, hk, hacc, hw => by
    have hmod := Nat.mod_lt v (show 0 < 128 by decide)
    by_cases hv : v < 128
    · have hb : (UInt8.ofNat v).toNat = v := by rw [UInt8.toNat_ofNat']; omega
      rw [zipLEGo_lt hv, singleton_append, unzipRefLE, hb, if_neg (by omega), Nat.mod_eq_of_lt hv, Nat.mod_eq_of_lt hw]
      refine ⟨?_, rfl⟩
      cases k with
      | zero => rw [unzipLEGo, getByte_cons, hb, or_septet hacc, Nat.mod_eq_of_lt hw]
      | succ k => rw [unzipLEGo, getByte_cons, hb, if_pos hv, Nat.mod_eq_of_lt hv, or_septet hacc, Nat.mod_eq_of_lt hw]
    · obtain ⟨f, rfl⟩ : ∃ g, f = g + 1 := ⟨f - 1, by omega⟩
      obtain ⟨k, rfl⟩ : ∃ j, k = j + 1 := by
        cases k with
        | zero => exact absurd hk (by simpa using hv)
        | succ k => exact ⟨k, rfl⟩
      have hb : (UInt8.ofNat (v % 128 + 128)).toNat = v % 128 + 128 := by rw [UInt8.toNat_ofNat']; omega
      have hsum : acc + v % 128 * 128 ^ i + v / 128 * 128 ^ (i + 1) = acc + v * 128 ^ i := by
        rw [pow_succ', ← mul_assoc, add_assoc, ← add_mul, mul_comm (v / 128), Nat.mod_add_div]
      have hacc' : acc + v % 128 * 128 ^ i < 128 ^ (i + 1) := by
        have : (v % 128 + 1) * 128 ^ i ≤ 128 * 128 ^ i := Nat.mul_le_mul_right _ hmod
        rw [pow_succ']
        linarith
      have ih := unzipLEGo_zipLEGo w rest f (v / 128) k (i + 1) (acc + v % 128 * 128 ^ i) (by omega)
        (Nat.div_lt_of_lt_mul (by rwa [← pow_succ'])) hacc' (by rwa [hsum])
      have hlt : acc + v % 128 * 128 ^ i < 2 ^ w := lt_of_le_of_lt (Nat.le_add_right _ _) (hsum ▸ hw)
      rw [hsum] at ih
      rw [zipLEGo, if_neg hv, cons_append, unzipLEGo, unzipRefLE, getByte_cons]
      simp only [hb, Nat.add_mod_right, Nat.mod_mod, or_septet hacc, Nat.mod_eq_of_lt hlt]
      rw [if_neg (by omega), if_pos (Nat.le_add_left _ _)]
      exact ih

theorem unzipLE_zipLE {w k v : Nat} (hk : v < 128 ^ (k + 1)) (hw : v < 2 ^ w) (rest : List UInt8) :
    unzipLEGo w k 0 0 (zipLE v ++ rest) = (v, rest) ∧ unzipRefLE w 0 0 (zipLE v ++ rest) = (v, rest) := by
  simpa [zipLE] using unzipLEGo_zipLEGo w rest v v k 0 0 le_rfl hk Nat.one_pos (by simpa using hw)

/-! ## All instances -/

/-- The instances of the templates: 32 and 64 bits in both byte orders. -/
inductive Codec
  | be32 | be64 | le32 | le64

namespace Codec

def bits : Codec → Nat
  | be32 | le32 => 32
  | be64 | le64 => 64

/-- A signed or unsigned value of the type. -/
def Holds (c : Codec) (x : Int) : Prop := -2 ^ (c.bits - 1) ≤ x ∧ x < 2 ^ c.bits

/-- The bits of a value as an unsigned number. -/
def unsigned (c : Codec) (x : Int) : Nat := (x % 2 ^ c.bits).toNat

/-- `ZipValueBE` and `ZipValueLE`.  The shift to the right in `ZipValueBE` keeps the sign. -/
def zip (c : Codec) (x : Int) : List UInt8 :=
  match c with
  | be32 | be64 => (List.range (zippedLen (c.unsigned x))).reverse.map fun i =>
      UInt8.ofNat ((x / 128 ^ i % 128).toNat + if i = 0 then 0 else 128)
  | le32 | le64 => zipLE (c.unsigned x)

def unzip : Codec → List UInt8 → Nat × List UInt8
  | be32 => unzipIntBE
  | be64 => unzipOffsetBE
  | le32 => unzipIntLE
  | le64 => unzipOffsetLE

def unzipReference : Codec → List UInt8 → Nat × List UInt8
  | be32 => unzipRefBE 32 0
  | be64 => unzipRefBE 64 0
  | le32 => unzipRefLE 32 0 0
  | le64 => unzipRefLE 64 0 0

/-- `n` values read one after another. -/
def unzipAll (c : Codec) : Nat → List UInt8 → List Nat × List UInt8
  | 0, bs => ([], bs)
  | n + 1, bs => ((c.unzip bs).1 :: (c.unzipAll n (c.unzip bs).2).1, (c.unzipAll n (c.unzip bs).2).2)

theorem unsigned_lt (c : Codec) (x : Int) : c.unsigned x < 2 ^ c.bits := by
  unfold unsigned
  have := Int.emod_lt_of_pos x (show (0 : Int) < 2 ^ c.bits by positivity)
  have := Int.emod_nonneg x (show (2 : Int) ^ c.bits ≠ 0 by positivity)
  zify
  omega

/-- At most ten septets are taken, so the sign is needed in 70 bits only. -/
theorem septet_signed (x : Int) {i : Nat} (hi : i < 10) :
    UInt8.ofNat ((x / 128 ^ i % 128).toNat + if i = 0 then 0 else 128) = septetBE (x % 2 ^ 70).toNat i := by
  unfold septetBE
  congr 2
  interval_cases i <;> omega

def maxBytes : Codec → Nat
  | be32 | le32 => 5
  | be64 | le64 => 10

theorem zippedLen_unsigned_le (c : Codec) (x : Int) : zippedLen (c.unsigned x) ≤ c.maxBytes := by
  have h := c.unsigned_lt x
  cases c <;> exact zippedLen_le _ _ (lt_of_lt_of_le h (by decide))

theorem zip_be {c : Codec} (hc : c = be32 ∨ c = be64) (x : Int) :
    c.zip x = (List.range (zippedLen (c.unsigned x))).reverse.map (septetBE (x % 2 ^ 70).toNat) := by
  have hle := c.zippedLen_unsigned_le x
  rcases hc with rfl | rfl
  all_goals
    refine map_congr_left fun i hi => septet_signed x ?_
    rw [mem_reverse, mem_range] at hi
    exact lt_of_lt_of_le hi (le_trans hle (by decide))

/-- A negative value has all its septets, a value that is not has no more than it needs. -/
theorem septets_signed {c : Codec} {x : Int} (hx : c.Holds x) :
    (x % 2 ^ 70).toNat % 128 ^ zippedLen (c.unsigned x) % 2 ^ c.bits = c.unsigned x := by
  have hlt := lt_pow_zippedLen (c.unsigned x)
  have hu := c.unsigned_lt x
  have hle := c.zippedLen_unsigned_le x
  obtain ⟨h1, h2⟩ := hx
  by_cases h0 : 0 ≤ x
  · have hV : (x % 2 ^ 70).toNat = c.unsigned x := by
      unfold unsigned
      cases c <;> simp only [bits] at h2 ⊢ <;> omega
    rw [hV, Nat.mod_eq_of_lt hlt, Nat.mod_eq_of_lt hu]
  · have hlen : zippedLen (c.unsigned x) = c.maxBytes := by
      refine le_antisymm hle (Nat.le_of_not_lt fun h => ?_)
      have hpow := lt_of_lt_of_le hlt (Nat.pow_le_pow_right (show 0 < 128 by decide) (Nat.le_sub_one_of_lt h))
      unfold unsigned at hpow
      cases c <;> simp only [bits, maxBytes] at h1 hpow <;> omega
    rw [hlen]
    unfold unsigned
    cases c <;> simp only [bits, maxBytes] at h1 ⊢ <;> omega

theorem length_zip (c : Codec) (x : Int) : (c.zip x).length = zippedLen (c.unsigned x) := by
  cases c
  · exact (length_map _).trans (by simp)
  · exact (length_map _).trans (by simp)
  · exact length_zipLEGo _ _
  · exact length_zipLEGo _ _

/-- **Both decoders take back what the encoder wrote.** -/
theorem unzip_zip {c : Codec} {x : Int} (hx : c.Holds x) (rest : List UInt8) :
    c.unzip (c.zip x ++ rest) = (c.unsigned x, rest) ∧ c.unzipReference (c.zip x ++ rest) = (c.unsigned x, rest) := by
  have hu := c.unsigned_lt x
  have hm := septets_signed hx
  have hle := c.zippedLen_unsigned_le x
  obtain ⟨n, hn⟩ : ∃ n, zippedLen (c.unsigned x) = n + 1 := ⟨_, (Nat.succ_pred_eq_of_pos (zippedLen_pos _)).symm⟩
  rw [hn] at hm hle
  cases c with
  | be32 =>
    rw [zip_be (.inl rfl), hn]
    refine ⟨(unzipBE32Go_septets _ rest n 4 0 (Nat.le_of_succ_le_succ hle)).trans ?_,
      (unzipRefBE_septets 32 _ rest n 0).trans ?_⟩ <;> rw [Nat.zero_mul, zero_add, ← hm] <;> rfl
  | be64 =>
    rw [zip_be (.inr rfl), hn]
    refine ⟨((unzipBE64Go_eq _ 0).trans (unzipRefBE_septets 64 _ rest n 0)).trans ?_, (unzipRefBE_septets 64 _ rest n 0).trans ?_⟩ <;>
      rw [Nat.zero_mul, zero_add, ← hm] <;> rfl
  | le32 => exact unzipLE_zipLE (lt_of_lt_of_le hu (by decide)) hu rest
  | le64 => exact unzipLE_zipLE (lt_of_lt_of_le hu (by decide)) hu rest

theorem unzipAll_zip (c : Codec) (rest : List UInt8) : ∀ {xs : List Int}, (∀ x ∈ xs, c.Holds x) →
    c.unzipAll xs.length (xs.flatMap c.zip ++ rest) = (xs.map c.unsigned, rest)
  | [], _ => rfl
  | x :: xs, h => by
    obtain ⟨hx, hxs⟩ := forall_mem_cons.mp h
    rw [flatMap_cons, append_assoc, length_cons, unzipAll, (unzip_zip hx _).1, unzipAll_zip c rest hxs]
    rfl

/-- **Every codec: a value is read back and exactly its bytes are consumed, as many as `sphCalcZippedLen` says, by the
unrolled reader and by the loop; so is a sequence of values.** -/
theorem codec_exact (c : Codec) (xs : List Int) (hxs : ∀ x ∈ xs, c.Holds x) (rest : List UInt8) :
    (∀ x ∈ xs, (c.zip x).length = zippedLen (c.unsigned x) ∧ (c.zip x).length ≤ c.maxBytes ∧
      c.unzip (c.zip x ++ rest) = (c.unsigned x, rest) ∧
      c.unzipReference (c.zip x ++ rest) = c.unzip (c.zip x ++ rest)) ∧
    c.unzipAll xs.length (xs.flatMap c.zip ++ rest) = (xs.map c.unsigned, rest) := by
  refine ⟨fun x hx => ?_, unzipAll_zip c rest hxs⟩
  obtain ⟨h1, h2⟩ := unzip_zip (hxs x hx) rest
  exact ⟨c.length_zip x, c.length_zip x ▸ c.zippedLen_unsigned_le x, h1, h2.trans h1.symm⟩

theorem codec_exact_negative : (∀ x ∈ [(-1 : Int)], be64.Holds x) ∧
    be64.unzipAll 1 ([(-1 : Int)].flatMap be64.zip ++ [7]) = ([be64.unsigned (-1)], [7]) := by
  have h : ∀ x ∈ [(-1 : Int)], be64.Holds x := forall_mem_singleton.mpr ⟨by decide, by decide⟩
  exact ⟨h, (codec_exact be64 _ h [7]).2⟩

end Codec

end Zip
end Manticore

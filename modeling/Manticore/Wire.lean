import Manticore.FileIo
/-!
# Wire — the API's network buffers (`searchdaemon.h`, `searchdaemon.cpp`)

`ISphOutputBuffer` appends bytes; `InputBuffer_c` takes them back and refuses a read that is larger than what is left or
than the packet limit.  A refused read sets an error that all later reads keep, so a reader is a parser that fails at the
first of them.  `Reads p bs a` is the one fact that is proved of a reader: on `bs`, whatever follows, it takes exactly `bs`
and gives `a`.
-/
namespace Manticore
namespace Wire
open List

/-- A reader of the bytes that are left. -/
abbrev Parser := StateT (List UInt8) Option

/-- On `bs`, whatever follows, the reader takes exactly `bs` and gives `a`. -/
def Reads {α : Type} (p : Parser α) (bs : List UInt8) (a : α) : Prop := ∀ rest, p (bs ++ rest) = some (a, rest)

/-- A loop of reads. -/
def eachOf {α β : Type} (f : β → Parser α) : List β → Parser (List α)
  | []      => pure []
  | b :: bs => do
    let a ← f b
    let as ← eachOf f bs
    pure (a :: as)

section
variable {α β γ : Type}

theorem Reads.pure (a : α) : Reads (Pure.pure a : Parser α) [] a := fun _ => rfl

theorem Reads.bind {p : Parser α} {q : α → Parser β} {bs cs : List UInt8} {a : α} {b : β} (hp : Reads p bs a)
    (hq : Reads (q a) cs b) : Reads (p >>= q) (bs ++ cs) b := by
  intro rest
  have h1 := hp (cs ++ rest)
  rw [← append_assoc] at h1
  show (p (bs ++ cs ++ rest)).bind (fun x => q x.1 x.2) = some (b, rest)
  rw [h1]
  exact hq rest

theorem Reads.map {p : Parser α} {f : α → β} {bs : List UInt8} {a : α} (hp : Reads p bs a) :
    Reads (p >>= fun x => Pure.pure (f x)) bs (f a) := by
  have h := Reads.bind (q := fun x => Pure.pure (f x)) hp (Reads.pure (f a))
  rw [append_nil] at h
  exact h

theorem Reads.each {f : β → Parser α} {put : α → List UInt8} {bs : List β} {as : List α}
    (h : List.Forall₂ (fun b a => Reads (f b) (put a) a) bs as) : Reads (eachOf f bs) (as.flatMap put) as := by
  induction h with
  | nil => exact Reads.pure []
  | cons hb _ ih =>
    rw [flatMap_cons]
    exact hb.bind ih.map

end

/-! ## Integers in network order -/

/-- `SendInt`. -/
def sendInt (v : Int) : List UInt8 := (putLE 4 (v % 2 ^ 32).toNat).reverse

/-- `InputBuffer_c::GetBytes`; a negative size is refused. -/
def getBytes (limit : Nat) (n : Int) : Parser (List UInt8) := fun bs =>
  if 0 ≤ n ∧ n ≤ limit ∧ n ≤ bs.length then some (bs.take n.toNat, bs.drop n.toNat) else none

def getInt (limit : Nat) : Parser Int := do
  let raw ← getBytes limit 4
  pure (toInt32 (valLE raw.reverse))

def getByte (limit : Nat) : Parser UInt8 := do
  let raw ← getBytes limit 1
  pure (raw.headD 0)

theorem reads_getBytes (limit : Nat) (bs : List UInt8) (h : bs.length ≤ limit) :
    Reads (getBytes limit bs.length) bs bs := by
  intro rest
  have hlen : (bs.length : Int) ≤ (bs ++ rest).length := by rw [length_append]; omega
  rw [getBytes, if_pos ⟨Int.natCast_nonneg _, Int.ofNat_le.2 h, hlen⟩, Int.toNat_natCast, take_left, drop_left]

theorem toInt32_emod {v : Int} (h1 : -2 ^ 31 ≤ v) (h2 : v < 2 ^ 31) : toInt32 (v % 2 ^ 32).toNat = v := by
  rw [toInt32_eq]
  split <;> omega

/-- **An `int` arrives as it was sent.** -/
theorem reads_getInt {limit : Nat} (hl : 4 ≤ limit) {v : Int} (h1 : -2 ^ 31 ≤ v) (h2 : v < 2 ^ 31) :
    Reads (getInt limit) (sendInt v) v := by
  have hlen : (sendInt v).length = 4 := by rw [sendInt, length_reverse, length_putLE]
  have hb := reads_getBytes limit (sendInt v) (by omega)
  rw [hlen] at hb
  have h := hb.map (f := fun raw => toInt32 (valLE raw.reverse))
  have hval : toInt32 (valLE (sendInt v).reverse) = v := by
    rw [sendInt, reverse_reverse, valLE_putLE, Nat.mod_eq_of_lt (by omega), toInt32_emod h1 h2]
  rw [hval] at h
  exact h

theorem reads_getByte (limit : Nat) (hl : 1 ≤ limit) (b : UInt8) : Reads (getByte limit) [b] b :=
  (reads_getBytes limit [b] hl).map

end Wire
end Manticore

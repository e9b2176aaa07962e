import Mathlib
/-!
# Wildcard — byte strings and `sphWildcardMatch`

A `CSphString` is the list of its bytes.  `sphWildcardMatch` compares a string with a pattern of `*` (any run of
characters), `?` (one character), `%` (at most one character) and `\` (the next character as it is); a string with a
byte above 127 is decoded first, up to `SPH_MAX_WORD_LEN` code points, while the pattern stays a list of signed bytes.
-/
namespace Manticore
open List

/-- A `CSphString`: its bytes, without the closing NUL. -/
abbrev Str := List UInt8

instance : LawfulBEq Str := inferInstance

namespace Str

def star : UInt8 := 42
def quest : UInt8 := 63
def percent : UInt8 := 37

/-- `sphIsWild`. -/
def isWild (c : UInt8) : Bool := c == star || c == quest || c == percent

/-- `HasWildcard`. -/
def hasWildcard (s : Str) : Bool := s.any isWild

/-- `isspace` in the C locale. -/
def isSpace (c : UInt8) : Bool := c == 32 || (9 ≤ c && c ≤ 13)

/-- `CSphString::Trim`. -/
def trim (s : Str) : Str := ((s.dropWhile isSpace).reverse.dropWhile isSpace).reverse

/-- `CSphString::ToLower`, byte by byte in the C locale. -/
def toLower (s : Str) : Str := s.map fun c => if 65 ≤ c && c ≤ 90 then c + 32 else c

/-- A string that `Trim` and `HasWildcard` leave alone. -/
def Plain (s : Str) : Prop := ∀ c ∈ s, isWild c = false ∧ isSpace c = false

variable {s : Str}

theorem Plain.hasWildcard (h : Plain s) : hasWildcard s = false := by
  rw [Str.hasWildcard, any_eq_false]
  intro c hc
  rw [(h c hc).1]
  exact Bool.false_ne_true

theorem dropWhile_isSpace (h : ∀ c ∈ s, isSpace c = false) : s.dropWhile isSpace = s := by
  cases s with
  | nil => rfl
  | cons c s => rw [dropWhile_cons, h c (mem_cons_self ..), if_neg Bool.false_ne_true]

theorem Plain.trim (h : Plain s) : trim s = s := by
  have hs : ∀ c ∈ s, isSpace c = false := fun c hc => (h c hc).2
  rw [Str.trim, dropWhile_isSpace hs, dropWhile_isSpace fun c hc => hs c (mem_reverse.1 hc), reverse_reverse]

theorem plain_lower (c : UInt8) (h : isWild c = false ∧ isSpace c = false) :
    isWild (if 65 ≤ c && c ≤ 90 then c + 32 else c) = false ∧ isSpace (if 65 ≤ c && c ≤ 90 then c + 32 else c) = false := by
  obtain ⟨⟨c⟩⟩ := c
  revert h
  revert c
  decide +kernel

theorem Plain.toLower (h : Plain s) : Plain (toLower s) := by
  intro c hc
  obtain ⟨d, hd, rfl⟩ := mem_map.1 hc
  exact plain_lower d (h d hd)

end Str

namespace Wildcard

open Str

def MAX_WORD_LEN : Nat := 42
def MAX_KEYWORD_BYTES : Nat := MAX_WORD_LEN * 3 + 4
def MAX_UTF8_BYTES : Nat := 4

/-- A `char` widened to `int`. -/
def ofChar (c : UInt8) : Int := if c.toNat < 128 then c.toNat else (c.toNat : Int) - 256

/-- The leading ones of the first byte of a sequence. -/
def leadingOnes : Nat → Nat → Nat
  | 0, _ => 0
  | k + 1, v => if v &&& 0x80 ≠ 0 then leadingOnes k (v <<< 1 % 256) + 1 else 0

/-- The `n` continuation bytes of a sequence: the code point and the bytes left, `-1` for a byte that is none and
`0` when the string ends early. -/
def continuation : Nat → Int → Str → Int × Str
  | 0, code, bs => (code, bs)
  | _ + 1, _, [] => (0, [])
  | n + 1, code, b :: bs =>
    if b.toNat &&& 0xC0 ≠ 0x80 then (-1, b :: bs) else continuation n (code * 64 + (b.toNat &&& 0x3F : Nat)) bs

/-- `sphUTF8Decode`. -/
def utf8Decode : Str → Int × Str
  | [] => (0, [])
  | b :: bs =>
    if b.toNat < 128 then (b.toNat, bs)
    else
      let bytes := leadingOnes 8 b.toNat
      if bytes < 2 || MAX_UTF8_BYTES < bytes then (-1, bs)
      else continuation (bytes - 1) ((b.toNat <<< bytes % 256) >>> bytes : Nat) bs

/-- `sphUTF8ToWideChar` with room for `n` code points. -/
def utf8ToWideChar : Nat → Str → List Int
  | 0, _ => []
  | n + 1, bs =>
    let (code, rest) := utf8Decode bs
    if code = 0 then [] else code :: utf8ToWideChar n rest

/-- The run of stars and question marks after a star: the answer when the string ends within it, or what is left of
the string and of the pattern. -/
def skipStars : List Int → List Int → Bool ⊕ List Int × List Int
  | s, [] => .inr (s, [])
  | s, x :: p =>
    if x = ofChar star then skipStars s p
    else if x = ofChar quest then if s.tail = [] then .inl (p.isEmpty) else skipStars s.tail p
    else .inr (s, x :: p)

/-- `sphWildcardMatchRec`.  The end of a list stands for the NUL; every turn of the loop takes one unit of fuel. -/
def wildcardMatchRec : Nat → List Int → List Int → Bool
  | 0, _, _ => false
  | _ + 1, [], p =>
    let p := p.dropWhile fun x => x = ofChar star
    p = [] || p = [ofChar percent]
  | _ + 1, _ :: _, [] => false
  | k + 1, c :: s, x :: p =>
    if x = 92 then
      match p with
      | [] => false
      | y :: p => c = y && wildcardMatchRec k s p
    else if x = ofChar quest then wildcardMatchRec k s p
    else if x = ofChar percent then
      let next := p.headD 0
      if next = ofChar star then wildcardMatchRec k (c :: s) p
      else if next ≠ ofChar quest ∧ next ≠ ofChar percent ∧ c ≠ next then
        s.headD 0 = next && wildcardMatchRec k s p
      else if next ≠ ofChar quest ∧ next ≠ ofChar percent ∧ s.headD 0 ≠ next then wildcardMatchRec k (c :: s) p
      else wildcardMatchRec k (c :: s) p || wildcardMatchRec k s p
    else if x = ofChar star then
      match skipStars (c :: s) p with
      | .inl answer => answer
      | .inr (_, []) => true
      | .inr (s, y :: p) => s.tails.any fun t =>
          match t with
          | [] => false
          | d :: t => d = y && wildcardMatchRec k t p
    else c = x && wildcardMatchRec k s p

/-- One row of the table of `sphWildcardMatchDPImpl` after its first cell: `prev` holds the row before from the cell
above-left on, `left` the cell before. -/
def dpCells (esc : Bool) (x : Int) : List Int → List Bool → Bool → List Bool
  | c :: s, diag :: up :: prev, left =>
    let cell :=
      if !esc && x = ofChar star then diag || left || up
      else if !esc && x = ofChar percent then diag || up
      else if x = c || (!esc && x = ofChar quest) then diag
      else false
    cell :: dpCells esc x s (up :: prev) cell
  | _, _, _ => []

def dpRow (esc : Bool) (x : Int) (s : List Int) (prev : List Bool) : List Bool :=
  let first := if !esc && (x = ofChar star || x = ofChar percent) then prev.headD false else false
  first :: dpCells esc x s prev first

/-- The loop of `sphWildcardMatchDPImpl` over the pattern; the result is the last cell of the last row. -/
def dpLoop (s : List Int) : List Int → Bool → List Bool → Bool
  | [], _, row => row.getLastD false
  | x :: p, esc, row => if x = 92 then dpLoop s p true row else dpLoop s p false (dpRow esc x s row)

/-- `sphWildcardMatchDPLegacy`: a string that does not fit the table is no match, and every cell of the row before the
first is set. -/
def wildcardMatchDP (s p : List Int) : Bool :=
  if p.all (fun x => x = 92) then true
  else if MAX_KEYWORD_BYTES + 1 ≤ s.length then false
  else dpLoop s p false (List.replicate (s.length + 1) true)

/-- `sphWildcardMatchSpec`. -/
def wildcardMatchSpec (s p : List Int) : Bool :=
  let stars := p.countP fun x => x = ofChar star
  if 10 < stars || (5 < stars && 17 < p.length) then wildcardMatchDP s p
  else wildcardMatchRec (s.length + p.length + 1) s p

/-- `sphWildcardMatch`, without a decoded pattern and with the legacy buffer. -/
def wildcardMatch (s p : Str) : Bool :=
  if s = [] || p = [] then false
  else
    let wide := if s.any (fun c => 128 ≤ c) then utf8ToWideChar MAX_WORD_LEN s else []
    wildcardMatchSpec (if wide = [] then s.map ofChar else wide) (p.map ofChar)

-- `logs_*` takes `logs_public` and leaves `log`
example : wildcardMatch [108, 111, 103, 115, 95, 112] [108, 111, 103, 115, 95, 42] = true := by decide
example : wildcardMatch [108, 111, 103] [108, 111, 103, 115, 95, 42] = false := by decide

end Wildcard
end Manticore

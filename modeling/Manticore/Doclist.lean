import Mathlib
import Manticore.DiskQword
/-!
# Doclist — the bytes of a doclist, and reading them back entry by entry

A document is stored either with its only hit inlined or with its field mask, its hit count and the position of its
hitlist; rows and positions are deltas to the entry before.  `entriesBytes` is a doclist without its end marker,
`Qword.At` a reader that stands before the bytes of an entry with the row and the hitlist position of the one before.
-/
namespace Manticore
namespace Disk

open Hitman
open Zip (zipBE)
open Reader (unzipInt_of_rest unzipOffset_of_rest rest_skip skip_skip)
open List

inductive Body
  | inlined (hit : Nat)
  | listed (mask : BitVec 32) (hits pos : Nat)
  deriving DecidableEq, Repr

structure StoredDoc where
  row : Nat
  body : Body
  deriving DecidableEq, Repr

/-- The hitlist position the next delta is taken from. -/
def Body.posAfter (pos : Nat) : Body → Nat
  | .inlined _ => pos
  | .listed _ _ p => p

def Body.bytes (fmt : HitFormat) (pos : Nat) : Body → List UInt8
  | .inlined h => zipBE 1 ++ (zipBE (h % 2 ^ 23) ++ zipBE (h / 2 ^ 23))
  | .listed mask hits p =>
    match fmt with
    | .inline => zipBE hits ++ (zipBE mask.toNat ++ zipBE (p - pos))
    | .plain => zipBE (p - pos) ++ (zipBE mask.toNat ++ zipBE hits)

def StoredDoc.bytes (fmt : HitFormat) (row pos : Nat) (d : StoredDoc) : List UInt8 :=
  zipBE (sub32 d.row row) ++ d.body.bytes fmt pos

/-- The entries of a doclist, after an entry with row `row` and hitlist position `pos`. -/
def entriesBytes (fmt : HitFormat) : Nat → Nat → List StoredDoc → List UInt8
  | _, _, [] => []
  | row, pos, d :: docs => d.bytes fmt row pos ++ entriesBytes fmt d.row (d.body.posAfter pos) docs

def rowAfter : Nat → List StoredDoc → Nat
  | row, [] => row
  | _, d :: docs => rowAfter d.row docs

def posAfter : Nat → List StoredDoc → Nat
  | pos, [] => pos
  | pos, d :: docs => posAfter (d.body.posAfter pos) docs

@[simp] theorem rowAfter_append : ∀ (row : Nat) (as bs : List StoredDoc),
    rowAfter row (as ++ bs) = rowAfter (rowAfter row as) bs
  | _, [], _ => rfl
  | _, d :: as, bs => rowAfter_append d.row as bs

@[simp] theorem posAfter_append : ∀ (pos : Nat) (as bs : List StoredDoc),
    posAfter pos (as ++ bs) = posAfter (posAfter pos as) bs
  | _, [], _ => rfl
  | pos, d :: as, bs => posAfter_append (d.body.posAfter pos) as bs

theorem entriesBytes_append (fmt : HitFormat) : ∀ (row pos : Nat) (as bs : List StoredDoc),
    entriesBytes fmt row pos (as ++ bs) =
      entriesBytes fmt row pos as ++ entriesBytes fmt (rowAfter row as) (posAfter pos as) bs
  | _, _, [], _ => rfl
  | row, pos, d :: as, bs => by
    rw [cons_append, entriesBytes, entriesBytes_append fmt d.row _ as bs, entriesBytes, append_assoc]
    rfl

/-- In the inline format, an only hit is inlined if and only if the keyword has a hitlist. -/
def Body.Fits (fmt : HitFormat) (hasHitlist : Bool) (pos : Nat) : Body → Prop
  | .inlined h => fmt = .inline ∧ hasHitlist = true ∧ h < 2 ^ 32
  | .listed _ hits p => hits < 2 ^ 32 ∧ pos ≤ p ∧ p < 2 ^ 63 ∧ (fmt = .inline → hits = 1 → hasHitlist = false)

/-- What a reader needs of an entry after one with row `row` and hitlist position `pos`. -/
structure StoredDoc.Fits (fmt : HitFormat) (hasHitlist : Bool) (row pos : Nat) (d : StoredDoc) : Prop where
  after : row = invalidRowID ∨ row < d.row
  valid : d.row < invalidRowID
  body : d.body.Fits fmt hasHitlist pos

/-- Every entry of a doclist fits after the one before. -/
def AllFit (fmt : HitFormat) (hasHitlist : Bool) : Nat → Nat → List StoredDoc → Prop
  | _, _, [] => True
  | row, pos, d :: docs => d.Fits fmt hasHitlist row pos ∧ AllFit fmt hasHitlist d.row (d.body.posAfter pos) docs

variable {fmt : HitFormat}

theorem allFit_append {hasHitlist : Bool} : ∀ {row pos : Nat} {as bs : List StoredDoc},
    AllFit fmt hasHitlist row pos (as ++ bs) ↔
      AllFit fmt hasHitlist row pos as ∧ AllFit fmt hasHitlist (rowAfter row as) (posAfter pos as) bs
  | _, _, [], _ => by simp [AllFit, rowAfter, posAfter]
  | row, pos, d :: as, bs => by
    simp only [cons_append, AllFit, rowAfter, posAfter, allFit_append, and_assoc]

variable {has : Bool} {pos row : Nat} {q : Qword} {bs : List UInt8} {d : StoredDoc}

theorem StoredDoc.Fits.row_delta (h : d.Fits fmt has row pos) :
    sub32 d.row row ≠ 0 ∧ sub32 d.row row < 2 ^ 32 ∧ (row + sub32 d.row row) % 2 ^ 32 = d.row := by
  have hlt := h.after
  have hv := h.valid
  unfold sub32 invalidRowID at *
  omega

theorem StoredDoc.Fits.posAfter_bounds (h : d.Fits fmt has row pos) :
    pos ≤ d.body.posAfter pos ∧ (pos < 2 ^ 63 → d.body.posAfter pos < 2 ^ 63) := by
  have hb := h.body
  cases hd : d.body with
  | inlined hit => exact ⟨le_rfl, id⟩
  | listed mask hits p =>
    rw [hd] at hb
    exact ⟨hb.2.1, fun _ => hb.2.2.1⟩

theorem posAfter_lt : ∀ (row pos : Nat) (docs : List StoredDoc),
    AllFit fmt has row pos docs → pos < 2 ^ 63 → posAfter pos docs < 2 ^ 63
  | _, _, [], _, hp => hp
  | _, _, _ :: docs, h, hp => posAfter_lt _ _ docs h.2 (h.1.posAfter_bounds.2 hp)

/-! ### One `ReadNext` -/

/-- What a reader shows of its current document. -/
structure DocView where
  rowID : Nat
  qwordFields : FieldMask
  allFieldsKnown : Bool
  matchHits : Nat
  hitlistPos : Nat
  deriving DecidableEq, Repr

def Qword.view (q : Qword) : DocView := ⟨q.rowID, q.qwordFields, q.allFieldsKnown, q.matchHits, q.hitlistPos⟩

def StoredDoc.view (d : StoredDoc) : DocView :=
  match d.body with
  | .inlined h => ⟨d.row, FieldMask.set 0 (getField h), true, 1, h + 2 ^ 63⟩
  | .listed mask hits p => ⟨d.row, FieldMask.assign32 mask, false, hits, p⟩

/-- The hitlist position that the next delta is added to. -/
def Qword.base (q : Qword) : Nat := if q.inlineHits then q.hitPosition else q.hitlistPos

/-- A reader of a keyword of the format `fmt` that stands before the bytes `bs`. -/
structure Qword.At (q : Qword) (fmt : HitFormat) (has : Bool) (row pos : Nat) (bs : List UInt8) : Prop where
  inlineHits : q.inlineHits = decide (fmt = .inline)
  hasHitlist : q.hasHitlist = has
  rowID : q.rowID = row
  base : q.base = pos
  rest : q.rdDoclist.rest = bs

/-- The parts of a reader that `ReadNext` does not change. -/
structure Qword.SameBut (q q' : Qword) : Prop where
  data : q'.rdDoclist.data = q.rdDoclist.data
  rdHitlist : q'.rdHitlist = q.rdHitlist
  skipData : q'.skipData = q.skipData

theorem inlined_pos {h : Nat} (hh : h < 2 ^ 32) :
    (h % 2 ^ 23 ||| (h / 2 ^ 23 * 2 ^ 23) % 2 ^ 32 ||| 2 ^ 63) = h + 2 ^ 63 := by
  have hsum := Nat.two_pow_add_eq_or_of_lt (Nat.mod_lt h (Nat.two_pow_pos 23)) (h / 2 ^ 23)
  have hmark := Nat.two_pow_add_eq_or_of_lt (show h < 2 ^ 63 by omega) 1
  rw [Nat.div_add_mod] at hsum
  rw [Nat.mod_eq_of_lt (show h / 2 ^ 23 * 2 ^ 23 < 2 ^ 32 by omega), Nat.or_comm (h % 2 ^ 23), mul_comm, ← hsum,
    Nat.or_comm, ← mul_one (2 ^ 63), ← hmark, add_comm]

/-- The reader after the body of an entry. -/
def Qword.gotBody (q : Qword) (n : Nat) : Body → Qword
  | .inlined h => { q with
      rdDoclist := q.rdDoclist.skip n, matchHits := 1, hitlistPos := h + 2 ^ 63,
      qwordFields := FieldMask.set 0 (getField h), allFieldsKnown := true }
  | .listed mask hits p => { q with
      rdDoclist := q.rdDoclist.skip n, matchHits := hits, hitlistPos := p, qwordFields := FieldMask.assign32 mask,
      hitPosition := if q.inlineHits then p else q.hitPosition }

theorem Qword.At.readBody_inlined {hit : Nat} (h : q.At .inline true row pos (Body.bytes .inline pos (.inlined hit) ++ bs))
    (hlt : hit < 2 ^ 32) :
    q.readBody = q.gotBody (Body.bytes .inline pos (.inlined hit)).length (.inlined hit) := by
  have hi : q.inlineHits = true := h.inlineHits
  have hrest := h.rest
  simp only [Body.bytes, append_assoc] at hrest
  have h1 := unzipInt_of_rest hrest (by decide)
  have r1 := rest_skip hrest
  have h2 := unzipInt_of_rest r1 (show hit % 2 ^ 23 < 2 ^ 32 by omega)
  have r2 := rest_skip r1
  have h3 := unzipInt_of_rest r2 (show hit / 2 ^ 23 < 2 ^ 32 by omega)
  have hfield : hit / 2 ^ 23 / 2 % 256 = getField hit := by
    unfold getField
    omega
  rw [Qword.readBody, Qword.gotBody, if_pos hi]
  simp only [h1, h2, h3, h.hasHitlist, and_self, if_true, inlined_pos hlt, hfield]
  simp only [skip_skip, Body.bytes, length_append, add_assoc]

section Listed
variable {mask : BitVec 32} {hits p : Nat} (h : q.At fmt has row pos (Body.bytes fmt pos (.listed mask hits p) ++ bs))
  (hlt : hits < 2 ^ 32) (hp : pos ≤ p) (hp' : p < 2 ^ 63)
include h hlt hp hp'

theorem Qword.At.readBody_listed_inline (hfmt : fmt = .inline) (hh : hits = 1 → has = false) :
    q.readBody = q.gotBody (Body.bytes fmt pos (.listed mask hits p)).length (.listed mask hits p) := by
  subst hfmt
  obtain ⟨hi, hhas, -, hbase, hrest⟩ := h
  have hi : q.inlineHits = true := hi
  rw [Qword.base, if_pos hi] at hbase
  simp only [Body.bytes, append_assoc] at hrest
  have h1 := unzipInt_of_rest hrest hlt
  have r1 := rest_skip hrest
  have h2 := unzipInt_of_rest r1 mask.isLt
  have r2 := rest_skip r1
  have h3 := unzipOffset_of_rest r2 (show p - pos < 2 ^ 64 by omega)
  have hnot : ¬ (hits = 1 ∧ q.hasHitlist = true) := fun h => by simp [hhas, hh h.1] at h
  have hsum : (q.hitPosition + (p - pos)) % 2 ^ 64 = p := by omega
  rw [Qword.readBody, Qword.gotBody, if_pos hi, if_pos hi]
  simp only [h1, h2, h3, if_neg hnot, hsum, BitVec.ofNat_toNat, BitVec.setWidth_eq]
  simp only [skip_skip, Body.bytes, length_append, add_assoc]

theorem Qword.At.readBody_listed_plain (hfmt : fmt = .plain) :
    q.readBody = q.gotBody (Body.bytes fmt pos (.listed mask hits p)).length (.listed mask hits p) := by
  subst hfmt
  obtain ⟨hi, -, -, hbase, hrest⟩ := h
  have hi : ¬ q.inlineHits = true := by simp [hi]
  rw [Qword.base, if_neg hi] at hbase
  simp only [Body.bytes, append_assoc] at hrest
  have h1 := unzipOffset_of_rest hrest (show p - pos < 2 ^ 64 by omega)
  have r1 := rest_skip hrest
  have h2 := unzipInt_of_rest r1 mask.isLt
  have r2 := rest_skip r1
  have h3 := unzipInt_of_rest r2 hlt
  have hsum : (q.hitlistPos + (p - pos)) % 2 ^ 64 = p := by omega
  rw [Qword.readBody, Qword.gotBody, if_neg hi, if_neg hi]
  simp only [h1, h2, h3, hsum, BitVec.ofNat_toNat, BitVec.setWidth_eq]
  simp only [skip_skip, Body.bytes, length_append, add_assoc]

end Listed

variable {body : Body}

theorem Qword.At.readBody_eq (h : q.At fmt has row pos (body.bytes fmt pos ++ bs)) (hb : body.Fits fmt has pos) :
    q.readBody = q.gotBody (body.bytes fmt pos).length body := by
  cases body with
  | inlined hit =>
    obtain ⟨rfl, rfl, hhit⟩ := hb
    exact h.readBody_inlined hhit
  | listed mask hits p =>
    obtain ⟨hhits, hp, hp', hone⟩ := hb
    cases hf : fmt with
    | inline => exact hf ▸ h.readBody_listed_inline hhits hp hp' hf (hone hf)
    | plain => exact hf ▸ h.readBody_listed_plain hhits hp hp' hf

theorem Qword.At.gotBody (h : q.At fmt has row pos (body.bytes fmt pos ++ bs)) (hb : body.Fits fmt has pos) :
    (q.gotBody (body.bytes fmt pos).length body).At fmt has row (body.posAfter pos) bs := by
  obtain ⟨hi, hh, hr, hbase, hrest⟩ := h
  cases body with
  | inlined hit =>
    refine ⟨hi, hh, hr, ?_, rest_skip hrest⟩
    obtain ⟨rfl, -, -⟩ := hb
    have hi : q.inlineHits = true := hi
    rw [Qword.base, if_pos hi] at hbase
    rw [Qword.base, Qword.gotBody, if_pos hi, Body.posAfter, hbase]
  | listed mask hits p =>
    refine ⟨hi, hh, hr, ?_, rest_skip hrest⟩
    rw [Qword.base, Qword.gotBody, Body.posAfter]
    by_cases hin : q.inlineHits = true
    · rw [if_pos hin, if_pos hin]
    · rw [if_neg hin]

/-- The reader after the row delta of an entry, `n` bytes long. -/
def Qword.onRow (q : Qword) (row n : Nat) : Qword :=
  { q with rdDoclist := q.rdDoclist.skip n, allFieldsKnown := false, rowID := row }

theorem Qword.At.onRow {cs : List UInt8} (h : q.At fmt has row pos (cs ++ bs)) (r : Nat) :
    (q.onRow r cs.length).At fmt has r pos bs :=
  ⟨h.inlineHits, h.hasHitlist, rfl, h.base, rest_skip h.rest⟩

theorem Qword.gotBody_frame (q : Qword) (row m n : Nat) (body : Body) :
    ((q.onRow row m).gotBody n body).view = StoredDoc.view ⟨row, body⟩ ∧ q.SameBut ((q.onRow row m).gotBody n body) ∧
      ((q.onRow row m).gotBody n body).rdDoclist = (q.rdDoclist.skip m).skip n := by
  cases body <;> exact ⟨rfl, ⟨rfl, rfl, rfl⟩, rfl⟩

/-- **`ReadNext` decodes the entry it stands at** and stands at the next one. -/
theorem Qword.At.readNext (h : q.At fmt has row pos (d.bytes fmt row pos ++ bs)) (hd : d.Fits fmt has row pos) :
    q.readNext.At fmt has d.row (d.body.posAfter pos) bs ∧ q.readNext.view = d.view ∧ q.SameBut q.readNext ∧
      q.readNext.rdDoclist = q.rdDoclist.skip (d.bytes fmt row pos).length := by
  obtain ⟨hne, hlt, hsum⟩ := hd.row_delta
  rw [StoredDoc.bytes, append_assoc] at h
  have hbody := h.onRow d.row
  have hstep : q.readNext = (q.onRow d.row (zipBE (sub32 d.row row)).length).readBody := by
    rw [Qword.readNext]
    simp only [unzipInt_of_rest h.rest hlt, h.rowID, hsum, ne_eq, hne, not_false_eq_true, if_true, Qword.onRow]
  rw [hstep, hbody.readBody_eq hd.body, StoredDoc.bytes, length_append, ← skip_skip]
  exact ⟨hbody.gotBody hd.body, Qword.gotBody_frame q d.row _ _ d.body⟩

theorem Qword.At.readNext_end (h : q.At fmt has row pos (zipBE 0 ++ bs)) :
    q.readNext = { q with rdDoclist := q.rdDoclist.skip (zipBE 0).length, rowID := invalidRowID } := by
  rw [Qword.readNext]
  simp only [unzipInt_of_rest h.rest (by decide), ne_eq, not_true_eq_false, if_false]

/-! ### Whole doclists -/

/-- `GetNextDoc` until there are no more documents. -/
def Qword.scan : Nat → Qword → Option (List DocView)
  | 0, _ => none
  | k + 1, q => if q.getNextDoc.rowID = invalidRowID then some [] else (q.getNextDoc.view :: ·) <$> scan k q.getNextDoc

/-- **Reading on to the end shows every document that was stored**, in order and as it was stored. -/
theorem Qword.At.scan {docs : List StoredDoc} (h : q.At fmt has row pos (entriesBytes fmt row pos docs ++ (zipBE 0 ++ bs)))
    (hfit : AllFit fmt has row pos docs) : q.scan (docs.length + 1) = some (docs.map StoredDoc.view) := by
  induction docs generalizing q row pos with
  | nil =>
    rw [Qword.scan, Qword.getNextDoc, h.readNext_end]
    rfl
  | cons d docs ih =>
    rw [entriesBytes, append_assoc] at h
    obtain ⟨hat, hview, -, -⟩ := h.readNext hfit.1
    have hne : q.readNext.rowID ≠ invalidRowID := hat.rowID ▸ ne_of_lt hfit.1.valid
    rw [length_cons, Qword.scan, Qword.getNextDoc, if_neg hne, hview, ih hat hfit.2]
    rfl

def inlineHits : Settings := ⟨1, .inline, .none⟩

/-- A document with a hitlist, and one with its only hit inlined. -/
def twoDocs : List StoredDoc := [⟨3, .listed 1 2 5⟩, ⟨7, .inlined 9⟩]

theorem twoDocs_fits : AllFit .inline true invalidRowID 0 twoDocs :=
  ⟨⟨.inl rfl, by decide, by decide, by decide, by decide, nofun⟩, ⟨.inr (by decide), by decide, rfl, rfl, by decide⟩, trivial⟩

theorem scan_twoDocs : (setup inlineHits (entriesBytes .inline invalidRowID 0 twoDocs ++ (zipBE 0 ++ [])) [] []
    ⟨2, false, 0, 0⟩).scan (twoDocs.length + 1) = some (twoDocs.map StoredDoc.view) :=
  Qword.At.scan ⟨rfl, rfl, rfl, rfl, rfl⟩ twoDocs_fits

end Disk
end Manticore

import Manticore.FileIo
/-!
# DocstoreBlock — documents in small and big blocks (`docstore.cpp`)

A small block holds several documents one after another, compressed together; a document says which of its fields are
empty by a flag, by a bit mask or by zero lengths, whichever is shorter.  A big block holds one document, each field
compressed on its own, and may list the fields in another order.  This module has the bytes of both and how a document is
taken out of a small block; fields go to the places that the caller asked them for (`assign`).
-/
namespace Manticore
namespace Docstore
open List

abbrev Bytes := List UInt8

/-- `DocstoreDataType_e`. -/
inductive DataType
  | text | bin | attr | knnChunkSpans
  deriving DecidableEq, Repr

/-- `Compressor_i`: a compressor that may give up, what it makes is not longer than what it was given, and
decompression into a buffer of the right size undoes it. -/
structure Compressor where
  compress   : Bytes → Option Bytes
  decompress : Bytes → Nat → Bytes
  lossless   : ∀ x y, compress x = some y → decompress y x.length = x
  nonempty   : ∀ x y, compress x = some y → y ≠ []
  shorter    : ∀ x y, compress x = some y → y.length ≤ x.length

/-- `Compressor_None_c`. -/
def Compressor.none : Compressor where
  compress _ := Option.none
  decompress y _ := y
  lossless _ _ h := by cases h
  nonempty _ _ h := by cases h
  shorter _ _ h := by cases h

/-- The part of a vector that code sees through `GetLength ()`, which is an `int`. -/
def seen (b : Bytes) : Bytes := if b.length % 2 ^ 32 < 2 ^ 31 then b.take (b.length % 2 ^ 32) else []

theorem seen_of_lt {b : Bytes} (h : b.length < 2 ^ 31) : seen b = b := by
  rw [seen, Nat.mod_eq_of_lt (by omega), if_pos h, take_length]

/-! ## Packing -/

/-- `PackData`.  The zero that ends a text stands behind the vector's length. -/
def packData (pack : Bool) (data : Bytes) : Bytes := if pack then Zip.zipBE data.length ++ data else data

/-- `sphUnpackPtrAttr`; no data at all is the empty value. -/
def unpackPtrAttr (bs : Bytes) : Bytes :=
  if bs = [] then [] else (Zip.unzipIntBE bs).2.take (Zip.unzipIntBE bs).1

/-- A field as its reader sees it. -/
def opened (pack : Bool) (bs : Bytes) : Bytes := if pack then unpackPtrAttr bs else bs

@[simp] theorem opened_nil (pack : Bool) : opened pack [] = [] := by
  cases pack <;> rfl

theorem opened_packData (pack : Bool) {f : Bytes} (h : f.length < 2 ^ 32) : opened pack (packData pack f) = f := by
  cases pack with
  | false => rfl
  | true =>
    have hne : Zip.zipBE f.length ++ f ≠ [] := by
      intro h
      have := Zip.length_zipBE_pos f.length
      rw [(append_eq_nil_iff.mp h).1] at this
      exact absurd this (by simp)
    simp only [opened, packData, if_true, unpackPtrAttr, if_neg hne, Zip.unzipIntBE_zipBE _ h, take_length]

/-! ## Fields in their places -/

section
variable {α : Type}

/-- A value goes to the place its field has in the result, if it has one. -/
def setField (target : Nat → Option Nat) (field : Nat) (v : α) (res : List α) : List α :=
  match target field with
  | some j => res.set j v
  | none => res

def assign (target : Nat → Option Nat) (vs : List (Nat × α)) (res : List α) : List α :=
  vs.foldl (fun r v => setField target v.1 v.2 r) res

/-- The value that a field is given. -/
def valueOf (field : Nat) : List (Nat × α) → Option α
  | []      => none
  | v :: vs => if v.1 = field then some v.2 else valueOf field vs

theorem valueOf_eq_none {field : Nat} {vs : List (Nat × α)} (h : field ∉ vs.map Prod.fst) : valueOf field vs = none := by
  induction vs with
  | nil => rfl
  | cons v vs ih =>
    rw [map_cons, mem_cons, not_or] at h
    rw [valueOf, if_neg (Ne.symm h.1), ih h.2]

section
variable (target : Nat → Option Nat)
include target

@[simp] theorem length_setField (field : Nat) (v : α) (res : List α) :
    (setField target field v res).length = res.length := by
  unfold setField
  split
  · exact length_set ..
  · rfl

@[simp] theorem length_assign (vs : List (Nat × α)) : ∀ (res : List α),
    (assign target vs res).length = res.length := by
  induction vs with
  | nil => exact fun res => rfl
  | cons v vs ih => exact fun res => (ih _).trans (length_setField ..)

/-- **Each place gets the value of its field**, when no field comes twice and no two fields share a place. -/
theorem getElem?_assign (hinj : ∀ a b j, target a = some j → target b = some j → a = b)
    {field j : Nat} (hfield : target field = some j) (vs : List (Nat × α)) : ∀ (res : List α),
    (vs.map Prod.fst).Nodup → j < res.length →
    (assign target vs res)[j]? = (valueOf field vs).elim res[j]? some := by
  induction vs with
  | nil => exact fun res _ _ => rfl
  | cons v vs ih =>
    intro res hnodup hj
    rw [map_cons, nodup_cons] at hnodup
    have hstep := ih (setField target v.1 v.2 res) hnodup.2 (by rwa [length_setField])
    show (assign target vs (setField target v.1 v.2 res))[j]? = _
    rw [hstep, valueOf]
    by_cases heq : v.1 = field
    · have hset : (setField target v.1 v.2 res)[j]? = some v.2 := by
        rw [setField, heq, hfield]
        exact getElem?_set_self hj
      rw [valueOf_eq_none (heq ▸ hnodup.1), Option.elim_none, hset, if_pos heq, Option.elim_some]
    · have hset : (setField target v.1 v.2 res)[j]? = res[j]? := by
        unfold setField
        split
        · rename_i k hk
          apply getElem?_set_ne
          rintro rfl
          exact heq (hinj v.1 field k hk hfield)
        · rfl
      rw [hset, if_neg heq]

end

end

/-- `CreateFieldRemap`: where a field goes; without a list of ids every field keeps its place. -/
def fieldInRset (ids : Option (List Nat)) (field : Nat) : Option Nat :=
  match ids with
  | none => some field
  | some ids => if field ∈ ids then some (ids.idxOf field) else none

/-- The ids that are asked for, of `n` fields. -/
def wanted (n : Nat) (ids : Option (List Nat)) : List Nat := ids.getD (List.range n)

theorem fieldInRset_injective (ids : Option (List Nat)) (a b j : Nat) (ha : fieldInRset ids a = some j)
    (hb : fieldInRset ids b = some j) : a = b := by
  cases ids with
  | none => exact (Option.some.inj ha).trans (Option.some.inj hb).symm
  | some ids =>
    simp only [fieldInRset] at ha hb
    split at ha <;> cases ha
    split at hb
    · rename_i hain hbin
      exact ((idxOf_inj hbin).mp (Option.some.inj hb)).symm
    · cases hb

variable {n : Nat} {ids : Option (List Nat)} {doc : List Bytes}

theorem fieldInRset_wanted (hids : (wanted n ids).Nodup) {j field : Nat} (h : (wanted n ids)[j]? = some field) :
    fieldInRset ids field = some j := by
  cases ids with
  | none =>
    have := List.getElem?_eq_some_iff.mp h
    simp only [wanted, Option.getD_none, getElem_range] at this
    rw [fieldInRset, this.2]
  | some ids =>
    obtain ⟨hlt, rfl⟩ := List.getElem?_eq_some_iff.mp h
    simp only [wanted, Option.getD_some] at hlt hids ⊢
    rw [fieldInRset, if_pos (getElem_mem hlt), hids.idxOf_getElem]

/-- **What a caller gets back**: the fields that were asked for, when every value opens to its field. -/
theorem map_opened_assign (pack : Bool) (hids : (wanted n ids).Nodup) {vs : List (Nat × Bytes)}
    (hnodup : (vs.map Prod.fst).Nodup) (hvs : ∀ i ∈ wanted n ids, opened pack ((valueOf i vs).getD []) = doc.getD i []) :
    (assign (fieldInRset ids) vs (List.replicate (wanted n ids).length [])).map (opened pack)
      = (wanted n ids).map (doc.getD · []) := by
  apply ext_getElem?
  intro j
  rw [getElem?_map, getElem?_map]
  by_cases hj : j < (wanted n ids).length
  · have hat := getElem?_eq_getElem hj
    have hget := getElem?_assign (fieldInRset ids) (fieldInRset_injective ids) (fieldInRset_wanted hids hat) vs
      (List.replicate (wanted n ids).length []) hnodup (by simpa using hj)
    have hval := hvs _ (getElem_mem hj)
    rw [hget, hat, Option.map_some, ← hval]
    cases valueOf (wanted n ids)[j] vs with
    | none => simp [hj]
    | some v => rfl
  · rw [getElem?_eq_none (by simpa using hj), getElem?_eq_none (by simpa using hj)]
    rfl

/-! ## The mask of empty fields -/

/-- `GetSizeBytes` of a bit vector of `n` bits, kept in 32-bit words. -/
def maskSize (n : Nat) : Nat := 4 * ((n + 31) / 32)

def maskByte (bits : List Bool) (k : Nat) : UInt8 := UInt8.ofNat (Nat.ofBits fun j : Fin 8 => bits.getD (8 * k + j) false)

def mask (bits : List Bool) (n : Nat) : Bytes := (List.range (maskSize n)).map (maskByte bits)

/-- `BitGet`. -/
def bitGet (m : Bytes) (i : Nat) : Bool := (m.getD (i / 8) 0).toNat.testBit (i % 8)

@[simp] theorem length_mask (bits : List Bool) (n : Nat) : (mask bits n).length = maskSize n := by simp [mask]

theorem bitGet_mask (bits : List Bool) {i : Nat} (h : i < n) : bitGet (mask bits n) i = bits.getD i false := by
  have hk : i / 8 < maskSize n := by unfold maskSize; omega
  have hbyte : (mask bits n).getD (i / 8) 0 = maskByte bits (i / 8) := by
    rw [getD_eq_getElem?_getD, mask, getElem?_map, getElem?_range hk]
    rfl
  have hlt : Nat.ofBits (fun j : Fin 8 => bits.getD (8 * (i / 8) + j) false) < 2 ^ 8 := Nat.ofBits_lt_two_pow _
  have hmod : i % 8 < 8 := Nat.mod_lt _ (by decide)
  rw [bitGet, hbyte, maskByte, UInt8.toNat_ofNat', Nat.mod_eq_of_lt hlt, Nat.testBit_ofBits_lt _ _ hmod]
  show bits.getD (8 * (i / 8) + i % 8) false = _
  rw [Nat.div_add_mod]

/-! ## A document of a small block -/

def putField (f : Bytes) : Bytes := Zip.zipBE (f.length % 2 ^ 32) ++ f

def emptyFields (doc : List Bytes) : List Bool := doc.map fun f => decide (f = [])

/-- One round of the loop in `WriteSmallBlock`, for `n` fields. -/
def putDoc (n : Nat) (doc : List Bytes) : Bytes :=
  let count := (emptyFields doc).count true
  if count = n then [1]
  else if count ≠ 0 ∧ maskSize n < count then
    2 :: (mask (emptyFields doc) n ++ doc.flatMap fun f => if f = [] then [] else putField f)
  else 0 :: doc.flatMap putField

/-- The loop over the fields in `ProcessSmallBlockDoc`, from field `i` on. -/
def processFields (mask : Option Bytes) (target : Nat → Option Nat) (pack : Bool) :
    Nat → Nat → Bytes → List Bytes → List Bytes × Bytes
  | 0,     _, bs, res => (res, bs)
  | k + 1, i, bs, res =>
    if (mask.map (bitGet · i)).getD false then processFields mask target pack k (i + 1) bs res
    else
      let len := (Zip.unzipIntBE bs).1
      let bs' := (Zip.unzipIntBE bs).2
      processFields mask target pack k (i + 1) (bs'.drop len) (setField target i (packData pack (bs'.take len)) res)

/-- `ProcessSmallBlockDoc`: the result, and the bytes after the document.  A document that is not the one looked for is
only stepped over. -/
def processSmallBlockDoc (n : Nat) (found : Bool) (ids : Option (List Nat)) (pack : Bool) (bs : Bytes) :
    List Bytes × Bytes :=
  let res := if found then List.replicate (wanted n ids).length [] else []
  let flags := (Zip.getByte bs).1
  let bs := (Zip.getByte bs).2
  if flags % 2 = 1 then (res, bs)
  else
    let target := if found then fieldInRset ids else fun _ => none
    if flags / 2 % 2 = 1 then processFields (some (bs.take (maskSize n))) target pack n 0 (bs.drop (maskSize n)) res
    else processFields none target pack n 0 bs res

/-- The loop of `ReadDocFromSmallBlock`. -/
def smallDocs (n rowid : Nat) (ids : Option (List Nat)) (pack : Bool) : Nat → Nat → Bytes → List Bytes
  | 0,     _,   _  => []
  | k + 1, cur, bs =>
    let read := processSmallBlockDoc n (decide (cur = rowid)) ids pack bs
    if cur = rowid then read.1 else smallDocs n rowid ids pack k (cur + 1) read.2

/-- The fields from `i` on with their numbers; with a mask, only those that are not empty. -/
def numbered (pack masked : Bool) : Nat → List Bytes → List (Nat × Bytes)
  | _, []     => []
  | i, f :: fs =>
    if masked = true ∧ f = [] then numbered pack masked (i + 1) fs
    else (i, packData pack f) :: numbered pack masked (i + 1) fs

theorem unzip_putField {f : Bytes} (h : f.length < 2 ^ 32) (rest : Bytes) :
    Zip.unzipIntBE (putField f ++ rest) = (f.length, f ++ rest) := by
  rw [putField, Nat.mod_eq_of_lt h, append_assoc, Zip.unzipIntBE_zipBE _ h]

/-- **Reading the fields assigns each of them**, when the mask holds the empty ones. -/
theorem processFields_spec (m : Option Bytes) (target : Nat → Option Nat) (pack : Bool) (rest : Bytes)
    (doc : List Bytes) : ∀ (i : Nat) (res : List Bytes), (∀ f ∈ doc, f.length < 2 ^ 32) →
    (∀ b, m = some b → ∀ k f, doc[k]? = some f → bitGet b (i + k) = decide (f = [])) →
    processFields m target pack doc.length i
        ((doc.flatMap fun f => if m.isSome = true ∧ f = [] then [] else putField f) ++ rest) res
      = (assign target (numbered pack m.isSome i doc) res, rest) := by
  induction doc with
  | nil => exact fun i res _ _ => rfl
  | cons f doc ih =>
    intro i res hlen hmask
    have hrest := fun res => ih (i + 1) res (forall_mem_cons.mp hlen).2 (fun b hb k g hg => by
      have := hmask b hb (k + 1) g hg
      rwa [← add_assoc, add_right_comm] at this)
    have hbit : (m.map (bitGet · i)).getD false = decide (m.isSome = true ∧ f = []) := by
      cases m with
      | none => simp
      | some b =>
        have := hmask b rfl 0 f rfl
        simp only [add_zero] at this
        simp [this]
    rw [length_cons, flatMap_cons, append_assoc, processFields, hbit, numbered]
    by_cases hskip : m.isSome = true ∧ f = []
    · rw [if_pos (decide_eq_true hskip), if_pos hskip, if_pos hskip, nil_append]
      exact hrest res
    · rw [if_neg (by simpa using hskip), if_neg hskip, if_neg hskip]
      simp only [unzip_putField (hlen f (mem_cons_self ..)), drop_left, take_left]
      exact hrest _

theorem le_of_mem_numbered (pack masked : Bool) (doc : List Bytes) : ∀ (i : Nat),
    ∀ v ∈ numbered pack masked i doc, i ≤ v.1 := by
  induction doc with
  | nil => intro i v hv; cases hv
  | cons f doc ih =>
    intro i v hv
    rw [numbered] at hv
    split at hv
    · exact Nat.le_of_succ_le (ih (i + 1) v hv)
    · rcases mem_cons.mp hv with rfl | hv
      · exact le_refl _
      · exact Nat.le_of_succ_le (ih (i + 1) v hv)

theorem nodup_numbered (pack masked : Bool) (doc : List Bytes) : ∀ (i : Nat),
    ((numbered pack masked i doc).map Prod.fst).Nodup := by
  induction doc with
  | nil => exact fun i => nodup_nil
  | cons f doc ih =>
    intro i
    rw [numbered]
    split
    · exact ih (i + 1)
    · rw [map_cons, nodup_cons]
      refine ⟨?_, ih (i + 1)⟩
      intro hmem
      obtain ⟨v, hv, hvi⟩ := mem_map.mp hmem
      have := le_of_mem_numbered pack masked doc (i + 1) v hv
      omega

theorem opened_numbered (pack masked : Bool) (doc : List Bytes) : ∀ (i : Nat), (∀ f ∈ doc, f.length < 2 ^ 32) →
    ∀ k, opened pack ((valueOf (i + k) (numbered pack masked i doc)).getD []) = doc.getD k [] := by
  induction doc with
  | nil => exact fun i _ k => opened_nil pack
  | cons f doc ih =>
    intro i hlen k
    have hrest := ih (i + 1) (forall_mem_cons.mp hlen).2
    have hlow : valueOf i (numbered pack masked (i + 1) doc) = none := by
      apply valueOf_eq_none
      intro hmem
      obtain ⟨v, hv, hvi⟩ := mem_map.mp hmem
      have := le_of_mem_numbered pack masked doc (i + 1) v hv
      omega
    cases k with
    | zero =>
      rw [numbered, add_zero, getD_cons_zero]
      split
      · rename_i hskip
        rw [hlow, hskip.2]
        exact opened_nil pack
      · rw [valueOf, if_pos rfl]
        exact opened_packData pack (hlen f (mem_cons_self ..))
    | succ k =>
      have hnum : i + (k + 1) = i + 1 + k := by omega
      rw [numbered, getD_cons_succ, hnum, ← hrest k]
      split
      · rfl
      · rw [valueOf, if_neg (by omega)]

/-- Where the fields of a document go, if it is the one looked for. -/
def targetOf (found : Bool) (ids : Option (List Nat)) : Nat → Option Nat :=
  if found then fieldInRset ids else fun _ => none

/-- The result before any field is read. -/
def blank (n : Nat) (found : Bool) (ids : Option (List Nat)) : List Bytes :=
  if found then List.replicate (wanted n ids).length [] else []

theorem process_allEmpty (n : Nat) (found : Bool) (ids : Option (List Nat)) (pack : Bool) (bs : Bytes) :
    processSmallBlockDoc n found ids pack (1 :: bs) = (blank n found ids, bs) := rfl

theorem process_masked {m : Bytes} (hm : m.length = maskSize n) (found : Bool) (ids : Option (List Nat)) (pack : Bool)
    (bs : Bytes) : processSmallBlockDoc n found ids pack (2 :: (m ++ bs))
      = processFields (some m) (targetOf found ids) pack n 0 bs (blank n found ids) := by
  have h1 : ¬ (2 : UInt8).toNat % 2 = 1 := by decide
  have h2 : (2 : UInt8).toNat / 2 % 2 = 1 := by decide
  unfold processSmallBlockDoc
  simp only [Zip.getByte_cons, h1, h2, if_false, if_true]
  rw [← hm, take_left, drop_left]
  rfl

theorem process_plain (n : Nat) (found : Bool) (ids : Option (List Nat)) (pack : Bool) (bs : Bytes) :
    processSmallBlockDoc n found ids pack (0 :: bs)
      = processFields none (targetOf found ids) pack n 0 bs (blank n found ids) := by
  have h1 : ¬ (0 : UInt8).toNat % 2 = 1 := by decide
  have h2 : ¬ (0 : UInt8).toNat / 2 % 2 = 1 := by decide
  unfold processSmallBlockDoc
  simp only [Zip.getByte_cons, h1, h2, if_false]
  rfl

theorem bitGet_emptyFields (hn : doc.length = n) (b : Bytes) (hb : some (mask (emptyFields doc) n) = some b) (k : Nat)
    (f : Bytes) (hf : doc[k]? = some f) : bitGet b (0 + k) = decide (f = []) := by
  cases hb
  have hk := (List.getElem?_eq_some_iff.mp hf).1
  rw [zero_add, bitGet_mask _ (hn ▸ hk), getD_eq_getElem?_getD, emptyFields, getElem?_map, hf]
  rfl

theorem getD_of_allEmpty (hn : doc.length = n) (h : (emptyFields doc).count true = n) (i : Nat) : doc.getD i [] = [] := by
  have hlen : (emptyFields doc).length = n := by rw [emptyFields, length_map, hn]
  have hall := count_eq_length.mp (h.trans hlen.symm)
  rw [getD_eq_getElem?_getD]
  cases hi : doc[i]? with
  | none => rfl
  | some f =>
    have hf := hall (decide (f = [])) (mem_map.mpr ⟨f, mem_of_getElem? hi, rfl⟩)
    exact of_decide_eq_true hf.symm

/-- What a document of a small block leaves in the result: some of its fields, from which all of them can be told. -/
theorem processSmallBlockDoc_putDoc (found : Bool) (ids : Option (List Nat)) (pack : Bool) (hn : doc.length = n)
    (hlen : ∀ f ∈ doc, f.length < 2 ^ 32) (rest : Bytes) : ∃ vs : List (Nat × Bytes), (vs.map Prod.fst).Nodup ∧
      (∀ i, opened pack ((valueOf i vs).getD []) = doc.getD i []) ∧
      processSmallBlockDoc n found ids pack (putDoc n doc ++ rest)
        = (assign (targetOf found ids) vs (blank n found ids), rest) := by
  have hopen := fun masked i => opened_numbered pack masked doc 0 hlen i
  simp only [zero_add] at hopen
  unfold putDoc
  by_cases hempty : (emptyFields doc).count true = n
  · refine ⟨[], nodup_nil, ?_, ?_⟩
    · intro i
      rw [getD_of_allEmpty hn hempty i]
      exact opened_nil pack
    · rw [if_pos hempty]
      exact process_allEmpty n found ids pack rest
  · rw [if_neg hempty]
    by_cases hmasked : (emptyFields doc).count true ≠ 0 ∧ maskSize n < (emptyFields doc).count true
    · refine ⟨numbered pack true 0 doc, nodup_numbered pack true doc 0, hopen true, ?_⟩
      have hfields := processFields_spec (some (mask (emptyFields doc) n)) (targetOf found ids) pack rest doc 0
        (blank n found ids) hlen (bitGet_emptyFields hn)
      simp only [Option.isSome_some, true_and, hn] at hfields
      rw [if_pos hmasked, cons_append, append_assoc, process_masked (length_mask _ _), hfields]
    · refine ⟨numbered pack false 0 doc, nodup_numbered pack false doc 0, hopen false, ?_⟩
      have hfields := processFields_spec none (targetOf found ids) pack rest doc 0 (blank n found ids) hlen
        (fun b hb => by cases hb)
      simp only [Option.isSome_none, Bool.false_eq_true, false_and, if_false, hn] at hfields
      rw [if_neg hmasked, cons_append, process_plain, hfields]

/-- **A document is read back from the place where it stands among others.** -/
theorem smallDocs_spec (hids : (wanted n ids).Nodup) (pack : Bool) (rest : Bytes) (docs : List (List Bytes)) :
    ∀ (cur rowid : Nat) (doc : List Bytes),
    (∀ d ∈ docs, d.length = n ∧ ∀ f ∈ d, f.length < 2 ^ 32) → cur ≤ rowid → docs[rowid - cur]? = some doc →
    (smallDocs n rowid ids pack docs.length cur (docs.flatMap (putDoc n) ++ rest)).map (opened pack)
      = (wanted n ids).map (doc.getD · []) := by
  induction docs with
  | nil => intro cur rowid doc _ _ h; cases h
  | cons d docs ih =>
    intro cur rowid doc hdocs hle hdoc
    obtain ⟨hn, hlen⟩ := hdocs d (mem_cons_self ..)
    obtain ⟨vs, hnodup, hopen, hread⟩ := processSmallBlockDoc_putDoc (decide (cur = rowid)) ids pack hn hlen
      (docs.flatMap (putDoc n) ++ rest)
    rw [length_cons, flatMap_cons, append_assoc, smallDocs, hread]
    by_cases heq : cur = rowid
    · subst heq
      rw [Nat.sub_self, getElem?_cons_zero, Option.some.injEq] at hdoc
      subst hdoc
      simp only [decide_true, if_true, targetOf, blank]
      exact map_opened_assign pack hids hnodup (fun i _ => hopen i)
    · rw [if_neg heq]
      apply ih (cur + 1) rowid doc (forall_mem_cons.mp hdocs).2 (by omega)
      have hsub : rowid - cur = rowid - (cur + 1) + 1 := by omega
      rwa [hsub, getElem?_cons_succ] at hdoc

end Docstore
end Manticore

import Manticore.QueryCache
import Manticore.ShardBatch
/-!
# ShardPredicate — the condition of a DELETE on its way to a remote shard

`SaveShardDeletePredicate` writes the query, the filters and the filter tree of a condition; `LoadShardDeletePredicate`
reads them into fresh settings.  `SaveFilter` lists the fields of a filter one by one and leaves two of them out: the
direction of a string comparison and the flag of an optional filter.
-/
namespace Manticore
namespace Shard
open List
open Wire
open Filters
open Qcache (filterEq floatEq)

/-! ## Sending and receiving -/

/-- `SendString`: the string ends at its first zero byte. -/
def sendString (s : Str) : List UInt8 := sendInt (s.takeWhile (· ≠ 0)).length ++ s.takeWhile (· ≠ 0)

def getString (limit : Nat) : Parser Str := do
  let len ← getInt limit
  getBytes limit len

def sendDword (n : Nat) : List UInt8 := (putLE 4 n).reverse

def getDword (limit : Nat) : Parser Nat := do
  let raw ← getBytes limit 4
  pure (valLE raw.reverse)

def sendUint64 (v : Attr) : List UInt8 := sendDword (v.toNat / 2 ^ 32) ++ sendDword v.toNat

def getUint64 (limit : Nat) : Parser Attr := do
  let hi ← getDword limit
  let lo ← getDword limit
  pure (BitVec.ofNat 64 (hi * 2 ^ 32 + lo))

/-- An enumeration goes as the number of its constant. -/
def sendEnum {α : Type} [BEq α] (all : List α) (a : α) : List UInt8 := sendDword (all.idxOf a)

def getEnum {α : Type} (limit : Nat) (all : List α) (dflt : α) : Parser α := do
  let n ← getDword limit
  pure (all.getD n dflt)

def sendBool (b : Bool) : List UInt8 := [if b then 1 else 0]

def getBool (limit : Nat) : Parser Bool := do
  let b ← getByte limit
  pure (b != 0)

/-- A count that must not be negative, and that many values. -/
def getList {α : Type} (limit : Nat) (get : Parser α) : Parser (List α) := do
  let count ← getInt limit
  if count < 0 then fun _ => none
  else eachOf (fun _ => get) (List.replicate count.toNat ())

def filterTypes : List FilterType := [.values, .range, .floatRange, .string, .null, .userVar, .stringList, .expression]
def mvaFuncs : List MvaFunc := [.none, .any, .all]

/-- `QueryType_e`. -/
inductive QueryType
  | api | sql | json
  deriving DecidableEq

def queryTypes : List QueryType := [.api, .sql, .json]

def saveFilter (f : FilterSettings) : List UInt8 :=
  sendString f.attrName ++ (sendEnum filterTypes f.type ++ (sendEnum mvaFuncs f.mvaFunc ++ (sendUint64 f.minValue ++
    (sendUint64 f.maxValue ++ (sendShardArray sendUint64 f.getValues ++ (sendShardArray sendString f.strings ++
      (sendBool f.exclude ++ (sendBool f.hasEqualMin ++ (sendBool f.hasEqualMax ++ (sendBool f.openLeft ++
        (sendBool f.openRight ++ sendBool f.isNull)))))))))))

def loadFilter (limit : Nat) : Parser FilterSettings := do
  let attrName ← getString limit
  let type ← getEnum limit filterTypes .values
  let mvaFunc ← getEnum limit mvaFuncs .none
  let minValue ← getUint64 limit
  let maxValue ← getUint64 limit
  let values ← getList limit (getUint64 limit)
  let strings ← getList limit (getString limit)
  let exclude ← getBool limit
  let hasEqualMin ← getBool limit
  let hasEqualMax ← getBool limit
  let openLeft ← getBool limit
  let openRight ← getBool limit
  let isNull ← getBool limit
  pure { attrName := attrName, type, mvaFunc, minValue, maxValue, values, strings, exclude, hasEqualMin, hasEqualMax, openLeft,
         openRight, isNull }

/-- An item of the filter tree in memory: three indexes, a flag and three bytes of padding. -/
def putItem (item : FilterTreeItem) : List UInt8 :=
  putLE 4 (item.left.getD (2 ^ 32 - 1)) ++ (putLE 4 (item.right.getD (2 ^ 32 - 1)) ++
    (putLE 4 (item.filterItem.getD (2 ^ 32 - 1)) ++ [if item.or then 1 else 0, 0, 0, 0]))

def getIndex (bs : List UInt8) : Option Nat := if valLE bs < 2 ^ 31 then some (valLE bs) else none

def getItem (bs : List UInt8) : FilterTreeItem :=
  ⟨getIndex (bs.take 4), getIndex ((bs.drop 4).take 4), getIndex (((bs.drop 4).drop 4).take 4),
    (((bs.drop 4).drop 4).drop 4).headD 0 != 0⟩

/-- `ShardDeletePredicate_t`. -/
structure DeletePredicate where
  query : Str
  filters : List FilterSettings
  filterTree : List FilterTreeItem
  queryType : QueryType := .sql

/-- `SaveShardDeletePredicate`, `SaveUpdate`. -/
def saveShardDeletePredicate (p : DeletePredicate) : List UInt8 :=
  sendString p.query ++ (sendShardArray saveFilter p.filters ++ (sendShardArray putItem p.filterTree ++
    sendEnum queryTypes p.queryType))

/-- `LoadShardDeletePredicate`, `LoadUpdate`. -/
def loadShardDeletePredicate (limit : Nat) : Parser DeletePredicate := do
  let query ← getString limit
  let filters ← getList limit (loadFilter limit)
  let filterTree ← receiveShardArray limit 16 getItem
  let queryType ← getEnum limit queryTypes .api
  pure { query := query, filters, filterTree, queryType }

/-! ## What arrives -/

/-- A string that one packet can hold. -/
def Sendable (limit : Nat) (s : Str) : Prop := s.length ≤ limit ∧ 0 ∉ s

/-- Strings, counts and indexes are in the range of their types. -/
structure DeletePredicate.Fits (limit : Nat) (p : DeletePredicate) : Prop where
  query : Sendable limit p.query
  filters : p.filters.length < 2 ^ 31
  filter : ∀ f ∈ p.filters, Sendable limit f.attrName ∧ f.getValues.length < 2 ^ 31 ∧ f.strings.length < 2 ^ 31 ∧
    ∀ s ∈ f.strings, Sendable limit s
  tree : p.filterTree.length * 16 ≤ limit
  item : ∀ item ∈ p.filterTree, ∀ i, item.left = some i ∨ item.right = some i ∨ item.filterItem = some i → i < 2 ^ 31

/-- The filter that arrives. -/
def received (f : FilterSettings) : FilterSettings :=
  { f with strCmpDir := .eq, optional := false, values := f.getValues, extValues := [] }

section
variable {limit : Nat} (hl : 4 ≤ limit)
include hl

theorem reads_getDword (n : Nat) : Reads (getDword limit) (sendDword n) (n % 2 ^ 32) := by
  have hlen : (sendDword n).length = 4 := by rw [sendDword, length_reverse, length_putLE]
  have hb := reads_getBytes limit (sendDword n) (by omega)
  rw [hlen] at hb
  have h := hb.map (f := fun raw => valLE raw.reverse)
  rw [sendDword, reverse_reverse, valLE_putLE] at h
  exact h

theorem reads_getUint64 (v : Attr) : Reads (getUint64 limit) (sendUint64 v) v := by
  have h := (reads_getDword hl (v.toNat / 2 ^ 32)).bind (q := fun hi => do
    let lo ← getDword limit
    pure (BitVec.ofNat 64 (hi * 2 ^ 32 + lo))) (reads_getDword hl v.toNat).map
  have hv : BitVec.ofNat 64 (v.toNat / 2 ^ 32 % 2 ^ 32 * 2 ^ 32 + v.toNat % 2 ^ 32) = v := by
    have := v.isLt
    rw [Nat.mod_eq_of_lt (by omega), Nat.div_add_mod', BitVec.ofNat_toNat, BitVec.setWidth_eq]
  rw [hv] at h
  exact h

theorem reads_getEnum {α : Type} [BEq α] [LawfulBEq α] {all : List α} (hall : all.length < 2 ^ 32) (dflt : α) {a : α}
    (ha : a ∈ all) : Reads (getEnum limit all dflt) (sendEnum all a) a := by
  have hlt := idxOf_lt_length_iff.mpr ha
  have h := (reads_getDword hl (all.idxOf a)).map (f := fun n => all.getD n dflt)
  rw [Nat.mod_eq_of_lt (by omega), getD_eq_getElem _ _ hlt, getElem_idxOf] at h
  exact h

theorem reads_getString (hmax : limit < 2 ^ 31) {s : Str} (hs : Sendable limit s) : Reads (getString limit) (sendString s) s := by
  have hall : s.takeWhile (· ≠ 0) = s := takeWhile_eq_self_iff.mpr fun b hb => decide_eq_true fun h => hs.2 (h ▸ hb)
  rw [sendString, hall]
  exact (reads_count hl (lt_of_le_of_lt hs.1 hmax)).bind (reads_getBytes limit s hs.1)

theorem reads_getBool (b : Bool) : Reads (getBool limit) (sendBool b) b := by
  have h := (reads_getByte limit (by omega) (if b then 1 else 0)).map (f := fun b => b != 0)
  cases b <;> exact h

theorem reads_getList {α β : Type} {get : Parser β} {put : α → List UInt8} {g : α → β} {l : List α}
    (hlen : l.length < 2 ^ 31) (h : ∀ a ∈ l, Reads get (put a) (g a)) : Reads (getList limit get) (sendShardArray put l) (l.map g) := by
  refine (reads_count hl hlen).bind ?_
  rw [if_neg (by omega), Int.toNat_natCast]
  clear hlen
  induction l with
  | nil => exact Reads.pure []
  | cons a l ih =>
    rw [flatMap_cons]
    exact (h a mem_cons_self).bind (ih (forall_mem_cons.mp h).2).map

theorem reads_loadFilter (hmax : limit < 2 ^ 31) {f : FilterSettings} (hname : Sendable limit f.attrName)
    (hvalues : f.getValues.length < 2 ^ 31) (hstrings : f.strings.length < 2 ^ 31) (hs : ∀ s ∈ f.strings, Sendable limit s) :
    Reads (loadFilter limit) (saveFilter f) (received f) := by
  refine (reads_getString hl hmax hname).bind ?_
  refine (reads_getEnum hl (by decide) _ (by cases f.type <;> decide)).bind ?_
  refine (reads_getEnum hl (by decide) _ (by cases f.mvaFunc <;> decide)).bind ?_
  refine (reads_getUint64 hl _).bind ((reads_getUint64 hl _).bind ?_)
  refine (reads_getList hl (g := id) hvalues fun v _ => reads_getUint64 hl v).bind ?_
  refine (reads_getList hl (g := id) hstrings fun s h => reads_getString hl hmax (hs s h)).bind ?_
  refine (reads_getBool hl _).bind ((reads_getBool hl _).bind ((reads_getBool hl _).bind ?_))
  refine (reads_getBool hl _).bind ((reads_getBool hl _).bind ?_)
  have h := (reads_getBool hl f.isNull).map (f := fun isNull => { received f with isNull })
  simp only [map_id]
  exact h

end

theorem getItem_putItem {item : FilterTreeItem}
    (h : ∀ i, item.left = some i ∨ item.right = some i ∨ item.filterItem = some i → i < 2 ^ 31) :
    getItem (putItem item) = item := by
  have hindex : ∀ o : Option Nat, (∀ i, o = some i → i < 2 ^ 31) → getIndex (putLE 4 (o.getD (2 ^ 32 - 1))) = o := by
    intro o ho
    rw [getIndex, valLE_putLE]
    cases o with
    | none => rfl
    | some i =>
      have := ho i rfl
      rw [Option.getD_some, Nat.mod_eq_of_lt (by omega), if_pos this]
  have h4 : ∀ v, (putLE 4 v).length = 4 := length_putLE 4
  have hor : ((if item.or then 1 else 0 : UInt8) != 0) = item.or := by cases item.or <;> rfl
  simp only [getItem, putItem, take_left' (h4 _), drop_left' (h4 _), headD_cons, hor]
  rw [hindex _ fun i hi => h i (.inl hi), hindex _ fun i hi => h i (.inr (.inl hi)), hindex _ fun i hi => h i (.inr (.inr hi))]

/-- The filters that arrive equal, in the sense of `operator ==`. -/
def Carried (f : FilterSettings) : Prop :=
  f.optional = false ∧ f.strCmpDir = .eq ∧ (f.type = .values → f.values = f.getValues) ∧
    (f.type = .floatRange → floatEq f.minValue f.minValue = true ∧ floatEq f.maxValue f.maxValue = true)

theorem filterEq_received (f : FilterSettings) : filterEq f (received f) = true ↔ Carried f := by
  unfold filterEq received Carried
  cases f.type <;> simp [and_assoc]

/-- **What arrives.**  The query, its type and the filter tree arrive as they were sent; the filters arrive equal if and only
if none of them is optional or compares strings for another order than equality, and none is unequal to itself. -/
theorem loadShardDeletePredicate_iff {limit : Nat} (hl : 4 ≤ limit) (hmax : limit < 2 ^ 31) {p : DeletePredicate}
    (hp : p.Fits limit) :
    ∃ p', loadShardDeletePredicate limit (saveShardDeletePredicate p) = some (p', []) ∧ p'.query = p.query ∧
      p'.filterTree = p.filterTree ∧ p'.queryType = p.queryType ∧
      (List.Forall₂ (fun f g => filterEq f g = true) p.filters p'.filters ↔ ∀ f ∈ p.filters, Carried f) := by
  have hread : Reads (loadShardDeletePredicate limit) (saveShardDeletePredicate p)
      { p with filters := p.filters.map received } := by
    refine (reads_getString hl hmax hp.query).bind ?_
    refine (reads_getList hl (g := received) hp.filters fun f hf => ?_).bind ?_
    · obtain ⟨hname, hvalues, hstrings, hs⟩ := hp.filter f hf
      exact reads_loadFilter hl hmax hname hvalues hstrings hs
    · have hlen : ∀ item, (putItem item).length = 16 := fun _ => by simp [putItem]
      refine (reads_receiveShardArray hl hmax (by decide) hlen (fun a ha => getItem_putItem (hp.item a ha)) hp.tree).bind ?_
      exact (reads_getEnum hl (by decide) _ (by cases p.queryType <;> decide)).map
  have h := hread []
  rw [append_nil] at h
  refine ⟨_, h, rfl, rfl, rfl, ?_⟩
  rw [forall₂_map_right_iff, forall₂_same]
  exact forall₂_congr fun f _ => filterEq_received f

/-- `id = 5`. -/
def idIsFive : FilterSettings := { attrName := [105, 100], values := [5] }

/-- `name IN ('a', 'b')`. -/
def nameIsAOrB : FilterSettings := { attrName := [110, 97, 109, 101], type := .stringList, strings := [[97], [98]] }

/-- `id = 5 OR name IN ('a', 'b')`: the two filters are the leaves of a tree. -/
theorem loadShardDeletePredicate_iff_idOrName :
    let tree : List FilterTreeItem := [⟨none, none, some 0, false⟩, ⟨none, none, some 1, false⟩, ⟨some 0, some 1, none, true⟩]
    ∃ p', loadShardDeletePredicate 8388608 (saveShardDeletePredicate ⟨[97], [idIsFive, nameIsAOrB], tree, .sql⟩) = some (p', []) ∧
      p'.filterTree = tree ∧ List.Forall₂ (fun f g => filterEq f g = true) [idIsFive, nameIsAOrB] p'.filters := by
  intro tree
  have hfit : DeletePredicate.Fits 8388608 ⟨[97], [idIsFive, nameIsAOrB], tree, .sql⟩ :=
    { query := ⟨by decide, by decide⟩
      filters := by decide
      filter := forall_mem_cons.mpr ⟨⟨⟨by decide, by decide⟩, by decide, by decide, forall_mem_nil _⟩, forall_mem_singleton.mpr
        ⟨⟨by decide, by decide⟩, by decide, by decide, forall_mem_cons.mpr
          ⟨⟨by decide, by decide⟩, forall_mem_singleton.mpr ⟨by decide, by decide⟩⟩⟩⟩
      tree := by decide
      item := by
        simp only [tree, forall_mem_cons, Option.some.injEq, reduceCtorEq, false_or, or_false]
        exact ⟨by omega, by omega, by omega, forall_mem_nil _⟩ }
  obtain ⟨p', hload, -, htree, -, hiff⟩ := loadShardDeletePredicate_iff (by decide) (by decide) hfit
  refine ⟨p', hload, htree, hiff.mpr (forall_mem_cons.mpr ⟨⟨rfl, rfl, fun _ => rfl, fun h => by cases h⟩, ?_⟩)⟩
  exact forall_mem_singleton.mpr ⟨rfl, rfl, (nomatch ·), (nomatch ·)⟩

/-- `name > 'a'` arrives as `name = 'a'`. -/
theorem string_comparison_lost :
    let above : FilterSettings := { attrName := [110, 97, 109, 101], type := .string, strCmpDir := .gt, strings := [[97]] }
    (loadShardDeletePredicate 8388608 (saveShardDeletePredicate ⟨[], [above], [], .sql⟩)).map (fun r => r.1.filters) =
      some [{ above with strCmpDir := .eq }] ∧ filterEq above { above with strCmpDir := .eq } = false := by
  decide +kernel

end Shard
end Manticore

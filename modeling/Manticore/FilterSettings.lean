import Manticore.Wildcard
/-!
# FilterSettings — the filters of a query (`CSphFilterSettings`, `FilterTreeItem_t`)

A query carries a list of filters and, when they are not simply all required, a filter tree: an array whose leaves
point at filters and whose last item is the root.
-/
namespace Manticore
namespace Filters

/-- `ESphFilter`. -/
inductive FilterType
  | values | range | floatRange | string | null | userVar | stringList | expression
  deriving DecidableEq, Repr

/-- `ESphMvaFunc`. -/
inductive MvaFunc
  | none | any | all
  deriving DecidableEq, Repr

/-- `EStrCmpDir`. -/
inductive StrCmpDir
  | eq | lt | gt
  deriving DecidableEq, Repr

/-- `SphAttr_t`, an attribute value of 64 bits. -/
abbrev Attr := BitVec 64

/-- `CSphFilterSettings`.  The two ends of a range are unions of an integer and a float; they are kept as bits. -/
structure FilterSettings where
  attrName : Str
  type : FilterType := .values
  minValue : Attr := BitVec.intMin 64
  maxValue : Attr := BitVec.intMax 64
  hasEqualMin : Bool := true
  hasEqualMax : Bool := true
  openLeft : Bool := false
  openRight : Bool := false
  exclude : Bool := false
  strCmpDir : StrCmpDir := .eq
  isNull : Bool := false
  optional : Bool := false
  mvaFunc : MvaFunc := .none
  values : List Attr := []
  strings : List Str := []
  extValues : List Attr := []
  deriving DecidableEq

namespace FilterSettings

/-- `SetExternalValues`. -/
def setExternalValues (f : FilterSettings) (values : List Attr) : FilterSettings := { f with extValues := values }

/-- `GetValues`. -/
def getValues (f : FilterSettings) : List Attr := if f.extValues = [] then f.values else f.extValues

end FilterSettings

/-- `FilterTreeItem_t`; `none` stands for the index -1. -/
structure FilterTreeItem where
  left : Option Nat := none
  right : Option Nat := none
  filterItem : Option Nat := none
  or : Bool := false
  deriving DecidableEq

/-- What a filter tree stands for. -/
inductive Tree
  | leaf (filter : Nat)
  | node (or : Bool) (left right : Tree)
  deriving DecidableEq

namespace Tree

/-- The value of the tree, given the values of the filters its leaves point at. -/
def eval (value : Nat → Bool) : Tree → Bool
  | leaf i => value i
  | node true l r => l.eval value || r.eval value
  | node false l r => l.eval value && r.eval value

def height : Tree → Nat
  | leaf _ => 1
  | node _ l r => max l.height r.height + 1

def size : Tree → Nat
  | leaf _ => 1
  | node _ l r => l.size + r.size + 1

end Tree

/-- Item `i` of the array stands for a tree: a leaf points at one of the `n` filters, an inner node at its children. -/
inductive Represents (items : List FilterTreeItem) (n : Nat) : Nat → Tree → Prop
  | leaf {i k : Nat} (or : Bool) (h : items[i]? = some { filterItem := some k, or := or }) (hk : k < n) :
    Represents items n i (.leaf k)
  | node {i l r : Nat} {or : Bool} {tl tr : Tree}
    (h : items[i]? = some { left := some l, right := some r, or := or })
    (hl : Represents items n l tl) (hr : Represents items n r tr) :
    Represents items n i (.node or tl tr)

end Filters
end Manticore

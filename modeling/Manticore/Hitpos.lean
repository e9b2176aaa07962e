import Mathlib
/-!
# Hitpos — hit positions and field masks (`Hitman_c<8>`, `FieldMask_t`)

A hit position is a DWORD: eight bits of field, the field-end flag (bit 23) and 23 bits of position within the field.
`EMPTY_HIT` is 0.
-/
namespace Manticore

/-- `FieldMask_t`: eight DWORDs, one bit per field. -/
abbrev FieldMask := BitVec 256

namespace FieldMask

def getMask32 (m : FieldMask) : BitVec 32 := m.setWidth 32

/-- `Assign32`: the low DWORD is set, the others are cleared. -/
def assign32 (v : BitVec 32) : FieldMask := v.setWidth 256

def set (m : FieldMask) (field : Nat) : FieldMask := m ||| (1#256 <<< field)

end FieldMask

namespace Hitman

def EMPTY_HIT : Nat := 0

def getField (h : Nat) : Nat := h / 2 ^ 24

def getPos (h : Nat) : Nat := h % 2 ^ 23

def isEnd (h : Nat) : Bool := h / 2 ^ 23 % 2 = 1

/-- `uHitpos & ~FIELDEND_MASK` -/
def getPosWithField (h : Nat) : Nat := h / 2 ^ 24 * 2 ^ 24 + h % 2 ^ 23

@[simp] theorem getField_getPosWithField (h : Nat) : getField (getPosWithField h) = getField h := by
  unfold getField getPosWithField
  omega

end Hitman
end Manticore

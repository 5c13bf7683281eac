import Mathlib.Data.List.Lex
import Mathlib.Order.Lattice

/-!
# Byte strings

Keys, values and message texts are `std::string`s: byte strings without a length limit of their
own. `std::string::operator<` and LevelDB's default comparator both compare bytes as unsigned
numbers, lexicographically, which is the list order of `List UInt8`.
-/

namespace LeveldbDaemon

/-- Bytes in the order of their unsigned values. -/
instance instLinearOrderByte : LinearOrder UInt8 where
  le_refl := UInt8.le_refl
  le_trans _ _ _ := UInt8.le_trans
  le_antisymm _ _ := UInt8.le_antisymm
  le_total := UInt8.le_total
  lt_iff_le_not_ge a b := by
    simp only [UInt8.lt_iff_toNat_lt, UInt8.le_iff_toNat_le]
    omega
  toDecidableLE := inferInstance
  toDecidableLT := inferInstance
  toDecidableEq := inferInstance

/-- A `std::string`. -/
abbrev Bytes := List UInt8

/-- One order on byte strings: core's list instances are definitionally the same, but `simp`
would see two relations. -/
instance (priority := 2000) : LT Bytes := Preorder.toLT
instance (priority := 2000) : LE Bytes := Preorder.toLE
instance (priority := 2000) : DecidableLT Bytes := LinearOrder.toDecidableLT
instance (priority := 2000) : DecidableLE Bytes := LinearOrder.toDecidableLE

instance : LawfulBEq Bytes := List.instLawfulBEq

instance lawfulBEq_byte : LawfulBEq UInt8 := inferInstance

/-- No string is below the empty one. -/
theorem nil_le (b : Bytes) : [] ≤ b := not_lt.1 (List.not_lt_nil b)

/-- The bytes of an ASCII literal. -/
def ascii (s : String) : Bytes := s.toList.map Char.toUInt8

end LeveldbDaemon

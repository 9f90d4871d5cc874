import Mathlib.Data.BitVec

/-!
# Machine words

What the 64-bit words of two's complement come to as numbers: alignment to eight,
sums and comparisons that stay in the signed range, and those that leave it.
-/

namespace IdCompiler.Core

/-- A machine word, read signed. -/
abbrev Word := BitVec 64

namespace Word

variable {x y : Word}

theorem toInt_lt (x : Word) : x.toInt < 2 ^ 63 := BitVec.toInt_lt

theorem le_toInt (x : Word) : -2 ^ 63 ≤ x.toInt := BitVec.le_toInt x

/-- A word below the sign bit is the same number read either way. -/
theorem toInt_eq_toNat (h : x.toNat < 2 ^ 63) : x.toInt = x.toNat :=
  BitVec.toInt_eq_toNat_of_lt (by omega)

/-- A sum inside the signed range is exact. -/
theorem toInt_add_exact (h : -2 ^ 63 ≤ x.toInt + y.toInt) (h' : x.toInt + y.toInt < 2 ^ 63) :
    (x + y).toInt = x.toInt + y.toInt := by
  rw [BitVec.toInt_add]
  exact Int.bmod_eq_of_le (by omega) (by omega)

/-- A sum past the largest word comes back at the other end. -/
theorem toInt_add_over (h : 2 ^ 63 ≤ x.toInt + y.toInt) :
    (x + y).toInt = x.toInt + y.toInt - 2 ^ 64 := by
  have hx := toInt_lt x
  have hy := toInt_lt y
  rw [BitVec.toInt_add, ← Int.sub_bmod_right]
  exact Int.bmod_eq_of_le (by omega) (by omega)

/-- A sum of addresses that stays below the top is exact. -/
theorem toNat_add_exact (h : x.toNat + y.toNat < 2 ^ 64) :
    (x + y).toNat = x.toNat + y.toNat := by
  rw [BitVec.toNat_add, Nat.mod_eq_of_lt h]

/-- The last three bits masked off. -/
theorem toNat_and_align (x : Word) : (x &&& ~~~7#64).toNat = x.toNat / 8 * 8 := by
  have hmask : (~~~7#64 : Word) = ((~~~0#61).setWidth 64) <<< 3 := by decide
  have hshift : x &&& ~~~7#64 = (x >>> 3) <<< 3 := by
    apply BitVec.eq_of_getLsbD_eq
    intro i hi
    simp only [hmask, BitVec.getLsbD_and, BitVec.getLsbD_shiftLeft, BitVec.getLsbD_setWidth,
      BitVec.getLsbD_not, BitVec.getLsbD_zero, BitVec.getLsbD_ushiftRight]
    by_cases h3 : i < 3
    · simp [h3]
    · have hback : 3 + (i - 3) = i := by omega
      have hlow : i - 3 < 61 := by omega
      simp [h3, hback, hlow, hi, show i - 3 < 64 by omega]
  rw [hshift, BitVec.toNat_shiftLeft, BitVec.toNat_ushiftRight, Nat.shiftLeft_eq,
    Nat.shiftRight_eq_div_pow]
  have := x.isLt
  exact Nat.mod_eq_of_lt (by omega)

end Word

end IdCompiler.Core

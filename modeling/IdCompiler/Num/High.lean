import IdCompiler.Num.Words
import Mathlib.Tactic.Ring
import Mathlib.Tactic.Linarith

/-!
# The high half of a product

Four products of halves, none of which wraps, and the carry out of the middle column.
-/

namespace IdCompiler.Num

/-- `wh_mid`: what the low column carries, and the low halves of the two in the middle. -/
def whMid (a v whLh whHl : Word) : Word :=
  ushr ((a &&& 4294967295) * (v &&& 4294967295)) 32 + (whLh &&& 4294967295) +
    (whHl &&& 4294967295)

def umulHi (a v : Word) : Word :=
  let whLh := (a &&& 4294967295) * ushr v 32
  let whHl := ushr a 32 * (v &&& 4294967295)
  ushr a 32 * ushr v 32 + ushr whLh 32 + ushr whHl 32 + ushr (whMid a v whLh whHl) 32

/-- The mask keeps the low half. -/
theorem toNat_low (a : Word) : (a &&& 4294967295).toNat = a.toNat % 2 ^ 32 := by
  have hmask : (4294967295 : Word).toNat = 2 ^ 32 - 1 := rfl
  rw [BitVec.toNat_and, hmask, Nat.and_two_pow_sub_one_eq_mod]

theorem toNat_high (a : Word) : (ushr a 32).toNat = a.toNat / 2 ^ 32 := toNat_ushr a 32

/-- A product of halves is a word. -/
theorem half_mul_le {x y : Nat} (hx : x < 2 ^ 32) (hy : y < 2 ^ 32) :
    x * y ≤ (2 ^ 32 - 1) * (2 ^ 32 - 1) :=
  Nat.mul_le_mul (Nat.le_pred_of_lt hx) (Nat.le_pred_of_lt hy)

theorem toNat_mul_half {x y : Word} (hx : x.toNat < 2 ^ 32) (hy : y.toNat < 2 ^ 32) :
    (x * y).toNat = x.toNat * y.toNat := by
  have hle := half_mul_le hx hy
  rw [BitVec.toNat_mul, Nat.mod_eq_of_lt (by omega)]

theorem toNat_add_of_lt {x y : Word} (h : x.toNat + y.toNat < 2 ^ 64) :
    (x + y).toNat = x.toNat + y.toNat := by
  rw [BitVec.toNat_add, Nat.mod_eq_of_lt h]

theorem low_lt (a : Word) : (a &&& 4294967295).toNat < 2 ^ 32 := by
  rw [toNat_low]
  exact Nat.mod_lt _ (by decide)

theorem high_lt (a : Word) : (ushr a 32).toNat < 2 ^ 32 := by
  have hlt := a.isLt
  rw [toNat_high]
  omega

/-- No carry of the middle column is lost. -/
theorem toNat_whMid (a v lh hl : Word) :
    (whMid a v lh hl).toNat = (a &&& 4294967295).toNat * (v &&& 4294967295).toNat / 2 ^ 32 +
      lh.toNat % 2 ^ 32 + hl.toNat % 2 ^ 32 := by
  have hlow := half_mul_le (low_lt a) (low_lt v)
  have hprod : (ushr ((a &&& 4294967295) * (v &&& 4294967295)) 32).toNat =
      (a &&& 4294967295).toNat * (v &&& 4294967295).toNat / 2 ^ 32 := by
    rw [toNat_high, toNat_mul_half (low_lt a) (low_lt v)]
  have hsum : (ushr ((a &&& 4294967295) * (v &&& 4294967295)) 32 + (lh &&& 4294967295)).toNat =
      (a &&& 4294967295).toNat * (v &&& 4294967295).toNat / 2 ^ 32 + lh.toNat % 2 ^ 32 := by
    rw [toNat_add_of_lt (by rw [hprod, toNat_low lh]; omega), hprod, toNat_low lh]
  rw [whMid, toNat_add_of_lt (by rw [hsum, toNat_low hl]; omega), hsum, toNat_low hl]

/-- The columns of a product in the base 2^32. -/
theorem columns (p q r s : Nat) :
    (p * 2 ^ 32 + q) * (r * 2 ^ 32 + s) / 2 ^ 64 =
      p * r + q * r / 2 ^ 32 + p * s / 2 ^ 32 +
        (q * s / 2 ^ 32 + q * r % 2 ^ 32 + p * s % 2 ^ 32) / 2 ^ 32 := by
  have hsplit : (p * 2 ^ 32 + q) * (r * 2 ^ 32 + s) =
      p * r * 2 ^ 64 + (q * r + p * s) * 2 ^ 32 + q * s := by ring
  rw [hsplit]
  generalize p * r = hh, q * r = lh, p * s = hl, q * s = ll at *
  omega

/-- `umul_hi` is the quotient of the exact product by 2^64. -/
theorem umulHi_quotient (a v : Word) : (umulHi a v).toNat = a.toNat * v.toNat / 2 ^ 64 := by
  have hlh := toNat_mul_half (low_lt a) (high_lt v)
  have hhl := toNat_mul_half (high_lt a) (low_lt v)
  have hhh := toNat_mul_half (high_lt a) (high_lt v)
  have hmid := toNat_whMid a v ((a &&& 4294967295) * ushr v 32) (ushr a 32 * (v &&& 4294967295))
  rw [hlh, hhl] at hmid
  have hlh' := toNat_high ((a &&& 4294967295) * ushr v 32)
  have hhl' := toNat_high (ushr a 32 * (v &&& 4294967295))
  have hmid' := toNat_high (whMid a v ((a &&& 4294967295) * ushr v 32) (ushr a 32 * (v &&& 4294967295)))
  rw [hlh] at hlh'
  rw [hhl] at hhl'
  rw [hmid] at hmid'
  have hsa : a.toNat = (ushr a 32).toNat * 2 ^ 32 + (a &&& 4294967295).toNat := by
    rw [toNat_high, toNat_low]
    omega
  have hsv : v.toNat = (ushr v 32).toNat * 2 ^ 32 + (v &&& 4294967295).toNat := by
    rw [toNat_high, toNat_low]
    omega
  have hquot := columns (ushr a 32).toNat (a &&& 4294967295).toNat (ushr v 32).toNat
    (v &&& 4294967295).toNat
  rw [← hsa, ← hsv] at hquot
  have hlt : a.toNat * v.toNat / 2 ^ 64 < 2 ^ 64 :=
    Nat.div_lt_of_lt_mul (Nat.mul_lt_mul'' a.isLt v.isLt)
  rw [umulHi]
  simp only [BitVec.toNat_add, hhh, hlh', hhl', hmid']
  omega

end IdCompiler.Num

import Mathlib.Algebra.Order.Field.Power
import Mathlib.Data.Nat.Digits.Lemmas

/-!
# Positional values

The number that digits read as, the first one the most significant. Numbers of
equal lengths compare as their digits do at the first difference. With the point
before the first digit, the power of the base decides how large a number is, and
comparing it with an integer takes as many digits as the integer has.
-/

namespace IdCompiler.Core

/-- The number that digits of a base read as. -/
def readDigits (b : Nat) (ds : List Nat) : Nat := Nat.ofDigits b ds.reverse

variable {b d e n : Nat} {ds es : List Nat}

theorem readDigits_nil : readDigits b [] = 0 := rfl

theorem readDigits_cons : readDigits b (d :: ds) = d * b ^ ds.length + readDigits b ds := by
  rw [readDigits, List.reverse_cons, Nat.ofDigits_append, Nat.ofDigits_singleton, List.length_reverse, Nat.add_comm,
    Nat.mul_comm, readDigits]

theorem readDigits_concat : readDigits b (ds ++ [d]) = readDigits b ds * b + d := by
  rw [readDigits, List.reverse_append, List.reverse_singleton, List.singleton_append, Nat.ofDigits_cons, Nat.add_comm,
    Nat.mul_comm, readDigits]

theorem readDigits_zeros : readDigits b (List.replicate n 0 ++ ds) = readDigits b ds := by
  induction n with
  | zero => rfl
  | succ n ih => rw [List.replicate_succ, List.cons_append, readDigits_cons, Nat.zero_mul, Nat.zero_add, ih]

theorem readDigits_lt (hb : 1 < b) (hds : ∀ d ∈ ds, d < b) : readDigits b ds < b ^ ds.length := by
  rw [← List.length_reverse]
  exact Nat.ofDigits_lt_base_pow_length hb fun d hd => hds d (List.mem_reverse.mp hd)

theorem le_readDigits (hd : d ≠ 0) : b ^ ds.length ≤ readDigits b (d :: ds) := by
  rw [readDigits_cons]
  calc b ^ ds.length ≤ d * b ^ ds.length := Nat.le_mul_of_pos_left _ (Nat.pos_of_ne_zero hd)
    _ ≤ d * b ^ ds.length + readDigits b ds := Nat.le_add_right _ _

/-- A smaller digit makes a smaller number, whatever follows. -/
theorem readDigits_cons_lt (hb : 1 < b) (hds : ∀ d ∈ ds, d < b) (hlen : ds.length = es.length) (hde : d < e) :
    readDigits b (d :: ds) < readDigits b (e :: es) := by
  rw [readDigits_cons, readDigits_cons, ← hlen]
  calc d * b ^ ds.length + readDigits b ds < d * b ^ ds.length + b ^ ds.length :=
        Nat.add_lt_add_left (readDigits_lt hb hds) _
    _ = (d + 1) * b ^ ds.length := (Nat.succ_mul _ _).symm
    _ ≤ e * b ^ ds.length := Nat.mul_le_mul_right _ hde
    _ ≤ e * b ^ ds.length + readDigits b es := Nat.le_add_right _ _

theorem readDigits_append : readDigits b (ds ++ es) = readDigits b ds * b ^ es.length + readDigits b es := by
  rw [readDigits, List.reverse_append, Nat.ofDigits_append, List.length_reverse, Nat.add_comm, Nat.mul_comm,
    readDigits, readDigits]

/-- Zeros at the end scale a number. -/
theorem readDigits_pad : readDigits b (ds ++ List.replicate n 0) = readDigits b ds * b ^ n := by
  have hzeros : readDigits b (List.replicate n 0 ++ []) = readDigits b [] := readDigits_zeros
  rw [List.append_nil, readDigits_nil] at hzeros
  rw [readDigits_append, hzeros, List.length_replicate, Nat.add_zero]

/-- Digits left out at the end are divided away. -/
theorem readDigits_take (hb : 1 < b) (hds : ∀ d ∈ ds, d < b) :
    readDigits b (ds.take n) = readDigits b ds / b ^ (ds.length - n) := by
  have hrest := readDigits_lt hb fun d hd => hds d (List.mem_of_mem_drop (i := n) hd)
  have hsplit : readDigits b (ds.take n ++ ds.drop n) =
      readDigits b (ds.take n) * b ^ (ds.drop n).length + readDigits b (ds.drop n) := readDigits_append
  rw [List.take_append_drop] at hsplit
  rw [List.length_drop] at hrest hsplit
  have hpos : 0 < b ^ (ds.length - n) := Nat.pow_pos (Nat.zero_lt_of_lt hb)
  rw [hsplit, Nat.add_comm, Nat.add_mul_div_right _ _ hpos, Nat.div_eq_of_lt hrest, Nat.zero_add]

/-! ## Scaled digits -/

section Scaled

variable {K : Type*} [Field K] [LinearOrder K] [IsStrictOrderedRing K] {p : ℤ} {w L : Nat}

/-- A first digit that counts, behind a point that falls `p` digits after it. -/
theorem pow_le_scaled (hb : 1 < b) (hd : d ≠ 0) :
    (b : K) ^ (p - 1) ≤ readDigits b (d :: ds) * (b : K) ^ (p - (d :: ds).length) := by
  have hpos : (0 : K) < b := by exact_mod_cast Nat.zero_lt_of_lt hb
  have hexp : p - 1 = ds.length + (p - (d :: ds).length) := by
    rw [List.length_cons]
    push_cast
    ring
  rw [hexp, zpow_add₀ hpos.ne', zpow_natCast]
  have hlow : ((b ^ ds.length : Nat) : K) ≤ readDigits b (d :: ds) := by exact_mod_cast le_readDigits hd
  rw [Nat.cast_pow] at hlow
  exact mul_le_mul_of_nonneg_right hlow (zpow_pos hpos _).le

theorem scaled_lt (hb : 1 < b) (hds : ∀ d ∈ ds, d < b) :
    readDigits b ds * (b : K) ^ (p - ds.length) < (b : K) ^ p := by
  have hpos : (0 : K) < b := by exact_mod_cast Nat.zero_lt_of_lt hb
  have hexp : p = ds.length + (p - ds.length) := by ring
  have hhigh : (readDigits b ds : K) < ((b ^ ds.length : Nat) : K) := by exact_mod_cast readDigits_lt hb hds
  rw [Nat.cast_pow] at hhigh
  conv_rhs => rw [hexp, zpow_add₀ hpos.ne', zpow_natCast]
  exact mul_lt_mul_of_pos_right hhigh (zpow_pos hpos _)

/-- With the point after the digit `w`, an integer is compared with the digits before it: they are cut there, or
padded. -/
theorem le_scaled_iff (hb : 1 < b) (hds : ∀ d ∈ ds, d < b) :
    (L : K) ≤ readDigits b ds * (b : K) ^ ((w : ℤ) - ds.length) ↔
      L ≤ readDigits b (ds.take w ++ List.replicate (w - ds.length) 0) := by
  have hpos : (0 : K) < b := by exact_mod_cast Nat.zero_lt_of_lt hb
  rcases le_total ds.length w with hle | hle
  · have hexp : (w : ℤ) - ds.length = ((w - ds.length : Nat) : ℤ) := (Nat.cast_sub hle).symm
    rw [readDigits_pad, List.take_of_length_le hle, hexp, zpow_natCast]
    norm_cast
  · have hexp : (w : ℤ) - ds.length = -((ds.length - w : Nat) : ℤ) := by
      rw [Nat.cast_sub hle]
      ring
    have hcut : 0 < b ^ (ds.length - w) := Nat.pow_pos (Nat.zero_lt_of_lt hb)
    rw [Nat.sub_eq_zero_of_le hle, List.replicate_zero, List.append_nil, readDigits_take hb hds,
      Nat.le_div_iff_mul_le hcut, hexp, zpow_neg, zpow_natCast, ← div_eq_mul_inv, le_div_iff₀ (pow_pos hpos _)]
    norm_cast

end Scaled

end IdCompiler.Core

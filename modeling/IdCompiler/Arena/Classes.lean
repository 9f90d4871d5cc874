import IdCompiler.Arena.Take
import Mathlib.Tactic.NormNum
import Mathlib.Data.Nat.Find

/-!
# The classes that blocks are computed to have

A capacity of `4 * 2 ^ k` cells has class `k + 1`, and that class hands out the bytes of
its cells. A string's class hands out at least its count, its bytes and its NUL.
-/

namespace IdCompiler.Arena

open IdCompiler.Core

theorem signed_small {w : Nat} (h : w < 2 ^ 63) : signed w = w := if_pos h

theorem double_pow (z i : Nat) : z * 2 * 2 ^ i = z * 2 ^ (i + 1) := by
  rw [Nat.mul_assoc, Nat.pow_succ']

/-- The loop ends at the first doubling that is large enough. -/
theorem poolClsLoop_eq {fuel z c t j : Nat} (hz : z * 2 ^ j < 2 ^ 62) (hfuel : j < fuel)
    (hgo : ∀ i < j, z * 2 ^ i < t) (hstop : t ≤ z * 2 ^ j) :
    poolClsLoop fuel z c t = some (c + j) := by
  induction j generalizing fuel z c with
  | zero =>
    obtain ⟨fuel, rfl⟩ : ∃ f, fuel = f + 1 := ⟨fuel - 1, by omega⟩
    rw [poolClsLoop, if_neg (by omega)]
    rfl
  | succ j ih =>
    obtain ⟨fuel, rfl⟩ : ∃ f, fuel = f + 1 := ⟨fuel - 1, by omega⟩
    have hfirst := hgo 0 (by omega)
    have hone : z * 2 ≤ z * 2 ^ (j + 1) :=
      Nat.mul_le_mul_left z (Nat.le_self_pow (by omega) 2)
    have hdouble : Int.bmod ((z : Int) * 2) (2 ^ 64) = ((z * 2 : Nat) : Int) := by
      rw [Int.bmod_eq_of_le (by omega) (by omega)]
      omega
    rw [poolClsLoop, if_pos (by omega), hdouble, ih (by rw [double_pow]; exact hz) (by omega)
      (fun i hi => by rw [double_pow]; exact hgo (i + 1) (by omega)) (by rw [double_pow]; exact hstop),
      Nat.add_assoc, Nat.add_comm 1 j]

/-- A size that is met at some doubling has a class, the first that meets it. -/
theorem poolCls_first {z c t k : Nat} (hz : z * 2 ^ k < 2 ^ 62) (hk : k < 64) (ht : t ≤ z * 2 ^ k) :
    ∃ j ≤ k, poolCls z c t = some (c + j) ∧ t ≤ z * 2 ^ j ∧ ∀ i < j, z * 2 ^ i < t := by
  classical
  have hex : ∃ j, t ≤ z * 2 ^ j := ⟨k, ht⟩
  have hle : Nat.find hex ≤ k := Nat.find_min' hex ht
  have hgo : ∀ i < Nat.find hex, z * 2 ^ i < t := fun i hi => Nat.lt_of_not_le (Nat.find_min hex hi)
  have hpow : z * 2 ^ Nat.find hex ≤ z * 2 ^ k :=
    Nat.mul_le_mul_left z (Nat.pow_le_pow_right (by decide) hle)
  exact ⟨Nat.find hex, hle, poolClsLoop_eq (by omega) (by omega) hgo (Nat.find_spec hex),
    Nat.find_spec hex, hgo⟩

/-! ## Capacities -/

/-- The bytes of a capacity. -/
theorem handOut_cells {lim k : Nat} (hk : k + 1 < lim) : handOut lim (k + 1) = 8 * (4 * 2 ^ k) := by
  rw [handOut, if_neg (by omega), if_pos hk, Nat.pow_succ]
  omega

theorem pow_cap_lt {k : Nat} (hk : k < 60) : 4 * 2 ^ k < 2 ^ 62 := by
  have := Nat.pow_lt_pow_right (a := 2) (by decide) hk
  omega

theorem poolCls_cap {k : Nat} (hk : k < 60) : poolCls 4 1 (signed (4 * 2 ^ k)) = some (k + 1) := by
  have hcap := pow_cap_lt hk
  rw [signed_small (by omega), poolCls, Nat.add_comm k 1]
  refine poolClsLoop_eq (z := 4) (by omega) (by omega) (fun i hi => ?_) (Nat.le_refl _)
  have := Nat.pow_lt_pow_right (a := 2) (by decide) hi
  omega

/-! ## Strings -/

theorem handOut_str (j : Nat) : handOut 36 (36 + j) = 16 * 2 ^ j := by
  rw [handOut, if_neg (by omega), if_neg (by omega), Nat.add_sub_cancel_left]

/-- A string's class, and that it has room for the string. -/
theorem poolCls_str {n : Nat} (hn : n ≤ strMax) :
    ∃ c, strClass n c ∧ n + 9 ≤ handOut 36 c := by
  have hmax := hn
  unfold strMax at hn
  obtain ⟨j, hj, hcls, hroom, -⟩ := poolCls_first (z := 16) (c := 36) (t := n + 9) (k := 43)
    (by norm_num) (by decide) (by omega)
  refine ⟨36 + j, ⟨hmax, by omega, by omega, ?_⟩, by rw [handOut_str]; exact hroom⟩
  rw [Nat.cast_add] at hcls
  exact hcls

/-- A class with room. -/
theorem strClass.room {n c : Nat} (h : strClass n c) : n + 9 ≤ handOut 36 c := by
  obtain ⟨d, hd, hroom⟩ := poolCls_str h.1
  have heq : c = d := Option.some.inj (h.2.2.2.symm.trans hd.2.2.2)
  rwa [heq]

theorem strCszLoop_eq {i z : Nat} (h : z * 2 ^ i < 2 ^ 64) : strCszLoop i z = z * 2 ^ i := by
  induction i generalizing z with
  | zero => rw [strCszLoop, Nat.pow_zero, Nat.mul_one]
  | succ i ih =>
    have hone : z * 2 ≤ z * 2 ^ (i + 1) := Nat.mul_le_mul_left z (Nat.le_self_pow (by omega) 2)
    rw [strCszLoop, Nat.mod_eq_of_lt (by omega), ih (by rw [double_pow]; exact h), double_pow]

/-- The size asked for is what the class hands out. -/
theorem strCsz_eq {c : Nat} (hge : 36 ≤ c) (hlt : c < 80) : strCsz c = handOut 36 c := by
  obtain ⟨j, rfl⟩ := Nat.exists_eq_add_of_le hge
  have hpow := Nat.pow_le_pow_right (n := 2) (by decide) (show j ≤ 43 by omega)
  rw [handOut_str, strCsz, Nat.add_sub_cancel_left]
  exact strCszLoop_eq (by omega)

end IdCompiler.Arena

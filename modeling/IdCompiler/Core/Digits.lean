import Mathlib.Data.Nat.Digits.Lemmas

/-!
# Decimal digits

The digits of a number from the first to the last, and the number they read as.
-/

namespace IdCompiler.Core

/-- The digits of a number, the first one not 0 unless it is alone. -/
def natDigits (n : Nat) : List Nat := if n = 0 then [0] else (Nat.digits 10 n).reverse

variable {n d : Nat}

theorem natDigits_lt (hd : d ∈ natDigits n) : d < 10 := by
  unfold natDigits at hd
  split at hd
  · rw [List.mem_singleton.mp hd]
    decide
  · exact Nat.digits_lt_base (by decide) (List.mem_reverse.mp hd)

theorem natDigits_ne_nil : natDigits n ≠ [] := by
  unfold natDigits
  split
  · decide
  · next hn => exact fun h => hn (Nat.digits_eq_nil_iff_eq_zero.mp (List.reverse_eq_nil_iff.mp h))

theorem natDigits_of_lt (hn : n < 10) : natDigits n = [n] := by
  unfold natDigits
  split
  · next h => rw [h]
  · next h =>
    rw [Nat.digits_of_lt 10 n h hn]
    rfl

/-- Each digit continues the number that the ones before it read as. -/
theorem foldl_natDigits : (natDigits n).foldl (fun c d => c * 10 + d) 0 = n := by
  unfold natDigits
  split
  · next hn =>
    rw [hn]
    rfl
  · calc (Nat.digits 10 n).reverse.foldl (fun c d => c * 10 + d) 0
        = (Nat.digits 10 n).foldr (fun d c => d + 10 * c) 0 := by
          rw [List.foldl_reverse]
          congr 1
          funext d c
          omega
      _ = Nat.ofDigits 10 (Nat.digits 10 n) := (Nat.ofDigits_eq_foldr 10 _).symm
      _ = n := Nat.ofDigits_digits 10 n

end IdCompiler.Core

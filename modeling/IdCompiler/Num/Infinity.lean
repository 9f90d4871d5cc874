import Mathlib.Algebra.Order.Ring.Rat
import Mathlib.Tactic.Linarith
import Mathlib.Tactic.NormNum
import Mathlib.Tactic.Ring
import IdCompiler.Num.FloatLit

/-!
# Numbers that round to infinity

The largest float and the power of two beyond it are compared with on digits: where the
point falls decides, and at the limit's width the digits do, cut or padded.
-/

namespace IdCompiler.Num

open IdCompiler.Core IdCompiler.Source IdCompiler.Lexer IdCompiler.Tokens

variable {s ds : Text} {c : Nat} {p : ℤ}

/-! ## Rounding -/

/-- The largest finite float. -/
def maxFinite : ℚ := (2 ^ 53 - 1) * 2 ^ 971

/-- Rounding to nearest goes to the power of two beyond the floats; that one is even, so a tie goes there. -/
def Overflows (v : ℚ) : Prop := |2 ^ 1024 - v| ≤ |v - maxFinite|

/-- A number is at least as near to the upper of two as to the lower from their middle on. -/
theorem nearer_iff {lo hi v : ℚ} (h : lo < hi) : |hi - v| ≤ |v - lo| ↔ lo + hi ≤ 2 * v := by
  rw [← sq_le_sq]
  constructor
  · intro hle
    nlinarith
  · intro hle
    nlinarith

/-- The middle, as an integer of 309 digits. -/
theorem fltInfDigits_spec : valueOf fltInfDigits + 2 ^ 970 = 2 ^ 1024 ∧ fltInfDigits.length = fltInfPt ∧
    ∀ c ∈ fltInfDigits, 48 ≤ c ∧ c ≤ 57 := by decide +kernel

theorem overflows_iff (v : ℚ) : Overflows v ↔ (valueOf fltInfDigits : ℚ) ≤ v := by
  have hpos : (0 : ℚ) < 2 ^ 970 := pow_pos (by decide) 970
  have htop : (2 : ℚ) ^ 1024 = 18014398509481984 * 2 ^ 970 := by
    rw [pow_add 2 54 970]
    norm_num only
  have hmax : maxFinite = 9007199254740991 * (2 ^ 970 * 2) := by
    rw [maxFinite, pow_succ 2 970]
    norm_num only
  have hlimit : (valueOf fltInfDigits : ℚ) + 2 ^ 970 = 2 ^ 1024 := by
    have h := congrArg (Nat.cast : Nat → ℚ) fltInfDigits_spec.1
    rwa [Nat.cast_add, Nat.cast_pow, Nat.cast_pow, Nat.cast_ofNat] at h
  rw [htop] at hlimit
  generalize (2 : ℚ) ^ 970 = x at hpos htop hmax hlimit
  rw [Overflows, htop, hmax, nearer_iff (by linarith only [hpos])]
  constructor <;> intro h <;> linarith only [h, hlimit]

instance (v : ℚ) : Decidable (Overflows v) := decidable_of_iff _ (overflows_iff v).symm

/-! ## The digits compared -/

theorem fltHead_eq (w : Nat) : fltHead ds w = .ok (ds.take w ++ List.replicate (w - ds.length) 48) := by
  have hzeros : ∀ n, stringRepeat (spell "0") n = List.replicate n 48 := fun n => by
    rw [stringRepeat, show spell "0" = [48] from rfl, List.flatten_replicate_singleton]
  have hmin : w - min ds.length w = w - ds.length := by omega
  have htake : ds.take (min ds.length w) = ds.take w := by
    rw [Nat.min_comm, ← List.take_take, List.take_length]
  rw [fltHead, strSub, if_neg (by omega), List.drop_zero, hzeros, hmin, htake]
  rfl

/-- The digits cut or padded to the limit's width. -/
theorem overflows_iff_head (hs : ∀ c ∈ ds, 48 ≤ c ∧ c ≤ 57) :
    Overflows (valueOf ds * 10 ^ ((fltInfPt : ℤ) - ds.length)) ↔
      valueOf fltInfDigits ≤ valueOf (ds.take fltInfPt ++ List.replicate (fltInfPt - ds.length) 48) := by
  have hvalue : valueOf (ds.take fltInfPt ++ List.replicate (fltInfPt - ds.length) 48) =
      readDigits 10 ((ds.map digitOf).take fltInfPt ++ List.replicate (fltInfPt - ds.length) 0) := by
    rw [valueOf, List.map_append, List.map_take, List.map_replicate]
    rfl
  have hscaled := le_scaled_iff (K := ℚ) (w := fltInfPt) (L := valueOf fltInfDigits) (by decide : 1 < 10)
    (digitOf_lt hs)
  rw [List.length_map, Nat.cast_ofNat] at hscaled
  rw [overflows_iff, hvalue]
  exact hscaled

theorem fltGeMax_eq (hs : ∀ c ∈ ds, 48 ≤ c ∧ c ≤ 57) :
    fltGeMax ds = .ok (if Overflows (valueOf ds * 10 ^ ((fltInfPt : ℤ) - ds.length)) then 1 else 0) := by
  have hhead : ∀ c ∈ ds.take fltInfPt ++ List.replicate (fltInfPt - ds.length) 48, 48 ≤ c ∧ c ≤ 57 := by
    intro c hc
    rcases List.mem_append.mp hc with hc | hc
    · exact hs c (List.mem_of_mem_take hc)
    · rw [List.eq_of_mem_replicate hc]
      decide
  have hlen : (ds.take fltInfPt ++ List.replicate (fltInfPt - ds.length) 48).length = fltInfDigits.length := by
    rw [fltInfDigits_spec.2.1, List.length_append, List.length_take, List.length_replicate]
    omega
  rw [fltGeMax, fltHead_eq]
  show Except.ok _ = _
  congr 1
  refine if_congr ?_ rfl rfl
  rw [stringCompare_iff hhead fltInfDigits_spec.2.2 hlen, overflows_iff_head hs]

/-- Where the point falls decides, except at the limit's width. -/
theorem overflows_of_lt (hc : 48 ≤ c) (hne : c ≠ 48) (hp : fltInfPt < p) :
    Overflows (valueOf (c :: s) * 10 ^ (p - (c :: s).length)) := by
  have hdigit : digitOf c ≠ 0 := by
    rw [digitOf]
    omega
  have hlow : ((10 : Nat) : ℚ) ^ (p - 1) ≤
      readDigits 10 (digitOf c :: s.map digitOf) * ((10 : Nat) : ℚ) ^ (p - (digitOf c :: s.map digitOf).length) :=
    pow_le_scaled (by decide) hdigit
  rw [List.length_cons, List.length_map, Nat.cast_ofNat] at hlow
  have hlimit : (valueOf fltInfDigits : ℚ) ≤ 10 ^ (fltInfPt : ℤ) := by
    have hlt := valueOf_lt fltInfDigits_spec.2.2
    rw [fltInfDigits_spec.2.1] at hlt
    rw [zpow_natCast]
    exact_mod_cast hlt.le
  rw [overflows_iff]
  calc (valueOf fltInfDigits : ℚ) ≤ 10 ^ (fltInfPt : ℤ) := hlimit
    _ ≤ 10 ^ (p - 1) := zpow_le_zpow_right₀ (by norm_num) (by omega)
    _ ≤ _ := hlow

theorem not_overflows_of_lt (hs : ∀ c ∈ ds, 48 ≤ c ∧ c ≤ 57) (hp : p < fltInfPt) :
    ¬Overflows (valueOf ds * 10 ^ (p - ds.length)) := by
  have hhigh := scaled_lt (K := ℚ) (b := 10) (p := p) (by decide) (digitOf_lt hs)
  rw [List.length_map, Nat.cast_ofNat] at hhigh
  have hlimit : (10 : ℚ) ^ ((fltInfPt : ℤ) - 1) ≤ valueOf fltInfDigits := by
    have hle : 10 ^ 308 ≤ valueOf fltInfDigits := by decide +kernel
    have hcast : ((10 ^ 308 : Nat) : ℚ) ≤ valueOf fltInfDigits := Nat.cast_le.mpr hle
    rwa [Nat.cast_pow, Nat.cast_ofNat] at hcast
  rw [overflows_iff, not_le]
  calc (valueOf ds : ℚ) * 10 ^ (p - ds.length) < 10 ^ p := hhigh
    _ ≤ 10 ^ ((fltInfPt : ℤ) - 1) := zpow_le_zpow_right₀ (by norm_num) (by omega)
    _ ≤ valueOf fltInfDigits := hlimit

theorem fltOverAt_eq (hs : ∀ c ∈ ds, 48 ≤ c ∧ c ≤ 57) (hne : ds ≠ []) (hhead : ∀ c s, ds = c :: s → c ≠ 48) :
    fltOverAt p ds = .ok (if Overflows (valueOf ds * 10 ^ (p - ds.length)) then 1 else 0) := by
  obtain ⟨c, s, rfl⟩ := List.exists_cons_of_ne_nil hne
  rw [fltOverAt]
  rcases lt_trichotomy p fltInfPt with hlt | rfl | hgt
  · rw [if_neg (by omega), if_neg (by omega), if_neg (not_overflows_of_lt hs hlt)]
    rfl
  · rw [if_neg (by omega), if_pos rfl, fltGeMax_eq hs]
  · rw [if_pos hgt, if_pos (overflows_of_lt (hs c List.mem_cons_self).1 (hhead c s rfl) hgt)]
    rfl

end IdCompiler.Num

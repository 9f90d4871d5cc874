import IdCompiler.Num.Float
import IdCompiler.Tokens.Lines

/-!
# Float literals by value

A literal denotes a rational number. The check refuses it exactly where the number
is at least as near to the power of two beyond the floats as to the largest of them.
-/

namespace IdCompiler.Num

open IdCompiler.Core IdCompiler.Source IdCompiler.Lexer IdCompiler.Tokens

variable {s t raw ds : Text} {c k : Nat} {p : ℤ}

/-! ## Library functions -/

theorem findLoop_none (hs : 46 ∉ s) : findLoop [46] s k = -1 := by
  induction s generalizing k with
  | nil => rfl
  | cons c s ih =>
    rw [List.mem_cons, not_or] at hs
    have hhead : List.isPrefixOf [46] (c :: s) = false := by simp [List.isPrefixOf, hs.1]
    rw [findLoop, hhead]
    exact ih hs.2

theorem findLoop_at (hs : 46 ∉ s) : findLoop [46] (s ++ 46 :: t) k = k + s.length := by
  induction s generalizing k with
  | nil =>
    rw [List.nil_append, findLoop, if_pos (by simp [List.isPrefixOf])]
    simp
  | cons c s ih =>
    rw [List.mem_cons, not_or] at hs
    have hhead : List.isPrefixOf [46] (c :: (s ++ 46 :: t)) = false := by simp [List.isPrefixOf, hs.1]
    rw [List.cons_append, findLoop, hhead, List.length_cons, if_neg (by decide), ih hs.2]
    push_cast
    ring

theorem stringFind_none (hs : 46 ∉ s) : stringFind s (spell ".") = -1 := findLoop_none hs

theorem stringFind_at (hs : 46 ∉ s) : stringFind (s ++ 46 :: t) (spell ".") = s.length :=
  (findLoop_at hs).trans (by simp)

theorem replaceLoop_filter {fuel : Nat} (h : s.length ≤ fuel) :
    replaceLoop [46] [] fuel s = s.filter fun c => c ≠ 46 := by
  induction fuel generalizing s with
  | zero => rw [List.length_eq_zero_iff.mp (Nat.le_zero.mp h), replaceLoop, List.filter_nil]
  | succ fuel ih =>
    cases s with
    | nil => simp [replaceLoop]
    | cons c s =>
      have hrest := ih (Nat.le_of_succ_le_succ h)
      by_cases hc : c = 46
      · simp [replaceLoop, hc, hrest]
      · simp [replaceLoop, hc, Ne.symm hc, hrest]

/-- Taking the points out. -/
theorem stringReplace_point (s : Text) :
    stringReplace s (spell ".") (spell "") = s.filter fun c => c ≠ 46 :=
  replaceLoop_filter (Nat.le_refl _)

theorem firstDifference_same : firstDifference (c :: s) (c :: t) = firstDifference s t + 1 := by
  have hcond : 0 < (c :: s).length ∧ characterCodeAt (c :: s) 0 = characterCodeAt (c :: t) 0 :=
    ⟨Nat.succ_pos _, rfl⟩
  rw [firstDifference, List.length_cons, differenceLoop, if_pos hcond, differenceLoop_cons, firstDifference]

theorem stringCompare_same : stringCompare (c :: s) (c :: t) = stringCompare s t := by
  rw [stringCompare, firstDifference_same, characterCodeAt_succ, characterCodeAt_succ, stringCompare]

theorem stringCompare_differ {e : Nat} (hne : c ≠ e) :
    stringCompare (c :: s) (e :: t) = ((c : Int) - e).sign := by
  have hcond : ¬(0 < (c :: s).length ∧ characterCodeAt (c :: s) 0 = characterCodeAt (e :: t) 0) := by
    rintro ⟨-, heq⟩
    exact hne (Int.ofNat.inj heq)
  rw [stringCompare, firstDifference, List.length_cons, differenceLoop, if_neg hcond]
  rfl

/-- Digits of the same length compare as their numbers do. -/
theorem stringCompare_iff (hs : ∀ c ∈ s, 48 ≤ c ∧ c ≤ 57) (ht : ∀ c ∈ t, 48 ≤ c ∧ c ≤ 57)
    (hlen : s.length = t.length) : 0 ≤ stringCompare s t ↔ valueOf t ≤ valueOf s := by
  induction s generalizing t with
  | nil =>
    obtain rfl : t = [] := List.length_eq_zero_iff.mp hlen.symm
    exact iff_of_true (by decide) (Nat.le_refl _)
  | cons c s ih =>
    cases t with
    | nil => cases hlen
    | cons e t =>
      have hlen' : s.length = t.length := Nat.succ.inj hlen
      have hs' : ∀ c ∈ s, 48 ≤ c ∧ c ≤ 57 := fun x hx => hs x (List.mem_cons_of_mem c hx)
      have ht' : ∀ c ∈ t, 48 ≤ c ∧ c ≤ 57 := fun x hx => ht x (List.mem_cons_of_mem e hx)
      have hmap : (s.map digitOf).length = (t.map digitOf).length := by
        rw [List.length_map, List.length_map, hlen']
      have hc := hs c List.mem_cons_self
      have he := ht e List.mem_cons_self
      rcases Nat.lt_trichotomy c e with hlt | rfl | hgt
      · have hdigits : digitOf c < digitOf e := by
          rw [digitOf, digitOf]
          omega
        have hvalue : valueOf (c :: s) < valueOf (e :: t) :=
          readDigits_cons_lt (by decide) (digitOf_lt hs') hmap hdigits
        have hsign : ((c : Int) - e).sign = -1 := Int.sign_eq_neg_one_of_neg (by omega)
        rw [stringCompare_differ (by omega), hsign]
        exact iff_of_false (by decide) (Nat.not_le.mpr hvalue)
      · rw [stringCompare_same, ih hs' ht' hlen', valueOf_cons, valueOf_cons, hlen', Nat.add_le_add_iff_left]
      · have hdigits : digitOf e < digitOf c := by
          rw [digitOf, digitOf]
          omega
        have hvalue : valueOf (e :: t) < valueOf (c :: s) :=
          readDigits_cons_lt (by decide) (digitOf_lt ht') hmap.symm hdigits
        have hsign : ((c : Int) - e).sign = 1 := Int.sign_eq_one_of_pos (by omega)
        rw [stringCompare_differ (by omega), hsign]
        exact iff_of_true (by decide) hvalue.le

/-! ## Where the exponent begins -/

theorem fltELoop_cons (c : Nat) (s : Text) (fuel k : Nat) :
    fltELoop (c :: s) fuel (k + 1) = fltELoop s fuel k + 1 := by
  induction fuel generalizing k with
  | zero => rfl
  | succ fuel ih =>
    rw [fltELoop, fltELoop, List.length_cons, characterCodeAt_succ,
      if_congr (by rw [Nat.add_lt_add_iff_right]) (ih (k + 1)) rfl]
    split <;> rfl

@[simp]
theorem fltEAt_nil : fltEAt [] = 0 := rfl

theorem fltEAt_mark (hc : c = 101 ∨ c = 69) : fltEAt (c :: s) = 0 := by
  rw [fltEAt, List.length_cons, fltELoop, if_neg]
  rw [characterCodeAt_zero]
  omega

theorem fltEAt_cons (hc : c ≠ 101 ∧ c ≠ 69) : fltEAt (c :: s) = fltEAt s + 1 := by
  rw [fltEAt, List.length_cons, fltELoop, if_pos, fltELoop_cons, fltEAt]
  rw [characterCodeAt_zero, List.length_cons]
  omega

theorem fltEAt_append (hs : ∀ c ∈ s, c ≠ 101 ∧ c ≠ 69) : fltEAt (s ++ t) = s.length + fltEAt t := by
  induction s with
  | nil => simp
  | cons c s ih =>
    have hrest := ih fun e he => hs e (List.mem_cons_of_mem c he)
    rw [List.cons_append, fltEAt_cons (hs c List.mem_cons_self), hrest, List.length_cons]
    omega

/-! ## Leading zeros -/

theorem fltStripLoop_cons (c : Nat) (s : Text) (fuel k : Nat) :
    fltStripLoop (c :: s) fuel (k + 1) = fltStripLoop s fuel k + 1 := by
  induction fuel generalizing k with
  | zero => rfl
  | succ fuel ih =>
    rw [fltStripLoop, fltStripLoop, characterCodeAt_succ, ih]
    split <;> rfl

theorem drop_fltStrip (raw : Text) :
    raw.drop (fltStripLoop raw raw.length 0) = raw.dropWhile fun c => c = 48 := by
  induction raw with
  | nil => rfl
  | cons c s ih =>
    rw [List.length_cons, fltStripLoop, fltStripLoop_cons, characterCodeAt_zero]
    by_cases hc : c = 48
    · rw [if_pos (by omega), List.drop_succ_cons, ih, List.dropWhile_cons, if_pos (by simpa using hc)]
    · rw [if_neg (by omega), List.drop_zero, List.dropWhile_cons, if_neg (by simpa using hc)]

theorem sliceAt_tail : sliceAt s k s.length = .ok (s.drop k) := by
  rw [sliceAt_slice (Nat.le_refl _), slice, List.take_of_length_le (by rw [List.length_drop])]

theorem sliceAt_head (hk : k ≤ s.length) : sliceAt s 0 k = .ok (s.take k) := by
  rw [sliceAt_slice hk, slice, List.drop_zero, Nat.sub_zero]

theorem fltLstrip_eq (raw : Text) : fltLstrip raw = .ok (raw.dropWhile fun c => c = 48) := by
  rw [fltLstrip, sliceAt_tail, drop_fltStrip]

/-- Zeros in front do not count. -/
theorem valueOf_dropWhile (s : Text) : valueOf (s.dropWhile fun c => c = 48) = valueOf s := by
  induction s with
  | nil => rfl
  | cons c s ih =>
    rw [List.dropWhile_cons]
    by_cases hc : c = 48
    · have hzero : digitOf 48 = 0 := rfl
      rw [if_pos (by simpa using hc), ih, valueOf_cons, hc, hzero, Nat.zero_mul, Nat.zero_add]
    · rw [if_neg (by simpa using hc)]

/-! ## Numbers in an `int` -/

theorem toIntLoop_value {lim u : Nat} (hs : ∀ c ∈ s, 48 ≤ c ∧ c ≤ 57) (hlim : u * 10 ^ s.length + valueOf s ≤ lim) :
    toIntLoop lim s u = u * 10 ^ s.length + valueOf s := by
  induction s generalizing u with
  | nil => simp [toIntLoop, valueOf, readDigits]
  | cons c s ih =>
    have hc := hs c List.mem_cons_self
    have hpow : 1 ≤ 10 ^ s.length := Nat.one_le_pow _ _ (by decide)
    have hsum : u * 10 ^ (c :: s).length + valueOf (c :: s) =
        (u * 10 + (c - 48)) * 10 ^ s.length + valueOf s := by
      rw [valueOf_cons, List.length_cons, digitOf]
      ring
    have hbound : u * 10 + (c - 48) ≤ lim := by
      calc u * 10 + (c - 48) ≤ (u * 10 + (c - 48)) * 10 ^ s.length := Nat.le_mul_of_pos_right _ hpow
        _ ≤ (u * 10 + (c - 48)) * 10 ^ s.length + valueOf s := Nat.le_add_right _ _
        _ ≤ lim := hsum ▸ hlim
    rw [hsum] at hlim ⊢
    rw [toIntLoop, if_pos hc, if_neg (by omega)]
    exact ih (fun e he => hs e (List.mem_cons_of_mem c he)) hlim

/-- Six digits are read exactly. -/
theorem toInt_value (hs : ∀ c ∈ s, 48 ≤ c ∧ c ≤ 57) (hne : s ≠ []) (hlen : s.length ≤ 6) : toInt s = valueOf s := by
  have hlt := valueOf_lt hs
  have hpow : 10 ^ s.length ≤ 10 ^ 6 := Nat.pow_le_pow_right (by decide) hlen
  obtain ⟨c, rest, rfl⟩ := List.exists_cons_of_ne_nil hne
  have hc := hs c List.mem_cons_self
  rw [toInt_digit _ hc.1 hc.2, toIntLoop_value hs (by omega), Int.bmod_eq_of_le] <;> omega

/-- The clamp is met from a million on. -/
theorem Decimal.fltClamp_eq (d : Decimal) : fltClamp (stripZeros d.text) = min d.value 1000000 := by
  rw [fltClamp]
  split
  · next hlen =>
    have hlt := d.value_lt
    have hpow : 10 ^ (stripZeros d.text).length ≤ 10 ^ 6 := Nat.pow_le_pow_right (by decide) hlen
    rw [toInt_value d.stripZeros_digit (stripZeros_ne d.ne) hlen, valueOf_stripZeros, ← Decimal.value]
    omega
  · next hlen =>
    have hle := d.le_value (n := 6) (by decide) (by omega)
    omega

end IdCompiler.Num

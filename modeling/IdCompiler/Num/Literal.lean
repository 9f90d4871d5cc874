import IdCompiler.Core.Positional
import IdCompiler.Lexer.Scan
import IdCompiler.Num.Words

/-!
# Integer literals

Whether a decimal literal fits an `int` or a word is read off its digits, and
its value is summed up in a word that wraps.
-/

namespace IdCompiler.Num

open IdCompiler.Core IdCompiler.Source IdCompiler.Lexer

/-! ## Leading zeros -/

/-- The rounds of `strip_zeros`. -/
def stripLoop (s : Text) : Nat → Nat → Nat
  | 0, i => i
  | fuel + 1, i => if i + 1 < s.length ∧ characterCodeAt s i = 48 then stripLoop s fuel (i + 1) else i

/-- `zeros_tail`: the slice from an index to the end. -/
def zerosTail (s : Text) (i : Nat) : Text := s.drop i

/-- `strip_zeros`: the last digit is kept. -/
def stripZeros (s : Text) : Text := zerosTail s (stripLoop s s.length 0)

/-! ## Values in a word -/

def decStep (dv : Word) (c : Int) : Word := dv * 10 + BitVec.ofInt 64 c - 48

/-- `dec_val` -/
def decVal (s : Text) : Word := s.foldl (fun (dv : Word) (c : Nat) => decStep dv c) 0

def overMax (s : Text) : Int := if 2147483647 < (decVal s).toInt then 1 else 0

def wideDec (s : Text) : Int := if s.length < 11 then overMax s else 1

/-- `is_bigdec` -/
def isBigdec (s : Text) : Int := wideDec (stripZeros s)

/-! ## Words exceeded -/

/-- The rounds of `first_difference`. -/
def differenceLoop (digits limit : Text) : Nat → Nat → Nat
  | 0, diffAt => diffAt
  | fuel + 1, diffAt =>
    if diffAt < digits.length ∧ characterCodeAt digits diffAt = characterCodeAt limit diffAt then
      differenceLoop digits limit fuel (diffAt + 1)
    else diffAt

/-- `first_difference`: every round takes a digit. -/
def firstDifference (digits limit : Text) : Nat := differenceLoop digits limit digits.length 0

def digitsExceed (digits limit : Text) : Int :=
  let diffAt := firstDifference digits limit
  if diffAt < digits.length ∧ characterCodeAt limit diffAt < characterCodeAt digits diffAt then 1 else 0

/-- `exceeds_word` -/
def exceedsWord (text : Text) : Int :=
  let significant := stripZeros text
  let exceeds := if 20 < significant.length ∨ 57 < characterCodeAt text 1 then 1 else 0
  if significant.length = 20 then digitsExceed significant (spell "18446744073709551615") else exceeds

/-! ## Decimal texts -/

/-- A text of decimal digits, at least one. -/
structure Decimal where
  text : Text
  ne : text ≠ []
  digit : ∀ c ∈ text, 48 ≤ c ∧ c ≤ 57

/-- The value of a code that is a digit. -/
def digitOf (c : Nat) : Nat := c - 48

/-- The number that a text of digits reads as. -/
def valueOf (s : Text) : Nat := readDigits 10 (s.map digitOf)

variable {s t : Text} {c : Nat}

theorem digitOf_lt (hs : ∀ c ∈ s, 48 ≤ c ∧ c ≤ 57) : ∀ d ∈ s.map digitOf, d < 10 := by
  intro d hd
  obtain ⟨c, hc, rfl⟩ := List.mem_map.mp hd
  have hcode := hs c hc
  rw [digitOf]
  omega

theorem valueOf_lt (hs : ∀ c ∈ s, 48 ≤ c ∧ c ≤ 57) : valueOf s < 10 ^ s.length := by
  have h := readDigits_lt (by decide) (digitOf_lt hs)
  rw [List.length_map] at h
  exact h

theorem le_valueOf (hc : 48 ≤ c) (hne : c ≠ 48) : 10 ^ s.length ≤ valueOf (c :: s) := by
  have hdigit : digitOf c ≠ 0 := by
    rw [digitOf]
    omega
  have h : 10 ^ (s.map digitOf).length ≤ readDigits 10 (digitOf c :: s.map digitOf) := le_readDigits hdigit
  rw [List.length_map] at h
  exact h

theorem valueOf_concat : valueOf (s ++ [c]) = valueOf s * 10 + digitOf c := by
  rw [valueOf, List.map_append, List.map_singleton, readDigits_concat, valueOf]

/-! ## The sum -/

theorem decStep_ofNat (n : Nat) (hc : 48 ≤ c) : decStep (BitVec.ofNat 64 n) c = BitVec.ofNat 64 (n * 10 + digitOf c) := by
  obtain ⟨k, rfl⟩ := Nat.exists_eq_add_of_le hc
  have hdigit : digitOf (48 + k) = k := Nat.add_sub_cancel_left ..
  rw [decStep, hdigit, BitVec.ofInt_natCast, BitVec.ofNat_add, BitVec.ofNat_add, BitVec.ofNat_mul]
  show BitVec.ofNat 64 n * 10 + (48 + BitVec.ofNat 64 k) - 48 = BitVec.ofNat 64 n * 10 + BitVec.ofNat 64 k
  ring

/-- The sum is the value, as far as a word goes. -/
theorem decVal_eq (hs : ∀ c ∈ s, 48 ≤ c ∧ c ≤ 57) : decVal s = BitVec.ofNat 64 (valueOf s) := by
  induction s using List.reverseRecOn with
  | nil => rfl
  | append_singleton s c ih =>
    have hprefix := ih fun e he => hs e (List.mem_append_left _ he)
    have hlast := (hs c (List.mem_append_right _ List.mem_cons_self)).1
    rw [decVal] at hprefix
    rw [decVal, List.foldl_append, hprefix, List.foldl_cons, List.foldl_nil, decStep_ofNat _ hlast, valueOf_concat]

theorem valueOf_cons : valueOf (c :: s) = digitOf c * 10 ^ s.length + valueOf s := by
  rw [valueOf, List.map_cons, readDigits_cons, List.length_map, valueOf]

/-! ## Significant digits -/

theorem stripLoop_cons (c : Nat) (s : Text) (fuel i : Nat) :
    stripLoop (c :: s) fuel (i + 1) = stripLoop s fuel i + 1 := by
  induction fuel generalizing i with
  | zero => rfl
  | succ fuel ih =>
    have hcond : (i + 1 + 1 < (c :: s).length ∧ characterCodeAt (c :: s) (i + 1) = 48) ↔
        (i + 1 < s.length ∧ characterCodeAt s i = 48) := by
      rw [List.length_cons, Nat.add_lt_add_iff_right, characterCodeAt_succ]
    rw [stripLoop, stripLoop, if_congr hcond (ih (i + 1)) rfl]
    split <;> rfl

theorem stripZeros_cons : stripZeros (c :: s) = if s ≠ [] ∧ c = 48 then stripZeros s else c :: s := by
  have hcond : (0 + 1 < (c :: s).length ∧ characterCodeAt (c :: s) 0 = 48) ↔ (s ≠ [] ∧ c = 48) := by
    rw [List.length_cons, Nat.add_lt_add_iff_right, List.length_pos_iff, characterCodeAt_zero]
    exact and_congr_right fun _ => by omega
  rw [stripZeros, zerosTail, List.length_cons, stripLoop, if_congr hcond (stripLoop_cons c s s.length 0) rfl]
  split
  · rfl
  · rfl

theorem stripZeros_ne (hs : s ≠ []) : stripZeros s ≠ [] := by
  induction s with
  | nil => exact absurd rfl hs
  | cons c s ih =>
    rw [stripZeros_cons]
    split
    · next h => exact ih h.1
    · exact List.cons_ne_nil c s

theorem stripZeros_suffix (s : Text) : stripZeros s <:+ s := by
  induction s with
  | nil => exact List.suffix_rfl
  | cons c s ih =>
    rw [stripZeros_cons]
    split
    · exact ih.trans (List.suffix_cons c s)
    · exact List.suffix_rfl

/-- More than one significant digit begins with a digit that counts. -/
theorem stripZeros_head (h : stripZeros s = c :: t) (ht : t ≠ []) : c ≠ 48 := by
  induction s with
  | nil => cases h
  | cons e s ih =>
    rw [stripZeros_cons] at h
    split at h
    · exact ih h
    · next hstop =>
      obtain ⟨rfl, rfl⟩ := List.cons.inj h
      exact fun heq => hstop ⟨ht, heq⟩

theorem valueOf_stripZeros (s : Text) : valueOf (stripZeros s) = valueOf s := by
  induction s with
  | nil => rfl
  | cons c s ih =>
    rw [stripZeros_cons]
    split
    · next h =>
      have hzero : digitOf 48 = 0 := rfl
      rw [ih, valueOf_cons, h.2, hzero, Nat.zero_mul, Nat.zero_add]
    · rfl

/-! ## Differences -/

theorem differenceLoop_cons (c e : Nat) (s t : Text) (fuel i : Nat) :
    differenceLoop (c :: s) (e :: t) fuel (i + 1) = differenceLoop s t fuel i + 1 := by
  induction fuel generalizing i with
  | zero => rfl
  | succ fuel ih =>
    have hcond : (i + 1 < (c :: s).length ∧
        characterCodeAt (c :: s) (i + 1) = characterCodeAt (e :: t) (i + 1)) ↔
        (i < s.length ∧ characterCodeAt s i = characterCodeAt t i) := by
      rw [List.length_cons, Nat.add_lt_add_iff_right, characterCodeAt_succ, characterCodeAt_succ]
    rw [differenceLoop, differenceLoop, if_congr hcond (ih (i + 1)) rfl]
    split <;> rfl

theorem digitsExceed_same : digitsExceed (c :: s) (c :: t) = digitsExceed s t := by
  have hcond : 0 < (c :: s).length ∧ characterCodeAt (c :: s) 0 = characterCodeAt (c :: t) 0 :=
    ⟨Nat.succ_pos _, rfl⟩
  have hdiff : firstDifference (c :: s) (c :: t) = firstDifference s t + 1 := by
    rw [firstDifference, List.length_cons, differenceLoop, if_pos hcond, differenceLoop_cons, firstDifference]
  rw [digitsExceed, hdiff, digitsExceed]
  refine if_congr ?_ rfl rfl
  rw [List.length_cons, Nat.add_lt_add_iff_right, characterCodeAt_succ, characterCodeAt_succ]

theorem digitsExceed_differ {e : Nat} (hne : c ≠ e) : digitsExceed (c :: s) (e :: t) = if e < c then 1 else 0 := by
  have hcond : ¬(0 < (c :: s).length ∧ characterCodeAt (c :: s) 0 = characterCodeAt (e :: t) 0) := by
    rintro ⟨-, heq⟩
    exact hne (Int.ofNat.inj heq)
  have hdiff : firstDifference (c :: s) (e :: t) = 0 := by
    rw [firstDifference, List.length_cons, differenceLoop, if_neg hcond]
  rw [digitsExceed, hdiff]
  refine if_congr ?_ rfl rfl
  rw [characterCodeAt_zero, characterCodeAt_zero, Int.ofNat_lt]
  exact and_iff_right (Nat.succ_pos _)

/-- Digits exceed others of the same length as their numbers do. -/
theorem digitsExceed_eq (hs : ∀ c ∈ s, 48 ≤ c ∧ c ≤ 57) (ht : ∀ c ∈ t, 48 ≤ c ∧ c ≤ 57)
    (hlen : s.length = t.length) : digitsExceed s t = if valueOf t < valueOf s then 1 else 0 := by
  induction s generalizing t with
  | nil =>
    obtain rfl : t = [] := List.length_eq_zero_iff.mp hlen.symm
    rfl
  | cons c s ih =>
    cases t with
    | nil => cases hlen
    | cons e t =>
      have hlen' : s.length = t.length := Nat.succ.inj hlen
      have hs' : ∀ c ∈ s, 48 ≤ c ∧ c ≤ 57 := fun x hx => hs x (List.mem_cons_of_mem c hx)
      have ht' : ∀ c ∈ t, 48 ≤ c ∧ c ≤ 57 := fun x hx => ht x (List.mem_cons_of_mem e hx)
      have hmap : (s.map digitOf).length = (t.map digitOf).length := by
        rw [List.length_map, List.length_map, hlen']
      have hc := hs c List.mem_cons_self
      have he := ht e List.mem_cons_self
      rcases Nat.lt_trichotomy c e with hlt | rfl | hgt
      · have hdigits : digitOf c < digitOf e := by
          rw [digitOf, digitOf]
          omega
        have hvalue : valueOf (c :: s) < valueOf (e :: t) :=
          readDigits_cons_lt (by decide) (digitOf_lt hs') hmap hdigits
        rw [digitsExceed_differ (by omega), if_neg (by omega), if_neg (by omega)]
      · rw [digitsExceed_same, ih hs' ht' hlen']
        refine if_congr ?_ rfl rfl
        rw [valueOf_cons, valueOf_cons, hlen', Nat.add_lt_add_iff_left]
      · have hdigits : digitOf e < digitOf c := by
          rw [digitOf, digitOf]
          omega
        have hvalue : valueOf (e :: t) < valueOf (c :: s) :=
          readDigits_cons_lt (by decide) (digitOf_lt ht') hmap.symm hdigits
        rw [digitsExceed_differ (by omega), if_pos hgt, if_pos hvalue]

/-! ## Literals by value -/

namespace Decimal

variable (d : Decimal)

def value : Nat := valueOf d.text

/-- The significant digits of a literal. -/
theorem stripZeros_digit : ∀ c ∈ stripZeros d.text, 48 ≤ c ∧ c ≤ 57 :=
  fun c hc => d.digit c ((stripZeros_suffix d.text).subset hc)

/-- The number of significant digits bounds the value. -/
theorem value_lt : d.value < 10 ^ (stripZeros d.text).length := by
  rw [value, ← valueOf_stripZeros]
  exact valueOf_lt d.stripZeros_digit

theorem le_value {n : Nat} (hn : n ≠ 0) (hlen : n < (stripZeros d.text).length) : 10 ^ n ≤ d.value := by
  rw [value, ← valueOf_stripZeros]
  cases hs : stripZeros d.text with
  | nil =>
    rw [hs] at hlen
    exact absurd hlen (Nat.not_lt_zero n)
  | cons c s =>
    rw [hs, List.length_cons] at hlen
    have hrest : s ≠ [] := by
      rintro rfl
      exact hn (Nat.lt_one_iff.mp hlen)
    have hc := d.stripZeros_digit c (hs ▸ List.mem_cons_self)
    calc 10 ^ n ≤ 10 ^ s.length := Nat.pow_le_pow_right (by decide) (Nat.lt_succ_iff.mp hlen)
      _ ≤ valueOf (c :: s) := le_valueOf hc.1 (stripZeros_head hs hrest)

theorem decVal_eq : (decVal d.text).toNat = d.value % 2 ^ 64 := by
  rw [Num.decVal_eq d.digit, BitVec.toNat_ofNat, value]

/-- Ten significant digits are summed up without wrapping. -/
theorem isBigdec_eq : isBigdec d.text = if 2147483647 < d.value then 1 else 0 := by
  rw [isBigdec, wideDec]
  by_cases hlen : (stripZeros d.text).length < 11
  · have hlt := d.value_lt
    have hpow : 10 ^ (stripZeros d.text).length ≤ 10 ^ 10 := Nat.pow_le_pow_right (by decide) (by omega)
    have hword : (BitVec.ofNat 64 d.value).toNat = d.value := by
      rw [BitVec.toNat_ofNat, Nat.mod_eq_of_lt (by omega)]
    have hsum : (decVal (stripZeros d.text)).toInt = d.value := by
      rw [Num.decVal_eq d.stripZeros_digit, valueOf_stripZeros, ← value,
        BitVec.toInt_eq_toNat_of_lt (by rw [hword]; omega), hword]
    rw [if_pos hlen, overMax, hsum]
    exact if_congr (by omega) rfl rfl
  · have hle := d.le_value (n := 10) (by decide) (by omega)
    rw [if_neg hlen, if_pos (by omega)]

theorem exceedsWord_eq : exceedsWord d.text = if 2 ^ 64 - 1 < d.value then 1 else 0 := by
  have hlimit : valueOf (spell "18446744073709551615") = 2 ^ 64 - 1 := by decide
  have hletter : ¬57 < characterCodeAt d.text 1 := by
    unfold characterCodeAt
    split
    · decide
    · next c hc =>
      have hcode := d.digit c (List.mem_of_getElem? hc)
      omega
  rw [exceedsWord]
  by_cases hlen : (stripZeros d.text).length = 20
  · have hlimitLen : (stripZeros d.text).length = (spell "18446744073709551615").length := hlen
    rw [if_pos hlen, digitsExceed_eq d.stripZeros_digit (by decide) hlimitLen, hlimit, valueOf_stripZeros, value]
  · rw [if_neg hlen]
    refine if_congr ?_ rfl rfl
    rw [or_iff_left hletter]
    constructor
    · intro hlong
      have hle := d.le_value (n := 20) (by decide) hlong
      omega
    · intro hbig
      by_contra hshort
      have hlt := d.value_lt
      have hpow : 10 ^ (stripZeros d.text).length ≤ 10 ^ 19 := Nat.pow_le_pow_right (by decide) (by omega)
      omega

/-- Both checks go by the value of a literal, and one that exceeds no word has its own value. -/
theorem classified :
    (exceedsWord d.text = if 2 ^ 64 - 1 < d.value then 1 else 0) ∧
    (isBigdec d.text = if 2147483647 < d.value then 1 else 0) ∧
    (decVal d.text).toNat = d.value % 2 ^ 64 ∧
    (exceedsWord d.text = 0 → (decVal d.text).toNat = d.value) := by
  refine ⟨d.exceedsWord_eq, d.isBigdec_eq, d.decVal_eq, fun hfits => ?_⟩
  rw [exceedsWord_eq] at hfits
  split at hfits
  · cases hfits
  · next hle => rw [decVal_eq, Nat.mod_eq_of_lt (by omega)]

end Decimal

end IdCompiler.Num

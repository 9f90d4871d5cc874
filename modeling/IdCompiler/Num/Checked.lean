import IdCompiler.Num.Words

/-!
# Checked sums, differences and products

The wrapped result is judged after the fact: a sum by the signs, a product by dividing it
back. The judgement is right on every pair of words.
-/

namespace IdCompiler.Num

def addChecked (a v : Word) : Except Stop Word :=
  let ckS := a + v
  if ((a ^^^ ckS) &&& (v ^^^ ckS)).slt 0 then .error (.fail "integer overflow") else .ok ckS

def subChecked (a v : Word) : Except Stop Word :=
  let ckD := a - v
  if ((a ^^^ v) &&& (a ^^^ ckD)).slt 0 then .error (.fail "integer overflow") else .ok ckD

/-- Whether `p` is not the product of `a` and `v`; the operands of `&&` are read left to right. -/
def mulWrapped (a v p : Word) : Except Stop Word := do
  let mwR : Word := if a = 0 - 1 ∧ v = 0 - 9223372036854775807 - 1 then 1 else 0
  if a ≠ 0 ∧ a ≠ 0 - 1 then
    let q ← sdiv p a
    pure (if q ≠ v then 1 else mwR)
  else
    pure mwR

def mulChecked (a v : Word) : Except Stop Word := do
  let ckP := a * v
  let mw ← mulWrapped a v ckP
  if mw = 1 then .error (.fail "integer overflow") else .ok ckP

/-- The check of the three 32-bit forms. -/
def judge32 (r : Word) : Except Stop Word :=
  if (2147483647 : Word).slt r ∨ r.slt (0 - 2147483648) then .error (.fail "integer overflow")
  else .ok r

def addChecked32 (a v : Word) : Except Stop Word := judge32 (a + v)

def subChecked32 (a v : Word) : Except Stop Word := judge32 (a - v)

def mulChecked32 (a v : Word) : Except Stop Word := judge32 (a * v)

/-- The number `n` when it has `w` bits, and a stop with the message otherwise. -/
def Exactly (w : Nat) (n : Int) (r : Except Stop Word) : Prop :=
  if -2 ^ (w - 1) ≤ n ∧ n < 2 ^ (w - 1) then ∃ x, r = .ok x ∧ x.toInt = n
  else r = .error (.fail "integer overflow")

theorem toInt_ge (a : Word) : -2 ^ 63 ≤ a.toInt := BitVec.le_toInt a

theorem toInt_lt (a : Word) : a.toInt < 2 ^ 63 := BitVec.toInt_lt

/-- A negative word is one with its sign bit set. -/
theorem slt_zero_iff (a : Word) : a.slt 0 ↔ a.msb = true := BitVec.slt_zero_iff_msb_cond

theorem msb_iff (a : Word) : a.msb = decide (a.toInt < 0) := BitVec.msb_eq_toInt

/-- Wrapping takes a number of one bit more back by 2^64, at most once. -/
theorem wrap_cases {n : Int} (hlo : -2 ^ 64 ≤ n) (hhi : n < 2 ^ 64) :
    n.bmod (2 ^ 64) = if n < -2 ^ 63 then n + 2 ^ 64 else if n < 2 ^ 63 then n else n - 2 ^ 64 := by
  rw [Int.bmod_def]
  split_ifs <;> omega

theorem addChecked_exact (a v : Word) : Exactly 64 (a.toInt + v.toInt) (addChecked a v) := by
  have ha := toInt_ge a
  have ha' := toInt_lt a
  have hv := toInt_ge v
  have hv' := toInt_lt v
  have hsum : (a + v).toInt = (a.toInt + v.toInt).bmod (2 ^ 64) := BitVec.toInt_add a v
  rw [wrap_cases (by omega) (by omega)] at hsum
  have hcheck : ((a ^^^ (a + v)) &&& (v ^^^ (a + v))).slt 0 ↔
      ¬(-2 ^ 63 ≤ a.toInt + v.toInt ∧ a.toInt + v.toInt < 2 ^ 63) := by
    rw [slt_zero_iff, BitVec.msb_and, BitVec.msb_xor, BitVec.msb_xor, msb_iff, msb_iff, msb_iff]
    simp only [Bool.and_eq_true, bne_iff_ne, ne_eq, decide_eq_decide]
    split_ifs at hsum <;> omega
  unfold Exactly addChecked
  by_cases hfit : -2 ^ 63 ≤ a.toInt + v.toInt ∧ a.toInt + v.toInt < 2 ^ 63
  · rw [if_pos hfit, if_neg fun h => hcheck.mp h hfit]
    refine ⟨a + v, rfl, ?_⟩
    split_ifs at hsum <;> omega
  · rw [if_neg hfit, if_pos (hcheck.mpr hfit)]

theorem subChecked_exact (a v : Word) : Exactly 64 (a.toInt - v.toInt) (subChecked a v) := by
  have ha := toInt_ge a
  have ha' := toInt_lt a
  have hv := toInt_ge v
  have hv' := toInt_lt v
  have hdiff : (a - v).toInt = (a.toInt - v.toInt).bmod (2 ^ 64) := BitVec.toInt_sub
  rw [wrap_cases (by omega) (by omega)] at hdiff
  have hcheck : ((a ^^^ v) &&& (a ^^^ (a - v))).slt 0 ↔
      ¬(-2 ^ 63 ≤ a.toInt - v.toInt ∧ a.toInt - v.toInt < 2 ^ 63) := by
    rw [slt_zero_iff, BitVec.msb_and, BitVec.msb_xor, BitVec.msb_xor, msb_iff, msb_iff, msb_iff]
    simp only [Bool.and_eq_true, bne_iff_ne, ne_eq, decide_eq_decide]
    split_ifs at hdiff <;> omega
  unfold Exactly subChecked
  by_cases hfit : -2 ^ 63 ≤ a.toInt - v.toInt ∧ a.toInt - v.toInt < 2 ^ 63
  · rw [if_pos hfit, if_neg fun h => hcheck.mp h hfit]
    refine ⟨a - v, rfl, ?_⟩
    split_ifs at hdiff <;> omega
  · rw [if_neg hfit, if_pos (hcheck.mpr hfit)]

/-! ## Products -/

/-- What the divide-back test sees of a wrapped product: nothing, unless it wrapped. -/
theorem quotient_iff {p x y : Int} (hx : x ≠ 0) (habs : x.natAbs < 2 ^ 64)
    (hp : (2 ^ 64 : Int) ∣ p - x * y) : p.tdiv x = y ↔ p = x * y := by
  constructor
  · intro hquot
    have hsplit := Int.mul_tdiv_add_tmod p x
    rw [hquot] at hsplit
    have hrem : (p.tmod x).natAbs < x.natAbs := by
      rw [Int.natAbs_tmod]
      exact Nat.mod_lt _ (Int.natAbs_pos.mpr hx)
    have hdvd : (2 ^ 64 : Int) ∣ p.tmod x := by
      rwa [← hsplit, add_sub_cancel_left] at hp
    have hzero : p.tmod x = 0 := by
      obtain ⟨k, hk⟩ := hdvd
      omega
    rw [← hsplit, hzero, add_zero]
  · rintro rfl
    exact Int.mul_tdiv_cancel_left y hx

/-- The two operands that the machine does not divide by are told apart first. -/
theorem mulWrapped_of_exception {a : Word} (ha : ¬(a ≠ 0 ∧ a ≠ 0 - 1)) (v p : Word) :
    mulWrapped a v p =
      .ok (if a = 0 - 1 ∧ v = 0 - 9223372036854775807 - 1 then 1 else 0) := by
  unfold mulWrapped
  rw [if_neg ha]
  rfl

theorem sdiv_of_ne {a : Word} (ha : a ≠ 0 ∧ a ≠ 0 - 1) (p : Word) : sdiv p a = .ok (p.sdiv a) := by
  rw [sdiv, if_neg]
  rintro (h0 | ⟨-, h1⟩)
  · exact ha.1 h0
  · exact ha.2 (h1.trans (by decide))

/-- Any other product is judged by dividing it back. -/
theorem mulWrapped_of_ne {a : Word} (ha : a ≠ 0 ∧ a ≠ 0 - 1) (v p : Word) :
    mulWrapped a v p = .ok (if p.sdiv a = v then 0 else 1) := by
  unfold mulWrapped
  rw [if_pos ha, sdiv_of_ne ha, if_neg fun h => ha.2 h.1]
  change Except.ok _ = Except.ok _
  rw [ite_not]

/-- No pair of words makes the check divide where the machine cannot. -/
theorem mulWrapped_total (a v p : Word) : mulWrapped a v p ≠ .error .divide := by
  by_cases ha : a ≠ 0 ∧ a ≠ 0 - 1
  · rw [mulWrapped_of_ne ha]
    simp
  · rw [mulWrapped_of_exception ha]
    simp

/-- The check finds out whether the product wrapped. -/
theorem mulWrapped_product (a v : Word) :
    mulWrapped a v (a * v) =
      .ok (if -2 ^ 63 ≤ a.toInt * v.toInt ∧ a.toInt * v.toInt < 2 ^ 63 then 0 else 1) := by
  have ha := toInt_ge a
  have ha' := toInt_lt a
  have hv := toInt_ge v
  have hv' := toInt_lt v
  have hprod : (a * v).toInt = (a.toInt * v.toInt).bmod (2 ^ 64) := BitVec.toInt_mul a v
  have hp := toInt_ge (a * v)
  have hp' := toInt_lt (a * v)
  by_cases hne : a ≠ 0 ∧ a ≠ 0 - 1
  · have h0 : a.toInt ≠ 0 := fun h => hne.1 (BitVec.toInt_inj.mp h)
    have hquot : (a * v).sdiv a = v ↔ (a * v).toInt = a.toInt * v.toInt := by
      rw [← BitVec.toInt_inj, toInt_sdiv (sdiv_of_ne hne _)]
      refine quotient_iff h0 (by omega) ?_
      rw [hprod]
      exact Int.dvd_bmod_sub_self
    have hfit : (a * v).toInt = a.toInt * v.toInt ↔
        -2 ^ 63 ≤ a.toInt * v.toInt ∧ a.toInt * v.toInt < 2 ^ 63 := by
      constructor
      · intro h
        rw [← h]
        exact ⟨hp, hp'⟩
      · rintro ⟨hlo, hhi⟩
        rw [hprod]
        exact Int.bmod_eq_of_le_mul_two (by omega) (by omega)
    rw [mulWrapped_of_ne hne]
    exact congrArg Except.ok (if_congr (hquot.trans hfit) rfl rfl)
  · rw [mulWrapped_of_exception hne]
    have hone : a = 0 ∨ a = 0 - 1 := by
      by_contra h
      exact hne ⟨fun h0 => h (.inl h0), fun h1 => h (.inr h1)⟩
    rcases hone with rfl | rfl
    · -- A product of zero never wraps.
      have hzero : (0 : Word).toInt = 0 := rfl
      rw [if_neg fun h => absurd h.1 (by decide), hzero, Int.zero_mul, if_pos (by decide)]
    · -- The least word is the only one that -1 takes out of range.
      have hneg : (0 - 1 : Word).toInt = -1 := by decide
      have hmin : v = 0 - 9223372036854775807 - 1 ↔ v.toInt = -2 ^ 63 := by
        rw [← BitVec.toInt_inj]
        exact Iff.rfl
      rw [hneg]
      by_cases hv63 : v.toInt = -2 ^ 63
      · rw [if_pos ⟨rfl, hmin.mpr hv63⟩, if_neg (by omega)]
      · rw [if_neg fun h => hv63 (hmin.mp h.2), if_pos (by omega)]

theorem mulChecked_exact (a v : Word) : Exactly 64 (a.toInt * v.toInt) (mulChecked a v) := by
  have hcheck : mulChecked a v = (do
      let mw ← mulWrapped a v (a * v)
      if mw = 1 then Except.error (Stop.fail "integer overflow") else Except.ok (a * v)) := rfl
  rw [hcheck, mulWrapped_product, Exactly]
  by_cases hfit : -2 ^ 63 ≤ a.toInt * v.toInt ∧ a.toInt * v.toInt < 2 ^ 63
  · rw [if_pos hfit, if_pos hfit]
    refine ⟨a * v, rfl, ?_⟩
    rw [BitVec.toInt_mul]
    exact Int.bmod_eq_of_le_mul_two (by omega) (by omega)
  · rw [if_neg hfit, if_neg hfit]
    rfl

/-! ## The 32-bit forms -/

/-- A result that fits a word is judged by whether it fits an int. -/
theorem judge32_exact {r : Word} {n : Int} (hr : r.toInt = n) : Exactly 32 n (judge32 r) := by
  have hhi : (2147483647 : Word).slt r ↔ 2147483647 < r.toInt := BitVec.slt_iff_toInt_lt
  have hlo : r.slt (0 - 2147483648) ↔ r.toInt < -2147483648 := BitVec.slt_iff_toInt_lt
  unfold Exactly judge32
  by_cases hfit : -2 ^ 31 ≤ n ∧ n < 2 ^ 31
  · rw [if_pos hfit, if_neg (by rw [hhi, hlo, hr]; omega)]
    exact ⟨r, rfl, hr⟩
  · rw [if_neg hfit, if_pos (by rw [hhi, hlo, hr]; omega)]

variable (i n : BitVec 32)

theorem toInt_int : (i.signExtend 64).toInt = i.toInt :=
  BitVec.toInt_signExtend_of_le (by decide)

theorem int_range : -2 ^ 31 ≤ i.toInt ∧ i.toInt < 2 ^ 31 :=
  ⟨BitVec.le_toInt i, BitVec.toInt_lt⟩

theorem addChecked32_exact :
    Exactly 32 (i.toInt + n.toInt) (addChecked32 (i.signExtend 64) (n.signExtend 64)) := by
  have hi := int_range i
  have hn := int_range n
  refine judge32_exact ?_
  rw [BitVec.toInt_add, toInt_int, toInt_int]
  exact Int.bmod_eq_of_le_mul_two (by omega) (by omega)

theorem subChecked32_exact :
    Exactly 32 (i.toInt - n.toInt) (subChecked32 (i.signExtend 64) (n.signExtend 64)) := by
  have hi := int_range i
  have hn := int_range n
  refine judge32_exact ?_
  rw [BitVec.toInt_sub, toInt_int, toInt_int]
  exact Int.bmod_eq_of_le_mul_two (by omega) (by omega)

theorem mulChecked32_exact :
    Exactly 32 (i.toInt * n.toInt) (mulChecked32 (i.signExtend 64) (n.signExtend 64)) := by
  have habs : (i.toInt * n.toInt).natAbs ≤ 2 ^ 31 * 2 ^ 31 := by
    rw [Int.natAbs_mul]
    have hi := int_range i
    have hn := int_range n
    exact Nat.mul_le_mul (by omega) (by omega)
  refine judge32_exact ?_
  rw [BitVec.toInt_mul, toInt_int, toInt_int]
  exact Int.bmod_eq_of_le_mul_two (by omega) (by omega)

/-- Every checked operation gives the exact result or stops, and no check of a product makes a
division that the machine does not do. -/
theorem checked_exact :
    (∀ a v : Word, Exactly 64 (a.toInt + v.toInt) (addChecked a v) ∧
      Exactly 64 (a.toInt - v.toInt) (subChecked a v) ∧
      Exactly 64 (a.toInt * v.toInt) (mulChecked a v)) ∧
    (∀ i n : BitVec 32,
      Exactly 32 (i.toInt + n.toInt) (addChecked32 (i.signExtend 64) (n.signExtend 64)) ∧
      Exactly 32 (i.toInt - n.toInt) (subChecked32 (i.signExtend 64) (n.signExtend 64)) ∧
      Exactly 32 (i.toInt * n.toInt) (mulChecked32 (i.signExtend 64) (n.signExtend 64))) ∧
    ∀ a v p : Word, mulWrapped a v p ≠ .error .divide :=
  ⟨fun a v => ⟨addChecked_exact a v, subChecked_exact a v, mulChecked_exact a v⟩,
    fun i n => ⟨addChecked32_exact i n, subChecked32_exact i n, mulChecked32_exact i n⟩,
    mulWrapped_total⟩

end IdCompiler.Num

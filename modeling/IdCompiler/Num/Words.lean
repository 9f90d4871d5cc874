import Mathlib.Data.BitVec
import Mathlib.Algebra.Order.Ring.Int

/-!
# Machine words

A word has 64 bits; its `+`, `-` and `*` wrap and its order is the signed one.
The unsigned order and the shifts are built from these as the runtime builds them.
-/

namespace IdCompiler.Num

abbrev Word := BitVec 64

/-- Why a program stops. -/
inductive Stop
  | fail (text : String)
  /-- A division that the machine does not do. -/
  | divide
  deriving DecidableEq, Repr

/-- `/` on words: zero divides nothing, and the quotient of the least word by -1 is no word. -/
def sdiv (a v : Word) : Except Stop Word :=
  if v = 0 ∨ (a = BitVec.intMin 64 ∧ v = -1) then .error .divide else .ok (a.sdiv v)

def ultAt (p q : Word) : Word := if p.slt q then 1 else 0

/-- Unsigned less-than: flipping the sign bits turns it into the signed order. -/
def ult (a v : Word) : Word := ultAt (a ^^^ 0x8000000000000000) (v ^^^ 0x8000000000000000)

/-- The shift of the machine takes six bits of its count. -/
def ushrRaw (a z : Word) : Word := a >>> (z.toNat % 64)

def ushr (a z : Word) : Word := if ult z 64 = 1 then ushrRaw a z else 0

/-- `/` is exact on the pairs that the machine divides. -/
theorem toInt_sdiv {p a v : Word} (h : sdiv p a = .ok v) : v.toInt = p.toInt.tdiv a.toInt := by
  unfold sdiv at h
  split at h
  · exact absurd h (by simp)
  · rename_i hne
    rw [← Except.ok.inj h]
    refine BitVec.toInt_sdiv_of_ne_or_ne _ _ ?_
    by_cases hp : p = BitVec.intMin 64
    · exact .inr fun ha => hne (.inr ⟨hp, ha⟩)
    · exact .inl hp

/-- Flipping the sign bit moves the value by half the range. -/
theorem toInt_flip (a : Word) : (a ^^^ 0x8000000000000000).toInt = a.toNat - 2 ^ 63 := by
  have hlow : (a.toNat ^^^ 2 ^ 63) % 2 ^ 63 = a.toNat % 2 ^ 63 := by
    rw [Nat.xor_mod_two_pow, Nat.mod_self, Nat.xor_zero]
  have hhigh : (a.toNat ^^^ 2 ^ 63) / 2 ^ 63 = a.toNat / 2 ^ 63 ^^^ 1 := by
    rw [Nat.xor_div_two_pow, Nat.div_self (Nat.two_pow_pos 63)]
  have hlt := a.isLt
  have hbit : a.toNat / 2 ^ 63 = 0 ∨ a.toNat / 2 ^ 63 = 1 := by omega
  have htoNat : (a ^^^ 0x8000000000000000).toNat = a.toNat ^^^ 2 ^ 63 := BitVec.toNat_xor ..
  rw [BitVec.toInt_eq_toNat_cond, htoNat]
  rcases hbit with hbit | hbit
  · rw [hbit, Nat.zero_xor] at hhigh
    rw [if_neg (by omega)]
    omega
  · rw [hbit, Nat.xor_self] at hhigh
    rw [if_pos (by omega)]
    omega

theorem ult_eq (a v : Word) : ult a v = if a.toNat < v.toNat then 1 else 0 := by
  unfold ult ultAt
  rw [BitVec.slt_eq_decide, toInt_flip, toInt_flip]
  simp only [decide_eq_true_eq]
  congr 1
  apply propext
  omega

/-- The logical shift empties a word from the left. -/
theorem toNat_ushr (a z : Word) : (ushr a z).toNat = a.toNat / 2 ^ z.toNat := by
  have h64 : (64 : Word).toNat = 64 := rfl
  rw [ushr, ult_eq, h64]
  by_cases hz : z.toNat < 64
  · rw [if_pos hz, if_pos rfl, ushrRaw, BitVec.toNat_ushiftRight, Nat.mod_eq_of_lt hz,
      Nat.shiftRight_eq_div_pow]
  · have hpow : 2 ^ 64 ≤ 2 ^ z.toNat := Nat.pow_le_pow_right (by decide) (Nat.le_of_not_lt hz)
    rw [if_neg hz, if_neg (by decide), Nat.div_eq_of_lt (a.isLt.trans_le hpow)]
    rfl

end IdCompiler.Num

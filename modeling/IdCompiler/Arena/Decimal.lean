import IdCompiler.Arena.Text
import IdCompiler.Core.Digits
import Mathlib.Data.Int.Basic

/-!
# Numbers as decimal text

`str_of_word` gives the canonical decimal of every word, and its digits stay in the buffer.
`to_int` gives back every `int` whose text it reads, though it overflows on its way to the
smallest one.
-/

namespace IdCompiler.Arena

open IdCompiler.Core Relation

/-! ## Text -/

/-- The character of a digit. -/
def digitChar (d : Nat) : BitVec 8 := BitVec.ofNat 8 (48 + d)

/-- The canonical decimal of a number. -/
def decimal (z : Int) : List (BitVec 8) :=
  (if z < 0 then [45#8] else []) ++ (natDigits z.natAbs).map digitChar

/-- The number whose decimal continues that of `c` with these digits. -/
def appendDigits (c : Int) (ds : List Nat) : Int :=
  ds.foldl (fun (c : Int) (d : Nat) => c * 10 + d) c

/-! ## Reading -/

/-- An `int`. -/
def wrap32 (z : Int) : Int := Int.bmod z (2 ^ 32)

/-- `character_code_at`: -1 outside the string. -/
def characterCodeAt (m : Bytes) (s : Nat) (i : Int) : Int :=
  if 0 ≤ i ∧ i < strLen m s then (m (addrAdd s i)).toNat else -1

/-- `to_digits`, with at most the given rounds. -/
def toDigits (m : Bytes) (s : Nat) : Nat → Int → Int → Option Int
  | 0, _, _ => none
  | fuel + 1, n, c =>
    if 48 ≤ characterCodeAt m s n ∧ characterCodeAt m s n ≤ 57 then
      toDigits m s fuel (wrap32 (n + 1))
        (wrap32 (wrap32 (wrap32 (c * 10) + characterCodeAt m s n) - 48))
    else some c

/-- A round for each character, and the one that ends the loop. -/
def toIntAt (m : Bytes) (s : Nat) (n : Int) : Option Int := do
  let c ← toDigits m s ((strLen m s).toNat + 1) n 0
  pure (if n = 1 then wrap32 (0 - c) else c)

def toInt (m : Bytes) (s : Nat) : Option Int :=
  toIntAt m s (if characterCodeAt m s 0 = 45 then 1 else 0)

/-- `str_of_int`: the number as a word. -/
def strOfInt (a : Nat) (m : Bytes) (n : Int) : Option (Nat × Bytes) :=
  strOfWord a m (n % 2 ^ 64).toNat

variable {a : Nat} {m m' : Bytes} {g g' : Layout} {b e p q s w x : Nat} {ds : List Nat} {z : Int}

/-! ## Digits backwards -/

theorem length_digits_le {k : Nat} (hw : w < 10 ^ k) : (Nat.digits 10 w).length ≤ k :=
  (Nat.digits_length_le_iff (by decide) w).mpr hw

/-- The loop writes the digits right before `q`. -/
theorem numMag_digits (fuel : Nat) (hfuel : (Nat.digits 10 w).length ≤ fuel) (hq : fuel ≤ q) :
    ∃ m', numMag fuel m w q = some (q - (Nat.digits 10 w).length, m') ∧
      bytesAt m' (q - (Nat.digits 10 w).length) (Nat.digits 10 w).length =
        (Nat.digits 10 w).reverse.map digitChar := by
  induction fuel generalizing m w q with
  | zero =>
    have hnil := List.eq_nil_of_length_eq_zero (Nat.le_zero.mp hfuel)
    have hw : w = 0 := Nat.digits_eq_nil_iff_eq_zero.mp hnil
    refine ⟨m, ?_, ?_⟩
    · rw [numMag, if_pos hw, hnil]
      rfl
    · rw [hnil]
      rfl
  | succ fuel ih =>
    by_cases hw : w = 0
    · subst hw
      exact ⟨m, by simp [numMag], by simp [bytesAt]⟩
    · have hdigits := Nat.digits_def' (b := 10) (by decide) (Nat.pos_of_ne_zero hw)
      have hlen : (Nat.digits 10 w).length = (Nat.digits 10 (w / 10)).length + 1 := by
        rw [hdigits, List.length_cons]
      obtain ⟨m', hrest, hbytes⟩ := ih (m := st8 m (q - 1) (48 + w % 10)) (w := w / 10) (q := q - 1)
        (by omega) (by omega)
      obtain ⟨-, -, hout⟩ := numMag_out hrest (by omega)
      have hstart : q - 1 - (Nat.digits 10 (w / 10)).length = q - (Nat.digits 10 w).length := by omega
      refine ⟨m', ?_, ?_⟩
      · rw [numMag, if_pos hw, hrest, hstart]
      · -- The last digit is the one written first.
        have hlast : m' (q - 1) = digitChar (w % 10) := by
          rw [hout _ (.inr (Nat.le_refl _)), st8, Bytes.store, if_pos ⟨Nat.le_refl _, by omega⟩,
            Nat.sub_self, Nat.pow_zero, Nat.div_one, digitChar]
        rw [hlen, bytesAt_add, ← hlen, ← hstart, hbytes, hdigits, List.reverse_cons, List.map_append,
          Nat.sub_add_cancel (by omega)]
        refine congrArg _ ?_
        rw [bytesAt, List.range_one, List.map_singleton, List.map_singleton, Nat.add_zero, hlast]

theorem signed_eq (hw : w < 2 ^ 64) :
    (signed w < 0 ∧ (signed w).natAbs = 2 ^ 64 - w ∧ 2 ^ 63 ≤ w) ∨
      (0 ≤ signed w ∧ (signed w).natAbs = w ∧ w < 2 ^ 63) := by
  unfold signed
  split <;> omega

theorem length_decimal (hw : w < 2 ^ 64) : (decimal (signed w)).length ≤ 20 := by
  have hpos : ∀ n, n ≤ 2 ^ 63 → (natDigits n).length ≤ 19 := by
    intro n hn
    unfold natDigits
    split
    · decide
    · rw [List.length_reverse]
      exact length_digits_le (by omega)
  have hlen := hpos (signed w).natAbs (by rcases signed_eq hw with h | h <;> omega)
  rw [decimal, List.length_append, List.length_map]
  split
  · rw [List.length_singleton]
    omega
  · rw [List.length_nil]
    omega

/-- A word's text ends right before `e`. -/
theorem numStr_decimal (hw : w < 2 ^ 64) (he : 21 ≤ e) :
    ∃ m', numStr m w e = some (e - (decimal (signed w)).length, m') ∧
      bytesAt m' (e - (decimal (signed w)).length) (decimal (signed w)).length =
        decimal (signed w) := by
  rcases signed_eq hw with ⟨hneg, habs, hhalf⟩ | ⟨hpos, habs, hhalf⟩
  · -- The magnitude is not 0, also that of the smallest word.
    have hmag : (2 ^ 64 - w) % 2 ^ 64 = 2 ^ 64 - w := Nat.mod_eq_of_lt (by omega)
    have htext : decimal (signed w) =
        45#8 :: (Nat.digits 10 (2 ^ 64 - w)).reverse.map digitChar := by
      rw [decimal, if_pos hneg, natDigits, habs, if_neg (by omega)]
      rfl
    obtain ⟨m', hloop, hbytes⟩ := numMag_digits 20 (m := m) (w := 2 ^ 64 - w) (q := e)
      (length_digits_le (by omega)) (by omega)
    have hlen : (decimal (signed w)).length = (Nat.digits 10 (2 ^ 64 - w)).length + 1 := by
      rw [htext, List.length_cons, List.length_map, List.length_reverse]
    have hle := length_decimal hw
    have hstart : e - (Nat.digits 10 (2 ^ 64 - w)).length = e - (decimal (signed w)).length + 1 := by
      omega
    refine ⟨st8 m' (e - (decimal (signed w)).length) 45, ?_, ?_⟩
    · rw [numStr, if_pos hneg, numNeg, hmag, hloop]
      simp only [Option.bind_eq_bind, Option.bind_some, hstart, Nat.add_sub_cancel]
      rfl
    · generalize e - (decimal (signed w)).length = q at hstart
      have hsign : st8 m' q 45 q = 45#8 := by
        rw [st8, Bytes.store, if_pos ⟨Nat.le_refl _, by omega⟩, Nat.sub_self]
        rfl
      rw [hlen, bytesAt_succ, htext, hsign, bytesAt_congr fun k hk => st8_apart (by omega), ← hstart,
        hbytes]
  · have hsign : ¬signed w < 0 := by omega
    by_cases hzero : w = 0
    · subst hzero
      refine ⟨st8 m (e - 1) 48, by rfl, ?_⟩
      show [st8 m (e - 1) 48 (e - 1)] = _
      rw [st8, Bytes.store, if_pos ⟨Nat.le_refl _, by omega⟩, Nat.sub_self]
      rfl
    · have htext : decimal (signed w) = (Nat.digits 10 w).reverse.map digitChar := by
        rw [decimal, if_neg hsign, natDigits, habs, if_neg hzero]
        rfl
      obtain ⟨m', hloop, hbytes⟩ := numMag_digits 20 (m := m) (w := w) (q := e)
        (length_digits_le (by omega)) (by omega)
      have hlen : (decimal (signed w)).length = (Nat.digits 10 w).length := by
        rw [htext, List.length_map, List.length_reverse]
      refine ⟨m', ?_, ?_⟩
      · rw [numStr, if_neg hsign, numPos, hloop, hlen]
        simp only [Option.bind_eq_bind, Option.bind_some, if_neg hzero]
        rfl
      · rw [hlen, hbytes, htext]

/-! ## The string of a word -/

theorem Sound.strOfWord_spells (h : Sound a m g) (hlim : g.lim = 36) (hw : w < 2 ^ 64)
    (ht : Arena.strOfWord a m w = some (x, m')) :
    Spells m' x (decimal (signed w)) ∧ x + (decimal (signed w)).length < 2 ^ 64 := by
  obtain ⟨g₁, g₂, p, q, b, m₁, m₂, m₃, hr, rfl, rfl⟩ := h.strOfWord_printed hlim ht
  obtain ⟨m₂', hnum, hbytes⟩ := numStr_decimal (m := st8 m₁ (p + 31) 0) (e := p + 31) hw (by omega)
  obtain ⟨hq, rfl⟩ := Prod.mk.inj (Option.some.inj (hr.digits.symm.trans hnum))
  have hlen := length_decimal hw
  have hsize : p + 31 - q = (decimal (signed w)).length := by omega
  have hcopy := hr.copy
  have hroom := hr.room
  have hroom' := hr.text.room
  rw [hsize] at hcopy hroom'
  have hp₁ : g₁.use p ≠ .none := by
    rw [hr.taken.use, turn_use]
    decide
  have hp₂ : g₂.use p ≠ .none := by rw [hr.held]; decide
  have hb₂ : g₂.use b ≠ .none := by rw [hr.text.str]; decide
  have hpsize : g₂.size p = g₁.size p := hr.text.change.size p hp₁
  have hpge := hr.fill.sound.block_ge hp₁
  have hbge := hr.text.change.sound.block_ge hb₂
  have hapart := hr.text.change.sound.apart_of_ne hb₂ hp₂ hr.ne
  unfold Apart at hapart
  obtain ⟨-, b', hb, -, hspell⟩ := hr.fill.sound.strOfMem_spells (hr.taken.lim.trans hlim)
    (by unfold strMax; omega) (fun k hk => .inr (by omega)) hcopy
  obtain rfl : b = b' := Nat.add_right_cancel hb
  have hspell := hspell (by unfold Apart; omega)
  rw [hq, hbytes] at hspell
  have hin := hr.text.change.sound.placed.inside b (hr.text.change.sound.used b hb₂)
  have htop := hr.text.change.sound.placed.top_lt
  -- The buffer goes back, which leaves the string alone.
  refine ⟨hspell.congr (by omega) fun i hge hlt => ?_, by omega⟩
  exact hr.text.change.sound.poolGive_apart (by decide) (by omega) (by omega)

/-- The loops end within their rounds, so only the arena's room can keep a word from printing. -/
theorem Sound.strOfWord_some (h : Sound a m g) (hlim : g.lim = 36) (hw : w < 2 ^ 64)
    (hroom : g.top + 256 ≤ 2 ^ 64) : ∃ x m', Arena.strOfWord a m w = some (x, m') := by
  obtain ⟨p, m₁, hblk, htop⟩ := h.strBlk_some (n := 23) (by decide) (by omega)
  obtain ⟨g₁, c, hc, hsound, htaken, -⟩ := h.strBlk hlim (n := 23) (by decide) hblk
  have hsize : 32 ≤ g₁.size p := hc.fits hlim htaken
  obtain ⟨m₂, hnum, -⟩ := numStr_decimal (m := st8 m₁ (p + 31) 0) (e := p + 31) hw (by omega)
  obtain ⟨-, -, hout⟩ := numStr_out hnum (by omega)
  have hlen := length_decimal hw
  have hwithin : Within g₁ p m₁ m₂ :=
    (within_st8 (k := 31) (by omega)).trans fun i hi => hout i (by omega)
  have hdigits := hsound.write (by rw [htaken.use, turn_use]) hwithin
  rw [hsound.top_load] at htop
  have hrest : p + 31 - (p + 31 - (decimal (signed w)).length) = (decimal (signed w)).length := by
    omega
  obtain ⟨x, m₃, hcopy⟩ := hdigits.sound.strOfMem_some
    (p + 31 - (decimal (signed w)).length) (n := (decimal (signed w)).length)
    (by unfold strMax; omega) (by omega)
  refine ⟨x, Arena.poolGive a m₃ 37 p, ?_⟩
  have hcls : poolCls 16 36 32 = some 37 := strClass_buffer.2.2.2
  have hblk : Arena.strBlk a m 23 = some (p, m₁) := hblk
  rw [Arena.strOfWord, hblk]
  simp only [Option.bind_eq_bind, Option.bind_some, strOfWordAt, hnum, hrest, hcopy, hcls]
  rfl

/-! ## Reading digits -/

theorem wrap32_small (hlo : -2 ^ 31 ≤ z) (hhi : z < 2 ^ 31) : wrap32 z = z :=
  Int.bmod_eq_of_le (by omega) (by omega)

variable {bs : List (BitVec 8)}

theorem Spells.strLen (h : Spells m x bs) (hlen : bs.length < 2 ^ 31) :
    Arena.strLen m x = bs.length := by
  have hcount := h.count
  unfold Arena.strLen
  rw [hcount]
  exact wrap32_small (by omega) (by omega)

/-- The codes of a string are its bytes. -/
theorem Spells.code (h : Spells m x bs) (hlen : bs.length < 2 ^ 31) (hx : x + bs.length < 2 ^ 64)
    {k : Nat} : characterCodeAt m x k = (bs[k]?.map fun c => (c.toNat : Int)).getD (-1) := by
  rw [characterCodeAt, h.strLen hlen]
  by_cases hk : k < bs.length
  · have hbyte := getElem_bytesAt (m := m) (x := x) hk
    rw [h.bytes] at hbyte
    rw [if_pos ⟨by omega, by omega⟩, hbyte, addrAdd_nat (by omega)]
    rfl
  · rw [if_neg (by omega), List.getElem?_eq_none (by omega)]
    rfl

theorem toNat_digitChar {d : Nat} (hd : d < 10) : (digitChar d).toNat = 48 + d := by
  rw [digitChar, BitVec.toNat_ofNat]
  omega

/-- One more digit, in arithmetic that wraps. -/
theorem wrap32_digit {c d : Int} :
    wrap32 (wrap32 (wrap32 (wrap32 c * 10) + (48 + d)) - 48) = wrap32 (c * 10 + d) := by
  have hend : c * 10 + (48 + d) - 48 = c * 10 + d := by omega
  simp only [wrap32, Int.bmod_mul_bmod, Int.bmod_add_bmod, Int.bmod_sub_bmod, hend]

/-- The digits that are left are read behind those already there. -/
theorem Spells.toDigits (h : Spells m x bs) (hlen : bs.length < 2 ^ 31) (hx : x + bs.length < 2 ^ 64)
    {fuel k : Nat} {c : Int} (hds : bs.drop k = ds.map digitChar) (hlt : ∀ d ∈ ds, d < 10)
    (hfuel : ds.length < fuel) :
    Arena.toDigits m x fuel k (wrap32 c) = some (wrap32 (appendDigits c ds)) := by
  induction ds generalizing fuel k c with
  | nil =>
    obtain ⟨fuel, rfl⟩ := Nat.exists_eq_succ_of_ne_zero (Nat.ne_zero_of_lt hfuel)
    have hend := List.drop_eq_nil_iff.mp hds
    rw [Arena.toDigits, h.code hlen hx, List.getElem?_eq_none hend]
    rfl
  | cons d ds ih =>
    obtain ⟨fuel, rfl⟩ := Nat.exists_eq_succ_of_ne_zero (Nat.ne_zero_of_lt hfuel)
    have hd := hlt d List.mem_cons_self
    have hk : bs[k]? = some (digitChar d) := by
      rw [← List.head?_drop, hds]
      rfl
    obtain ⟨hklt, -⟩ := List.getElem?_eq_some_iff.mp hk
    have hcode : characterCodeAt m x k = 48 + (d : Int) := by
      rw [h.code hlen hx, hk]
      exact congrArg Nat.cast (toNat_digitChar hd)
    have hnext : wrap32 ((k : Int) + 1) = ((k + 1 : Nat) : Int) := wrap32_small (by omega) (by omega)
    rw [Arena.toDigits, hcode, if_pos ⟨by omega, by omega⟩, hnext, wrap32_digit]
    refine ih ?_ (fun d hd => hlt d (List.mem_cons_of_mem _ hd)) (Nat.lt_of_succ_lt_succ hfuel)
    rw [← List.tail_drop, hds]
    rfl

/-! ## Every number -/

theorem appendDigits_natDigits {n : Nat} : appendDigits 0 (natDigits n) = n := by
  have hcast : ∀ (ds : List Nat) (c : Nat), appendDigits c ds = (ds.foldl (fun c d => c * 10 + d) c : Nat) := by
    intro ds
    induction ds with
    | nil => exact fun c => rfl
    | cons d ds ih => exact fun c => ih (c * 10 + d)
  rw [← Int.natCast_zero, hcast, foldl_natDigits]

/-- The text of an `int` reads as that `int`. -/
theorem Spells.toInt {n : Int} (h : Spells m x (decimal n)) (hlo : -2 ^ 31 ≤ n) (hhi : n < 2 ^ 31)
    (hlen : (decimal n).length < 2 ^ 31) (hx : x + (decimal n).length < 2 ^ 64) :
    Arena.toInt m x = some n := by
  have hfirst := h.code hlen hx (k := 0)
  have hcount := h.strLen hlen
  by_cases hneg : n < 0
  · have htext : decimal n = 45#8 :: (natDigits n.natAbs).map digitChar := by
      rw [decimal, if_pos hneg]
      rfl
    have hread : Arena.toDigits m x ((decimal n).length + 1) 1 (wrap32 0) =
        some (wrap32 (appendDigits 0 (natDigits n.natAbs))) := h.toDigits hlen hx (by rw [htext]; rfl) (fun d hd => natDigits_lt hd)
      (by rw [htext, List.length_cons, List.length_map]; omega)
    have hminus : characterCodeAt m x 0 = 45 := by
      rw [htext] at hfirst
      exact hfirst
    rw [Arena.toInt, if_pos hminus, toIntAt, hcount]
    have hneg' : wrap32 (0 - wrap32 n.natAbs) = n := by
      rw [wrap32, wrap32, Int.sub_bmod_bmod, ← wrap32]
      rw [show (0 : Int) - n.natAbs = n by omega]
      exact wrap32_small hlo hhi
    rw [appendDigits_natDigits] at hread
    rw [show Arena.toDigits m x (((decimal n).length : Int).toNat + 1) 1 0 = _ from hread]
    simp only [Option.bind_eq_bind, Option.bind_some, if_true, hneg']
    rfl
  · have htext : decimal n = (natDigits n.natAbs).map digitChar := by
      rw [decimal, if_neg hneg]
      rfl
    have hread : Arena.toDigits m x ((decimal n).length + 1) 0 (wrap32 0) =
        some (wrap32 (appendDigits 0 (natDigits n.natAbs))) := h.toDigits hlen hx (by rw [htext]; rfl) (fun d hd => natDigits_lt hd)
      (by rw [htext, List.length_map]; omega)
    have hdigit : characterCodeAt m x 0 ≠ 45 := by
      obtain ⟨d, ds, hds⟩ := List.exists_cons_of_ne_nil (natDigits_ne_nil (n := n.natAbs))
      have hd : d < 10 := natDigits_lt (n := n.natAbs) (by rw [hds]; exact List.mem_cons_self)
      have hfirst : characterCodeAt m x 0 = ((digitChar d).toNat : Int) := by
        rw [htext, hds] at hfirst
        exact hfirst
      rw [hfirst, toNat_digitChar hd]
      omega
    rw [Arena.toInt, if_neg hdigit, toIntAt, hcount]
    rw [appendDigits_natDigits] at hread
    rw [show Arena.toDigits m x (((decimal n).length : Int).toNat + 1) 0 0 = _ from hread]
    have hpos : wrap32 n.natAbs = n := by
      rw [show (n.natAbs : Int) = n by omega]
      exact wrap32_small hlo hhi
    simp only [Option.bind_eq_bind, Option.bind_some, hpos]
    rfl

/-! ## In every state of a run -/

/-- How a word prints: whenever the arena has room, as its decimal, and within the 32 bytes of
the buffer, whatever lies in the memory around them. -/
structure Prints (a : Nat) (m : Bytes) (w : Nat) : Prop where
  returns : (arenaTop a m).1 + 256 ≤ 2 ^ 64 → ∃ x m', strOfWord a m w = some (x, m')
  text : ∀ x m', strOfWord a m w = some (x, m') → Spells m' x (decimal (signed w))
  buffer : ∀ m₀ p, ∃ q m', numStr (st8 m₀ (p + 31) 0) w (p + 31) = some (q, m') ∧ p ≤ q ∧
    q ≤ p + 31 ∧ ∀ i, i < p ∨ p + 32 ≤ i → m' i = m₀ i

/-- The text of an `int` reads as that `int`. -/
def ReadsBack (a : Nat) (m : Bytes) (n : Int) : Prop :=
  ∀ x m', strOfInt a m n = some (x, m') → toInt m' x = some n

theorem numStr_buffer (hw : w < 2 ^ 64) : ∃ q m', numStr (st8 m (p + 31) 0) w (p + 31) = some (q, m') ∧
    p ≤ q ∧ q ≤ p + 31 ∧ ∀ i, i < p ∨ p + 32 ≤ i → m' i = m i := by
  obtain ⟨m', hnum, -⟩ := numStr_decimal (m := st8 m (p + 31) 0) (e := p + 31) hw (by omega)
  obtain ⟨hle, hge, hout⟩ := numStr_out hnum (by omega)
  refine ⟨_, m', hnum, by omega, hle, fun i hi => ?_⟩
  rw [hout i (by omega)]
  exact st8_apart (by omega)

theorem Sound.prints (h : Sound a m g) (hlim : g.lim = 36) (hw : w < 2 ^ 64) : Prints a m w where
  returns hroom := h.strOfWord_some hlim hw (by rwa [h.arenaTop] at hroom)
  text _ _ ht := (h.strOfWord_spells hlim hw ht).1
  buffer _ _ := numStr_buffer hw

theorem Sound.readsBack {n : Int} (h : Sound a m g) (hlim : g.lim = 36) (hlo : -2 ^ 31 ≤ n)
    (hhi : n < 2 ^ 31) : ReadsBack a m n := by
  intro x m' ht
  have hword : signed (n % 2 ^ 64).toNat = n := by
    unfold signed
    split <;> omega
  have hw : (n % 2 ^ 64).toNat < 2 ^ 64 := by omega
  obtain ⟨hspell, hx⟩ := h.strOfWord_spells hlim hw ht
  have hlen := length_decimal hw
  rw [hword] at hspell hx hlen
  exact hspell.toInt hlo hhi (by omega) hx

example : decimal (-(2 ^ 63)) = "-9223372036854775808".toUTF8.toList.map UInt8.toBitVec := by
  decide +kernel

end IdCompiler.Arena

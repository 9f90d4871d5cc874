import IdCompiler.Num.Literal
import IdCompiler.Tokens.Lines

/-!
# Integer literals of every radix

A hex or binary literal is summed up in a word and printed in decimal, or as it is
written where it has too many digits. Whatever the radix, the text that the parser
gets stands for the number that the digits of the source do.
-/

namespace IdCompiler.Num

open IdCompiler.Core IdCompiler.Source IdCompiler.Lexer IdCompiler.Tokens

variable {src s out : Text} {i j e k fuel u : Nat}

/-! ## Runs -/

theorem code_get {c : Nat} (h : characterCodeAt src i = c) : src[i]? = some c := by
  obtain ⟨e, he, hcode⟩ := @code_in src i (lt_of_code (by omega))
  rw [he, Int.ofNat.inj (hcode.symm.trans h)]

theorem slice_class {cls : Int → Bool} (h : RunTo cls src i j) : ∀ c ∈ slice src i j, cls c = true := by
  intro c hc
  obtain ⟨k, hk, hkj, hget⟩ := mem_slice.mp hc
  rw [← code_some hget]
  exact h.inside k hk hkj

theorem slice_digits (h : RunTo characterIsDigit src i j) : ∀ c ∈ slice src i j, 48 ≤ c ∧ c ≤ 57 := by
  intro c hc
  have hdigit := characterIsDigit_iff.mp (slice_class h c hc)
  omega

/-- The number that begins at a digit. -/
theorem slice_decimal (h : characterIsDigitAt src i = true) : ∃ d : Decimal, slice src i (digitRunEnd src i) = d.text := by
  have hrun := digitRun_to src i
  obtain ⟨c, hc, -⟩ := @code_in src i (lt_of_code (by
    have := characterIsDigit_iff.mp h
    omega))
  refine ⟨⟨slice src i (digitRunEnd src i), ?_, slice_digits hrun⟩, rfl⟩
  rw [slice_cons hc (hrun.larger h)]
  exact List.cons_ne_nil _ _

theorem numEnd_le (h : characterIsDigitAt src i = true) : numEnd src (digitRunEnd src i) ≤ src.length := by
  have hrun := digitRun_to src i
  have hlarger := hrun.larger h
  have hbound := hrun.bound rfl
  obtain ⟨hle, hcodes⟩ := numEnd_spec src (digitRunEnd src i)
  by_cases heq : numEnd src (digitRunEnd src i) = digitRunEnd src i
  · omega
  · have := lt_of_code (hcodes (numEnd src (digitRunEnd src i) - 1) (by omega) (by omega)).2
    omega

/-- A decimal number is printed as it is written. -/
theorem scanNumber_eq {st : LexState} (h : characterIsDigitAt src i = true) :
    scanNumber src i st = .ok (numEnd src (digitRunEnd src i),
      print (numkind (digitRunEnd src i) (numEnd src (digitRunEnd src i)) ++ spell " " ++
        slice src i (numEnd src (digitRunEnd src i))) st) := by
  rw [scanNumber, scanNumOut, sliceStr_slice (numEnd_le h)]
  rfl

/-! ## Printing -/

theorem digitsLoop_value (hu : u < 10 ^ fuel) (hout : ∀ c ∈ out, 48 ≤ c ∧ c ≤ 57) :
    (∀ c ∈ digitsLoop fuel u out, 48 ≤ c ∧ c ≤ 57) ∧
      valueOf (digitsLoop fuel u out) = u * 10 ^ out.length + valueOf out := by
  induction fuel generalizing u out with
  | zero =>
    obtain rfl : u = 0 := by simpa using hu
    refine ⟨hout, ?_⟩
    rw [digitsLoop, Nat.zero_mul, Nat.zero_add]
  | succ fuel ih =>
    have hlast : ∀ c ∈ (48 + u % 10) :: out, 48 ≤ c ∧ c ≤ 57 := by
      intro c hc
      rcases List.mem_cons.mp hc with rfl | hc
      · omega
      · exact hout c hc
    have hdigit : digitOf (48 + u % 10) = u % 10 := Nat.add_sub_cancel_left ..
    rw [digitsLoop]
    split
    · next hsmall =>
      refine ⟨hlast, ?_⟩
      rw [valueOf_cons, hdigit, Nat.mod_eq_of_lt (by omega)]
    · have hrest := ih (u := u / 10) (by rw [Nat.pow_succ] at hu; omega) hlast
      refine ⟨hrest.1, ?_⟩
      rw [hrest.2, valueOf_cons, hdigit, List.length_cons, Nat.pow_succ]
      calc u / 10 * (10 ^ out.length * 10) + (u % 10 * 10 ^ out.length + valueOf out)
          = (10 * (u / 10) + u % 10) * 10 ^ out.length + valueOf out := by ring
        _ = u * 10 ^ out.length + valueOf out := by rw [Nat.div_add_mod]

theorem digitsLoop_length {n : Nat} (hu : u < 10 ^ (n + 1)) : (digitsLoop fuel u out).length ≤ out.length + n + 1 := by
  induction fuel generalizing u out n with
  | zero =>
    rw [digitsLoop]
    omega
  | succ fuel ih =>
    rw [digitsLoop]
    split
    · rw [List.length_cons]
      omega
    · next hlarge =>
      cases n with
      | zero => omega
      | succ n =>
        have hrest : (digitsLoop fuel (u / 10) ((48 + u % 10) :: out)).length ≤ ((48 + u % 10) :: out).length + n + 1 :=
          ih (by rw [Nat.pow_succ] at hu; omega)
        rw [List.length_cons] at hrest
        omega

theorem pad10_value (fuel : Nat) (hs : ∀ c ∈ s, 48 ≤ c ∧ c ≤ 57) :
    (∀ c ∈ pad10 fuel s, 48 ≤ c ∧ c ≤ 57) ∧ valueOf (pad10 fuel s) = valueOf s := by
  induction fuel generalizing s with
  | zero => exact ⟨hs, rfl⟩
  | succ fuel ih =>
    rw [pad10]
    split
    · have hzero : ∀ c ∈ 48 :: s, 48 ≤ c ∧ c ≤ 57 := by
        intro c hc
        rcases List.mem_cons.mp hc with rfl | hc
        · decide
        · exact hs c hc
      have hdigit : digitOf 48 = 0 := rfl
      refine ⟨(ih hzero).1, ?_⟩
      rw [(ih hzero).2, valueOf_cons, hdigit, Nat.zero_mul, Nat.zero_add]
    · exact ⟨hs, rfl⟩

theorem pad10_length (hs : s.length ≤ 10) (hfuel : 10 ≤ s.length + fuel) : (pad10 fuel s).length = 10 := by
  induction fuel generalizing s with
  | zero =>
    rw [pad10]
    omega
  | succ fuel ih =>
    rw [pad10]
    split
    · exact ih (by rw [List.length_cons]; omega) (by rw [List.length_cons]; omega)
    · omega

theorem strOfWord_nat (h : u < 10 ^ 24) : strOfWord u = digitsLoop 24 u [] := by
  rw [strOfWord, if_neg (by omega), List.nil_append, Int.natAbs_natCast]

theorem strOfWord_value (h : u < 10 ^ 24) :
    (∀ c ∈ strOfWord u, 48 ≤ c ∧ c ≤ 57) ∧ valueOf (strOfWord u) = u ∧ strOfWord u ≠ [] := by
  have hnil : ∀ c ∈ ([] : Text), 48 ≤ c ∧ c ≤ 57 := by simp
  have hloop := digitsLoop_value h hnil
  obtain ⟨c, rest, hfirst, -⟩ : ∃ c rest, digitsLoop 24 u [] = c :: rest ∧ 48 ≤ c ∧ c ≤ 57 :=
    digitsLoop_first (by decide)
  rw [strOfWord_nat h]
  refine ⟨hloop.1, ?_, ?_⟩
  · rw [hloop.2, List.length_nil, Nat.pow_zero, Nat.mul_one]
    rfl
  · rw [hfirst]
    exact List.cons_ne_nil c rest

/-- A word is printed as the unsigned number it is. -/
theorem udec_value (v : BitVec 64) : ∃ d : Decimal, d.text = udec v ∧ d.value = v.toNat := by
  have hv := v.isLt
  have hhi : (v / 10000000000#64).toNat = v.toNat / 10000000000 := rfl
  have hlo : (v % 10000000000#64).toNat = v.toNat % 10000000000 := rfl
  have hsigned : ∀ x : BitVec 64, x.toNat < 2 ^ 63 → x.toInt = x.toNat := fun x hx =>
    BitVec.toInt_eq_toNat_of_lt (by omega)
  rw [udec]
  by_cases hzero : v / 10000000000#64 = 0
  · have hsmall : v.toNat / 10000000000 = 0 := by
      rw [← hhi, hzero]
      rfl
    have hprint := strOfWord_value (u := v.toNat) (by omega)
    rw [if_neg (by simpa using hzero), hsigned v (by omega)]
    exact ⟨⟨_, hprint.2.2, hprint.1⟩, rfl, hprint.2.1⟩
  · have hprint := strOfWord_value (u := v.toNat / 10000000000) (by omega)
    have hlow := strOfWord_value (u := v.toNat % 10000000000) (by omega)
    have hpad := pad10_value 10 hlow.1
    have hwidth : (pad10 10 (strOfWord (v.toNat % 10000000000 : Nat))).length = 10 := by
      refine pad10_length ?_ (Nat.le_add_left _ _)
      rw [strOfWord_nat (by omega)]
      exact digitsLoop_length (n := 9) (by omega)
    rw [if_pos hzero, hsigned (v / 10000000000#64) (by omega), hsigned (v % 10000000000#64) (by omega), hhi, hlo]
    refine ⟨⟨_, List.append_ne_nil_of_left_ne_nil hprint.2.2 _, fun c hc => (List.mem_append.mp hc).elim (hprint.1 c) (hpad.1 c)⟩, rfl, ?_⟩
    show valueOf (_ ++ _) = _
    rw [valueOf, List.map_append, readDigits_append, List.length_map, hwidth, ← valueOf, ← valueOf, hprint.2.1,
      hpad.2, hlow.2.1]
    omega

/-! ## Sums in a word -/

/-- A loop that takes a digit in every round sums up the number that they read as. -/
theorem loop_sum (loop : Nat → Nat → BitVec 64 → BitVec 64) (step : BitVec 64 → Int → BitVec 64) (b : Nat)
    (dg : Nat → Nat) (u : Nat) (hzero : ∀ i v, loop 0 i v = v)
    (hsucc : ∀ fuel i v, loop (fuel + 1) i v =
      if i < e then loop fuel (i + 1) (step v (characterCodeAt src i)) else v)
    (he : e ≤ src.length) (hfuel : e ≤ i + fuel)
    (hstep : ∀ n, ∀ c ∈ slice src i e, step (BitVec.ofNat 64 n) c = BitVec.ofNat 64 (n * b + dg c)) :
    loop fuel i (BitVec.ofNat 64 u) =
      BitVec.ofNat 64 (u * b ^ (e - i) + readDigits b ((slice src i e).map dg)) := by
  have hstop : ∀ {i}, e ≤ i → slice src i e = [] := fun h => by rw [slice, Nat.sub_eq_zero_of_le h, List.take_zero]
  induction fuel generalizing i u with
  | zero =>
    have hle : e ≤ i := hfuel
    rw [hzero, hstop hle, Nat.sub_eq_zero_of_le hle, Nat.pow_zero, Nat.mul_one, List.map_nil, readDigits_nil,
      Nat.add_zero]
  | succ fuel ih =>
    rw [hsucc]
    split
    · next hlt =>
      obtain ⟨c, hget, hcode⟩ := @code_in src i (by omega)
      have hcons := slice_cons hget hlt
      have hlen : (slice src (i + 1) e).length = e - (i + 1) := by
        rw [slice, List.length_take, List.length_drop]
        omega
      have hpow : e - i = e - (i + 1) + 1 := by omega
      rw [hcode, hstep u c (hcons ▸ List.mem_cons_self),
        ih _ (by omega) fun n d hd => hstep n d (hcons ▸ List.mem_cons_of_mem c hd), hcons, List.map_cons,
        readDigits_cons, List.length_map, hlen, hpow, Nat.pow_succ]
      congr 1
      ring
    · next hge =>
      have hle : e ≤ i := Nat.not_lt.mp hge
      rw [hstop hle, Nat.sub_eq_zero_of_le hle, Nat.pow_zero, Nat.mul_one, List.map_nil, readDigits_nil,
        Nat.add_zero]

/-- The value of a code that is a hex digit. -/
def hexOf (c : Nat) : Nat := (hexDigit c).toNat

theorem hexDigit_eq {c : Nat} (h : isHex c = true) : hexDigit c = hexOf c ∧ hexOf c < 16 ∧ (hexOf c = 0 ↔ c = 48) := by
  have hc : 48 ≤ c ∧ c ≤ 57 ∨ 97 ≤ c ∧ c ≤ 102 ∨ 65 ≤ c ∧ c ≤ 70 := by
    simp only [isHex, Bool.or_eq_true, Bool.and_eq_true, decide_eq_true_eq, characterIsDigit_iff] at h
    omega
  rw [hexOf, hexDigit, hexAlpha]
  split <;> [split; skip] <;> omega

theorem isBin_cases {c : Nat} (h : isBin c = true) : c = 48 ∨ c = 49 := by
  simp only [isBin, Bool.or_eq_true, decide_eq_true_eq] at h
  omega

theorem ofNat_step (n b d : Nat) : BitVec.ofNat 64 n * BitVec.ofNat 64 b + BitVec.ofNat 64 d =
    BitVec.ofNat 64 (n * b + d) := by
  rw [BitVec.ofNat_add, BitVec.ofNat_mul]

theorem hexVal_eq (he : e ≤ src.length) (hcls : ∀ c ∈ slice src i e, isHex c = true) :
    hexVal src e src.length i 0 = BitVec.ofNat 64 (readDigits 16 ((slice src i e).map hexOf)) := by
  have h := loop_sum (hexVal src e) (fun v c => v * 16#64 + BitVec.ofInt 64 (hexDigit c)) 16 hexOf 0
    (fun _ _ => rfl) (fun _ _ _ => rfl) he (Nat.le_trans he (Nat.le_add_left _ _)) fun n c hc => by
      show _ + BitVec.ofInt 64 (hexDigit c) = _
      rw [(hexDigit_eq (hcls c hc)).1, BitVec.ofInt_natCast, ofNat_step]
  rw [Nat.zero_mul, Nat.zero_add] at h
  exact h

theorem binVal_eq (he : e ≤ src.length) (hcls : ∀ c ∈ slice src i e, isBin c = true) :
    binVal src e src.length i 0 = BitVec.ofNat 64 (readDigits 2 ((slice src i e).map digitOf)) := by
  have h := loop_sum (binVal src e) (fun v c => v * 2#64 + BitVec.ofInt 64 c - 48#64) 2 digitOf 0
    (fun _ _ => rfl) (fun _ _ _ => rfl) he (Nat.le_trans he (Nat.le_add_left _ _)) fun n c hc => by
      rw [← ofNat_step]
      rcases isBin_cases (hcls c hc) with rfl | rfl
      · show _ + 48#64 - 48#64 = _ + 0#64
        rw [BitVec.add_sub_cancel, BitVec.add_zero]
      · show _ + 49#64 - 48#64 = _ + 1#64
        rw [show 49#64 = 1#64 + 48#64 from rfl, ← BitVec.add_assoc, BitVec.add_sub_cancel]
  rw [Nat.zero_mul, Nat.zero_add] at h
  exact h

/-! ## Digits that count -/

theorem zeroEnd_spec (src : Text) (hke : k ≤ e) (hfuel : e ≤ k + fuel) :
    k ≤ zeroEnd src e fuel k ∧ zeroEnd src e fuel k ≤ e ∧
      (∀ j, k ≤ j → j < zeroEnd src e fuel k → characterCodeAt src j = 48) ∧
      (zeroEnd src e fuel k < e → characterCodeAt src (zeroEnd src e fuel k) ≠ 48) := by
  induction fuel generalizing k with
  | zero =>
    rw [zeroEnd]
    exact ⟨Nat.le_refl k, hke, fun j hj hlt => absurd hj (by omega), fun hlt => by omega⟩
  | succ fuel ih =>
    rw [zeroEnd]
    split
    · next h =>
      obtain ⟨hle, hbound, hzeros, hstop⟩ := ih (k := k + 1) h.1 (by omega)
      refine ⟨by omega, hbound, fun j hj hlt => ?_, hstop⟩
      by_cases hjk : j = k
      · rw [hjk, h.2]
      · exact hzeros j (by omega) hlt
    · next h =>
      exact ⟨Nat.le_refl k, hke, fun j hj hlt => absurd hj (by omega), fun hlt heq => h ⟨hlt, heq⟩⟩

/-- What a number is bounded by: its digits from the first one that counts on. -/
theorem zeroEnd_bounds {b : Nat} {dg : Nat → Nat} (hb : 1 < b) (hke : k ≤ e) (he : e ≤ src.length)
    (hdg : ∀ c ∈ slice src k e, dg c < b ∧ (dg c = 0 ↔ c = 48)) :
    readDigits b ((slice src k e).map dg) < b ^ (e - zeroEnd src e src.length k) ∧
      ∀ n, n < e - zeroEnd src e src.length k → b ^ n ≤ readDigits b ((slice src k e).map dg) := by
  obtain ⟨hle, hbound, hzeros, hstop⟩ := zeroEnd_spec src hke (Nat.le_trans he (Nat.le_add_left _ _))
  set f := zeroEnd src e src.length k
  have hsplit : slice src k e = slice src k f ++ slice src f e := slice_append hle hbound
  have hprefix : ((slice src k f).map dg) = List.replicate (slice src k f).length 0 := by
    rw [← List.length_map (f := dg)]
    refine List.eq_replicate_of_mem fun d hd => ?_
    obtain ⟨c, hc, rfl⟩ := List.mem_map.mp hd
    obtain ⟨j, hj, hjf, hget⟩ := mem_slice.mp hc
    have hcode := code_some hget
    rw [hzeros j hj hjf] at hcode
    exact (hdg c (hsplit ▸ List.mem_append_left _ hc)).2.mpr (Int.ofNat.inj hcode.symm)
  have hlen : (slice src f e).length = e - f := by
    rw [slice, List.length_take, List.length_drop]
    omega
  have hvalue : readDigits b ((slice src k e).map dg) = readDigits b ((slice src f e).map dg) := by
    rw [hsplit, List.map_append, hprefix, readDigits_zeros]
  rw [hvalue]
  constructor
  · have hdigits : ∀ d ∈ (slice src f e).map dg, d < b := fun d hd => by
      obtain ⟨c, hc, rfl⟩ := List.mem_map.mp hd
      exact (hdg c (hsplit ▸ List.mem_append_right _ hc)).1
    have hlt := readDigits_lt hb hdigits
    rwa [List.length_map, hlen] at hlt
  · intro n hn
    obtain ⟨c, hget, hcode⟩ := @code_in src f (by omega)
    have hcons := slice_cons hget (show f < e by omega)
    have hfirst : dg c ≠ 0 := fun hzero => by
      have h48 := (hdg c (hsplit ▸ List.mem_append_right _ (hcons ▸ List.mem_cons_self))).2.mp hzero
      refine hstop (by omega) ?_
      rw [hcode, h48]
      rfl
    have hrest : (slice src (f + 1) e).length = e - f - 1 := by
      rw [hcons, List.length_cons] at hlen
      omega
    have hlow : b ^ ((slice src (f + 1) e).map dg).length ≤ readDigits b (dg c :: (slice src (f + 1) e).map dg) :=
      le_readDigits hfirst
    rw [List.length_map, hrest] at hlow
    rw [hcons, List.map_cons]
    exact (Nat.pow_le_pow_right (by omega) (by omega)).trans hlow

/-! ## Literals by value -/

/-- What the parser reads a text as. -/
def Reads (text : Text) (n : Nat) : Prop :=
  exceedsWord text = (if 2 ^ 64 - 1 < n then 1 else 0) ∧
    (n < 2 ^ 64 → isBigdec text = (if 2147483647 < n then 1 else 0) ∧ (decVal text).toNat = n)

theorem Decimal.reads (d : Decimal) : Reads d.text d.value :=
  ⟨d.exceedsWord_eq, fun hlt => ⟨d.isBigdec_eq, by rw [d.decVal_eq, Nat.mod_eq_of_lt hlt]⟩⟩

/-- A letter in the second place marks a literal that was left as it is. -/
theorem exceedsWord_letter {c : Nat} (hc : 57 < c) : exceedsWord (48 :: c :: s) = 1 := by
  have hstrip : stripZeros (48 :: c :: s) = c :: s := by
    rw [stripZeros_cons, if_pos ⟨List.cons_ne_nil _ _, rfl⟩, stripZeros_cons, if_neg (by omega)]
  have hletter : 57 < characterCodeAt (48 :: c :: s) 1 := by
    rw [characterCodeAt_succ, characterCodeAt_zero]
    omega
  have hlimit : spell "18446744073709551615" = 49 :: spell "8446744073709551615" := rfl
  rw [exceedsWord, hstrip]
  by_cases hlen : (c :: s).length = 20
  · rw [if_pos hlen, hlimit, digitsExceed_differ (by omega), if_pos (by omega)]
  · rw [if_neg hlen, if_pos (.inr hletter)]

/-- A literal with a prefix. -/
theorem printNumber_reads (b limit : Nat) (dg : Nat → Nat) (st : LexState) {c : Nat} (hb : 1 < b)
    (hlimit : b ^ limit = 2 ^ 64) (h0 : src[i]? = some 48) (h1 : src[i + 1]? = some c) (hc : 57 < c)
    (hie : i + 2 ≤ e) (he : e ≤ src.length)
    (hdg : ∀ c ∈ slice src (i + 2) e, dg c < b ∧ (dg c = 0 ↔ c = 48)) :
    ∃ text, printNumber src i e (BitVec.ofNat 64 (readDigits b ((slice src (i + 2) e).map dg))) limit st =
        .ok (print (spell "int " ++ text) st) ∧
      Reads text (readDigits b ((slice src (i + 2) e).map dg)) := by
  obtain ⟨hhigh, hlow⟩ := zeroEnd_bounds hb hie he hdg
  rw [printNumber]
  split
  · next hlong =>
    have hbig := hlow limit hlong
    refine ⟨slice src i e, ?_, ?_, fun hlt => by omega⟩
    · rw [strSub_slice (by omega), Nat.add_sub_cancel' (by omega)]
      rfl
    · rw [slice_cons h0 (by omega), slice_cons h1 (by omega), exceedsWord_letter hc, if_pos (by omega)]
  · next hshort =>
    have hpow : b ^ (e - zeroEnd src e src.length (i + 2)) ≤ b ^ limit :=
      Nat.pow_le_pow_right (by omega) (by omega)
    obtain ⟨d, hd, hvalue⟩ := udec_value (BitVec.ofNat 64 (readDigits b ((slice src (i + 2) e).map dg)))
    rw [BitVec.toNat_ofNat, Nat.mod_eq_of_lt (by omega)] at hvalue
    have hreads := d.reads
    rw [hd, hvalue] at hreads
    exact ⟨udec _, rfl, hreads⟩

/-- The number at an index, by the digits of its radix. -/
def numberAt (src : Text) (i : Nat) : Nat :=
  if hexStart src i then readDigits 16 ((slice src (i + 2) (hexEnd src (i + 2))).map hexOf)
  else if binStart src i then readDigits 2 ((slice src (i + 2) (binEnd src (i + 2))).map digitOf)
  else valueOf (slice src i (digitRunEnd src i))

theorem scanHex_reads (st : LexState) (h : hexStart src i = true) : ∃ text,
    scanHex src i st = .ok (hexEnd src (i + 2), print (spell "int " ++ text) st) ∧
      Reads text (readDigits 16 ((slice src (i + 2) (hexEnd src (i + 2))).map hexOf)) := by
  have hs := h
  simp only [hexStart, Bool.and_eq_true, Bool.or_eq_true, decide_eq_true_eq] at hs
  have hrun : RunTo isHex src (i + 2) (hexEnd src (i + 2)) := runEnd_to rfl (i + 2)
  have hlarger := hrun.larger hs.2
  have he := (hrun.bound rfl).resolve_right (by omega)
  have hcls : ∀ c ∈ slice src (i + 2) (hexEnd src (i + 2)), isHex c = true := slice_class hrun
  obtain ⟨c, hc, hcode⟩ := @code_in src (i + 1) (by omega)
  obtain ⟨text, hprint, hreads⟩ := printNumber_reads 16 16 hexOf st (by decide) (by decide)
    (code_get hs.1.1) hc (by omega) hlarger.le he fun c hc => (hexDigit_eq (hcls c hc)).2
  refine ⟨text, ?_, hreads⟩
  rw [scanHex, hexVal_eq he hcls, hprint]
  rfl

theorem scanBin_reads (st : LexState) (h : binStart src i = true) : ∃ text,
    scanBin src i st = .ok (binEnd src (i + 2), print (spell "int " ++ text) st) ∧
      Reads text (readDigits 2 ((slice src (i + 2) (binEnd src (i + 2))).map digitOf)) := by
  have hs := h
  simp only [binStart, Bool.and_eq_true, Bool.or_eq_true, decide_eq_true_eq] at hs
  have hrun : RunTo isBin src (i + 2) (binEnd src (i + 2)) := runEnd_to rfl (i + 2)
  have hlarger := hrun.larger hs.2
  have he := (hrun.bound rfl).resolve_right (by omega)
  have hcls : ∀ c ∈ slice src (i + 2) (binEnd src (i + 2)), isBin c = true := slice_class hrun
  obtain ⟨c, hc, hcode⟩ := @code_in src (i + 1) (by omega)
  obtain ⟨text, hprint, hreads⟩ := printNumber_reads 2 64 digitOf st (by decide)
    (by decide) (code_get hs.1.1) hc (by omega) hlarger.le he fun c hc => by
      rcases isBin_cases (hcls c hc) with rfl | rfl <;> decide
  refine ⟨text, ?_, hreads⟩
  rw [scanBin, binVal_eq he hcls, hprint]
  rfl

/-- A digit begins a number. -/
theorem scanToken_digit {st : LexState} (h : characterIsDigitAt src i = true) :
    scanToken src i st = scanNumop src i st := by
  have hname : isNameStartAt src i = false := by
    rw [Bool.eq_false_iff]
    intro hn
    have := nameStart_iff.mp hn
    have := characterIsDigit_iff.mp h
    omega
  rw [scanToken, hname, if_neg (by decide)]

end IdCompiler.Num

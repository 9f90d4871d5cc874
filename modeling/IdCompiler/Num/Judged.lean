import IdCompiler.Num.Infinity
import IdCompiler.Num.Radix

/-!
# Float literals by value

A literal is digits, maybe a point with digits after it, and maybe an exponent. Every
number that the lexer cuts is one of these, or its exponent has no digits; the check
tells the two apart, and refuses exactly the literals that overflow.
-/

namespace IdCompiler.Num

open IdCompiler.Core IdCompiler.Source IdCompiler.Lexer IdCompiler.Tokens

variable {s t : Text} {c k : Nat}

/-! ## Texts cut at the mark -/

section Cut

variable {front es : Text}

theorem fltEAt_front (hfront : ∀ c ∈ front, c ≠ 101 ∧ c ≠ 69) : fltEAt front = front.length := by
  have h := fltEAt_append (t := []) hfront
  rwa [List.append_nil] at h

theorem fltEAt_cut (hfront : ∀ c ∈ front, c ≠ 101 ∧ c ≠ 69) (hc : c = 101 ∨ c = 69) :
    fltEAt (front ++ c :: es) = front.length := by
  rw [fltEAt_append hfront, fltEAt_mark hc, Nat.add_zero]

theorem length_lt_cut : front.length < (front ++ c :: es).length := by
  rw [List.length_append, List.length_cons]
  omega

theorem drop_cut : (front ++ c :: es).drop (front.length + 1) = es := by
  rw [List.drop_append, List.drop_eq_nil_of_le (Nat.le_succ _), List.nil_append, Nat.add_sub_cancel_left,
    List.drop_succ_cons, List.drop_zero]

theorem fltExpHas_cut : fltExpHas (front ++ c :: es) (front.length + 1) = fltExpHas es 0 := by
  have hread : ∀ j, characterCodeAt (front ++ c :: es) (front.length + 1 + j) = characterCodeAt es j :=
    fun j => by rw [characterCodeAt_drop, drop_cut]
  have hfirst := hread 0
  rw [Nat.add_zero] at hfirst
  rw [fltExpHas, hfirst, hread, fltExpHas, Nat.zero_add]

theorem fltExpOk_front (hfront : ∀ c ∈ front, c ≠ 101 ∧ c ≠ 69) : fltExpOk front = 1 := by
  rw [fltExpOk, fltEAt_front hfront, if_neg (Nat.lt_irrefl _)]

theorem fltExpOk_cut (hfront : ∀ c ∈ front, c ≠ 101 ∧ c ≠ 69) (hc : c = 101 ∨ c = 69) :
    fltExpOk (front ++ c :: es) = fltExpHas es 0 := by
  rw [fltExpOk, fltEAt_cut hfront hc, if_pos length_lt_cut, fltExpHas_cut]

theorem fltLitExp_front (hfront : ∀ c ∈ front, c ≠ 101 ∧ c ≠ 69) : fltLitExp front = .ok 0 := by
  rw [fltLitExp, fltEAt_front hfront, if_neg (Nat.lt_irrefl _)]
  rfl

theorem fltLitExp_cut (hfront : ∀ c ∈ front, c ≠ 101 ∧ c ≠ 69) (hc : c = 101 ∨ c = 69) :
    fltLitExp (front ++ c :: es) = fltExpOf es := by
  rw [fltLitExp, fltEAt_cut hfront hc, if_pos length_lt_cut, sliceAt_tail, drop_cut]
  rfl

end Cut

/-! ## Literals -/

/-- The part of a literal from its `e` on. -/
structure Exponent where
  mark : Nat
  mark_ok : mark = 101 ∨ mark = 69
  sign : Text
  sign_ok : sign = [] ∨ sign = [43] ∨ sign = [45]
  digits : Decimal

structure FloatLit where
  whole : Decimal
  frac : Option Decimal
  exp : Option Exponent

namespace Exponent

variable (e : Exponent)

def text : Text := e.mark :: (e.sign ++ e.digits.text)

def value : ℤ := if e.sign = [45] then -e.digits.value else e.digits.value

/-- What `flt_exp_of` makes of a number. -/
def clamp (n : ℤ) : ℤ := max (-1000000) (min n 1000000)

theorem point_not_mem : 46 ∉ e.text := by
  intro hmem
  rcases List.mem_cons.mp hmem with hmark | hmem
  · have := e.mark_ok
    omega
  · rcases List.mem_append.mp hmem with hsign | hdigit
    · rcases e.sign_ok with hs | hs | hs <;> rw [hs] at hsign <;> simp at hsign
    · have := e.digits.digit 46 hdigit
      omega

theorem code_digit (d : Decimal) : 48 ≤ characterCodeAt d.text 0 ∧ characterCodeAt d.text 0 ≤ 57 := by
  obtain ⟨c, rest, hd⟩ := List.exists_cons_of_ne_nil d.ne
  have hc := d.digit c (hd ▸ List.mem_cons_self)
  rw [hd, characterCodeAt_zero]
  omega

theorem fltExpHas_eq : fltExpHas (e.sign ++ e.digits.text) 0 = 1 := by
  have hcode := code_digit e.digits
  have hunsigned : isSign (characterCodeAt e.digits.text 0) = 0 := if_neg (by omega)
  rw [fltExpHas]
  rcases e.sign_ok with hs | hs | hs <;> rw [hs]
  · rw [List.nil_append, hunsigned]
    exact if_pos hcode
  · exact if_pos hcode
  · exact if_pos hcode

theorem fltExpOf_eq : fltExpOf (e.sign ++ e.digits.text) = .ok (clamp e.value) := by
  have hcode := code_digit e.digits
  rw [value, clamp]
  rcases e.sign_ok with hs | hs | hs <;> rw [hs]
  · rw [List.nil_append, fltExpOf, isSign, if_neg (by omega), sliceAt_tail]
    show Except.ok (if _ then _ else _) = _
    rw [if_neg (by omega), if_neg (by decide), List.drop_zero, e.digits.fltClamp_eq]
    congr 1
    omega
  · rw [fltExpOf, sliceAt_tail]
    show Except.ok (fltClamp (stripZeros e.digits.text)) = _
    rw [if_neg (by decide), e.digits.fltClamp_eq]
    congr 1
    omega
  · rw [fltExpOf, sliceAt_tail]
    show Except.ok (0 - fltClamp (stripZeros e.digits.text)) = _
    rw [if_pos rfl, e.digits.fltClamp_eq]
    congr 1
    omega

end Exponent

namespace FloatLit

variable (x : FloatLit)

def fracDigits : Text := x.frac.elim [] Decimal.text

def fracText : Text := x.frac.elim [] fun d => 46 :: d.text

def expText : Text := x.exp.elim [] Exponent.text

def expValue : ℤ := x.exp.elim 0 Exponent.value

def mantissa : Text := x.whole.text ++ x.fracDigits

def text : Text := x.whole.text ++ x.fracText ++ x.expText

/-- The number that a literal denotes. -/
def value : ℚ := valueOf x.mantissa * 10 ^ (x.expValue - x.fracDigits.length)

theorem fracDigits_digit : ∀ c ∈ x.fracDigits, 48 ≤ c ∧ c ≤ 57 := by
  rw [fracDigits]
  cases x.frac with
  | none => simp
  | some d => exact d.digit

theorem mantissa_digit : ∀ c ∈ x.mantissa, 48 ≤ c ∧ c ≤ 57 := fun c hc =>
  (List.mem_append.mp hc).elim (x.whole.digit c) (x.fracDigits_digit c)

/-- Before the exponent there is no mark. -/
theorem front_code : ∀ c ∈ x.whole.text ++ x.fracText, c ≠ 101 ∧ c ≠ 69 := by
  have hfrac : ∀ c ∈ x.fracText, c ≠ 101 ∧ c ≠ 69 := by
    rw [fracText]
    cases x.frac with
    | none => simp
    | some d =>
      intro c hc
      rcases List.mem_cons.mp hc with rfl | hc
      · decide
      · have := d.digit c hc
        omega
  intro c hc
  rcases List.mem_append.mp hc with hc | hc
  · have := x.whole.digit c hc
    omega
  · exact hfrac c hc

theorem fltEAt_text : fltEAt x.text = (x.whole.text ++ x.fracText).length := by
  have hexp : fltEAt x.expText = 0 := by
    rw [expText]
    cases x.exp with
    | none => rfl
    | some e => exact fltEAt_mark e.mark_ok
  rw [text, fltEAt_append x.front_code, hexp, Nat.add_zero]

/-- A literal is cut where its exponent begins. -/
theorem text_cut : (x.exp = none ∧ x.text = x.whole.text ++ x.fracText) ∨
    ∃ e, x.exp = some e ∧ x.text = (x.whole.text ++ x.fracText) ++ e.mark :: (e.sign ++ e.digits.text) := by
  cases hexp : x.exp with
  | none => exact .inl ⟨rfl, by rw [text, expText, hexp, Option.elim_none, List.append_nil]⟩
  | some e => exact .inr ⟨e, rfl, by rw [text, expText, hexp]; rfl⟩

theorem fltExpOk_text : fltExpOk x.text = 1 := by
  rcases x.text_cut with ⟨-, htext⟩ | ⟨e, -, htext⟩
  · rw [htext, fltExpOk_front x.front_code]
  · rw [htext, fltExpOk_cut x.front_code e.mark_ok]
    exact e.fltExpHas_eq

theorem fltLitMant_text : fltLitMant x.text = .ok x.mantissa := by
  have hdigit : ∀ {s : Text}, (∀ c ∈ s, 48 ≤ c ∧ c ≤ 57) → s.filter (fun c => c ≠ 46) = s := fun hs =>
    List.filter_eq_self.mpr fun c hc => by
      have := hs c hc
      simp
      omega
  have hfrac : x.fracText.filter (fun c => c ≠ 46) = x.fracDigits := by
    rw [fracText, fracDigits]
    cases x.frac with
    | none => rfl
    | some d => exact hdigit d.digit
  rw [fltLitMant, fltEAt_text, sliceAt_head (by rw [text]; simp), text, List.take_left]
  show Except.ok (stringReplace _ _ _) = _
  rw [stringReplace_point, List.filter_append, hdigit x.whole.digit, hfrac, mantissa]

theorem point_not_mem_whole : 46 ∉ x.whole.text := fun hmem => absurd (x.whole.digit 46 hmem) (by decide)

theorem point_not_mem_exp : 46 ∉ x.expText := by
  rw [expText]
  cases x.exp with
  | none => exact List.not_mem_nil
  | some e => exact e.point_not_mem

theorem fracText_none (h : x.frac = none) : x.fracText = [] := by rw [fracText, h, Option.elim_none]

theorem find_none (h : x.frac = none) : stringFind x.text (spell ".") = -1 := by
  refine stringFind_none ?_
  rw [text, x.fracText_none h, List.append_nil, List.mem_append, not_or]
  exact ⟨x.point_not_mem_whole, x.point_not_mem_exp⟩

theorem find_some {d : Decimal} (h : x.frac = some d) : stringFind x.text (spell ".") = x.whole.text.length := by
  rw [text, fracText, h, List.append_assoc]
  exact stringFind_at x.point_not_mem_whole

theorem fltIlen_text : fltIlen x.text = x.whole.text.length := by
  rw [fltIlen]
  cases hfrac : x.frac with
  | none => rw [x.find_none hfrac, if_neg (by decide), fltEAt_text, x.fracText_none hfrac, List.append_nil]
  | some d => rw [x.find_some hfrac, if_pos (by omega)]

theorem fltLitExp_text : fltLitExp x.text = .ok (Exponent.clamp x.expValue) := by
  rcases x.text_cut with ⟨hexp, htext⟩ | ⟨e, hexp, htext⟩
  · rw [htext, fltLitExp_front x.front_code, expValue, hexp]
    rfl
  · rw [htext, fltLitExp_cut x.front_code e.mark_ok, e.fltExpOf_eq, expValue, hexp, Option.elim_some]

/-- The digits that count. -/
def significant : Text := x.mantissa.dropWhile fun c => c = 48

theorem significant_digit : ∀ c ∈ x.significant, 48 ≤ c ∧ c ≤ 57 := fun c hc =>
  x.mantissa_digit c ((List.dropWhile_suffix _).subset hc)

theorem significant_head (c : Nat) (s : Text) (h : x.significant = c :: s) : c ≠ 48 := by
  have hhead := List.head?_dropWhile_not (fun c => decide (c = 48)) x.mantissa
  rw [← significant, h] at hhead
  simpa using hhead

theorem valueOf_significant : valueOf x.significant = valueOf x.mantissa := valueOf_dropWhile _

theorem mantissa_length : x.mantissa.length = x.whole.text.length + x.fracDigits.length := List.length_append

theorem mantissa_le : x.mantissa.length ≤ x.text.length := by
  have hfrac : x.fracDigits.length ≤ x.fracText.length := by
    rw [fracDigits, fracText]
    cases x.frac with
    | none => exact Nat.le_refl 0
    | some d => exact Nat.le_succ _
  rw [mantissa_length, text, List.length_append, List.length_append]
  omega

theorem fltScale_text : fltScale x.text x.mantissa x.significant =
    .ok (Exponent.clamp x.expValue - x.fracDigits.length + x.significant.length) := by
  rw [fltScale, fltLitExp_text]
  show Except.ok (_ + _ - _ + _) = _
  rw [fltIlen_text, mantissa_length]
  congr 1
  omega

/-- An exponent that is clamped leaves the point as far from the limit. -/
theorem overflows_clamp (hne : x.significant ≠ []) (hlen : x.text.length + 309 ≤ 1000000) :
    Overflows (valueOf x.significant * 10 ^ (Exponent.clamp x.expValue - x.fracDigits.length)) ↔
      Overflows (valueOf x.significant * 10 ^ (x.expValue - x.fracDigits.length)) := by
  have hpoint : ∀ e : ℤ, e - x.fracDigits.length =
      (e - x.fracDigits.length + x.significant.length) - x.significant.length := fun e => by omega
  have hbound := x.mantissa_le
  have hcount : x.significant.length ≤ x.mantissa.length := (List.dropWhile_suffix _).length_le
  have hsome := List.length_pos_iff.mpr hne
  have hlength := x.mantissa_length
  have habove : ∀ e : ℤ, 1000000 ≤ e → Overflows (valueOf x.significant * 10 ^ (e - x.fracDigits.length)) :=
    fun e he => by
      obtain ⟨c, s, hcs⟩ := List.exists_cons_of_ne_nil hne
      have hc := x.significant_digit c (hcs ▸ List.mem_cons_self)
      rw [hpoint, hcs]
      refine overflows_of_lt hc.1 (x.significant_head c s hcs) ?_
      rw [← hcs, fltInfPt]
      omega
  have hbelow : ∀ e : ℤ, e ≤ -1000000 → ¬Overflows (valueOf x.significant * 10 ^ (e - x.fracDigits.length)) :=
    fun e he => by
      rw [hpoint]
      refine not_overflows_of_lt x.significant_digit ?_
      rw [fltInfPt]
      omega
  have hcases : Exponent.clamp x.expValue = x.expValue ∨
      (1000000 ≤ Exponent.clamp x.expValue ∧ 1000000 ≤ x.expValue) ∨
      (Exponent.clamp x.expValue ≤ -1000000 ∧ x.expValue ≤ -1000000) := by
    rw [Exponent.clamp]
    omega
  rcases hcases with heq | ⟨hclamp, hexp⟩ | ⟨hclamp, hexp⟩
  · rw [heq]
  · exact iff_of_true (habove _ hclamp) (habove _ hexp)
  · exact iff_of_false (hbelow _ hclamp) (hbelow _ hexp)

/-- The digits decide whether a literal overflows. -/
theorem fltOver_text (hlen : x.text.length + 309 ≤ 1000000) :
    fltOver x.text = .ok (if Overflows x.value then 1 else 0) := by
  rw [value, ← valueOf_significant, fltOver, fltLitMant_text]
  show (fltLstrip x.mantissa >>= _) = _
  rw [fltLstrip_eq, ← significant]
  show (if _ then _ else _) = _
  by_cases hne : x.significant = []
  · have hzero : ¬Overflows 0 := by
      rw [overflows_iff, not_le]
      have hpos : 0 < valueOf fltInfDigits := by decide +kernel
      exact_mod_cast hpos
    rw [hne, List.length_nil, if_neg (Nat.lt_irrefl 0), show valueOf [] = 0 from rfl, Nat.cast_zero, zero_mul, if_neg hzero]
    rfl
  · rw [if_pos (List.length_pos_iff.mpr hne), fltScale_text]
    show fltOverAt _ _ = _
    rw [fltOverAt_eq x.significant_digit hne x.significant_head, add_sub_cancel_right]
    congr 1
    exact if_congr (x.overflows_clamp hne hlen) rfl rfl

theorem fltCheck_text (hlen : x.text.length + 309 ≤ 1000000) :
    fltCheck x.text = .ok (if Overflows x.value then [tooLarge x.text] else []) := by
  rw [fltCheck, fltExpOk_text, if_neg (by decide), fltOver_text _ hlen]
  show Except.ok _ = _
  by_cases hover : Overflows x.value
  · rw [if_pos hover, if_pos hover, if_pos rfl]
  · rw [if_neg hover, if_neg hover, if_neg (by decide)]

/-- A literal with a point before its exponent. -/
def pointed : FloatLit :=
  if x.exp.isSome ∧ x.frac = none then
    { x with frac := some ⟨[48], by decide, by decide⟩ }
  else x

theorem pointed_value : x.pointed.value = x.value := by
  rw [pointed]
  split
  · next h =>
    have hmantissa : x.mantissa = x.whole.text := by
      rw [mantissa, fracDigits, h.2, Option.elim_none, List.append_nil]
    have hvalue : valueOf (x.whole.text ++ [48]) = valueOf x.whole.text * 10 := valueOf_concat
    have hfrac : x.fracDigits.length = 0 := by
      rw [fracDigits, h.2]
      rfl
    rw [value, value, hmantissa, hfrac]
    show (valueOf (x.whole.text ++ [48]) : ℚ) * 10 ^ (x.expValue - 1) = _
    rw [hvalue, Nat.cast_mul, Nat.cast_ofNat, mul_assoc, ← zpow_one_add₀ (by norm_num)]
    congr 2
    omega
  · rfl

theorem pointed_frac (h : x.pointed.exp.isSome) : x.pointed.frac.isSome := by
  rw [pointed] at h ⊢
  split
  · rfl
  · next hnot =>
    rw [if_neg hnot] at h
    cases hfrac : x.frac with
    | none => exact absurd ⟨h, hfrac⟩ hnot
    | some d => rfl

/-- The spelling that the backends get is a literal's, too. -/
theorem fltNorm_text : fltNorm x.text = .ok x.pointed.text := by
  rw [fltNorm, fltEAt_text]
  cases hfrac : x.frac with
  | some d =>
    rw [x.find_some hfrac, if_neg (by omega), pointed, if_neg (by rw [hfrac]; simp)]
    rfl
  | none =>
    rw [x.find_none hfrac, x.fracText_none hfrac, List.append_nil]
    rcases x.text_cut with ⟨hexp, htext⟩ | ⟨e, hexp, htext⟩
    · rw [x.fracText_none hfrac, List.append_nil] at htext
      rw [if_neg (by rw [htext]; omega), pointed, if_neg (by rw [hexp]; simp)]
      rfl
    · rw [x.fracText_none hfrac, List.append_nil] at htext
      have hlt : x.whole.text.length < x.text.length := htext ▸ length_lt_cut
      rw [if_pos ⟨hlt, by decide⟩, sliceAt_head hlt.le, sliceAt_tail, htext, List.take_left, List.drop_left, pointed,
        if_pos ⟨by rw [hexp]; rfl, hfrac⟩, text, expText, hexp]
      rfl

end FloatLit

/-! ## Numbers in a source -/

variable {src : Text} {i j : Nat}

theorem slice_frac (src : Text) (e : Nat) : ∃ frac : Option Decimal,
    slice src e (if hasFrac src e then digitRunEnd src (e + 1) else e) = frac.elim [] fun d => 46 :: d.text := by
  by_cases hfrac : hasFrac src e = true
  · have hpoint := hfrac
    rw [hasFrac, Bool.and_eq_true, decide_eq_true_eq] at hpoint
    obtain ⟨d, hd⟩ := slice_decimal hpoint.2
    refine ⟨some d, ?_⟩
    rw [if_pos hfrac, slice_cons (code_get hpoint.1) (digitRun_to src (e + 1)).le, hd]
    rfl
  · refine ⟨none, ?_⟩
    rw [if_neg hfrac, slice_self]
    rfl

/-- An exponent's digits may be missing. -/
theorem slice_exp (src : Text) (k : Nat) : slice src k (expEnd src k) = [] ∨
    ∃ c sign ds, slice src k (expEnd src k) = c :: (sign ++ ds) ∧ (c = 101 ∨ c = 69) ∧
      (sign = [] ∨ sign = [43] ∨ sign = [45]) ∧ ∀ d ∈ ds, 48 ≤ d ∧ d ≤ 57 := by
  by_cases hmark : characterCodeAt src k = 101 ∨ characterCodeAt src k = 69
  · right
    obtain ⟨c, hc⟩ : ∃ c : Nat, characterCodeAt src k = c :=
      hmark.elim (fun h => ⟨101, h⟩) (fun h => ⟨69, h⟩)
    have hget := code_get hc
    by_cases hsign : characterCodeAt src (k + 1) = 43 ∨ characterCodeAt src (k + 1) = 45
    · obtain ⟨g, hg⟩ : ∃ g : Nat, characterCodeAt src (k + 1) = g :=
        hsign.elim (fun h => ⟨43, h⟩) (fun h => ⟨45, h⟩)
      have hrun := digitRun_to src (k + 1 + 1)
      have hle := hrun.le
      rw [show expEnd src k = digitRunEnd src (k + 1 + 1) by simp only [expEnd, if_pos hmark, if_pos hsign]]
      refine ⟨c, [g], slice src (k + 1 + 1) (digitRunEnd src (k + 1 + 1)), ?_, by omega, ?_, slice_digits hrun⟩
      · rw [slice_cons hget (by omega), slice_cons (code_get hg) (by omega)]
        rfl
      · rw [hg] at hsign
        right
        rcases hsign with h | h
        · left
          rw [Int.ofNat.inj h]
        · right
          rw [Int.ofNat.inj h]
    · have hrun := digitRun_to src (k + 1)
      have hle := hrun.le
      rw [show expEnd src k = digitRunEnd src (k + 1) by simp only [expEnd, if_pos hmark, if_neg hsign, Nat.add_zero]]
      refine ⟨c, [], slice src (k + 1) (digitRunEnd src (k + 1)), ?_, by omega, .inl rfl, slice_digits hrun⟩
      rw [slice_cons hget (by omega)]
      rfl
  · left
    rw [expEnd, if_neg hmark, slice_self]

/-- What the parser makes of a number's text: it is a literal and is refused if it overflows, and else the backends
get a spelling of the same number; or no literal is spelled so, and it is refused. -/
def Judged (text : Text) : Prop :=
  (∃ x : FloatLit, x.text = text ∧
    fltCheck text = .ok (if Overflows x.value then [tooLarge text] else []) ∧
    ∃ y : FloatLit, fltNorm text = .ok y.text ∧ y.value = x.value ∧ (y.exp.isSome → y.frac.isSome)) ∨
  (∀ x : FloatLit, x.text ≠ text) ∧ fltCheck text = .ok [noDigits text]

theorem FloatLit.judged (x : FloatLit) (hlen : x.text.length + 309 ≤ 1000000) : Judged x.text :=
  .inl ⟨x, rfl, x.fltCheck_text hlen, x.pointed, x.fltNorm_text, x.pointed_value, x.pointed_frac⟩

/-- An exponent without digits spells no literal. -/
theorem judged_broken {front sign : Text} (hfront : ∀ c ∈ front, c ≠ 101 ∧ c ≠ 69) (hc : c = 101 ∨ c = 69)
    (hsign : sign = [] ∨ sign = [43] ∨ sign = [45]) : Judged (front ++ c :: sign) := by
  have hbad : fltExpOk (front ++ c :: sign) = 0 := by
    rw [fltExpOk_cut hfront hc]
    rcases hsign with rfl | rfl | rfl <;> rfl
  refine .inr ⟨fun x hx => ?_, ?_⟩
  · have hok := x.fltExpOk_text
    rw [hx, hbad] at hok
    cases hok
  · rw [fltCheck, if_pos hbad]
    rfl

theorem slice_judged (h : characterIsDigitAt src i = true)
    (hlen : (slice src i (numEnd src (digitRunEnd src i))).length + 309 ≤ 1000000) :
    Judged (slice src i (numEnd src (digitRunEnd src i))) := by
  obtain ⟨whole, hwhole⟩ := slice_decimal h
  obtain ⟨frac, hfrac⟩ := slice_frac src (digitRunEnd src i)
  set fe := if hasFrac src (digitRunEnd src i) then digitRunEnd src (digitRunEnd src i + 1) else digitRunEnd src i
    with hfe
  have hnum : numEnd src (digitRunEnd src i) = expEnd src fe := rfl
  have hle : digitRunEnd src i ≤ fe := by
    rw [hfe]
    split
    · exact (Nat.le_succ _).trans (digitRun_to src _).le
    · exact Nat.le_refl _
  have hsplit : slice src i (expEnd src fe) =
      whole.text ++ frac.elim [] (fun d => 46 :: d.text) ++ slice src fe (expEnd src fe) := by
    rw [← hwhole, ← hfrac, ← slice_append (digitRun_to src i).le hle,
      ← slice_append ((digitRun_to src i).le.trans hle) (expEnd_spec src fe).1]
  rw [hnum, hsplit] at hlen ⊢
  have hfront := FloatLit.front_code ⟨whole, frac, none⟩
  rcases slice_exp src fe with hnil | ⟨c, sign, ds, hexp, hc, hsign, hds⟩
  · rw [hnil] at hlen ⊢
    exact FloatLit.judged ⟨whole, frac, none⟩ hlen
  · rw [hexp] at hlen ⊢
    by_cases hne : ds = []
    · rw [hne, List.append_nil]
      exact judged_broken hfront hc hsign
    · exact FloatLit.judged ⟨whole, frac, some ⟨c, hc, sign, hsign, ds, hne, hds⟩⟩ hlen

/-- Every float of a source is judged by its value. -/
theorem scanToken_judged {st : LexState} (h : characterIsDigitAt src i = true) : ∃ j kind text,
    scanToken src i st = .ok (j, print (kind ++ spell " " ++ text) st) ∧
      (kind = spell "float" → text = slice src i j ∧ (text.length + 309 ≤ 1000000 → Judged text)) := by
  rw [scanToken_digit h, scanNumop]
  split
  · next hhex =>
    obtain ⟨text, hscan, -⟩ := scanHex_reads st hhex
    exact ⟨_, spell "int", text, hscan, fun hkind => absurd hkind (by decide)⟩
  · rw [scanBinop]
    split
    · next hbin =>
      obtain ⟨text, hscan, -⟩ := scanBin_reads st hbin
      exact ⟨_, spell "int", text, hscan, fun hkind => absurd hkind (by decide)⟩
    · rw [scanDecop, if_pos h]
      exact ⟨_, _, _, scanNumber_eq h, fun _ => ⟨rfl, slice_judged h⟩⟩

theorem scanToken_judged_large : ∃ j kind text,
    scanToken (spell "2e308;") 0 (lexSetup false) = .ok (j, print (kind ++ spell " " ++ text) (lexSetup false)) ∧
      (kind = spell "float" →
        text = slice (spell "2e308;") 0 j ∧ (text.length + 309 ≤ 1000000 → Judged text)) :=
  scanToken_judged (by decide)

end IdCompiler.Num

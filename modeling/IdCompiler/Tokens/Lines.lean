import IdCompiler.Tokens.Load

/-!
# Loading line by line

A text of lines is loaded as its lines are told one after the other, and a
number that was printed is read back.
-/

namespace IdCompiler.Tokens

open IdCompiler.Source IdCompiler.Lexer

variable {t pre post src : Text} {s : TokStore} {i e : Nat} {lines : List Text}

/-! ## One line -/

/-- What stands before the first space. -/
def kindOf (t : Text) : Text := t.takeWhile (· ≠ 32)

/-- What stands after the first space. -/
def textOf (t : Text) : Text := (t.dropWhile (· ≠ 32)).drop 1

/-- A line, taken in. -/
def TokStore.tell (s : TokStore) (t : Text) : TokStore :=
  if t = [] then s else s.pushTok (kindOf t) (textOf t)

/-- Lines as they stand in a text. -/
def joined (lines : List Text) : Text := lines.flatMap (· ++ [10])

theorem kindOf_cut {kind : Text} (text : Text) (h : 32 ∉ kind) : kindOf (kind ++ 32 :: text) = kind := by
  have hall : ∀ c ∈ kind, decide (c ≠ 32) = true := fun c hc => by
    simpa using ne_of_mem_of_not_mem hc h
  rw [kindOf, List.takeWhile_append_of_pos hall]
  simp

theorem textOf_cut {kind : Text} (text : Text) (h : 32 ∉ kind) : textOf (kind ++ 32 :: text) = text := by
  have hall : ∀ c ∈ kind, decide (c ≠ 32) = true := fun c hc => by
    simpa using ne_of_mem_of_not_mem hc h
  rw [textOf, List.dropWhile_append_of_pos hall]
  simp

/-- A line is its kind and what follows. -/
theorem kindOf_append (t : Text) : kindOf t ++ t.dropWhile (· ≠ 32) = t :=
  List.takeWhile_append_dropWhile

theorem kindOf_length_le (t : Text) : (kindOf t).length ≤ t.length :=
  (List.takeWhile_prefix _).length_le

theorem take_kindOf (t : Text) : t.take (kindOf t).length = kindOf t := by
  have h : (kindOf t ++ t.dropWhile (· ≠ 32)).take (kindOf t).length = kindOf t := List.take_left
  rwa [kindOf_append] at h

theorem drop_kindOf (t : Text) : t.drop ((kindOf t).length + 1) = textOf t := by
  have hcut : (kindOf t ++ t.dropWhile (· ≠ 32)).drop (kindOf t).length = t.dropWhile (· ≠ 32) :=
    List.drop_left
  rw [kindOf_append] at hcut
  rw [textOf, ← hcut, List.drop_drop]

/-- Two runs of one class from one index end together. -/
theorem run_unique {cls : Int → Bool} {e e' : Nat} (h : RunTo cls src i e)
    (h' : RunTo cls src i e') : e = e' := by
  apply le_antisymm
  · by_contra hlt
    have hin := h.inside e' h'.le (by omega)
    rw [h'.stop] at hin
    cases hin
  · by_contra hlt
    have hin := h'.inside e h.le (by omega)
    rw [h.stop] at hin
    cases hin

section

variable (h10 : 10 ∉ t)

theorem code_line (pre post : Text) {k : Nat} (hk : k < t.length) :
    characterCodeAt (pre ++ t ++ 10 :: post) (pre.length + k) = (t[k] : Nat) := by
  apply code_some
  rw [List.append_assoc, List.getElem?_append_right (by omega), Nat.add_sub_cancel_left,
    List.getElem?_append_left hk, List.getElem?_eq_getElem hk]

theorem code_end : characterCodeAt (pre ++ t ++ 10 :: post) (pre.length + t.length) = 10 := by
  have hget : (pre ++ t ++ 10 :: post)[pre.length + t.length]? = some 10 := by
    rw [List.getElem?_append_right (by simp), List.length_append, Nat.sub_self]
    rfl
  exact code_some hget

include h10 in
/-- A line ends at its newline. -/
theorem eol_line : stringEndOfLine (pre ++ t ++ 10 :: post) pre.length = pre.length + t.length := by
  refine run_unique (eol_to _ _) ⟨Nat.le_add_right _ _, fun k hk hlt => ?_, by rw [code_end]; rfl⟩
  have hlt' : k - pre.length < t.length := by omega
  have hcode := code_line pre post hlt'
  rw [Nat.add_sub_cancel' hk] at hcode
  have hne : t[k - pre.length] ≠ 10 := fun heq => h10 (heq ▸ List.getElem_mem hlt')
  simp only [hcode, Bool.and_eq_true, decide_eq_true_eq]
  omega

theorem findSpaceLoop_line {fuel k : Nat} (hk : k ≤ t.length) (hfuel : t.length ≤ k + fuel) :
    findSpaceLoop (pre ++ t ++ 10 :: post) (pre.length + t.length) fuel (pre.length + k) =
      pre.length + k + (kindOf (t.drop k)).length := by
  induction fuel generalizing k with
  | zero =>
    rw [findSpaceLoop, List.drop_of_length_le (by omega)]
    rfl
  | succ fuel ih =>
    rw [findSpaceLoop]
    by_cases hlt : k < t.length
    · rw [code_line _ _ hlt, List.drop_eq_getElem_cons hlt, kindOf, List.takeWhile_cons]
      by_cases hsp : t[k] = 32
      · simp [hsp]
      · have hgo : pre.length + k < pre.length + t.length ∧ ((t[k] : Nat) : Int) ≠ 32 := by omega
        rw [if_pos hgo, Nat.add_assoc, ih (by omega) (by omega), if_pos (by simpa using hsp),
          List.length_cons]
        unfold kindOf
        omega
    · rw [if_neg (by omega), List.drop_of_length_le (by omega)]
      rfl

theorem slice_line (pre post : Text) {a b : Nat} (hb : b ≤ t.length) :
    slice (pre ++ t ++ 10 :: post) (pre.length + a) (pre.length + b) = (t.drop a).take (b - a) := by
  rw [slice, List.append_assoc, ← List.drop_drop, List.drop_left, Nat.add_sub_add_left]
  by_cases ha : a ≤ t.length
  · rw [List.drop_append_of_le_length ha, List.take_append_of_le_length (by simp; omega)]
  · rw [Nat.sub_eq_zero_of_le (by omega), List.take_zero, List.take_zero]

theorem sliceAt_slice {a b : Nat} (hb : b ≤ src.length) : sliceAt src a b = .ok (slice src a b) :=
  sliceStr_slice hb

/-- A line is cut at its first space. -/
theorem procLine_line :
    procLine (pre ++ t ++ 10 :: post) pre.length (pre.length + t.length) s = .ok (s.tell t) := by
  have hfind : findSpace (pre ++ t ++ 10 :: post) pre.length (pre.length + t.length) =
      pre.length + (kindOf t).length := findSpaceLoop_line (k := 0) (Nat.zero_le _) (by omega)
  have hkind := kindOf_length_le t
  rw [procLine, hfind, TokStore.tell]
  cases t with
  | nil => simp
  | cons c u =>
    have hcut : pre.length + (kindOf (c :: u)).length ≤ (pre ++ c :: u ++ 10 :: post).length := by
      rw [List.length_append, List.length_append]
      omega
    rw [if_pos (by simp), if_neg (by simp), sliceAt_slice hcut, sliceAt_slice (by simp)]
    have hk := slice_line pre post (a := 0) hkind
    have ht := slice_line pre post (a := (kindOf (c :: u)).length + 1)
      (Nat.le_refl (c :: u).length)
    rw [Nat.add_zero, Nat.sub_zero, List.drop_zero, take_kindOf] at hk
    rw [drop_kindOf, List.take_of_length_le (by rw [← drop_kindOf, List.length_drop])] at ht
    rw [hk, Nat.add_assoc, ht]
    rfl

include h10 in
theorem takeLine_line : takeLine (pre ++ t ++ 10 :: post) pre.length s =
    .ok ((pre ++ t ++ [10]).length, s.tell t) := by
  rw [takeLine, eol_line h10]
  show (procLine _ _ _ s >>= _) = _
  rw [procLine_line]
  simp [pure, Except.pure, bind, Except.bind, Nat.add_assoc]

end

/-! ## All lines -/

theorem joined_cons (t : Text) (lines : List Text) :
    joined (t :: lines) = t ++ 10 :: joined lines := by
  simp [joined]

/-- From the start of a line the rest is told line by line. -/
theorem loadAt_lines {fuel : Nat} (h10 : ∀ t ∈ lines, 10 ∉ t)
    (hlen : (pre ++ joined lines).length < 2 ^ 31) (hfuel : lines.length < fuel) :
    loadAt (pre ++ joined lines) fuel pre.length s = some (.ok (lines.foldl TokStore.tell s)) := by
  have hint : len (pre ++ joined lines) = (pre ++ joined lines).length := by
    unfold len
    rw [Int.bmod_eq_of_le] <;> omega
  induction lines generalizing fuel pre s with
  | nil =>
    obtain ⟨fuel, rfl⟩ := Nat.exists_eq_succ_of_ne_zero (show fuel ≠ 0 by omega)
    rw [loadAt, if_neg (by rw [hint]; simp [joined])]
    rfl
  | cons t lines ih =>
    obtain ⟨fuel, rfl⟩ := Nat.exists_eq_succ_of_ne_zero (show fuel ≠ 0 by omega)
    have hsplit : pre ++ joined (t :: lines) = pre ++ t ++ 10 :: joined lines := by
      rw [joined_cons, List.append_assoc]
    have hsplit' : pre ++ joined (t :: lines) = pre ++ t ++ [10] ++ joined lines := by
      rw [hsplit]
      simp
    rw [loadAt, if_pos (by rw [hint, hsplit]; simp; omega), hsplit,
      takeLine_line (h10 t List.mem_cons_self), ← hsplit, hsplit']
    rw [hsplit'] at hlen hint
    exact ih (fun u hu => h10 u (List.mem_cons_of_mem t hu)) hlen (by simpa using hfuel) hint

theorem length_le_joined (lines : List Text) : lines.length ≤ (joined lines).length := by
  induction lines with
  | nil => exact Nat.le_refl _
  | cons t lines ih =>
    rw [joined_cons]
    simp
    omega

/-- A text of lines, each without a newline, is told line by line. -/
theorem load_lines (h10 : ∀ t ∈ lines, 10 ∉ t) (hlen : (joined lines).length < 2 ^ 31) :
    load (joined lines) s = some (.ok (lines.foldl TokStore.tell s)) := by
  rw [← List.nil_append (joined lines)] at hlen ⊢
  exact loadAt_lines h10 hlen (Nat.lt_succ_of_le (length_le_joined lines))

/-! ## Numbers -/

theorem digitsLoop_first {fuel u : Nat} {out : Text} (h : 0 < fuel) :
    ∃ c rest, digitsLoop fuel u out = c :: rest ∧ 48 ≤ c ∧ c ≤ 57 := by
  induction fuel generalizing u out with
  | zero => exact absurd h (Nat.lt_irrefl 0)
  | succ fuel ih =>
    rw [digitsLoop]
    split
    · exact ⟨_, _, rfl, by omega, by omega⟩
    · next hu =>
      cases fuel with
      | zero => exact ⟨48 + u % 10, out, rfl, by omega, by omega⟩
      | succ fuel => exact ih (Nat.succ_pos fuel)

/-- Digits that were printed are read back, and reading goes on with their number. -/
theorem toIntLoop_digits {fuel u lim : Nat} {out : Text} (hu : u < 10 ^ fuel) (hlim : u ≤ lim) :
    toIntLoop lim (digitsLoop fuel u out) 0 = toIntLoop lim out u := by
  induction fuel generalizing u out with
  | zero =>
    obtain rfl : u = 0 := by simpa using hu
    rfl
  | succ fuel ih =>
    rw [digitsLoop]
    have hdigit : 48 ≤ 48 + u % 10 ∧ 48 + u % 10 ≤ 57 := by omega
    split
    · rw [toIntLoop, if_pos hdigit, if_neg (by omega)]
      congr 1
      omega
    · rw [ih (by rw [Nat.pow_succ] at hu; omega) (by omega), toIntLoop, if_pos hdigit,
        if_neg (by omega)]
      congr 1
      omega

theorem toInt_minus (s : Text) :
    toInt (45 :: s) = Int.bmod (-(toIntLoop 9223372036854775808 s 0 : Nat)) (2 ^ 32) := rfl

theorem toInt_digit {c : Nat} (s : Text) (h : 48 ≤ c) (h' : c ≤ 57) : toInt (c :: s) =
    Int.bmod (toIntLoop 9223372036854775807 (c :: s) 0 : Nat) (2 ^ 32) := by
  have hblank : isBlank c = false := by
    simp only [isBlank, Bool.or_eq_false_iff, Bool.and_eq_false_iff, decide_eq_false_iff_not]
    omega
  simp [toInt, hblank, show c ≠ 45 by omega, show c ≠ 43 by omega]

/-- An `int` that was printed is read back. -/
theorem toInt_strOfWord {n : Int} (hlo : -2 ^ 31 ≤ n) (hhi : n < 2 ^ 31) : toInt (strOfWord n) = n := by
  obtain ⟨c, rest, hdigits, hc, hc'⟩ : ∃ c rest, digitsLoop 24 n.natAbs [] = c :: rest ∧
      48 ≤ c ∧ c ≤ 57 := digitsLoop_first (by decide)
  have hread : ∀ lim, n.natAbs ≤ lim → toIntLoop lim (digitsLoop 24 n.natAbs []) 0 = n.natAbs :=
    fun lim hlim => toIntLoop_digits (by omega) hlim
  unfold strOfWord
  by_cases hneg : n < 0
  · rw [if_pos hneg, List.singleton_append, toInt_minus, hread _ (by omega), Int.bmod_eq_of_le] <;>
      omega
  · rw [if_neg hneg, List.nil_append, hdigits, toInt_digit _ hc hc', ← hdigits, hread _ (by omega),
      Int.bmod_eq_of_le] <;> omega

end IdCompiler.Tokens

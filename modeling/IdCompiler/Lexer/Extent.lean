import IdCompiler.Lexer.Scan

/-!
# Extents

Where the loops of the lexer stop, and the newlines between two indexes. Each loop has
fuel left where it stops, or is past the end of the source.
-/

namespace IdCompiler.Lexer

open IdCompiler.Source

variable {src : Text} {i j k a b c : Nat}

/-! ## Codes -/

/-- The bytes of a string: none is NUL. -/
def IsString (s : Text) : Prop := ∀ c ∈ s, 1 ≤ c ∧ c ≤ 255

theorem code_past (h : src.length ≤ i) : characterCodeAt src i = -1 := by
  rw [characterCodeAt, List.getElem?_eq_none h]

theorem code_some (h : src[i]? = some c) : characterCodeAt src i = c := by
  rw [characterCodeAt, h]

theorem code_in (h : i < src.length) : ∃ c, src[i]? = some c ∧ characterCodeAt src i = c :=
  ⟨src[i], List.getElem?_eq_getElem h, code_some (List.getElem?_eq_getElem h)⟩

theorem lt_of_code (h : characterCodeAt src i ≠ -1) : i < src.length := by
  by_contra hge
  exact h (code_past (by omega))

theorem IsString.code (h : IsString src) (hi : i < src.length) :
    1 ≤ characterCodeAt src i ∧ characterCodeAt src i ≤ 255 := by
  obtain ⟨c, hc, hcode⟩ := code_in hi
  have := h c (List.mem_of_getElem? hc)
  omega

/-! ## Slices -/

/-- The bytes from one index to another. -/
def slice (src : Text) (a b : Nat) : Text := (src.drop a).take (b - a)

/-- The newline bytes from one index to another. -/
def newlines (src : Text) (a b : Nat) : Nat := (slice src a b).count 10

theorem mem_slice : c ∈ slice src a b ↔ ∃ k, a ≤ k ∧ k < b ∧ src[k]? = some c := by
  rw [slice, List.mem_iff_getElem?]
  constructor
  · rintro ⟨n, hn⟩
    rw [List.getElem?_take] at hn
    split at hn
    · next hlt => exact ⟨a + n, by omega, by omega, by rw [← List.getElem?_drop, hn]⟩
    · cases hn
  · rintro ⟨k, ha, hb, hk⟩
    refine ⟨k - a, ?_⟩
    rw [List.getElem?_take, if_pos (by omega), List.getElem?_drop, Nat.add_sub_cancel' ha, hk]

theorem line_not_mem (h : ∀ k, a ≤ k → k < b → characterCodeAt src k ≠ 10) :
    10 ∉ slice src a b := by
  intro hm
  obtain ⟨k, ha, hb, hk⟩ := mem_slice.mp hm
  exact h k ha hb (code_some hk)

theorem newlines_zero (h : 10 ∉ slice src a b) : newlines src a b = 0 := List.count_eq_zero.mpr h

theorem slice_append (hab : a ≤ b) (hbc : b ≤ c) :
    slice src a c = slice src a b ++ slice src b c := by
  rw [slice, slice, slice, show c - a = (b - a) + (c - b) by omega, List.take_add, List.drop_drop,
    Nat.add_sub_cancel' hab]

theorem newlines_add (hab : a ≤ b) (hbc : b ≤ c) :
    newlines src a c = newlines src a b + newlines src b c := by
  rw [newlines, slice_append hab hbc, List.count_append]
  rfl

theorem slice_one (h : src[i]? = some c) : slice src i (i + 1) = [c] := by
  obtain ⟨hlt, hget⟩ := List.getElem?_eq_some_iff.mp h
  rw [slice, Nat.add_sub_cancel_left, List.drop_eq_getElem_cons hlt, hget]
  rfl

theorem newlines_one : newlines src i (i + 1) = if characterCodeAt src i = 10 then 1 else 0 := by
  by_cases hi : i < src.length
  · obtain ⟨c, hc, hcode⟩ := code_in hi
    rw [newlines, slice_one hc, hcode, List.count_singleton]
    by_cases h10 : c = 10
    · simp [h10]
    · have hint : ¬(c : Int) = 10 := by omega
      simp [h10, hint]
  · rw [code_past (by omega), newlines, slice, List.drop_eq_nil_of_le (by omega), List.take_nil]
    rfl

theorem slice_self : slice src i i = [] := by
  rw [slice, Nat.sub_self, List.take_zero]

theorem newlines_self : newlines src i i = 0 := by
  rw [newlines, slice_self]
  rfl

/-! ## Runs -/

/-- The codes from `i` to `e` are of the class, the one at `e` is not. -/
structure RunTo (cls : Int → Bool) (src : Text) (i e : Nat) : Prop where
  le : i ≤ e
  inside : ∀ k, i ≤ k → k < e → cls (characterCodeAt src k) = true
  stop : cls (characterCodeAt src e) = false

/-- A loop with fuel to the end stops where its class does. -/
theorem runLoop_to {cls : Int → Bool} {fuel : Nat} (hcls : cls (-1) = false)
    (hfuel : src.length ≤ i + fuel) : RunTo cls src i (runLoop cls src fuel i) := by
  induction fuel generalizing i with
  | zero =>
    refine ⟨Nat.le_refl i, fun k hk hk' => absurd hk' (Nat.not_lt.mpr hk), ?_⟩
    rw [runLoop, code_past (by omega), hcls]
  | succ fuel ih =>
    rw [runLoop]
    split
    · next hin =>
      obtain ⟨hle, hinside, hstop⟩ := ih (i := i + 1) (by omega)
      refine ⟨by omega, fun k hk hke => ?_, hstop⟩
      by_cases heq : k = i
      · rw [heq, hin]
      · exact hinside k (by omega) hke
    · next hout =>
      exact ⟨Nat.le_refl i, fun k hk hk' => absurd hk' (Nat.not_lt.mpr hk), by simpa using hout⟩

theorem runLoop_le {cls : Int → Bool} {fuel : Nat} : i ≤ runLoop cls src fuel i := by
  induction fuel generalizing i with
  | zero => exact Nat.le_refl i
  | succ fuel ih =>
    rw [runLoop]
    split
    · exact Nat.le_of_succ_le ih
    · exact Nat.le_refl i

theorem runEnd_to {cls : Int → Bool} (hcls : cls (-1) = false) (i : Nat) :
    RunTo cls src i (runEnd src i cls) :=
  runLoop_to hcls (by omega)

/-- A run ends in the source, or where it starts. -/
theorem RunTo.bound {cls : Int → Bool} {e : Nat} (h : RunTo cls src i e) (hcls : cls (-1) = false) :
    e ≤ src.length ∨ e = i := by
  by_cases heq : e = i
  · exact .inr heq
  · have hle := h.le
    have hin := h.inside (e - 1) (by omega) (by omega)
    have hlt : e - 1 < src.length := by
      apply lt_of_code
      intro heq
      rw [heq, hcls] at hin
      cases hin
    exact .inl (by omega)

/-- A run that starts with a code of the class goes further. -/
theorem RunTo.larger {cls : Int → Bool} {e : Nat} (h : RunTo cls src i e)
    (hin : cls (characterCodeAt src i) = true) : i < e := by
  refine Nat.lt_of_le_of_ne h.le fun heq => ?_
  have hstop := h.stop
  rw [← heq, hin] at hstop
  cases hstop

/-- A run of characters that are not newlines holds no newline. -/
theorem RunTo.no_line {cls : Int → Bool} {e : Nat} (h : RunTo cls src i e) (hcls : cls 10 = false) :
    10 ∉ slice src i e := by
  apply line_not_mem
  intro k hi he heq
  have hin := h.inside k hi he
  rw [heq, hcls] at hin
  cases hin

theorem digitRun_to (src : Text) (i : Nat) : RunTo characterIsDigit src i (digitRunEnd src i) :=
  runEnd_to rfl i

theorem eol_to (src : Text) (i : Nat) :
    RunTo (fun c => decide (c ≠ 10) && decide (c ≠ -1)) src i (stringEndOfLine src i) :=
  runEnd_to rfl i

/-! ## Strings and block comments -/

theorem advStr_bounds (src : Text) (i : Nat) : i < advStr src i ∧ advStr src i ≤ i + 2 := by
  unfold advStr
  split <;> omega

/-- The scan of a literal stops at a quote or past the end. -/
theorem strEndLoop_stop {fuel : Nat} (hfuel : src.length ≤ i + fuel) :
    characterCodeAt src (strEndLoop src fuel i) = 34 ∨ src.length ≤ strEndLoop src fuel i := by
  induction fuel generalizing i with
  | zero => exact .inr hfuel
  | succ fuel ih =>
    have hadv := advStr_bounds src i
    rw [strEndLoop]
    split
    · exact ih (by omega)
    · next hstop =>
      by_cases hq : characterCodeAt src i = 34
      · exact .inl hq
      · right
        by_contra hlt
        obtain ⟨c, -, hc⟩ := code_in (show i < src.length by omega)
        exact hstop ⟨hq, by omega⟩

/-- It goes one past the end at most. -/
theorem strEndLoop_bounds {fuel : Nat} (hi : i ≤ src.length + 1) :
    i ≤ strEndLoop src fuel i ∧ strEndLoop src fuel i ≤ src.length + 1 := by
  induction fuel generalizing i with
  | zero => exact ⟨Nat.le_refl i, hi⟩
  | succ fuel ih =>
    have hadv := advStr_bounds src i
    rw [strEndLoop]
    split
    · next hgo =>
      have hlt := lt_of_code hgo.2
      have hrest := ih (i := advStr src i) (by omega)
      omega
    · exact ⟨Nat.le_refl i, hi⟩

theorem strEnd_stop (src : Text) (i : Nat) :
    characterCodeAt src (strEnd src i) = 34 ∨ src.length ≤ strEnd src i :=
  strEndLoop_stop (by omega)

theorem strEnd_bounds (hi : i ≤ src.length + 1) :
    i ≤ strEnd src i ∧ strEnd src i ≤ src.length + 1 :=
  strEndLoop_bounds hi

theorem zeroEnd_le {e fuel : Nat} (hi : i ≤ e) : zeroEnd src e fuel i ≤ e := by
  induction fuel generalizing i with
  | zero => exact hi
  | succ fuel ih =>
    rw [zeroEnd]
    split
    · next h => exact ih h.1
    · exact hi

/-! ## Numbers -/

theorem characterIsDigit_iff {c : Int} : characterIsDigit c = true ↔ 48 ≤ c ∧ c ≤ 57 := by
  simp [characterIsDigit, characterIn]

/-- Every code up to the end of an exponent is neither a newline nor past the end. -/
theorem expEnd_spec (src : Text) (fe : Nat) : fe ≤ expEnd src fe ∧
    ∀ k, fe ≤ k → k < expEnd src fe → characterCodeAt src k ≠ 10 ∧ characterCodeAt src k ≠ -1 := by
  unfold expEnd
  dsimp only
  split
  · next he =>
    split
    · next hs =>
      have hrun := digitRun_to src (fe + 1 + 1)
      refine ⟨by have := hrun.le; omega, fun k hk hlt => ?_⟩
      by_cases h0 : k = fe
      · subst h0; omega
      · by_cases h1 : k = fe + 1
        · subst h1; omega
        · have := characterIsDigit_iff.mp (hrun.inside k (by omega) hlt)
          omega
    · have hrun := digitRun_to src (fe + 1 + 0)
      refine ⟨by have := hrun.le; omega, fun k hk hlt => ?_⟩
      by_cases h0 : k = fe
      · subst h0; omega
      · have := characterIsDigit_iff.mp (hrun.inside k (by omega) hlt)
        omega
  · exact ⟨Nat.le_refl fe, fun k hk hlt => absurd hlt (Nat.not_lt.mpr hk)⟩

/-- The same for a whole number. -/
theorem numEnd_spec (src : Text) (e : Nat) : e ≤ numEnd src e ∧
    ∀ k, e ≤ k → k < numEnd src e → characterCodeAt src k ≠ 10 ∧ characterCodeAt src k ≠ -1 := by
  unfold numEnd
  split
  · next hf =>
    simp only [hasFrac, Bool.and_eq_true, decide_eq_true_eq] at hf
    have hrun := digitRun_to src (e + 1)
    have hexp := expEnd_spec src (digitRunEnd src (e + 1))
    have hle := hrun.le
    refine ⟨by omega, fun k hk hlt => ?_⟩
    by_cases h0 : k = e
    · subst h0; omega
    · by_cases h1 : k < digitRunEnd src (e + 1)
      · have := characterIsDigit_iff.mp (hrun.inside k (by omega) h1)
        omega
      · exact hexp.2 k (by omega) hlt
  · exact expEnd_spec src e

end IdCompiler.Lexer

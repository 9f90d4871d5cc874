import IdCompiler.Lexer.Extent

/-!
# One token

Each scanner of the chain below the comments consumes at least one byte and prints one
string. A string literal that its last backslash takes past the end of the source is the
only token that traps, and one with a newline in it the only one on several lines.
-/

namespace IdCompiler.Lexer

open IdCompiler.Source

variable {src : Text} {i j : Nat} {st : LexState}

/-! ## Printed numbers -/

theorem digitsLoop_line {fuel u : Nat} {out : Text} (h : 10 ∉ out) : 10 ∉ digitsLoop fuel u out := by
  induction fuel generalizing u out with
  | zero => exact h
  | succ fuel ih =>
    have hcons : 10 ∉ (48 + u % 10) :: out := fun hm =>
      (List.mem_cons.mp hm).elim (fun heq => by omega) h
    rw [digitsLoop]
    split
    · exact hcons
    · exact ih hcons

theorem strOfWord_line (x : Int) : 10 ∉ strOfWord x := by
  rw [strOfWord, List.mem_append, not_or]
  constructor
  · split <;> decide
  · exact digitsLoop_line (by decide)

theorem pad10_line {fuel : Nat} {s : Text} (h : 10 ∉ s) : 10 ∉ pad10 fuel s := by
  induction fuel generalizing s with
  | zero => exact h
  | succ fuel ih =>
    rw [pad10]
    split
    · exact ih fun hm => (List.mem_cons.mp hm).elim (by decide) h
    · exact h

theorem udec_line (v : BitVec 64) : 10 ∉ udec v := by
  unfold udec
  dsimp only
  split
  · rw [List.mem_append, not_or]
    exact ⟨strOfWord_line _, pad10_line (strOfWord_line _)⟩
  · exact strOfWord_line _

/-! ## Characters and spans -/

theorem chr_code {c : Int} (h : 1 ≤ c ∧ c ≤ 255) : chr c = .ok [c.toNat] := by
  have hmod : c % 256 = c := by omega
  rw [chr, hmod, if_neg (by omega)]

/-- Past the end the byte made is 255. -/
theorem chr_code_or_end (hs : IsString src) (i : Nat) : ∃ c, chr (characterCodeAt src i) = .ok [c] ∧
    (c = 10 → characterCodeAt src i = 10) ∧ (i < src.length → src[i]? = some c) := by
  by_cases hi : i < src.length
  · obtain ⟨c, hc, hcode⟩ := code_in hi
    have hb := hs.code hi
    rw [hcode] at hb
    refine ⟨c, ?_, fun h => by rw [hcode, h]; rfl, fun _ => hc⟩
    rw [hcode, chr_code hb]
    rfl
  · rw [code_past (by omega)]
    exact ⟨255, rfl, fun h => absurd h (by decide), fun h => absurd h hi⟩

theorem strSub_slice {n : Nat} (h : i + n ≤ src.length) :
    strSub src i n = .ok (slice src i (i + n)) := by
  rw [strSub, if_neg (by omega), slice, Nat.add_sub_cancel_left]

theorem sliceStr_slice (h : j ≤ src.length) : sliceStr src i j = .ok (slice src i j) := by
  rw [sliceStr]
  split
  · next hlt => rw [strSub_slice (by omega), Nat.add_sub_cancel' (Nat.le_of_lt hlt)]
  · next hge => rw [slice, Nat.sub_eq_zero_of_le (by omega), List.take_zero]

theorem slice_cons {c : Nat} (h : src[i]? = some c) (hij : i < j) :
    slice src i j = c :: slice src (i + 1) j := by
  rw [slice_append (Nat.le_succ i) hij, slice_one h]
  rfl

theorem slice_snoc {c : Nat} (h : src[j]? = some c) (hij : i ≤ j) :
    slice src i (j + 1) = slice src i j ++ [c] := by
  rw [slice_append hij (Nat.le_succ j), slice_one h]

/-! ## Tokens -/

/-- A literal whose last backslash takes the scan past the end of the source. -/
def OpenEscape (src : Text) (i : Nat) : Prop :=
  characterCodeAt src i = 34 ∧ src.length < strEnd src (i + 1)

/-- A literal with a newline in it. -/
def LineInside (src : Text) (i : Nat) : Prop :=
  characterCodeAt src i = 34 ∧ 10 ∈ slice src (i + 1) (strEnd src (i + 1))

/-- Names, decimal numbers and literals with both quotes are printed as they are written. -/
structure Spelled (src : Text) (i j : Nat) (text : Text) : Prop where
  name : isNameStartAt src i = true → text = kindof (slice src i j) ++ spell " " ++ slice src i j
  number : characterIsDigitAt src i = true → hexStart src i = false → binStart src i = false →
    text = spell "int " ++ slice src i j ∨ text = spell "float " ++ slice src i j
  string : characterCodeAt src i = 34 → characterCodeAt src (strEnd src (i + 1)) = 34 →
    text = spell "str " ++ slice src i j

/-- The token from `i` to `j` is printed as `text`. -/
structure TokenOk (src : Text) (i j : Nat) (text : Text) : Prop where
  larger : i < j
  bound : j ≤ src.length + 2
  oneLine : ¬LineInside src i → 10 ∉ text
  noLine : ¬LineInside src i → 10 ∉ slice src i j
  spelled : Spelled src i j text

/-- A scanner at `i` prints one token. -/
def Scanned (src : Text) (i : Nat) (st : LexState) (r : Except Trap (Nat × LexState)) : Prop :=
  ∃ j text, r = .ok (j, print text st) ∧ TokenOk src i j text

theorem not_lineInside (h : characterCodeAt src i ≠ 34) : ¬LineInside src i := fun hl => h hl.1

/-! ## Names -/

theorem scanIdentLoop_eq (hs : IsString src) {fuel : Nat} {ident : Text} :
    scanIdentLoop src fuel i ident =
      .ok (runLoop characterIsNamePart src fuel i,
        ident ++ slice src i (runLoop characterIsNamePart src fuel i)) := by
  induction fuel generalizing i ident with
  | zero => rw [scanIdentLoop, runLoop, slice_self, List.append_nil]
  | succ fuel ih =>
    rw [scanIdentLoop, runLoop, isNamePartAt]
    split
    · next hin =>
      have hlt : i < src.length := by
        apply lt_of_code
        intro heq
        rw [heq] at hin
        exact absurd hin (by decide)
      obtain ⟨c, hc, -, hget⟩ := chr_code_or_end hs i
      have hle : i < runLoop characterIsNamePart src fuel (i + 1) := runLoop_le
      rw [hc]
      show scanIdentLoop src fuel (i + 1) (ident ++ [c]) = _
      rw [ih, slice_cons (hget hlt) hle, List.append_assoc]
      rfl
    · rw [slice_self, List.append_nil]

theorem nameStart_iff {c : Int} : characterIsNameStart c = true ↔
    65 ≤ c ∧ c ≤ 90 ∨ 97 ≤ c ∧ c ≤ 122 ∨ c = 95 := by
  simp [characterIsNameStart, characterIsAlpha, characterIn, or_assoc]

theorem namePart_iff {c : Int} : characterIsNamePart c = true ↔
    65 ≤ c ∧ c ≤ 90 ∨ 97 ≤ c ∧ c ≤ 122 ∨ c = 95 ∨ 48 ≤ c ∧ c ≤ 57 := by
  simp [characterIsNamePart, nameStart_iff, characterIsDigit_iff, or_assoc]

theorem kindof_line (w : Text) : 10 ∉ kindof w := by
  unfold kindof
  split <;> decide

theorem scanIdent_eq (hs : IsString src) {e : Nat} (he : runEnd src i characterIsNamePart = e) :
    scanIdent src i st =
      .ok (e, print (kindof (slice src i e) ++ spell " " ++ slice src i e) st) := by
  subst he
  rw [scanIdent, scanIdentLoop_eq hs]
  rfl

theorem scanIdent_ok (hs : IsString src) (h : isNameStartAt src i = true) :
    Scanned src i st (scanIdent src i st) := by
  have hrun : RunTo characterIsNamePart src i (runEnd src i characterIsNamePart) := runEnd_to rfl i
  have hcode := nameStart_iff.mp h
  have hlarger := hrun.larger (namePart_iff.mpr (by omega))
  have hbound := hrun.bound rfl
  have hline := hrun.no_line rfl
  rw [scanIdent_eq hs rfl]
  refine ⟨_, _, rfl, hlarger, by omega, fun _ => ?_, fun _ => hline, ?_⟩
  · simp only [List.mem_append, not_or]
    exact ⟨⟨kindof_line _, by decide⟩, hline⟩
  · constructor
    case name => exact fun _ => rfl
    case number =>
      intro hd
      have := characterIsDigit_iff.mp hd
      omega
    case string =>
      intro hq
      omega

/-! ## Numbers -/

theorem printNumber_ok {e : Nat} (v : BitVec 64) (limit : Nat) (st : LexState) (he : e ≤ src.length) (hie : i ≤ e)
    (hline : 10 ∉ slice src i e) :
    ∃ text, printNumber src i e v limit st = .ok (print text st) ∧ 10 ∉ text := by
  unfold printNumber
  split
  · refine ⟨spell "int " ++ slice src i e, ?_, ?_⟩
    · rw [strSub_slice (by omega), Nat.add_sub_cancel' hie]
      rfl
    · rw [List.mem_append, not_or]
      exact ⟨by decide, hline⟩
  · refine ⟨spell "int " ++ udec v, rfl, ?_⟩
    rw [List.mem_append, not_or]
    exact ⟨by decide, udec_line v⟩

/-- A literal with a prefix: two characters and the digits after them. -/
theorem prefixed_ok {cls : Int → Bool} {limit : Nat} {v : BitVec 64}
    (h0 : characterCodeAt src i = 48) (h1 : characterCodeAt src (i + 1) ≠ 10)
    (h2 : cls (characterCodeAt src (i + 2)) = true) (hend : cls (-1) = false) (h10 : cls 10 = false)
    (hstart : hexStart src i = true ∨ binStart src i = true) :
    Scanned src i st ((printNumber src i (runEnd src (i + 2) cls) v limit st).map fun st =>
      (runEnd src (i + 2) cls, st)) := by
  have hrun : RunTo cls src (i + 2) (runEnd src (i + 2) cls) := runEnd_to hend (i + 2)
  have hlarger := hrun.larger h2
  have hbound := (hrun.bound hend).resolve_right (by omega)
  have hline : 10 ∉ slice src i (runEnd src (i + 2) cls) := by
    apply line_not_mem
    intro k hk hke heq
    by_cases hk0 : k = i
    · rw [hk0, h0] at heq
      exact absurd heq (by decide)
    · by_cases hk1 : k = i + 1
      · exact h1 (by rw [← hk1, heq])
      · have hin := hrun.inside k (by omega) hke
        rw [heq, h10] at hin
        cases hin
  obtain ⟨text, hprint, htext⟩ := printNumber_ok v limit st hbound (by omega) hline
  refine ⟨_, text, by rw [hprint]; rfl, by omega, by omega, fun _ => htext, fun _ => hline, ?_⟩
  constructor
  case name =>
    intro hn
    have := nameStart_iff.mp hn
    omega
  case number =>
    intro _ hx hb
    rw [hx, hb] at hstart
    exact absurd hstart (by decide)
  case string =>
    intro hq
    omega

theorem scanHex_ok (h : hexStart src i = true) : Scanned src i st (scanHex src i st) := by
  have hs := h
  simp only [hexStart, Bool.and_eq_true, Bool.or_eq_true, decide_eq_true_eq] at hs
  have h1 : characterCodeAt src (i + 1) ≠ 10 := by omega
  exact prefixed_ok hs.1.1 h1 hs.2 rfl rfl (.inl h)

theorem scanBin_ok (h : binStart src i = true) : Scanned src i st (scanBin src i st) := by
  have hs := h
  simp only [binStart, Bool.and_eq_true, Bool.or_eq_true, decide_eq_true_eq] at hs
  have h1 : characterCodeAt src (i + 1) ≠ 10 := by omega
  exact prefixed_ok hs.1.1 h1 hs.2 rfl rfl (.inr h)

theorem numkind_cases (e fe : Nat) : numkind e fe = spell "int" ∨ numkind e fe = spell "float" := by
  unfold numkind
  split
  · exact .inr rfl
  · exact .inl rfl

theorem scanNumber_ok (h : characterIsDigitAt src i = true) :
    Scanned src i st (scanNumber src i st) := by
  have hrun := digitRun_to src i
  have hlarger := hrun.larger h
  obtain ⟨hle, hcodes⟩ := numEnd_spec src (digitRunEnd src i)
  have hdigit := characterIsDigit_iff.mp h
  have hall : ∀ k, i ≤ k → k < numEnd src (digitRunEnd src i) →
      characterCodeAt src k ≠ 10 ∧ characterCodeAt src k ≠ -1 := fun k hk hlt => by
    by_cases hd : k < digitRunEnd src i
    · have := characterIsDigit_iff.mp (hrun.inside k hk hd)
      omega
    · exact hcodes k (by omega) hlt
  have hend : numEnd src (digitRunEnd src i) ≤ src.length := by
    have := lt_of_code (hall (numEnd src (digitRunEnd src i) - 1) (by omega) (by omega)).2
    omega
  have hline : 10 ∉ slice src i (numEnd src (digitRunEnd src i)) :=
    line_not_mem fun k hk hlt => (hall k hk hlt).1
  refine ⟨_, numkind (digitRunEnd src i) (numEnd src (digitRunEnd src i)) ++ spell " " ++
    slice src i (numEnd src (digitRunEnd src i)), ?_, by omega, by omega, fun _ => ?_,
    fun _ => hline, ?_⟩
  · rw [scanNumber, scanNumOut, sliceStr_slice hend]
    rfl
  · simp only [List.mem_append, not_or]
    refine ⟨⟨?_, by decide⟩, hline⟩
    rcases numkind_cases (digitRunEnd src i) (numEnd src (digitRunEnd src i)) with hk | hk <;>
      rw [hk] <;> decide
  · constructor
    case name =>
      intro hn
      have := nameStart_iff.mp hn
      omega
    case number =>
      intro _ _ _
      exact (numkind_cases (digitRunEnd src i) (numEnd src (digitRunEnd src i))).imp
        (fun hk => by rw [hk]; rfl) (fun hk => by rw [hk]; rfl)
    case string =>
      intro hq
      omega

/-! ## Literals and operators -/

theorem scanString_ok (h : characterCodeAt src i = 34) (hopen : ¬OpenEscape src i) :
    Scanned src i st (scanString src (i + 1) st) := by
  have hi : i < src.length := lt_of_code (by omega)
  have hbounds := strEnd_bounds (show i + 1 ≤ src.length + 1 by omega)
  have hstop := strEnd_stop src (i + 1)
  have hend : strEnd src (i + 1) ≤ src.length := Nat.not_lt.mp fun hlt => hopen ⟨h, hlt⟩
  refine ⟨strEnd src (i + 1) + 1, spell "str " ++ [34] ++ slice src (i + 1) (strEnd src (i + 1)) ++ [34],
    ?_, by omega, by omega, ?_, ?_, ?_⟩
  · rw [scanString, scanStrOut, sliceStr_slice hend]
    rfl
  · intro hline
    simp only [List.mem_append, not_or]
    exact ⟨⟨⟨by decide, by decide⟩, fun hm => hline ⟨h, hm⟩⟩, by decide⟩
  · intro hline hm
    obtain ⟨k, hk, hlt, hget⟩ := mem_slice.mp hm
    have hcode := code_some hget
    by_cases hk0 : k = i
    · rw [hk0, h] at hcode
      exact absurd hcode (by decide)
    · by_cases hke : k = strEnd src (i + 1)
      · have hin := lt_of_code (show characterCodeAt src k ≠ -1 by omega)
        rw [hke] at hcode
        omega
      · exact hline ⟨h, mem_slice.mpr ⟨k, by omega, by omega, hget⟩⟩
  · constructor
    case name =>
      intro hn
      have := nameStart_iff.mp hn
      omega
    case number =>
      intro hd
      have := characterIsDigit_iff.mp hd
      omega
    case string =>
      intro _ hq
      have hopenq : src[i]? = some 34 := by
        obtain ⟨c, hc, hcode⟩ := code_in hi
        rw [hc, Int.ofNat.inj (hcode.symm.trans h)]
      have hcloseq : src[strEnd src (i + 1)]? = some 34 := by
        obtain ⟨c, hc, hcode⟩ := code_in (lt_of_code (by omega : characterCodeAt src (strEnd src (i + 1)) ≠ -1))
        rw [hc, Int.ofNat.inj (hcode.symm.trans hq)]
      rw [slice_cons hopenq (by omega), slice_snoc hcloseq (by omega)]
      simp only [List.append_assoc, List.cons_append, List.nil_append]

theorem isTwoOp_line {a b : Nat} (h : isTwoOp [a, b] = true) : a ≠ 10 ∧ b ≠ 10 := by
  constructor
  · rintro rfl
    revert h
    simp [isTwoOp, spell]
  · rintro rfl
    revert h
    simp [isTwoOp, spell]

theorem scanOp_ok (hs : IsString src) (hi : i < src.length) (h10 : characterCodeAt src i ≠ 10)
    (hname : isNameStartAt src i = false) (hdigit : characterIsDigitAt src i = false)
    (hq : characterCodeAt src i ≠ 34) : Scanned src i st (scanOp src i st) := by
  obtain ⟨a, ha, ha10, haget⟩ := chr_code_or_end hs i
  obtain ⟨b, hb, hb10, hbget⟩ := chr_code_or_end hs (i + 1)
  have htwo : twoAt src i = .ok [a, b] := by
    rw [twoAt, ha, hb]
    rfl
  have ha10 : a ≠ 10 := fun heq => h10 (ha10 heq)
  have hone : 10 ∉ slice src i (i + 1) := by
    rw [slice_one (haget hi)]
    simpa using Ne.symm ha10
  have hspell : ∀ text j, Spelled src i j text := fun text j => by
    constructor
    case name => intro hn; rw [hname] at hn; cases hn
    case number => intro hd; rw [hdigit] at hd; cases hd
    case string => intro hh; exact absurd hh hq
  have hrun : scanOp src i st = .ok (i + (if isTwoOp [a, b] then 2 else 1),
      print (spell "op " ++ if isTwoOp [a, b] then [a, b] else [a]) st) := by
    rw [scanOp, oplen, htwo]
    show (scanOpOut src i [a, b] st >>= _) = _
    rw [scanOpOut, oneAt, ha]
    rfl
  rw [hrun]
  by_cases hop : isTwoOp [a, b] = true
  · have hne := isTwoOp_line hop
    rw [if_pos hop, if_pos hop]
    refine ⟨_, _, rfl, by omega, by omega, fun _ => ?_, fun _ => ?_, hspell _ _⟩
    · rw [List.mem_append, not_or]
      exact ⟨by decide, by simpa using ⟨Ne.symm hne.1, Ne.symm hne.2⟩⟩
    · rw [slice_append (Nat.le_succ i) (Nat.le_succ (i + 1)), List.mem_append, not_or]
      refine ⟨hone, line_not_mem fun k hk hlt heq => ?_⟩
      obtain rfl : k = i + 1 := by omega
      have hin := lt_of_code (show characterCodeAt src (i + 1) ≠ -1 by omega)
      have := code_some (hbget hin)
      exact hne.2 (by omega)
  · rw [if_neg hop, if_neg hop]
    refine ⟨_, _, rfl, by omega, by omega, fun _ => ?_, fun _ => hone, hspell _ _⟩
    rw [List.mem_append, not_or]
    exact ⟨by decide, by simpa using Ne.symm ha10⟩

/-- The chain from names on. -/
theorem scanToken_ok (hs : IsString src) (hi : i < src.length) (h10 : characterCodeAt src i ≠ 10)
    (hopen : ¬OpenEscape src i) : Scanned src i st (scanToken src i st) := by
  unfold scanToken
  split
  · next hn => exact scanIdent_ok hs hn
  · next hn =>
    unfold scanNumop
    split
    · next hx => exact scanHex_ok hx
    · unfold scanBinop
      split
      · next hb => exact scanBin_ok hb
      · unfold scanDecop
        split
        · next hd => exact scanNumber_ok hd
        · next hd =>
          unfold scanStrop
          split
          · next hq => exact scanString_ok hq hopen
          · next hq => exact scanOp_ok hs hi h10 (by simpa using hn) (by simpa using hd) hq

end IdCompiler.Lexer

import IdCompiler.Lexer.Token

/-!
# One call of the lexer

A call of `scan_one` consumes at least one byte. It prints a token first, if one starts
there, and records of lines and columns after it. The line number grows by the newlines
consumed; a driver marker sets it to 0.
-/

namespace IdCompiler.Lexer

open IdCompiler.Source

variable {src : Text} {i j : Nat} {st : LexState}

/-- A `line` or `span` record. -/
def IsPosition (text : Text) : Prop :=
  ∃ n : Int, text = spell "line " ++ strOfWord n ∨ text = spell "span " ++ strOfWord n

/-- A driver marker. -/
def Marker (src : Text) (i : Nat) : Prop := characterCodeAt src i = 35 ∧ characterCodeAt src (i + 1) ≠ 33

instance (src : Text) (i : Nat) : Decidable (Marker src i) := inferInstanceAs (Decidable (_ ∧ _))

/-- Neither white space nor a line comment nor the first line's shebang. -/
def StartsToken (src : Text) (i : Nat) (st : LexState) : Prop :=
  characterIsSpaceAt src i = false ∧ isLcomment src i = false ∧ isShebang src i st = false

/-- What a call from `i` to `j` prints. -/
structure Emitted (src : Text) (i j : Nat) (st : LexState) (new : List Printed) : Prop where
  oneLine : ¬LineInside src i → ∀ p ∈ new, 10 ∉ p.text
  token : StartsToken src i st → ∃ text rest, new = ⟨st.lexline, text⟩ :: rest ∧
    Spelled src i j text ∧ ∀ p ∈ rest, IsPosition p.text
  other : ¬StartsToken src i st → ∀ p ∈ new, IsPosition p.text

/-- What a call at `i` does. -/
structure Stepped (src : Text) (i : Nat) (st : LexState) (r : Nat × LexState) : Prop where
  larger : i < r.1
  bound : r.1 ≤ src.length + 2
  emitted : ∃ new, r.2.out = st.out ++ new ∧ Emitted src i r.1 st new
  line : ¬LineInside src i →
    r.2.lexline = if Marker src i then 0 else st.lexline + newlines src i r.1

theorem IsPosition.line {text : Text} (h : IsPosition text) : 10 ∉ text := by
  obtain ⟨n, rfl | rfl⟩ := h
  · rw [List.mem_append, not_or]
    exact ⟨by decide, strOfWord_line n⟩
  · rw [List.mem_append, not_or]
    exact ⟨by decide, strOfWord_line n⟩

/-! ## Columns -/

/-- At most one record more. -/
theorem spanOut_spec (src : Text) (i ni : Nat) (st : LexState) : ∃ new,
    (spanOut src i ni st).out = st.out ++ new ∧ (∀ p ∈ new, IsPosition p.text) ∧
    (spanOut src i ni st).lexline = st.lexline ∧
    (isLcomment src i = true ∨ isShebang src i st = true → new = []) := by
  unfold spanOut
  split
  · next h =>
    refine ⟨_, rfl, fun p hp => ?_, rfl, fun hc => ?_⟩
    · rw [List.mem_singleton] at hp
      subst hp
      exact ⟨_, .inr rfl⟩
    · rw [h.2.1, h.2.2] at hc
      exact absurd hc (by decide)
  · exact ⟨[], (List.append_nil _).symm, by simp, rfl, fun _ => rfl⟩

/-! ## White space -/

theorem eatSpace_spec (src : Text) (i : Nat) (st : LexState) :
    (eatSpace src i st).1 = i + 1 ∧
    (∃ new, (eatSpace src i st).2.out = st.out ++ new ∧ ∀ p ∈ new, IsPosition p.text) ∧
    (eatSpace src i st).2.lexline = st.lexline + newlines src i (i + 1) := by
  rw [newlines_one]
  unfold eatSpace
  split
  · next h =>
    refine ⟨rfl, ⟨_, rfl, fun p hp => ?_⟩, rfl⟩
    rw [List.mem_singleton] at hp
    subst hp
    exact ⟨_, .inl rfl⟩
  · exact ⟨rfl, ⟨[], (List.append_nil _).symm, by simp⟩, rfl⟩

/-- The loop over a block comment counts its newlines and stops at its end. -/
theorem skipBlockLoop_spec {fuel : Nat} (st : LexState) (hi : i ≤ src.length) (hfuel : src.length ≤ i + fuel) :
    i ≤ (skipBlockLoop src fuel i st).1 ∧ (skipBlockLoop src fuel i st).1 ≤ src.length ∧
    newlines src (skipBlockLoop src fuel i st).1 ((skipBlockLoop src fuel i st).1 + 2) = 0 ∧
    (∃ new, (skipBlockLoop src fuel i st).2.out = st.out ++ new ∧ ∀ p ∈ new, IsPosition p.text) ∧
    (skipBlockLoop src fuel i st).2.lexline =
      st.lexline + newlines src i (skipBlockLoop src fuel i st).1 := by
  have hpast : src.length ≤ i → newlines src i (i + 2) = 0 := fun h =>
    newlines_zero (line_not_mem fun k hk _ => by rw [code_past (by omega)]; decide)
  induction fuel generalizing i st with
  | zero =>
    rw [skipBlockLoop]
    exact ⟨Nat.le_refl i, hi, hpast (by omega), ⟨[], (List.append_nil _).symm, by simp⟩,
      by rw [newlines_self]; rfl⟩
  | succ fuel ih =>
    rw [skipBlockLoop]
    split
    · next hgo =>
      have hlt := lt_of_code hgo.1
      obtain ⟨hnext, ⟨new, hout, hnew⟩, hline⟩ := eatSpace_spec src i st
      rw [hnext]
      obtain ⟨hle, hbound, hend, ⟨more, hmore, hpos⟩, hlines⟩ :=
        ih (i := i + 1) (eatSpace src i st).2 (by omega) (by omega)
          (fun h => newlines_zero (line_not_mem fun k hk _ => by rw [code_past (by omega)]; decide))
      refine ⟨by omega, hbound, hend, ⟨new ++ more, ?_, ?_⟩, ?_⟩
      · rw [hmore, hout, List.append_assoc]
      · intro p hp
        exact (List.mem_append.mp hp).elim (hnew p) (hpos p)
      · rw [hlines, hline, newlines_add (Nat.le_succ i) hle, Nat.add_assoc]
    · next hstop =>
      refine ⟨Nat.le_refl i, hi, ?_, ⟨[], (List.append_nil _).symm, by simp⟩,
        by rw [newlines_self]; rfl⟩
      by_cases hend : characterCodeAt src i = -1
      · apply hpast
        by_contra hlt
        obtain ⟨c, -, hc⟩ := code_in (show i < src.length by omega)
        omega
      · apply newlines_zero
        apply line_not_mem
        intro k hk hlt
        by_cases hki : k = i
        · rw [hki]; omega
        · rw [show k = i + 1 by omega]; omega

/-! ## The chain -/

/-- A call that prints one token, its line number in force. -/
theorem Stepped.of_scanned {r : Except Trap (Nat × LexState)} (h : Scanned src i st r)
    (hspace : characterIsSpaceAt src i = false) (hmark : ¬Marker src i)
    (hcomment : isLcomment src i = false) (hbang : isShebang src i st = false) :
    ∃ s, (r.map fun p => (p.1, spanOut src i p.1 p.2)) = .ok s ∧ Stepped src i st s := by
  obtain ⟨j, text, rfl, hok⟩ := h
  obtain ⟨new, hout, hpos, hline, -⟩ := spanOut_spec src i j (print text st)
  refine ⟨_, rfl, hok.larger, hok.bound, ⟨⟨st.lexline, text⟩ :: new, ?_, ?_⟩, fun hl => ?_⟩
  · rw [hout]
    simp [print]
  · constructor
    case oneLine =>
      intro hl p hp
      rcases List.mem_cons.mp hp with rfl | hp
      · exact hok.oneLine hl
      · exact (hpos p hp).line
    case token => exact fun _ => ⟨text, new, rfl, hok.spelled, hpos⟩
    case other => exact fun hn => absurd ⟨hspace, hcomment, hbang⟩ hn
  · rw [if_neg hmark, hline, newlines_zero (hok.noLine hl)]
    rfl

theorem space_iff : characterIsSpaceAt src i = true ↔ characterCodeAt src i = 32 ∨
    characterCodeAt src i = 9 ∨ characterCodeAt src i = 10 ∨ characterCodeAt src i = 13 := by
  simp [characterIsSpaceAt, characterIsSpace, or_assoc]

/-- White space. -/
theorem eatSpace_stepped (hi : i < src.length) (h : characterIsSpaceAt src i = true) :
    Stepped src i st (eatSpace src i st) := by
  obtain ⟨hnext, ⟨new, hout, hpos⟩, hline⟩ := eatSpace_spec src i st
  have hcode := space_iff.mp h
  refine ⟨by omega, by omega, ⟨new, hout, ?_⟩, fun _ => ?_⟩
  · constructor
    case oneLine => exact fun _ p hp => (hpos p hp).line
    case token => exact fun ht => absurd h (by rw [ht.1]; decide)
    case other => exact fun _ => hpos
  · have hmark : ¬Marker src i := fun hm => by
      have := hm.1
      omega
    rw [hline, if_neg hmark, hnext]

/-- A call that goes to the end of the line and prints nothing. -/
theorem Stepped.of_eol {r : Nat × LexState} (hi : i < src.length)
    (h1 : r.1 = stringEndOfLine src i) (h2 : r.2.out = st.out) (h3 : r.2.lexline = st.lexline)
    (h10 : characterCodeAt src i ≠ 10) (hstart : ¬StartsToken src i st) (hmark : ¬Marker src i) :
    Stepped src i st r := by
  have hrun := eol_to src i
  have hend : characterCodeAt src i ≠ -1 := fun heq => by
    obtain ⟨c, -, hc⟩ := code_in hi
    omega
  have hlarger := hrun.larger (by simpa using ⟨h10, hend⟩)
  have hbound := hrun.bound rfl
  refine ⟨by omega, by omega, ⟨[], by simpa using h2, ?_⟩, fun _ => ?_⟩
  · constructor
    case oneLine => simp
    case token => exact fun ht => absurd ht hstart
    case other => simp
  · rw [if_neg hmark, h3, h1, newlines_zero (hrun.no_line rfl)]
    rfl

/-- No name, number or literal starts with the code. -/
theorem Spelled.of_code {text : Text} (hn : isNameStartAt src i = false)
    (hd : characterIsDigitAt src i = false) (hq : characterCodeAt src i ≠ 34) :
    Spelled src i j text := by
  constructor
  case name => intro h; rw [hn] at h; cases h
  case number => intro h; rw [hd] at h; cases h
  case string => intro h; exact absurd h hq

theorem plain_code {c : Int} (h : c = 47 ∨ c = 35) :
    characterIsNameStart c = false ∧ characterIsDigit c = false ∧ c ≠ 34 ∧ characterIsSpace c = false := by
  rcases h with rfl | rfl <;> decide

/-- A block comment is one token. -/
theorem blockTok_stepped (h0 : characterCodeAt src i = 47) (h1 : characterCodeAt src (i + 1) = 42) :
    Stepped src i st ((blockTok src i st).1, spanOut src i (blockTok src i st).1 (blockTok src i st).2) := by
  have hlt : i + 1 < src.length := lt_of_code (by omega)
  have hspec := skipBlockLoop_spec (print (spell "op /*") st)
    (show i + 2 ≤ src.length by omega) (show src.length ≤ i + 2 + (src.length + 1) by omega)
  obtain ⟨e, b, hloop⟩ : ∃ e b,
      skipBlockLoop src (src.length + 1) (i + 2) (print (spell "op /*") st) = (e, b) := ⟨_, _, rfl⟩
  have htok : blockTok src i st = (e + 2, b) := by rw [blockTok, skipBlock, hloop]
  rw [hloop] at hspec
  obtain ⟨hle, hbound, hend, ⟨lines, hout, hpos⟩, hline⟩ := hspec
  obtain ⟨cols, hcout, hcpos, hcline, -⟩ := spanOut_spec src i (e + 2) b
  have hcomment : isLcomment src i = false := by simp [isLcomment, h1]
  have hbang : isShebang src i st = false := by simp [isShebang, h0]
  have hmark : ¬Marker src i := fun hm => by
    have := hm.1
    omega
  obtain ⟨hn, hd, hq, hspace⟩ := plain_code (.inl h0)
  have hnew : ∀ p ∈ lines ++ cols, IsPosition p.text := fun p hp =>
    (List.mem_append.mp hp).elim (hpos p) (hcpos p)
  rw [htok]
  refine ⟨by dsimp only; omega, by dsimp only; omega,
    ⟨⟨st.lexline, spell "op /*"⟩ :: (lines ++ cols), ?_, ?_⟩, fun _ => ?_⟩
  · rw [hcout, hout]
    simp [print]
  · constructor
    case oneLine =>
      intro _ p hp
      rcases List.mem_cons.mp hp with rfl | hp
      · show 10 ∉ spell "op /*"
        decide
      · exact (hnew p hp).line
    case token => exact fun _ => ⟨_, _, rfl, Spelled.of_code hn hd hq, hnew⟩
    case other => exact fun hno => absurd ⟨hspace, hcomment, hbang⟩ hno
  · have hopen : newlines src i (i + 2) = 0 := by
      apply newlines_zero
      apply line_not_mem
      intro k hk hk2
      by_cases hki : k = i
      · rw [hki]; omega
      · rw [show k = i + 1 by omega]; omega
    rw [if_neg hmark, hcline, hline, newlines_add (show i ≤ i + 2 by omega) (by omega), hopen,
      Nat.zero_add, newlines_add hle (Nat.le_add_right _ 2), hend]
    rfl

/-- A driver marker is printed without its `#`. -/
theorem scanHash_stepped (h : characterCodeAt src i = 35) (h1 : characterCodeAt src (i + 1) ≠ 33) :
    ∃ s, ((scanHash src i st).map fun p => (p.1, spanOut src i p.1 p.2)) = .ok s ∧
      Stepped src i st s := by
  have hlt : i < src.length := lt_of_code (by omega)
  have hrun := eol_to src i
  have hlarger := hrun.larger (by rw [h]; rfl)
  have hbound := (hrun.bound rfl).resolve_right (by omega)
  have hline := hrun.no_line rfl
  have hsub : 10 ∉ slice src (i + 1) (stringEndOfLine src i) := fun hm => by
    rw [slice_append (Nat.le_succ i) hlarger, List.mem_append, not_or] at hline
    exact hline.2 hm
  have hcomment : isLcomment src i = false := by simp [isLcomment, h]
  have hbang : isShebang src i st = false := by simp [isShebang, h1]
  obtain ⟨hn, hd, hq, hspace⟩ := plain_code (.inr h)
  obtain ⟨cols, hcout, hcpos, hcline, -⟩ := spanOut_spec src i (stringEndOfLine src i)
    { print (slice src (i + 1) (stringEndOfLine src i)) st with lexline := 0 }
  have hrun : scanHash src i st = .ok (stringEndOfLine src i,
      { print (slice src (i + 1) (stringEndOfLine src i)) st with lexline := 0 }) := by
    rw [scanHash, scanHashOut, sliceStr_slice hbound]
    rfl
  rw [hrun]
  refine ⟨_, rfl, hlarger, by dsimp only; omega,
    ⟨⟨st.lexline, slice src (i + 1) (stringEndOfLine src i)⟩ :: cols, ?_, ?_⟩, fun _ => ?_⟩
  · rw [hcout]
    simp [print]
  · constructor
    case oneLine =>
      intro _ p hp
      rcases List.mem_cons.mp hp with rfl | hp
      · exact hsub
      · exact (hcpos p hp).line
    case token => exact fun _ => ⟨_, _, rfl, Spelled.of_code hn hd hq, hcpos⟩
    case other => exact fun hno => absurd ⟨hspace, hcomment, hbang⟩ hno
  · rw [if_pos ⟨h, h1⟩, hcline]

/-- `#!` takes its line; on the first line it is no token. -/
theorem scanShebang_stepped (h : characterCodeAt src i = 35) (h1 : characterCodeAt src (i + 1) = 33) :
    Stepped src i st ((scanShebang src i st).1,
      spanOut src i (scanShebang src i st).1 (scanShebang src i st).2) := by
  have hlt : i < src.length := lt_of_code (by omega)
  have hmark : ¬Marker src i := fun hm => hm.2 h1
  obtain ⟨hn, hd, hq, hspace⟩ := plain_code (.inr h)
  by_cases hb : isShebang src i st = true
  · have hrun : scanShebang src i st = (stringEndOfLine src i, st) := by rw [scanShebang, if_pos hb]
    obtain ⟨cols, hcout, -, hcline, hnil⟩ := spanOut_spec src i (stringEndOfLine src i) st
    rw [hrun]
    refine Stepped.of_eol hlt rfl ?_ hcline (by omega) (fun ht => ?_) hmark
    · rw [hcout, hnil (.inr hb), List.append_nil]
    · exact absurd hb (by rw [ht.2.2]; decide)
  · have hrun := eol_to src i
    have hlarger := hrun.larger (by rw [h]; rfl)
    have hbound := hrun.bound rfl
    have hscan : Scanned src i st (.ok (scanShebang src i st)) := by
      refine ⟨stringEndOfLine src i, spell "op #!", by rw [scanShebang, if_neg hb], hlarger, by omega,
        fun _ => ?_, fun _ => hrun.no_line rfl, Spelled.of_code hn hd hq⟩
      decide
    have hcomment : isLcomment src i = false := by simp [isLcomment, h]
    obtain ⟨s, hs, hstep⟩ := Stepped.of_scanned hscan hspace hmark hcomment (by simpa using hb)
    cases hs
    exact hstep

/-- A call below the length consumes something, unless it meets an open escape. -/
theorem scanOne_stepped (st : LexState) (hs : IsString src) (hi : i < src.length) (hopen : ¬OpenEscape src i) :
    ∃ r, scanOne src i st = .ok r ∧ Stepped src i st r := by
  unfold scanOne
  split
  · next hspace => exact ⟨_, rfl, eatSpace_stepped hi hspace⟩
  · next hspace =>
    have hcode := mt space_iff.mpr hspace
    have hspace : characterIsSpaceAt src i = false := by simpa using hspace
    have hmap : scanTokSpan src i st =
        (scanWord src i st).map fun p => (p.1, spanOut src i p.1 p.2) := by
      rw [scanTokSpan]
      cases scanWord src i st <;> rfl
    rw [hmap, scanWord]
    split
    · next hc =>
      have hl : isLcomment src i = true := by simp [isLcomment, hc.1, hc.2]
      obtain ⟨cols, hcout, -, hcline, hnil⟩ := spanOut_spec src i (stringEndOfLine src i) st
      refine ⟨_, rfl, Stepped.of_eol hi rfl ?_ hcline (by omega) (fun ht => ?_) fun hm => ?_⟩
      · dsimp only
        rw [hcout, hnil (.inl hl), List.append_nil]
      · exact absurd hl (by rw [ht.2.1]; decide)
      · have := hm.1
        omega
    · next hc =>
      have hl : isLcomment src i = false := by simpa [isLcomment] using hc
      rw [scanBlock]
      split
      · next hb => exact ⟨_, rfl, blockTok_stepped hb.1 hb.2⟩
      · rw [scanHashop]
        split
        · next h35 =>
          rw [scanBang]
          split
          · next h33 => exact ⟨_, rfl, scanShebang_stepped h35 h33⟩
          · next h33 => exact scanHash_stepped h35 h33
        · next h35 =>
          have hbang : isShebang src i st = false := by simp [isShebang, h35]
          exact Stepped.of_scanned (scanToken_ok hs hi (by omega) hopen) hspace (fun hm => h35 hm.1)
            hl hbang

end IdCompiler.Lexer

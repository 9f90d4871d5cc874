import IdCompiler.Tokens.Lines

/-!
# What a call of the lexer prints

A call prints the token that starts where it starts, if there is one, then a
line number for every newline it passes, and last the token's columns where
those are asked for.
-/

namespace IdCompiler.Tokens

open IdCompiler.Source IdCompiler.Lexer

variable {src : Text} {i j : Nat} {st : LexState} {r : Nat × LexState} {kind text rest : Text}

/-- The strings printed so far. -/
def told (st : LexState) : List Text := st.out.map Printed.text

/-- The line numbers given over `n` newlines from the line `l`. -/
def lineMarks (l : Nat) : Nat → List Text
  | 0 => []
  | n + 1 => (spell "line " ++ strOfWord (l + 1 : Nat)) :: lineMarks (l + 1) n

/-- The columns of a call from `i` to `j`, given where the line begins that it ends on. -/
def packed (i j bol : Nat) : Int := Int.bmod (((i : Int) - bol) * 65536 + j - bol) (2 ^ 32)

@[simp]
theorem told_print (text : Text) (st : LexState) : told (print text st) = told st ++ [text] := by
  simp [told, print]

@[simp]
theorem told_lexline (l : Nat) (st : LexState) : told { st with lexline := l } = told st := rfl

/-! ## Tokens -/

/-- The kind and the text of a token from `i` to `j`. -/
structure Kinded (src : Text) (i j : Nat) (kind text : Text) : Prop where
  name : isNameStartAt src i = true → kind = spell "kw" ∨ kind = spell "ident"
  number : characterIsDigitAt src i = true → kind = spell "int" ∨ kind = spell "float"
  string : characterCodeAt src i = 34 → kind = spell "str"
  op : isNameStartAt src i = false → characterIsDigitAt src i = false →
    characterCodeAt src i ≠ 34 → kind = spell "op"
  /-- Other than a comment or a `#!`, an operator is what is written. -/
  written : isNameStartAt src i = false → characterIsDigitAt src i = false →
    characterCodeAt src i ≠ 34 → characterCodeAt src i ≠ 35 →
    ¬(characterCodeAt src i = 47 ∧ characterCodeAt src (i + 1) = 42) → text = slice src i j

/-- The kinds of the lexer's own tokens. -/
def tokenKinds : List Text := ["kw", "ident", "int", "float", "str", "op"].map spell

theorem Kinded.mem (h : Kinded src i j kind text) : kind ∈ tokenKinds := by
  by_cases hn : isNameStartAt src i = true
  · obtain rfl | rfl := h.name hn <;> decide
  by_cases hd : characterIsDigitAt src i = true
  · obtain rfl | rfl := h.number hd <;> decide
  by_cases hq : characterCodeAt src i = 34
  · rw [h.string hq]
    decide
  · rw [h.op (by simpa using hn) (by simpa using hd) hq]
    decide

/-- The result of the second of two steps that may trap. -/
theorem bind_ok {α β : Type} {x : Except Trap α} {f : α → Except Trap β} {b : β}
    (h : x >>= f = .ok b) : ∃ a, x = .ok a ∧ f a = .ok b := by
  cases x with
  | error t => cases h
  | ok a => exact ⟨a, rfl, h⟩

theorem kindof_cases (w : Text) : kindof w = spell "kw" ∨ kindof w = spell "ident" := by
  unfold kindof
  split
  · exact .inl rfl
  · exact .inr rfl

theorem scanIdent_cut (h : scanIdent src i st = .ok r) :
    ∃ w, r.2 = print (kindof w ++ 32 :: w) st := by
  obtain ⟨⟨e, w⟩, -, h⟩ := bind_ok h
  cases h
  exact ⟨w, by simp [scanIdentOut, spell]⟩

theorem printNumber_cut {e limit : Nat} {v : BitVec 64} {st' : LexState}
    (h : printNumber src i e v limit st = .ok st') :
    ∃ text, st' = print (spell "int" ++ 32 :: text) st := by
  unfold printNumber at h
  split at h
  · obtain ⟨text, -, h⟩ := bind_ok h
    cases h
    exact ⟨text, rfl⟩
  · cases h
    exact ⟨udec v, rfl⟩

theorem scanNumber_cut (h : scanNumber src i st = .ok r) : ∃ kind text,
    (kind = spell "int" ∨ kind = spell "float") ∧ r.2 = print (kind ++ 32 :: text) st := by
  obtain ⟨st', hout, h⟩ := bind_ok h
  obtain ⟨text, -, hout⟩ := bind_ok hout
  cases h
  cases hout
  exact ⟨numkind (digitRunEnd src i) (numEnd src (digitRunEnd src i)), text, numkind_cases _ _,
    by simp [spell]⟩

theorem scanString_cut (h : scanString src i st = .ok r) :
    ∃ text, r.2 = print (spell "str" ++ 32 :: text) st := by
  obtain ⟨st', hout, h⟩ := bind_ok h
  obtain ⟨q, -, hout⟩ := bind_ok hout
  obtain ⟨text, -, hout⟩ := bind_ok hout
  cases h
  cases hout
  exact ⟨q ++ text ++ q, by simp [spell]⟩

/-- An operator is printed as it is written. -/
theorem scanOp_cut (hs : IsString src) (hi : i < src.length) (h : scanOp src i st = .ok r) :
    r.2 = print (spell "op" ++ 32 :: slice src i r.1) st := by
  obtain ⟨a, ha, -, haget⟩ := chr_code_or_end hs i
  obtain ⟨b, hb, -, hbget⟩ := chr_code_or_end hs (i + 1)
  have htwo : twoAt src i = .ok [a, b] := by
    rw [twoAt, ha, hb]
    rfl
  have hrun : scanOp src i st = .ok (i + (if isTwoOp [a, b] then 2 else 1),
      print (spell "op " ++ if isTwoOp [a, b] then [a, b] else [a]) st) := by
    rw [scanOp, oplen, htwo]
    show (scanOpOut src i [a, b] st >>= _) = _
    rw [scanOpOut, oneAt, ha]
    rfl
  rw [hrun] at h
  cases h
  by_cases hop : isTwoOp [a, b] = true
  · have hlt : i + 1 < src.length := by
      by_contra hge
      have hpast : chr (characterCodeAt src (i + 1)) = .ok [255] := by
        rw [code_past (by omega)]
        rfl
      rw [hpast] at hb
      cases hb
      simp [isTwoOp, spell] at hop
    rw [if_pos hop, if_pos hop, slice_append (Nat.le_succ i) (Nat.le_succ (i + 1)),
      slice_one (haget hi), slice_one (hbget hlt)]
    rfl
  · rw [if_neg hop, if_neg hop, slice_one (haget hi)]
    rfl

/-- What the chain from names on prints. -/
theorem scanToken_cut (hs : IsString src) (hi : i < src.length) (h : scanToken src i st = .ok r) :
    ∃ kind text, Kinded src i r.1 kind text ∧ r.2 = print (kind ++ 32 :: text) st := by
  have hdigit_name : characterIsDigitAt src i = true → isNameStartAt src i = false := by
    intro hd
    have := characterIsDigit_iff.mp hd
    rw [isNameStartAt, Bool.eq_false_iff]
    intro hn
    have := nameStart_iff.mp hn
    omega
  have hint : ∀ {kind text : Text}, characterIsDigitAt src i = true →
      (kind = spell "int" ∨ kind = spell "float") → Kinded src i r.1 kind text := by
    intro kind text hd hk
    have hdigit := characterIsDigit_iff.mp hd
    exact ⟨fun hn => absurd (hdigit_name hd) (by simp [hn]), fun _ => hk, fun hq => by omega,
      fun _ hno => absurd hd (by simp [hno]), fun _ hno => absurd hd (by simp [hno])⟩
  unfold scanToken at h
  split at h
  · next hn =>
    obtain ⟨w, hw⟩ := scanIdent_cut h
    have hname := nameStart_iff.mp hn
    refine ⟨_, w, ⟨fun _ => kindof_cases w, fun hd => ?_, fun hq => ?_, fun hno => ?_,
      fun hno => ?_⟩, hw⟩
    · exact absurd (hdigit_name hd) (by simp [hn])
    · omega
    · exact absurd hn (by simp [hno])
    · exact absurd hn (by simp [hno])
  next hn =>
  unfold scanNumop at h
  split at h
  · next hx =>
    simp only [hexStart, Bool.and_eq_true, decide_eq_true_eq] at hx
    obtain ⟨st', hout, h⟩ := bind_ok h
    obtain ⟨text, htext⟩ := printNumber_cut hout
    cases h
    exact ⟨_, text, hint (characterIsDigit_iff.mpr (by omega)) (.inl rfl), htext⟩
  unfold scanBinop at h
  split at h
  · next hb =>
    simp only [binStart, Bool.and_eq_true, decide_eq_true_eq] at hb
    obtain ⟨st', hout, h⟩ := bind_ok h
    obtain ⟨text, htext⟩ := printNumber_cut hout
    cases h
    exact ⟨_, text, hint (characterIsDigit_iff.mpr (by omega)) (.inl rfl), htext⟩
  unfold scanDecop at h
  split at h
  · next hd =>
    obtain ⟨kind, text, hk, hout⟩ := scanNumber_cut h
    exact ⟨kind, text, hint hd hk, hout⟩
  next hd =>
  unfold scanStrop at h
  split at h
  · next hq =>
    obtain ⟨text, hout⟩ := scanString_cut h
    exact ⟨_, text, ⟨fun hno => absurd hno hn, fun hno => absurd hno hd, fun _ => rfl,
      fun _ _ hno => absurd hq hno, fun _ _ hno => absurd hq hno⟩, hout⟩
  · next hq =>
    exact ⟨_, _, ⟨fun hno => absurd hno hn, fun hno => absurd hno hd, fun hno => absurd hno hq,
      fun _ _ _ => rfl, fun _ _ _ _ _ => rfl⟩, scanOp_cut hs hi h⟩

/-! ## Lines and columns -/

theorem lineMarks_append (l a b : Nat) :
    lineMarks l a ++ lineMarks (l + a) b = lineMarks l (a + b) := by
  induction a generalizing l with
  | zero => rw [Nat.zero_add]; rfl
  | succ a ih =>
    rw [Nat.succ_add, lineMarks, lineMarks, List.cons_append, ← ih (l + 1)]
    congr 3
    omega

theorem eatSpace_told (src : Text) (i : Nat) (st : LexState) : ∃ n,
    told (eatSpace src i st).2 = told st ++ lineMarks st.lexline n ∧
    (eatSpace src i st).2.lexline = st.lexline + n ∧
    (eatSpace src i st).2.lexcols = st.lexcols ∧ (characterCodeAt src i = 10 → n = 1) := by
  unfold eatSpace
  split
  · exact ⟨1, by simp [told, bumpLine, print, lineMarks], rfl, rfl, fun _ => rfl⟩
  · next h => exact ⟨0, by simp [lineMarks], rfl, rfl, fun h' => absurd h' h⟩

/-- A block comment gives the number of each line it goes on to. -/
theorem skipBlockLoop_told (src : Text) (fuel i : Nat) (st : LexState) : ∃ n,
    told (skipBlockLoop src fuel i st).2 = told st ++ lineMarks st.lexline n ∧
    (skipBlockLoop src fuel i st).2.lexline = st.lexline + n ∧
    (skipBlockLoop src fuel i st).2.lexcols = st.lexcols := by
  induction fuel generalizing i st with
  | zero => exact ⟨0, by simp [skipBlockLoop, lineMarks], rfl, rfl⟩
  | succ fuel ih =>
    rw [skipBlockLoop]
    split
    · obtain ⟨n, hout, hline, hcols, -⟩ := eatSpace_told src i st
      obtain ⟨m, hout', hline', hcols'⟩ := ih (eatSpace src i st).1 (eatSpace src i st).2
      refine ⟨n + m, ?_, by rw [hline', hline, Nat.add_assoc], by rw [hcols', hcols]⟩
      rw [hout', hout, hline, List.append_assoc, lineMarks_append]
    · exact ⟨0, by simp [lineMarks], rfl, rfl⟩

/-- The columns of a token that has been printed. -/
theorem spanOut_told (ni : Nat) (hcomment : isLcomment src i = false)
    (hbang : isShebang src i st = false) : told (spanOut src i ni st) = told st ++
      (if st.lexcols = 1 then [spell "span " ++ strOfWord (packed i ni st.lexbol)] else []) ∧
    (spanOut src i ni st).lexline = st.lexline ∧ (spanOut src i ni st).lexcols = st.lexcols ∧
    (spanOut src i ni st).lexbol = st.lexbol := by
  unfold spanOut
  by_cases h : st.lexcols = 1
  · rw [if_pos ⟨h, hcomment, hbang⟩, if_pos h]
    exact ⟨by simp [packed], rfl, rfl, rfl⟩
  · rw [if_neg (fun h' => h h'.1), if_neg h]
    exact ⟨(List.append_nil _).symm, rfl, rfl, rfl⟩

theorem spanOut_silent (ni : Nat) (h : isLcomment src i = true ∨ isShebang src i st = true) :
    spanOut src i ni st = st := by
  unfold spanOut
  rw [if_neg]
  rintro ⟨-, hcomment, hbang⟩
  rw [hcomment, hbang] at h
  exact absurd h (by decide)

/-! ## Calls -/

/-- What a call at `i` prints: the tokens `toks`, then `n` line numbers, then the columns. -/
structure Tells (src : Text) (i : Nat) (st : LexState) (r : Nat × LexState) (toks : List Text)
    (n : Nat) : Prop where
  out : told r.2 = told st ++ (toks ++ (lineMarks st.lexline n ++
    if st.lexcols = 1 ∧ toks ≠ [] then [spell "span " ++ strOfWord (packed i r.1 r.2.lexbol)]
    else []))
  cols : r.2.lexcols = st.lexcols
  line : ¬Marker src i → r.2.lexline = st.lexline + n
  mark : Marker src i → r.2.lexline = 0 ∧ n = 0 ∧ r.1 = stringEndOfLine src i ∧
    toks = [slice src (i + 1) r.1]
  token : StartsToken src i st → ¬Marker src i →
    ∃ kind text, toks = [kind ++ 32 :: text] ∧ Kinded src i r.1 kind text
  silent : ¬StartsToken src i st → toks = []
  /-- A newline is not passed without its number. -/
  newline : characterCodeAt src i = 10 → n = 1

/-- A token of its own line. -/
theorem Tells.of_cut {r : Nat × LexState} (hcut : ∃ kind text, Kinded src i r.1 kind text ∧
    r.2 = print (kind ++ 32 :: text) st) (hspace : characterIsSpaceAt src i = false)
    (hmark : ¬Marker src i) (hcomment : isLcomment src i = false)
    (hbang : isShebang src i st = false) :
    ∃ toks n, Tells src i st (r.1, spanOut src i r.1 r.2) toks n := by
  obtain ⟨j, st'⟩ := r
  obtain ⟨kind, text, hk, rfl⟩ := hcut
  have hbang' : isShebang src i (print (kind ++ 32 :: text) st) = false := hbang
  obtain ⟨hout, hline, hcols, hbol⟩ := spanOut_told j hcomment hbang'
  have h10 : characterCodeAt src i ≠ 10 := by
    intro h
    rw [characterIsSpaceAt, h] at hspace
    cases hspace
  refine ⟨[kind ++ 32 :: text], 0, ?_, hcols, fun _ => hline, fun h => absurd h hmark,
    fun _ _ => ⟨_, _, rfl, hk⟩, fun h => absurd ⟨hspace, hcomment, hbang⟩ h, fun h => absurd h h10⟩
  dsimp only at hout ⊢
  rw [hout, hbol]
  by_cases hc : st.lexcols = 1 <;> simp [lineMarks, print, told, hc]

/-- White space gives the number of the line it goes on to. -/
theorem eatSpace_tells (h : characterIsSpaceAt src i = true) :
    ∃ n, Tells src i st (eatSpace src i st) [] n := by
  obtain ⟨n, hout, hline, hcols, hnew⟩ := eatSpace_told src i st
  have hcode := space_iff.mp h
  refine ⟨n, by simpa using hout, hcols, fun _ => hline, fun hm => ?_, fun ht => ?_, fun _ => rfl,
    hnew⟩
  · have := hm.1
    omega
  · exact absurd h (by simp [ht.1])

/-- A line comment and the first line's shebang print nothing. -/
theorem Tells.of_silent (h10 : characterCodeAt src i ≠ 10) (hmark : ¬Marker src i)
    (hstart : ¬StartsToken src i st) : Tells src i st (j, st) [] 0 :=
  ⟨by simp [lineMarks], rfl, fun _ => rfl, fun h => absurd h hmark, fun h => absurd h hstart,
    fun _ => rfl, fun h => absurd h h10⟩

theorem blockTok_tells (h0 : characterCodeAt src i = 47) (h1 : characterCodeAt src (i + 1) = 42) :
    ∃ toks n, Tells src i st ((blockTok src i st).1,
      spanOut src i (blockTok src i st).1 (blockTok src i st).2) toks n := by
  obtain ⟨n, hloop, hlines, hkeep⟩ := skipBlockLoop_told src (src.length + 1) (i + 2)
    (print (spell "op /*") st)
  have hcomment : isLcomment src i = false := by simp [isLcomment, h1]
  have hbang : ∀ st, isShebang src i st = false := fun st => by simp [isShebang, h0]
  obtain ⟨hout, hline, hcols, hbol⟩ := spanOut_told (blockTok src i st).1 hcomment
    (hbang (blockTok src i st).2)
  obtain ⟨hn, hd, hq, hspace⟩ := plain_code (.inl h0)
  refine ⟨[spell "op" ++ 32 :: spell "/*"], n, ?_, ?_, fun _ => ?_, fun hm => ?_, fun _ _ => ?_,
    fun hno => absurd ⟨hspace, hcomment, hbang st⟩ hno, fun h => by omega⟩
  · dsimp only
    rw [hout, hbol]
    show told (skipBlockLoop _ _ _ _).2 ++ _ = _
    rw [hloop, told_print]
    have hcols' : (blockTok src i st).2.lexcols = st.lexcols := hkeep
    rw [hcols']
    simp [print, spell]
  · rw [hcols]
    exact hkeep
  · rw [hline]
    exact hlines
  · have := hm.1
    omega
  · refine ⟨_, _, rfl, fun h => ?_, fun h => ?_, fun h => absurd h hq, fun _ _ _ => rfl,
      fun _ _ _ _ hno => absurd ⟨h0, h1⟩ hno⟩
    · rw [isNameStartAt, hn] at h
      cases h
    · rw [characterIsDigitAt, hd] at h
      cases h

/-- A driver marker is one token, whatever follows its `#`. -/
theorem scanHash_tells (h : characterCodeAt src i = 35) (h1 : characterCodeAt src (i + 1) ≠ 33)
    {r' : Nat × LexState} (hrun : scanHash src i st = .ok r') :
    ∃ toks n, Tells src i st (r'.1, spanOut src i r'.1 r'.2) toks n := by
  have hlt : i < src.length := lt_of_code (by omega)
  have hbound := ((eol_to src i).bound rfl).resolve_right (by
    have := (eol_to src i).larger (by rw [h]; rfl)
    omega)
  rw [scanHash, scanHashOut, sliceStr_slice hbound] at hrun
  cases hrun
  have hcomment : isLcomment src i = false := by simp [isLcomment, h]
  have hbang : ∀ st, isShebang src i st = false := fun st => by simp [isShebang, h1]
  have hspace : characterIsSpaceAt src i = false := by rw [characterIsSpaceAt, h]; rfl
  obtain ⟨hout, hline, hcols, hbol⟩ := spanOut_told (stringEndOfLine src i) hcomment
    (hbang { print (slice src (i + 1) (stringEndOfLine src i)) st with lexline := 0 })
  refine ⟨[slice src (i + 1) (stringEndOfLine src i)], 0, ?_, hcols, fun hm => absurd ⟨h, h1⟩ hm,
    fun _ => ⟨hline, rfl, rfl, rfl⟩, fun _ hm => absurd ⟨h, h1⟩ hm,
    fun hno => absurd ⟨hspace, hcomment, hbang st⟩ hno, fun h => by omega⟩
  dsimp only at hout ⊢
  rw [hout, hbol]
  by_cases hc : st.lexcols = 1 <;> simp [lineMarks, print, told, hc]

theorem scanShebang_tells (h : characterCodeAt src i = 35) (h1 : characterCodeAt src (i + 1) = 33) :
    ∃ toks n, Tells src i st ((scanShebang src i st).1,
      spanOut src i (scanShebang src i st).1 (scanShebang src i st).2) toks n := by
  have hmark : ¬Marker src i := fun hm => hm.2 h1
  obtain ⟨hn, hd, hq, hspace⟩ := plain_code (.inr h)
  have hcomment : isLcomment src i = false := by simp [isLcomment, h]
  by_cases hb : isShebang src i st = true
  · rw [scanShebang, if_pos hb]
    dsimp only
    rw [spanOut_silent _ (.inr hb)]
    exact ⟨_, _, .of_silent (by omega) hmark fun ht => absurd hb (by simp [ht.2.2])⟩
  · refine Tells.of_cut ⟨spell "op", spell "#!", ⟨fun hno => ?_, fun hno => ?_, fun hno => absurd hno hq,
      fun _ _ _ => rfl, fun _ _ _ hno => absurd h hno⟩, ?_⟩ hspace hmark hcomment (by simpa using hb)
    · rw [isNameStartAt, hn] at hno
      cases hno
    · rw [characterIsDigitAt, hd] at hno
      cases hno
    · rw [scanShebang, if_neg hb]
      rfl

/-- Every call tells a token, its lines and its columns. -/
theorem scanOne_tells (hs : IsString src) (hi : i < src.length) (h : scanOne src i st = .ok r) :
    ∃ toks n, Tells src i st r toks n := by
  unfold scanOne at h
  split at h
  · next hspace =>
    cases h
    exact ⟨[], eatSpace_tells hspace⟩
  next hspace =>
  have hspace : characterIsSpaceAt src i = false := by simpa using hspace
  have h10 : characterCodeAt src i ≠ 10 := by
    intro heq
    rw [characterIsSpaceAt, heq] at hspace
    cases hspace
  obtain ⟨⟨ni, st'⟩, hword, h⟩ := bind_ok h
  cases h
  unfold scanWord at hword
  split at hword
  · next hc =>
    cases hword
    have hl : isLcomment src i = true := by simp [isLcomment, hc.1, hc.2]
    rw [spanOut_silent _ (.inl hl)]
    refine ⟨_, _, .of_silent h10 (fun hm => ?_) fun ht => absurd hl (by simp [ht.2.1])⟩
    have := hm.1
    omega
  next hc =>
  have hl : isLcomment src i = false := by simpa [isLcomment] using hc
  unfold scanBlock at hword
  split at hword
  · next hb =>
    cases hword
    exact blockTok_tells hb.1 hb.2
  unfold scanHashop at hword
  split at hword
  · next h35 =>
    unfold scanBang at hword
    split at hword
    · next h33 =>
      cases hword
      exact scanShebang_tells h35 h33
    · next h33 => exact scanHash_tells h35 h33 hword
  · next h35 =>
    exact Tells.of_cut (scanToken_cut hs hi hword) hspace (fun hm => h35 hm.1) hl
      (by simp [isShebang, h35])

end IdCompiler.Tokens

import IdCompiler.Tokens.Told

/-!
# From the lexer to the token store

What the lexer prints is loaded as its tokens: each keeps the kind and the text
it was printed with, the line it was on, and its own columns.
-/

namespace IdCompiler.Tokens

open IdCompiler.Source IdCompiler.Lexer

variable {src : Text} {i j : Nat} {st st' : LexState} {calls : List Call} {s s' : TokStore}
  {cols : Bool} {toks : List Text} {n : Nat}

/-! ## What a line does -/

/-- The kinds of lines that are no tokens. -/
def asideKinds : List Text := ["line", "span", "tcc", "ext", "wrd", "wrp"].map spell

namespace TokStore

/-- A line of any other kind is a token. -/
theorem pushTok_real {kind text : Text} (h : kind ∉ asideKinds) :
    s.pushTok kind text = s.pushReal kind text := by
  simp only [asideKinds, List.map_cons, List.map_nil, List.mem_cons, List.not_mem_nil, not_or,
    or_false] at h
  obtain ⟨hline, hspan, htcc, hext, hwrd, hwrp⟩ := h
  rw [pushTok, if_neg hline, if_neg hspan, pushTok2, if_neg htcc, if_neg hext, pushTok3,
    if_neg hwrd, pushTok4, if_neg hwrp]

theorem tell_real {t : Text} (hne : t ≠ []) (h : kindOf t ∉ asideKinds) :
    s.tell t = s.pushReal (kindOf t) (textOf t) := by
  rw [tell, if_neg hne, pushTok_real h]

/-- A line number is noted. -/
theorem tell_line {l : Int} (hlo : -2 ^ 31 ≤ l) (hhi : l < 2 ^ 31) :
    s.tell (spell "line " ++ strOfWord l) = { s with lnseen := s.lnseen ++ [l] } := by
  have hcut : spell "line " ++ strOfWord l = spell "line" ++ 32 :: strOfWord l := rfl
  rw [tell, if_neg (by simp [spell]), hcut, kindOf_cut _ (by decide), textOf_cut _ (by decide),
    pushTok, if_pos rfl, toInt_strOfWord hlo hhi]

/-- Padding does nothing where only the last token lacks its columns. -/
theorem spanPad_self (h : s.tkind.length ≤ s.tspan.length + 1) : s.spanPad = s := by
  rw [spanPad]
  have hloop : ∀ fuel, spanPadLoop s.tkind.length fuel s.tspan = s.tspan := by
    intro fuel
    cases fuel with
    | zero => rfl
    | succ fuel => rw [spanPadLoop, if_neg (by omega)]
  rw [hloop]

/-- Columns go to the token before. -/
theorem tell_span {v : Int} (hlo : -2 ^ 31 ≤ v) (hhi : v < 2 ^ 31)
    (h : s.tkind.length ≤ s.tspan.length + 1) :
    s.tell (spell "span " ++ strOfWord v) = { s with tspan := s.tspan ++ [v] } := by
  have hcut : spell "span " ++ strOfWord v = spell "span" ++ 32 :: strOfWord v := rfl
  rw [tell, if_neg (by simp [spell]), hcut, kindOf_cut _ (by decide), textOf_cut _ (by decide),
    pushTok, if_neg (by decide), if_pos rfl, setSpan, spanPad_self h, toInt_strOfWord hlo hhi]

@[simp]
theorem srcLine_seen (s : TokStore) (l : Int) : { s with lnseen := s.lnseen ++ [l] }.srcLine = l := by
  simp [srcLine]

/-- The numbers of lines passed leave the last one in force. -/
theorem tell_lines {l n : Nat} (hfit : l + n < 2 ^ 31) :
    ∃ seen, (lineMarks l n).foldl tell s = { s with lnseen := seen } ∧
      (0 < n ∨ s.srcLine = l →
        ({ s with lnseen := seen } : TokStore).srcLine = ((l + n : Nat) : Int)) := by
  induction n generalizing l s with
  | zero => exact ⟨s.lnseen, rfl, fun h => h.resolve_left (Nat.lt_irrefl 0)⟩
  | succ n ih =>
    rw [lineMarks, List.foldl_cons, tell_line (by omega) (by omega)]
    obtain ⟨seen, hfold, hline⟩ := ih (l := l + 1)
      (s := { s with lnseen := s.lnseen ++ [((l + 1 : Nat) : Int)] }) (by omega)
    refine ⟨seen, hfold, fun _ => ?_⟩
    have h := hline (.inr (srcLine_seen s _))
    rw [show l + (n + 1) = l + 1 + n by omega]
    exact h

end TokStore

/-! ## Tokens -/

/-- A token as the parser keeps it. -/
structure Token where
  kind : Text
  text : Text
  line : Int
  span : Int

/-- The token of a call: names, decimal numbers, closed literals and operators have the text that
is written, a marker what follows its `#`. -/
structure Reads (src : Text) (c : Call) (tok : Token) : Prop where
  name : isNameStartAt src c.start = true →
    tok.kind = kindof (slice src c.start c.stop) ∧ tok.text = slice src c.start c.stop
  number : characterIsDigitAt src c.start = true →
    (tok.kind = spell "int" ∨ tok.kind = spell "float") ∧
    (hexStart src c.start = false → binStart src c.start = false →
      tok.text = slice src c.start c.stop)
  string : characterCodeAt src c.start = 34 → tok.kind = spell "str" ∧
    (characterCodeAt src (strEnd src (c.start + 1)) = 34 → tok.text = slice src c.start c.stop)
  marker : Marker src c.start →
    tok.kind = kindOf (slice src (c.start + 1) c.stop) ∧
    tok.text = textOf (slice src (c.start + 1) c.stop)
  op : isNameStartAt src c.start = false → characterIsDigitAt src c.start = false →
    characterCodeAt src c.start ≠ 34 → ¬Marker src c.start → tok.kind = spell "op" ∧
    (characterCodeAt src c.start ≠ 35 →
      ¬(characterCodeAt src c.start = 47 ∧ characterCodeAt src (c.start + 1) = 42) →
      tok.text = slice src c.start c.stop)
  line : tok.line = c.before.lexline
  span : tok.span = packed c.start c.stop c.after.lexbol

/-- A call that prints a token. -/
def startsToken (src : Text) (c : Call) : Bool :=
  !characterIsSpaceAt src c.start && !isLcomment src c.start && !isShebang src c.start c.before

theorem startsToken_iff {c : Call} :
    startsToken src c = true ↔ StartsToken src c.start c.before := by
  simp [startsToken, StartsToken, and_assoc]

/-- The markers are tokens: none is empty or of a kind that the loader takes for itself. -/
def PlainMarkers (src : Text) (calls : List Call) : Prop :=
  ∀ c ∈ calls, Marker src c.start → slice src (c.start + 1) c.stop ≠ [] ∧
    kindOf (slice src (c.start + 1) c.stop) ∉ asideKinds

theorem tokenKinds_plain {kind : Text} (h : kind ∈ tokenKinds) : kind ∉ asideKinds ∧ 32 ∉ kind := by
  simp only [tokenKinds, List.map_cons, List.map_nil, List.mem_cons, List.not_mem_nil,
    or_false] at h
  rcases h with rfl | rfl | rfl | rfl | rfl | rfl <;> decide

theorem kindof_plain (w : Text) : 32 ∉ kindof w := by
  obtain h | h := kindof_cases w <;> rw [h] <;> decide

/-- Two lines that are the same have one kind and one text. -/
theorem cut_inj {kind text kind' text' : Text} (h : 32 ∉ kind) (h' : 32 ∉ kind')
    (heq : kind ++ 32 :: text = kind' ++ 32 :: text') : kind = kind' ∧ text = text' := by
  constructor
  · rw [← kindOf_cut text h, heq, kindOf_cut _ h']
  · rw [← textOf_cut text h, heq, textOf_cut _ h']

/-- The token that a call's first line is. -/
theorem reads_first {kind text first : Text} (hk : Kinded src i j kind text)
    (hspell : Spelled src i j first) (hmark : ¬Marker src i) (hfirst : first = kind ++ 32 :: text) :
    Reads src ⟨i, j, st, st'⟩ ⟨kind, text, st.lexline, packed i j st'.lexbol⟩ := by
  have hplain := (tokenKinds_plain hk.mem).2
  subst hfirst
  constructor
  case name => exact fun h => cut_inj hplain (kindof_plain _) ((hspell.name h).trans (by simp [spell]))
  case number =>
    refine fun h => ⟨hk.number h, fun hx hb => ?_⟩
    obtain heq | heq := hspell.number h hx hb
    · exact (cut_inj hplain (show 32 ∉ spell "int" by decide) heq).2
    · exact (cut_inj hplain (show 32 ∉ spell "float" by decide) heq).2
  case string =>
    refine fun h => ⟨hk.string h, fun hq => ?_⟩
    exact (cut_inj hplain (show 32 ∉ spell "str" by decide) (hspell.string h hq)).2
  case marker => exact fun h => absurd h hmark
  case op => exact fun hn hd hq _ => ⟨hk.op hn hd hq, fun h35 hb => hk.written hn hd hq h35 hb⟩
  case line => rfl
  case span => rfl

/-- A marker starts neither a name, a number, a literal nor an operator. -/
theorem reads_marker (hmark : Marker src i) : Reads src ⟨i, j, st, st'⟩
    ⟨kindOf (slice src (i + 1) j), textOf (slice src (i + 1) j), st.lexline,
      packed i j st'.lexbol⟩ := by
  obtain ⟨hn, hd, hq, -⟩ := plain_code (.inr hmark.1)
  constructor
  case name =>
    intro h
    rw [isNameStartAt, hn] at h
    cases h
  case number =>
    intro h
    rw [characterIsDigitAt, hd] at h
    cases h
  case string => exact fun h => absurd h hq
  case marker => exact fun _ => ⟨rfl, rfl⟩
  case op => exact fun _ _ _ h => absurd hmark h
  case line => rfl
  case span => rfl

/-! ## A call, loaded -/

/-- The store `s` has been given the tokens `toks` and whatever `s₀` held besides. -/
def TokStore.holding (s₀ : TokStore) (cols : Bool) (toks : List Token) (seen : List Int) : TokStore :=
  { s₀ with
    tkind := toks.map Token.kind
    ttext := toks.map Token.text
    tline := toks.map Token.line
    tspan := if cols then toks.map Token.span else []
    lnseen := seen }

/-- The store while the lexer is at `i`. -/
structure Follows (src : Text) (cols : Bool) (s₀ : TokStore) (i : Nat) (st : LexState)
    (toks : List Token) (s : TokStore) : Prop where
  holds : ∃ seen, s = s₀.holding cols toks seen
  cols : st.lexcols = if cols then 1 else 0
  /-- The number in force, but behind a marker, where a newline comes next. -/
  line : st.lexline ≠ 0 → s.srcLine = st.lexline
  marker : st.lexline = 0 → characterCodeAt src i = 10 ∨ src.length ≤ i
  small : st.lexline ≤ 1 + newlines src 0 i

theorem newlines_le (src : Text) (a b : Nat) : newlines src a b ≤ src.length := by
  refine List.count_le_length.trans ?_
  rw [slice, List.length_take, List.length_drop]
  omega

theorem packed_int (i j b : Nat) : -2 ^ 31 ≤ packed i j b ∧ packed i j b < 2 ^ 31 := by
  have hlo := Int.le_bmod (x := ((i : Int) - b) * 65536 + j - b) (m := 2 ^ 32) (by decide)
  have hhi := Int.bmod_lt (x := ((i : Int) - b) * 65536 + j - b) (m := 2 ^ 32) (by decide)
  unfold packed
  omega

theorem TokStore.pushReal_eq {kind text : Text} {l : Int} (h : s.srcLine = l) :
    s.pushReal kind text = { s with
      tkind := s.tkind ++ [kind]
      ttext := s.ttext ++ [text]
      tline := s.tline ++ [l] } := by
  subst h
  rfl

/-- A token with its lines and its columns is stored behind the ones before it. -/
theorem holding_token {s₀ : TokStore} {stored : List Token} {seen : List Int} {first : Text}
    {l : Nat} {v : Int} (hne : first ≠ []) (hkind : kindOf first ∉ asideKinds)
    (hline : (s₀.holding cols stored seen).srcLine = (l : Int)) (hfit : l + n < 2 ^ 31)
    (hv : -2 ^ 31 ≤ v ∧ v < 2 ^ 31) : ∃ seen',
    (first :: (lineMarks l n ++ if cols then [spell "span " ++ strOfWord v] else [])).foldl
        TokStore.tell (s₀.holding cols stored seen) =
      s₀.holding cols (stored ++ [⟨kindOf first, textOf first, l, v⟩]) seen' ∧
    (s₀.holding cols stored seen').srcLine = ((l + n : Nat) : Int) := by
  obtain ⟨seen', hfold, hlast⟩ := TokStore.tell_lines
    (s := (s₀.holding cols stored seen).pushReal (kindOf first) (textOf first)) hfit
  refine ⟨seen', ?_, hlast (.inr hline)⟩
  rw [List.foldl_cons, TokStore.tell_real hne hkind, List.foldl_append, hfold,
    TokStore.pushReal_eq hline]
  cases cols with
  | false => simp [TokStore.holding]
  | true =>
    rw [if_pos rfl, List.foldl_cons, List.foldl_nil,
      TokStore.tell_span hv.1 hv.2 (by simp [TokStore.holding])]
    simp [TokStore.holding]

/-- A call that prints no token. -/
theorem Follows.quiet {s₀ : TokStore} {stored : List Token}
    (hf : Follows src cols s₀ i st stored s) (hlen : src.length + 2 < 2 ^ 31) (hi : i < src.length)
    (hij : i ≤ j) (ht : Tells src i st (j, st') [] n) (hmark : ¬Marker src i)
    (hline : st'.lexline = st.lexline + newlines src i j) :
    Follows src cols s₀ j st' stored ((lineMarks st.lexline n).foldl TokStore.tell s) := by
  have hn : st'.lexline = st.lexline + n := ht.line hmark
  have hadd : newlines src 0 j = newlines src 0 i + newlines src i j :=
    newlines_add (Nat.zero_le i) hij
  have hsmall := hf.small
  have htotal := newlines_le src 0 j
  obtain ⟨seen, hfold, hlast⟩ := TokStore.tell_lines (s := s) (l := st.lexline) (n := n) (by omega)
  rw [hfold]
  constructor
  case holds =>
    obtain ⟨old, rfl⟩ := hf.holds
    exact ⟨seen, rfl⟩
  case cols => exact ht.cols.trans hf.cols
  case line =>
    intro hne
    rw [hn]
    refine hlast ?_
    by_cases hpos : 0 < n
    · exact .inl hpos
    · exact .inr (hf.line (by omega))
  case marker =>
    intro hzero
    have h10 := (hf.marker (by omega)).resolve_right (by omega)
    have := ht.newline h10
    omega
  case small => omega

/-- A call that prints a token. -/
theorem Follows.token {s₀ : TokStore} {stored : List Token} {first : Text}
    (hf : Follows src cols s₀ i st stored s) (hlen : src.length + 2 < 2 ^ 31) (hi : i < src.length)
    (hij : i ≤ j) (ht : Tells src i st (j, st') [first] n) (h10 : characterCodeAt src i ≠ 10)
    (hne : first ≠ []) (hkind : kindOf first ∉ asideKinds)
    (hline : st'.lexline = if Marker src i then 0 else st.lexline + newlines src i j) :
    Follows src cols s₀ j st'
      (stored ++ [⟨kindOf first, textOf first, st.lexline, packed i j st'.lexbol⟩])
      ((first :: (lineMarks st.lexline n ++
        if cols then [spell "span " ++ strOfWord (packed i j st'.lexbol)] else [])).foldl
          TokStore.tell s) := by
  have hadd : newlines src 0 j = newlines src 0 i + newlines src i j :=
    newlines_add (Nat.zero_le i) hij
  have hsmall := hf.small
  have htotal := newlines_le src 0 j
  have hn : st.lexline + n ≤ 1 + newlines src 0 j := by
    by_cases hm : Marker src i
    · have := (ht.mark hm).2.1
      omega
    · have := ht.line hm
      rw [if_neg hm] at hline
      dsimp only at this
      omega
  have hpos : st.lexline ≠ 0 := fun hzero =>
    (hf.marker hzero).elim h10 fun hge => absurd hi (by omega)
  obtain ⟨old, rfl⟩ := hf.holds
  obtain ⟨seen, hfold, hlast⟩ := holding_token (n := n) hne hkind (hf.line hpos) (by omega)
    (packed_int i j st'.lexbol)
  rw [hfold]
  constructor
  case holds => exact ⟨seen, rfl⟩
  case cols => exact ht.cols.trans hf.cols
  case line =>
    intro hne'
    have hm : ¬Marker src i := fun hm => hne' (ht.mark hm).1
    exact (ht.line hm : st'.lexline = _) ▸ hlast
  case marker =>
    intro hzero
    have hm : Marker src i := by
      by_contra hm
      rw [if_neg hm] at hline
      omega
    have hstop := (eol_to src i).stop
    rw [← show j = stringEndOfLine src i from (ht.mark hm).2.2.1] at hstop
    by_cases hj : j < src.length
    · obtain ⟨c, -, hc⟩ := code_in hj
      simp only [Bool.and_eq_false_iff, decide_eq_false_iff_not, not_not] at hstop
      exact .inl (hstop.resolve_right (by omega))
    · exact .inr (by omega)
  case small =>
    by_cases hm : Marker src i
    · rw [if_pos hm] at hline
      omega
    · rw [if_neg hm] at hline
      omega

theorem Marker.starts (hm : Marker src i) : StartsToken src i st := by
  obtain ⟨-, -, -, hspace⟩ := plain_code (.inr hm.1)
  exact ⟨hspace, by simp [isLcomment, hm.1], by simp [isShebang, hm.2]⟩

/-- The first line of a call that prints a token is that token. -/
theorem Tells.first (ht : Tells src i st (j, st') toks n) (hstart : StartsToken src i st)
    {printed : List Printed} (hem : Emitted src i j st printed)
    (hhead : printed.map Printed.text = toks ++ printed.tail.map Printed.text)
    (hplain : Marker src i → slice src (i + 1) j ≠ [] ∧ kindOf (slice src (i + 1) j) ∉ asideKinds) :
    ∃ first, toks = [first] ∧ first ≠ [] ∧ kindOf first ∉ asideKinds ∧
      Reads src ⟨i, j, st, st'⟩ ⟨kindOf first, textOf first, st.lexline, packed i j st'.lexbol⟩ := by
  by_cases hm : Marker src i
  · obtain ⟨hne, hkind⟩ := hplain hm
    exact ⟨_, (ht.mark hm).2.2.2, hne, hkind, reads_marker hm⟩
  · obtain ⟨kind, text, rfl, hk⟩ := ht.token hstart hm
    obtain ⟨first, rest, rfl, hspell, -⟩ := hem.token hstart
    have hplain := tokenKinds_plain hk.mem
    have hreads : Reads src ⟨i, j, st, st'⟩ ⟨kind, text, st.lexline, packed i j st'.lexbol⟩ :=
      reads_first hk hspell hm (List.cons.inj hhead).1
    refine ⟨_, rfl, by simp, ?_, ?_⟩
    · rw [kindOf_cut _ hplain.2]
      exact hplain.1
    · rw [kindOf_cut _ hplain.2, textOf_cut _ hplain.2]
      exact hreads

/-- What a call prints is loaded as what it reads. -/
theorem Follows.step {s₀ : TokStore} {stored : List Token}
    (hf : Follows src cols s₀ i st stored s) (hs : IsString src) (hlen : src.length + 2 < 2 ^ 31)
    (hi : i < src.length) (h : scanOne src i st = .ok (j, st')) (hone : ¬LineInside src i)
    (hplain : Marker src i → slice src (i + 1) j ≠ [] ∧ kindOf (slice src (i + 1) j) ∉ asideKinds) :
    ∃ new more, told st' = told st ++ new ∧ (∀ t ∈ new, 10 ∉ t) ∧
      List.Forall₂ (Reads src) ([⟨i, j, st, st'⟩].filter (startsToken src)) more ∧
      Follows src cols s₀ j st' (stored ++ more) (new.foldl TokStore.tell s) := by
  obtain ⟨toks, n, ht⟩ := scanOne_tells hs hi h
  have hstep := step_of_ok hs hi h
  have hij : i ≤ j := Nat.le_of_lt hstep.larger
  have hline := hstep.line hone
  obtain ⟨printed, hout, hem⟩ := hstep.emitted
  have htold : told st' = told st ++ printed.map Printed.text := by
    rw [told, hout, List.map_append]
    rfl
  have hnew := List.append_cancel_left (htold.symm.trans ht.out)
  have h10 : ∀ t ∈ printed.map Printed.text, 10 ∉ t := by
    intro t hmem
    obtain ⟨p, hp, rfl⟩ := List.mem_map.mp hmem
    exact hem.oneLine hone p hp
  refine ⟨printed.map Printed.text, ?_⟩
  by_cases hstart : StartsToken src i st
  swap
  · have hmark : ¬Marker src i := fun hm => hstart (Marker.starts hm)
    obtain rfl := ht.silent hstart
    rw [if_neg (by simp), List.append_nil, List.nil_append] at hnew
    refine ⟨[], htold, h10, ?_, ?_⟩
    · rw [List.filter_cons_of_neg (mt startsToken_iff.mp hstart)]
      exact .nil
    · rw [hnew, List.append_nil]
      rw [if_neg hmark] at hline
      exact hf.quiet hlen hi hij ht hmark hline
  have hcode : characterCodeAt src i ≠ 10 := by
    intro h10
    have hspace := hstart.1
    rw [characterIsSpaceAt, h10] at hspace
    cases hspace
  have hlone : toks.length = 1 := by
    by_cases hm : Marker src i
    · rw [(ht.mark hm).2.2.2]
      rfl
    · obtain ⟨kind, text, rfl, -⟩ := ht.token hstart hm
      rfl
  obtain ⟨first, rfl⟩ := List.length_eq_one_iff.mp hlone
  have hhead : printed.map Printed.text = [first] ++ printed.tail.map Printed.text := by
    rw [List.map_tail, hnew]
    rfl
  obtain ⟨first', heq, hne, hkind, hreads⟩ := ht.first hstart hem hhead hplain
  obtain rfl := (List.cons.inj heq).1
  refine ⟨[⟨kindOf first, textOf first, st.lexline, packed i j st'.lexbol⟩], htold, h10, ?_, ?_⟩
  · rw [List.filter_cons_of_pos (startsToken_iff.mpr hstart)]
    exact .cons hreads .nil
  have hfollow := hf.token hlen hi hij ht hcode hne hkind hline
  rw [hnew]
  cases cols with
  | false => simpa [hf.cols] using hfollow
  | true => simpa [hf.cols] using hfollow

/-! ## The whole run -/

/-- The store before any token. -/
structure TokStore.Fresh (s : TokStore) : Prop where
  tkind : s.tkind = []
  ttext : s.ttext = []
  tline : s.tline = []
  tspan : s.tspan = []
  lnseen : s.lnseen = []

/-- The store when the parser starts. -/
def initTokens : TokStore := ⟨[], [], [], [], [], [], [], [], []⟩

theorem initTokens_fresh : initTokens.Fresh := ⟨rfl, rfl, rfl, rfl, rfl⟩

theorem Follows.start {s₀ : TokStore} (h : s₀.Fresh) : Follows src cols s₀ 0 (lexSetup cols) [] s₀ := by
  constructor
  case holds =>
    obtain ⟨hkind, htext, hline, hspan, hseen⟩ := h
    refine ⟨[], ?_⟩
    cases s₀
    cases cols <;> simp_all [TokStore.holding]
  case cols => cases cols <;> rfl
  case line => exact fun _ => by simp [TokStore.srcLine, h.lnseen, lexSetup]
  case marker => exact fun h => by cases h
  case small => exact Nat.le_add_right 1 _

theorem lexSetup_told (cols : Bool) : told (lexSetup cols) = [] := rfl

/-- Along a run everything printed is loaded as what the calls read. -/
theorem scans_follow {s₀ : TokStore} (hs : IsString src) (hlen : src.length + 2 < 2 ^ 31)
    (hfresh : s₀.Fresh) (h : Scans src (lexSetup cols) calls i st) (hone : OneLined src calls)
    (hplain : PlainMarkers src calls) : ∃ stored, (∀ t ∈ told st, 10 ∉ t) ∧
      List.Forall₂ (Reads src) (calls.filter (startsToken src)) stored ∧
      Follows src cols s₀ i st stored ((told st).foldl TokStore.tell s₀) := by
  induction h with
  | start => exact ⟨[], by simp [lexSetup_told], .nil, .start hfresh⟩
  | @call calls i j st st' hrun hlt hok ih =>
    obtain ⟨stored, hlines, hreads, hf⟩ := ih (fun c hc => hone c (List.mem_append_left _ hc))
      fun c hc => hplain c (List.mem_append_left _ hc)
    have hmem : (⟨i, j, st, st'⟩ : Call) ∈ calls ++ [⟨i, j, st, st'⟩] := by simp
    have hi : i < src.length := by
      rw [len_of_int hlen] at hlt
      omega
    obtain ⟨new, more, hout, hnew, hmore, hnext⟩ :=
      hf.step hs hlen hi hok (hone _ hmem) (hplain _ hmem)
    refine ⟨stored ++ more, ?_, ?_, ?_⟩
    · rw [hout]
      intro t ht
      exact (List.mem_append.mp ht).elim (hlines t) (hnew t)
    · rw [List.filter_append]
      exact List.rel_append hreads hmore
    · rw [hout, List.foldl_append]
      exact hnext

/-- A lexer that ends has made its calls. -/
theorem scans_of_lexLoop {init : LexState} {fuel : Nat} (h : Scans src init calls i st)
    (hloop : lexLoop src fuel i st = some (.ok st')) :
    ∃ calls' k, Scans src init calls' k st' ∧ len src ≤ k := by
  induction fuel generalizing calls i st with
  | zero => cases hloop
  | succ fuel ih =>
    rw [lexLoop] at hloop
    split at hloop
    · next hlt =>
      split at hloop
      · cases hloop
      · next hok => exact ih (h.call hlt hok) hloop
    · next hge =>
      cases hloop
      exact ⟨calls, i, h, Int.not_lt.mp hge⟩

/-! ## The two programs -/

/-- What stands on the output of the lexer's `main`. -/
def lexMain (src : Text) (cols : Bool) : Option (Except Trap Text) :=
  (lex src (lexSetup cols)).map fun r => r.map fun st => joined (told (print (spell "eof") st))

/-- The rows that the driver puts ahead of the tokens. -/
def HeadRows (head : List Text) : Prop :=
  ∀ t ∈ head, 10 ∉ t ∧ kindOf t ∈ ["tcc", "ext", "wrd", "wrp"].map spell

/-- The store holds the tokens and the end, and of the rest what `s₀` holds. -/
structure Stored (s₀ : TokStore) (cols : Bool) (toks : List Token) (s : TokStore) : Prop where
  tkind : s.tkind = toks.map Token.kind ++ [spell "eof"]
  ttext : s.ttext = toks.map Token.text ++ [[]]
  tline : ∃ last, s.tline = toks.map Token.line ++ [last]
  tspan : s.tspan = if cols then toks.map Token.span else []
  tccin : s.tccin = s₀.tccin
  extRows : s.extRows = s₀.extRows
  vocab : s.vocab = s₀.vocab
  vocabPaths : s.vocabPaths = s₀.vocabPaths

/-- The driver's rows are no tokens. -/
theorem HeadRows.fresh {head : List Text} (hhead : HeadRows head) (hs : s.Fresh) :
    (head.foldl TokStore.tell s).Fresh := by
  induction head generalizing s with
  | nil => exact hs
  | cons t head ih =>
    refine ih (fun u hu => hhead u (List.mem_cons_of_mem t hu)) ?_
    have hkind := (hhead t List.mem_cons_self).2
    obtain ⟨hk, ht, hl, hp, hn⟩ := hs
    simp only [List.map_cons, List.map_nil, List.mem_cons, List.not_mem_nil, or_false] at hkind
    unfold TokStore.tell
    split
    · exact ⟨hk, ht, hl, hp, hn⟩
    · obtain h | h | h | h := hkind <;> rw [h] <;> exact ⟨hk, ht, hl, hp, hn⟩

theorem joined_append (a b : List Text) : joined (a ++ b) = joined a ++ joined b := List.flatMap_append

/-- The line a call begins on is the one its place in the source has. -/
theorem scans_lines (hs : IsString src) (hlen : src.length + 2 < 2 ^ 31)
    (h : Scans src (lexSetup cols) calls i st) (hone : OneLined src calls) :
    ∀ c ∈ calls, ∃ prev, prev ++ [c] <+: calls ∧ c.before.lexline = lineAt src prev c.start := by
  induction h with
  | start => simp
  | @call calls i j st st' hrun hlt hok ih =>
    have hbefore : OneLined src calls := fun c hc => hone c (List.mem_append_left _ hc)
    intro c hc
    obtain hc | hc := List.mem_append.mp hc
    · obtain ⟨prev, hprev, hline⟩ := ih hbefore c hc
      exact ⟨prev, hprev.trans (List.prefix_append _ _), hline⟩
    · obtain rfl := List.mem_singleton.mp hc
      exact ⟨calls, List.prefix_refl _, hrun.line hs (len_of_int hlen) hbefore⟩

/-- The cursor reads the tokens in order, and from the end on the end. -/
theorem Stored.cursor {s₀ : TokStore} {stored : List Token} (h : Stored s₀ cols stored s) (pos : Nat) :
    s.curKind pos = ((stored[pos]?).map Token.kind).getD (spell "eof") ∧
    s.curText pos = ((stored[pos]?).map Token.text).getD [] ∧
    (∀ tok, stored[pos]? = some tok → s.tokLn pos = tok.line) ∧
    s.fixPacked pos = if cols then ((stored[pos]?).map Token.span).getD (-1) else -1 := by
  obtain ⟨last, hline⟩ := h.tline
  have hend : ∀ {α : Type} (f : Token → α) (x y : α), (y = x) →
      (((stored.map f ++ [x])[pos]?).getD y) = ((stored[pos]?).map f).getD y := by
    rintro α f x y rfl
    by_cases hlt : pos < stored.length
    · rw [List.getElem?_append_left (by simpa using hlt), List.getElem?_map]
    · rw [List.getElem?_eq_none (l := stored) (by omega)]
      by_cases heq : pos = stored.length
      · rw [List.getElem?_append_right (by simp; omega)]
        simp [heq]
      · rw [List.getElem?_eq_none (by simp; omega)]
        rfl
  refine ⟨?_, ?_, fun tok htok => ?_, ?_⟩
  · rw [TokStore.curKind, h.tkind, hend _ _ _ rfl]
  · rw [TokStore.curText, h.ttext, hend _ _ _ rfl]
  · have hlt : pos < stored.length := (List.getElem?_eq_some_iff.mp htok).1
    rw [TokStore.tokLn, hline, List.getElem?_append_left (by simpa using hlt), List.getElem?_map, htok]
    rfl
  · rw [TokStore.fixPacked, h.tspan]
    cases cols <;> simp

theorem code_mem {c : Nat} (h : characterCodeAt src i = c) : c ∈ src := by
  have hlt : i < src.length := lt_of_code (by omega)
  obtain ⟨c', hget, hcode⟩ := code_in hlt
  obtain rfl : c = c' := by omega
  exact List.mem_of_getElem? hget

-- a literal with a newline in it comes apart
example : ((lexMain (spell "\"\n\"") false).bind fun r => r.toOption.bind fun out =>
    (load out initTokens).bind fun r => r.toOption.map fun s => (s.tkind, s.ttext)) =
      some (["str", "\"", "eof"].map spell, ["\"", "", ""].map spell) := by
  decide +kernel

end IdCompiler.Tokens

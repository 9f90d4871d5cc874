import IdCompiler.Lexer.Step

/-!
# A run of the lexer

The calls of `scan_one` consume the source without a gap and come to its end. The line
number at a token counts the newlines before it, from the start of the source or from the
last driver marker.
-/

namespace IdCompiler.Lexer

open IdCompiler.Source

variable {src : Text} {init st : LexState} {i : Nat}

/-- A call: the region it consumes, and the state before and after it. -/
structure Call where
  start : Nat
  stop : Nat
  before : LexState
  after : LexState

/-- The calls that `lex` has made when it is at an index. -/
inductive Scans (src : Text) (init : LexState) : List Call → Nat → LexState → Prop
  | start : Scans src init [] 0 init
  | call {calls : List Call} {i j : Nat} {st st' : LexState} : Scans src init calls i st →
      i < len src → scanOne src i st = .ok (j, st') →
      Scans src init (calls ++ [⟨i, j, st, st'⟩]) j st'

/-- The regions follow each other from `a` to `b`, none of them empty. -/
def Consecutive : Nat → List Call → Nat → Prop
  | a, [], b => a = b
  | a, c :: cs, b => c.start = a ∧ c.start < c.stop ∧ Consecutive c.stop cs b

/-- The end of the last driver marker. -/
def markerEnd (src : Text) (calls : List Call) : Option Nat :=
  calls.foldl (fun m c => if Marker src c.start then some c.stop else m) none

/-- The line of an index: 1 and the newlines before it; from a marker on, the newlines after
the marker. -/
def lineAt (src : Text) (calls : List Call) (i : Nat) : Nat :=
  match markerEnd src calls with
  | none => 1 + newlines src 0 i
  | some k => newlines src k i

/-- No literal that was scanned holds a newline. -/
def OneLined (src : Text) (calls : List Call) : Prop := ∀ c ∈ calls, ¬LineInside src c.start

theorem len_of_int (h : src.length + 2 < 2 ^ 31) : len src = src.length := by
  unfold len
  rw [Int.bmod_eq_of_le] <;> omega

/-! ## An open escape -/

/-- Where a literal is open the call traps. -/
theorem scanOne_open (st : LexState) (h : OpenEscape src i) : ∃ t, scanOne src i st = .error t := by
  obtain ⟨hq, hend⟩ := h
  have hlt : i < src.length := lt_of_code (by omega)
  have hspace : characterIsSpaceAt src i = false := by rw [characterIsSpaceAt, hq]; rfl
  have hname : isNameStartAt src i = false := by rw [isNameStartAt, hq]; rfl
  have hdigit : characterIsDigitAt src i = false := by rw [characterIsDigitAt, hq]; rfl
  have hhex : hexStart src i = false := by simp [hexStart, hq]
  have hbin : binStart src i = false := by simp [binStart, hq]
  have hslice : sliceStr src (i + 1) (strEnd src (i + 1)) =
      .error (.strSpan (i + 1) (strEnd src (i + 1) - (i + 1)) src.length) := by
    have hbad : 0 < strEnd src (i + 1) - (i + 1) ∧
        src.length < i + 1 + (strEnd src (i + 1) - (i + 1)) := by omega
    rw [sliceStr, if_pos (by omega), strSub, if_pos hbad]
  have hchain : scanWord src i st = scanString src (i + 1) st := by
    simp [scanWord, scanBlock, scanHashop, scanToken, scanNumop, scanBinop, scanDecop, scanStrop, hq,
      hname, hhex, hbin, hdigit]
  refine ⟨.strSpan (i + 1) (strEnd src (i + 1) - (i + 1)) src.length, ?_⟩
  rw [scanOne, hspace, scanTokSpan, hchain, scanString, scanStrOut, hslice]
  rfl

/-! ## What holds along a run -/

theorem Consecutive.snoc {a b c : Nat} {calls : List Call} {x y : LexState}
    (h : Consecutive a calls b) (hbc : b < c) : Consecutive a (calls ++ [⟨b, c, x, y⟩]) c := by
  induction calls generalizing a with
  | nil => exact ⟨h.symm, hbc, rfl⟩
  | cons d ds ih => exact ⟨h.1, h.2.1, ih h.2.2⟩

theorem markerEnd_snoc (src : Text) (calls : List Call) (c : Call) :
    markerEnd src (calls ++ [c]) = if Marker src c.start then some c.stop else markerEnd src calls := by
  rw [markerEnd, List.foldl_append]
  rfl

/-- A call in a run is one that a step describes. -/
theorem step_of_ok {r : Nat × LexState} (hs : IsString src) (hi : i < src.length)
    (h : scanOne src i st = .ok r) : Stepped src i st r := by
  have hopen : ¬OpenEscape src i := fun ho => by
    obtain ⟨t, ht⟩ := scanOne_open st ho
    rw [h] at ht
    cases ht
  obtain ⟨s, hok, hstep⟩ := scanOne_stepped st hs hi hopen
  rw [h] at hok
  cases hok
  exact hstep

theorem Scans.consecutive {calls : List Call} (hs : IsString src) (hlen : len src = src.length)
    (h : Scans src init calls i st) : Consecutive 0 calls i := by
  induction h with
  | start => rfl
  | call hrun hlt hok ih => exact ih.snoc (step_of_ok hs (by omega) hok).larger

theorem Scans.marker_le {calls : List Call} {k : Nat} (hs : IsString src)
    (hlen : len src = src.length) (h : Scans src init calls i st)
    (hk : markerEnd src calls = some k) : k ≤ i := by
  induction h generalizing k with
  | start => cases hk
  | call hrun hlt hok ih =>
    have hlarger := (step_of_ok hs (by omega) hok).larger
    rw [markerEnd_snoc] at hk
    split at hk
    · cases hk
      exact Nat.le_refl _
    · exact Nat.le_of_lt (Nat.lt_of_le_of_lt (ih hk) hlarger)

/-- The line number in force is the line of the index. -/
theorem Scans.line {calls : List Call} {cols : Bool} (hs : IsString src)
    (hlen : len src = src.length) (h : Scans src (lexSetup cols) calls i st)
    (hone : OneLined src calls) : st.lexline = lineAt src calls i := by
  induction h with
  | start =>
    rw [lineAt]
    show 1 = 1 + newlines src 0 0
    rw [newlines_self]
  | @call calls i j st st' hrun hlt hok ih =>
    have hbefore := ih fun c hc => hone c (List.mem_append_left _ hc)
    have hlast : ¬LineInside src i := hone ⟨i, j, st, st'⟩ (by simp)
    have hstep := step_of_ok hs (by omega) hok
    rw [hstep.line hlast, lineAt, markerEnd_snoc]
    have hlarger := hstep.larger
    dsimp only at hlarger ⊢
    split
    · exact newlines_self.symm
    · rw [hbefore, lineAt]
      cases hm : markerEnd src calls with
      | none => rw [newlines_add (Nat.zero_le i) (Nat.le_of_lt hlarger), Nat.add_assoc]
      | some k => exact (newlines_add (hrun.marker_le hs hlen hm) (Nat.le_of_lt hlarger)).symm

/-! ## The end of the run -/

/-- Enough fuel brings the lexer to an end or to a trap. -/
theorem lexLoop_ends {fuel : Nat} (hs : IsString src) (hlen : len src = src.length)
    (hfuel : src.length < i + fuel) (hpos : 0 < fuel) : ∃ r, lexLoop src fuel i st = some r := by
  induction fuel generalizing i st with
  | zero => exact absurd hpos (Nat.lt_irrefl 0)
  | succ fuel ih =>
    rw [lexLoop]
    split
    · next hlt =>
      cases hok : scanOne src i st with
      | error t => exact ⟨_, rfl⟩
      | ok r =>
        have hlarger := (step_of_ok hs (by omega) hok).larger
        exact ih (by omega) (by omega)
    · exact ⟨_, rfl⟩

/-- A run that meets no open escape goes on to the end of the source. -/
theorem Scans.finish (fuel : Nat) {calls : List Call} (hs : IsString src)
    (hlen : len src = src.length) (h : Scans src init calls i st)
    (hopen : ∀ calls i st, Scans src init calls i st → ¬OpenEscape src i)
    (hfuel : src.length < i + fuel) (hpos : 0 < fuel) :
    ∃ calls k st', Scans src init calls k st' ∧ src.length ≤ k ∧
      lexLoop src fuel i st = some (.ok st') := by
  induction fuel generalizing calls i st with
  | zero => exact absurd hpos (Nat.lt_irrefl 0)
  | succ fuel ih =>
    rw [lexLoop]
    split
    · next hlt =>
      obtain ⟨r, hok, hstep⟩ := scanOne_stepped st hs (by omega) (hopen _ _ _ h)
      have hlarger := hstep.larger
      obtain ⟨j, st'⟩ := r
      rw [hok]
      exact ih (h.call hlt hok) (by dsimp only at hlarger; omega) (by dsimp only at hlarger; omega)
    · next hge => exact ⟨calls, i, st, h, by omega, rfl⟩

/-- What is known of the call at an index of a run. -/
structure CallOk (src : Text) (calls : List Call) (i : Nat) (st : LexState) (j : Nat)
    (st' : LexState) : Prop where
  larger : i < j
  bound : j ≤ src.length + 2
  emitted : ∃ new, st'.out = st.out ++ new ∧ Emitted src i j st new
  line : OneLined src calls → st.lexline = lineAt src calls i

/-- A source whose length is no `int` is not scanned. -/
theorem lex_long (h : src.length = 2 ^ 31) : lex src st = some (.ok st) := by
  have hneg : len src < 0 := by
    have hdef := Int.bmod_def (src.length : Int) (2 ^ 32)
    unfold len
    omega
  rw [lex, lexLoop, if_neg (by omega)]

end IdCompiler.Lexer

import IdCompiler.Lexer.Run

/-!
# The token store and its loader

The parser reads back what the lexer has printed: every line is the kind of a
token, a space and its text. Lines of some kinds are no tokens: they set the
line number, give the columns of the token before, or add to a table.
-/

namespace IdCompiler.Tokens

open IdCompiler.Source IdCompiler.Lexer

/-- The lists that loading fills. -/
structure TokStore where
  tkind : List Text
  ttext : List Text
  /-- The line of each token. -/
  tline : List Int
  /-- The packed columns of each token, -1 where they are unknown. -/
  tspan : List Int
  /-- The line numbers given so far. -/
  lnseen : List Int
  tccin : List Text
  /-- The rows of the library's index, in the order `ext_line` gets them. -/
  extRows : List Text
  /-- The words added to the vocabulary. -/
  vocab : List Text
  vocabPaths : List Text
  deriving DecidableEq

/-! ## Numbers -/

/-- The digits of `to_int`: a sum that would pass `lim` stops at it. -/
def toIntLoop (lim : Nat) : Text → Nat → Nat
  | [], u => u
  | c :: s, u =>
    if 48 ≤ c ∧ c ≤ 57 then
      if (lim - (c - 48)) / 10 < u then lim else toIntLoop lim s (u * 10 + (c - 48))
    else u

/-- The white space that `to_int` skips. -/
def isBlank (c : Nat) : Bool := decide (c = 32) || decide (9 ≤ c) && decide (c ≤ 13)

/-- `to_int` of the hosted runtime: 64 bits, cut to an `int`. -/
def toInt (s : Text) : Int :=
  let s := s.dropWhile isBlank
  let neg := s.head? = some 45
  let s := if s.head? = some 45 ∨ s.head? = some 43 then s.tail else s
  let u := toIntLoop (if neg then 9223372036854775808 else 9223372036854775807) s 0
  Int.bmod (if neg then -u else u) (2 ^ 32)

namespace TokStore

/-! ## Tokens -/

/-- The last line number given, 1 before any. -/
def srcLine (s : TokStore) : Int := s.lnseen.getLast?.getD 1

def pushLine (s : TokStore) : TokStore := { s with tline := s.tline ++ [s.srcLine] }

def pushReal (kind text : Text) (s : TokStore) : TokStore :=
  { s with tkind := s.tkind ++ [kind], ttext := s.ttext ++ [text] }.pushLine

/-- The loop of `span_pad`. -/
def spanPadLoop (n : Nat) : Nat → List Int → List Int
  | 0, l => l
  | fuel + 1, l => if (l.length : Int) < n - 1 then spanPadLoop n fuel (l ++ [-1]) else l

def spanPad (s : TokStore) : TokStore :=
  { s with tspan := spanPadLoop s.tkind.length s.tkind.length s.tspan }

def setSpan (text : Text) (s : TokStore) : TokStore :=
  let s := s.spanPad
  { s with tspan := s.tspan ++ [toInt text] }

/-! ## Kinds -/

def pushTok4 (kind text : Text) (s : TokStore) : TokStore :=
  if kind = spell "wrp" then { s with vocabPaths := s.vocabPaths ++ [text] }
  else s.pushReal kind text

def pushTok3 (kind text : Text) (s : TokStore) : TokStore :=
  if kind = spell "wrd" then { s with vocab := s.vocab ++ [text] }
  else s.pushTok4 kind text

def pushTok2 (kind text : Text) (s : TokStore) : TokStore :=
  if kind = spell "tcc" then { s with tccin := s.tccin ++ [text] }
  else if kind = spell "ext" then { s with extRows := s.extRows ++ [text] }
  else s.pushTok3 kind text

def pushTok (kind text : Text) (s : TokStore) : TokStore :=
  if kind = spell "line" then { s with lnseen := s.lnseen ++ [toInt text] }
  else if kind = spell "span" then s.setSpan text
  else s.pushTok2 kind text

end TokStore

/-! ## Lines -/

/-- The loop of `find_space`. -/
def findSpaceLoop (src : Text) (e : Nat) : Nat → Nat → Nat
  | 0, i => i
  | fuel + 1, i =>
    if i < e ∧ characterCodeAt src i ≠ 32 then findSpaceLoop src e fuel (i + 1) else i

def findSpace (src : Text) (i e : Nat) : Nat := findSpaceLoop src e (e - i) i

/-- `slice` of the loader. -/
def sliceAt (src : Text) (a b : Nat) : Except Trap Text :=
  if a < b then strSub src a (b - a) else .ok []

def procLine (src : Text) (i e : Nat) (s : TokStore) : Except Trap TokStore :=
  let sp := findSpace src i e
  if i < e then do
    let kind ← sliceAt src i sp
    let text ← sliceAt src (sp + 1) e
    pure (s.pushTok kind text)
  else .ok s

def takeLine (src : Text) (i : Nat) (s : TokStore) : Except Trap (Nat × TokStore) := do
  let e := stringEndOfLine src i
  let s ← procLine src i e s
  pure (e + 1, s)

/-- The loop of `load_at`; without fuel it has no answer. -/
def loadAt (src : Text) : Nat → Nat → TokStore → Option (Except Trap TokStore)
  | 0, _, _ => none
  | fuel + 1, i, s =>
    if i < len src then
      match takeLine src i s with
      | .error t => some (.error t)
      | .ok (i, s) => loadAt src fuel i s
    else some (.ok s)

/-- `load`, given what stands on the input. -/
def load (src : Text) (s : TokStore) : Option (Except Trap TokStore) :=
  loadAt src (src.length + 1) 0 s

/-! ## The cursor -/

namespace TokStore

def curKind (s : TokStore) (pos : Nat) : Text := (s.tkind[pos]?).getD (spell "eof")

def curText (s : TokStore) (pos : Nat) : Text := (s.ttext[pos]?).getD []

/-- The line of a token, 1 past the end. -/
def tokLn (s : TokStore) (t0 : Nat) : Int := (s.tline[t0]?).getD 1

/-- The packed columns of a token; -1 when it has none. -/
def fixPacked (s : TokStore) (t0 : Nat) : Int := (s.tspan[t0]?).getD (-1)

end TokStore

end IdCompiler.Tokens

import IdCompiler.Lexer.Chars
import Mathlib.Data.BitVec
import Mathlib.Data.Int.DivMod

/-!
# The lexer

The scanners hand an index along the dispatch chain; each consumes one token and prints
it. A string that is cut out of range traps, as does a NUL made a character.
-/

namespace IdCompiler.Lexer

open IdCompiler.Source

/-- The text of a literal of the source. -/
def spell (s : String) : Text := s.toList.map Char.toNat

/-- What ends the program. -/
inductive Trap
  | strSpan (i n len : Nat)
  | nulByte
  deriving DecidableEq

/-- A printed string, and the line number in force when it is printed. -/
structure Printed where
  line : Nat
  text : Text
  deriving DecidableEq

/-- The lexer's cells, and what it has printed. -/
structure LexState where
  lexline : Nat
  lexbol : Nat
  lexcols : Nat
  out : List Printed
  deriving DecidableEq

/-- `print`, which ends the string's line. -/
def print (s : Text) (st : LexState) : LexState := { st with out := st.out ++ [⟨st.lexline, s⟩] }

/-! ## Library functions -/

/-- `len`, an `int`. -/
def len (s : Text) : Int := Int.bmod s.length (2 ^ 32)

def chr (code : Int) : Except Trap Text :=
  if code % 256 = 0 then .error .nulByte else .ok [(code % 256).toNat]

def strSub (s : Text) (i n : Nat) : Except Trap Text :=
  if 0 < n ∧ s.length < i + n then .error (.strSpan i n s.length) else .ok ((s.drop i).take n)

/-- The digits of a number, the last ones given. -/
def digitsLoop : Nat → Nat → Text → Text
  | 0, _, out => out
  | fuel + 1, u, out =>
    if u / 10 = 0 then (48 + u % 10) :: out else digitsLoop fuel (u / 10) ((48 + u % 10) :: out)

/-- A word in decimal; the buffer holds 24 bytes. -/
def strOfWord (x : Int) : Text := (if x < 0 then [45] else []) ++ digitsLoop 24 x.natAbs []

def sliceStr (src : Text) (a b : Nat) : Except Trap Text :=
  if a < b then strSub src a (b - a) else .ok []

/-! ## Keywords and operators -/

def keywords : List Text := ["int", "float", "string", "void", "if", "else", "while", "for",
  "return", "export", "import", "word", "asm", "native", "given", "then", "func", "prints",
  "eprints", "calls", "chain", "blank", "break", "stdin", "traps", "timeout", "struct", "pure",
  "bytes", "sender", "receiver", "bool", "true", "false"].map spell

def isKw (w : Text) : Bool := keywords.contains w

def kindof (w : Text) : Text := if isKw w then spell "kw" else spell "ident"

def isTwoOp (two : Text) : Bool :=
  (["==", "!=", "<=", ">=", "&&", "||", "<<", ">>"].map spell).contains two

def twoAt (src : Text) (i : Nat) : Except Trap Text := do
  let one ← chr (characterCodeAt src i)
  let two ← chr (characterCodeAt src (i + 1))
  pure (one ++ two)

def oneAt (src : Text) (i : Nat) : Except Trap Text := chr (characterCodeAt src i)

def oplen (src : Text) (i : Nat) : Except Trap Nat := do
  let two ← twoAt src i
  pure (if isTwoOp two then 2 else 1)

def numkind (e fe : Nat) : Text := if e < fe then spell "float" else spell "int"

/-! ## Printing a token -/

/-- The loop of `pad10`. -/
def pad10 : Nat → Text → Text
  | 0, s => s
  | fuel + 1, s => if s.length < 10 then pad10 fuel (48 :: s) else s

/-- A word in unsigned decimal. -/
def udec (v : BitVec 64) : Text :=
  let hi := v / 10000000000#64
  if hi ≠ 0 then strOfWord hi.toInt ++ pad10 10 (strOfWord (v % 10000000000#64).toInt)
  else strOfWord v.toInt

def printUint (v : BitVec 64) (st : LexState) : LexState := print (spell "int " ++ udec v) st

/-- A literal of more than `limit` digits is printed as it is written. -/
def printNumber (src : Text) (i e : Nat) (v : BitVec 64) (limit : Nat) (st : LexState) :
    Except Trap LexState :=
  if limit < e - zeroEnd src e src.length (i + 2) then do
    let text ← strSub src i (e - i)
    pure (print (spell "int " ++ text) st)
  else pure (printUint v st)

def scanNumOut (src : Text) (i e fe : Nat) (st : LexState) : Except Trap LexState := do
  let text ← sliceStr src i fe
  pure (print (numkind e fe ++ spell " " ++ text) st)

def scanStrOut (src : Text) (i e : Nat) (st : LexState) : Except Trap LexState := do
  let q ← chr 34
  let text ← sliceStr src i e
  pure (print (spell "str " ++ q ++ text ++ q) st)

def scanHashOut (src : Text) (i e : Nat) (st : LexState) : Except Trap LexState := do
  let text ← sliceStr src (i + 1) e
  pure (print text st)

def scanOpOut (src : Text) (i : Nat) (two : Text) (st : LexState) : Except Trap LexState := do
  let one ← oneAt src i
  pure (print (spell "op " ++ if isTwoOp two then two else one) st)

def scanIdentOut (ident : Text) (st : LexState) : LexState :=
  print (kindof ident ++ spell " " ++ ident) st

/-! ## The scanners -/

/-- The loop of `scan_ident`. -/
def scanIdentLoop (src : Text) : Nat → Nat → Text → Except Trap (Nat × Text)
  | 0, i, ident => .ok (i, ident)
  | fuel + 1, i, ident =>
    if isNamePartAt src i then do
      let c ← chr (characterCodeAt src i)
      scanIdentLoop src fuel (i + 1) (ident ++ c)
    else .ok (i, ident)

def scanIdent (src : Text) (i : Nat) (st : LexState) : Except Trap (Nat × LexState) := do
  let (e, ident) ← scanIdentLoop src (src.length + 1) i []
  pure (e, scanIdentOut ident st)

def scanNumber (src : Text) (i : Nat) (st : LexState) : Except Trap (Nat × LexState) := do
  let e := digitRunEnd src i
  let fe := numEnd src e
  let st ← scanNumOut src i e fe st
  pure (fe, st)

/-- From the index after the opening quote. -/
def scanString (src : Text) (i : Nat) (st : LexState) : Except Trap (Nat × LexState) := do
  let e := strEnd src i
  let st ← scanStrOut src i e st
  pure (e + 1, st)

def scanOp (src : Text) (i : Nat) (st : LexState) : Except Trap (Nat × LexState) := do
  let two ← twoAt src i
  let st ← scanOpOut src i two st
  let n ← oplen src i
  pure (i + n, st)

def scanHex (src : Text) (i : Nat) (st : LexState) : Except Trap (Nat × LexState) := do
  let e := hexEnd src (i + 2)
  let v := hexVal src e src.length (i + 2) 0
  let st ← printNumber src i e v 16 st
  pure (e, st)

def scanBin (src : Text) (i : Nat) (st : LexState) : Except Trap (Nat × LexState) := do
  let e := binEnd src (i + 2)
  let v := binVal src e src.length (i + 2) 0
  let st ← printNumber src i e v 64 st
  pure (e, st)

/-- A driver marker: the line number restarts. -/
def scanHash (src : Text) (i : Nat) (st : LexState) : Except Trap (Nat × LexState) := do
  let e := stringEndOfLine src i
  let st ← scanHashOut src i e st
  pure (e, { st with lexline := 0 })

def isShebang (src : Text) (i : Nat) (st : LexState) : Bool :=
  decide (characterCodeAt src i = 35) && decide (characterCodeAt src (i + 1) = 33) &&
    decide (i = st.lexbol) && decide (st.lexline = 1)

def scanShebang (src : Text) (i : Nat) (st : LexState) : Nat × LexState :=
  (stringEndOfLine src i, if isShebang src i st then st else print (spell "op #!") st)

def scanBang (src : Text) (i : Nat) (st : LexState) : Except Trap (Nat × LexState) :=
  if characterCodeAt src (i + 1) = 33 then .ok (scanShebang src i st) else scanHash src i st

/-! ## Lines -/

def bumpLine (st : LexState) : LexState :=
  let st := { st with lexline := st.lexline + 1 }
  print (spell "line " ++ strOfWord st.lexline) st

def eatSpace (src : Text) (i : Nat) (st : LexState) : Nat × LexState :=
  (i + 1, if characterCodeAt src i = 10 then { bumpLine st with lexbol := i + 1 } else st)

/-- The loop of `skip_block`. -/
def skipBlockLoop (src : Text) : Nat → Nat → LexState → Nat × LexState
  | 0, i, st => (i, st)
  | fuel + 1, i, st =>
    if characterCodeAt src i ≠ -1 ∧
        (characterCodeAt src i ≠ 42 ∨ characterCodeAt src (i + 1) ≠ 47) then
      skipBlockLoop src fuel (eatSpace src i st).1 (eatSpace src i st).2
    else (i, st)

def skipBlock (src : Text) (i : Nat) (st : LexState) : Nat × LexState :=
  let r := skipBlockLoop src (src.length + 1) i st
  (r.1 + 2, r.2)

def blockTok (src : Text) (i : Nat) (st : LexState) : Nat × LexState :=
  skipBlock src (i + 2) (print (spell "op /*") st)

/-- The columns of a token, under `--cols`. -/
def spanOut (src : Text) (i ni : Nat) (st : LexState) : LexState :=
  if st.lexcols = 1 ∧ isLcomment src i = false ∧ isShebang src i st = false then
    let b : Int := st.lexbol
    print (spell "span " ++ strOfWord (Int.bmod ((i - b) * 65536 + ni - b) (2 ^ 32))) st
  else st

/-! ## The dispatch chain -/

def scanStrop (src : Text) (i : Nat) (st : LexState) : Except Trap (Nat × LexState) :=
  if characterCodeAt src i = 34 then scanString src (i + 1) st else scanOp src i st

def scanDecop (src : Text) (i : Nat) (st : LexState) : Except Trap (Nat × LexState) :=
  if characterIsDigitAt src i then scanNumber src i st else scanStrop src i st

def scanBinop (src : Text) (i : Nat) (st : LexState) : Except Trap (Nat × LexState) :=
  if binStart src i then scanBin src i st else scanDecop src i st

def scanNumop (src : Text) (i : Nat) (st : LexState) : Except Trap (Nat × LexState) :=
  if hexStart src i then scanHex src i st else scanBinop src i st

def scanToken (src : Text) (i : Nat) (st : LexState) : Except Trap (Nat × LexState) :=
  if isNameStartAt src i then scanIdent src i st else scanNumop src i st

def scanHashop (src : Text) (i : Nat) (st : LexState) : Except Trap (Nat × LexState) :=
  if characterCodeAt src i = 35 then scanBang src i st else scanToken src i st

def scanBlock (src : Text) (i : Nat) (st : LexState) : Except Trap (Nat × LexState) :=
  if characterCodeAt src i = 47 ∧ characterCodeAt src (i + 1) = 42 then .ok (blockTok src i st)
  else scanHashop src i st

def scanWord (src : Text) (i : Nat) (st : LexState) : Except Trap (Nat × LexState) :=
  if characterCodeAt src i = 47 ∧ characterCodeAt src (i + 1) = 47 then
    .ok (stringEndOfLine src i, st)
  else scanBlock src i st

def scanTokSpan (src : Text) (i : Nat) (st : LexState) : Except Trap (Nat × LexState) := do
  let (ni, st) ← scanWord src i st
  pure (ni, spanOut src i ni st)

def scanOne (src : Text) (i : Nat) (st : LexState) : Except Trap (Nat × LexState) :=
  if characterIsSpaceAt src i then .ok (eatSpace src i st) else scanTokSpan src i st

/-! ## The lexer -/

/-- The cells after `lex_setup`, with `--cols` given or not. -/
def lexSetup (cols : Bool) : LexState := ⟨1, 0, if cols then 1 else 0, []⟩

/-- The loop of `lex`; without fuel it has no answer. -/
def lexLoop (src : Text) : Nat → Nat → LexState → Option (Except Trap LexState)
  | 0, _, _ => none
  | fuel + 1, i, st =>
    if i < len src then
      match scanOne src i st with
      | .error t => some (.error t)
      | .ok (ni, st) => lexLoop src fuel ni st
    else some (.ok st)

def lex (src : Text) (st : LexState) : Option (Except Trap LexState) :=
  lexLoop src (src.length + 1) 0 st

end IdCompiler.Lexer

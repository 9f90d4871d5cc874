import IdCompiler.Num.Literal
import IdCompiler.Tokens.Load

/-!
# Float literals

A float keeps its spelling. The parser only checks that the exponent has a digit
and that the number is not so large that it rounds to infinity, which is decided
on the digits.
-/

namespace IdCompiler.Num

open IdCompiler.Source IdCompiler.Lexer IdCompiler.Tokens

/-! ## Library functions -/

/-- The rounds of `string_find`. -/
def findLoop (t : Text) : Text → Nat → Int
  | [], _ => -1
  | c :: s, i => if t.isPrefixOf (c :: s) then i else findLoop t s (i + 1)

/-- `string_find`: -1 where the text is not found. -/
def stringFind (s t : Text) : Int := if t = [] then 0 else findLoop t s 0

/-- The rounds of `string_replace`: a text found is skipped, any other character is copied. -/
def replaceLoop (a b : Text) : Nat → Text → Text
  | 0, s => s
  | fuel + 1, s =>
    if a.isPrefixOf s then b ++ replaceLoop a b fuel (s.drop a.length)
    else
      match s with
      | [] => []
      | c :: s => c :: replaceLoop a b fuel s

def stringReplace (s a b : Text) : Text := if a = [] then s else replaceLoop a b s.length s

/-- `string_compare`: the sign at the first difference, where a text that ends there reads as -1. -/
def stringCompare (s t : Text) : Int :=
  let i := firstDifference s t
  (characterCodeAt s i - characterCodeAt t i).sign

def stringRepeat (s : Text) (n : Nat) : Text := (List.replicate n s).flatten

/-! ## The exponent -/

/-- The rounds of `flt_e_at`. -/
def fltELoop (text : Text) : Nat → Nat → Nat
  | 0, k => k
  | fuel + 1, k =>
    if k < text.length ∧ characterCodeAt text k ≠ 101 ∧ characterCodeAt text k ≠ 69 then
      fltELoop text fuel (k + 1)
    else k

/-- `flt_e_at`: the index of the `e`, the length where there is none. -/
def fltEAt (text : Text) : Nat := fltELoop text text.length 0

/-- Whether a code is a sign's, as the number that the source adds. -/
def isSign (c : Int) : Nat := if c = 43 ∨ c = 45 then 1 else 0

def fltExpHas (text : Text) (j : Nat) : Int :=
  let dg := characterCodeAt text (j + isSign (characterCodeAt text j))
  if 48 ≤ dg ∧ dg ≤ 57 then 1 else 0

def fltExpOk (text : Text) : Int :=
  let k := fltEAt text
  if k < text.length then fltExpHas text (k + 1) else 1

/-- More than six digits are a million. -/
def fltClamp (z : Text) : Int := if z.length ≤ 6 then toInt z else 1000000

def fltExpOf (es : Text) : Except Trap Int := do
  let sg := characterCodeAt es 0
  let ds ← sliceAt es (isSign sg) es.length
  let v := fltClamp (stripZeros ds)
  pure (if sg = 45 then 0 - v else v)

def fltLitExp (text : Text) : Except Trap Int :=
  let k := fltEAt text
  if k < text.length then do
    let es ← sliceAt text (k + 1) text.length
    fltExpOf es
  else pure 0

/-! ## The digits -/

/-- `flt_lit_mant`: the digits without the point. -/
def fltLitMant (text : Text) : Except Trap Text := do
  let m ← sliceAt text 0 (fltEAt text)
  pure (stringReplace m (spell ".") (spell ""))

/-- The rounds of `flt_lstrip`. -/
def fltStripLoop (raw : Text) : Nat → Nat → Nat
  | 0, i => i
  | fuel + 1, i => if characterCodeAt raw i = 48 then fltStripLoop raw fuel (i + 1) else i

def fltLstrip (raw : Text) : Except Trap Text := sliceAt raw (fltStripLoop raw raw.length 0) raw.length

/-- `flt_ilen`: the digits before the point. -/
def fltIlen (text : Text) : Int :=
  let dot := stringFind text (spell ".")
  if 0 ≤ dot then dot else fltEAt text

/-- `flt_scale`: where the point falls, counted from the first digit that counts. -/
def fltScale (text raw ds : Text) : Except Trap Int := do
  let e ← fltLitExp text
  pure (fltIlen text + e - raw.length + ds.length)

/-! ## Overflow -/

def fltInfPt : Nat := 309

def fltInfDigits : Text :=
  spell "1797693134862315807937289714053" ++ spell "0341507993413271003782693617377" ++
    spell "8980444968292764750946649017977" ++ spell "5872070963302864166928879109465" ++
    spell "5554785194040263065748867150582" ++ spell "0681908902000708383676273854845" ++
    spell "8177115317644757302700698555713" ++ spell "6695962284291481986083493647529" ++
    spell "2719074168444365510704342711559" ++ spell "699508093042880177904174497792"

/-- `flt_head`: as many digits as the limit has. -/
def fltHead (ds : Text) (w : Nat) : Except Trap Text := do
  let m := min ds.length w
  let h ← strSub ds 0 m
  pure (h ++ stringRepeat (spell "0") (w - m))

def fltGeMax (ds : Text) : Except Trap Int := do
  let head ← fltHead ds fltInfPt
  pure (if 0 ≤ stringCompare head fltInfDigits then 1 else 0)

def fltOverAt (p : Int) (ds : Text) : Except Trap Int :=
  if fltInfPt < p then pure 1 else if p = fltInfPt then fltGeMax ds else pure 0

/-- `flt_over` -/
def fltOver (text : Text) : Except Trap Int := do
  let raw ← fltLitMant text
  let ds ← fltLstrip raw
  if 0 < ds.length then do
    let p ← fltScale text raw ds
    fltOverAt p ds
  else pure 0

/-! ## The check -/

/-- What `syn_diag` is given. -/
structure SynDiag where
  code : Text
  msg : Text
  place : Text
  why : Text
  help : Text
  deriving DecidableEq

def fltBad (text code tail why help : Text) : SynDiag :=
  ⟨code, spell "float literal '" ++ text ++ spell "'" ++ tail, text, why, help⟩

def fltExpWhy : Text :=
  spell ("an exponent is 'e' or 'E', an optional sign and at least one digit, so this text " ++
    "names no number; it is not read as a number followed by a variable called e")

def fltExpHelp : Text :=
  spell ("write the digits after the 'e', as in 1e5, 1.5E+3 or 6.02e-23, " ++
    "or delete the 'e' if it was a typo")

def fltBigWhy : Text :=
  spell ("a float is an IEEE-754 binary64 and its largest finite value is about " ++
    "1.7976931348623157e308; a literal beyond that rounds to infinity, which a literal cannot be")

def fltBigHelp : Text :=
  spell "write a value no larger than 1.7976931348623157e308, or lower the exponent"

/-- An exponent without digits. -/
def noDigits (text : Text) : SynDiag :=
  fltBad text (spell "E0103") (spell " has an exponent with no digits") fltExpWhy fltExpHelp

def tooLarge (text : Text) : SynDiag :=
  fltBad text (spell "E0104") (spell " is too large: it overflows to infinity") fltBigWhy fltBigHelp

/-- `flt_check`: what is reported. -/
def fltCheck (text : Text) : Except Trap (List SynDiag) :=
  if fltExpOk text = 0 then pure [noDigits text]
  else do
    let infinite ← fltOver text
    pure (if infinite = 1 then [tooLarge text] else [])

/-- `flt_norm`: a point is put before an exponent. -/
def fltNorm (text : Text) : Except Trap Text :=
  let k := fltEAt text
  if k < text.length ∧ stringFind text (spell ".") < 0 then do
    let m ← sliceAt text 0 k
    let e ← sliceAt text k text.length
    pure (m ++ spell ".0" ++ e)
  else pure text

example : fltNorm (spell "2e10") = .ok (spell "2.0e10") := by decide

end IdCompiler.Num

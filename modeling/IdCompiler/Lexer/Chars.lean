import IdCompiler.Lexer.Strlit

/-!
# Characters and runs of characters

The classes of a code and of what is read at an index, and the ends of the runs that
tokens are made of. A read past the end is in no class, so every run ends.
-/

namespace IdCompiler.Lexer

open IdCompiler.Source

/-! ## Classes of codes -/

def characterIsAlpha (c : Int) : Bool := characterIn c 65 90 || characterIn c 97 122

def characterIsDigit (c : Int) : Bool := characterIn c 48 57

def characterIsSpace (c : Int) : Bool := decide (c = 32) || decide (c = 9) || decide (c = 10) ||
  decide (c = 13)

def characterIsNameStart (c : Int) : Bool := characterIsAlpha c || decide (c = 95)

def characterIsNamePart (c : Int) : Bool := characterIsNameStart c || characterIsDigit c

def isHex (c : Int) : Bool := characterIsDigit c || decide (97 ≤ c) && decide (c ≤ 102) ||
  decide (65 ≤ c) && decide (c ≤ 70)

def isBin (c : Int) : Bool := decide (c = 48) || decide (c = 49)

/-! ## Classes of what is read -/

variable (src : Text) (i : Nat)

def characterIsSpaceAt : Bool := characterIsSpace (characterCodeAt src i)

def characterIsDigitAt : Bool := characterIsDigit (characterCodeAt src i)

def isNameStartAt : Bool := characterIsNameStart (characterCodeAt src i)

def isNamePartAt : Bool := characterIsNamePart (characterCodeAt src i)

def isHexAt : Bool := isHex (characterCodeAt src i)

def isBinAt : Bool := isBin (characterCodeAt src i)

def isLcomment : Bool := decide (characterCodeAt src i = 47) && decide (characterCodeAt src (i + 1) = 47)

/-! ## Runs -/

/-- A loop that steps over the codes of a class. -/
def runLoop (cls : Int → Bool) (src : Text) : Nat → Nat → Nat
  | 0, i => i
  | fuel + 1, i => if cls (characterCodeAt src i) then runLoop cls src fuel (i + 1) else i

/-- The first index from `i` on whose code is not of the class. -/
def runEnd (cls : Int → Bool) : Nat := runLoop cls src (src.length + 1) i

/-- The newline from an index on, or the end. -/
def stringEndOfLine : Nat := runEnd src i fun c => decide (c ≠ 10) && decide (c ≠ -1)

def digitRunEnd : Nat := runEnd src i characterIsDigit

def hexEnd : Nat := runEnd src i isHex

def binEnd : Nat := runEnd src i isBin

/-- The first index before `e` whose code is not a zero's. -/
def zeroEnd (src : Text) (e : Nat) : Nat → Nat → Nat
  | 0, from_ => from_
  | fuel + 1, from_ =>
    if from_ < e ∧ characterCodeAt src from_ = 48 then zeroEnd src e fuel (from_ + 1) else from_

/-! ## Numbers -/

def hasFrac (e : Nat) : Bool := decide (characterCodeAt src e = 46) && characterIsDigitAt src (e + 1)

/-- The end of an exponent, if there is one. -/
def expEnd (fe : Nat) : Nat :=
  let c := characterCodeAt src fe
  if c = 101 ∨ c = 69 then
    let sg := characterCodeAt src (fe + 1)
    digitRunEnd src (fe + 1 + if sg = 43 ∨ sg = 45 then 1 else 0)
  else fe

def numEnd (e : Nat) : Nat := expEnd src (if hasFrac src e then digitRunEnd src (e + 1) else e)

def hexStart : Bool := decide (characterCodeAt src i = 48) &&
  (decide (characterCodeAt src (i + 1) = 120) || decide (characterCodeAt src (i + 1) = 88)) &&
  isHexAt src (i + 2)

def binStart : Bool := decide (characterCodeAt src i = 48) &&
  (decide (characterCodeAt src (i + 1) = 98) || decide (characterCodeAt src (i + 1) = 66)) &&
  isBinAt src (i + 2)

def hexAlpha (c : Int) : Int := if 97 ≤ c then c - 87 else c - 55

def hexDigit (c : Int) : Int := if 65 ≤ c then hexAlpha c else c - 48

/-- The loop of `hex_val`, in a word. -/
def hexVal (src : Text) (e : Nat) : Nat → Nat → BitVec 64 → BitVec 64
  | 0, _, v => v
  | fuel + 1, i, v =>
    if i < e then
      hexVal src e fuel (i + 1) (v * 16#64 + BitVec.ofInt 64 (hexDigit (characterCodeAt src i)))
    else v

/-- The loop of `bin_val`. -/
def binVal (src : Text) (e : Nat) : Nat → Nat → BitVec 64 → BitVec 64
  | 0, _, v => v
  | fuel + 1, i, v =>
    if i < e then
      binVal src e fuel (i + 1) (v * 2#64 + BitVec.ofInt 64 (characterCodeAt src i) - 48#64)
    else v

end IdCompiler.Lexer

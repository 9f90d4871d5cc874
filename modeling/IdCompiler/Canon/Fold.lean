import Mathlib.Data.String.Basic

/-!
# Constant folding in fingerprints

The value of an operator over two literals, as the text of the literal it folds
to, or nothing where the result could differ between the widths of a number.
-/

namespace IdCompiler.Canon

/-- `"I" + n` -/
def intText (n : BitVec 32) : String := "I" ++ toString n.toInt

/-- `fold_word` -/
def foldWord (wv : BitVec 64) : String := if wv.sle 2147483647 then intText (wv.truncate 32) else ""

def computeAdd (a b : BitVec 32) : String := if a.sle (2147483647 - b) then intText (a + b) else ""

def computeSub (a b : BitVec 32) : String := intText (a - b)

/-- `mul_word` -/
def mulWord (a b : BitVec 32) : BitVec 64 := a.signExtend 64 * b.signExtend 64

def computeMul (a b : BitVec 32) : String := foldWord (mulWord a b)

def computeDiv (a b : BitVec 32) : String := if b ≠ 0 then intText (a.sdiv b) else ""

def computeMod (a b : BitVec 32) : String := if b ≠ 0 then intText (a.srem b) else ""

def computeAnd (a b : BitVec 32) : String := intText (a &&& b)

def computeOr (a b : BitVec 32) : String := intText (a ||| b)

def computeXor (a b : BitVec 32) : String := intText (a ^^^ b)

/-- `shl_word`, of a count below 32. -/
def shlWord (a b : BitVec 32) : BitVec 64 := a.signExtend 64 <<< b.toNat

def computeShl (a b : BitVec 32) : String := if b.slt 32 then foldWord (shlWord a b) else ""

def computeShr (a b : BitVec 32) : String := intText (a.sshiftRight b.toNat)

/-- `fold_op`: each link of the chain overrides what the next ones give. -/
def foldOp (op : String) (a b : BitVec 32) : String :=
  if op = "-" then computeSub a b
  else if op = "+" then computeAdd a b
  else if op = "/" then computeDiv a b
  else if op = "*" then computeMul a b
  else if op = "&" then computeAnd a b
  else if op = "%" then computeMod a b
  else if op = "^" then computeXor a b
  else if op = "|" then computeOr a b
  else if op = ">>" then computeShr a b
  else if op = "<<" then computeShl a b
  else ""

end IdCompiler.Canon

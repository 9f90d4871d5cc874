import IdCompiler.Source.Text

/-!
# The end of a string literal

The scan for the closing quote of a literal, past every escaped character.
-/

namespace IdCompiler.Lexer

open IdCompiler.Source

/-- One byte further, or two from a backslash. -/
def advStr (src : Text) (i : Nat) : Nat := if characterCodeAt src i = 92 then i + 2 else i + 1

/-- The loop of `str_end`. -/
def strEndLoop (src : Text) : Nat → Nat → Nat
  | 0, i => i
  | fuel + 1, i =>
    if characterCodeAt src i ≠ 34 ∧ characterCodeAt src i ≠ -1 then
      strEndLoop src fuel (advStr src i)
    else i

/-- The closing quote from an index on, or an index past the end. -/
def strEnd (src : Text) (i : Nat) : Nat := strEndLoop src (src.length + 1) i

end IdCompiler.Lexer

import IdCompiler.Lexer.Scan

/-!
# Spellings of function types

A type is kept as its spelling, and the parts of a function type are read back
out of it by counting parentheses.
-/

namespace IdCompiler.Types

open IdCompiler.Source IdCompiler.Lexer

/-! ## Types -/

/-- The name of a base type or of a struct. -/
structure Name where
  text : Text
  ne : text ≠ []
  part : ∀ c ∈ text, characterIsNamePart c

/-- The ends of a channel. -/
inductive End
  | sender
  | receiver

/-- What `parse_type` reads. Brackets follow a name only. -/
inductive Ty
  | base (name : Name) (dims : Nat)
  | chanEnd (side : End) (mtype : Ty)
  | func (params : List Ty) (ret : Ty)

/-- `add_brackets` -/
def addBrackets (t : Text) : Nat → Text
  | 0 => t
  | dims + 1 => addBrackets (t ++ spell "[]") dims

def End.text : End → Text
  | .sender => spell "sender"
  | .receiver => spell "receiver"

mutual
/-- The canonical spelling. -/
def Ty.spelling : Ty → Text
  | .base name dims => addBrackets name.text dims
  | .chanEnd side mtype => side.text ++ spell "(" ++ mtype.spelling ++ spell ")"
  | .func params ret => spell "func(" ++ paramsSpelling params ++ spell ") return " ++ ret.spelling
/-- The spellings of parameter types, with `, ` between two. -/
def paramsSpelling : List Ty → Text
  | [] => []
  | p :: params => p.spelling ++ restSpelling params
def restSpelling : List Ty → Text
  | [] => []
  | p :: params => spell ", " ++ p.spelling ++ restSpelling params
end

/-- `fn_sep` -/
def fnSep (out : Text) : Text := if out ≠ [] then spell ", " else []

/-- `fn_type_params` for the types that it reads. -/
def fnTypeParams (out : Text) (pts : List Text) : Text := pts.foldl (fun out pt => out ++ fnSep out ++ pt) out

/-! ## Shape -/

/-- `ty_is_func` -/
def tyIsFunc (t : Text) : Int := if characterCodeAt t 0 = 102 ∧ characterCodeAt t 4 = 40 then 1 else 0

def fnDepth (c : Int) : Int := if c = 40 then 1 else if c = 41 then -1 else 0

/-- The rounds of `fn_close`. -/
def fnCloseLoop (t : Text) : Nat → Int → Nat → Nat
  | 0, _, i => i
  | fuel + 1, d, i => if 0 < d ∧ i < t.length then fnCloseLoop t fuel (d + fnDepth (characterCodeAt t i)) (i + 1) else i

/-- `fn_close`: every round takes a character. -/
def fnClose (t : Text) : Nat := fnCloseLoop t t.length 1 5

/-! ## Parts -/

def slice (src : Text) (a b : Nat) : Except Trap Text := if a < b then strSub src a (b - a) else .ok []

/-- The cells `st` and the list `pts` of the walk, with the bounds of the slices taken. -/
structure Walk where
  start : Nat
  depth : Int
  pts : List Text
  cuts : List (Nat × Nat)

/-- A slice that becomes a parameter type. -/
def Walk.push (w : Walk) (t : Text) (i : Nat) : Except Trap Walk := do
  let piece ← slice t w.start i
  return { w with pts := w.pts ++ [piece], cuts := w.cuts ++ [(w.start, i)] }

def fnCut (t : Text) (i : Nat) (w : Walk) : Except Trap Walk := do
  let w ← w.push t i
  return { w with start := i + 2 }

def fnStep (t : Text) (i : Nat) (w : Walk) : Except Trap Walk :=
  if characterCodeAt t i = 44 ∧ w.depth = 0 then fnCut t i w
  else .ok { w with depth := w.depth + fnDepth (characterCodeAt t i) }

/-- The rounds of `fn_walk`. -/
def fnWalkLoop (t : Text) : Nat → Nat → Walk → Except Trap Walk
  | 0, _, w => .ok w
  | n + 1, i, w => do
    let w ← fnStep t i w
    fnWalkLoop t n (i + 1) w

def fnWalk (t : Text) (hi : Nat) (w : Walk) : Except Trap Walk := fnWalkLoop t (hi - 5) 5 w

def fnLast (t : Text) (hi : Nat) (w : Walk) : Except Trap Walk := if 5 < hi then w.push t hi else .ok w

def fnSplit (t : Text) (hi : Nat) : Except Trap Walk := do
  let w ← fnWalk t hi ⟨5, 0, [], []⟩
  fnLast t hi w

def fnParams (t : Text) : Except Trap (List Text) := do
  let w ← fnSplit t (fnClose t - 1)
  return w.pts

/-- The bounds of the slices that `fn_params` takes. -/
def paramCuts (t : Text) : Except Trap (List (Nat × Nat)) := do
  let w ← fnSplit t (fnClose t - 1)
  return w.cuts

/-- The bounds of the slice that `fn_ret` takes. -/
def retCut (t : Text) : Nat × Nat := (fnClose t + 8, t.length)

def fnRet (t : Text) : Except Trap Text := slice t (retCut t).1 (retCut t).2

end IdCompiler.Types

import IdCompiler.Source.Text

/-!
# String literals as C reads them

The phases of C11 translation that a string literal goes through: trigraphs, spliced
lines, escape sequences, adjacent literals made one. A text that is no valid literal
has no reading.
-/

namespace IdCompiler.Literal

open IdCompiler.Source

/-! ## Before tokens -/

/-- The character a trigraph `??c` stands for. -/
def trigraph (c : Nat) : Option Nat :=
  match c with
  | 61 => some 35
  | 47 => some 92
  | 39 => some 94
  | 40 => some 91
  | 41 => some 93
  | 33 => some 124
  | 60 => some 123
  | 62 => some 125
  | 45 => some 126
  | _ => none

/-- The first phase: trigraphs are replaced. -/
def trigraphs : Text → Text
  | [] => []
  | [c] => [c]
  | [c, d] => [c, d]
  | c :: d :: e :: t =>
    match if c = 63 ∧ d = 63 then trigraph e else none with
    | some b => b :: trigraphs t
    | none => c :: trigraphs (d :: e :: t)

/-- The second phase: a backslash at the end of a line goes with the line's end. -/
def splice : Text → Text
  | [] => []
  | [c] => [c]
  | c :: d :: t => if c = 92 ∧ d = 10 then splice t else c :: splice (d :: t)

/-! ## Escape sequences -/

/-- The value of a hex digit. -/
def hexDigit (c : Nat) : Option Nat :=
  if 48 ≤ c ∧ c ≤ 57 then some (c - 48)
  else if 65 ≤ c ∧ c ≤ 70 then some (c - 55)
  else if 97 ≤ c ∧ c ≤ 102 then some (c - 87)
  else none

/-- An octal digit. -/
def IsOctal (c : Nat) : Prop := 48 ≤ c ∧ c ≤ 55

instance (c : Nat) : Decidable (IsOctal c) := inferInstanceAs (Decidable (_ ∧ _))

/-- The simple escape sequences. -/
def simpleEscape (c : Nat) : Option Nat :=
  match c with
  | 39 => some 39
  | 34 => some 34
  | 63 => some 63
  | 92 => some 92
  | 97 => some 7
  | 98 => some 8
  | 102 => some 12
  | 110 => some 10
  | 114 => some 13
  | 116 => some 9
  | 118 => some 11
  | _ => none

/-- A universal character name in UTF-8, where C allows it. -/
def ucnBytes (v : Nat) : Option (List Nat) :=
  if v < 160 then if v = 36 ∨ v = 64 ∨ v = 96 then some [v] else none
  else if v < 2048 then some [192 + v / 64, 128 + v % 64]
  else if 55296 ≤ v ∧ v ≤ 57343 ∨ 1114111 < v then none
  else if v < 65536 then some [224 + v / 4096, 128 + v / 64 % 64, 128 + v % 64]
  else some [240 + v / 262144, 128 + v / 4096 % 64, 128 + v / 64 % 64, 128 + v % 64]

/-- Where the reader is. -/
inductive CState
  /-- Between two literals. -/
  | outside
  | inside
  /-- After a backslash. -/
  | escape
  /-- After `n` octal digits of value `v`. -/
  | octal (n v : Nat)
  /-- After hex digits of value `v`, if any. -/
  | hex (any : Bool) (v : Nat)
  /-- Before the last `n` digits of a universal character name. -/
  | ucn (n v : Nat)
  deriving DecidableEq

/-- A character of the literal itself. -/
def insideStep (c : Nat) : Option (List Nat × CState) :=
  if c = 34 then some ([], .outside)
  else if c = 92 then some ([], .escape)
  else if c = 10 then none
  else some ([c], .inside)

/-- One character: the bytes it completes, and where the reader is then. -/
def cStep : CState → Nat → Option (List Nat × CState)
  | .outside, c => if c = 34 then some ([], .inside) else none
  | .inside, c => insideStep c
  | .escape, c =>
    if IsOctal c then some ([], .octal 1 (c - 48))
    else if c = 120 then some ([], .hex false 0)
    else if c = 117 then some ([], .ucn 4 0)
    else if c = 85 then some ([], .ucn 8 0)
    else (simpleEscape c).map fun b => ([b], .inside)
  | .octal n v, c =>
    if n < 3 ∧ IsOctal c then some ([], .octal (n + 1) (v * 8 + (c - 48)))
    else if v ≤ 255 then (insideStep c).map fun r => (v :: r.1, r.2)
    else none
  | .hex any v, c =>
    match hexDigit c with
    | some d => some ([], .hex true (v * 16 + d))
    | none => if any ∧ v ≤ 255 then (insideStep c).map fun r => (v :: r.1, r.2) else none
  | .ucn n v, c =>
    match hexDigit c with
    | some d =>
      if n ≤ 1 then (ucnBytes (v * 16 + d)).map fun b => (b, .inside)
      else some ([], .ucn (n - 1) (v * 16 + d))
    | none => none

/-- The bytes of a sequence of literals, with the NUL at the end. -/
def cRun : CState → Text → Option (List Nat)
  | q, [] => if q = .outside then some [0] else none
  | q, c :: t => (cStep q c).bind fun r => (cRun r.2 t).map (r.1 ++ ·)

/-- The bytes C gives a text of literals. -/
def cLiteral (t : Text) : Option (List Nat) := cRun .outside (splice (trigraphs t))

end IdCompiler.Literal

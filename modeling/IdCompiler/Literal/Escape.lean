import IdCompiler.Source.Text

/-!
# String literals for the two targets

What the compiler prints for a literal, given with its quotes and escapes: the
constant of the LLVM target, byte by byte in hex, and the literal of the C target.
-/

namespace IdCompiler.Literal

open IdCompiler.Source

/-! ## Escapes of more than one character -/

/-- 1 where a `\xHH` starts. -/
def hexEscapeAt (text : Text) (at_ : Nat) : Bool :=
  decide (characterCodeAt text at_ = 92) && decide (characterCodeAt text (at_ + 1) = 120) &&
    decide (0 ≤ urlHexValue (characterCodeAt text (at_ + 2))) &&
    decide (0 ≤ urlHexValue (characterCodeAt text (at_ + 3)))

def hexEscapeByte (text : Text) (at_ : Nat) : Int :=
  urlHexValue (characterCodeAt text (at_ + 2)) * 16 + urlHexValue (characterCodeAt text (at_ + 3))

/-- The loop of `octal_escape_length`, from a count on. -/
def octalCount (text : Text) (at_ : Nat) : Nat → Nat → Nat
  | 0, count => count
  | fuel + 1, count =>
    if characterCodeAt text at_ = 92 ∧ count < 3 ∧ 48 ≤ characterCodeAt text (at_ + 1 + count) ∧
        characterCodeAt text (at_ + 1 + count) ≤ 55 then
      octalCount text at_ fuel (count + 1)
    else count

/-- The digits of the octal escape that starts there; at most three rounds are made. -/
def octalEscapeLength (text : Text) (at_ : Nat) : Nat := octalCount text at_ 4 0

/-- The loop of `octal_escape_byte`. -/
def octalValue (text : Text) (at_ : Nat) : Nat → Int
  | 0 => 0
  | n + 1 => octalValue text at_ n * 8 + characterCodeAt text (at_ + (n + 1)) - 48

def octalEscapeByte (text : Text) (at_ count : Nat) : Int := (octalValue text at_ count).tmod 256

/-! ## The LLVM target -/

def llNib (n : Int) : Text := if 9 < n then [(55 + n).toNat] else [(48 + n).toNat]

/-- One byte as `\XX`. -/
def llHex (c : Int) : Text := [92] ++ llNib (c.tdiv 16) ++ llNib (c.tmod 16)

def llEscbyte2 (c : Int) : Int := if c = 114 then 13 else if c = 48 then 0 else c

/-- The byte a backslash escape denotes. -/
def llEscbyte (c : Int) : Int := if c = 110 then 10 else if c = 116 then 9 else llEscbyte2 c

/-- What is printed for the piece at an index. -/
def llPiece (s : Text) (i : Nat) : Text :=
  let out := llHex (characterCodeAt s i)
  let out := if characterCodeAt s i = 92 then llHex (llEscbyte (characterCodeAt s (i + 1))) else out
  let out := if hexEscapeAt s i then llHex (hexEscapeByte s i) else out
  let octalDigits := octalEscapeLength s i
  if 0 < octalDigits then llHex (octalEscapeByte s i octalDigits) else out

/-- Where the next piece starts. -/
def llStep (s : Text) (i : Nat) : Nat :=
  let next := stringAdvancePastEscape s i 92 2
  let next := if hexEscapeAt s i then i + 4 else next
  let octalDigits := octalEscapeLength s i
  if 0 < octalDigits then i + 1 + octalDigits else next

/-- The loop of `ll_bytes_acc`, and the index it ends at. -/
def llBytesLoop (s : Text) : Nat → Nat → Text → Option (Text × Nat)
  | 0, _, _ => none
  | fuel + 1, i, out =>
    if i + 1 < s.length then llBytesLoop s fuel (llStep s i) (out ++ llPiece s i) else some (out, i)

/-- One round for each byte is enough. -/
def llBytesAcc (s : Text) : Option Text := (llBytesLoop s s.length 1 []).map Prod.fst

/-- The bytes of the constant: the pieces and the NUL. -/
def llBytes (s : Text) : Option Text := (llBytesAcc s).map (· ++ [92, 48, 48])

/-- The number of bytes of the constant. -/
def llBlen (s : Text) : Option Nat := (llBytes s).map fun b => b.length / 3

/-- The loop of `ll_zlen`. -/
def llZlenLoop (zbytes : Text) : Nat → Nat → Option Nat
  | 0, _ => none
  | fuel + 1, i =>
    if characterCodeAt zbytes (i * 3 + 1) ≠ 48 ∨ characterCodeAt zbytes (i * 3 + 2) ≠ 48 then
      llZlenLoop zbytes fuel (i + 1)
    else some i

/-- The number of bytes before the first NUL. -/
def llZlen (s : Text) : Option Nat := (llBytes s).bind fun b => llZlenLoop b b.length 0

/-! ## The C target -/

/-- The bytes of the literal that are copied as one. -/
def litWidth (raw : Text) (i : Nat) : Nat :=
  let adv := if characterCodeAt raw i = 92 then 2 else 1
  if hexEscapeAt raw i then 4 else adv

/-- The loop of `lit_qcount`. -/
def litQcountLoop (raw : Text) : Nat → Nat → Nat → Nat
  | 0, _, n => n
  | fuel + 1, i, n =>
    if i < raw.length then
      let n := if characterCodeAt raw i = 63 then n + 1 else n
      litQcountLoop raw fuel (i + litWidth raw i) (n + 2 * (hexEscapeAt raw i).toNat)
    else n

/-- The bytes the literal gains. -/
def litQcount (raw : Text) : Nat := litQcountLoop raw raw.length 0 0

/-- A code as the byte `poke8` writes. -/
def litByte (c : Int) : Nat := (c % 256).toNat

/-- `lit_copy`: a `\xHH` and an empty literal after it. -/
def litCopy (raw : Text) (i : Nat) : Text :=
  (List.range 6).map fun k => if k < 4 then litByte (characterCodeAt raw (i + k)) else 34

/-- `lit_emit`: the bytes written for one unit that is no `\xHH`. -/
def litEmit (raw : Text) (i : Nat) : Text :=
  if characterCodeAt raw i = 92 then [92, litByte (characterCodeAt raw (i + 1))]
  else if characterCodeAt raw i = 63 then [92, 63]
  else [litByte (characterCodeAt raw i)]

def litPut (raw : Text) (i : Nat) : Text := if hexEscapeAt raw i then litCopy raw i else litEmit raw i

/-- The loop of `lit_run`; the bytes in the store are those of `out`. -/
def litRunLoop (raw : Text) : Nat → Nat → Text → Text
  | 0, _, out => out
  | fuel + 1, i, out =>
    if i < raw.length then litRunLoop raw fuel (i + litWidth raw i) (out ++ litPut raw i) else out

def litRun (raw : Text) : Text := litRunLoop raw raw.length 0 []

/-- A literal for C. -/
def cLit (raw : Text) : Text := if 0 < litQcount raw then litRun raw else raw

end IdCompiler.Literal

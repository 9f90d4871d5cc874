import Mathlib.Data.List.Basic
import Mathlib.Tactic.Common

/-!
# Strings of the language

A string is the list of the codes of its bytes, none of them 0. Reads out of
range answer -1. What is left of a string at an index decides what is read there.
-/

namespace IdCompiler.Source

/-- A string: the codes of its bytes. -/
abbrev Text := List Nat

/-- The code of the byte at an index, -1 past the end. -/
def characterCodeAt (s : Text) (i : Nat) : Int :=
  match s[i]? with
  | none => -1
  | some c => c

theorem characterCodeAt_drop (s : Text) (i k : Nat) :
    characterCodeAt s (i + k) = characterCodeAt (s.drop i) k := by
  rw [characterCodeAt, characterCodeAt, List.getElem?_drop]

@[simp]
theorem characterCodeAt_zero (c : Nat) (t : Text) : characterCodeAt (c :: t) 0 = c := rfl

@[simp]
theorem characterCodeAt_succ (c : Nat) (t : Text) (k : Nat) :
    characterCodeAt (c :: t) (k + 1) = characterCodeAt t k := rfl

@[simp]
theorem characterCodeAt_nil (k : Nat) : characterCodeAt [] k = -1 := rfl

/-! ## Library functions -/

/-- `character_in`. -/
def characterIn (c lo hi : Int) : Bool := decide (lo ≤ c) && decide (c ≤ hi)

def characterLower (c : Int) : Int := if characterIn c 65 90 then c + 32 else c

/-- The value of a hex digit, -1 for any other code. -/
def urlHexValue (c : Int) : Int :=
  let l := characterLower c
  let r := if 48 ≤ c ∧ c ≤ 57 then c - 48 else -1
  if 97 ≤ l ∧ l ≤ 102 then l - 87 else r

/-- One byte further, or `by_` further from the byte `esc`. -/
def stringAdvancePastEscape (s : Text) (i : Nat) (esc : Int) (by_ : Nat) : Nat :=
  if characterCodeAt s i = esc then i + by_ else i + 1

end IdCompiler.Source

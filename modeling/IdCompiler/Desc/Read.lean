import IdCompiler.Core.Unfold
import Mathlib.Data.List.Basic

/-!
# Reading a descriptor

The runtime follows a descriptor in place: `fw_ref` goes from a back reference
to the node it names, `fw_skip` past a node, and `fw_kids` to the nodes below
one. The nodes by their offsets form a graph, and the descriptor of a type says
what the graph unfolds to.
-/

namespace IdCompiler.Desc

open IdCompiler.Core

/-- `ld8`: the byte at an offset, 0 behind the end. -/
def ld8 (s : List Char) (o : Nat) : Nat := (s[o]?.map Char.toNat).getD 0

/-- `fw_semi`, with at most the given rounds. -/
def fwSemi (s : List Char) : Nat → Nat → Option Nat
  | 0, _ => none
  | fuel + 1, o => if ld8 s o = 59 then some o else fwSemi s fuel (o + 1)

/-- `fw_num`: the number before the next `;`, `n` being what was read of it. -/
def fwNum (s : List Char) : Nat → Nat → Nat → Option Nat
  | 0, _, _ => none
  | fuel + 1, n, o => if ld8 s o = 59 then some n else fwNum s fuel (n * 10 + ld8 s o - 48) (o + 1)

/-- `fw_ref`, with at most the given references. -/
def fwRef (s : List Char) : Nat → Nat → Option Nat
  | 0, _ => none
  | fuel + 1, o =>
    if ld8 s o = 64 then (fwNum s (s.length + 1) 0 (o + 1)).bind (fwRef s fuel) else some o

/-- `fw_skip_n` -/
def fwSkipN (skip : Nat → Option Nat) : Nat → Nat → Option Nat
  | 0, o => some o
  | n + 1, o => (skip o).bind (fwSkipN skip n)

/-- `fw_skip`, with calls nested at most as deep as the given number. -/
def fwSkip (s : List Char) : Nat → Nat → Option Nat
  | 0, _ => none
  | fuel + 1, o =>
    if ld8 s o = 108 then fwSkip s fuel (o + 1)
    else if ld8 s o = 83 then fwSkipN (fwSkip s fuel) (ld8 s (o + 1) - 48) (o + 2)
    else if ld8 s o = 64 then (fwSemi s (s.length + 1) o).map (· + 1)
    else some (o + 1)

/-- What a node says. -/
inductive Label
  | str
  | none
  | list
  | struct (count : Nat)
deriving DecidableEq

/-- The node at an offset, by its first character. -/
def fwLabel (s : List Char) (o : Nat) : Option Label :=
  if ld8 s o = 115 then some .str
  else if ld8 s o = 46 then some .none
  else if ld8 s o = 108 then some .list
  else if ld8 s o = 83 then some (.struct (ld8 s (o + 1) - 48))
  else none

/-- `fw_kids`: where the node of the elements of a list or of the `i`th field of a struct is. -/
def fwKid (s : List Char) (o i : Nat) : Option Nat :=
  if ld8 s o = 83 then
    if i < ld8 s (o + 1) - 48 then fwSkipN (fwSkip s (s.length + 1)) i (o + 2) else none
  else if ld8 s o = 108 then if i = 0 then some (o + 1) else none
  else none

/-- The nodes of a descriptor, with back references followed. -/
def descGraph (s : List Char) : TreeGraph Nat (Option Label) where
  label o := (fwRef s (s.length + 1) o).bind (fwLabel s)
  child o i := (fwRef s (s.length + 1) o).bind fun n => fwKid s n i

end IdCompiler.Desc

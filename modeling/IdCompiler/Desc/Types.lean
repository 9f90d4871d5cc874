import IdCompiler.Desc.Build
import IdCompiler.Desc.Read

/-!
# Types and their trees

The types that the spellings stand for. A type unfolds to a tree of strings,
lists and structs: the fields of a struct are those of the table, so that a
struct that holds lists of itself has an infinite tree.
-/

namespace IdCompiler.Desc

open IdCompiler.Core IdCompiler.Source

/-- The types of the language, as far as freeing is concerned. -/
inductive Ty
  | str
  /-- A type that has nothing to free, such as `int`. -/
  | word (name : String)
  /-- A function type, by its spelling. -/
  | func (sig : String)
  | struct (name : String)
  | list (elem : Ty)
deriving DecidableEq

def Ty.spell : Ty → String
  | .str => "string"
  | .word name => name
  | .func sig => sig
  | .struct name => name
  | .list u => u.spell ++ "[]"

/-- A type over the structs of the given names. There is no list of functions: its spelling is
that of a function that gives a list. -/
def Ty.Over (names : List String) : Ty → Prop
  | .str => True
  | .word name => name ≠ "string" ∧ name ∉ names ∧ stringEndsWith name "[]" = false
  | .func sig => stringStartsWith sig "func(" = true
  | .struct name => name ∈ names
  | .list u => u.Over names ∧ ∀ sig, u ≠ .func sig

/-- Structs of different names, each with 1 to 3 fields of types over them. -/
structure Table where
  names : List String
  fields : List (List Ty)
  length : fields.length = names.length
  nodup : names.Nodup
  /-- A struct's name is a name: no type of another kind is spelled so. -/
  plain : ∀ n ∈ names, n ≠ "string" ∧ stringEndsWith n "[]" = false ∧ stringStartsWith n "func(" = false
  few : ∀ fs ∈ fields, 1 ≤ fs.length ∧ fs.length ≤ 3
  fieldsOver : ∀ fs ∈ fields, ∀ t ∈ fs, t.Over names

/-- The fields of a struct. -/
def Table.fieldsOf (T : Table) (name : String) : List Ty := T.fields.getD (T.names.idxOf name) []

/-- The table as the compiler has it. -/
def Table.structs (T : Table) : Structs := ⟨T.names, T.fields.map fun fs => fs.map Ty.spell⟩

/-- Types with the types they hold. -/
def Table.graph (T : Table) : TreeGraph Ty (Option Label) where
  label
    | .str => some .str
    | .word _ => some .none
    | .func _ => some .none
    | .struct name => some (.struct (T.fieldsOf name).length)
    | .list _ => some .list
  child
    | .struct name, i => (T.fieldsOf name)[i]?
    | .list u, i => if i = 0 then some u else none
    | _, _ => none

/-- The same with only some of the list types taken for lists, the others for types that have
nothing to free. -/
def Table.graphBy (T : Table) (taken : Ty → Bool) : TreeGraph Ty (Option Label) where
  label
    | .list u => some (if taken (.list u) then .list else .none)
    | t => T.graph.label t
  child
    | .list u, i => if taken (.list u) then T.graph.child (.list u) i else none
    | t, i => T.graph.child t i

end IdCompiler.Desc

import IdCompiler.Core.Digits
import IdCompiler.Source.Find

/-!
# The descriptor of a type

`esc_desc`: the string that tells the runtime how a value of a type is freed.
The structs being described and where each began are two lists that all calls
share; what a call leaves of them is part of its result. A type is its spelling.
-/

namespace IdCompiler.Desc

open IdCompiler.Core IdCompiler.Source

/-- `string_ends_with` -/
def stringEndsWith (t suffix : String) : Bool := suffix.toList.isSuffixOf t.toList

/-- `string_starts_with` -/
def stringStartsWith (t start : String) : Bool := start.toList.isPrefixOf t.toList

/-- `is_list_ty` -/
def isListTy (t : String) : Bool := stringEndsWith t "[]" && !stringStartsWith t "func"

/-- `list_elem` -/
def listElem (t : String) : String := String.ofList (t.toList.take (t.toList.length - 2))

/-- A number in a string. -/
def natText (n : Nat) : List Char := (natDigits n).map Nat.digitChar

/-- The structs of the program by name, each with the types of its fields. -/
structure Structs where
  sdname : List String
  sdftype : List (List String)

/-- `dz_sn` and `dz_sp`: the structs being described, outermost first, and where each began. -/
abbrev Stack := List String × List Nat

/-- `esc_dscb`: the back reference to a struct that is being described, else nothing. -/
def escDscb (t : String) (a : List Char) (st : Stack) : List Char :=
  if 0 ≤ findStr st.1 t then a ++ '@' :: natText (st.2.getD (findStr st.1 t).toNat 0) ++ [';'] else []

/-- `esc_dscf`: the fields, one after the other, each described by `dsc`. -/
def escDscf (dsc : String → List Char → Stack → Option (List Char × Stack)) :
    List String → List Char → Stack → Option (List Char × Stack)
  | [], a, st => some (a, st)
  | t :: ts, a, st => (dsc t a st).bind fun r => escDscf dsc ts r.1 r.2

/-- `esc_dscs`: a struct's node, with the struct on the stack while its fields are described. -/
def escDscs (structs : Structs) (dsc : String → List Char → Stack → Option (List Char × Stack))
    (t : String) (a : List Char) (st : Stack) : Option (List Char × Stack) :=
  let types := structs.sdftype.getD (findStr structs.sdname t).toNat []
  (escDscf dsc types (a ++ 'S' :: natText types.length) (st.1 ++ [t], st.2 ++ [a.length])).map
    fun r => (r.1, (r.2.1.dropLast, r.2.2.dropLast))

/-- `esc_dsct` -/
def escDsct (structs : Structs) (dsc : String → List Char → Stack → Option (List Char × Stack))
    (t : String) (a : List Char) (st : Stack) : Option (List Char × Stack) :=
  if escDscb t a st = [] then escDscs structs dsc t a st else some (escDscb t a st, st)

/-- `esc_dsct2`: a struct's node, or nothing to free. -/
def escDsct2 (structs : Structs) (dsc : String → List Char → Stack → Option (List Char × Stack))
    (t : String) (a : List Char) (st : Stack) : Option (List Char × Stack) :=
  if 0 ≤ findStr structs.sdname t then escDsct structs dsc t a st else some (a ++ ['.'], st)

/-- `esc_dsc`, with calls nested at most as deep as the given number. -/
def escDsc (structs : Structs) : Nat → String → List Char → Stack → Option (List Char × Stack)
  | 0, _, _, _ => none
  | fuel + 1, t, a, st =>
    (escDsct2 structs (escDsc structs fuel) t a st).bind fun r =>
      if t = "string" then some (a ++ ['s'], r.2)
      else if isListTy t then escDsc structs fuel (listElem t) (a ++ ['l']) r.2
      else some r

/-- `esc_desc` -/
def escDesc (structs : Structs) (fuel : Nat) (t : String) : Option (List Char) :=
  (escDsc structs fuel t [] ([], [])).map fun r => r.1

end IdCompiler.Desc

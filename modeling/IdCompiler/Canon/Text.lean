import IdCompiler.Canon.Fold
import IdCompiler.Core.Texts
import IdCompiler.Source.Find

/-!
# The fingerprint of a function

`unit_plain`: a function as a text in which each of its variables is the
position at which the walk first met it. Nodes are trees here, and the position
maps are the state of the walk.
-/

namespace IdCompiler.Canon

open IdCompiler.Core IdCompiler.Core.Writer IdCompiler.Source

/-! ## Functions -/

inductive Expr
  /-- The digits as written, the value, and 1 if it is too wide for an int. -/
  | int (spell : String) (value : BitVec 32) (wide : Nat)
  | float (spell : String)
  | str (spell : String)
  | var (name : String)
  | imp (name : String)
  | bin (op : String) (l r : Expr)
  | un (op : String) (e : Expr)
  | index (base key : Expr)
  | call (name : String) (args : List Expr)
  | arr (elems : List Expr)
  /-- The field of a field read. -/
  | fld (name : String)
  /-- A node of another kind, with its number. -/
  | other (kind : String) (id : Nat)

inductive Stmt
  | decl (type name : String) (exported : Bool) (value : Expr)
  | assign (name : String) (value : Expr)
  | iassign (base key value : Expr)
  | exprstmt (e : Expr)
  | cond (c : Expr) (thenl elsel : List Stmt) (elif : Bool)
  | loop (c : Expr) (body : List Stmt)
  /-- The seam between two segments. -/
  | chain
  | blank
  | brk
  | ret (value : Option Expr)
  | other (kind : String) (id : Nat)

structure Param where
  type : String
  name : String

/-- A function that is not native. -/
structure Func where
  name : String
  params : List Param
  type : String
  body : List Stmt
  /-- The expression of the return clause. -/
  ret : Option Expr

/-! ## Names -/

/-- What the walk reads and does not change: where the node of a function is or -1, `cloose`,
and `cself`. -/
structure Ctx where
  fnNodeOf : String → Int
  cloose : Bool
  cself : String

/-- The names met so far, variables and imports. -/
structure Pos where
  cnames : List String
  cimps : List String

/-- `cn` and `cn_add` -/
def cn (name : String) : Writer Pos := fun s =>
  if findStr s.cnames name < 0 then (toString s.cnames.length, { s with cnames := s.cnames ++ [name] })
  else (toString (findStr s.cnames name).toNat, s)

/-- What `canon_callee` makes of a name. -/
def calleeText (k : Ctx) (cnames : List String) (name : String) : String :=
  if 0 ≤ findStr cnames name then "v" ++ toString (findStr cnames name).toNat
  else if name = k.cself then "self"
  else name

/-- `canon_callee` -/
def canonCallee (k : Ctx) (name : String) : Writer Pos := fun s => (calleeText k s.cnames name, s)

/-- `canon_var` -/
def canonVar (k : Ctx) (name : String) : Writer Pos :=
  if 0 ≤ k.fnNodeOf name then text "fv(" ++ canonCallee k name ++ text ")" else text "v" ++ cn name

/-- `imp_pos` -/
def impPos (name : String) : Writer Pos := fun s =>
  if findStr s.cimps name < 0 then (toString s.cimps.length, { s with cimps := s.cimps ++ [name] })
  else (toString (findStr s.cimps name).toNat, s)

/-- `imp_fp` -/
def impFp (name : String) : Writer Pos := text "g(" ++ impPos name ++ text ")"

/-- `sep_at` -/
def sepAt (sep : String) (i : Nat) : String := if 0 < i then sep else ""

/-! ## Expressions -/

/-- `strip_zeros` -/
def stripZeros : List Char → List Char
  | '0' :: c :: rest => stripZeros (c :: rest)
  | s => s

/-- `lit_val` -/
def litVal (k : Ctx) (tag spell : String) : String := if k.cloose then tag else tag ++ spell

/-- `bin_op` -/
def binOp (op : String) : String := if op = "=" then "==" else op

/-- `lit_is` -/
def litIs : Expr → BitVec 32 → Bool
  | .int _ value _, v => value = v
  | _, _ => false

/-- The value of a literal that is not too wide for an int. -/
def narrow : Expr → Option (BitVec 32)
  | .int _ value wide => if wide = 0 then some value else none
  | _ => none

/-- `bin_fold2`, of two literals. -/
def binFold2 (op : String) (l r : Expr) : String :=
  match narrow l, narrow r with
  | some a, some b => foldOp op a b
  | _, _ => ""

/-- `ident_zero_sym`, with the walks of the operands. -/
def identZeroSym (op : String) (l r : Expr) (canonL canonR : Writer Pos) : Writer Pos := fun s =>
  let left := if (op = "+" ∨ op = "|" ∨ op = "^") ∧ litIs r 0 then canonL s else ("", s)
  if (op = "+" ∨ op = "|" ∨ op = "^") ∧ litIs l 0 then canonR left.2 else left

/-- `ident_zero_right` -/
def identZeroRight (op : String) (r : Expr) (canonL : Writer Pos) : Writer Pos :=
  if (op = "-" ∨ op = "<<" ∨ op = ">>") ∧ litIs r 0 then canonL else text ""

/-- `ident_one` -/
def identOne (op : String) (l r : Expr) (canonL canonR : Writer Pos) : Writer Pos := fun s =>
  let left := if (op = "*" ∨ op = "/") ∧ litIs r 1 then canonL s else ("", s)
  if op = "*" ∧ litIs l 1 then canonR left.2 else left

/-- The second walk if the first one writes nothing. -/
def ifEmpty (w v : Writer Pos) : Writer Pos := fun s => if (w s).1 = "" then v (w s).2 else w s

/-- `bin_identity` -/
def binIdentity (op : String) (l r : Expr) (canonL canonR : Writer Pos) : Writer Pos :=
  ifEmpty (ifEmpty (identZeroSym op l r canonL canonR) (identZeroRight op r canonL))
    (identOne op l r canonL canonR)

/-- `bin_simplify` -/
def binSimplify (k : Ctx) (op : String) (l r : Expr) (canonL canonR : Writer Pos) : Writer Pos :=
  if k.cloose then text "" else ifEmpty (text (binFold2 op l r)) (binIdentity op l r canonL canonR)

/-- `canon_pair` -/
def canonPair (canonL canonR : Writer Pos) : Writer Pos :=
  text "(" ++ canonL ++ text "," ++ canonR ++ text ")"

/-- `canon_bin` -/
def canonBin (k : Ctx) (op : String) (l r : Expr) (canonL canonR : Writer Pos) : Writer Pos :=
  ifEmpty (binSimplify k (binOp op) l r canonL canonR) (text ("b" ++ binOp op) ++ canonPair canonL canonR)

/-- Whether `call_fp` drops the call of a shift: `ushr(x, 0)` is `x`. -/
def dropsCall (name : String) : List Expr → Bool
  | [_, y] => name = "ushr" && litIs y 0
  | _ => false

mutual
/-- `canon_expr`, with the links of its chain. -/
def canonExpr (k : Ctx) : Expr → Writer Pos
  | .int spell _ _ => text (litVal k "I" (String.ofList (stripZeros spell.toList)))
  | .float spell => text (litVal k "F" spell)
  | .fld name => text ("f." ++ name)
  | .str spell => text (litVal k "S" spell)
  | .var name => canonVar k name
  | .imp name => impFp name
  | .bin op l r => canonBin k op l r (canonExpr k l) (canonExpr k r)
  | .un op e => text ("u" ++ op ++ "(") ++ canonExpr k e ++ text ")"
  | .index base key => text "ix" ++ canonPair (canonExpr k base) (canonExpr k key)
  -- `call_fp`: where the call is dropped, its operand is walked once more
  | .call name args =>
    if dropsCall name args then dropThen (canonArgs k 0 args) (canonHead k args)
    else text "c(" ++ canonCallee k name ++ text ":" ++ canonArgs k 0 args ++ text ")"
  | .arr elems => text "ar(" ++ canonArgs k 0 elems ++ text ")"
  | .other kind id => text ("?" ++ kind ++ "#" ++ toString id)
/-- `canon_args`, from the `i`th argument on. -/
def canonArgs (k : Ctx) (i : Nat) : List Expr → Writer Pos
  | [] => text ""
  | e :: es => text (sepAt "," i) ++ canonExpr k e ++ canonArgs k (i + 1) es
/-- The first argument. -/
def canonHead (k : Ctx) : List Expr → Writer Pos
  | [] => text ""
  | e :: _ => canonExpr k e
end

/-! ## Statements -/

/-- `canon_ret` -/
def canonRet (k : Ctx) : Option Expr → Writer Pos
  | none => text "void"
  | some e => canonExpr k e

/-- `decl_name` -/
def declName (name : String) (exported : Bool) : Writer Pos := if exported then text name else cn name

/-- `canon_else3`, with the walk of the statements. -/
def canonElse3 (body : Writer Pos) : List Stmt → Writer Pos
  | [] => text ""
  | _ :: _ => text "else\x7b" ++ body ++ text "\x7d"

mutual
/-- `canon_stmt`, with the links of its chain. -/
def canonStmt (k : Ctx) : Stmt → Writer Pos
  | .decl type name exported value =>
    text ((if exported then "ed:" else "d:") ++ type ++ " ") ++ declName name exported ++ text "=" ++
      canonExpr k value
  | .assign name value => text "a:" ++ cn name ++ text "=" ++ canonExpr k value
  | .iassign base key value =>
    text "ia:" ++ canonExpr k base ++ text "[" ++ canonExpr k key ++ text "]=" ++ canonExpr k value
  | .exprstmt e => text "e:" ++ canonExpr k e
  | .cond c thenl elsel elif =>
    text "if(" ++ canonExpr k c ++ text ")\x7b" ++ canonJoin k 0 thenl ++ text "\x7d" ++
      if elif then canonElif k elsel else canonElse3 (canonJoin k 0 elsel) elsel
  | .loop c body => text "wh(" ++ canonExpr k c ++ text ")\x7b" ++ canonJoin k 0 body ++ text "\x7d"
  | .chain => text "|"
  | .blank => text ""
  | .brk => text "brk"
  | .ret value => text "ret(" ++ canonRet k value ++ text ")"
  | .other kind id => text ("?" ++ kind ++ "#" ++ toString id)
/-- `canon_body`, from the `i`th statement on that is not blank: `blank_drop` drops those that
are, and `canon_join` puts a separator before each of the rest but the first. -/
def canonJoin (k : Ctx) (i : Nat) : List Stmt → Writer Pos
  | [] => text ""
  | .blank :: rest => canonJoin k i rest
  | stmt :: rest => text (sepAt ";" i) ++ canonStmt k stmt ++ canonJoin k (i + 1) rest
/-- `canon_else2` of an `else if`. -/
def canonElif (k : Ctx) : List Stmt → Writer Pos
  | [] => text "elif"
  | stmt :: _ => text "elif" ++ canonStmt k stmt
end

/-! ## Units -/

/-- `canon_params`, from the `i`th parameter on. -/
def canonParams (i : Nat) : List Param → Writer Pos
  | [] => text ""
  | p :: ps => text (sepAt "," i ++ p.type ++ " ") ++ cn p.name ++ canonParams (i + 1) ps

/-- `unit_sig2` -/
def unitSig2 (k : Ctx) (f : Func) : Writer Pos :=
  text "(" ++ canonParams 0 f.params ++ text (")->" ++ f.type ++ "=>") ++ canonRet k f.ret

/-- `seg_text`, with the signature, which is written before. -/
def segText (k : Ctx) (f : Func) : Writer Pos :=
  unitSig2 k f ++ text "\x7b" ++ canonJoin k 0 f.body ++ text "\x7d"

/-- `unit_plain`, in a program that has its functions where `fnNodeOf` says. -/
def unitPlain (fnNodeOf : String → Int) (cloose : Bool) (f : Func) : String :=
  let unit := segText ⟨fnNodeOf, cloose, f.name⟩ f ⟨[], []⟩
  String.intercalate "," unit.2.cimps ++ "|" ++ unit.1

end IdCompiler.Canon

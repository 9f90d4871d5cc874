import IdCompiler.Source.Find

/-!
# The walk that resolves names

For every name a function mentions, whether the function can see it. The names visible at
the point the walk has reached are one list: declarations add to it, and the end of a block
cuts it back.
-/

namespace IdCompiler.Names

open IdCompiler.Source

/-! ## Functions -/

mutual
/-- An expression, as far as the walk tells it apart. -/
inductive Expr
  | var (name : String)
  | imp (name : String)
  /-- `bin` and `index`. -/
  | pair (l r : Expr)
  | un (e : Expr)
  | call (name : String) (args : Args)
  /-- Literals, with the elements of an array. -/
  | other (args : Args)
inductive Args
  | nil
  | cons (e : Expr) (rest : Args)
end

/-- A statement, with the line it began on. -/
inductive Stmt
  | cond (line : Nat) (c : Expr) (l1 l2 : List Stmt)
  | loop (line : Nat) (c : Expr) (l1 : List Stmt)
  | assign (line : Nat) (name : String) (value : Expr)
  | iassign (line : Nat) (base ix : Expr) (value : Args)
  | decl (line : Nat) (name : String) (value : Option Expr)
  /-- An expression, `break` or an early `return`. -/
  | other (line : Nat) (value : Option Expr)

/-- A function; its return clause has a line of its own, and may be none. -/
structure Func where
  name : String
  params : List String
  body : List Stmt
  ret : Option (Nat × Expr)

/-! ## The registry -/

/-- What was gathered of the program before. -/
structure Tables where
  fnames : List String
  /-- The names declared, each with its function. -/
  rows : List (String × String)
  enames : List String
  bnames : List String
  sdname : List String
  fnNodeOf : String → Int
  builtinType : String → String
  /-- Whether a name has a function type in the unit of a function. -/
  isFcall : String → String → Bool

namespace Tables

variable (t : Tables) (name owner : String)

def dvname : List String := t.rows.map Prod.fst

/-- `declared_in`: the number of rows. -/
def declaredIn : Nat := t.rows.count (name, owner)

def isBuiltin : Bool := 0 ≤ findStr t.bnames name

def isUnknownFn : Bool :=
  findStr t.fnames name < 0 && t.builtinType name == "?" && name != "push" && name != "pop" &&
    name != "put" && name != "flush" && name != "getkey" && name != "sleep_ms" && name != "ticks"

def isCallVar : Bool := t.isUnknownFn name && 0 ≤ findStr t.dvname name

def unresolvedFn : Bool :=
  findStr t.fnames name < 0 && !t.isBuiltin name && findStr t.dvname name < 0 &&
    findStr t.sdname name < 0

end Tables

/-! ## Reports -/

/-- The reports, by the function that makes them. -/
inductive Kind
  /-- E0301, `report_undef_var`. -/
  | undefVar
  /-- E0305, of an exported variable and of one that is not. -/
  | varImport
  | varPrivate
  /-- E0307, `report_scope`. -/
  | scope
  | builtinValue
  /-- E0306, of `acc_call_var`. -/
  | callVar
  | noExport
  | notExported
  /-- E0304, `report_nosuchfn`. -/
  | noSuchFn
  deriving DecidableEq

structure Report where
  kind : Kind
  name : String
  owner : String
  line : Nat
  deriving DecidableEq

/-- The state of the walk. -/
structure Walk where
  scnames : List String
  reports : List Report
  /-- The names looked up so far, each with the names visible then. -/
  looked : List (String × List String)

def Walk.report (w : Walk) (kind : Kind) (name owner : String) (line : Nat) : Walk :=
  { w with reports := w.reports ++ [⟨kind, name, owner, line⟩] }

/-! ## Names -/

def reportBadVar (t : Tables) (name owner : String) (ln : Nat) (w : Walk) : Walk :=
  if findStr t.dvname name < 0 then w.report .undefVar name owner ln
  else if 0 ≤ findStr t.enames name then w.report .varImport name owner ln
  else w.report .varPrivate name owner ln

def accName (t : Tables) (name owner : String) (ln : Nat) (w : Walk) : Walk :=
  let w := { w with looked := w.looked ++ [(name, w.scnames)] }
  if t.declaredIn name owner = 0 then reportBadVar t name owner ln w
  else if findStr w.scnames name < 0 then w.report .scope name owner ln
  else w

def reportBadImport (t : Tables) (name owner : String) (ln : Nat) (w : Walk) : Walk :=
  if findStr t.dvname name < 0 then w.report .noExport name owner ln
  else w.report .notExported name owner ln

def accImport (t : Tables) (name owner : String) (ln : Nat) (w : Walk) : Walk :=
  if findStr t.enames name < 0 then reportBadImport t name owner ln w else w

def accVar (t : Tables) (name owner : String) (ln : Nat) (w : Walk) : Walk :=
  if t.fnNodeOf name < 0 ∧ t.declaredIn name owner = 0 ∧ t.isBuiltin name then
    w.report .builtinValue name owner ln
  else if t.fnNodeOf name < 0 then accName t name owner ln w
  else w

def accCallVar (t : Tables) (name owner : String) (ln : Nat) (w : Walk) : Walk :=
  if t.isFcall name owner then accName t name owner ln w else w.report .callVar name owner ln

/-! ## Expressions -/

mutual
/-- `acc_expr`; a call's name is judged after its arguments. -/
def accExpr (t : Tables) (owner : String) (ln : Nat) : Expr → Walk → Walk
  | .var name, w => accVar t name owner ln w
  | .imp name, w => accImport t name owner ln w
  | .pair l r, w => accExpr t owner ln r (accExpr t owner ln l w)
  | .un e, w => accExpr t owner ln e w
  | .call name args, w =>
    let w := accElems t owner ln args w
    let w := if t.isCallVar name then accCallVar t name owner ln w else w
    if t.unresolvedFn name then w.report .noSuchFn name owner ln else w
  | .other args, w => accElems t owner ln args w
/-- `acc_elems`. -/
def accElems (t : Tables) (owner : String) (ln : Nat) : Args → Walk → Walk
  | .nil, w => w
  | .cons e rest, w => accElems t owner ln rest (accExpr t owner ln e w)
end

def accOpt (t : Tables) (owner : String) (ln : Nat) : Option Expr → Walk → Walk
  | none, w => w
  | some e, w => accExpr t owner ln e w

/-! ## Statements -/

/-- `pop` until no more than `keep` names are left, with a round for each name there is. -/
def popTo (keep : Nat) : Nat → List String → List String
  | 0, l => l
  | k + 1, l => if keep < l.length then popTo keep k l.dropLast else l

/-- The cut at the end of a block. -/
def Walk.cut (w : Walk) (keep : Nat) : Walk :=
  { w with scnames := popTo keep w.scnames.length w.scnames }

/-- `scope_add`, of a declaration. -/
def scopeAdd (name : String) (w : Walk) : Walk := { w with scnames := w.scnames ++ [name] }

mutual
def accStmt (t : Tables) (owner : String) : Stmt → Walk → Walk
  | .cond line c l1 l2, w =>
    let w := accExpr t owner line c w
    let w := (accList t owner l1 w).cut w.scnames.length
    (accList t owner l2 w).cut w.scnames.length
  | .loop line c l1, w =>
    let w := accExpr t owner line c w
    (accList t owner l1 w).cut w.scnames.length
  | .assign line name value, w => accExpr t owner line value (accName t name owner line w)
  | .iassign line base ix value, w =>
    accElems t owner line value (accExpr t owner line ix (accExpr t owner line base w))
  | .decl line name value, w => scopeAdd name (accOpt t owner line value w)
  | .other line value, w => accOpt t owner line value w
def accList (t : Tables) (owner : String) : List Stmt → Walk → Walk
  | [], w => w
  | st :: rest, w => accList t owner rest (accStmt t owner st w)
end

/-- `acc_block`, as `acc_if_body` and `acc_while_body` call it. -/
def accBlock (t : Tables) (owner : String) (stmts : List Stmt) (w : Walk) : Walk :=
  (accList t owner stmts w).cut w.scnames.length

/-! ## Functions -/

/-- `scope_func`: nothing but the parameters. -/
def scopeFunc (f : Func) (w : Walk) : Walk :=
  { w with scnames := popTo 0 w.scnames.length w.scnames ++ f.params }

/-- `acc_func_body`. -/
def accFuncBody (t : Tables) (f : Func) (w : Walk) : Walk :=
  let w := accList t f.name f.body (scopeFunc f w)
  match f.ret with
  | none => w
  | some (line, e) => accExpr t f.name line e w

def accFuncs (t : Tables) : List Func → Walk → Walk
  | [], w => w
  | f :: fs, w => accFuncs t fs (accFuncBody t f w)

/-- `check_access`. -/
def checkAccess (t : Tables) (prog : List Func) : Walk := accFuncs t prog ⟨[], [], []⟩

end IdCompiler.Names

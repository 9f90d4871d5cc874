import IdCompiler.Fast.Guard

/-!
# Planning a loop

The bounds a loop's condition guarantees, what its body writes and when, the
accesses the guard can cover by the simple shapes `j` and `j + k` and by sums of
terms, and the tests that make the whole loop one that can be versioned.
-/

namespace IdCompiler.Fast

/-! ## The condition -/

/-- What the counter may be compared with. -/
def lpLimit : Expr → Bool
  | .var .. => true
  | .int .. => true
  | e => (lpLenarg e).isSome

/-- The bounds `counter < limit` of a condition, and whether it holds anything else. -/
def lpCond : Expr → List (String × Expr) × Bool
  | .bin _ .and l r =>
    let a := lpCond l
    let b := lpCond r
    (a.1 ++ b.1, a.2 || b.2)
  | .bin _ .lt (.var _ j) r => if lpLimit r then ([(j, r)], false) else ([], true)
  | _ => ([], true)

/-- The limit of a counter: the last one the condition gives. -/
def boundOf (bounds : List (String × Expr)) (j : String) : Option Expr :=
  (bounds.reverse.find? fun b => b.1 = j).map Prod.snd

/-- The variable whose value a limit is read from. -/
def lpLname : Expr → Option String
  | .var _ x => some x
  | e => match lpLenarg e with
    | some (.var _ x) => some x
    | _ => none

/-! ## Writes -/

/-- The name a node writes. -/
def lpWname : Node → Option String
  | .stmt (.assign _ x _) => some x
  | .stmt (.decl _ _ _ x _) => some x
  | _ => none

/-- The plain literal 1. -/
def lpOne : Expr → Bool
  | .int _ v w => litNum v false = 1 && !w
  | _ => false

/-- Whether a node is a step, `name = name + 1`. -/
def lpIsinc : Node → Bool
  | .stmt (.assign _ x (.bin _ .add (.var _ y) e)) => x = y && lpOne e
  | _ => false

/-- The writes to a name. -/
def lpCnt (ns : List Node) (x : String) : Nat :=
  ns.countP fun nd => lpWname nd = some x

/-- The writes to a name that are not steps. -/
def lpCntOther (ns : List Node) (x : String) : Nat :=
  ns.countP fun nd => lpWname nd = some x && !lpIsinc nd

/-- The first write to a name in the order of the numbers. -/
def lpFirst (ns : List Node) (x : String) : Option Node :=
  ns.find? fun nd => lpWname nd = some x

/-- A limit the body does not write. -/
def lpLim (ns : List Node) (lim : Expr) : Bool :=
  match lpLname lim with
  | some x => lpCnt ns x = 0
  | none => true

/-- A node numbered below the first write to a name. -/
def beforeFirst (ns : List Node) (id : Nat) (x : String) : Bool :=
  match lpFirst ns x with
  | some nd => id < nd.id
  | none => true

/-- A counter that is only stepped, after the node `id`. -/
def lpSteps (ns : List Node) (id : Nat) (j : String) : Bool :=
  lpCntOther ns j = 0 && beforeFirst ns id j

/-! ## Calls -/

/-- The builtins' names. -/
def bnames : List String :=
  ["print", "input", "read_all", "len", "push", "pop", "to_int", "character_code_at", "chr", "put",
   "flush", "getkey", "sleep_ms", "ticks", "alloc", "store_size", "peek8", "peek16", "peek32",
   "peek64", "poke8", "poke16", "poke32", "poke64", "udiv", "umod", "ult", "ushr", "rotl",
   "umul_hi", "uword_of_int", "add_checked", "sub_checked", "mul_checked", "str_of_mem",
   "mem_of_str", "eprint", "peek8s", "peek16s", "peek32s", "peek8u", "peek16u", "peek32u",
   "bits_of_float", "float_of_bits", "bits32_of_float", "float_of_bits32", "fail", "bind",
   "str_sub", "bytes_new", "bytes_sub", "bytes_append", "string_of_bytes", "bytes_of_string",
   "bytes_of_memory", "memory_of_bytes"]

/-- A name this pass knows not to change a list's length answers false. -/
def lpKnown (p : Prog) (f : String) : Bool :=
  !(f ≠ "push" && f ≠ "pop" && f ≠ "bytes_append" && (f ∈ bnames || f ∈ p.structs))

/-- A call a leaf may not make. -/
def lpCallbad (bad : String → Bool) : Node → Bool
  | .expr (.call _ f _) => bad f
  | _ => false

def lpSmall (f : Func) : Bool := f.span < 64

/-- Anything but a small function whose calls are all known. -/
def lpUnleaf (p : Prog) (f : Func) : Bool :=
  if f.present && !f.native then
    if lpSmall f then f.nodes.any (lpCallbad (lpKnown p)) else true
  else true

/-- Whether a call can change a list's length, or is to a callee this pass cannot see into. -/
def lpCls (p : Prog) (f : String) : Bool :=
  match p.fn f with
  | some fn => lpUnleaf p fn
  | none => lpKnown p f

/-- A node that leaves every list's length alone. -/
def lpClear (p : Prog) : Node → Bool
  | .stmt (.loop ..) => false
  | .expr (.call _ f _) => !lpCls p f
  | _ => true

def lpClean (p : Prog) (ns : List Node) : Bool := ns.all (lpClear p)

/-- Whether any node is a call to a function of the program. -/
def lpUany (p : Prog) (ns : List Node) : Bool :=
  ns.any (lpCallbad fun f => (p.fn f).isSome)

/-- A function whose every call is to a leaf or a builtin. -/
def lpFnok (p : Prog) : Bool :=
  match p.fn p.self with
  | some f => !f.nodes.any (lpCallbad (lpCls p))
  | none => false

/-! ## Accesses -/

/-- A read or a write of one cell of a sequence. -/
structure Access where
  id : Nat
  base : Expr
  ix : Expr
  /-- `base[ix] = …`. -/
  store : Bool
  /-- `character_code_at(base, ix)`. -/
  text : Bool

/-- The access a node makes. -/
def Node.access : Node → Option Access
  | .expr (.index id b i) => some ⟨id, b, i, false, false⟩
  | .stmt (.iassign id _ b i _) => some ⟨id, b, i, true, false⟩
  | .expr (.call id "character_code_at" args) =>
    args.two.map fun a => ⟨id, a.1, a.2, false, true⟩
  | _ => none

/-- What planning reads of a loop. -/
structure Ctx where
  prog : Prog
  ns : List Node
  /-- The statements of a round, `nl1`. -/
  stmts : List Stmt
  bounds : List (String × Expr)

def Loop.ctx (p : Prog) (w : Loop) : Ctx := ⟨p, w.nodes, w.stmts, (lpCond w.cond).1⟩

/-- A plain non-negative literal. -/
def lpLit : Expr → Bool
  | .int _ v w => !w && 0 ≤ litNum v false
  | _ => false

/-- The variable of an index `j` or `j + k`, and `k`. -/
def lpIx : Expr → Option (String × Int)
  | .var _ j => some (j, 0)
  | .bin _ .add (.var _ j) (.int _ v w) => if lpLit (.int 0 v w) then some (j, litNum v false) else none
  | _ => none

/-- Whether an access by `j + k` is in range for every iteration, given the guard. -/
def lpOk (c : Ctx) (a : Access) (j : String) (lim : Expr) : Bool :=
  match a.base with
  | .var _ xs => lpLim c.ns lim && lpCnt c.ns xs = 0 && lpSteps c.ns a.id j
  | _ => false

/-- What the analysis has collected. -/
structure Planned where
  lpset : List Nat
  guard : Guard

def Planned.empty : Planned := ⟨[], .empty⟩

/-- Recording an access `j + k`: its node, and the clauses of the guard it needs. -/
def lpTake (c : Ctx) (a : Access) (j : String) (k : Int) (lim : Expr) (q : Planned) : Planned :=
  let g := lpNul lim (lpRel a.base .null .ne q.guard)
  let g := lpAdd (lpNtok c.prog lim ++ lpFit c.prog a.base k) g
  let g := lpRel (.var 0 j) (.const 0) .ge g
  ⟨q.lpset ++ [a.id], if a.store then lpCapok a.base g else g⟩

/-! ## Sums of terms -/

/-- What a leaf of an index is. -/
inductive Kind
  /-- `0`: nothing the guard can bound. -/
  | none
  /-- `1`: a literal. -/
  | lit
  /-- `2`: a name nothing in the body writes. -/
  | inv
  /-- `3`: a counter of the condition. -/
  | ctr
  /-- `4`: a second counter. -/
  | sec
  /-- `5`: a local the body sets once. -/
  | loc
  deriving DecidableEq, Repr

mutual
/-- A statement that makes a step on every path. -/
def lxPstmt (bounds : List (String × Expr)) : Stmt → Bool
  | .assign id x rhs => lpIsinc (.stmt (.assign id x rhs)) && (boundOf bounds x).isSome
  | .cond _ _ thn els => lxProg bounds thn && lxProg bounds els
  | _ => false
/-- Statements that make a step on every path. -/
def lxProg (bounds : List (String × Expr)) : List Stmt → Bool
  | [] => false
  | s :: rest => lxPstmt bounds s || lxProg bounds rest
end

/-- A counter of the condition stepped once, below a limit that is not written. -/
def lxPone (c : Ctx) (j : String) (lim : Expr) : Bool :=
  lpLim c.ns lim && lpCntOther c.ns j = 0 && lpCnt c.ns j = 1

/-- All counters are stepped once and no iteration can finish without a step. -/
def lxPsec (c : Ctx) : Bool :=
  c.bounds.all (fun b => lxPone c b.1 b.2) && lxProg c.bounds c.stmts

/-- A second counter: stepped once, after the access. -/
def lxSec (c : Ctx) (id : Nat) (f : Node) : Bool :=
  id < f.id && lpIsinc f && lxPsec c

/-- A local: an int declared once at the top of the body, before the access. -/
def lxDec (c : Ctx) (id : Nat) : Node → Bool
  | .stmt (.decl fid ty exported _ _) =>
    fid < id && ty = .int && !exported && c.stmts.any fun s => s.id = fid
  | _ => false

/-- A name written once. -/
def lxOne (c : Ctx) (id : Nat) (x : String) : Kind :=
  match lpFirst c.ns x with
  | some (.stmt (.assign fid y rhs)) =>
    if lxSec c id (.stmt (.assign fid y rhs)) then .sec else .none
  | some (.stmt (.decl fid ty ex y rhs)) =>
    if lxDec c id (.stmt (.decl fid ty ex y rhs)) then .loc else .none
  | _ => .none

/-- A name that is no counter of the condition. -/
def lxWr (c : Ctx) (id : Nat) (dp : Nat) (x : String) : Kind :=
  if lpCnt c.ns x = 0 then .inv
  else if lpCnt c.ns x = 1 && dp = 0 then lxOne c id x
  else .none

/-- What a leaf of an index is for the access numbered `id`; `dp` is 1 inside a definition. -/
def lxKind (c : Ctx) (id : Nat) (dp : Nat) : Expr → Kind
  | .int i v w => if lpLit (.int i v w) then .lit else .none
  | .imp _ x =>
    if !c.prog.harness && !lpUany c.prog c.ns && lpCnt c.ns x = 0 then .inv else .none
  | .var _ x =>
    match boundOf c.bounds x with
    | some lim => if lpLim c.ns lim && lpSteps c.ns id x then .ctr else .none
    | none => lxWr c id dp x
  | _ => .none

def lxPlain : Kind → Bool
  | .lit => true
  | .inv => true
  | .ctr => true
  | _ => false

/-- The definition a local is read through. -/
def lxDef (c : Ctx) : Expr → Option Expr
  | .var _ x =>
    match lpFirst c.ns x with
    | some (.stmt (.decl _ _ _ _ rhs)) => some rhs
    | _ => none
  | _ => none

/-- The products among the terms of an index, if it is a sum of terms the guard can bound:
`leaf` answers for a term. -/
def lxOkBy (kind : Expr → Kind) (leaf : Expr → Option Nat) : Expr → Option Nat
  | .bin _ .add l r =>
    match lxOkBy kind leaf l, lxOkBy kind leaf r with
    | some a, some b => some (a + b)
    | _, _ => none
  | .bin _ .mul l r => if lxPlain (kind l) && lxPlain (kind r) then some 1 else none
  | e => leaf e

/-- A term inside a definition. -/
def lxLeafDef (c : Ctx) (id : Nat) (e : Expr) : Option Nat :=
  match lxKind c id 1 e with
  | .none => none
  | .loc => none
  | _ => some 0

/-- The products of a definition. -/
def lxOkDef (c : Ctx) (id : Nat) : Expr → Option Nat :=
  lxOkBy (lxKind c id 1) (lxLeafDef c id)

/-- A term of an index: a local is read through its definition. -/
def lxLeaf (c : Ctx) (id : Nat) (e : Expr) : Option Nat :=
  match lxKind c id 0 e with
  | .none => none
  | .loc => (lxDef c e).bind (lxOkDef c id)
  | _ => some 0

/-- The products of an index. -/
def lxOk (c : Ctx) (id : Nat) : Expr → Option Nat :=
  lxOkBy (lxKind c id 0) (lxLeaf c id)

/-- Whether an access has an index the guard can bound, with one product at most. -/
def lxCover (c : Ctx) (a : Access) : Bool :=
  match a.base with
  | .var _ xs =>
    lpCnt c.ns xs = 0 &&
      match lxOk c a.id a.ix with
      | some n => n ≤ 1
      | none => false
  | _ => false

/-- A term that is read where it stands is not negative. -/
def lxHcl (k : Kind) (e : Expr) (g : Guard) : Guard :=
  match k with
  | .inv => lpRel e (.const 0) .ge g
  | .ctr => lpRel e (.const 0) .ge g
  | .sec => lpRel e (.const 0) .ge g
  | _ => g

/-- A counter's largest value: its limit less one. -/
def lxHctr (c : Ctx) (e : Expr) (g : Guard) : List Tok × Guard :=
  match e with
  | .var _ j =>
    match boundOf c.bounds j with
    | some lim => (lpNtok c.prog lim ++ [.wide, .const 1, .nary .sub 2], lpNul lim g)
    | none => ([], g)
  | _ => ([], g)

/-- The room each counter of the condition has left. -/
def lxHlim (c : Ctx) : List (String × Expr) → Guard → List Tok × Guard
  | [], g => ([], g)
  | (j, lim) :: rest, g =>
    let r := lxHlim c rest (lpNul lim g)
    (lpNtok c.prog lim ++ [.wide, .name j, .wide, .const 1, .nary .sub 3] ++ r.1, r.2)

/-- A second counter's largest value: its own and the room of every counter. -/
def lxHsec (c : Ctx) (e : Expr) (g : Guard) : List Tok × Guard :=
  let r := lxHlim c c.bounds g
  ([lpLeaf e, .wide] ++ r.1 ++ [.nary .add (c.bounds.length + 1)], r.2)

/-- The operator of a sum or a product as a token of two operands. -/
def lxHop : BinOp → List Tok
  | .add => [.nary .add 2]
  | .mul => [.nary .mul 2]
  | _ => []

/-- The largest value of an index: `leaf` answers for a term. -/
def lxHiBy (leaf : Expr → Guard → List Tok × Guard) : Expr → Guard → List Tok × Guard
  | .bin _ op l r, g =>
    let a := lxHiBy leaf l g
    let b := lxHiBy leaf r a.2
    (a.1 ++ b.1 ++ lxHop op, b.2)
  | e, g => leaf e g

/-- The largest value of a term inside a definition. -/
def lxHleafDef (c : Ctx) (id : Nat) (e : Expr) (g : Guard) : List Tok × Guard :=
  let k := lxKind c id 1 e
  let g := lxHcl k e g
  match k with
  | .ctr => lxHctr c e g
  | .sec => lxHsec c e g
  | .loc => ([], g)
  | _ => ([lpLeaf e, .wide], g)

/-- The largest value of a term. -/
def lxHleaf (c : Ctx) (id : Nat) (e : Expr) (g : Guard) : List Tok × Guard :=
  let k := lxKind c id 0 e
  let g := lxHcl k e g
  match k with
  | .ctr => lxHctr c e g
  | .sec => lxHsec c e g
  | .loc =>
    match lxDef c e with
    | some d => lxHiBy (lxHleafDef c id) d g
    | none => ([], g)
  | _ => ([lpLeaf e, .wide], g)

def lxHi (c : Ctx) (id : Nat) : Expr → Guard → List Tok × Guard :=
  lxHiBy (lxHleaf c id)

/-- Recording an access whose index is a sum of terms. -/
def lxTake (c : Ctx) (a : Access) (q : Planned) : Planned :=
  let h := lxHi c a.id a.ix (lpRel a.base .null .ne q.guard)
  let g := lpAdd (h.1 ++ lpLenw c.prog a.base ++ [.cmp .lt]) h.2
  ⟨q.lpset ++ [a.id], if a.store then lpCapok a.base g else g⟩

/-! ## The plan -/

/-- The access is covered by the shape `j + k`. -/
def lpSimple (c : Ctx) (a : Access) : Option (String × Int × Expr) :=
  match lpIx a.ix with
  | some (j, k) =>
    match boundOf c.bounds j with
    | some lim => if lpOk c a j lim then some (j, k, lim) else none
    | none => none
  | none => none

/-- One access of the body: by the simple shape, else, when it is no read of a string, by the
sum of its terms. -/
def lpAcc (c : Ctx) (a : Access) (q : Planned) : Planned :=
  match lpSimple c a with
  | some (j, k, lim) => lpTake c a j k lim q
  | none => if !a.text && lxCover c a then lxTake c a q else q

def lpNode (c : Ctx) (nd : Node) (q : Planned) : Planned :=
  match nd.access with
  | some a => lpAcc c a q
  | none => q

def lpScan (c : Ctx) : Planned :=
  c.ns.foldl (fun q nd => lpNode c nd q) .empty

/-- The plan of a loop; a loop whose body is not clean, whose calls may not be made twice, or
whose condition holds more than bounds, covers nothing. -/
def lpPlan (p : Prog) (w : Loop) : Planned :=
  if lpClean p w.nodes && (!lpUany p w.nodes || lpFnok p) && !(lpCond w.cond).2 then
    lpScan (w.ctx p)
  else .empty

end IdCompiler.Fast

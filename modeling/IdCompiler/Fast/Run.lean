import IdCompiler.Core.Behave
import IdCompiler.Fast.Plan
import IdCompiler.Fast.Value

/-!
# Running a loop

What a loop may do, access by access. Values the analysis does not depend on
(what a cell holds, what a builtin answers) are any; a run may be cut anywhere,
which is how a trap and a loop without end show.
-/

namespace IdCompiler.Fast

open IdCompiler.Core Behave

/-- An access: the node that made it, its sequence and index, and the headers at that moment. -/
structure Event where
  id : Nat
  base : Val
  ix : Val
  heap : Heap

/-- How a statement ends. -/
inductive Out
  | norm
  | brk
  | ret
  deriving DecidableEq

/-- What the runtime's builtins do to the headers. -/
structure Runtime where
  eff : String → Heap → Heap → Prop
  /-- Only these three change a list or a buffer that exists. -/
  keeps : ∀ f h h', f ∈ bnames → f ≠ "push" → f ≠ "pop" → f ≠ "bytes_append" → eff f h h' →
    h.Ext h'

/-- What a call may do to the state of the function that makes it. A function of the program
does, in any order and as often as it likes, what its nodes do. -/
inductive Effect (p : Prog) (rt : Runtime) : String → State → State → Prop
  | builtin {f s h} : p.fn f = none → f ∈ bnames → rt.eff f s.heap h →
      Effect p rt f s { s with heap := h }
  | construct {f s h} : p.fn f = none → f ∉ bnames → f ∈ p.structs → s.heap.Ext h →
      Effect p rt f s { s with heap := h }
  /-- A call through a function value. -/
  | value {f s s'} : p.fn f = none → f ∉ bnames → f ∉ p.structs → Effect p rt f s s'
  /-- A function whose body is not here. -/
  | unseen {f fn s s'} : p.fn f = some fn → fn.native = true ∨ fn.present = false →
      Effect p rt f s s'
  | done {f fn s} : p.fn f = some fn → Effect p rt f s s
  | inner {f fn g s t u id args} : p.fn f = some fn → Node.expr (.call id g args) ∈ fn.nodes →
      Effect p rt g s t → Effect p rt f t u → Effect p rt f s u
  | exported {f fn s u x v} : p.fn f = some fn → fn.exports x →
      Effect p rt f { s with vals := Function.update s.vals x v } u → Effect p rt f s u
  | alloc {f fn s u h} : p.fn f = some fn → s.heap.Ext h →
      Effect p rt f { s with heap := h } u → Effect p rt f s u

/-- The value of a literal. -/
def litVal (v : Int) (isWide : Bool) : Val :=
  if isWide then .word (BitVec.ofInt 64 v) else .int (BitVec.ofInt 32 v)

/-- Any value. -/
def anyVal : Behave State Event Val := any fun v => ret v

/-- New headers may appear. -/
def allocate : Behave State Event Unit :=
  rel fun s s' _ => s'.vals = s.vals ∧ s.heap.Ext s'.heap

/-- The value of an operator whose operands have been evaluated. -/
def evalBin : BinOp → Val → Val → Behave State Event Val
  | .add, a, b => ret (a.arith (· + ·) b)
  | .mul, a, b => ret (a.arith (· * ·) b)
  | .lt, a, b =>
    match a.num, b.num with
    | some m, some n => ret (.ofBool (m < n))
    | _, _ => anyVal
  | .and, _, b =>
    match b.truth with
    | some t => ret (.ofBool t)
    | none => anyVal
  | .other _, _, _ => anyVal

/-- A call whose arguments have been evaluated. -/
def evalCall (p : Prog) (rt : Runtime) (id : Nat) (f : String) (vs : List Val) :
    Behave State Event Val :=
  match f, vs with
  | "character_code_at", [s, i] => bind (emit fun t => ⟨id, s, i, t.heap⟩) fun _ => anyVal
  | "len", [x] =>
    rel fun t t' v => t' = t ∧ ∃ n, x.seqLen t.heap = some n ∧ v = .int (BitVec.ofNat 32 n)
  | f, _ => bind (rel fun t t' (_ : Unit) => Effect p rt f t t') fun _ => anyVal

mutual
/-- What evaluating an expression may do. -/
def evalE (p : Prog) (rt : Runtime) : Expr → Behave State Event Val
  | .int _ v wide => ret (litVal v wide)
  | .var _ x => get fun s => s.vals x
  | .imp _ x => get fun s => s.vals x
  | .bin _ op l r =>
    bind (evalE p rt l) fun a =>
      match op, a.truth with
      | .and, some false => ret (.ofBool false)
      -- `||` may skip its right side
      | .other _, _ => choice anyVal (bind (evalE p rt r) fun b => evalBin op a b)
      | _, _ => bind (evalE p rt r) fun b => evalBin op a b
  | .index id b i =>
    bind (evalE p rt b) fun vb =>
      bind (evalE p rt i) fun vi => bind (emit fun t => ⟨id, vb, vi, t.heap⟩) fun _ => anyVal
  | .call id f args => bind (evalArgs p rt args) fun vs => evalCall p rt id f vs
  | .other _ args => bind (evalSome p rt args) fun _ => bind allocate fun _ => anyVal
/-- The arguments of a call, in order. -/
def evalArgs (p : Prog) (rt : Runtime) : Args → Behave State Event (List Val)
  | .nil => ret []
  | .cons e rest =>
    bind (evalE p rt e) fun v => bind (evalArgs p rt rest) fun vs => ret (v :: vs)
/-- The operands of any other node, in order; some may be skipped. -/
def evalSome (p : Prog) (rt : Runtime) : Args → Behave State Event Unit
  | .nil => ret ()
  | .cons e rest =>
    bind (choice (ret ()) (bind (evalE p rt e) fun _ => ret ())) fun _ => evalSome p rt rest
end

/-- A name set. -/
def setVal (f : State → String × Val) : Behave State Event Out :=
  rel fun s s' o => s' = { s with vals := Function.update s.vals (f s).1 (f s).2 } ∧ o = .norm

mutual
/-- What running a statement may do. -/
def runS (p : Prog) (rt : Runtime) : Stmt → Behave State Event Out
  | .decl _ t _ x rhs => bind (evalE p rt rhs) fun v => setVal fun _ => (x, v.coerceTo t)
  | .assign _ x rhs =>
    bind (evalE p rt rhs) fun v => setVal fun s => (x, v.coerceTo (s.vals x).ty)
  | .iassign id _ b i rhs =>
    bind (evalE p rt b) fun vb => bind (evalE p rt i) fun vi => bind (evalE p rt rhs) fun _ =>
      bind (emit fun t => ⟨id, vb, vi, t.heap⟩) fun _ => ret .norm
  | .cond _ c thn els =>
    bind (evalE p rt c) fun v =>
      match v.truth with
      | some true => runB p rt thn
      | some false => runB p rt els
      | none => choice (runB p rt thn) (runB p rt els)
  | .loop _ c body =>
    Behave.loop <| bind (evalE p rt c) fun v =>
      if v.truth = some false then ret (some .norm)
      else bind (runB p rt body) fun o =>
        match o with
        | .norm => ret none
        | .brk => ret (some .norm)
        | .ret => ret (some .ret)
  | .brk _ => ret .brk
  | .ret _ args => bind (evalSome p rt args) fun _ => ret .ret
  | .other _ args => bind (evalSome p rt args) fun _ => ret .norm
/-- What running statements may do. -/
def runB (p : Prog) (rt : Runtime) : List Stmt → Behave State Event Out
  | [] => ret .norm
  | s :: rest => bind (runS p rt s) fun o => if o = .norm then runB p rt rest else ret o
end

/-- One test of a loop's condition, and the round it lets in. -/
def runRound (p : Prog) (rt : Runtime) (w : Loop) : Behave State Event (Option Out) :=
  bind (evalE p rt w.cond) fun v =>
    if v.truth = some true then
      bind (runB p rt w.stmts) fun o =>
        match o with
        | .norm => ret none
        | .brk => ret (some .norm)
        | .ret => ret (some .ret)
    else ret (some .norm)

/-- What running a loop may do. -/
def runLoop (p : Prog) (rt : Runtime) (w : Loop) : Behave State Event Out :=
  Behave.loop (runRound p rt w)

end IdCompiler.Fast

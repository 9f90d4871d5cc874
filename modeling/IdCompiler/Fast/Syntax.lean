import Mathlib.Algebra.Order.BigOperators.Group.List
import Mathlib.Algebra.Order.Ring.Int
import Mathlib.Data.List.Nodup
import Mathlib.Data.List.Perm.Subperm

/-!
# The nodes of a loop

Expressions and statements as the parser's node columns hold them, with the
number each node got. A node is numbered after the nodes it is made of, in the
order the source is read; the nodes the analysis never looks at (the callee's
own name node of a call) are gaps in the numbering.
-/

namespace IdCompiler.Fast

/-- The types the analysis tells apart. -/
inductive Ty
  | int
  | word
  | bytes
  | string
  /-- Any `T[]`. -/
  | list
  | other
  deriving DecidableEq, Repr

inductive BinOp
  | add
  | mul
  | lt
  | and
  | other (text : String)
  deriving DecidableEq, Repr

/-- What a literal of the source reads as: an int, or a word when it is too wide for one. -/
def litNum (v : Int) (isWide : Bool) : Int :=
  if isWide then (BitVec.ofInt 64 v).toInt else (BitVec.ofInt 32 v).toInt

mutual
/-- An expression node. -/
inductive Expr
  /-- A literal: its value, and whether it is too wide for an int (`ni2`). -/
  | int (id : Nat) (value : Int) (wide : Bool)
  | var (id : Nat) (name : String)
  /-- `(import name)`. -/
  | imp (id : Nat) (name : String)
  | bin (id : Nat) (op : BinOp) (l r : Expr)
  | index (id : Nat) (base ix : Expr)
  | call (id : Nat) (fn : String) (args : Args)
  /-- Any other kind, with its operands. -/
  | other (id : Nat) (args : Args)
inductive Args
  | nil
  | cons (e : Expr) (rest : Args)
end

/-- A statement node. -/
inductive Stmt
  /-- `ty name = rhs`, exported when `ni2` says so. -/
  | decl (id : Nat) (ty : Ty) (exported : Bool) (name : String) (rhs : Expr)
  | assign (id : Nat) (name : String) (rhs : Expr)
  /-- `base[ix] = rhs`; the parser first read `base[ix]` as an expression, numbered `pid`. -/
  | iassign (id pid : Nat) (base ix rhs : Expr)
  | cond (id : Nat) (c : Expr) (thn els : List Stmt)
  | loop (id : Nat) (c : Expr) (body : List Stmt)
  | brk (id : Nat)
  | ret (id : Nat) (args : Args)
  /-- Any other kind, with the expressions it evaluates. -/
  | other (id : Nat) (args : Args)

/-- One row of the node columns. -/
inductive Node
  | expr (e : Expr)
  | stmt (s : Stmt)

def Expr.id : Expr → Nat
  | .int id .. | .var id .. | .imp id .. | .bin id .. | .index id .. | .call id .. | .other id .. => id

def Stmt.id : Stmt → Nat
  | .decl id .. | .assign id .. | .iassign id .. | .cond id .. | .loop id .. | .brk id
  | .ret id .. | .other id .. => id

def Node.id : Node → Nat
  | .expr e => e.id
  | .stmt s => s.id

/-- Two arguments and no more. -/
def Args.two : Args → Option (Expr × Expr)
  | .cons a (.cons b .nil) => some (a, b)
  | _ => none

/-- One argument and no more. -/
def Args.one : Args → Option Expr
  | .cons a .nil => some a
  | _ => none

mutual
/-- The nodes of an expression in the order they are numbered. -/
def Expr.nodes : Expr → List Node
  | .int id v w => [.expr (.int id v w)]
  | .var id x => [.expr (.var id x)]
  | .imp id x => [.expr (.imp id x)]
  | .bin id op l r => l.nodes ++ r.nodes ++ [.expr (.bin id op l r)]
  | .index id b i => b.nodes ++ i.nodes ++ [.expr (.index id b i)]
  | .call id f args => args.nodes ++ [.expr (.call id f args)]
  | .other id args => args.nodes ++ [.expr (.other id args)]
def Args.nodes : Args → List Node
  | .nil => []
  | .cons e rest => e.nodes ++ rest.nodes
end

mutual
/-- The nodes of a statement in the order they are numbered. -/
def Stmt.nodes : Stmt → List Node
  | .decl id t x n rhs => rhs.nodes ++ [.stmt (.decl id t x n rhs)]
  | .assign id n rhs => rhs.nodes ++ [.stmt (.assign id n rhs)]
  | .iassign id pid b i rhs =>
    b.nodes ++ i.nodes ++ [.expr (.index pid b i)] ++ rhs.nodes ++ [.stmt (.iassign id pid b i rhs)]
  | .cond id c thn els =>
    c.nodes ++ blockNodes thn ++ blockNodes els ++ [.stmt (.cond id c thn els)]
  | .loop id c body => c.nodes ++ blockNodes body ++ [.stmt (.loop id c body)]
  | .brk id => [.stmt (.brk id)]
  | .ret id args => args.nodes ++ [.stmt (.ret id args)]
  | .other id args => args.nodes ++ [.stmt (.other id args)]
/-- The nodes of statements in the order they are numbered. -/
def blockNodes : List Stmt → List Node
  | [] => []
  | s :: rest => s.nodes ++ blockNodes rest
end

theorem Stmt.mem_nodes_self (s : Stmt) : Node.stmt s ∈ s.nodes := by
  cases s <;> simp [Stmt.nodes]

theorem Expr.mem_nodes_self (e : Expr) : Node.expr e ∈ e.nodes := by
  cases e <;> simp [Expr.nodes]

theorem Stmt.nodes_sub_block {s : Stmt} {ss : List Stmt} (h : s ∈ ss) :
    s.nodes ⊆ blockNodes ss := by
  induction ss with
  | nil => simp at h
  | cons t ss ih =>
    rcases List.mem_cons.mp h with rfl | h
    · exact List.subset_append_left ..
    · exact List.Subset.trans (ih h) (List.subset_append_right ..)

theorem blockNodes_append (a b : List Stmt) :
    blockNodes (a ++ b) = blockNodes a ++ blockNodes b := by
  induction a with
  | nil => simp [blockNodes]
  | cons s a ih => simp [blockNodes, ih]

/-- The step of a `for`, which is read as an assignment whatever it says. -/
structure Step where
  id : Nat
  name : String
  rhs : Expr

def Step.stmt (s : Step) : Stmt := .assign s.id s.name s.rhs

/-- A loop as the parser leaves it: a `while`, or a `for` with its step. The step of a `for` is
read before the body, so its nodes come first, and made the body's last statement. -/
structure Loop where
  id : Nat
  cond : Expr
  step : Option Step
  body : List Stmt

/-- The step as the statements it is. -/
def Loop.stepStmts (w : Loop) : List Stmt := (w.step.map Step.stmt).toList

/-- The statements of a round, `nl1` of the node. -/
def Loop.stmts (w : Loop) : List Stmt := w.body ++ w.stepStmts

/-- The nodes numbered between the condition and the loop: those a `for`'s step was read as,
then the body's. -/
def Loop.nodes (w : Loop) : List Node := blockNodes w.stepStmts ++ blockNodes w.body

/-- A loop whose nodes carry numbers in the order they are read. -/
structure NumberedLoop extends Loop where
  numbered : (toLoop.nodes.map Node.id).Pairwise (· < ·)

/-- A function as the analysis sees it. -/
structure Func where
  nodes : List Node
  /-- How far apart its first and last node are numbered. -/
  span : Nat
  native : Bool
  /-- Whether it has a node at all; an assembly function has none. -/
  present : Bool

/-- The names a function exports. -/
def Func.exports (f : Func) (x : String) : Prop :=
  ∃ id t rhs, Node.stmt (.decl id t true x rhs) ∈ f.nodes

/-- The tables a loop is planned against. -/
structure Prog where
  /-- The functions by name (`fnames`, `fnodes`). -/
  fn : String → Option Func
  /-- The struct constructors (`sdname`). -/
  structs : List String
  /-- The type of a sequence by its name, `type_of`. -/
  ty : String → Ty
  /-- The function the loop is in (`sqbase`). -/
  self : String
  /-- Whether the test harness reads exports itself (`harn`). -/
  harness : Bool

end IdCompiler.Fast

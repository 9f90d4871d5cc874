import IdCompiler.Fast.Syntax

/-!
# The guard and its clauses

The guard of a versioned loop as the analysis collects it: clauses of tokens in
reverse Polish form, each added once.
-/

namespace IdCompiler.Fast

/-- The operators of a sum, difference or product. -/
inductive ArOp
  | add
  | sub
  | mul
  deriving DecidableEq, Repr

/-- The comparisons of the guard. -/
inductive CmpOp
  | lt
  | le
  | ge
  | ne
  deriving DecidableEq, Repr

/-- One token of the guard. -/
inductive Tok
  /-- `v:NAME`. -/
  | name (x : String)
  /-- `i:TEXT`, a literal of the source. -/
  | lit (value : Int) (isWide : Bool)
  /-- `k:TEXT`, a constant of the analysis. -/
  | const (k : Int)
  | null
  | wide
  | len
  | cap
  | slen
  /-- `+:N`, `-:N`, `*:N`. -/
  | nary (op : ArOp) (n : Nat)
  | cmp (op : CmpOp)
  /-- `|`, the end of a clause. -/
  | bar
  deriving DecidableEq, Repr

/-- The guard so far: its tokens, and its clauses as keys. -/
structure Guard where
  lpg : List Tok
  lpcond : List (List Tok)

def Guard.empty : Guard := ⟨[], []⟩

/-- A clause added once, however many accesses ask for it. -/
def lpAdd (tk : List Tok) (g : Guard) : Guard :=
  if tk ∈ g.lpcond then g else ⟨g.lpg ++ tk ++ [.bar], g.lpcond ++ [tk]⟩

/-- The token of a name or a literal; nothing else is asked for. -/
def lpLeaf : Expr → Tok
  | .int _ v w => .lit v w
  | .var _ x => .name x
  | .imp _ x => .name x
  | _ => .null

/-- `leaf rhs op`. -/
def lpRel (e : Expr) (rhs : Tok) (op : CmpOp) (g : Guard) : Guard :=
  lpAdd [lpLeaf e, rhs, .cmp op] g

/-- A list that is stored to is not a constant. -/
def lpCapok (e : Expr) (g : Guard) : Guard :=
  lpAdd [lpLeaf e, .cap, .const 0, .cmp .ge] g

/-- The token that reads the length of a sequence of a type. -/
def lpLenop : Ty → Tok
  | .string => .slen
  | _ => .len

/-- The type of a sequence. -/
def Prog.typeOf (p : Prog) : Expr → Ty
  | .var _ x => p.ty x
  | .imp _ x => p.ty x
  | _ => .other

/-- The length of a sequence in 64 bits. -/
def lpLenw (p : Prog) (e : Expr) : List Tok :=
  [lpLeaf e, lpLenop (p.typeOf e), .wide]

/-- The length less a constant, with the comparison that ends the clause. -/
def lpFit (p : Prog) (e : Expr) (k : Int) : List Tok :=
  lpLenw p e ++ [.const k, .nary .sub 2, .cmp .le]

/-- The sequence whose length a limit is. -/
def lpLenarg : Expr → Option Expr
  | .call _ "len" args =>
    match args.one with
    | some (.var id x) => some (.var id x)
    | _ => none
  | _ => none

/-- A limit as the guard reads it. -/
def lpNtok (p : Prog) (e : Expr) : List Tok :=
  match lpLenarg e with
  | some xs => lpLenw p xs
  | none => [lpLeaf e]

/-- A limit that is a length needs its sequence to exist. -/
def lpNul (e : Expr) (g : Guard) : Guard :=
  match lpLenarg e with
  | some xs => lpRel xs .null .ne g
  | none => g

end IdCompiler.Fast

import IdCompiler.Core.Reach
import Mathlib.Data.BitVec
import Mathlib.Logic.Function.Basic

/-!
# The digest graph and Tarjan's walk over it

The rows of the digest (one per function of the program, one for the asm row)
and the walk that collapses every cycle into one component. A component is
sealed when the walk returns to its root: its members' hashes and the hashes of
the components it reaches are summed and mixed, and its dirt is folded with `|`.
-/

namespace IdCompiler.Digest

/-- A 64-bit `word`; arithmetic wraps. -/
abbrev Word := BitVec 64

/-- Two words mixed into one, the multiply-xorshift finaliser; `>>>` is `ushr`. -/
def dgMix (a b : Word) : Word :=
  let x := (a * 6364136223846793005) ^^^ b
  let x := x ^^^ (x >>> 31)
  let x := x * 1099511628211
  x ^^^ (x >>> 29)

/-- The rows the walk reads: `dg_out`, `dg_nat` and `dg_own`. An edge names a row. -/
structure Rows (n : Nat) where
  /-- The rows a row names, in the order they were found, repeats kept. -/
  out : Fin n → List (Fin n)
  /-- What the digest cannot see of a row, as a class. -/
  nat : Fin n → Nat
  /-- The hash of the row's own tokens. -/
  own : Fin n → Word

/-- The columns the walk writes. -/
structure Walk (n : Nat) where
  /-- The walk index of a row, `-1` before it is visited. -/
  ix : Fin n → Int
  /-- The low link of a row. -/
  low : Fin n → Int
  /-- `1` while a row is on the stack. -/
  on : Fin n → Int
  /-- The component a row landed in, `-1` before it lands in one. -/
  comp : Fin n → Int
  /-- The stack, top last. -/
  stk : List (Fin n)
  /-- The next walk index, `dg_ctr[0]`. -/
  next : Int
  /-- The next component, `dg_ctr[1]`. -/
  ncomp : Int
  /-- Per component, its folded hash. -/
  deep : List Word
  /-- Per component, the classes it reaches. -/
  dirty : List Nat

variable {n : Nat}

/-- The columns as `dg_add` leaves them: nothing visited. -/
def dgInit (n : Nat) : Walk n where
  ix := fun _ => -1
  low := fun _ => 0
  on := fun _ => 0
  comp := fun _ => -1
  stk := []
  next := 0
  ncomp := 0
  deep := []
  dirty := []

/-- The two sums and the dirt `dg_seal` builds. -/
structure Acc where
  /-- The members' own hashes, `dgacc[0]`. -/
  own : Word
  /-- The hashes of the components the members' edges leave for, `dgacc[1]`. -/
  out : Word
  /-- The classes folded so far, `dgbad[0]`. -/
  bad : Nat
  deriving DecidableEq

/-- One edge into the sums; an edge to a row of no component yet counts as dirty. -/
def dgSealEdge (s : Walk n) (a : Acc) (w : Fin n) : Acc :=
  if s.comp w < 0 then { a with bad := 1 }
  else if s.comp w < s.deep.length then
    { a with
      out := a.out + dgMix (s.deep.getD (s.comp w).toNat 0) 13
      bad := a.bad ||| s.dirty.getD (s.comp w).toNat 0 }
  else a

/-- One member's out-edges into the sums. -/
def dgSealOut (g : Rows n) (s : Walk n) (a : Acc) (m : Fin n) : Acc :=
  (g.out m).foldl (dgSealEdge s) a

/-- One member into the sums: its own hash, its class, its edges. -/
def dgSealOne (g : Rows n) (s : Walk n) (a : Acc) (m : Fin n) : Acc :=
  dgSealOut g s { a with own := a.own + dgMix (g.own m) 7, bad := a.bad ||| g.nat m } m

/-- The members from position `p` up into the sums. -/
def dgSealRun (g : Rows n) (s : Walk n) (p : Nat) : Acc :=
  (s.stk.drop p).foldl (dgSealOne g s) ⟨0, 0, 0⟩

/-- Seal the component whose members are the stack from `p` up. -/
def dgSeal (g : Rows n) (p : Nat) (s : Walk n) : Walk n :=
  let a := dgSealRun g s p
  { s with deep := s.deep ++ [dgMix a.own a.out], dirty := s.dirty ++ [a.bad] }

/-- Give one row its component and take its stack mark off. -/
def dgOwnComp (m : Fin n) (c : Int) (s : Walk n) : Walk n :=
  { s with comp := Function.update s.comp m c, on := Function.update s.on m 0 }

/-- Mark the stack from position `p` down to `v`, answering `v`'s position. -/
def dgMark (v : Fin n) (c : Int) : Nat → Walk n → Walk n × Nat
  | p, s =>
    match s.stk[p]? with
    | none => (s, p)
    | some m =>
      if m = v then (dgOwnComp m c s, p)
      else
        match p with
        | 0 => (dgOwnComp m c s, 0)
        | q + 1 => dgMark v c q (dgOwnComp m c s)

/-- Complete the component of `v`: number its members, seal it, drop them. -/
def dgPop (g : Rows n) (v : Fin n) (s : Walk n) : Walk n :=
  let r := dgMark v s.ncomp (s.stk.length - 1) { s with ncomp := s.ncomp + 1 }
  let s' := dgSeal g r.2 r.1
  { s' with stk := s'.stk.take r.2 }

/-- Lower a row's low link. -/
def dgLower (v : Fin n) (l : Int) (s : Walk n) : Walk n :=
  if l < s.low v then { s with low := Function.update s.low v l } else s

/-- One successor of `v`: walk it when unvisited, take its index when it is on the stack. -/
def dgStep (visit : Fin n → Walk n → Option (Walk n)) (v w : Fin n) (s : Walk n) :
    Option (Walk n) :=
  if s.ix w < 0 then (visit w s).map fun s' => dgLower v (s'.low w) s'
  else if s.on w = 1 then some (dgLower v (s.ix w) s)
  else some s

/-- The successors of `v` from one position on. -/
def dgSucc (visit : Fin n → Walk n → Option (Walk n)) (v : Fin n) :
    List (Fin n) → Walk n → Option (Walk n)
  | [], s => some s
  | w :: ws, s => (dgStep visit v w s).bind (dgSucc visit v ws)

/-- Number a row and put it on the stack. -/
def dgEnter (v : Fin n) (s : Walk n) : Walk n :=
  { s with
    ix := Function.update s.ix v s.next
    low := Function.update s.low v s.next
    next := s.next + 1
    stk := s.stk ++ [v]
    on := Function.update s.on v 1 }

/-- Visit an unvisited row. The first argument bounds the depth of the recursion. -/
def dgVisit (g : Rows n) : Nat → Fin n → Walk n → Option (Walk n)
  | 0, _, _ => none
  | fuel + 1, v, s =>
    (dgSucc (dgVisit g fuel) v (g.out v) (dgEnter v s)).map fun s' =>
      if s'.low v = s'.ix v then dgPop g v s' else s'

/-- Visit a row unless it was visited already. -/
def dgTry (g : Rows n) (fuel : Nat) (v : Fin n) (s : Walk n) : Option (Walk n) :=
  if s.ix v < 0 then dgVisit g fuel v s else some s

/-- Visit the rows of a list in turn. -/
def dgTryAll (g : Rows n) (fuel : Nat) : List (Fin n) → Walk n → Option (Walk n)
  | [], s => some s
  | v :: vs, s => (dgTry g fuel v s).bind (dgTryAll g fuel vs)

/-- The components of the whole graph. -/
def dgSccAll (g : Rows n) (fuel : Nat) : Option (Walk n) :=
  dgTryAll g fuel (List.finRange n) (dgInit n)

/-- An edge of the graph. -/
def Edge (g : Rows n) (u w : Fin n) : Prop := w ∈ g.out u

/-- A row reaches another along the edges. -/
def Reach (g : Rows n) (u w : Fin n) : Prop := Relation.ReflTransGen (Edge g) u w

end IdCompiler.Digest

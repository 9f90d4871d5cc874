import IdCompiler.Source.Find
import Mathlib.Logic.Function.Basic
import Mathlib.Logic.Relation

/-!
# Which functions are reached

The sweeps over the node store that find the functions called from `main`, with the index
over the set found so far, in which names that are no functions are remembered too.
-/

namespace IdCompiler.Names

open IdCompiler.Source

/-- What the sweeps read of a node. -/
structure Node where
  kind : String
  s1 : String

/-- What the sweeps read of a build. -/
structure Build where
  /-- The node store, in the order in which the nodes were made. -/
  node : Nat → Node
  /-- The nodes of the functions. -/
  prog : List Nat
  fnames : List String
  enames : List String
  exportOwner : String → String

/-- A hash map from names: the value last put. -/
abbrev HashMap := String → Option Int

def hashMapGet (t : HashMap) (name : String) (default : Int) : Int := (t name).getD default

def hashMapPut (t : HashMap) (name : String) (v : Int) : HashMap := Function.update t name (some v)

/-- What the sweeps change. -/
structure State where
  rfn : List String
  rfx : HashMap
  dphase : Int
  /-- The nodes that `dead_err` reported. -/
  dead : List Nat

/-- `rfn_reindex`, from position `i` on. -/
def rfnReindexLoop : List String → Nat → HashMap → HashMap
  | [], _, t => t
  | name :: names, i, t => rfnReindexLoop names (i + 1) (hashMapPut t name i)

def rfnReindex (rfn : List String) (t : HashMap) : HashMap := rfnReindexLoop rfn 0 t

/-- `init_reach`. -/
def initReach : State where
  rfn := ["main", "conf.id"]
  rfx := rfnReindex ["main", "conf.id"] fun _ => none
  dphase := 0
  dead := []

/-! ## The set and its index -/

/-- `is_reach`: a position is believed only when the name is there. -/
def isReach (s : State) (name : String) : Int :=
  let rv := hashMapGet s.rfx name (-1)
  if 0 ≤ rv ∧ rv < s.rfn.length ∧ s.rfn[rv.toNat]? = some name then 1 else 0

/-- What the index has for a name that is no function. -/
def rfm (b : Build) : Int := 0 - 2 - b.fnames.length

/-- `rfx_scan`. -/
def rfxScan (b : Build) (s : State) (name : String) (rfm : Int) : Int × State :=
  if findStr b.fnames name < 0 then (0, { s with rfx := hashMapPut s.rfx name rfm }) else (1, s)

/-- `rfx_fn`. -/
def rfxFn (b : Build) (s : State) (name : String) : Int × State :=
  if hashMapGet s.rfx name (-1) ≠ rfm b then rfxScan b s name (rfm b) else (0, s)

/-- The name at the end of the set, and its place in the index. -/
def reachPush (s : State) (name : String) : State :=
  { s with rfn := s.rfn ++ [name], rfx := hashMapPut s.rfx name ((s.rfn ++ [name]).length - 1) }

/-- `reach_add`; the second question is asked only of names that are not in the set. -/
def reachAdd (b : Build) (s : State) (name : String) : State :=
  if isReach s name = 0 then
    if (rfxFn b s name).1 = 1 then reachPush (rfxFn b s name).2 name else (rfxFn b s name).2
  else s

/-! ## The walk -/

def isReachOwner (b : Build) (s : State) (id : Nat) : Int := isReach s (b.exportOwner (b.node id).s1)

/-- `chk_import_at`. -/
def chkImportAt (b : Build) (s : State) (id : Nat) : State :=
  if 0 ≤ findStr b.enames (b.node id).s1 ∧ isReachOwner b s id = 0 then
    { s with dead := s.dead ++ [id] }
  else s

/-- `scan_reach`. -/
def scanReach (b : Build) (s : State) (id : Nat) : State :=
  let s := if (b.node id).kind = "call" ∨ (b.node id).kind = "var" then
    reachAdd b s (b.node id).s1 else s
  if (b.node id).kind = "import" ∧ s.dphase = 1 then chkImportAt b s id else s

/-- The nodes from `lo` on. -/
def reachRangeLoop (b : Build) : Nat → Nat → State → State
  | 0, _, s => s
  | k + 1, lo, s => reachRangeLoop b k (lo + 1) (scanReach b s lo)

/-- `reach_range`, up to the node `hi`. -/
def reachRange (b : Build) (s : State) (lo hi : Nat) : State := reachRangeLoop b (hi + 1 - lo) lo s

/-- `reach_func`, for the function's node `f`: where the next function starts. -/
def reachFunc (b : Build) (s : State) (f lo : Nat) : Nat × State :=
  (f + 1, if isReach s (b.node f).s1 = 1 then reachRange b s lo f else s)

/-- `reach_funcs`, for the functions that are left. -/
def reachFuncs (b : Build) : List Nat → Nat → State → State
  | [], _, s => s
  | f :: fs, lo, s => reachFuncs b fs (reachFunc b s f lo).1 (reachFunc b s f lo).2

/-- `reach_pass`: the size of the set before the sweep. -/
def reachPass (b : Build) (s : State) : Int × State := (s.rfn.length, reachFuncs b b.prog 0 s)

/-- `reach_mark`, with at most the given rounds. -/
def reachMarkLoop (b : Build) : Nat → Int → State → Option State
  | 0, _, _ => none
  | fuel + 1, n, s =>
    if n ≠ s.rfn.length then reachMarkLoop b fuel (reachPass b s).1 (reachPass b s).2 else some s

/-- A round for each function at most, and two more. -/
def reachMark (b : Build) (s : State) : Option State :=
  reachMarkLoop b (b.fnames.length + 2) (0 - 1) s

/-! ## What is to be reached -/

/-- The function at `f` has the node: all functions made before it lie before the node. -/
def Inside (b : Build) (f id : Nat) : Prop := f ∈ b.prog ∧ id ≤ f ∧ ∀ f' ∈ b.prog, f' < f → f' < id

/-- The node is a call or a variable with the name of a function. -/
def Uses (b : Build) (id : Nat) (name : String) : Prop :=
  ((b.node id).kind = "call" ∨ (b.node id).kind = "var") ∧ (b.node id).s1 = name ∧ name ∈ b.fnames

/-- A function named `x` has a node that uses `y`. -/
def Follows (b : Build) (x y : String) : Prop :=
  ∃ f id, Inside b f id ∧ (b.node f).s1 = x ∧ Uses b id y

/-- The names that are found from `main` and `conf.id`. -/
def Reached (b : Build) (name : String) : Prop :=
  Relation.ReflTransGen (Follows b) "main" name ∨ Relation.ReflTransGen (Follows b) "conf.id" name

/-- The functions come in the order in which their nodes were made. -/
def Ordered (b : Build) : Prop := b.prog.Pairwise (· < ·)

/-- The states between the scans of any nodes, in any order. -/
def Swept (b : Build) : State → Prop :=
  Relation.ReflTransGen (fun s s' => ∃ id, s' = scanReach b s id) initReach

end IdCompiler.Names

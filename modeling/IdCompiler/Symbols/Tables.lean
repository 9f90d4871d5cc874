import IdCompiler.Core.Buckets
import IdCompiler.Source.Find
import IdCompiler.Source.Text

/-!
# The symbol index

The tables of variables, functions and declarations with an index of buckets
for each, and the lookups that search one bucket for a search of the table.
-/

namespace IdCompiler.Symbols

open IdCompiler.Core IdCompiler.Source

/-! ## Buckets of names -/

/-- `idx_n` -/
def idxN : Nat := 251

/-- The codes of a name. -/
def codes (s : String) : Text := (s.toList.flatMap String.utf8EncodeChar).map UInt8.toNat

def hashStep (hv c : Nat) : Nat := (hv * 31 + c) % 65536

def hashLoop (s : Text) (i hv : Nat) : Nat := (s.drop i).foldl hashStep hv

def nameBucket (s : String) : Nat := hashLoop (codes s) 0 0 % idxN

theorem nameBucket_lt (s : String) : nameBucket s < idxN := Nat.mod_lt _ (by decide)

/-! ## Tables -/

structure Tables where
  vnames : List String
  vidx : List (List Nat)
  fnames : List String
  fidx : List (List Nat)
  dvname : List String
  didx : List (List Nat)

/-- `init_idx` and `init_didx`. -/
def initIdx : Tables :=
  ⟨[], List.replicate idxN [], [], List.replicate idxN [], [], List.replicate idxN []⟩

/-- `push(idx[bucket_slot], row)` -/
def pushRow (idx : List (List Nat)) (slot row : Nat) : List (List Nat) := idx.modify slot (· ++ [row])

namespace Tables

variable (t : Tables)

def vidxPush (slot row : Nat) (name : String) : Tables :=
  { t with vidx := pushRow t.vidx slot row, vnames := t.vnames ++ [name] }

def fidxPush (slot row : Nat) (name : String) : Tables :=
  { t with fidx := pushRow t.fidx slot row, fnames := t.fnames ++ [name] }

def didxPush (slot row : Nat) (name : String) : Tables :=
  { t with didx := pushRow t.didx slot row, dvname := t.dvname ++ [name] }

def vidxAdd (name : String) : Tables := t.vidxPush (nameBucket name) t.vnames.length name

def fidxAdd (name : String) : Tables := t.fidxPush (nameBucket name) t.fnames.length name

def didxAdd (name : String) : Tables := t.didxPush (nameBucket name) t.dvname.length name

/-- `push(fnames, name)` without the index. -/
def pushName (name : String) : Tables := { t with fnames := t.fnames ++ [name] }

/-- `vidx[name_bucket(name)]` -/
def vbucket (name : String) : List Nat := t.vidx.getD (nameBucket name) []

def fbucket (name : String) : List Nat := t.fidx.getD (nameBucket name) []

def dbucket (name : String) : List Nat := t.didx.getD (nameBucket name) []

end Tables

/-! ## Scans of a bucket -/

def ixHit (names : List String) (bucket : List Nat) (i : Nat) (name : String) (found : Int) : Int :=
  if names[bucket.getD i 0]? = some name then ↑(bucket.getD i 0) else found

/-- `find_ix`: the last row of a name, or -1. -/
def findIx (names : List String) (bucket : List Nat) (name : String) : Int :=
  scanBack (fun i => ixHit names bucket i name) bucket bucket.length (-1)

def vxHit (vnames : List String) (vunit : List Int) (bucket : List Nat) (i : Nat) (name : String)
    (unit found : Int) : Int :=
  if vnames[bucket.getD i 0]? = some name ∧ vunit[bucket.getD i 0]? = some unit then ↑(bucket.getD i 0) else found

/-- `vx_scan`, with one more than its index. -/
def vxScan (vnames : List String) (vunit : List Int) (bucket : List Nat) (name : String) (unit : Int)
    (i : Nat) (found : Int) : Int :=
  scanBack (fun i => vxHit vnames vunit bucket i name unit) bucket i found

/-- `find_vix` -/
def findVix (vnames : List String) (vunit : List Int) (bucket : List Nat) (name : String) (unit : Int) : Int :=
  let found := vxScan vnames vunit bucket name unit bucket.length (-1)
  if found < 0 then findIx vnames bucket name else found

def dvHit (dvname dvfunc : List String) (i : Nat) (name owner : String) : Nat :=
  if dvname[i]? = some name ∧ dvfunc[i]? = some owner then 1 else 0

/-- `dv_count` -/
def dvCount (dvname dvfunc : List String) (bkt : List Nat) (name owner : String) (i ok : Nat) : Nat :=
  (bkt.drop i).foldl (fun ok row => ok + dvHit dvname dvfunc row name owner) ok

namespace Tables

variable (t : Tables)

/-- `fidx_row_is`, as a truth value. -/
def fidxRowIs (name : String) (fnRow : Int) : Bool := findIx t.fnames (t.fbucket name) name == fnRow

/-- `fidx_synced`, as a truth value. -/
def fidxSynced : Bool := t.fidxRowIs (t.fnames.getLast?.getD "") (t.fnames.length - 1)

def fnMiss (name : String) : Int := if t.fidxSynced then -1 else findStr t.fnames name

/-- `fn_index` -/
def fnIndex (name : String) : Int :=
  let ix := findIx t.fnames (t.fbucket name) name
  if ix < 0 then t.fnMiss name else ix

end Tables

/-! ## Calls -/

inductive Call
  | vidxAdd (name : String)
  | fidxAdd (name : String)
  | didxAdd (name : String)
  | pushName (name : String)

def Tables.call (t : Tables) : Call → Tables
  | .vidxAdd name => t.vidxAdd name
  | .fidxAdd name => t.fidxAdd name
  | .didxAdd name => t.didxAdd name
  | .pushName name => t.pushName name

/-- The tables after calls in order. -/
def tablesOf (calls : List Call) : Tables := calls.foldl Tables.call initIdx

/-! ## Rows -/

/-- The row that a call adds to the variables, with whether the index has it. -/
def Call.vrow : Call → Option (String × Bool)
  | .vidxAdd name => some (name, true)
  | .fidxAdd _ | .didxAdd _ | .pushName _ => none

def Call.frow : Call → Option (String × Bool)
  | .fidxAdd name => some (name, true)
  | .pushName name => some (name, false)
  | .vidxAdd _ | .didxAdd _ => none

def Call.drow : Call → Option (String × Bool)
  | .didxAdd name => some (name, true)
  | .vidxAdd _ | .fidxAdd _ | .pushName _ => none

end IdCompiler.Symbols

import IdCompiler.Hosted.Pool

/-!
# Lists and bytes values of the hosted runtime

A value is one block: a header, then its first cells. Once it outgrows them its
cells lie in a block of their own, and the first bytes after the header hold the
capacity the header's block was made with.
-/

namespace IdCompiler.Hosted

open IdCompiler.Core

/-- What a header is the header of. -/
inductive Kind
  | list
  | bytes
  deriving DecidableEq

/-- The bytes of one cell. -/
def Kind.unit : Kind → Nat
  | .list => 8
  | .bytes => 1

/-- `IdList`, and `IdBytes`, which has the same fields. -/
structure Head where
  len : Int
  /-- Negated for a constant; the least `int` once the value is freed. -/
  cap : Int
  /-- The block of the cells; `none` while they follow the header. -/
  data : Option Block

/-- The runtime's values. -/
structure Runtime where
  pool : Pool
  head : Block → Head
  /-- The values made and not freed. -/
  live : Block → Option Kind

def intMax : Int := 2147483647

def intMin : Int := -2147483648

/-- The cast to `size_t`. -/
def sizeT (x : Int) : Nat := (x % 2 ^ 64).toNat

/-- `ID_LIST_BYTES`, and `ID_BYTES_BYTES`: a header and `n` cells. -/
def Kind.blockBytes (k : Kind) (n : Nat) : Nat := 16 + k.unit * n

namespace Runtime

/-- Where a value's cells start: a block, and an offset in it. -/
def cells (r : Runtime) (b : Block) : Block × Nat :=
  match (r.head b).data with
  | none => (b, 16)
  | some d => (d, 0)

/-- Another header for a value. -/
def setHead (r : Runtime) (b : Block) (h : Head) : Runtime :=
  { r with head := Function.update r.head b h }

@[simp]
theorem setHead_pool (r : Runtime) (b : Block) (h : Head) : (r.setHead b h).pool = r.pool := rfl

@[simp]
theorem setHead_live (r : Runtime) (b : Block) (h : Head) : (r.setHead b h).live = r.live := rfl

@[simp]
theorem setHead_self (r : Runtime) (b : Block) (h : Head) : (r.setHead b h).head b = h :=
  Function.update_self ..

/-- Other bytes for the block of a value's cells. -/
def setBytes (r : Runtime) (b : Block) (m : Bytes) : Runtime :=
  { r with pool := { r.pool with mem := Function.update r.pool.mem (r.cells b).1 m } }

/-- The bytes of the block of a value's cells. -/
def bytesOf (r : Runtime) (b : Block) : Bytes := r.pool.mem (r.cells b).1

/-- The value `v` in the cell at an index, which is not negative. -/
def setCell (k : Kind) (r : Runtime) (b : Block) (i v : Nat) : Runtime :=
  r.setBytes b ((r.bytesOf b).store ((r.cells b).2 + k.unit * i) k.unit v)

def cell (k : Kind) (r : Runtime) (b : Block) (i : Nat) : Nat :=
  (r.bytesOf b).load ((r.cells b).2 + k.unit * i) k.unit

end Runtime

/-! ## What lists and bytes values share -/

/-- A new value. -/
def make (k : Kind) (len cap : Int) (r : Runtime) : Block × Runtime :=
  let (b, pool) := r.pool.get (k.blockBytes (sizeT cap))
  (b, {
    pool
    head := Function.update r.head b ⟨len, cap, none⟩
    live := Function.update r.live b (some k) })

/-- The cells move to a block of `ncap` of them. -/
def enlarge (k : Kind) (b : Block) (ncap : Nat) (r : Runtime) : Runtime :=
  let h := r.head b
  match h.data with
  | none =>
    let (d, pool) := r.pool.get (k.unit * ncap)
    let pool := pool.copyTo d 0 b 16 (k.unit * sizeT h.len)
    let inl := (pool.mem b).store 16 8 (sizeT h.cap)
    { r with pool := { pool with mem := Function.update pool.mem b inl } }.setHead b
      ⟨h.len, ncap, some d⟩
  | some d =>
    let (d, pool) := r.pool.realloc d (k.unit * sizeT h.cap) (k.unit * ncap)
    { r with pool }.setHead b ⟨h.len, ncap, some d⟩

/-- A value is freed: its blocks go back, or, under `ID_FREE_GUARD`, its cells are spoilt. -/
def giveBack (k : Kind) (guard : Bool) (b : Block) (r : Runtime) : Except String Runtime :=
  let h := r.head b
  let c := sizeT (if h.cap < 0 then -h.cap else h.cap)
  let r' := { r with live := Function.update r.live b none }
  if guard then
    if h.cap = intMin then .error "use of a freed list"
    else
      .ok ((r'.setBytes b fun i =>
        if (r.cells b).2 ≤ i ∧ i < (r.cells b).2 + k.unit * c then 0xDD else r.bytesOf b i).setHead b
          ⟨-1, intMin, h.data⟩)
  else
    match h.data with
    | none => .ok { r' with pool := r.pool.free b (k.blockBytes c) }
    | some d =>
      let ic := (r.pool.mem b).load 16 8
      .ok { r' with pool := (r.pool.free d (k.unit * c)).free b (k.blockBytes ic) }

/-- No writes to constants and freed values. -/
def mutCheck (m : String) (b : Block) (r : Runtime) : Except String Unit :=
  if (r.head b).cap < 0 then
    if (r.head b).cap = intMin then .error "use of a freed list" else .error m
  else .ok ()

/-! ## Lists -/

def idListMake : Int → Int → Runtime → Block × Runtime := make .list

def idListNew : Runtime → Block × Runtime := idListMake 0 4

def idListSized (n : Int) : Runtime → Block × Runtime := idListMake n (if n < 4 then 4 else n)

/-- The values of a literal go to the new list's cells in turn. -/
def idListLit (vs : List Word) (r : Runtime) : Block × Runtime :=
  let n : Int := vs.length
  let (b, r) := idListMake n (if n < 1 then 4 else n) r
  (b, vs.zipIdx.foldl (fun r c => r.setCell .list b c.2 c.1.toNat) r)

def idListMutCheck : Block → Runtime → Except String Unit :=
  mutCheck "cannot mutate a constant list"

def idListGrow (b : Block) (r : Runtime) : Except String Runtime :=
  let cap := (r.head b).cap
  if intMax / 2 < cap then .error "list capacity overflow"
  else
    let ncap := if cap < 2 then 4 else cap * 2
    if 2 ^ 64 ≤ 8 * sizeT ncap then .error "allocation size overflow (list growth)"
    else .ok (enlarge .list b (sizeT ncap) r)

def idListPush (b : Block) (v : Word) (r : Runtime) : Except String Runtime := do
  idListMutCheck b r
  let r ← (if (r.head b).cap ≤ (r.head b).len then idListGrow b r else .ok r)
  let h := r.head b
  return (r.setCell .list b h.len.toNat v.toNat).setHead b { h with len := h.len + 1 }

def idListPop (b : Block) (r : Runtime) : Except String (Word × Runtime) := do
  idListMutCheck b r
  let h := r.head b
  if h.len ≤ 0 then throw "pop from empty list"
  else
    return (BitVec.ofNat 64 (r.cell .list b (h.len - 1).toNat), r.setHead b { h with len := h.len - 1 })

def idListLock (b : Block) (r : Runtime) : Runtime :=
  r.setHead b { r.head b with cap := 0 - (r.head b).cap }

def idListFree : Bool → Block → Runtime → Except String Runtime := giveBack .list

/-! ## Bytes values -/

def idBytesMake : Int → Int → Runtime → Block × Runtime := make .bytes

/-- A value of `n` zero bytes. -/
def idBytesNew (n : Int) (r : Runtime) : Except String (Block × Runtime) :=
  if n < 0 ∨ intMax < n then .error "bytes_new: length out of range"
  else
    let (b, r) := idBytesMake n (if n < 8 then 8 else n) r
    .ok (b, r.setBytes b fun i =>
      if (r.cells b).2 ≤ i ∧ i < (r.cells b).2 + sizeT n then 0 else r.bytesOf b i)

def idBytesMutCheck : Block → Runtime → Except String Unit :=
  mutCheck "cannot mutate a constant bytes"

def idBytesReserve (b : Block) (need : Nat) (r : Runtime) : Except String Runtime :=
  let cap := sizeT (r.head b).cap
  if need ≤ cap then .ok r
  else if intMax < need then .error "bytes capacity overflow"
  else
    let ncap := cap * 2
    let ncap := if ncap < need then need else ncap
    let ncap := if intMax.toNat < ncap then intMax.toNat else ncap
    .ok (enlarge .bytes b ncap r)

def idByteFit (v : Int) : Except String Nat :=
  if v < 0 ∨ 255 < v then .error ("byte value " ++ toString v ++ " out of range 0..255")
  else .ok v.toNat

def idBytesPush (b : Block) (v : Int) (r : Runtime) : Except String Runtime := do
  idBytesMutCheck b r
  let v ← idByteFit v
  let r ← (if (r.head b).cap ≤ (r.head b).len then idBytesReserve b (sizeT (r.head b).len + 1) r
    else .ok r)
  let h := r.head b
  return (r.setCell .bytes b h.len.toNat v).setHead b { h with len := h.len + 1 }

def idBytesPop (b : Block) (r : Runtime) : Except String (Nat × Runtime) := do
  idBytesMutCheck b r
  let h := r.head b
  if h.len ≤ 0 then throw "pop from empty bytes"
  else return (r.cell .bytes b (h.len - 1).toNat, r.setHead b { h with len := h.len - 1 })

/-- The bytes of `s` come after those of `d`; both may be one value. -/
def idBytesAppend (d s : Block) (r : Runtime) : Except String Runtime := do
  idBytesMutCheck d r
  if (r.head s).len < 0 then throw "use of a freed list"
  else
    let n := sizeT (r.head s).len
    if n = 0 then return r
    else
      let need := sizeT (r.head d).len + n
      if 2 ^ 64 ≤ need then throw "allocation size overflow (bytes_append)"
      else
        let r ← idBytesReserve d need r
        let h := r.head d
        let m := (r.bytesOf d).copy ((r.cells d).2 + h.len.toNat) (r.bytesOf s) (r.cells s).2 n
        return (r.setBytes d m).setHead d { h with len := h.len + n }

def idBytesFree : Bool → Block → Runtime → Except String Runtime := giveBack .bytes

/-! ## Runs -/

/-- One operation. -/
inductive Op
  | listMake (len cap : Int)
  | listNew
  | listSized (n : Int)
  | listLit (vs : List Word)
  | listPush (b : Block) (v : Word)
  | listPop (b : Block)
  | listLock (b : Block)
  | listFree (b : Block)
  | bytesMake (len cap : Int)
  | bytesNew (n : Int)
  | bytesPush (b : Block) (v : Int)
  | bytesPop (b : Block)
  | bytesAppend (d s : Block)
  | bytesFree (b : Block)

/-- What every caller in the runtime and around it sees to: a value is made with cells for its
length and for the capacity kept in them, and is used until it is freed. -/
def Op.Proper (r : Runtime) : Op → Prop
  | .listMake len cap => 0 ≤ len ∧ len ≤ cap ∧ 1 ≤ cap ∧ cap ≤ intMax
  | .listNew => True
  | .listSized n => 0 ≤ n ∧ n ≤ intMax
  | .listLit vs => (vs.length : Int) ≤ intMax
  | .listPush b _ | .listPop b | .listLock b | .listFree b => r.live b = some .list
  | .bytesMake len cap => 0 ≤ len ∧ len ≤ cap ∧ 8 ≤ cap ∧ cap ≤ intMax
  | .bytesNew _ => True
  | .bytesPush b _ | .bytesPop b | .bytesFree b => r.live b = some .bytes
  | .bytesAppend d s => r.live d = some .bytes ∧ r.live s = some .bytes

/-- One operation's effect; a trap ends the run. -/
def Runtime.step (guard : Bool) (r : Runtime) : Op → Except String Runtime
  | .listMake len cap => .ok (idListMake len cap r).2
  | .listNew => .ok (idListNew r).2
  | .listSized n => .ok (idListSized n r).2
  | .listLit vs => .ok (idListLit vs r).2
  | .listPush b v => idListPush b v r
  | .listPop b => (idListPop b r).map Prod.snd
  | .listLock b => .ok (idListLock b r)
  | .listFree b => idListFree guard b r
  | .bytesMake len cap => .ok (idBytesMake len cap r).2
  | .bytesNew n => (idBytesNew n r).map Prod.snd
  | .bytesPush b v => idBytesPush b v r
  | .bytesPop b => (idBytesPop b r).map Prod.snd
  | .bytesAppend d s => idBytesAppend d s r
  | .bytesFree b => idBytesFree guard b r

/-- The runtime before the first operation, over a memory of any content. -/
def Runtime.start (mem : Block → Bytes) : Runtime where
  pool := ⟨fun _ => 0, fun _ => 0, mem, fun _ => [], 0, []⟩
  head := fun _ => ⟨0, 0, none⟩
  live := fun _ => none

/-- The states that operations lead to, with `ID_FREE_GUARD` on or off. -/
inductive Ran (guard : Bool) : Runtime → Prop
  | start (mem : Block → Bytes) : Ran guard (.start mem)
  | step {r r' : Runtime} {o : Op} : Ran guard r → o.Proper r → r.step guard o = .ok r' →
      Ran guard r'

end IdCompiler.Hosted

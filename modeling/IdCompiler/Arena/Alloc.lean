import IdCompiler.Core.Links

/-!
# The arena of a freestanding program

A bump pointer in the first word, the heads of 80 free lists after it, and blocks from
648 bytes on. A block carries no size: its class is computed again when it is given back.
Where an address would wrap, or a loop not end, there is no answer.
-/

namespace IdCompiler.Arena

open IdCompiler.Core

/-- `ld64`. -/
def ld64 (m : Bytes) (x : Nat) : Nat := m.load x 8

/-- `st64`; a negative word is given as its value modulo 2^64. -/
def st64 (m : Bytes) (x v : Nat) : Bytes := m.store x 8 v

def st8 (m : Bytes) (x v : Nat) : Bytes := m.store x 1 v

/-- A word as a signed number. -/
def signed (w : Nat) : Int := if w < 2 ^ 63 then w else w - 2 ^ 64

/-- The word -1. -/
def minusOne : Nat := 2 ^ 64 - 1

/-! ## The bump pointer -/

/-- The heads from `x` on after `i` rounds of `pool_wipe`. -/
def poolWipe (m : Bytes) (x : Nat) : Nat → Bytes
  | 0 => m
  | i + 1 => st64 (poolWipe m x i) (x + i * 8) 0

/-- `arena_open`, for the arena at `a`. -/
def arenaOpen (a : Nat) (m : Bytes) : Nat × Bytes := (a + 648, poolWipe m (a + 8) 80)

def arenaTop (a : Nat) (m : Bytes) : Nat × Bytes :=
  if ld64 m a = 0 then arenaOpen a m else (ld64 m a, m)

/-- `(z + 7) & 0xfffffffffffffff8`. -/
def align (z : Nat) : Nat := (BitVec.ofNat 64 (z + 7) &&& 0xfffffffffffffff8#64).toNat

/-- `mem_alloc`. -/
def memAlloc (a : Nat) (m : Bytes) (z : Nat) : Option (Nat × Bytes) :=
  let (p, m) := arenaTop a m
  if p + z + 7 < 2 ^ 64 then some (p, st64 m a (p + align z)) else none

/-! ## Free lists -/

/-- `pool_cls`: the loop is given 64 rounds; a size that overflows never passes the request. -/
def poolClsLoop : Nat → Int → Nat → Int → Option Nat
  | 0, _, _, _ => none
  | fuel + 1, z, c, t => if z < t then poolClsLoop fuel (Int.bmod (z * 2) (2 ^ 64)) (c + 1) t else some c

def poolCls (z : Int) (c : Nat) (t : Int) : Option Nat := poolClsLoop 64 z c t

/-- `pool_head`, and the memory once the arena is open. -/
def poolHead (a : Nat) (m : Bytes) (cls : Nat) : Nat × Bytes := (a + 8 + cls * 8, (arenaTop a m).2)

def poolNext (a : Nat) (m : Bytes) (h b z : Nat) : Option (Nat × Bytes) :=
  if b = 0 then memAlloc a m z else some (b, st64 m h (ld64 m b))

def poolTake (a : Nat) (m : Bytes) (cls z : Nat) : Option (Nat × Bytes) :=
  let (h, m) := poolHead a m cls
  poolNext a m h (ld64 m h) z

def poolGive (a : Nat) (m : Bytes) (cls b : Nat) : Bytes :=
  let (h, m) := poolHead a m cls
  let m := st64 m b (ld64 m h)
  st64 m h b

/-- `copy_bytes`, after `d` rounds. -/
def copyBytes (m : Bytes) (src dst : Nat) : Nat → Bytes
  | 0 => m
  | d + 1 =>
    let m := copyBytes m src dst d
    st8 m (dst + d) (m (src + d)).toNat

/-! ## Lists -/

/-- The third field of a header. -/
def listInitCells (a : Nat) (m : Bytes) (p : Nat) : Option Bytes := do
  let (cells, m) ← poolTake a m 1 32
  pure (st64 m (p + 16) cells)

def listInit (a : Nat) (m : Bytes) (p : Nat) : Option Bytes :=
  let m := st64 m p 0
  let m := st64 m (p + 8) 4
  listInitCells a m p

def listNew (a : Nat) (m : Bytes) : Option (Nat × Bytes) := do
  let (p, m) ← poolTake a m 0 24
  let m ← listInit a m p
  pure (p, m)

def listWide (m : Bytes) (p x z : Nat) : Bytes := st64 (st64 m (p + 8) z) (p + 16) x

/-- The old cells copied to `x`, which the header then names. -/
def listGrowCopy (m : Bytes) (p x z src : Nat) : Bytes :=
  listWide (copyBytes m src x (ld64 m p * 8)) p x z

def listGrow (a : Nat) (m : Bytes) (p z : Nat) : Option Bytes := do
  let cls ← poolCls 4 1 (signed z)
  let (x, m) ← poolTake a m cls (z * 8)
  let old := ld64 m (p + 16)
  let m := listGrowCopy m p x z old
  pure (poolGive a m (cls - 1) old)

def listRoom (a : Nat) (m : Bytes) (p : Nat) : Option Bytes :=
  if signed (ld64 m (p + 8)) ≤ signed (ld64 m p) then listGrow a m p (ld64 m (p + 8) * 2 % 2 ^ 64)
  else some m

def listPushWrite (m : Bytes) (p v addr count : Nat) : Bytes :=
  let m := st64 m ((addr + count * 8) % 2 ^ 64) v
  st64 m p (ld64 m p + 1)

def listPushAt (m : Bytes) (p v : Nat) : Bytes := listPushWrite m p v (ld64 m (p + 16)) (ld64 m p)

def listPush (a : Nat) (m : Bytes) (p v : Nat) : Option Bytes := do
  let m ← listRoom a m p
  pure (listPushAt m p v)

def listPopRead (m : Bytes) (p : Nat) : Nat := ld64 m ((ld64 m (p + 16) + ld64 m p * 8) % 2 ^ 64)

/-- The length is decremented first. -/
def listPopAt (m : Bytes) (p : Nat) : Nat × Bytes :=
  let m := st64 m p (ld64 m p + minusOne)
  (listPopRead m p, m)

def listPop (m : Bytes) (p : Nat) : Nat × Bytes := listPopAt m p

def listGive (a : Nat) (m : Bytes) (p : Nat) : Option Bytes := do
  let cap := ld64 m (p + 8)
  let cells := ld64 m (p + 16)
  let cls ← poolCls 4 1 (signed cap)
  let m := poolGive a m cls cells
  let m := st64 m (p + 8) minusOne
  pure (poolGive a m 0 p)

def listFree (a : Nat) (m : Bytes) (p : Nat) : Option Bytes :=
  if p ≠ 0 ∧ 0 < signed (ld64 m (p + 8)) then listGive a m p else some m

/-! ## Cells -/

/-- An address and a signed distance. -/
def addrAdd (x : Nat) (n : Int) : Nat := ((x + n) % 2 ^ 64).toNat

/-- `i * 8` for an `int`. -/
def cellOff (i : Int) : Int := Int.bmod (i * 8) (2 ^ 32)

/-- `list_len`, an `int`. -/
def listLen (m : Bytes) (p : Nat) : Int := Int.bmod (ld64 m p) (2 ^ 32)

def cellAt (m : Bytes) (p : Nat) (i : Int) : Nat := addrAdd (ld64 m (p + 16)) (cellOff i)

def listGet (m : Bytes) (p : Nat) (i : Int) : Nat := ld64 m (cellAt m p i)

def listSet (m : Bytes) (p : Nat) (i : Int) (v : Nat) : Bytes := st64 m (cellAt m p i) v

/-- The rounds of `list_lit_cells` that are left, from `i` on. -/
def listLitLoop (a p cells : Nat) : Nat → Nat → Bytes → Option Bytes
  | 0, _, m => some m
  | k + 1, i, m => do
    let m ← listPush a m p (ld64 m (addrAdd cells (cellOff i)))
    listLitLoop a p cells k (i + 1) m

def listLitCells (a : Nat) (m : Bytes) (n : Int) (cells : Nat) : Option (Nat × Bytes) := do
  let (p, m) ← listNew a m
  let m ← listLitLoop a p cells n.toNat 0 m
  pure (p, m)

def listFreeAt (a : Nat) (m : Bytes) (p k : Nat) : Option Bytes :=
  listFree a m (ld64 m ((ld64 m (p + 16) + 8 * k) % 2 ^ 64))

/-- `list_free_cells`, with at most the given rounds. -/
def listFreeCellsLoop (a p : Nat) : Nat → Nat → Bytes → Option Bytes
  | 0, _, _ => none
  | fuel + 1, k, m =>
    if p ≠ 0 ∧ 0 < signed (ld64 m (p + 8)) ∧ (k : Int) < signed (ld64 m p) then do
      let m ← listFreeAt a m p k
      listFreeCellsLoop a p fuel (k + 1) m
    else some m

/-- A round for each cell, and the one that ends the loop. -/
def listFreeCells (a : Nat) (m : Bytes) (p : Nat) : Option Bytes :=
  listFreeCellsLoop a p (ld64 m p + 1) 0 m

def listFreeDeep (a : Nat) (m : Bytes) (p : Nat) : Option Bytes := do
  let m ← listFreeCells a m p
  listFree a m p

/-! ## Strings -/

/-- `str_csz`: 16, doubled once for each class after 36. -/
def strCszLoop : Nat → Nat → Nat
  | 0, z => z
  | i + 1, z => strCszLoop i (z * 2 % 2 ^ 64)

def strCsz (c : Nat) : Nat := strCszLoop (c - 36) 16

def strBlk (a : Nat) (m : Bytes) (n : Int) : Option (Nat × Bytes) := do
  let c ← poolCls 16 36 (n + 9)
  poolTake a m c (strCsz c)

def strGive (a : Nat) (m : Bytes) (b : Nat) : Option Bytes := do
  let c ← poolCls 16 36 (signed (ld64 m b) + 9)
  pure (poolGive a m c b)

def strFree (a : Nat) (m : Bytes) (s : Nat) : Option Bytes :=
  if s ≠ 0 then strGive a m (s - 8) else some m

/-- `len` of a string, an `int`. -/
def strLen (m : Bytes) (s : Nat) : Int := Int.bmod (ld64 m (s - 8)) (2 ^ 32)

/-- The count and the NUL around copied bytes. -/
def strOfMemAt (m : Bytes) (p n : Nat) : Nat × Bytes := (p + 8, st8 (st64 m p n) (p + 8 + n) 0)

def strOfMem (a : Nat) (m : Bytes) (src n : Nat) : Option (Nat × Bytes) := do
  let (p, m) ← strBlk a m n
  pure (strOfMemAt (copyBytes m src (p + 8) n) p n)

/-- The digits of a magnitude, backwards from `q`; 20 rounds are enough for a word. -/
def numMag : Nat → Bytes → Nat → Nat → Option (Nat × Bytes)
  | 0, m, w, q => if w = 0 then some (q, m) else none
  | fuel + 1, m, w, q =>
    if w ≠ 0 then numMag fuel (st8 m (q - 1) (48 + w % 10)) (w / 10) (q - 1) else some (q, m)

def numZero (m : Bytes) (e : Nat) : Nat × Bytes := (e - 1, st8 m (e - 1) 48)

def numPos (m : Bytes) (w e : Nat) : Option (Nat × Bytes) := do
  let (q, m) ← numMag 20 m w e
  pure (if w = 0 then numZero m e else (q, m))

def numNeg (m : Bytes) (w e : Nat) : Option (Nat × Bytes) := do
  let (q, m) ← numMag 20 m ((2 ^ 64 - w) % 2 ^ 64) e
  pure (q - 1, st8 m (q - 1) 45)

def numStr (m : Bytes) (w e : Nat) : Option (Nat × Bytes) :=
  if signed w < 0 then numNeg m w e else numPos m w e

/-- The digits are copied out of the buffer `p`, which goes back. -/
def strOfWordAt (a : Nat) (m : Bytes) (w p : Nat) : Option (Nat × Bytes) := do
  let (q, m) ← numStr m w (p + 31)
  let (s, m) ← strOfMem a m q (p + 31 - q)
  let c ← poolCls 16 36 32
  pure (s, poolGive a m c p)

def strOfWord (a : Nat) (m : Bytes) (w : Nat) : Option (Nat × Bytes) := do
  let (p, m) ← strBlk a m 23
  strOfWordAt a (st8 m (p + 31) 0) w p

/-- The sum of the lengths is an `int`. -/
def concatAlloc (a : Nat) (m : Bytes) (s r : Nat) : Option (Nat × Bytes) := do
  let lenV := Int.bmod (strLen m s + strLen m r) (2 ^ 32)
  let (p, m) ← strBlk a m lenV
  pure (p, st64 m p (lenV % 2 ^ 64).toNat)

/-- The first string behind the count, and where the second goes. -/
def concatCopy1 (m : Bytes) (s p : Nat) : Nat × Bytes :=
  (addrAdd (p + 8) (strLen m s), copyBytes m s (p + 8) (strLen m s).toNat)

def concatCopy2 (m : Bytes) (r p x : Nat) : Nat × Bytes :=
  (p + 8, st8 (copyBytes m r x (strLen m r).toNat) (addrAdd x (strLen m r)) 0)

def concatAt (m : Bytes) (s r p : Nat) : Nat × Bytes :=
  let (x, m) := concatCopy1 m s p
  concatCopy2 m r p x

def concat (a : Nat) (m : Bytes) (s r : Nat) : Option (Nat × Bytes) := do
  let (p, m) ← concatAlloc a m s r
  pure (concatAt m s r p)

end IdCompiler.Arena

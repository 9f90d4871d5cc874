import IdCompiler.Core.Words

/-!
# The flat store of the hosted runtime

One block of bytes that grows on demand, a high-water mark, and the one check
every access goes through. Addresses and lengths are words of two's complement.
-/

namespace IdCompiler.Hosted

open IdCompiler.Core

/-- The flat store. -/
structure Store where
  /-- `id_store_used`: the high-water mark. -/
  used : Word
  /-- `id_store_cap`: the size of the block. -/
  cap : Word
  /-- The memory from the start of the block on, past its end as well. -/
  byte : Nat → BitVec 8

/-- The store before the first allocation: address 0 is reserved. -/
def Store.fresh (byte : Nat → BitVec 8) : Store := ⟨1, 0, byte⟩

/-! ## Allocation -/

/-- The doubling of `id_store_grow`; a capacity past `2^44` is not doubled. -/
def growTo (need : Word) : Nat → Word → Except String Word
  | 0, _ => .error "store too large"
  | fuel + 1, cap =>
    if cap.slt need then
      if (1#64 <<< 44).slt cap then .error "store too large" else growTo need fuel (cap * 2)
    else .ok cap

/-- The block is made larger: what it held is copied and the rest is zero. `fresh` is the memory
the new block lies in. -/
def idStoreGrow (fresh : Nat → BitVec 8) (need : Word) (s : Store) : Except String Store := do
  let cap ← growTo need 46 (if s.cap = 0 then 65536 else s.cap)
  return { s with
    cap
    byte := fun i =>
      if i < s.cap.toNat then s.byte i else if i < cap.toNat then 0 else fresh i }

/-- A block of `n` bytes, aligned to eight. -/
def idMemAlloc (fresh : Nat → BitVec 8) (n : Word) (s : Store) : Except String (Store × Word) :=
  if n.slt 0 then .error "negative allocation size"
  else
    let base := (s.used + 7) &&& ~~~7#64
    let last := base + n
    if last.slt base then .error "allocation size overflow"
    else do
      let s ← if s.cap.slt last then idStoreGrow fresh last s else pure s
      return ({ s with used := last }, base)

/-- The states any sequence of allocations leads to. -/
inductive Reachable : Store → Prop
  | fresh (byte : Nat → BitVec 8) : Reachable (.fresh byte)
  | alloc {s s' : Store} {n base : Word} {f : Nat → BitVec 8} : Reachable s →
      idMemAlloc f n s = .ok (s', base) → Reachable s'

/-! ## Accesses -/

/-- What an access does: the bytes it touches, `count` of them from the offset `first` on, and
its result. -/
structure Outcome (α : Type) where
  first : Nat
  count : Nat
  result : Except String α

/-- A trap before anything is touched. -/
def Outcome.trap {α : Type} (m : String) : Outcome α := ⟨0, 0, .error m⟩

/-- Only bytes below the high-water mark, and not the one at 0, are touched. -/
def Outcome.Safe {α : Type} (o : Outcome α) (s : Store) : Prop :=
  ∀ k, o.first ≤ k → k < o.first + o.count → 1 ≤ k ∧ (k : Int) < s.used.toInt

/-- The message of a failed check. -/
def rangeText (addr : Word) (s : Store) : String :=
  "store address " ++ toString addr.toInt ++ " out of range (size " ++ toString s.used.toInt ++ ")"

/-- The one check: the offset of `width` bytes at `addr`, handed to `k`. -/
def idAt {α : Type} (s : Store) (addr width : Word) (k : Nat → Outcome α) : Outcome α :=
  if addr.sle 0 || s.used.slt (addr + width) then .trap (rangeText addr s) else k addr.toNat

/-- `n` bytes, the last one highest. -/
def littleEndian (byte : Nat → BitVec 8) (at_ : Nat) : Nat → Word
  | 0 => 0
  | n + 1 => (littleEndian byte (at_ + 1) n) <<< 8 ||| (byte at_).setWidth 64

/-- A load of `width` bytes. -/
def idPeekN (s : Store) (addr : Word) (width : Nat) : Outcome Word :=
  idAt s addr (BitVec.ofNat 64 width) fun p => ⟨p, width, .ok (littleEndian s.byte p width)⟩

/-- A store of the low `width` bytes of a value. -/
def idPokeN (s : Store) (addr value : Word) (width : Nat) : Outcome Store :=
  idAt s addr (BitVec.ofNat 64 width) fun p => ⟨p, width, .ok { s with
    byte := fun i =>
      if p ≤ i ∧ i < p + width then (value >>> (8 * (i - p))).setWidth 8 else s.byte i }⟩

/-- `n` bytes at `addr` as a native sees them: the native may touch all of them. -/
def idStoreSpan (s : Store) (addr n : Word) : Outcome Nat :=
  if n.slt 0 then .trap "negative length" else idAt s addr n fun p => ⟨p, n.toNat, .ok p⟩

/-- `memchr` for a NUL: how many bytes come before the first. -/
def memchr (byte : Nat → BitVec 8) (at_ : Nat) : Nat → Option Nat
  | 0 => none
  | n + 1 => if byte at_ = 0 then some 0 else (memchr byte (at_ + 1) n).map (· + 1)

/-- The text of the trap on a NUL. -/
def nulText : String :=
  "a NUL byte reached a string (str_of_mem): use idstd stdio_slurp or stdio_read_mem, or the store (fs_read_mem), for binary data"

/-- `n` bytes from an offset on, with no NUL among them. -/
def strAt (s : Store) (n p : Nat) : Outcome (List (BitVec 8)) :=
  match memchr s.byte p n with
  | some k => ⟨p, k + 1, .error nulText⟩
  | none => ⟨p, n, .ok ((List.range n).map fun i => s.byte (p + i))⟩

/-- `n` bytes as a string; a NUL among them traps once the search has come to it. -/
def idStrOfMem (s : Store) (addr n : Word) : Outcome (List (BitVec 8)) :=
  if n.slt 0 then .trap "negative length" else idAt s addr n (strAt s n.toNat)

/-- `n` bytes as a buffer of their own. -/
def idBytesOfMemory (s : Store) (addr : Word) (n : BitVec 32) : Outcome (List (BitVec 8)) :=
  if n.slt 0 then .trap "bytes_of_memory: length out of range"
  else idAt s addr (n.signExtend 64) fun p =>
    ⟨p, n.toNat, .ok ((List.range n.toNat).map fun i => s.byte (p + i))⟩

/-- The loads and stores of a program, and the spans of the store that leave it. -/
inductive Access
  | peek8 (a : Word)
  | peek16 (a : Word)
  | peek32 (a : Word)
  | peek64 (a : Word)
  | poke8 (a v : Word)
  | poke16 (a v : Word)
  | poke32 (a v : Word)
  | poke64 (a v : Word)
  | peek8s (a : Word)
  | peek16s (a : Word)
  | peek32s (a : Word)
  | peek8u (a : Word)
  | peek16u (a : Word)
  | peek32u (a : Word)
  | storeSpan (a n : Word)
  | strOfMem (a n : Word)
  | bytesOfMemory (a : Word) (n : BitVec 32)

/-- What an access gives back. -/
inductive Got
  | word (v : Word)
  | store (s : Store)
  | offset (p : Nat)
  | text (cs : List (BitVec 8))

def Outcome.map {α β : Type} (f : α → β) (o : Outcome α) : Outcome β :=
  ⟨o.first, o.count, o.result.map f⟩

def Access.run (s : Store) : Access → Outcome Got
  | .peek8 a | .peek8u a => (idPeekN s a 1).map .word
  | .peek16 a | .peek16u a => (idPeekN s a 2).map .word
  | .peek32 a | .peek32u a => (idPeekN s a 4).map .word
  | .peek64 a => (idPeekN s a 8).map .word
  | .poke8 a v => (idPokeN s a v 1).map .store
  | .poke16 a v => (idPokeN s a v 2).map .store
  | .poke32 a v => (idPokeN s a v 4).map .store
  | .poke64 a v => (idPokeN s a v 8).map .store
  | .peek8s a => (idPeekN s a 1).map fun v => .word ((v.setWidth 8).signExtend 64)
  | .peek16s a => (idPeekN s a 2).map fun v => .word ((v.setWidth 16).signExtend 64)
  | .peek32s a => (idPeekN s a 4).map fun v => .word ((v.setWidth 32).signExtend 64)
  | .storeSpan a n => (idStoreSpan s a n).map .offset
  | .strOfMem a n => (idStrOfMem s a n).map .text
  | .bytesOfMemory a n => (idBytesOfMemory s a n).map .text

/-- The address of an access. -/
def Access.addr : Access → Word
  | .peek8 a | .peek16 a | .peek32 a | .peek64 a | .poke8 a _ | .poke16 a _ | .poke32 a _
  | .poke64 a _ | .peek8s a | .peek16s a | .peek32s a | .peek8u a | .peek16u a | .peek32u a
  | .storeSpan a _ | .strOfMem a _ | .bytesOfMemory a _ => a

/-- How many bytes an access asks for. -/
def Access.length : Access → Int
  | .peek8 _ | .poke8 .. | .peek8s _ | .peek8u _ => 1
  | .peek16 _ | .poke16 .. | .peek16s _ | .peek16u _ => 2
  | .peek32 _ | .poke32 .. | .peek32s _ | .peek32u _ => 4
  | .peek64 _ | .poke64 .. => 8
  | .storeSpan _ n | .strOfMem _ n => n.toInt
  | .bytesOfMemory _ n => n.toInt

/-- The access is a search for a NUL that finds one below the high-water mark. -/
def Access.Stops (s : Store) : Access → Prop
  | .strOfMem a _ => ∃ k, a.toNat ≤ k ∧ (k : Int) < s.used.toInt ∧ s.byte k = 0
  | _ => False

/-- The sum the check makes is the address after the last byte: it stays in the signed range, or
the address or the length is refused before it counts, or the search stops in time. -/
def Access.Fits (s : Store) (a : Access) : Prop :=
  a.addr.toInt ≤ 0 ∨ a.length < 0 ∨ a.addr.toInt + a.length < 2 ^ 63 ∨ a.Stops s

end IdCompiler.Hosted

import Mathlib.Order.CompleteBooleanAlgebra
import Mathlib.Order.Fin.Basic
import Mathlib.Data.Fintype.Pi
import Mathlib.Data.Fintype.Sum

/-!
# Escape summaries computed on demand

A function's summary is asked for by name and remembered. A function that calls
itself, directly or through others, is computed by repeating its body until no
mask grows; one that read a function still running above it is put by until
that function is done. The tables are those of `esc_init`; the call stack of the
computation is carried beside them, since the depth a function waits on names a
place on it.
-/

namespace IdCompiler.Escape

/-- A summary: one bit for each place of the 32-bit mask; `|` is the join. -/
abbrev Mask := Fin 32 → Bool

/-- How far a function's summary has got, `esc_st`. -/
inductive Status
  /-- `0`: not started. -/
  | unstarted
  /-- `1`: running. -/
  | running
  /-- `2`: finished, but waiting on a function still running. -/
  | waiting
  /-- `3`: final. -/
  | final
  deriving DecidableEq, Repr

/-- The functions of a program as the analysis sees them. -/
structure Prog (n : Nat) where
  /-- The mask of a function whose body cannot be read (`esc_native_mask`). -/
  native : Fin n → Option Mask
  /-- The names a body asks about, in the order of the walk; `none` is no function. -/
  calls : Fin n → List (Option (Fin n))
  /-- What the body makes of the answers: `esc_params` and `esc_nf` together. -/
  sum : Fin n → List Mask → Mask

/-- One running call of `esc_scc`: its function and its local `emk`. -/
structure Frame (n : Nat) where
  ix : Fin n
  /-- How many functions were waiting when the call began. -/
  emk : Nat
  deriving DecidableEq

/-- The tables of the analysis. -/
structure State (n : Nat) where
  /-- The masks so far, `esc_pe`. -/
  pe : Fin n → Mask
  st : Fin n → Status
  /-- The depth a function runs at, or the shallowest running one it waits on, `esc_dp`. -/
  dp : Fin n → Nat
  /-- The functions waiting, last come last, `esc_mem`. -/
  mem : List (Fin n)
  /-- The depth now, `esc_fx[0]`. -/
  depth : Nat
  /-- The shallowest running function this pass has read, `esc_fx[1]`. -/
  low : Nat
  /-- How many masks have grown, `esc_fx[2]`. -/
  grown : Nat
  /-- Not in the program: whether a waiting function was read after the call it waits on had
  returned. Nothing below reads it. -/
  stale : Bool

variable {n : Nat}

/-- The tables as `esc_init` and `esc_seed` leave them. -/
def escInit (n : Nat) : State n where
  pe := fun _ => ⊥
  st := fun _ => .unstarted
  dp := fun _ => 0
  mem := []
  depth := 0
  low := 1000000
  grown := 0
  stale := false

/-- A waiting function was put by during the call now running at the depth it waits on:
that call began before the function joined the waiting list. -/
def waitsOnRunning (frames : List (Frame n)) (s : State n) (ix : Fin n) : Bool :=
  match frames[s.dp ix]? with
  | some f => decide (f.emk ≤ s.mem.idxOf ix)
  | none => false

/-- Reading a function already started: one not final lowers the pass's depth to its own. -/
def escLow (frames : List (Frame n)) (ix : Fin n) (s : State n) : State n :=
  { s with
    low := if s.st ix ≠ .final ∧ s.dp ix < s.low then s.dp ix else s.low
    stale := s.stale || (decide (s.st ix = .waiting) && !waitsOnRunning frames s ix) }

/-- A function by index: computed when not started, else read as it stands. -/
def escMaskAt (compute : Fin n → State n → Option (State n)) (frames : List (Frame n))
    (ix : Fin n) (s : State n) : Option (State n × Mask) :=
  if s.st ix = .unstarted then (compute ix s).map fun s' => (s', s'.pe ix)
  else some (escLow frames ix s, (escLow frames ix s).pe ix)

/-- A function by name: one that is no function answers every bit. -/
def escMask (compute : Fin n → State n → Option (State n)) (frames : List (Frame n)) :
    Option (Fin n) → State n → Option (State n × Mask)
  | none, s => some (s, ⊤)
  | some ix, s => escMaskAt compute frames ix s

/-- Names asked about in turn, with the answers. -/
def escAskAll (ask : Option (Fin n) → State n → Option (State n × Mask)) :
    List (Option (Fin n)) → State n → Option (State n × List Mask)
  | [], s => some (s, [])
  | c :: cs, s =>
    (ask c s).bind fun r => (escAskAll ask cs r.1).map fun q => (q.1, r.2 :: q.2)

/-- The summary of a body with the masks as they stand. -/
def escSummary (p : Prog n) (ask : Option (Fin n) → State n → Option (State n × Mask))
    (ix : Fin n) (s : State n) : Option (State n × Mask) :=
  (escAskAll ask (p.calls ix) s).map fun r => (r.1, p.sum ix r.2)

/-- A summary ored into a function's mask, counted when it grew. -/
def escJoin (ix : Fin n) (m : Mask) (s : State n) : State n :=
  if s.pe ix ⊔ m ≠ s.pe ix then
    { s with pe := Function.update s.pe ix (s.pe ix ⊔ m), grown := s.grown + 1 }
  else s

/-- Every function waiting above the first `emk` is taken off the list and given a status. -/
def escDrain (emk : Nat) (edv : Status) (s : State n) : State n :=
  { s with
    mem := s.mem.take emk
    st := fun k => if k ∈ s.mem.drop emk then edv else s.st k }

/-- Another pass is needed when this function heads its cycle, some mask grew, and the pass
read a running function: then those that wait on it start again. -/
def escAgain (esd emk ecg : Nat) (s : State n) : State n × Bool :=
  if esd ≤ s.low ∧ s.grown ≠ ecg ∧ (s.low = esd ∨ emk < s.mem.length) then
    (escDrain emk .unstarted s, true)
  else (s, false)

/-- One pass over a body. -/
def escPass (p : Prog n) (ask : Option (Fin n) → State n → Option (State n × Mask))
    (ix : Fin n) (esd emk : Nat) (s : State n) : Option (State n × Bool) :=
  (escSummary p ask ix { s with low := 1000000 }).map fun r =>
    escAgain esd emk s.grown (escJoin ix r.2 r.1)

/-- Passes until none is needed. The first number bounds how many. -/
def escIter (p : Prog n) (ask : Option (Fin n) → State n → Option (State n × Mask))
    (ix : Fin n) (esd emk : Nat) : Nat → State n → Option (State n)
  | 0, _ => none
  | k + 1, s =>
    (escPass p ask ix esd emk s).bind fun r =>
      if r.2 then escIter p ask ix esd emk k r.1 else some r.1

/-- A function starts to run. -/
def escOpen (ix : Fin n) (esd : Nat) (s : State n) : State n :=
  { s with
    st := Function.update s.st ix .running
    dp := Function.update s.dp ix esd
    depth := esd + 1 }

/-- A function that read a running one above it waits for it. -/
def escDefer (ix : Fin n) (elo esv : Nat) (s : State n) : State n :=
  { s with
    st := Function.update s.st ix .waiting
    dp := Function.update s.dp ix elo
    mem := s.mem ++ [ix]
    low := if elo < esv then elo else esv }

/-- A function that did not is final, and so is every function that waited only on it. -/
def escSeal (ix : Fin n) (emk esv : Nat) (s : State n) : State n :=
  { escDrain emk .final { s with st := Function.update s.st ix .final } with low := esv }

/-- The end of a function's run. -/
def escClose (ix : Fin n) (esd esv emk : Nat) (s : State n) : State n :=
  if s.low < esd then escDefer ix s.low esv { s with depth := esd }
  else escSeal ix emk esv { s with depth := esd }

/-- A function whose body cannot be read is final at once. -/
def escFinal (ix : Fin n) (m : Mask) (s : State n) : State n :=
  { s with pe := Function.update s.pe ix m, st := Function.update s.st ix .final }

/-- Compute one function's summary. The first number bounds the recursion and the passes. -/
def escCompute (p : Prog n) : Nat → List (Frame n) → Fin n → State n → Option (State n)
  | 0, _, _, _ => none
  | fuel + 1, frames, ix, s =>
    match p.native ix with
    | some m => some (escFinal ix m s)
    | none =>
      let frames' := frames ++ [⟨ix, s.mem.length⟩]
      (escIter p (escMask (escCompute p fuel frames') frames') ix s.depth s.mem.length fuel
        (escOpen ix s.depth s)).map (escClose ix s.depth s.low s.mem.length)

/-- A query from outside any walk. -/
def escQuery (p : Prog n) (fuel : Nat) : Option (Fin n) → State n → Option (State n × Mask) :=
  escMask (escCompute p fuel []) []

/-- A sequence of queries, with the answers. -/
def escQueries (p : Prog n) (fuel : Nat) (qs : List (Option (Fin n))) (s : State n) :
    Option (State n × List Mask) :=
  escAskAll (escQuery p fuel) qs s

end IdCompiler.Escape

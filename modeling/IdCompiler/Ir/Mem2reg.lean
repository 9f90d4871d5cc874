import IdCompiler.Ir.Edits

/-!
# Stack slots become values

`op_mem2reg` after `op_preds`. Every slot gets a phi in every block but the
entry; a walk over the blocks replaces each load of a slot by the value the slot
holds there and drops each store to one; the phis are filled with what the
predecessors left; and phis that turned out to be one value are that value,
sweep after sweep, until no sweep drops one.
-/

namespace IdCompiler.Ir

/-! ## Tables -/

/-- The store, the slots, and for each place in `fnblk` and each slot its phi and the value the
slot is left with. -/
structure Mem where
  ir : Rows
  pra : List Nat
  phiof : Nat → Nat → Int
  outv : Nat → Nat → Int

/-- A table with one cell set. -/
def setCell (t : Nat → Nat → Int) (i j : Nat) (v : Int) : Nat → Nat → Int :=
  Function.update t i (Function.update (t i) j v)

/-- `list_index_of`: the first place of a value, or -1. -/
def listIndexOf (l : List Int) (v : Int) : Int := if v ∈ l then l.idxOf v else -1

/-- `m2r_collect`: the slots are the allocas of the entry block, in order. -/
def m2rCollect (ir : Rows) (f : Nat) : List Nat :=
  match ir.fnblk f with
  | [] => []
  | b :: _ => (ir.binsn b).filter fun id => ir.iop id = "alloca"

/-- `m2r_init`: blank rows for every block. -/
def m2rInit (ir : Rows) (f : Nat) : Mem :=
  { ir := ir, pra := m2rCollect ir f, phiof := fun _ _ => 0 - 1, outv := fun _ _ => 0 - 1 }

/-- The type of the `j`th slot. -/
def Mem.slotTy (m : Mem) (j : Nat) : String := m.ir.ity (m.pra.getD j 0)

/-! ## Phis -/

/-- `m2r_swap` -/
def m2rSwap (l : List Nat) (i : Nat) : List Nat :=
  (l.set i (l.getD (i - 1) 0)).set (i - 1) (l.getD i 0)

/-- `m2r_shift` -/
def m2rShift (l : List Nat) : Nat → List Nat
  | 0 => l
  | i + 1 => m2rShift (m2rSwap l (i + 1)) i

/-- `m2r_phi_make` -/
def m2rPhiMake (m : Mem) (i j : Nat) : Mem :=
  { m with
    ir := irLeaf m.ir "phi" (m.slotTy j) (0 - 1) (0 - 1) ""
    phiof := setCell m.phiof i j m.ir.size }

/-- `m2r_phi_place`: appended to the block and shifted to its front. -/
def m2rPhiPlace (m : Mem) (b ph : Nat) : Mem :=
  { m with ir := { m.ir with
    binsn := Function.update m.ir.binsn b (m2rShift (m.ir.binsn b ++ [ph]) (m.ir.binsn b).length)
    ihome := Function.update m.ir.ihome ph b } }

/-- `m2r_phi_one` -/
def m2rPhiOne (i b : Nat) (m : Mem) (j : Nat) : Mem :=
  m2rPhiPlace (m2rPhiMake m i j) b m.ir.size

/-- `m2r_phi_blk` -/
def m2rPhiBlk (i b : Nat) (m : Mem) : Mem :=
  (List.range m.pra.length).foldl (m2rPhiOne i b) m

/-- The loop of `m2r_phis`, over the blocks from place `i` on. -/
def m2rPhisFrom : Nat → List Nat → Mem → Mem
  | _, [], m => m
  | i, b :: bs, m => m2rPhisFrom (i + 1) bs (m2rPhiBlk i b m)

/-- `m2r_phis` -/
def m2rPhis (m : Mem) (f : Nat) : Mem := m2rPhisFrom 1 (m.ir.fnblk f).tail m

/-! ## The walk -/

/-- `m2r_in`: in the entry block a new undefined value, else the phi. -/
def m2rIn (m : Mem) (i j : Nat) : Int × Mem :=
  if i = 0 then
    (m.ir.size, { m with ir := irLeaf m.ir "const" (m.slotTy j) (0 - 1) (0 - 1) "undef" })
  else (m.phiof i j, m)

/-- `m2r_seed1` -/
def m2rSeed1 (i : Nat) (m : Mem) (j : Nat) : Mem :=
  let t := m2rIn m i j
  { t.2 with outv := setCell t.2.outv i j t.1 }

/-- `m2r_seed` -/
def m2rSeed (i : Nat) (m : Mem) : Mem := (List.range m.pra.length).foldl (m2rSeed1 i) m

/-- `m2r_drop` -/
def m2rDrop (m : Mem) (f id : Nat) (v : Int) : Mem :=
  { m with ir := irKill (opRauw m.ir f id v) id }

/-- Which slot an address is, or -1. -/
def Mem.slotOf (m : Mem) (a : Int) : Int := listIndexOf (m.pra.map Int.ofNat) a

/-- `m2r_load` -/
def m2rLoad (m : Mem) (f id i : Nat) : Mem :=
  if 0 ≤ m.slotOf (m.ir.ia id) then m2rDrop m f id (m.outv i (m.slotOf (m.ir.ia id)).toNat) else m

/-- `m2r_kept` -/
def m2rKept (m : Mem) (id i j : Nat) : Mem :=
  { m with ir := irKill m.ir id, outv := setCell m.outv i j (m.ir.ib id) }

/-- `m2r_store` -/
def m2rStore (m : Mem) (id i : Nat) : Mem :=
  if 0 ≤ m.slotOf (m.ir.ia id) then m2rKept m id i (m.slotOf (m.ir.ia id)).toNat else m

/-- `m2r_step` -/
def m2rStep (f i : Nat) (m : Mem) (id : Nat) : Mem :=
  if m.ir.iop id = "load" then m2rLoad m f id i
  else if m.ir.iop id = "store" then m2rStore m id i
  else m

/-- `m2r_blk`: the walk changes no block's list. -/
def m2rBlk (f i b : Nat) (m : Mem) : Mem :=
  ((m2rSeed i m).ir.binsn b).foldl (m2rStep f i) (m2rSeed i m)

/-- `m2r_walk`, over the blocks from place `i` on. -/
def m2rWalk (f : Nat) : Nat → List Nat → Mem → Mem
  | _, [], m => m
  | i, b :: bs, m => m2rWalk f (i + 1) bs (m2rBlk f i b m)

/-! ## Filling -/

/-- `m2r_pos` -/
def m2rPos (ir : Rows) (f b : Nat) : Int := listIndexOf ((ir.fnblk f).map Int.ofNat) b

/-- `m2r_inc_at`: one incoming edge, in the list of values and in that of blocks. -/
def m2rIncAt (f ph j : Nat) (m : Mem) (pb : Nat) : Mem :=
  { m with ir := { m.ir with
    ilist := Function.update m.ir.ilist ph (m.ir.ilist ph ++ [m.outv (m2rPos m.ir f pb).toNat j])
    iblk := Function.update m.ir.iblk ph (m.ir.iblk ph ++ [pb]) } }

/-- `m2r_incs`: one edge for each predecessor. -/
def m2rIncs (m : Mem) (f b ph j : Nat) : Mem := (m.ir.bpred b).foldl (m2rIncAt f ph j) m

/-- `m2r_fill_b` -/
def m2rFillB (f i b : Nat) (m : Mem) : Mem :=
  (List.range m.pra.length).foldl (fun m j => m2rIncs m f b (m.phiof i j).toNat j) m

/-- `m2r_fill`, over the blocks from place `i` on. -/
def m2rFill (f : Nat) : Nat → List Nat → Mem → Mem
  | _, [], m => m
  | i, b :: bs, m => m2rFill f (i + 1) bs (m2rFillB f i b m)

/-! ## Collapsing -/

/-- `m2r_pick` -/
def m2rPick (id : Nat) (v x : Int) : Int :=
  if x = id ∨ x = v then v else if v = 0 - 1 then x else 0 - 2

/-- `m2r_same`: the one value a phi is, -1 for none yet and -2 for several. -/
def m2rSame (ir : Rows) (id : Nat) : Int := (ir.ilist id).foldl (m2rPick id) (0 - 1)

/-- `m2r_try`, with the number of phis dropped so far. -/
def m2rTry (f : Nat) (s : Mem × Nat) (id : Nat) : Mem × Nat :=
  if s.1.ir.iop id = "phi" ∧ 0 ≤ m2rSame s.1.ir id then
    (m2rDrop s.1 f id (m2rSame s.1.ir id), s.2 + 1)
  else s

/-- `m2r_sweep_b` -/
def m2rSweepB (f : Nat) (s : Mem × Nat) (b : Nat) : Mem × Nat :=
  (s.1.ir.binsn b).foldl (m2rTry f) s

/-- `m2r_sweep` from the first block on. -/
def m2rSweep (m : Mem) (f : Nat) : Mem × Nat := (m.ir.fnblk f).foldl (m2rSweepB f) (m, 0)

/-- The loop of `m2r_clean`, with `n` from the sweep before. -/
def m2rCleanLoop (f : Nat) : Nat → Nat → Mem → Option Mem
  | 0, _, _ => none
  | fuel + 1, n, m => if 0 < n then m2rCleanLoop f fuel (m2rSweep m f).2 (m2rSweep m f).1 else some m

/-- `m2r_clean`: one sweep more than there are instructions is enough. -/
def m2rClean (m : Mem) (f : Nat) : Option Mem := m2rCleanLoop f (live m.ir f + 2) 1 m

/-! ## The pass -/

/-- The pass up to the sweeps. -/
def m2rFilled (ir : Rows) (f : Nat) : Mem :=
  let m := m2rWalk f 0 (ir.fnblk f) (m2rPhis (m2rInit ir f) f)
  m2rFill f 1 (ir.fnblk f).tail m

/-- `op_mem2reg`, with the slots gone at the end. -/
def opMem2reg (ir : Rows) (f : Nat) : Option Rows :=
  (m2rClean (m2rFilled ir f) f).map fun m => m.pra.foldl irKill m.ir

end IdCompiler.Ir

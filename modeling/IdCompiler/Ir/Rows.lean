import Mathlib.Data.List.Basic
import Mathlib.Logic.Function.Basic

/-!
# The instruction store

The columns of the store: an instruction is a row, its id is the row's index
and also the id of the value it computes, and an operand is the id of a value,
with -1 for none. A column is read at an id and never runs out.
-/

namespace IdCompiler.Ir

/-- The columns of the instructions, of the blocks and of the functions. -/
structure Rows where
  /-- How many rows there are. -/
  size : Nat
  iop : Nat → String
  ity : Nat → String
  ia : Nat → Int
  ib : Nat → Int
  istr : Nat → String
  /-- The auxiliary values: a call's arguments, a phi's incoming values. -/
  ilist : Nat → List Int
  /-- The blocks: a terminator's targets, where a phi's values come from. -/
  iblk : Nat → List Nat
  ihome : Nat → Int
  binsn : Nat → List Nat
  bpred : Nat → List Nat
  fnblk : Nat → List Nat

/-- `ir_kill`: a row that prints as nothing, with its operands kept. -/
def irKill (ir : Rows) (id : Nat) : Rows :=
  { ir with iop := Function.update ir.iop id "nop", ity := Function.update ir.ity id "" }

/-- `irnoeff`: what may not be removed for having no users. -/
def irnoeff : List String := ["store", "call", "ret", "br", "cbr", "nop", "param"]

/-- One instruction, all its columns that say what it does. -/
structure Row where
  id : Nat
  op : String
  ty : String
  a : Int
  b : Int
  str : String
  list : List Int
  blk : List Nat

def Rows.row (ir : Rows) (id : Nat) : Row :=
  ⟨id, ir.iop id, ir.ity id, ir.ia id, ir.ib id, ir.istr id, ir.ilist id, ir.iblk id⟩

/-- All instructions of a function, block by block. -/
def insns (ir : Rows) (f : Nat) : List Nat := (ir.fnblk f).flatMap ir.binsn

/-- How many of them are left. -/
def live (ir : Rows) (f : Nat) : Nat := ((insns ir f).filter fun id => ir.iop id ≠ "nop").length

variable {ir : Rows} {f id x : Nat}

@[simp]
theorem irKill_iop_self : (irKill ir id).iop id = "nop" := Function.update_self ..

theorem irKill_iop_of_ne (h : x ≠ id) : (irKill ir id).iop x = ir.iop x := Function.update_of_ne h ..

/-- The other rows stay as they are. -/
theorem irKill_row_of_ne (h : x ≠ id) : (irKill ir id).row x = ir.row x := by
  rw [Rows.row, Rows.row, irKill_iop_of_ne h]
  congr 1
  exact Function.update_of_ne h ..

theorem mem_insns : id ∈ insns ir f ↔ ∃ b ∈ ir.fnblk f, id ∈ ir.binsn b := List.mem_flatMap

/-- An instruction that is killed is one less. -/
theorem live_irKill_lt (hid : id ∈ insns ir f) (hop : ir.iop id ≠ "nop") :
    live (irKill ir id) f < live ir f := by
  have hsame : insns (irKill ir id) f = insns ir f := rfl
  have hfilter : (insns ir f).filter (fun x => (irKill ir id).iop x ≠ "nop") =
      ((insns ir f).filter fun x => ir.iop x ≠ "nop").filter fun x => x ≠ id := by
    rw [List.filter_filter]
    apply List.filter_congr
    intro x _
    by_cases hx : x = id
    · simp [hx]
    · simp [hx, irKill_iop_of_ne hx]
  rw [live, live, hsame, hfilter, List.length_filter_lt_length_iff_exists]
  exact ⟨id, List.mem_filter.mpr ⟨hid, by simpa using hop⟩, by simp⟩

end IdCompiler.Ir

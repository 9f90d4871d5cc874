import Mathlib.Data.List.Basic
import Mathlib.Data.Nat.ModEq
import Mathlib.Logic.Function.Basic

/-!
# Circular windows

A window of consecutive cells of a circle of `cap` cells, read in order from its
first cell. Writing the cell after the last makes it longer by one value at the
end; leaving its first cell drops one value at the front. The cells hold values
of any type and nothing here names a program.
-/

namespace IdCompiler.Core

variable {α : Type*}

/-- The cell `k` places after the cell `head`. -/
def ringCell (cap head k : Nat) : Nat := (head + k) % cap

/-- The `n` values in the circle from the cell `head` on. -/
def window (cell : Nat → α) (cap head n : Nat) : List α :=
  (List.range n).map fun k => cell (ringCell cap head k)

namespace Ring

variable {cell : Nat → α} {cap head n k : Nat}

theorem ringCell_lt (h : 0 < cap) : ringCell cap head k < cap := Nat.mod_lt _ h

theorem ringCell_zero (h : head < cap) : ringCell cap head 0 = head := Nat.mod_eq_of_lt h

/-- One place further from the cell before. -/
theorem ringCell_next : ringCell cap (ringCell cap head 1) k = ringCell cap head (k + 1) := by
  simp only [ringCell, Nat.mod_add_mod]
  congr 1
  omega

/-- Two places less than a whole turn apart are two cells. -/
theorem ringCell_ne (hk : k < n) (hn : n < cap) : ringCell cap head k ≠ ringCell cap head n := by
  intro heq
  have hmod : k % cap = n % cap := Nat.ModEq.add_left_cancel' head heq
  rw [Nat.mod_eq_of_lt (by omega), Nat.mod_eq_of_lt hn] at hmod
  omega

@[simp]
theorem window_zero : window cell cap head 0 = [] := rfl

@[simp]
theorem window_length : (window cell cap head n).length = n := by simp [window]

/-- The last value is apart from the ones before it. -/
theorem window_succ : window cell cap head (n + 1) =
    window cell cap head n ++ [cell (ringCell cap head n)] := by
  simp [window, List.range_succ]

/-- The first value is apart from the ones after it. -/
theorem window_first (h : head < cap) : window cell cap head (n + 1) =
    cell head :: window cell cap (ringCell cap head 1) n := by
  simp only [window, List.range_succ_eq_map, List.map_cons, List.map_map, ringCell_zero h]
  congr 1
  apply List.map_congr_left
  intro k _
  rw [Function.comp_apply, ringCell_next]

/-- A write outside the window is not seen in it. -/
theorem window_update {v : α} {i : Nat} (h : ∀ k < n, ringCell cap head k ≠ i) :
    window (Function.update cell i v) cap head n = window cell cap head n := by
  apply List.map_congr_left
  intro k hk
  exact Function.update_of_ne (h k (List.mem_range.mp hk)) v cell

/-- A value written after the last one of a window that is not full is its new last. -/
theorem window_push {v : α} (h : n < cap) :
    window (Function.update cell (ringCell cap head n) v) cap head (n + 1) =
      window cell cap head n ++ [v] := by
  rw [window_succ, window_update fun k hk => ringCell_ne hk h, Function.update_self]

end Ring

end IdCompiler.Core

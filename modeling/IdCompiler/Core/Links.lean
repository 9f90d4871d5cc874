import IdCompiler.Core.Bytes

/-!
# Linked blocks

A list of blocks in a memory, each block's first word the address of the next and the
last one's 0. The list is read off the memory by its links alone. Nothing here names a
program.
-/

namespace IdCompiler.Core

/-- The blocks that start at `x`, in order. -/
def Links (m : Bytes) (x : Nat) : List Nat → Prop
  | [] => x = 0
  | b :: l => x = b ∧ b ≠ 0 ∧ Links m (m.load b 8) l

namespace Links

variable {m m' : Bytes} {x b : Nat} {l : List Nat}

/-- A memory with the same links holds the same list. -/
theorem transport (h : Links m x l) (hm : ∀ b ∈ l, m'.load b 8 = m.load b 8) : Links m' x l := by
  induction l generalizing x with
  | nil => exact h
  | cons b l ih =>
    obtain ⟨rfl, hne, hrest⟩ := h
    refine ⟨rfl, hne, ?_⟩
    rw [hm x List.mem_cons_self]
    exact ih hrest fun c hc => hm c (List.mem_cons_of_mem x hc)

/-- The first block of a list that does not start with 0. -/
theorem exists_cons (h : Links m x l) (hx : x ≠ 0) :
    ∃ t, l = x :: t ∧ Links m (m.load x 8) t := by
  cases l with
  | nil => exact absurd h hx
  | cons b t =>
    obtain ⟨rfl, -, ht⟩ := h
    exact ⟨t, rfl, ht⟩

theorem eq_nil (h : Links m 0 l) : l = [] := by
  cases l with
  | nil => rfl
  | cons b t => exact absurd h.1.symm h.2.1

/-- A memory holds one list from an address on. -/
theorem unique {k : List Nat} (h : Links m x l) (hk : Links m x k) : l = k := by
  induction l generalizing x k with
  | nil =>
    rw [h] at hk
    exact hk.eq_nil.symm
  | cons b l ih =>
    obtain ⟨rfl, hne, hrest⟩ := h
    obtain ⟨t, rfl, ht⟩ := hk.exists_cons hne
    rw [ih hrest ht]

end Links

end IdCompiler.Core

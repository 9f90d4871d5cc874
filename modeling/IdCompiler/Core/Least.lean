import Mathlib.Order.FixedPoints
import Mathlib.Order.CompleteBooleanAlgebra
import Mathlib.Data.Fintype.Card
import Mathlib.Data.Fintype.Prod
import Mathlib.Order.CompletePartialOrder

/-!
# Least solutions of local monotone systems

A system gives every unknown a value computed from the values of the unknowns it
depends on. A part of the unknowns that depends on nothing outside it, solved
and below every solution, holds the least solution there. Nothing here names a
program.
-/

namespace IdCompiler.Core

variable {ι L : Type*} [CompleteLattice L]

/-- A monotone system whose value at a point reads only the points it depends on. -/
structure System (ι L : Type*) [CompleteLattice L] where
  /-- `dep k c`: the value at `k` reads the value at `c`. -/
  dep : ι → ι → Prop
  eval : (ι → L) →o (ι → L)
  eval_congr : ∀ {x y : ι → L} {k : ι}, (∀ c, dep k c → x c = y c) → eval x k = eval y k

/-- Every unknown is at least what the system makes of the others. -/
def System.Solves (e : System ι L) (x : ι → L) : Prop :=
  ∀ k, e.eval x k ≤ x k

/-- The least solution. -/
def System.least (e : System ι L) : ι → L :=
  OrderHom.lfp e.eval

/-- The least solution is a solution below every other. -/
theorem System.least_isLeast (e : System ι L) : IsLeast {x | e.Solves x} e.least :=
  ⟨fun k => (OrderHom.map_lfp e.eval).le k, fun _ hx => OrderHom.lfp_le e.eval fun k => hx k⟩

/-- Where a dependency-closed part is solved and stays below every solution, it is the least
solution. -/
theorem System.eq_least_on (e : System ι L) {x : ι → L} {S : ι → Prop}
    (hclosed : ∀ k c, S k → e.dep k c → S c) (hsolved : ∀ k, S k → e.eval x k ≤ x k)
    (hbelow : ∀ y, e.Solves y → x ≤ y) {k : ι} (hk : S k) : x k = e.least k := by
  classical
  refine le_antisymm (hbelow _ e.least_isLeast.1 k) ?_
  -- the part as it stands and everything elsewhere is a solution of the whole system
  let y : ι → L := fun c => if S c then x c else ⊤
  have hy : e.Solves y := by
    intro c
    by_cases hc : S c
    · have hloc : e.eval y c = e.eval x c :=
        e.eval_congr fun d hd => if_pos (hclosed c d hc hd)
      rw [hloc]
      exact (hsolved c hc).trans (if_pos hc).ge
    · exact le_top.trans (if_neg hc).ge
  exact (e.least_isLeast.2 hy k).trans (if_pos hk).le

section Height

variable {κ : Type*} [Fintype ι] [Fintype κ]

/-- The number of bits set in a family of masks. -/
def height (x : ι → κ → Bool) : Nat :=
  (Finset.univ.filter fun q : ι × κ => x q.1 q.2 = true).card

/-- No family has more bits than there are places. -/
theorem height_le (x : ι → κ → Bool) : height x ≤ Fintype.card ι * Fintype.card κ := by
  rw [← Fintype.card_prod]
  exact Finset.card_le_univ _

/-- A family that only gains bits has at least as many. -/
theorem height_mono {x y : ι → κ → Bool} (h : x ≤ y) : height x ≤ height y := by
  refine Finset.card_le_card fun q hq => ?_
  simp only [Finset.mem_filter, Finset.mem_univ, true_and] at hq ⊢
  exact h q.1 q.2 hq

/-- A family that gains bits and changes has more. -/
theorem height_lt {x y : ι → κ → Bool} (h : x ≤ y) (hne : x ≠ y) : height x < height y := by
  refine Finset.card_lt_card ⟨fun q hq => ?_, fun hsub => hne ?_⟩
  · simp only [Finset.mem_filter, Finset.mem_univ, true_and] at hq ⊢
    exact h q.1 q.2 hq
  · funext i j
    refine le_antisymm (h i j) fun hy => ?_
    have hq : (i, j) ∈ Finset.univ.filter fun q : ι × κ => y q.1 q.2 = true := by simpa using hy
    simpa using hsub hq

end Height

end IdCompiler.Core

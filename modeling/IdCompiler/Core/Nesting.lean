import Mathlib.Algebra.BigOperators.Group.List.Basic
import Mathlib.Algebra.Order.Ring.Int
import Mathlib.Tactic.Common

/-!
# Depth along a word

Letters have weights, opening ones 1 and closing ones -1, and the depth of a word is
the sum of them. What holds of every letter at the depth before it is carried over
words that are put together.
-/

namespace IdCompiler.Core

variable {α : Type*} (weight : α → Int)

/-- What a word adds to the depth. -/
def depthOf (w : List α) : Int := (w.map weight).sum

/-- Every letter, at the depth before it, has the property. -/
def Along (P : Int → α → Prop) : Int → List α → Prop
  | _, [] => True
  | d, c :: w => P d c ∧ Along P (d + weight c) w

variable {weight} {P Q : Int → α → Prop} {c : α} {u v w : List α} {d k : Int}

@[simp]
theorem depthOf_nil : depthOf weight [] = 0 := rfl

@[simp]
theorem depthOf_cons : depthOf weight (c :: w) = weight c + depthOf weight w := by
  rw [depthOf, List.map_cons, List.sum_cons, depthOf]

@[simp]
theorem depthOf_append : depthOf weight (u ++ v) = depthOf weight u + depthOf weight v := by
  rw [depthOf, List.map_append, List.sum_append, depthOf, depthOf]

theorem along_append : Along weight P d (u ++ v) ↔ Along weight P d u ∧ Along weight P (d + depthOf weight u) v := by
  induction u generalizing d with
  | nil =>
    rw [depthOf_nil, add_zero]
    exact ⟨fun h => ⟨trivial, h⟩, fun h => h.2⟩
  | cons c u ih =>
    rw [List.cons_append, Along, Along, ih, depthOf_cons, add_assoc, and_assoc]

theorem Along.shift (h : Along weight P d w) (hPQ : ∀ d c, P d c → Q (d + k) c) : Along weight Q (d + k) w := by
  induction w generalizing d with
  | nil => trivial
  | cons c w ih =>
    refine ⟨hPQ d c h.1, ?_⟩
    rw [add_right_comm]
    exact ih h.2

theorem Along.mono (h : Along weight P d w) (hPQ : ∀ d c, P d c → Q d c) : Along weight Q d w := by
  rw [← add_zero d]
  exact h.shift fun d c hc => by rw [add_zero]; exact hPQ d c hc

/-- A word of letters without weight stays at its depth. -/
theorem depthOf_flat (hw : ∀ c ∈ w, weight c = 0) : depthOf weight w = 0 := by
  induction w with
  | nil => rfl
  | cons c w ih =>
    rw [depthOf_cons, hw c List.mem_cons_self, ih fun e he => hw e (List.mem_cons_of_mem c he), add_zero]

theorem along_flat (hw : ∀ c ∈ w, weight c = 0) (hP : ∀ c ∈ w, P d c) : Along weight P d w := by
  induction w with
  | nil => trivial
  | cons c w ih =>
    refine ⟨hP c List.mem_cons_self, ?_⟩
    rw [hw c List.mem_cons_self, add_zero]
    exact ih (fun e he => hw e (List.mem_cons_of_mem c he)) fun e he => hP e (List.mem_cons_of_mem c he)

/-- A word that returns to its depth and has a property along itself from 0. -/
structure Nested (weight : α → Int) (P : Int → α → Prop) (w : List α) : Prop where
  depth : depthOf weight w = 0
  along : Along weight P 0 w

namespace Nested

theorem nil : Nested weight P [] := ⟨rfl, trivial⟩

theorem append (hu : Nested weight P u) (hv : Nested weight P v) : Nested weight P (u ++ v) where
  depth := by rw [depthOf_append, hu.depth, hv.depth, add_zero]
  along := along_append.mpr ⟨hu.along, by rw [hu.depth, add_zero]; exact hv.along⟩

theorem mono (h : Nested weight P w) (hPQ : ∀ d c, P d c → Q d c) : Nested weight Q w :=
  ⟨h.depth, h.along.mono hPQ⟩

theorem flat (hw : ∀ c ∈ w, weight c = 0) (hP : ∀ c ∈ w, P 0 c) : Nested weight P w :=
  ⟨depthOf_flat hw, along_flat hw hP⟩

/-- A word between an opening and a closing letter. -/
theorem enclose {a z : α} (h : Nested weight P w) (ha : weight a = 1) (hz : weight z = -1)
    (hPQ : ∀ d c, P d c → Q (d + 1) c) (hQa : Q 0 a) (hQz : Q 1 z) : Nested weight Q (a :: (w ++ [z])) where
  depth := by rw [depthOf_cons, depthOf_append, h.depth, depthOf_cons, depthOf_nil, ha, hz]; rfl
  along := by
    refine ⟨hQa, ?_⟩
    rw [ha, along_append, h.depth, add_zero]
    exact ⟨h.along.shift hPQ, hQz, trivial⟩

end Nested

end IdCompiler.Core

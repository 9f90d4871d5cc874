import Mathlib.Logic.Relation
import Mathlib.Logic.Equiv.Defs

/-!
# Reachability over an arbitrary relation

Closed sets, mutual reachability and transport along a bijection. Nothing here
names a program: the relation is arbitrary, and the graph walks built on it
supply their own edges.
-/

namespace IdCompiler.Core

open Relation

variable {α β : Type*}

/-- Two points reach each other along `r`. -/
def Mutual (r : α → α → Prop) (a b : α) : Prop :=
  ReflTransGen r a b ∧ ReflTransGen r b a

/-- A set that no edge leaves. -/
def Closed (r : α → α → Prop) (s : α → Prop) : Prop :=
  ∀ ⦃a b⦄, s a → r a b → s b

theorem Mutual.refl (r : α → α → Prop) (a : α) : Mutual r a a :=
  ⟨.refl, .refl⟩

theorem Mutual.symm {r : α → α → Prop} {a b : α} (h : Mutual r a b) : Mutual r b a :=
  ⟨h.2, h.1⟩

theorem Mutual.trans {r : α → α → Prop} {a b c : α} (hab : Mutual r a b)
    (hbc : Mutual r b c) : Mutual r a c :=
  ⟨hab.1.trans hbc.1, hbc.2.trans hab.2⟩

/-- A closed set holds everything its points reach. -/
theorem Closed.reach {r : α → α → Prop} {s : α → Prop} (hs : Closed r s) {a b : α}
    (h : ReflTransGen r a b) (ha : s a) : s b := by
  induction h with
  | refl => exact ha
  | tail _ hbc ih => exact hs ih hbc

/-- A bijection that carries edges to edges carries reachability. -/
theorem reach_map {r : α → α → Prop} {q : β → β → Prop} (f : α → β)
    (hf : ∀ a b, r a b → q (f a) (f b)) {a b : α} (h : ReflTransGen r a b) :
    ReflTransGen q (f a) (f b) :=
  h.lift f hf

/-- Along an isomorphism, reachability is the same on both sides. -/
theorem reach_iff_of_equiv {r : α → α → Prop} {q : β → β → Prop} (e : α ≃ β)
    (he : ∀ a b, r a b ↔ q (e a) (e b)) (a b : α) :
    ReflTransGen r a b ↔ ReflTransGen q (e a) (e b) := by
  constructor
  · exact reach_map e fun x y => (he x y).mp
  · intro h
    have hback : ∀ x y, q x y → r (e.symm x) (e.symm y) := by
      intro x y hxy
      rw [he, e.apply_symm_apply, e.apply_symm_apply]
      exact hxy
    simpa using reach_map e.symm hback h

/-- Along an isomorphism, mutual reachability is the same on both sides. -/
theorem mutual_iff_of_equiv {r : α → α → Prop} {q : β → β → Prop} (e : α ≃ β)
    (he : ∀ a b, r a b ↔ q (e a) (e b)) (a b : α) :
    Mutual r a b ↔ Mutual q (e a) (e b) :=
  and_congr (reach_iff_of_equiv e he a b) (reach_iff_of_equiv e he b a)

end IdCompiler.Core

import Mathlib.Data.Option.Basic

/-!
# Pointed graphs and the trees they unfold to

A state has a label and children in order; following children from a state
unfolds it to a tree, which is regular when the states are finitely many. States
that a bisimulation relates unfold to the same tree, and two graphs on the same
states that differ only at some of them, and there in the label, unfold a state
alike exactly where none of those is reached. Nothing here names a program.
-/

namespace IdCompiler.Core

variable {S T L : Type*}

/-- States with labels and children. -/
structure TreeGraph (S L : Type*) where
  label : S → L
  child : S → Nat → Option S

namespace TreeGraph

/-- The state at the end of a path. -/
def walk (g : TreeGraph S L) : S → List Nat → Option S
  | s, [] => some s
  | s, i :: p =>
    match g.child s i with
    | some t => g.walk t p
    | none => none

/-- The tree of a state: the label at the end of each path. -/
def unfold (g : TreeGraph S L) (s : S) (p : List Nat) : Option L := (g.walk s p).map g.label

variable {g h : TreeGraph S L} {h' : TreeGraph T L} {s t : S}

/-- What holds of a state and of the children of the states it holds of holds of all that is reached. -/
theorem walk_closed {P : S → Prop} (hP : ∀ s i t, P s → g.child s i = some t → P t) (hs : P s) {p : List Nat}
    (hwalk : g.walk s p = some t) : P t := by
  induction p generalizing s with
  | nil =>
    cases hwalk
    exact hs
  | cons i p ih =>
    cases hc : g.child s i with
    | none =>
      rw [walk, hc] at hwalk
      cases hwalk
    | some u =>
      rw [walk, hc] at hwalk
      exact ih (hP s i u hs hc) hwalk

/-- A relation that labels and children respect. -/
def Bisim (g : TreeGraph S L) (h' : TreeGraph T L) (R : S → T → Prop) : Prop :=
  ∀ s t, R s t → g.label s = h'.label t ∧ ∀ i, Option.Rel R (g.child s i) (h'.child t i)

theorem unfold_cons {i : Nat} {p : List Nat} (hc : g.child s i = some t) :
    g.unfold s (i :: p) = g.unfold t p := by
  rw [unfold, walk, hc]
  rfl

theorem unfold_cons_none {i : Nat} {p : List Nat} (hc : g.child s i = none) :
    g.unfold s (i :: p) = none := by
  rw [unfold, walk, hc]
  rfl

theorem unfold_eq {R : S → T → Prop} (hR : Bisim g h' R) {t : T} (hr : R s t) (p : List Nat) :
    g.unfold s p = h'.unfold t p := by
  induction p generalizing s t with
  | nil => exact congrArg some (hR s t hr).1
  | cons i p ih =>
    have hrel := (hR s t hr).2 i
    cases hg : g.child s i with
    | none =>
      rw [hg] at hrel
      cases hh : h'.child t i with
      | none => rw [unfold_cons_none hg, unfold_cons_none hh]
      | some t' =>
        rw [hh] at hrel
        cases hrel
    | some s' =>
      rw [hg] at hrel
      cases hh : h'.child t i with
      | none =>
        rw [hh] at hrel
        cases hrel
      | some t' =>
        rw [hh] at hrel
        cases hrel with
        | some hr' => rw [unfold_cons hg, unfold_cons hh, ih hr']

/-- Where two graphs agree at the good states and have other labels at the rest, a state unfolds
alike exactly if it reaches good states only. -/
theorem unfold_eq_iff {good : S → Prop}
    (hgood : ∀ s, good s → g.label s = h.label s ∧ ∀ i, g.child s i = h.child s i)
    (hbad : ∀ s, ¬good s → g.label s ≠ h.label s) :
    (∀ p, g.unfold s p = h.unfold s p) ↔ ∀ p t, h.walk s p = some t → good t := by
  constructor
  · intro heq p
    induction p generalizing s with
    | nil =>
      rintro t ⟨⟩
      by_contra hno
      exact hbad s hno (Option.some.inj (heq []))
    | cons i p ih =>
      intro t hwalk
      have hs : good s := by
        by_contra hno
        exact hbad s hno (Option.some.inj (heq []))
      cases hc : h.child s i with
      | none =>
        rw [walk, hc] at hwalk
        cases hwalk
      | some u =>
        rw [walk, hc] at hwalk
        refine ih (fun q => ?_) t hwalk
        have hq := heq (i :: q)
        rwa [unfold_cons hc, unfold_cons (((hgood s hs).2 i).trans hc)] at hq
  · intro hall
    have hR : Bisim g h fun s t => s = t ∧ ∀ p u, h.walk t p = some u → good u := by
      rintro s _ ⟨rfl, hreach⟩
      obtain ⟨hlabel, hchild⟩ := hgood s (hreach [] s rfl)
      refine ⟨hlabel, fun i => ?_⟩
      rw [hchild i]
      cases hc : h.child s i with
      | none => exact .none
      | some u =>
        refine .some ⟨rfl, fun p v hw => hreach (i :: p) v ?_⟩
        rw [walk, hc]
        exact hw
    exact unfold_eq hR ⟨rfl, hall⟩

end TreeGraph

end IdCompiler.Core

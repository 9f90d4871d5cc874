import Mathlib.Data.Option.Basic

/-!
# Machines in lockstep

A machine takes deterministic steps, each of which makes some output and may be
the last. Two machines whose steps keep a relation and make the same output
make the same output however long they run, and end together. Nothing here
names a program.
-/

namespace IdCompiler.Core

variable {S T E O : Type*}

/-- The output of the first `n` steps, and the state after them if no step was the last. -/
def runs (step : S → List E × Option S) : Nat → S → List E × Option S
  | 0, s => ([], some s)
  | n + 1, s =>
    match (step s).2 with
    | none => ((step s).1, none)
    | some s' => ((step s).1 ++ (runs step n s').1, (runs step n s').2)

/-- The same output, and states that are related if there are any. -/
def Matches (R : S → T → Prop) (x : List E × Option S) (y : List E × Option T) : Prop :=
  x.1 = y.1 ∧ Option.Rel R x.2 y.2

/-- The output of the first `n` steps, and what can be seen of the state after them. -/
def observed (step : S → List E × Option S) (see : S → O) (n : Nat) (s : S) : List E × Option O :=
  ((runs step n s).1, (runs step n s).2.map see)

variable {R : S → T → Prop} {step : S → List E × Option S} {step' : T → List E × Option T}

theorem runs_matches (hstep : ∀ s t, R s t → Matches R (step s) (step' t)) (n : Nat) {s : S} {t : T}
    (h : R s t) : Matches R (runs step n s) (runs step' n t) := by
  induction n generalizing s t with
  | zero => exact ⟨rfl, .some h⟩
  | succ n ih =>
    obtain ⟨hout, hnext⟩ := hstep s t h
    rw [runs, runs]
    cases hs : (step s).2 with
    | none =>
      rw [hs] at hnext
      cases ht : (step' t).2 with
      | none => exact ⟨hout, .none⟩
      | some t' =>
        rw [ht] at hnext
        cases hnext
    | some s' =>
      rw [hs] at hnext
      cases ht : (step' t).2 with
      | none =>
        rw [ht] at hnext
        cases hnext
      | some t' =>
        rw [ht] at hnext
        cases hnext with
        | some hr =>
          obtain ⟨hrest, hlast⟩ := ih hr
          exact ⟨congrArg₂ _ hout hrest, hlast⟩

/-- Related states that look alike are seen alike at every time. -/
theorem observed_eq {see : S → O} {see' : T → O} (hstep : ∀ s t, R s t → Matches R (step s) (step' t))
    (hsee : ∀ s t, R s t → see s = see' t) (n : Nat) {s : S} {t : T} (h : R s t) :
    observed step see n s = observed step' see' n t := by
  obtain ⟨hout, hlast⟩ := runs_matches hstep n h
  apply Prod.ext
  · exact hout
  · show (runs step n s).2.map see = (runs step' n t).2.map see'
    generalize (runs step n s).2 = x at hlast
    generalize (runs step' n t).2 = y at hlast
    cases hlast with
    | none => rfl
    | some hr => exact congrArg some (hsee _ _ hr)

end IdCompiler.Core

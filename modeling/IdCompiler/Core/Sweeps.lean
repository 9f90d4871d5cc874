import Mathlib.Data.List.Basic
import Mathlib.Order.Defs.Unbundled

/-!
# Sweeping until nothing changes

A sweep treats the items of a list one after the other and counts those it
acted on; sweeps are repeated until one of them acts on none. Where each act
makes a measure smaller the sweeps end, in a state in which no item of the list
can be acted on, related to the first by whatever preorder the acts keep.
Nothing here names a program.
-/

namespace IdCompiler.Core

variable {S ι κ : Type*}

/-- Sweeps until one counts 0, `n` being the count of the one before. -/
def sweeps (sweep : S → S × Nat) : Nat → Nat → S → Option S
  | 0, _, _ => none
  | fuel + 1, n, s => if 0 < n then sweeps sweep fuel (sweep s).2 (sweep s).1 else some s

/-- What every sweep keeps holds when they end. -/
theorem sweeps_keeps {P : S → Prop} {sweep : S → S × Nat} (hsweep : ∀ s, P s → P (sweep s).1) {fuel n : Nat}
    {s s' : S} (h : P s) (hrun : sweeps sweep fuel n s = some s') : P s' := by
  induction fuel generalizing n s with
  | zero => cases hrun
  | succ fuel ih =>
    rw [sweeps] at hrun
    split at hrun
    · exact ih (hsweep s h) hrun
    · obtain rfl := Option.some.inj hrun
      exact h

/-- What treating the items `l` does. -/
structure Swept (R : S → S → Prop) (measure : S → Nat) (can : S → ι → Prop) (l : List ι)
    (s s' : S × Nat) : Prop where
  rel : R s.1 s'.1
  grows : s.2 ≤ s'.2
  /-- Each act makes the measure smaller. -/
  count : measure s'.1 + s'.2 ≤ measure s.1 + s.2
  /-- Where there was no act, none was possible. -/
  kept : s'.2 = s.2 → s'.1 = s.1 ∧ ∀ x ∈ l, ¬can s.1 x

namespace Swept

variable {R : S → S → Prop} [IsPreorder S R] {measure : S → Nat} {can : S → ι → Prop} {l l' : List ι}
  {s s' s'' : S × Nat} {x : ι} {n fuel : Nat}

theorem refl : Swept R measure can [] s s :=
  ⟨Std.Refl.refl _, Nat.le_refl _, Nat.le_refl _, fun _ => ⟨rfl, fun _ h => absurd h List.not_mem_nil⟩⟩

theorem trans (h : Swept R measure can l s s') (h' : Swept R measure can l' s' s'') :
    Swept R measure can (l ++ l') s s'' := by
  refine ⟨IsTrans.trans _ _ _ h.rel h'.rel, Nat.le_trans h.grows h'.grows,
    Nat.le_trans h'.count h.count, fun heq => ?_⟩
  have hgrows := h.grows
  have hgrows' := h'.grows
  obtain ⟨hsame, hno⟩ := h.kept (by omega)
  obtain ⟨hsame', hno'⟩ := h'.kept (by omega)
  rw [hsame] at hsame' hno'
  refine ⟨hsame', fun x hx => ?_⟩
  cases List.mem_append.mp hx with
  | inl hx => exact hno x hx
  | inr hx => exact hno' x hx

omit [IsPreorder S R] in
/-- An item that is acted on. -/
theorem act (hrel : R s.1 s'.1) (hless : measure s'.1 < measure s.1) (hone : s'.2 = s.2 + 1) :
    Swept R measure can l s s' :=
  ⟨hrel, by omega, by omega, fun heq => by omega⟩

/-- An item that cannot be acted on. -/
theorem pass (hno : ¬can s.1 x) : Swept R measure can [x] s s := by
  refine ⟨Std.Refl.refl _, Nat.le_refl _, Nat.le_refl _, fun _ => ⟨rfl, fun y hy => ?_⟩⟩
  rwa [List.mem_singleton.mp hy]

/-- One part after the other, as long as each does so from whatever the ones before left. -/
theorem foldl {g : S × Nat → κ → S × Nat} {part : κ → List ι} {parts : List κ}
    (hg : ∀ s', R s.1 s'.1 → ∀ k ∈ parts, Swept R measure can (part k) s' (g s' k)) :
    Swept R measure can (parts.flatMap part) s (parts.foldl g s) := by
  induction parts generalizing s with
  | nil => exact refl
  | cons k parts ih =>
    have hfirst := hg s (Std.Refl.refl _) k List.mem_cons_self
    have hrest := ih (s := g s k) fun s' hr k' hk' =>
      hg s' (IsTrans.trans _ _ _ hfirst.rel hr) k' (List.mem_cons_of_mem _ hk')
    exact hfirst.trans hrest

theorem loop {sweep : S → S × Nat} {t : S} (hsweep : ∀ t', R t t' → Swept R measure can l (t', 0) (sweep t'))
    (hfuel : measure t < fuel) (hn : n = 0 → ∀ x ∈ l, ¬can t x) (hfirst : 0 < n → measure t + 1 < fuel) :
    ∃ t', sweeps sweep fuel n t = some t' ∧ R t t' ∧ ∀ x ∈ l, ¬can t' x := by
  induction fuel generalizing n t with
  | zero => exact absurd hfuel (Nat.not_lt_zero _)
  | succ fuel ih =>
    rw [sweeps]
    by_cases hpos : 0 < n
    · rw [if_pos hpos]
      have hone := hsweep t (Std.Refl.refl _)
      have hcount : measure (sweep t).1 + (sweep t).2 ≤ measure t + 0 := hone.count
      have hroom := hfirst hpos
      have hlast : (sweep t).2 = 0 → ∀ x ∈ l, ¬can (sweep t).1 x := by
        intro hz
        obtain ⟨hsame, hno⟩ := hone.kept hz
        rw [hsame]
        exact hno
      obtain ⟨t', hrun, hrel, hno⟩ := ih (fun t' hr => hsweep t' (IsTrans.trans _ _ _ hone.rel hr))
        (by omega) hlast (by omega)
      exact ⟨t', hrun, IsTrans.trans _ _ _ hone.rel hrel, hno⟩
    · rw [if_neg hpos]
      exact ⟨t, rfl, Std.Refl.refl _, hn (by omega)⟩

/-- One sweep more than the measure is enough. -/
theorem ends {sweep : S → S × Nat} {t : S}
    (hsweep : ∀ t', R t t' → Swept R measure can l (t', 0) (sweep t')) :
    ∃ t', sweeps sweep (measure t + 2) 1 t = some t' ∧ R t t' ∧ ∀ x ∈ l, ¬can t' x :=
  loop hsweep (by omega) (fun h => absurd h (by decide)) fun _ => by omega

end Swept

end IdCompiler.Core

import Mathlib.Logic.Relation
import Mathlib.Logic.Function.Basic

/-!
# Monitors with condition variables

Threads run regions under one lock. A thread whose region cannot go on sleeps on
a condition, and a region that went through signals conditions. A signal wakes
one sleeper if there is any, and a thread may also wake unasked. Against this
stands the monitor without sleep, in which a region simply runs when it can.
Nothing here names a program.
-/

namespace IdCompiler.Core

variable {ι σ κ : Type*}

/-- What a thread that gets the lock can do. -/
inductive Turn (σ κ : Type*)
  /-- It has no region to run. -/
  | away
  /-- It has to wait for a condition. -/
  | waits (k : κ)
  /-- Its region goes through and signals conditions. -/
  | goes (s : σ) (signals : List κ)

/-- Threads `ι` over data `σ`, with conditions `κ`. -/
structure Monitor (ι σ κ : Type*) where
  /-- The process has not stopped. -/
  live : σ → Prop
  /-- A step outside the lock. -/
  outside : σ → σ → Prop
  /-- What a thread's region does. -/
  turn : ι → σ → Turn σ κ

/-- The sleepers after some conditions were signalled: nobody falls asleep, and of the sleepers on
a signalled condition one is up. -/
structure Woken (ks : List κ) (z z' : ι → Option κ) : Prop where
  kept : ∀ i, z' i = z i ∨ z' i = none
  up : ∀ k ∈ ks, (∃ i, z i = some k) → ∃ i, z i = some k ∧ z' i = none

namespace Monitor

/-- A step without sleep: a region runs when it can. -/
inductive Step (m : Monitor ι σ κ) : σ → σ → Prop
  | outside {s s' : σ} : m.live s → m.outside s s' → m.Step s s'
  | region {s s' : σ} {i : ι} {ks : List κ} : m.live s → m.turn i s = .goes s' ks → m.Step s s'

/-- A step with sleep: the data, and for each thread the condition it sleeps on. -/
inductive Doze [DecidableEq ι] (m : Monitor ι σ κ) : σ × (ι → Option κ) → σ × (ι → Option κ) → Prop
  | outside {s s' : σ} {z : ι → Option κ} : m.live s → m.outside s s' → m.Doze (s, z) (s', z)
  | goes {s s' : σ} {z z' : ι → Option κ} {i : ι} {ks : List κ} : m.live s → z i = none →
      m.turn i s = .goes s' ks → Woken ks z z' → m.Doze (s, z) (s', z')
  | sleeps {s : σ} {z : ι → Option κ} {i : ι} {k : κ} : m.live s → z i = none →
      m.turn i s = .waits k → m.Doze (s, z) (s, Function.update z i (some k))
  | unasked {s : σ} {z : ι → Option κ} {i : ι} : m.live s → m.Doze (s, z) (s, Function.update z i none)

/-- What makes sleep safe, given what all states keep. -/
structure Lawful (m : Monitor ι σ κ) (Inv : σ → Prop) : Prop where
  keeps : ∀ {s s' : σ}, Inv s → m.Step s s' → Inv s'
  /-- What is done outside the lock lets nobody go on. -/
  outside : ∀ {s s' : σ} {i : ι} {k : κ}, Inv s → m.outside s s' → m.turn i s = .waits k →
    m.turn i s' = .waits k
  /-- A region that lets a waiting thread go on signals its condition. -/
  signals : ∀ {s s' : σ} {i j : ι} {k : κ} {ks : List κ}, Inv s → m.turn i s = .goes s' ks →
    m.turn j s = .waits k → m.turn j s' = .waits k ∨ k ∈ ks
  /-- A condition has one waiting thread. -/
  alone : ∀ {s : σ} {i j : ι} {k : κ}, Inv s → m.turn i s = .waits k → m.turn j s = .waits k → i = j

/-- A thread is asleep only while it cannot go on. -/
def Drowsy (m : Monitor ι σ κ) (x : σ × (ι → Option κ)) : Prop :=
  ∀ i k, x.2 i = some k → m.turn i x.1 = .waits k

/-- The sleepers once all on some conditions are up. -/
def rouse [DecidableEq κ] (ks : List κ) (z : ι → Option κ) (i : ι) : Option κ :=
  (z i).filter fun k => k ∉ ks

theorem rouse_woken [DecidableEq κ] (ks : List κ) (z : ι → Option κ) :
    Woken ks z (rouse ks z) := by
  constructor
  case kept =>
    intro i
    cases hz : z i with
    | none => exact .inr (by simp [rouse, hz])
    | some k =>
      by_cases hk : k ∈ ks
      · exact .inr (by simp [rouse, hz, hk])
      · exact .inl (by simp [rouse, hz, hk])
  case up =>
    rintro k hk ⟨i, hz⟩
    exact ⟨i, hz, by simp [rouse, hz, hk]⟩

section

variable [DecidableEq ι] {m : Monitor ι σ κ} {Inv : σ → Prop} {x y : σ × (ι → Option κ)} {s s' : σ}

/-- One step with sleep is one step without it, or none. -/
theorem Doze.plain (h : m.Doze x y) : m.Step x.1 y.1 ∨ y.1 = x.1 := by
  cases h with
  | outside hl h => exact .inl (.outside hl h)
  | goes hl _ h _ => exact .inl (.region hl h)
  | sleeps | unasked => exact .inr rfl

/-- One step wakes everyone it lets go on. -/
theorem Lawful.drowsy_step (hm : m.Lawful Inv) (hi : Inv x.1) (hx : m.Drowsy x)
    (h : m.Doze x y) : m.Drowsy y := by
  intro j k hj
  cases h with
  | outside _ h => exact hm.outside hi h (hx j k hj)
  | @goes s s' z z' i ks _ _ h hwoken =>
    have hold : z j = some k := by
      obtain heq | heq := hwoken.kept j
      · exact heq ▸ hj
      · exact absurd (heq.symm.trans hj) (by simp)
    refine (hm.signals hi h (hx j k hold)).resolve_right fun hk => ?_
    -- the signal woke a sleeper on `k`, and `j` was the only one
    obtain ⟨n, hn, hup⟩ := hwoken.up k hk ⟨j, hold⟩
    obtain rfl := hm.alone hi (hx n k hn) (hx j k hold)
    exact absurd (hup.symm.trans hj) (by simp)
  | @sleeps s z i k' _ _ h =>
    simp only [Function.update_apply] at hj
    split at hj
    · next heq => exact (Option.some.inj hj) ▸ heq ▸ h
    · exact hx j k hj
  | @unasked s z i _ =>
    simp only [Function.update_apply] at hj
    split at hj
    · cases hj
    · exact hx j k hj

/-- A run with sleep is a run without it, and loses no wake-up. -/
theorem Lawful.doze_run (hm : m.Lawful Inv) (hs : Inv s)
    (h : Relation.ReflTransGen m.Doze (s, fun _ => none) y) :
    Relation.ReflTransGen m.Step s y.1 ∧ Inv y.1 ∧ m.Drowsy y := by
  induction h with
  | refl => exact ⟨.refl, hs, fun i k h => by cases h⟩
  | tail _ hstep ih =>
    obtain ⟨hrun, hi, hx⟩ := ih
    have hdrowsy := hm.drowsy_step hi hx hstep
    obtain h | h := hstep.plain
    · exact ⟨hrun.tail h, hm.keeps hi h, hdrowsy⟩
    · rw [h]
      exact ⟨hrun, hi, hdrowsy⟩

/-- Nobody who can go on is asleep, so each step without sleep is there with it. -/
theorem Drowsy.follows [DecidableEq κ] (hx : m.Drowsy x) (h : m.Step x.1 s') :
    ∃ z', m.Doze x (s', z') := by
  obtain ⟨s, z⟩ := x
  cases h with
  | outside hl h => exact ⟨z, .outside hl h⟩
  | @region i ks hl h =>
    have hup : z i = none := by
      cases hz : z i with
      | none => rfl
      | some k => exact absurd ((hx i k hz).symm.trans h) (by simp)
    exact ⟨rouse ks z, .goes hl hup h (rouse_woken ks z)⟩

/-- A run without sleep is a run with it. -/
theorem Lawful.run_doze [DecidableEq κ] (hm : m.Lawful Inv) (hs : Inv s)
    (h : Relation.ReflTransGen m.Step s s') :
    ∃ z, Relation.ReflTransGen m.Doze (s, fun _ => none) (s', z) := by
  induction h with
  | refl => exact ⟨_, .refl⟩
  | tail _ hstep ih =>
    obtain ⟨z, hrun⟩ := ih
    obtain ⟨z', hnext⟩ := (hm.doze_run hs hrun).2.2.follows hstep
    exact ⟨z', hrun.tail hnext⟩

end

end Monitor

end IdCompiler.Core

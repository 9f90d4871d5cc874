import IdCompiler.Core.Least
import IdCompiler.Escape.Mask
import Mathlib.Data.Fintype.Order
import Mathlib.Data.List.Nodup

/-!
# What the tables mean between two steps

The system of equations the summaries solve, where a function already read
stands relative to a running call, and the invariant every step of the
computation keeps. The part of it that speaks of waiting functions is claimed
only while no stale one was read.
-/

namespace IdCompiler.Escape

open IdCompiler.Core

variable {n : Nat} {p : Prog n}

/-- What a name answers when the masks are `pe`. -/
def valueOf (pe : Fin n → Mask) : Option (Fin n) → Mask
  | none => ⊤
  | some k => pe k

/-- A function's own summary when the masks are `pe`. -/
def Prog.body (p : Prog n) (pe : Fin n → Mask) (k : Fin n) : Mask :=
  match p.native k with
  | some m => m
  | none => p.sum k ((p.calls k).map (valueOf pe))

/-- Every summary is a monotone function of the answers. -/
def Prog.Monotone (p : Prog n) : Prop :=
  ∀ k xs ys, List.Forall₂ (· ≤ ·) xs ys → p.sum k xs ≤ p.sum k ys

/-- The body of `k` asks about `c`. -/
def Prog.Calls (p : Prog n) (k c : Fin n) : Prop :=
  p.native k = none ∧ some c ∈ p.calls k

theorem Prog.body_congr {x y : Fin n → Mask} {k : Fin n}
    (h : ∀ c, p.Calls k c → x c = y c) : p.body x k = p.body y k := by
  unfold Prog.body
  cases hk : p.native k with
  | some m => rfl
  | none =>
    have hmap : (p.calls k).map (valueOf x) = (p.calls k).map (valueOf y) := by
      refine List.map_congr_left fun c hc => ?_
      cases c with
      | none => rfl
      | some c => exact h c ⟨hk, hc⟩
    simp only [hmap]

theorem valueOf_mono {x y : Fin n → Mask} (h : x ≤ y) :
    ∀ cs : List (Option (Fin n)), List.Forall₂ (· ≤ ·) (cs.map (valueOf x)) (cs.map (valueOf y))
  | [] => .nil
  | none :: cs => .cons le_rfl (valueOf_mono h cs)
  | some k :: cs => .cons (h k) (valueOf_mono h cs)

theorem Prog.Monotone.body_mono (hp : p.Monotone) {x y : Fin n → Mask} (h : x ≤ y)
    (k : Fin n) : p.body x k ≤ p.body y k := by
  unfold Prog.body
  cases p.native k with
  | some m => exact le_rfl
  | none => exact hp k _ _ (valueOf_mono h _)

/-- The summaries of a program as a system of equations. -/
def Prog.system (p : Prog n) (hp : p.Monotone) : System (Fin n) Mask where
  dep := p.Calls
  eval := ⟨p.body, fun _ _ h k => hp.body_mono h k⟩
  eval_congr := p.body_congr

/-- Masks closed under every function's own summary. -/
def Prog.Solves (p : Prog n) (m : Fin n → Mask) : Prop :=
  ∀ k, p.body m k ≤ m k

/-- The running call at depth `e`, if there is one, began before `c` joined the waiting list. -/
def JoinedIn (frames : List (Frame n)) (s : State n) (e : Nat) (c : Fin n) : Prop :=
  ∃ f, frames[e]? = some f ∧ f.emk ≤ s.mem.idxOf c

/-- Everything a function that read `c` may need is settled no later than the call at depth `e`
ends: `c` is final, or was put by during that call, or runs at that depth or deeper. -/
def Inside (frames : List (Frame n)) (s : State n) (e : Nat) (c : Fin n) : Prop :=
  s.st c = .final ∨ s.st c = .waiting ∧ JoinedIn frames s e c ∨ s.st c = .running ∧ e ≤ s.dp c

/-- A function the pass in progress has read. -/
structure Seen (frames : List (Frame n)) (s : State n) (c : Fin n) : Prop where
  started : s.st c ≠ .unstarted
  low : s.st c = .final ∨ s.low ≤ s.dp c
  inside : s.stale = false → ∀ d < frames.length, Inside frames s (min s.low d) c

/-- The invariant of the computation with the calls `frames` running. -/
structure Inv (p : Prog n) (frames : List (Frame n)) (s : State n) : Prop where
  depth : s.depth = frames.length
  /-- Each running call stands at its depth. -/
  run_at : ∀ i f, frames[i]? = some f → s.st f.ix = .running ∧ s.dp f.ix = i
  run_in : ∀ k, s.st k = .running → ∃ f, frames[s.dp k]? = some f ∧ f.ix = k
  /-- Deeper calls began with more functions waiting. -/
  emk_mono : ∀ (i j : Nat) (f f' : Frame n), i ≤ j → frames[i]? = some f → frames[j]? = some f' → f.emk ≤ f'.emk
  emk_le : ∀ f ∈ frames, f.emk ≤ s.mem.length
  nodup : s.mem.Nodup
  mem_iff : ∀ k, k ∈ s.mem ↔ s.st k = .waiting
  /-- Only bodies that can be read run or wait. -/
  readable : ∀ k, s.st k = .running ∨ s.st k = .waiting → p.native k = none
  native_le : ∀ k m, p.native k = some m → s.pe k ≤ m
  /-- No mask is above any closed family of masks. -/
  below : ∀ m, p.Solves m → s.pe ≤ m
  /-- What a waiting function calls was started, and is not started over while it waits. -/
  wait_seen : ∀ k ∈ s.mem, ∀ c, p.Calls k c → s.st c ≠ .unstarted
  final_out : s.stale = false → ∀ k, s.st k = .final → ∀ c, p.Calls k c → s.st c = .final
  final_le : s.stale = false → ∀ k, s.st k = .final → p.body s.pe k ≤ s.pe k
  /-- What a waiting function calls ends with the call it waits on. -/
  wait_in : s.stale = false → ∀ k ∈ s.mem, ∀ d, JoinedIn frames s d k → ∀ c, p.Calls k c →
    Inside frames s (min (s.dp k) d) c

/-- What a stretch of the computation leaves of the tables it found, the masks of the functions
in `own` aside. -/
structure Keeps (own : Fin n → Prop) (s s' : State n) : Prop where
  st : ∀ k, s.st k ≠ .unstarted → s'.st k = s.st k
  dp : ∀ k, s.st k ≠ .unstarted → s'.dp k = s.dp k
  pe : ∀ k, s.st k ≠ .unstarted → ¬own k → s'.pe k = s.pe k
  mem : s.mem <+: s'.mem
  pe_le : s.pe ≤ s'.pe
  grown_le : s.grown ≤ s'.grown
  /-- A growth that was counted is a growth. -/
  grown_ne : s'.grown ≠ s.grown → s'.pe ≠ s.pe
  stale : s'.stale = false → s.stale = false

theorem Keeps.refl (own : Fin n → Prop) (s : State n) : Keeps own s s :=
  ⟨fun _ _ => rfl, fun _ _ => rfl, fun _ _ _ => rfl, List.prefix_rfl, le_rfl, le_rfl,
    fun h => absurd rfl h, id⟩

theorem Keeps.started {own : Fin n → Prop} {s s' : State n} (h : Keeps own s s') {k : Fin n}
    (hk : s.st k ≠ .unstarted) : s'.st k ≠ .unstarted := by
  rw [h.st k hk]
  exact hk

theorem Keeps.trans {own : Fin n → Prop} {s s' s'' : State n} (h : Keeps own s s')
    (h' : Keeps own s' s'') : Keeps own s s'' where
  st k hk := (h'.st k (h.started hk)).trans (h.st k hk)
  dp k hk := (h'.dp k (h.started hk)).trans (h.dp k hk)
  pe k hk ho := (h'.pe k (h.started hk) ho).trans (h.pe k hk ho)
  mem := h.mem.trans h'.mem
  pe_le := h.pe_le.trans h'.pe_le
  grown_le := h.grown_le.trans h'.grown_le
  grown_ne hne heq := by
    -- equal at the ends, the masks did not move in between either
    have hmid : s'.pe = s.pe := le_antisymm (heq ▸ h'.pe_le) h.pe_le
    have h1 : s'.grown = s.grown := by_contra fun hc => h.grown_ne hc hmid
    have h2 : s''.grown = s'.grown := by_contra fun hc => h'.grown_ne hc (heq.trans hmid.symm)
    exact hne (h2.trans h1)
  stale hs := h.stale (h'.stale hs)

theorem Keeps.weaken {own own' : Fin n → Prop} {s s' : State n} (h : Keeps own s s')
    (ho : ∀ k, own k → own' k) : Keeps own' s s' :=
  { h with pe := fun k hk hn => h.pe k hk fun hc => hn (ho k hc) }

/-- Places on the waiting list stay where they are as it grows. -/
theorem Keeps.idxOf {own : Fin n → Prop} {s s' : State n} (h : Keeps own s s') {k : Fin n}
    (hk : k ∈ s.mem) : s'.mem.idxOf k = s.mem.idxOf k := by
  obtain ⟨new, hnew⟩ := h.mem
  rw [← hnew, List.idxOf_append_of_mem hk]

/-- A function that ends with the call at depth `e` still does after more of the computation. -/
theorem Inside.keep {frames : List (Frame n)} {own : Fin n → Prop} {s s' : State n} {e : Nat}
    {c : Fin n} (hmem : ∀ k, k ∈ s.mem ↔ s.st k = .waiting) (h : Keeps own s s')
    (hc : Inside frames s e c) : Inside frames s' e c := by
  have hst : s.st c ≠ .unstarted := by
    rcases hc with hf | ⟨hw, _⟩ | ⟨hr, _⟩ <;> simp [*]
  rcases hc with hf | ⟨hw, f, hf, hle⟩ | ⟨hr, hle⟩
  · exact .inl ((h.st c hst).trans hf)
  · refine .inr (.inl ⟨(h.st c hst).trans hw, f, hf, ?_⟩)
    rw [h.idxOf ((hmem c).mpr hw)]
    exact hle
  · exact .inr (.inr ⟨(h.st c hst).trans hr, by rw [h.dp c hst]; exact hle⟩)

/-- Ending with a call is ending with every call around it. -/
theorem Inside.mono {frames : List (Frame n)} {s : State n} (hinv : Inv p frames s) {e e' : Nat}
    {c : Fin n} (hle : e' ≤ e) (he : e < frames.length) (hc : Inside frames s e c) :
    Inside frames s e' c := by
  rcases hc with hf | ⟨hw, f, hf, hfe⟩ | ⟨hr, hre⟩
  · exact .inl hf
  · have hf' : frames[e']? = some (frames[e']) := List.getElem?_eq_getElem (by omega)
    exact .inr (.inl ⟨hw, _, hf', (hinv.emk_mono e' e _ f hle hf' hf).trans hfe⟩)
  · exact .inr (.inr ⟨hr, by omega⟩)

theorem Inside.started {frames : List (Frame n)} {s : State n} {e : Nat} {c : Fin n}
    (hc : Inside frames s e c) : s.st c ≠ .unstarted := by
  rcases hc with hf | ⟨hw, _⟩ | ⟨hr, _⟩ <;> simp [*]

/-- A function read stays read as the pass goes on. -/
theorem Seen.keep {frames : List (Frame n)} {own : Fin n → Prop} {s s' : State n} {c : Fin n}
    (hinv : Inv p frames s) (hinv' : Inv p frames s') (h : Keeps own s s')
    (hlow : s'.low ≤ s.low) (hc : Seen frames s c) : Seen frames s' c where
  started := h.started hc.started
  low := by
    rw [h.st c hc.started, h.dp c hc.started]
    exact hc.low.imp id fun hl => hlow.trans hl
  inside hs d hd := by
    have hin := (hc.inside (h.stale hs) d hd).keep hinv.mem_iff h
    exact hin.mono hinv' (by omega) (by omega)

end IdCompiler.Escape

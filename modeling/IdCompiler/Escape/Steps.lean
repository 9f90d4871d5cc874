import IdCompiler.Escape.Invariant
import Mathlib.Data.List.TakeDrop

/-!
# One step of the computation

Opening a call, reading a function, joining a mask, starting the waiting
functions over, and the two ways a call ends: each keeps the invariant.
-/

namespace IdCompiler.Escape

open IdCompiler.Core

variable {n : Nat} {p : Prog n} {frames : List (Frame n)} {s : State n}

section Lists

variable {α : Type*}

/-- A place of a list with one more element is an old place or the new one. -/
theorem getElem?_snoc {l : List α} {a b : α} {i : Nat} :
    (l ++ [a])[i]? = some b ↔ l[i]? = some b ∨ i = l.length ∧ a = b := by
  rw [List.getElem?_append]
  by_cases hi : i < l.length
  · simp [hi]; omega
  · by_cases he : i = l.length
    · simp [he]
    · have : i - l.length ≠ 0 := by omega
      simp [hi, he, this]

/-- What is dropped from a list without repeats is what stands at or past the cut. -/
theorem mem_drop_iff [DecidableEq α] {l : List α} (hl : l.Nodup) {k : α} (hk : k ∈ l) {m : Nat} :
    k ∈ l.drop m ↔ m ≤ l.idxOf k := by
  rw [← not_lt, ← List.mem_take_iff_idxOf_lt hk]
  constructor
  · exact fun hd ht => List.disjoint_take_drop hl le_rfl ht hd
  · intro ht
    have hall : k ∈ l.take m ++ l.drop m := by rwa [List.take_append_drop]
    exact (List.mem_append.mp hall).resolve_left ht

theorem idxOf_take [DecidableEq α] {l : List α} {k : α} {m : Nat} (hk : k ∈ l.take m) :
    (l.take m).idxOf k = l.idxOf k := by
  conv_rhs => rw [← List.take_append_drop m l]
  rw [List.idxOf_append_of_mem hk]

end Lists

theorem ne_of_started {ix k : Fin n} (hix : s.st ix = .unstarted) (hk : s.st k ≠ .unstarted) :
    k ≠ ix := by
  rintro rfl
  exact hk hix

/-- Nothing runs or waits at the start. -/
theorem Inv.init (p : Prog n) : Inv p [] (escInit n) where
  depth := rfl
  run_at i f h := by simp at h
  run_in k h := by simp [escInit] at h
  emk_mono i j f f' _ h := by simp at h
  emk_le f h := by simp at h
  nodup := List.nodup_nil
  mem_iff k := by simp [escInit]
  readable k h := by simp [escInit] at h
  native_le k m _ := bot_le
  below m _ := fun _ => bot_le
  wait_seen k h := by simp [escInit] at h
  final_out _ k h := by simp [escInit] at h
  final_le _ k h := by simp [escInit] at h
  wait_in _ k h := by simp [escInit] at h

/-- The pass's depth is no part of the invariant. -/
theorem Inv.relow (hinv : Inv p frames s) {low : Nat} {stale : Bool}
    (hs : stale = false → s.stale = false) :
    Inv p frames { s with low := low, stale := stale } :=
  { hinv with
    final_out := fun h => hinv.final_out (hs h)
    final_le := fun h => hinv.final_le (hs h)
    wait_in := fun h => hinv.wait_in (hs h) }

/-- The call on top runs at its depth. -/
theorem Inv.top {f : Frame n} (hinv : Inv p (frames ++ [f]) s) :
    s.st f.ix = .running ∧ s.dp f.ix = frames.length :=
  hinv.run_at frames.length f (getElem?_snoc.mpr (.inr ⟨rfl, rfl⟩))

theorem Inv.top_notMem {f : Frame n} (hinv : Inv p (frames ++ [f]) s) : f.ix ∉ s.mem := by
  rw [hinv.mem_iff, hinv.top.1]
  simp

/-- Every function has started that is waited for. -/
theorem Inv.idxOf_lt (hinv : Inv p frames s) {k : Fin n} (hk : s.st k = .waiting) :
    s.mem.idxOf k < s.mem.length :=
  List.idxOf_lt_length_of_mem ((hinv.mem_iff k).mpr hk)

/-! ## A function whose body cannot be read -/

theorem Keeps.final {ix : Fin n} {m : Mask} (hinv : Inv p frames s) (hm : p.native ix = some m)
    (hix : s.st ix = .unstarted) (own : Fin n → Prop) : Keeps own s (escFinal ix m s) where
  st k hk := Function.update_of_ne (ne_of_started hix hk) ..
  dp _ _ := rfl
  pe k hk _ := Function.update_of_ne (ne_of_started hix hk) ..
  mem := List.prefix_rfl
  pe_le := by
    intro k
    by_cases hk : k = ix
    · subst hk
      simpa [escFinal] using hinv.native_le k m hm
    · simp [escFinal, hk]
  grown_le := le_rfl
  grown_ne h := absurd rfl h
  stale := id

theorem Inv.final {ix : Fin n} {m : Mask} (hinv : Inv p frames s) (hm : p.native ix = some m)
    (hix : s.st ix = .unstarted) : Inv p frames (escFinal ix m s) := by
  have hkeep := Keeps.final hinv hm hix fun _ => False
  have hst : ∀ k, k ≠ ix → (escFinal ix m s).st k = s.st k := fun k hk =>
    Function.update_of_ne hk ..
  have hself : (escFinal ix m s).st ix = .final := Function.update_self ..
  have hpeself : (escFinal ix m s).pe ix = m := Function.update_self ..
  have hother : ∀ {k t}, t ≠ .final → (escFinal ix m s).st k = t → k ≠ ix ∧ s.st k = t := by
    intro k t ht h
    have hk : k ≠ ix := by rintro rfl; exact ht (h.symm.trans hself)
    exact ⟨hk, (hst k hk).symm.trans h⟩
  have hbody : ∀ k, p.native k = some m → p.body (escFinal ix m s).pe k = m := by
    intro k hk; simp only [Prog.body, hk]
  refine
    { depth := hinv.depth
      run_at := fun i f h => ?_
      run_in := fun k h => hinv.run_in k (hother (by decide) h).2
      emk_mono := hinv.emk_mono
      emk_le := hinv.emk_le
      nodup := hinv.nodup
      mem_iff := fun k => ?_
      readable := fun k h => hinv.readable k
        (h.imp (fun h => (hother (by decide) h).2) fun h => (hother (by decide) h).2)
      native_le := fun k m' h => ?_
      below := fun x hx k => ?_
      wait_seen := fun k h c hc => hkeep.started (hinv.wait_seen k h c hc)
      final_out := fun hs k h c hc => ?_
      final_le := fun hs k h => ?_
      wait_in := fun hs k h d hd c hc => (hinv.wait_in hs k h d hd c hc).keep hinv.mem_iff hkeep }
  · obtain ⟨hr, hd⟩ := hinv.run_at i f h
    exact ⟨(hkeep.st _ (by simp [hr])).trans hr, hd⟩
  · rw [show (escFinal ix m s).mem = s.mem from rfl, hinv.mem_iff]
    by_cases hk : k = ix
    · subst hk; simp [hself, hix]
    · rw [hst k hk]
  · by_cases hk : k = ix
    · subst hk
      rw [hpeself]
      exact (Option.some.inj (hm.symm.trans h)).le
    · simpa [escFinal, hk] using hinv.native_le k m' h
  · by_cases hk : k = ix
    · subst hk
      have := hx k
      simp only [Prog.body, hm] at this
      rwa [hpeself]
    · simpa [escFinal, hk] using hinv.below x hx k
  · by_cases hk : k = ix
    · subst hk
      exact absurd hc.1 (by simp [hm])
    · have hcf := hinv.final_out hs k ((hst k hk).symm.trans h) c hc
      exact (hkeep.st c (by simp [hcf])).trans hcf
  · by_cases hk : k = ix
    · subst hk
      rw [hbody k hm, hpeself]
    · have hkf := (hst k hk).symm.trans h
      have hcong : p.body (escFinal ix m s).pe k = p.body s.pe k := by
        refine p.body_congr fun c hc => ?_
        have hcf := hinv.final_out hs k hkf c hc
        exact hkeep.pe c (by simp [hcf]) id
      rw [hcong, hkeep.pe k (by simp [hkf]) id]
      exact hinv.final_le hs k hkf

/-! ## A call begins -/

theorem Keeps.open {ix : Fin n} (hix : s.st ix = .unstarted) (esd : Nat) (own : Fin n → Prop) :
    Keeps own s (escOpen ix esd s) where
  st _ hk := Function.update_of_ne (ne_of_started hix hk) ..
  dp _ hk := Function.update_of_ne (ne_of_started hix hk) ..
  pe _ _ _ := rfl
  mem := List.prefix_rfl
  pe_le := le_rfl
  grown_le := le_rfl
  grown_ne h := absurd rfl h
  stale := id

theorem Inv.open {ix : Fin n} (hinv : Inv p frames s) (hm : p.native ix = none)
    (hix : s.st ix = .unstarted) :
    Inv p (frames ++ [⟨ix, s.mem.length⟩]) (escOpen ix s.depth s) := by
  have hkeep := Keeps.open hix s.depth fun _ => False
  have hst : ∀ k, k ≠ ix → (escOpen ix s.depth s).st k = s.st k := fun k hk =>
    Function.update_of_ne hk ..
  have hself : (escOpen ix s.depth s).st ix = .running := Function.update_self ..
  have hdself : (escOpen ix s.depth s).dp ix = frames.length :=
    (Function.update_self ..).trans hinv.depth
  have hother : ∀ {k t}, t ≠ .running → (escOpen ix s.depth s).st k = t → k ≠ ix ∧ s.st k = t := by
    intro k t ht h
    have hk : k ≠ ix := by rintro rfl; exact ht (h.symm.trans hself)
    exact ⟨hk, (hst k hk).symm.trans h⟩
  refine
    { depth := by simp [escOpen, hinv.depth]
      run_at := fun i f h => ?_
      run_in := fun k h => ?_
      emk_mono := fun i j f f' hij h h' => ?_
      emk_le := fun f h => ?_
      nodup := hinv.nodup
      mem_iff := fun k => ?_
      readable := fun k h => ?_
      native_le := hinv.native_le
      below := hinv.below
      wait_seen := fun k h c hc => hkeep.started (hinv.wait_seen k h c hc)
      final_out := fun hs k h c hc => ?_
      final_le := fun hs k h => hinv.final_le hs k (hother (by decide) h).2
      wait_in := fun hs k h d hd c hc => ?_ }
  · rcases getElem?_snoc.mp h with h | ⟨rfl, rfl⟩
    · obtain ⟨hr, hd⟩ := hinv.run_at i f h
      exact ⟨(hkeep.st _ (by simp [hr])).trans hr, (hkeep.dp _ (by simp [hr])).trans hd⟩
    · exact ⟨hself, hdself⟩
  · by_cases hk : k = ix
    · subst hk
      exact ⟨_, getElem?_snoc.mpr (.inr ⟨hdself, rfl⟩), rfl⟩
    · obtain ⟨f, hf, hfk⟩ := hinv.run_in k ((hst k hk).symm.trans h)
      refine ⟨f, getElem?_snoc.mpr (.inl ?_), hfk⟩
      rwa [show (escOpen ix s.depth s).dp k = s.dp k from Function.update_of_ne hk ..]
  · rcases getElem?_snoc.mp h with h | ⟨hi, rfl⟩ <;> rcases getElem?_snoc.mp h' with h' | ⟨hj, rfl⟩
    · exact hinv.emk_mono i j f f' hij h h'
    · exact hinv.emk_le f (List.mem_of_getElem? h)
    · have := (List.getElem?_eq_some_iff.mp h').1
      omega
    · exact le_rfl
  · rcases List.mem_append.mp h with h | h
    · exact hinv.emk_le f h
    · rw [List.mem_singleton] at h
      subst h
      exact le_rfl
  · rw [show (escOpen ix s.depth s).mem = s.mem from rfl, hinv.mem_iff]
    by_cases hk : k = ix
    · subst hk; simp [hself, hix]
    · rw [hst k hk]
  · by_cases hk : k = ix
    · subst hk; exact hm
    · rw [hst k hk] at h
      exact hinv.readable k h
  · have hcf := hinv.final_out hs k (hother (by decide) h).2 c hc
    exact (hkeep.st c (by simp [hcf])).trans hcf
  · -- no function waits on the call that begins
    obtain ⟨f, hf, hle⟩ := hd
    have hlt := hinv.idxOf_lt ((hinv.mem_iff k).mp h)
    have hkd : (escOpen ix s.depth s).dp k = s.dp k :=
      hkeep.dp k (by simp [(hinv.mem_iff k).mp h])
    rcases getElem?_snoc.mp hf with hf | ⟨_, rfl⟩
    · rw [hkd]
      have hin := (hinv.wait_in hs k h d ⟨f, hf, hle⟩ c hc).keep hinv.mem_iff hkeep
      rcases hin with hc | ⟨hc, g, hg, hle⟩ | hc
      · exact .inl hc
      · exact .inr (.inl ⟨hc, g, getElem?_snoc.mpr (.inl hg), hle⟩)
      · exact .inr (.inr hc)
    · exact absurd hle (by simpa [escOpen] using hlt)

/-! ## A function already started is read -/

theorem Keeps.low (ix : Fin n) (own : Fin n → Prop) : Keeps own s (escLow frames ix s) where
  st _ _ := rfl
  dp _ _ := rfl
  pe _ _ _ := rfl
  mem := List.prefix_rfl
  pe_le := le_rfl
  grown_le := le_rfl
  grown_ne h := absurd rfl h
  stale h := (Bool.or_eq_false_iff.mp h).1

theorem Inv.low (hinv : Inv p frames s) (ix : Fin n) : Inv p frames (escLow frames ix s) :=
  hinv.relow fun h => (Bool.or_eq_false_iff.mp h).1

theorem escLow_low_le (ix : Fin n) : (escLow frames ix s).low ≤ s.low := by
  simp only [escLow]
  split <;> omega

theorem escLow_low_le_dp (ix : Fin n) (h : s.st ix ≠ .final) :
    (escLow frames ix s).low ≤ s.dp ix := by
  simp only [escLow, h, ne_eq, not_false_eq_true, true_and]
  split <;> omega

/-- A waiting function that is not stale was put by during the call it waits on. -/
theorem joinedIn_of_not_stale {ix : Fin n} (hw : s.st ix = .waiting)
    (h : (escLow frames ix s).stale = false) : JoinedIn frames s (s.dp ix) ix := by
  simp only [escLow, hw, decide_true, Bool.true_and, Bool.or_eq_false_iff,
    Bool.not_eq_false'] at h
  obtain ⟨_, h⟩ := h
  unfold waitsOnRunning at h
  split at h
  · next f hf => exact ⟨f, hf, by simpa using h⟩
  · exact absurd h (by simp)

/-- Reading a started function notes it. -/
theorem Seen.of_low (hinv : Inv p frames s) {ix : Fin n} (hix : s.st ix ≠ .unstarted) :
    Seen frames (escLow frames ix s) ix where
  started := hix
  low := by
    by_cases hf : s.st ix = .final
    · exact .inl hf
    · exact .inr (escLow_low_le_dp ix hf)
  inside hs d hd := by
    have hle : s.st ix ≠ .final → (escLow frames ix s).low ≤ s.dp ix := fun hf => escLow_low_le_dp ix hf
    cases hst : s.st ix with
    | unstarted => exact absurd hst hix
    | running =>
      refine .inr (.inr ⟨hst, ?_⟩)
      exact (min_le_left _ _).trans (hle (by simp [hst]))
    | final => exact .inl hst
    | waiting =>
      have hj := joinedIn_of_not_stale hst hs
      have hlt : s.dp ix < frames.length := by
        obtain ⟨f, hf, _⟩ := hj
        exact (List.getElem?_eq_some_iff.mp hf).1
      have hin : Inside frames (escLow frames ix s) (s.dp ix) ix := .inr (.inl ⟨hst, hj⟩)
      exact hin.mono (hinv.low ix) ((min_le_left _ _).trans (hle (by simp [hst]))) hlt

end IdCompiler.Escape

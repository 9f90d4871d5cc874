import IdCompiler.Escape.Pass

/-!
# A whole computation

The two ends of a call, the loop of its passes and the recursion: with enough
fuel every query answers, and after queries that read nothing stale the final
functions hold the least masks.
-/

namespace IdCompiler.Escape

open IdCompiler.Core Relation

variable {n : Nat} {p : Prog n} {frames : List (Frame n)} {s s' o : State n} {f : Frame n}

/-- A call above runs another function than the one on top. -/
theorem Inv.above_ne {g : Frame n} {i : Nat} (hinv : Inv p (frames ++ [f]) s)
    (hg : frames[i]? = some g) : g.ix ≠ f.ix := by
  intro heq
  have hat := hinv.run_at i g (getElem?_snoc.mpr (.inl hg))
  have htop := hinv.top
  have := (List.getElem?_eq_some_iff.mp hg).1
  rw [heq] at hat
  omega

/-! ## A call is put by -/

/-- What ended with the call at depth `e` still does when a deeper call is put by. -/
theorem Inside.defer (hinv : Inv p (frames ++ [f]) s) {e esv : Nat} {c : Fin n}
    (he : e < frames.length) (hc : Inside (frames ++ [f]) s e c) :
    Inside frames (escDefer f.ix s.low esv { s with depth := frames.length }) e c := by
  have hrun := hinv.top.1
  have hst : c ≠ f.ix →
      (escDefer f.ix s.low esv { s with depth := frames.length }).st c = s.st c := fun h =>
    Function.update_of_ne h ..
  have hdp : c ≠ f.ix →
      (escDefer f.ix s.low esv { s with depth := frames.length }).dp c = s.dp c := fun h =>
    Function.update_of_ne h ..
  by_cases hcf : c = f.ix
  · subst hcf
    -- the call put by joins the list after everything that waited at depth `e`
    have hself : (escDefer f.ix s.low esv { s with depth := frames.length }).st f.ix = .waiting :=
      Function.update_self ..
    refine .inr (.inl ⟨hself, _, List.getElem?_eq_getElem he, ?_⟩)
    simp only [escDefer]
    rw [List.idxOf_append_of_notMem hinv.top_notMem]
    have hmem : frames[e] ∈ frames ++ [f] := List.mem_append_left _ (List.getElem_mem he)
    exact (hinv.emk_le _ hmem).trans (Nat.le_add_right ..)
  · rcases hc with hf | ⟨hw, g, hg, hle⟩ | ⟨hr, hle⟩
    · exact .inl ((hst hcf).trans hf)
    · refine .inr (.inl ⟨(hst hcf).trans hw, g, ?_, ?_⟩)
      · rcases getElem?_snoc.mp hg with hg | ⟨he', _⟩
        · exact hg
        · omega
      · simp only [escDefer]
        rwa [List.idxOf_append_of_mem ((hinv.mem_iff c).mpr hw)]
    · exact .inr (.inr ⟨(hst hcf).trans hr, by rwa [hdp hcf]⟩)

theorem Inv.defer (hinv : Inv p (frames ++ [f]) s) (hlow : s.low < frames.length)
    (hseen : ∀ c, p.Calls f.ix c → Seen (frames ++ [f]) s c) (esv : Nat) :
    Inv p frames (escDefer f.ix s.low esv { s with depth := frames.length }) := by
  have hrun := hinv.top.1
  have hfm := hinv.top_notMem
  have hself : (escDefer f.ix s.low esv { s with depth := frames.length }).st f.ix = .waiting :=
    Function.update_self ..
  have hst : ∀ k, k ≠ f.ix →
      (escDefer f.ix s.low esv { s with depth := frames.length }).st k = s.st k := fun k h =>
    Function.update_of_ne h ..
  have hdp : ∀ k, k ≠ f.ix →
      (escDefer f.ix s.low esv { s with depth := frames.length }).dp k = s.dp k := fun k h =>
    Function.update_of_ne h ..
  have hother : ∀ {k t}, t ≠ .waiting →
      (escDefer f.ix s.low esv { s with depth := frames.length }).st k = t →
      k ≠ f.ix ∧ s.st k = t := by
    intro k t ht h
    have hk : k ≠ f.ix := by rintro rfl; exact ht (h.symm.trans hself)
    exact ⟨hk, (hst k hk).symm.trans h⟩
  have hstarted : ∀ c, s.st c ≠ .unstarted →
      (escDefer f.ix s.low esv { s with depth := frames.length }).st c ≠ .unstarted := by
    intro c hc hu
    exact hc (hother (by decide) hu).2
  have hmemeq : (escDefer f.ix s.low esv { s with depth := frames.length }).mem =
      s.mem ++ [f.ix] := rfl
  refine
    { depth := rfl
      run_at := fun i g hg => ?_
      run_in := fun k hk => ?_
      emk_mono := fun i j g g' hij hg hg' => hinv.emk_mono i j g g' hij
        (getElem?_snoc.mpr (.inl hg)) (getElem?_snoc.mpr (.inl hg'))
      emk_le := fun g hg => ?_
      nodup := ?_
      mem_iff := fun k => ?_
      readable := fun k hk => ?_
      native_le := hinv.native_le
      below := hinv.below
      wait_seen := fun k hk c hc => hstarted c ?_
      final_out := fun hs k hk c hc => ?_
      final_le := fun hs k hk => hinv.final_le hs k (hother (by decide) hk).2
      wait_in := fun hs k hk d hd c hc => ?_ }
  · obtain ⟨hr, hd⟩ := hinv.run_at i g (getElem?_snoc.mpr (.inl hg))
    exact ⟨(hst _ (hinv.above_ne hg)).trans hr, (hdp _ (hinv.above_ne hg)).trans hd⟩
  · obtain ⟨hk, hr⟩ := hother (by decide) hk
    obtain ⟨g, hg, rfl⟩ := hinv.run_in k hr
    rw [hdp _ hk]
    rcases getElem?_snoc.mp hg with hg | ⟨_, rfl⟩
    · exact ⟨g, hg, rfl⟩
    · exact absurd rfl hk
  · have := hinv.emk_le g (List.mem_append_left _ hg)
    rw [hmemeq, List.length_append]
    omega
  · rw [hmemeq]
    exact List.nodup_append.mpr ⟨hinv.nodup, List.nodup_singleton _, fun a ha b hb => by
      rw [List.mem_singleton] at hb
      rintro rfl
      exact hfm (hb ▸ ha)⟩
  · rw [hmemeq, List.mem_append, List.mem_singleton]
    by_cases hk : k = f.ix
    · simp [hk, hself]
    · rw [hst k hk, hinv.mem_iff]
      simp [hk]
  · by_cases hkf : k = f.ix
    · exact hinv.readable k (.inl (hkf ▸ hrun))
    · rw [hst k hkf] at hk
      exact hinv.readable k hk
  · rw [hmemeq, List.mem_append, List.mem_singleton] at hk
    rcases hk with hk | rfl
    · exact hinv.wait_seen k hk c hc
    · exact (hseen c hc).started
  · have hcf := hinv.final_out hs k (hother (by decide) hk).2 c hc
    exact (hst c (by rintro rfl; simp [hrun] at hcf)).trans hcf
  · obtain ⟨g, hg, hle⟩ := hd
    have hlt := (List.getElem?_eq_some_iff.mp hg).1
    rw [hmemeq] at hle
    rw [hmemeq, List.mem_append, List.mem_singleton] at hk
    rcases hk with hk | rfl
    · rw [hdp k (by rintro rfl; exact hfm hk)]
      rw [List.idxOf_append_of_mem hk] at hle
      have hin := hinv.wait_in hs k hk d ⟨g, getElem?_snoc.mpr (.inl hg), hle⟩ c hc
      exact hin.defer hinv (by omega)
    · have hself' : (escDefer f.ix s.low esv { s with depth := frames.length }).dp f.ix = s.low :=
        Function.update_self ..
      rw [hself']
      exact ((hseen c hc).inside hs d (by simp; omega)).defer hinv (by omega)

/-! ## A call is sealed -/

theorem escSeal_st (ix : Fin n) (emk esv : Nat) (s : State n) (k : Fin n) :
    (escSeal ix emk esv s).st k =
      if k ∈ s.mem.drop emk ∨ k = ix then .final else s.st k := by
  simp only [escSeal, escDrain, Function.update_apply]
  by_cases hd : k ∈ s.mem.drop emk <;> by_cases hk : k = ix <;> simp [hd, hk]

/-- What ended with the call at depth `e` still does when a deeper call is sealed. -/
theorem Inside.seal (hinv : Inv p (frames ++ [f]) s) {e esv : Nat} {c : Fin n}
    (he : e < frames.length) (hc : Inside (frames ++ [f]) s e c) :
    Inside frames (escSeal f.ix f.emk esv { s with depth := frames.length }) e c := by
  by_cases hcf : c ∈ s.mem.drop f.emk ∨ c = f.ix
  · exact .inl ((escSeal_st ..).trans (if_pos hcf))
  · have hst : (escSeal f.ix f.emk esv { s with depth := frames.length }).st c = s.st c :=
      (escSeal_st ..).trans (if_neg hcf)
    push Not at hcf
    rcases hc with hf | ⟨hw, g, hg, hle⟩ | ⟨hr, hle⟩
    · exact .inl (hst.trans hf)
    · refine .inr (.inl ⟨hst.trans hw, g, ?_, ?_⟩)
      · rcases getElem?_snoc.mp hg with hg | ⟨he', _⟩
        · exact hg
        · omega
      · have hall : c ∈ s.mem.take f.emk ++ s.mem.drop f.emk := by
          rw [List.take_append_drop]
          exact (hinv.mem_iff c).mpr hw
        have htake := (List.mem_append.mp hall).resolve_right hcf.1
        simp only [escSeal, escDrain]
        rwa [idxOf_take htake]
    · exact .inr (.inr ⟨hst.trans hr, hle⟩)

theorem Inv.seal (hinv : Inv p (frames ++ [f]) s) (hemk : f.emk ≤ s.mem.length)
    (hlow : frames.length ≤ s.low)
    (hnew : ∀ k ∈ s.mem.drop f.emk, s.low ≤ s.dp k)
    (hseen : ∀ c, p.Calls f.ix c → Seen (frames ++ [f]) s c)
    (hclosed : s.stale = false → p.body s.pe f.ix ≤ s.pe f.ix ∧
      ∀ k ∈ s.mem.drop f.emk, p.body s.pe k ≤ s.pe k) (esv : Nat) :
    Inv p frames (escSeal f.ix f.emk esv { s with depth := frames.length }) := by
  have hst : ∀ k, (escSeal f.ix f.emk esv { s with depth := frames.length }).st k =
      if k ∈ s.mem.drop f.emk ∨ k = f.ix then .final else s.st k := escSeal_st f.ix f.emk esv _
  have hmemeq : (escSeal f.ix f.emk esv { s with depth := frames.length }).mem =
      s.mem.take f.emk := rfl
  have hother : ∀ {k t}, t ≠ .final →
      ((escSeal f.ix f.emk esv { s with depth := frames.length }).st k = t ↔
        ¬(k ∈ s.mem.drop f.emk ∨ k = f.ix) ∧ s.st k = t) := by
    intro k t ht
    rw [hst]
    split <;> simp [*, ht.symm]
  have hstarted : ∀ c, s.st c ≠ .unstarted →
      (escSeal f.ix f.emk esv { s with depth := frames.length }).st c ≠ .unstarted := by
    intro c hc hu
    exact hc ((hother (by decide)).mp hu).2
  -- a callee that ends with this call is final once it is sealed
  have hends : ∀ c, Inside (frames ++ [f]) s frames.length c →
      (escSeal f.ix f.emk esv { s with depth := frames.length }).st c = .final := by
    intro c hc
    rw [hst]
    rcases hc with hf | ⟨hw, g, hg, hle⟩ | ⟨hr, hle⟩
    · simp [hf]
    · rcases getElem?_snoc.mp hg with hg | ⟨_, rfl⟩
      · have := (List.getElem?_eq_some_iff.mp hg).1
        omega
      · exact if_pos (.inl ((mem_drop_iff hinv.nodup ((hinv.mem_iff c).mpr hw)).mpr hle))
    · obtain ⟨g, hg, rfl⟩ := hinv.run_in c hr
      rcases getElem?_snoc.mp hg with hg | ⟨_, rfl⟩
      · have := (List.getElem?_eq_some_iff.mp hg).1
        omega
      · exact if_pos (.inr rfl)
  have hdropw : ∀ {k}, k ∈ s.mem.drop f.emk → s.st k = .waiting := fun hk =>
    (hinv.mem_iff _).mp (List.mem_of_mem_drop hk)
  refine
    { depth := rfl
      run_at := fun i g hg => ?_
      run_in := fun k hk => ?_
      emk_mono := fun i j g g' hij hg hg' => hinv.emk_mono i j g g' hij
        (getElem?_snoc.mpr (.inl hg)) (getElem?_snoc.mpr (.inl hg'))
      emk_le := fun g hg => ?_
      nodup := hinv.nodup.sublist (List.take_sublist ..)
      mem_iff := fun k => ?_
      readable := fun k hk => hinv.readable k
        (hk.imp (fun h => ((hother (by decide)).mp h).2) fun h => ((hother (by decide)).mp h).2)
      native_le := hinv.native_le
      below := hinv.below
      wait_seen := fun k hk c hc => hstarted c (hinv.wait_seen k (List.mem_of_mem_take hk) c hc)
      final_out := fun hs k hk c hc => ?_
      final_le := fun hs k hk => ?_
      wait_in := fun hs k hk d hd c hc => ?_ }
  · obtain ⟨hr, hd⟩ := hinv.run_at i g (getElem?_snoc.mpr (.inl hg))
    refine ⟨(hother (by decide)).mpr ⟨?_, hr⟩, hd⟩
    rintro (hk | hk)
    · simp [hdropw hk] at hr
    · exact hinv.above_ne hg hk
  · obtain ⟨hk, hr⟩ := (hother (by decide)).mp hk
    push Not at hk
    obtain ⟨g, hg, rfl⟩ := hinv.run_in k hr
    rcases getElem?_snoc.mp hg with hg | ⟨_, rfl⟩
    · exact ⟨g, hg, rfl⟩
    · exact absurd rfl hk.2
  · -- the calls still running began before this one
    obtain ⟨i, hi⟩ := List.mem_iff_getElem?.mp hg
    have hlt := (List.getElem?_eq_some_iff.mp hi).1
    have hle := hinv.emk_mono i frames.length g f hlt.le (getElem?_snoc.mpr (.inl hi))
      (getElem?_snoc.mpr (.inr ⟨rfl, rfl⟩))
    rw [hmemeq, List.length_take]
    omega
  · rw [hmemeq, hother (by decide), ← hinv.mem_iff]
    constructor
    · intro hk
      refine ⟨?_, List.mem_of_mem_take hk⟩
      rintro (hd | rfl)
      · exact List.disjoint_take_drop hinv.nodup le_rfl hk hd
      · exact hinv.top_notMem (List.mem_of_mem_take hk)
    · rintro ⟨hn, hk⟩
      push Not at hn
      rw [← List.take_append_drop f.emk s.mem] at hk
      exact (List.mem_append.mp hk).resolve_right hn.1
  · rw [hst] at hk
    split at hk
    · next hm =>
      rcases hm with hm | rfl
      · have hkm := List.mem_of_mem_drop hm
        have hj : JoinedIn (frames ++ [f]) s frames.length k :=
          ⟨f, getElem?_snoc.mpr (.inr ⟨rfl, rfl⟩), (mem_drop_iff hinv.nodup hkm).mp hm⟩
        have hin := hinv.wait_in hs k hkm frames.length hj c hc
        rw [min_eq_right (hlow.trans (hnew k hm))] at hin
        exact hends c hin
      · have hin := (hseen c hc).inside hs frames.length (by simp)
        rw [min_eq_right hlow] at hin
        exact hends c hin
    · exact hends c (.inl (hinv.final_out hs k hk c hc))
  · rw [hst] at hk
    split at hk
    · next hm =>
      rcases hm with hm | rfl
      · exact (hclosed hs).2 k hm
      · exact (hclosed hs).1
    · exact hinv.final_le hs k hk
  · obtain ⟨g, hg, hle⟩ := hd
    have hlt := (List.getElem?_eq_some_iff.mp hg).1
    rw [hmemeq] at hk hle
    rw [idxOf_take hk] at hle
    have hin := hinv.wait_in hs k (List.mem_of_mem_take hk) d
      ⟨g, getElem?_snoc.mpr (.inl hg), hle⟩ c hc
    exact hin.seal hinv (by omega)

end IdCompiler.Escape

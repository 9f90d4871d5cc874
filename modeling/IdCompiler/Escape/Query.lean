import IdCompiler.Core.Reach
import IdCompiler.Escape.Run
import Mathlib.Data.Fintype.EquivFin

/-!
# Queries

The loop of a call's passes and the recursion through calls not started: with
enough fuel every query answers, and after queries that read nothing stale the
answers are the least masks, whatever was asked before.
-/

namespace IdCompiler.Escape

open IdCompiler.Core Relation

variable {n : Nat} {p : Prog n} {frames : List (Frame n)} {s t o : State n} {f : Frame n}

/-- What was there before a call began is there when its passes are over. -/
theorem PassEnd.keeps {ix : Fin n} (hix : s.st ix = .unstarted)
    (h : PassEnd p frames ⟨ix, s.mem.length⟩ (escOpen ix s.depth s) t) :
    Keeps (fun _ => False) s t :=
  have hk : Keeps (· = ix) s t := (Keeps.open hix s.depth _).trans h.keep
  { hk with pe := fun k hk' _ => hk.pe k hk' (ne_of_started hix hk') }

/-- Closing a call whose passes are over completes the computation of its function. -/
theorem PassEnd.close {ix : Fin n} (hinv : Inv p frames s) (hix : s.st ix = .unstarted)
    (h : PassEnd p frames ⟨ix, s.mem.length⟩ (escOpen ix s.depth s) t) :
    Computed p frames ix s (escClose ix s.depth s.low s.mem.length t) := by
  have hkeep := h.keeps hix
  have htop := h.inv.top
  have hnotmem : ix ∉ s.mem := by rw [hinv.mem_iff, hix]; decide
  have hdrop : ∀ k, k ∈ t.mem.drop s.mem.length ↔ k ∈ t.mem ∧ k ∉ s.mem :=
    mem_drop_shared h.inv.nodup hkeep.mem
  unfold escClose
  by_cases hlow : t.low < s.depth
  · rw [if_pos hlow]
    have hst : ∀ k, s.st k ≠ .unstarted → k ≠ ix := fun k hk => ne_of_started hix hk
    have hgoal : Inv p frames (escDefer ix t.low s.low { t with depth := s.depth }) := by
      rw [hinv.depth] at hlow ⊢
      exact h.inv.defer (f := ⟨ix, s.mem.length⟩) hlow h.seen s.low
    have hlow_le : (escDefer ix t.low s.low { t with depth := s.depth }).low ≤ s.low ∧
        (escDefer ix t.low s.low { t with depth := s.depth }).low ≤ t.low := by
      simp only [escDefer]
      split <;> omega
    have hdself : (escDefer ix t.low s.low { t with depth := s.depth }).dp ix = t.low :=
      Function.update_self ..
    refine ⟨hgoal, ?_, .inr ⟨Function.update_self .., hdself.trans_lt hlow⟩⟩
    refine { hkeep with
      st := fun k hk => (Function.update_of_ne (hst k hk) ..).trans (hkeep.st k hk)
      dp := fun k hk => (Function.update_of_ne (hst k hk) ..).trans (hkeep.dp k hk)
      mem := hkeep.mem.trans (List.prefix_append ..)
      low_le := hlow_le.1
      low_new := fun k hk hn => ?_
      quiet := fun hs hg k hk hn => ?_ }
    · rcases List.mem_append.mp hk with hkt | hkx
      · have hne : k ≠ ix := fun hkx => h.inv.top_notMem (show ix ∈ t.mem from hkx ▸ hkt)
        refine hlow_le.2.trans ((h.low_new k hkt hn).trans_eq ?_)
        exact (Function.update_of_ne hne ..).symm
      · rw [List.mem_singleton.mp hkx, hdself]
        exact hlow_le.2
    · have hc := h.closed hs (.inl hg)
      rcases List.mem_append.mp hk with hk | hk
      · exact hc.2 k hk hn
      · rw [List.mem_singleton] at hk
        subst hk
        exact hc.1
  · rw [if_neg hlow]
    have hge : frames.length ≤ t.low := by
      have := hinv.depth
      omega
    have hgoal : Inv p frames (escSeal ix s.mem.length s.low { t with depth := s.depth }) := by
      rw [hinv.depth]
      refine h.inv.seal (f := ⟨ix, s.mem.length⟩) hkeep.mem.length_le hge (fun k hk => ?_) h.seen
        (fun hs => ?_) s.low
      · rw [hdrop] at hk
        exact h.low_new k hk.1 hk.2
      · refine (h.closed hs (.inr hge)).imp id fun hc k hk => ?_
        rw [hdrop] at hk
        exact hc k hk.1 hk.2
    have hmem : (escSeal ix s.mem.length s.low { t with depth := s.depth }).mem = s.mem :=
      take_shared hkeep.mem
    have hst := escSeal_st ix s.mem.length s.low { t with depth := s.depth }
    refine ⟨hgoal, ?_, .inl ⟨(hst ix).trans (if_pos (.inr rfl)), hmem⟩⟩
    refine { hkeep with
      st := fun k hk => ?_
      mem := by rw [hmem]
      low_le := le_rfl
      low_new := fun k hk hn => absurd (hmem ▸ hk) hn
      quiet := fun _ _ k hk hn => absurd (hmem ▸ hk) hn }
    rw [hst, if_neg, hkeep.st k hk]
    rintro (hd | rfl)
    · obtain ⟨hkt, hks⟩ := (hdrop k).mp hd
      have hw := (h.inv.mem_iff k).mp hkt
      rw [hkeep.st k hk] at hw
      exact hks ((hinv.mem_iff k).mpr hw)
    · exact hk hix

/-- The passes of a call end: each that starts over sets a bit. -/
theorem escIter_spec (hp : p.Monotone) (ho : Inv p (frames ++ [f]) o)
    (hemk : f.emk = o.mem.length)
    {ask : Option (Fin n) → State n → Option (State n × Mask)}
    (hask : ∀ c s, Inv p (frames ++ [f]) s → ∃ s', ask c s = some (s', valueOf s'.pe c) ∧
      Inv p (frames ++ [f]) s' ∧ Asked p s s' ∧ ∀ k, c = some k → Seen (frames ++ [f]) s' k)
    (k : Nat) (h : PassStart p frames f o s) (hk : n * 32 < height s.pe + k) :
    ∃ t, escIter p ask f.ix frames.length f.emk k s = some t ∧ PassEnd p frames f o t := by
  induction k generalizing s with
  | zero =>
    have := height_le s.pe
    simp only [Fintype.card_fin] at this
    omega
  | succ k ih =>
    obtain ⟨t, again, ht, hyes, hno⟩ := escPass_spec hp ho hemk hask h
    cases again with
    | false => exact ⟨t, by simp [escIter, ht], hno rfl⟩
    | true =>
      obtain ⟨hstart, hlt⟩ := hyes rfl
      obtain ⟨u, hu, hend⟩ := ih hstart (by omega)
      exact ⟨u, by simp [escIter, ht, hu], hend⟩

/-- While a function has not started, fewer calls run than there are functions. -/
theorem Inv.length_lt (hinv : Inv p frames s) {ix : Fin n} (hix : s.st ix = .unstarted) :
    frames.length < n := by
  have hat := fun i : Fin frames.length =>
    hinv.run_at i frames[i] (List.getElem?_eq_getElem i.isLt)
  have hinj : Function.Injective fun i : Fin frames.length => frames[i].ix := by
    intro i j hij
    have hi := (hat i).2
    rw [show frames[i].ix = frames[j].ix from hij, (hat j).2] at hi
    exact Fin.ext hi.symm
  have hmiss : ¬Function.Surjective fun i : Fin frames.length => frames[i].ix := by
    intro hsurj
    obtain ⟨i, hi⟩ := hsurj ix
    have := (hat i).1
    rw [show frames[i].ix = ix from hi, hix] at this
    simp at this
  simpa using Fintype.card_lt_of_injective_not_surjective _ hinj hmiss

/-- Computing a function that has not started. The induction is on the fuel; each call that
begins uses up one of the functions that do not run. -/
theorem escCompute_spec (hp : p.Monotone) (fuel : Nat) (frames : List (Frame n)) (ix : Fin n)
    (s : State n) (hinv : Inv p frames s) (hix : s.st ix = .unstarted)
    (hfuel : n - frames.length + n * 32 < fuel) :
    ∃ s', escCompute p fuel frames ix s = some s' ∧ Computed p frames ix s s' := by
  induction fuel generalizing frames ix s with
  | zero => omega
  | succ fuel ih =>
    unfold escCompute
    cases hm : p.native ix with
    | some m =>
      refine ⟨_, rfl, hinv.final hm hix, ?_, .inl ⟨Function.update_self .., rfl⟩⟩
      exact { Keeps.final hinv hm hix _ with
        low_le := le_rfl
        low_new := fun _ hk hk' => absurd hk hk'
        quiet := fun _ _ _ hk hk' => absurd hk hk' }
    | none =>
      have hlt := hinv.length_lt hix
      have ho := hinv.open hm hix
      have hask : ∀ c s', Inv p (frames ++ [⟨ix, s.mem.length⟩]) s' → _ := fun c s' h =>
        escMask_spec (fun ix' s' h' hix' =>
          ih (frames ++ [⟨ix, s.mem.length⟩]) ix' s' h' hix' (by simp; omega)) c h
      obtain ⟨t, ht, hend⟩ := escIter_spec hp ho rfl hask fuel
        ⟨ho, Keeps.refl _ _, rfl⟩ (by omega)
      rw [← hinv.depth] at ht
      exact ⟨_, by simp only [ht, Option.map_some], hend.close hinv hix⟩

/-- Between two queries from outside any walk. -/
structure Rest (p : Prog n) (s : State n) : Prop where
  inv : Inv p [] s
  mem : s.mem = []

theorem Rest.init (p : Prog n) : Rest p (escInit n) := ⟨Inv.init p, rfl⟩

/-- One query answers, and leaves the function it asked for final. -/
theorem escQuery_spec (hp : p.Monotone) {fuel : Nat} (hfuel : 33 * n < fuel)
    (c : Option (Fin n)) (h : Rest p s) :
    ∃ s', escQuery p fuel c s = some (s', valueOf s'.pe c) ∧ Rest p s' ∧
      Keeps (fun _ => False) s s' ∧ ∀ k, c = some k → s'.st k = .final := by
  cases c with
  | none => exact ⟨s, rfl, h, Keeps.refl _ s, fun k hk => by simp at hk⟩
  | some ix =>
    simp only [escQuery, escMask, escMaskAt]
    by_cases hix : s.st ix = .unstarted
    · obtain ⟨s', hs', hc⟩ := escCompute_spec hp fuel [] ix s h.inv hix (by simp; omega)
      -- nothing runs above a query, so there is nothing to wait for
      obtain ⟨hfin, hmem⟩ : s'.st ix = .final ∧ s'.mem = s.mem := by
        refine hc.done.resolve_right fun hw => ?_
        have := h.inv.depth
        simp only [List.length_nil] at this
        omega
      refine ⟨s', by simp [hix, hs', valueOf], ⟨hc.inv, hmem.trans h.mem⟩, hc.asked.toKeeps,
        fun k hk => ?_⟩
      obtain rfl := Option.some.inj hk
      exact hfin
    · have hfin : s.st ix = .final := by
        cases hst : s.st ix with
        | unstarted => exact absurd hst hix
        | running =>
          obtain ⟨g, hg, _⟩ := h.inv.run_in ix hst
          simp at hg
        | waiting =>
          have := (h.inv.mem_iff ix).mpr hst
          simp [h.mem] at this
        | final => rfl
      refine ⟨escLow [] ix s, by simp [hix, valueOf], ⟨h.inv.low ix, h.mem⟩, Keeps.low ix _,
        fun k hk => ?_⟩
      obtain rfl := Option.some.inj hk
      exact hfin

/-- Every sequence of queries answers. -/
theorem escQueries_spec (hp : p.Monotone) {fuel : Nat} (hfuel : 33 * n < fuel)
    (qs : List (Option (Fin n))) (h : Rest p s) :
    ∃ s', escQueries p fuel qs s = some (s', qs.map (valueOf s'.pe)) ∧ Rest p s' ∧
      Keeps (fun _ => False) s s' ∧ ∀ k, some k ∈ qs → s'.st k = .final := by
  induction qs generalizing s with
  | nil => exact ⟨s, rfl, h, Keeps.refl _ s, fun k hk => by simp at hk⟩
  | cons c cs ih =>
    obtain ⟨s₁, h₁, hrest₁, hkeep₁, hfin₁⟩ := escQuery_spec hp hfuel c h
    obtain ⟨s₂, h₂, hrest₂, hkeep₂, hfin₂⟩ := ih hrest₁
    have hstarted : ∀ k, c = some k → s₁.st k ≠ .unstarted := fun k hk => by simp [hfin₁ k hk]
    have hval : valueOf s₂.pe c = valueOf s₁.pe c := by
      cases c with
      | none => rfl
      | some k => exact hkeep₂.pe k (hstarted k rfl) id
    refine ⟨s₂, ?_, hrest₂, hkeep₁.trans hkeep₂, fun k hk => ?_⟩
    · simp only [escQueries] at h₂
      simp [escQueries, escAskAll, h₁, h₂, hval]
    · rcases List.mem_cons.mp hk with hk | hk
      · exact (hkeep₂.st k (hstarted k hk.symm)).trans (hfin₁ k hk.symm)
      · exact hfin₂ k hk

/-- What a final function reaches is final, when nothing stale was read. -/
theorem Inv.final_reach (hinv : Inv p frames s) (hs : s.stale = false) {f k : Fin n}
    (hf : s.st f = .final) (h : ReflTransGen p.Calls f k) : s.st k = .final :=
  Closed.reach (s := fun k => s.st k = .final)
    (fun _ _ ha hab => hinv.final_out hs _ ha _ hab) h hf

/-- The final functions hold the least masks, when nothing stale was read. -/
theorem Inv.final_least (hinv : Inv p frames s) (hp : p.Monotone) (hs : s.stale = false)
    {k : Fin n} (hk : s.st k = .final) : s.pe k = (p.system hp).least k :=
  (p.system hp).eq_least_on (S := fun k => s.st k = .final)
    (fun k c hk hc => hinv.final_out hs k hk c hc) (fun k hk => hinv.final_le hs k hk)
    (fun y hy => hinv.below y hy) hk

/-- Every sequence of queries answers; and when no query read a waiting function after the call
it was put by for had returned, what was asked for and all it reaches is final and holds the
least masks closed under every function's own summary. The answers are those masks, whatever
was asked before. -/
theorem escQueries_least (p : Prog n) (hp : p.Monotone) :
    ∃ least, IsLeast {m | p.Solves m} least ∧
      ∀ fuel, 33 * n < fuel → ∀ qs, ∃ s answers,
        escQueries p fuel qs (escInit n) = some (s, answers) ∧
        (s.stale = false → answers = qs.map (valueOf least) ∧
          ∀ f k, some f ∈ qs → ReflTransGen p.Calls f k →
            s.st k = .final ∧ s.pe k = least k) := by
  refine ⟨_, (p.system hp).least_isLeast, fun fuel hfuel qs => ?_⟩
  obtain ⟨s, hs, hrest, _, hfin⟩ := escQueries_spec hp hfuel qs (Rest.init p)
  refine ⟨s, _, hs, fun hstale => ⟨List.map_congr_left fun c hc => ?_, fun f k hf hk => ?_⟩⟩
  · cases c with
    | none => rfl
    | some k => exact hrest.inv.final_least hp hstale (hfin k hc)
  · have hkf := hrest.inv.final_reach hstale (hfin f hf) hk
    exact ⟨hkf, hrest.inv.final_least hp hstale hkf⟩

/-- A program whose bodies or a mask of their own with what their callees answer. -/
def orProg (calls : Fin n → List (Fin n)) (own : Fin n → Mask) : Prog n where
  native := fun _ => none
  calls := fun k => (calls k).map some
  sum := fun k ms => ms.foldr (· ⊔ ·) (own k)

theorem orProg_monotone (calls : Fin n → List (Fin n)) (own : Fin n → Mask) :
    (orProg calls own).Monotone := by
  intro k xs ys h
  induction h with
  | nil => exact le_rfl
  | cons hxy _ ih => exact sup_le_sup hxy ih

/-- The mask of a function that keeps its first parameter. -/
def firstBit : Mask := fun i => i == 0

/-- Two functions that call each other; the first keeps its parameter. -/
def pingPong : Prog 2 :=
  orProg (fun k => [k.rev]) fun k => if k.val = 0 then firstBit else ⊥

/-- Two queries about functions that call each other read nothing stale. -/
theorem escQueries_least_pingPong :
    ∃ least, IsLeast {m | pingPong.Solves m} least ∧ ∃ s answers,
      escQueries pingPong 67 [some 0, some 1] (escInit 2) = some (s, answers) ∧
      s.stale = false ∧ answers = [some 0, some 1].map (valueOf least) := by
  obtain ⟨least, hleast, hrun⟩ := escQueries_least pingPong (orProg_monotone _ _)
  obtain ⟨s, answers, hs, hanswers⟩ := hrun 67 (by decide) [some 0, some 1]
  have hstale : (escQueries pingPong 67 [some 0, some 1] (escInit 2)).map (·.1.stale) =
      some false := by decide +kernel
  rw [hs] at hstale
  have hstale := Option.some.inj hstale
  exact ⟨least, hleast, s, answers, hs, hstale, (hanswers hstale).1⟩

/-- Two cycles that cross: `0` calls `1` and `3`, `1` calls `2` and `0`, `2` calls `1` and `3`
calls `2`; only `0` keeps its parameter. While `0` and `1` run, `2` is put by for `1`, and `1`
for `0`; then `3` reads `2`, which still names the depth of `1`, now its own. -/
def crossed : Prog 4 :=
  orProg (fun | 0 => [1, 3] | 1 => [2, 0] | 2 => [1] | 3 => [2]) fun k =>
    if k = 0 then firstBit else ⊥

/-- Asked about after `0`, the function `3` is final with no bit; asked about first, with one. -/
theorem escQueries_crossed_order :
    crossed.Monotone ∧
    (escQueries crossed 133 [some 0, some 3] (escInit 4)).map (fun r => (r.1.st 3, r.2)) =
      some (.final, [firstBit, ⊥]) ∧
    (escQueries crossed 133 [some 3] (escInit 4)).map (fun r => (r.1.st 3, r.2)) =
      some (.final, [firstBit]) ∧
    firstBit ≠ ⊥ :=
  ⟨orProg_monotone _ _, by decide +kernel, by decide +kernel, by decide⟩

end IdCompiler.Escape

import IdCompiler.Escape.Steps

/-!
# One pass over a body

Asking about the names of a body in turn, joining what it makes of the answers,
and deciding whether to start over. A pass that ends the loop leaves enough for
the call to be put by or sealed.
-/

namespace IdCompiler.Escape

open IdCompiler.Core

variable {n : Nat} {p : Prog n} {frames : List (Frame n)} {s s' s'' : State n}

/-- What asking about functions leaves of the tables, for the pass that asked. -/
structure Asked (p : Prog n) (s s' : State n) : Prop extends Keeps (fun _ => False) s s' where
  low_le : s'.low ≤ s.low
  /-- The pass has noted the depth of every function newly put by. -/
  low_new : ∀ k ∈ s'.mem, k ∉ s.mem → s'.low ≤ s'.dp k
  /-- When no mask grew, every function newly put by is closed under its own summary. -/
  quiet : s'.stale = false → s'.grown = s.grown → ∀ k ∈ s'.mem, k ∉ s.mem →
    p.body s'.pe k ≤ s'.pe k

theorem Asked.refl (p : Prog n) (s : State n) : Asked p s s :=
  { Keeps.refl _ s with
    low_le := le_rfl
    low_new := fun _ hk hk' => absurd hk hk'
    quiet := fun _ _ _ hk hk' => absurd hk hk' }

theorem Asked.trans (hinv : Inv p frames s') (h : Asked p s s') (h' : Asked p s' s'') :
    Asked p s s'' := by
  have hwait : ∀ {k}, k ∈ s'.mem → s'.st k ≠ .unstarted := fun hk => by
    rw [(hinv.mem_iff _).mp hk]; decide
  refine { h.toKeeps.trans h'.toKeeps with
    low_le := h'.low_le.trans h.low_le
    low_new := fun k hk hn => ?_
    quiet := fun hs hg k hk hn => ?_ }
  · by_cases hk' : k ∈ s'.mem
    · rw [h'.dp k (hwait hk')]
      exact h'.low_le.trans (h.low_new k hk' hn)
    · exact h'.low_new k hk hk'
  · have hle := h.grown_le
    have hle' := h'.grown_le
    by_cases hk' : k ∈ s'.mem
    · have hcong : p.body s''.pe k = p.body s'.pe k :=
        p.body_congr fun c hc => h'.pe c (hinv.wait_seen k hk' c hc) id
      rw [hcong, h'.pe k (hwait hk') id]
      exact h.quiet (h'.stale hs) (by omega) k hk' hn
    · exact h'.quiet hs (by omega) k hk hk'

/-- What computing a function leaves. -/
structure Computed (p : Prog n) (frames : List (Frame n)) (ix : Fin n) (s s' : State n) :
    Prop where
  inv : Inv p frames s'
  asked : Asked p s s'
  /-- The function is final, or waits for a call above the one that asked. -/
  done : s'.st ix = .final ∧ s'.mem = s.mem ∨ s'.st ix = .waiting ∧ s'.dp ix < s.depth

/-- A function just computed has been read. -/
theorem Computed.seen {ix : Fin n} (hinv : Inv p frames s) (hix : s.st ix = .unstarted)
    (h : Computed p frames ix s s') : Seen frames s' ix := by
  rcases h.done with ⟨hf, _⟩ | ⟨hw, _⟩
  · exact ⟨by simp [hf], .inl hf, fun _ _ _ => .inl hf⟩
  · have hnew : ix ∉ s.mem := by rw [hinv.mem_iff, hix]; decide
    have hmem : ix ∈ s'.mem := (h.inv.mem_iff ix).mpr hw
    refine ⟨by simp [hw], .inr (h.asked.low_new ix hmem hnew), fun _ d hd => ?_⟩
    have hmin : min s'.low d < frames.length := by omega
    refine .inr (.inl ⟨hw, _, List.getElem?_eq_getElem hmin, ?_⟩)
    -- it joined the list after everything that waited before the call that asked
    obtain ⟨new, hnew'⟩ := h.asked.mem
    rw [← hnew', List.idxOf_append_of_notMem hnew]
    exact (hinv.emk_le _ (List.getElem_mem hmin)).trans (Nat.le_add_right ..)

/-- Asking about one name. -/
theorem escMask_spec {compute : Fin n → State n → Option (State n)}
    (hcomp : ∀ ix s, Inv p frames s → s.st ix = .unstarted →
      ∃ s', compute ix s = some s' ∧ Computed p frames ix s s')
    (c : Option (Fin n)) (hinv : Inv p frames s) :
    ∃ s', escMask compute frames c s = some (s', valueOf s'.pe c) ∧ Inv p frames s' ∧
      Asked p s s' ∧ ∀ k, c = some k → Seen frames s' k := by
  cases c with
  | none => exact ⟨s, rfl, hinv, Asked.refl p s, fun k hk => by simp at hk⟩
  | some ix =>
    simp only [escMask, escMaskAt]
    by_cases hix : s.st ix = .unstarted
    · obtain ⟨s', hs', h⟩ := hcomp ix s hinv hix
      refine ⟨s', by simp [hix, hs', valueOf], h.inv, h.asked, fun k hk => ?_⟩
      obtain rfl := Option.some.inj hk
      exact h.seen hinv hix
    · refine ⟨escLow frames ix s, by simp [hix, valueOf], hinv.low ix, ?_, fun k hk => ?_⟩
      · exact { Keeps.low ix _ with
          low_le := escLow_low_le ix
          low_new := fun _ hk hk' => absurd hk hk'
          quiet := fun _ _ _ hk hk' => absurd hk hk' }
      · obtain rfl := Option.some.inj hk
        exact Seen.of_low hinv hix

/-- Asking about the names of a body: at the end every answer is the mask as it stands. -/
theorem escAskAll_spec {ask : Option (Fin n) → State n → Option (State n × Mask)}
    (hask : ∀ c s, Inv p frames s → ∃ s', ask c s = some (s', valueOf s'.pe c) ∧
      Inv p frames s' ∧ Asked p s s' ∧ ∀ k, c = some k → Seen frames s' k)
    (cs : List (Option (Fin n))) (hinv : Inv p frames s) :
    ∃ s', escAskAll ask cs s = some (s', cs.map (valueOf s'.pe)) ∧ Inv p frames s' ∧
      Asked p s s' ∧ ∀ k, some k ∈ cs → Seen frames s' k := by
  induction cs generalizing s with
  | nil => exact ⟨s, rfl, hinv, Asked.refl p s, fun k hk => by simp at hk⟩
  | cons c cs ih =>
    obtain ⟨s₁, h₁, hinv₁, hask₁, hseen₁⟩ := hask c s hinv
    obtain ⟨s₂, h₂, hinv₂, hask₂, hseen₂⟩ := ih hinv₁
    have hval : valueOf s₂.pe c = valueOf s₁.pe c := by
      cases c with
      | none => rfl
      | some k => exact hask₂.pe k (hseen₁ k rfl).started id
    refine ⟨s₂, by simp [escAskAll, h₁, h₂, hval], hinv₂, hask₁.trans hinv₁ hask₂,
      fun k hk => ?_⟩
    rcases List.mem_cons.mp hk with hk | hk
    · exact (hseen₁ k hk.symm).keep hinv₁ hinv₂ hask₂.toKeeps hask₂.low_le
    · exact hseen₂ k hk

/-! ## The mask of the call on top -/

theorem le_escJoin (ix : Fin n) (m : Mask) (s : State n) : m ≤ (escJoin ix m s).pe ix := by
  unfold escJoin
  split
  · simp
  · next h => exact sup_eq_left.mp (not_not.mp h)

/-- A join that is not counted changes nothing. -/
theorem escJoin_of_grown {ix : Fin n} {m : Mask} (h : (escJoin ix m s).grown = s.grown) :
    escJoin ix m s = s := by
  unfold escJoin at h ⊢
  split
  · next hne => simp [hne] at h
  · rfl

theorem Keeps.join (ix : Fin n) (m : Mask) (s : State n) : Keeps (· = ix) s (escJoin ix m s) := by
  unfold escJoin
  split
  · next hne =>
    refine ⟨fun _ _ => rfl, fun _ _ => rfl, fun k _ hk => Function.update_of_ne hk ..,
      List.prefix_rfl, ?_, Nat.le_succ _, fun _ heq => ?_, id⟩
    · exact le_update_iff.mpr ⟨le_sup_left, fun _ _ => le_rfl⟩
    · exact hne ((Function.update_self ..).symm.trans (congrFun heq ix))
  · exact Keeps.refl _ s

theorem escJoin_low (ix : Fin n) (m : Mask) (s : State n) : (escJoin ix m s).low = s.low := by
  unfold escJoin; split <;> rfl

theorem escJoin_mem (ix : Fin n) (m : Mask) (s : State n) : (escJoin ix m s).mem = s.mem := by
  unfold escJoin; split <;> rfl

/-- Joining its summary into the mask of the function on top keeps the invariant: no final
function reads it. -/
theorem Inv.join {f : Frame n} (hp : p.Monotone) (hinv : Inv p (frames ++ [f]) s) :
    Inv p (frames ++ [f]) (escJoin f.ix (p.body s.pe f.ix) s) := by
  unfold escJoin
  split
  swap
  · exact hinv
  have hrun := hinv.top.1
  refine { hinv with
    native_le := fun k m hk => ?_
    below := fun x hx => ?_
    final_out := fun hs => hinv.final_out hs
    final_le := fun hs k hk => ?_
    wait_in := fun hs => hinv.wait_in hs }
  · have hne : k ≠ f.ix := by
      rintro rfl
      simp [hinv.readable _ (.inl hrun)] at hk
    simpa [hne] using hinv.native_le k m hk
  · have hle := hinv.below x hx
    exact update_le_iff.mpr
      ⟨sup_le (hle _) ((hp.body_mono hle _).trans (hx _)), fun k _ => hle k⟩
  · have hother : ∀ c, s.st c = .final → c ≠ f.ix := by
      rintro c hc rfl
      simp [hrun] at hc
    have hcong : p.body (Function.update s.pe f.ix (s.pe f.ix ⊔ p.body s.pe f.ix)) k =
        p.body s.pe k :=
      p.body_congr fun c hc => Function.update_of_ne (hother c (hinv.final_out hs k hk c hc)) ..
    change p.body (Function.update s.pe f.ix _) k ≤ Function.update s.pe f.ix _ k
    rw [hcong, Function.update_of_ne (hother k hk)]
    exact hinv.final_le hs k hk

/-! ## Starting over -/

/-- The tables at the start of a pass of the call `f`, begun from `o`. -/
structure PassStart (p : Prog n) (frames : List (Frame n)) (f : Frame n) (o s : State n) :
    Prop where
  inv : Inv p (frames ++ [f]) s
  keep : Keeps (· = f.ix) o s
  mem : s.mem = o.mem

/-- Past a list's own start, a member was not there before. -/
theorem mem_drop_shared {o s : State n} (hnd : s.mem.Nodup) (hpre : o.mem <+: s.mem) (k : Fin n) :
    k ∈ s.mem.drop o.mem.length ↔ k ∈ s.mem ∧ k ∉ o.mem := by
  obtain ⟨new, hnew⟩ := hpre
  rw [← hnew] at hnd ⊢
  rw [List.drop_left, List.mem_append]
  have hdisj := (List.nodup_append.mp hnd).2.2
  constructor
  · exact fun hk => ⟨.inr hk, fun hk' => hdisj k hk' k hk rfl⟩
  · exact fun hk => hk.1.resolve_left hk.2

theorem take_shared {o s : State n} (hpre : o.mem <+: s.mem) :
    s.mem.take o.mem.length = o.mem :=
  (List.prefix_iff_eq_take.mp hpre).symm

/-- Starting the functions put by in this call over leaves what was there when it began. -/
theorem Keeps.drain {own : Fin n → Prop} {o : State n} {fo : List (Frame n)}
    (ho : Inv p fo o) (hinv : Inv p frames s) (h : Keeps own o s) (edv : Status) :
    Keeps own o (escDrain o.mem.length edv s) where
  st k hk := by
    have hnot : k ∉ s.mem.drop o.mem.length := by
      rw [mem_drop_shared hinv.nodup h.mem, hinv.mem_iff, h.st k hk, ho.mem_iff]
      exact fun hc => hc.2 hc.1
    simp only [escDrain, hnot, if_false]
    exact h.st k hk
  dp := h.dp
  pe := h.pe
  mem := by
    change o.mem <+: s.mem.take o.mem.length
    rw [take_shared h.mem]
  pe_le := h.pe_le
  grown_le := h.grown_le
  grown_ne := h.grown_ne
  stale := h.stale

theorem PassStart.again {f : Frame n} {o : State n} (ho : Inv p (frames ++ [f]) o)
    (hinv : Inv p (frames ++ [f]) s) (h : Keeps (· = f.ix) o s) :
    PassStart p frames f o (escDrain o.mem.length .unstarted s) := by
  have hkeep := h.drain ho hinv .unstarted
  have hmem : (escDrain o.mem.length .unstarted s).mem = o.mem := take_shared h.mem
  have hst : ∀ {k t}, t ≠ .unstarted → t ≠ .waiting →
      ((escDrain o.mem.length .unstarted s).st k = t ↔ s.st k = t) := by
    intro k t ht ht'
    simp only [escDrain]
    split
    · next hd =>
      have hw := (hinv.mem_iff k).mp (List.mem_of_mem_drop hd)
      simp [hw, ht.symm, ht'.symm]
    · exact Iff.rfl
  refine ⟨?_, hkeep, hmem⟩
  refine
    { depth := hinv.depth
      run_at := fun i g hg => ?_
      run_in := fun k hk => hinv.run_in k ((hst (by decide) (by decide)).mp hk)
      emk_mono := hinv.emk_mono
      emk_le := fun g hg => by rw [hmem]; exact ho.emk_le g hg
      nodup := by rw [hmem]; exact ho.nodup
      mem_iff := fun k => ?_
      readable := fun k hk => hinv.readable k ?_
      native_le := hinv.native_le
      below := hinv.below
      wait_seen := fun k hk c hc => ?_
      final_out := fun hs k hk c hc => ?_
      final_le := fun hs k hk => hinv.final_le hs k ((hst (by decide) (by decide)).mp hk)
      wait_in := fun hs k hk d hd c hc => ?_ }
  · obtain ⟨hr, hd⟩ := hinv.run_at i g hg
    exact ⟨(hst (by decide) (by decide)).mpr hr, hd⟩
  · rw [hmem]
    simp only [escDrain, mem_drop_shared hinv.nodup h.mem]
    split
    · next hd => simp [hd.2]
    · next hd =>
      rw [← hinv.mem_iff]
      exact ⟨fun hk => h.mem.subset hk, fun hk => by_contra fun hn => hd ⟨hk, hn⟩⟩
  · simp only [escDrain] at hk
    split at hk
    · simp at hk
    · exact hk
  · rw [hmem] at hk
    exact hkeep.started (ho.wait_seen k hk c hc)
  · exact (hst (by decide) (by decide)).mpr
      (hinv.final_out hs k ((hst (by decide) (by decide)).mp hk) c hc)
  · -- what waits was waiting when the call began, and so was, or ran, what it calls
    rw [hmem] at hk
    have hd' : JoinedIn (frames ++ [f]) o d k := by
      obtain ⟨g, hg, hle⟩ := hd
      exact ⟨g, hg, by rwa [hmem] at hle⟩
    have hkd := hkeep.dp k (by rw [(ho.mem_iff k).mp hk]; decide)
    rw [hkd]
    exact (ho.wait_in (h.stale hs) k hk d hd' c hc).keep ho.mem_iff hkeep

/-! ## The end of the loop -/

/-- The tables when the passes of the call `f`, begun from `o`, are over. -/
structure PassEnd (p : Prog n) (frames : List (Frame n)) (f : Frame n) (o s : State n) :
    Prop where
  inv : Inv p (frames ++ [f]) s
  keep : Keeps (· = f.ix) o s
  low_new : ∀ k ∈ s.mem, k ∉ o.mem → s.low ≤ s.dp k
  seen : ∀ c, p.Calls f.ix c → Seen (frames ++ [f]) s c
  /-- When no mask grew since the call began, or nothing above it was read, the function and
  all that were put by in it are closed under their own summaries. -/
  closed : s.stale = false → s.grown = o.grown ∨ frames.length ≤ s.low →
    p.body s.pe f.ix ≤ s.pe f.ix ∧ ∀ k ∈ s.mem, k ∉ o.mem → p.body s.pe k ≤ s.pe k

/-- One pass ends the loop, or starts it over with more bits set. -/
theorem escPass_spec {f : Frame n} {o : State n} (hp : p.Monotone)
    (ho : Inv p (frames ++ [f]) o) (hemk : f.emk = o.mem.length)
    {ask : Option (Fin n) → State n → Option (State n × Mask)}
    (hask : ∀ c s, Inv p (frames ++ [f]) s → ∃ s', ask c s = some (s', valueOf s'.pe c) ∧
      Inv p (frames ++ [f]) s' ∧ Asked p s s' ∧ ∀ k, c = some k → Seen (frames ++ [f]) s' k)
    (h : PassStart p frames f o s) :
    ∃ s' again, escPass p ask f.ix frames.length f.emk s = some (s', again) ∧
      (again = true → PassStart p frames f o s' ∧ height s.pe < height s'.pe) ∧
      (again = false → PassEnd p frames f o s') := by
  have hstart : Inv p (frames ++ [f]) { s with low := 1000000 } := h.inv.relow id
  obtain ⟨t, ht, hinv, hasked, hseen⟩ := escAskAll_spec hask (p.calls f.ix) hstart
  have hread : p.native f.ix = none := hinv.readable _ (.inl hinv.top.1)
  have hsum : p.sum f.ix ((p.calls f.ix).map (valueOf t.pe)) = p.body t.pe f.ix := by
    simp only [Prog.body, hread]
  have hkt : Keeps (· = f.ix) s t :=
    { hasked.toKeeps.weaken fun _ hk => hk.elim with }
  let u := escJoin f.ix (p.body t.pe f.ix) t
  have hinvu : Inv p (frames ++ [f]) u := hinv.join hp
  have hku : Keeps (· = f.ix) t u := Keeps.join f.ix _ t
  have hlow : u.low = t.low := escJoin_low ..
  have hmem : u.mem = t.mem := escJoin_mem ..
  have hou : Keeps (· = f.ix) o u := (h.keep.trans hkt).trans hku
  have hrun : escPass p ask f.ix frames.length f.emk s =
      some (escAgain frames.length f.emk s.grown u) := by
    simp only [escPass, escSummary, ht, Option.map_some, hsum, u]
  by_cases hagain : frames.length ≤ u.low ∧ u.grown ≠ s.grown ∧
      (u.low = frames.length ∨ f.emk < u.mem.length)
  · refine ⟨_, true, by rw [hrun, escAgain, if_pos hagain], fun _ => ⟨?_, ?_⟩, by simp⟩
    · rw [hemk]
      exact PassStart.again ho hinvu hou
    · have hsu := hkt.trans hku
      exact height_lt hsu.pe_le (hsu.grown_ne hagain.2.1).symm
  · refine ⟨_, false, by rw [hrun, escAgain, if_neg hagain], by simp, fun _ => ?_⟩
    have hseenu : ∀ c, p.Calls f.ix c → Seen (frames ++ [f]) u c := fun c hc =>
      (hseen c hc.2).keep hinv hinvu hku hlow.le
    refine ⟨hinvu, hou, fun k hk hn => ?_, hseenu, fun hs hend => ?_⟩
    · rw [hmem] at hk
      have hdp := hku.dp k (by rw [(hinv.mem_iff k).mp hk]; decide)
      rw [hlow, hdp]
      exact hasked.low_new k hk (by simpa [h.mem] using hn)
    have hsg := hkt.grown_le
    have htg := hku.grown_le
    have hog := h.keep.grown_le
    by_cases hquiet : u.grown = s.grown
    · -- nothing grew: the answers are the masks as they stand
      have heq : u = t := escJoin_of_grown (show u.grown = t.grown by omega)
      have hle := le_escJoin f.ix (p.body t.pe f.ix) t
      change escJoin f.ix (p.body t.pe f.ix) t = t at heq
      rw [heq] at hle
      change p.body (escJoin f.ix (p.body t.pe f.ix) t).pe f.ix ≤ _ ∧ ∀ k ∈ u.mem, _
      refine ⟨by rw [show u = t from heq]; rw [heq]; exact hle, fun k hk hn => ?_⟩
      rw [show u = t from heq] at hk ⊢
      exact hasked.quiet (hku.stale hs) (show t.grown = s.grown by omega) k hk
        (by simpa [h.mem] using hn)
    · -- something grew, but the pass read no function still running
      have hlow' : frames.length < u.low ∧ u.mem.length ≤ f.emk := by
        rcases hend with hend | hend
        · omega
        · push Not at hagain
          have := hagain hend hquiet
          exact ⟨by omega, by omega⟩
      have hmo : u.mem = o.mem :=
        (hou.mem.eq_of_length_le (by omega)).symm
      have hfinal : ∀ c, p.Calls f.ix c → u.st c = .final := by
        intro c hc
        have hsc := hseenu c hc
        have hin := hsc.inside hs frames.length (by simp)
        rw [min_eq_right hlow'.1.le] at hin
        rcases hin with hf | ⟨hw, g, hg, hle⟩ | ⟨hr, hle⟩
        · exact hf
        · rcases getElem?_snoc.mp hg with hg | ⟨_, rfl⟩
          · have := (List.getElem?_eq_some_iff.mp hg).1
            omega
          · have := hinvu.idxOf_lt hw
            omega
        · obtain ⟨g, hg, _⟩ := hinvu.run_in c hr
          have hlt := (List.getElem?_eq_some_iff.mp hg).1
          have hlc := hsc.low.resolve_left (by simp [hr])
          simp only [List.length_append, List.length_singleton] at hlt
          omega
      refine ⟨?_, fun k hk hn => absurd (hmo ▸ hk) hn⟩
      have hcong : p.body u.pe f.ix = p.body t.pe f.ix := by
        refine p.body_congr fun c hc => hku.pe c (hseen c hc.2).started ?_
        rintro rfl
        have := hfinal _ hc
        simp [hinvu.top.1] at this
      rw [hcong]
      exact le_escJoin f.ix (p.body t.pe f.ix) t

end IdCompiler.Escape

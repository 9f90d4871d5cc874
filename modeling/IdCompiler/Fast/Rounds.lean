import IdCompiler.Fast.Progress

/-!
# Round after round

What holds at the top of every round: names that are not written are as they
were before the loop, counters have only grown, and a second counter has grown
by no more than the counters of the condition together.
-/

namespace IdCompiler.Fast

open IdCompiler.Core Behave

variable {R : Runtime} {c : Ctx} {ok : Event → Prop} {s₀ s t : State}

/-- A limit no write and no call changes. -/
def Fixed (c : Ctx) (lim : Expr) : Prop :=
  lpLim c.ns lim = true ∧ ∀ x, lpLname lim = some x → ¬c.touched x

/-- A name that is only stepped and, where it is, is a counter that its type has room for up to a
limit and the steps of one round past it. -/
structure Counter (c : Ctx) (s₀ : State) (x : String) : Prop where
  untouched : ¬c.touched x
  other : lpCntOther c.ns x = 0
  fits : 0 < lpCnt c.ns x → ∃ lim n, (x, lim) ∈ c.bounds ∧ Fixed c lim ∧
    s₀.limit lim = some n ∧ n - 1 + lpCnt c.ns x ≤ (s₀.vals x).ty.max

/-- How far the counters of the condition have come since the loop began. -/
def gain (c : Ctx) (s₀ s : State) : Int :=
  (c.bounds.map fun b => (s.vals b.1).num.getD 0 - (s₀.vals b.1).num.getD 0).sum

/-- How far they can come. -/
def room (c : Ctx) (s₀ : State) : Int :=
  (c.bounds.map fun b => (s₀.limit b.2).getD 0 - 1 - (s₀.vals b.1).num.getD 0).sum

/-- A name stepped once a round, where each round steps a counter of the condition. -/
structure Second (c : Ctx) (s₀ : State) (k : String) : Prop where
  untouched : ¬c.touched k
  other : lpCntOther c.ns k = 0
  once : lpCnt c.ns k = 1
  ctrs : ∀ b ∈ c.bounds, Counter c s₀ b.1 ∧ (∃ m, (s₀.vals b.1).num = some m) ∧
    Fixed c b.2 ∧ ∃ n, s₀.limit b.2 = some n
  prog : lxProg c.bounds c.stmts = true
  fits : ∀ m, (s₀.vals k).num = some m → m + room c s₀ + 1 ≤ (s₀.vals k).ty.max

/-- A state at the top of a round of a loop begun in `s₀`. -/
structure Head (c : Ctx) (s₀ s : State) : Prop where
  same : ∀ x, ¬c.touched x → lpCnt c.ns x = 0 → s.vals x = s₀.vals x
  heap : s₀.heap.Ext s.heap
  ctr : ∀ x m, Counter c s₀ x → (s₀.vals x).num = some m →
    ∃ m', (s.vals x).num = some m' ∧ (s.vals x).ty = (s₀.vals x).ty ∧ m ≤ m'
  sec : ∀ k m, Second c s₀ k → (s₀.vals k).num = some m →
    ∃ m', (s.vals k).num = some m' ∧ (s.vals k).ty = (s₀.vals k).ty ∧ m ≤ m' ∧
      m' ≤ m + gain c s₀ s

theorem Head.start (c : Ctx) (s : State) : Head c s s where
  same _ _ _ := rfl
  heap := Heap.Ext.refl _
  ctr _ m _ hm := ⟨m, hm, rfl, Int.le_refl m⟩
  sec _ m _ hm := ⟨m, hm, rfl, Int.le_refl m, by simp [gain]⟩

/-- A number is at most its type's largest. -/
theorem Val.num_le_max {v : Val} {n : Int} (h : v.num = some n) : n ≤ v.ty.max := by
  cases v with
  | int v =>
    obtain rfl := Option.some.inj h
    have := BitVec.toInt_lt (x := v)
    simp only [Val.ty, Ty.max]
    omega
  | word v =>
    obtain rfl := Option.some.inj h
    have := BitVec.toInt_lt (x := v)
    simp only [Val.ty, Ty.max]
    omega
  | list r | bytes r | str s | other => simp [Val.num] at h

theorem lpLname_of_len {lim : Expr} {id : Nat} {x : String}
    (h : lpLenarg lim = some (.var id x)) : lpLname lim = some x := by
  obtain ⟨id', vid, y, rfl, hy⟩ := lpLenarg_eq_some h
  simp only [lpLname, h]

/-- A limit whose name is unchanged reads the same. -/
theorem State.limit_same {lim : Expr} {n : Int}
    (hname : ∀ x, lpLname lim = some x → t.vals x = s.vals x) (hext : s.heap.Ext t.heap)
    (h : s.limit lim = some n) : t.limit lim = some n := by
  cases lim with
  | int id v w => exact h
  | var id x =>
    simp only [State.limit] at h ⊢
    rw [hname x rfl]
    exact h
  | call id f args =>
    simp only [State.limit] at h ⊢
    split at h
    · next vid x harg =>
      obtain ⟨k, hk, hkn⟩ := Option.map_eq_some_iff.mp h
      rw [hname x (lpLname_of_len harg), Val.seqLen_ext hext hk]
      rw [Option.map_some, hkn]
    · simp at h
  | imp | bin | index | other => simp [State.limit, lpLenarg] at h

theorem Head.limit (h : Head c s₀ s) {lim : Expr} {n : Int} (hlim : Fixed c lim)
    (hn : s₀.limit lim = some n) : s.limit lim = some n := by
  refine State.limit_same (fun x hx => h.same x (hlim.2 x hx) ?_) h.heap hn
  have := hlim.1
  simpa [lpLim, hx] using this

/-- A counter below its limit has room for a round's steps. -/
theorem Head.roomy (h : Head c s₀ s) (hbelow : Below c.bounds s) {x : String} {m : Int}
    (hx : Counter c s₀ x) (hm : (s₀.vals x).num = some m) : Roomy c s x := by
  obtain ⟨m', hm', hty, hle⟩ := h.ctr x m hx hm
  refine ⟨hx.untouched, hx.other, m', hm', ?_⟩
  rcases Nat.eq_zero_or_pos (lpCnt c.ns x) with h0 | hpos
  · have := Val.num_le_max hm'
    omega
  · obtain ⟨lim, n, hb, hfix, hn, hmax⟩ := hx.fits hpos
    have := hbelow _ hb m' n hm' (h.limit hfix hn)
    rw [hty]
    omega

/-- While the condition holds, the counters have not used up their room. -/
theorem Head.gain_le (h : Head c s₀ s) (hbelow : Below c.bounds s) {k : String}
    (hk : Second c s₀ k) : gain c s₀ s ≤ room c s₀ := by
  refine List.sum_le_sum fun b hb => ?_
  obtain ⟨hctr, ⟨m, hm⟩, hfix, n, hn⟩ := hk.ctrs b hb
  obtain ⟨m', hm', -, -⟩ := h.ctr _ m hctr hm
  have := hbelow b hb m' n hm' (h.limit hfix hn)
  simp only [hm, hm', hn, Option.getD_some]
  omega

/-- A round that ends takes the loop from the top of one round to the top of the next. -/
theorem Head.round (h : Head c s₀ s) (hbelow : Below c.bounds s)
    (hsub : (blockNodes c.stmts).Subperm c.ns) (hnow : Now c c.stmts (blockNodes c.stmts) s t)
    (hprog : (∀ b ∈ c.bounds, Roomy c s b.1) → lxProg c.bounds c.stmts = true →
      Stepped c s t) : Head c s₀ t := by
  have hcnt : ∀ x, lpCnt (blockNodes c.stmts) x ≤ lpCnt c.ns x := lpCnt_le hsub
  have hctr : ∀ x m, Counter c s₀ x → (s₀.vals x).num = some m →
      ∃ m₁ m₂, (s.vals x).num = some m₁ ∧ (t.vals x).num = some m₂ ∧
        (t.vals x).ty = (s₀.vals x).ty ∧ m ≤ m₁ ∧ m₁ ≤ m₂ := fun x m hx hm => by
    obtain ⟨m₁, hm₁, hty, hle⟩ := h.ctr x m hx hm
    obtain ⟨-, -, m₁', hm₁', hmax⟩ := h.roomy hbelow hx hm
    obtain rfl := Option.some.inj (hm₁.symm.trans hm₁')
    obtain ⟨m₂, hm₂, hty', hle', -⟩ := hnow.step x m₁ hx.untouched hx.other hm₁ hmax
    exact ⟨m₁, m₂, hm₁, hm₂, hty'.trans hty, hle, hle'⟩
  refine
    { same := fun x hx h0 => ?_
      heap := h.heap.trans hnow.heap
      ctr := fun x m hx hm => ?_
      sec := fun k m hk hm => ?_ }
  · exact (hnow.same x hx (by have := hcnt x; omega)).trans (h.same x hx h0)
  · obtain ⟨m₁, m₂, -, hm₂, hty, hle, hle'⟩ := hctr x m hx hm
    exact ⟨m₂, hm₂, hty, by omega⟩
  · obtain ⟨m₁, hm₁, hty, hle, hgain⟩ := h.sec k m hk hm
    have hroom := h.gain_le hbelow hk
    have hfits := hk.fits m hm
    have honce := hk.once
    obtain ⟨m₂, hm₂, hty', hle', hhi⟩ := hnow.step k m₁ hk.untouched hk.other hm₁
      (by rw [hty]; omega)
    have hstepped := hprog (fun b hb => (hk.ctrs b hb).2.1.elim fun m hm =>
      h.roomy hbelow (hk.ctrs b hb).1 hm) hk.prog
    obtain ⟨b, hb, n, n', hn, hn', hlt⟩ := hstepped
    -- each round steps a counter, so the counters have made up for this one's step
    have hgrow : gain c s₀ s < gain c s₀ t := by
      unfold gain
      refine List.sum_lt_sum _ _ (fun b hb => ?_) ⟨b, hb, ?_⟩
      · obtain ⟨m₀, hm₀⟩ := (hk.ctrs b hb).2.1
        obtain ⟨n₁, n₂, hn₁, hn₂, -, -, hle⟩ := hctr b.1 m₀ (hk.ctrs b hb).1 hm₀
        simp only [hn₁, hn₂, Option.getD_some]
        omega
      · simp only [hn, hn', Option.getD_some]
        omega
    have := hcnt k
    exact ⟨m₂, hm₂, hty'.trans hty, by omega, by omega⟩

/-- In a loop whose accesses are acceptable in every round, every access of every run is. -/
theorem runLoop_holds (w : Loop) (hc : c.Clean) (hcond : (lpCond w.cond).2 = false)
    (hbounds : c.bounds = (lpCond w.cond).1) (hstmts : c.stmts = w.stmts)
    (hsub : (blockNodes c.stmts).Subperm c.ns)
    (hcov : ∀ s, Head c s₀ s → Below c.bounds s → ∀ T st rest, T ++ st :: rest = c.stmts →
      Covered ok c T s (blockNodes T) st.nodes) :
    Holds ok (· = s₀) (runLoop c.prog R w) fun _ _ => True := by
  refine (Holds.loop (P := Head c s₀) ?_).pre fun s hs => hs ▸ Head.start c s
  refine Holds.of_pre fun s hs => ?_
  unfold runRound
  refine Holds.bind (evalE_cond hcond) fun v => ?_
  split
  swap
  · exact Holds.ret fun _ _ => True.intro
  next htrue =>
  refine Holds.of_pre fun u hu => ?_
  obtain ⟨rfl, hbelow⟩ := hu
  rw [← hbounds] at hbelow
  have hbelow := hbelow (by rw [htrue]; simp)
  have hbody := runBody_now (R := R) hc c.stmts [] (List.nil_append _) hsub
    (hcov u hs hbelow)
  have hstep : Holds (fun _ => True) (· = u) (runB c.prog R c.stmts) fun o t => o = .norm →
      (∀ b ∈ c.bounds, Roomy c u b.1) → lxProg c.bounds c.stmts = true → Stepped c u t := by
    by_cases hp : (∀ b ∈ c.bounds, Roomy c u b.1) ∧ lxProg c.bounds c.stmts = true
    · refine (lxProg_stepped (R := R) hc hp.1 c.stmts hp.2 [] (by simpa using hsub)).mono
        (fun t ht => ?_) fun o t h ho _ _ => h ho
      rw [ht]
      exact (Now.start c u).toMid
    · exact fun _ _ _ _ _ _ => ⟨fun _ _ => True.intro, fun _ _ _ h h' => absurd ⟨h, h'⟩ hp⟩
  have hstart : ∀ t, t = u → Now c [] (blockNodes []) u t := fun t ht => by
    rw [ht]
    exact Now.start c u
  rw [← hstmts]
  refine Holds.bind ((hbody.pre hstart).and hstep) fun o => ?_
  cases o with
  | norm => exact Holds.ret fun t ht => hs.round hbelow hsub (ht.1 rfl) (ht.2 rfl)
  | brk | ret => exact Holds.ret fun _ _ => True.intro

end IdCompiler.Fast

import IdCompiler.Fast.Placed
import IdCompiler.Fast.Tokens

/-!
# The simple shapes

An access by `j` or `j + k` that the plan took is in range in every round of
every run the guard lets into the guarded copy, unless the access stands in the
step of a `for` whose body writes `j`, or the counter is stepped past what its
type holds.
-/

namespace IdCompiler.Fast

open IdCompiler.Core Behave

variable {p : Prog} {R : Runtime} {c : Ctx} {s₀ s t : State}

/-- The access reads or writes a cell its sequence has. -/
def Event.InRange (e : Event) : Prop :=
  ∃ (i : Int) (n : Nat), e.ix.num = some i ∧ e.base.seqLen e.heap = some n ∧ 0 ≤ i ∧ i < n

/-- The access is to what its name stood for before the loop, and the header copied then is
still its header. -/
def Event.SameHeader (e : Event) (s₀ : State) (base : Expr) : Prop :=
  ∃ id xs, base = .var id xs ∧ e.base = s₀.vals xs ∧
    ∀ hd, (s₀.vals xs).header s₀.heap = some hd → e.base.header e.heap = some hd

/-- What the guard does not ask of an access by `j + k`. -/
structure SimpleFits (w : Loop) (s₀ : State) (a : Access) (j : String) (k : Int) (lim : Expr) :
    Prop where
  /-- An access in the step of a `for` runs after the body, which must not write the counter. -/
  order : w.inStep a.id → lpCnt (blockNodes w.body) j = 0
  /-- The steps of a round do not take the counter past its type. -/
  step : ∀ l, s₀.limit lim = some l → l - 1 + lpCnt w.nodes j ≤ (s₀.vals j).ty.max
  /-- Nor does the index leave it. -/
  index : ∀ l, s₀.limit lim = some l → l - 1 + k ≤ (s₀.vals j).ty.max

/-- The value of an index `j + k`. -/
theorem lpIx_value {ix : Expr} {j : String} {k m : Int} (h : lpIx ix = some (j, k))
    (hm : (t.vals j).num = some m) (h0 : 0 ≤ m) (hmax : m + k ≤ (t.vals j).ty.max) :
    0 ≤ k ∧ k < 2 ^ 31 ∧ ∃ v, pureVal t ix = some v ∧ v.num = some (m + k) := by
  unfold lpIx at h
  split at h
  · simp only [Option.some.injEq, Prod.mk.injEq] at h
    obtain ⟨rfl, rfl⟩ := h
    exact ⟨by omega, by omega, _, rfl, by rw [hm, Int.add_zero]⟩
  · next bid vid x lid v wide =>
    split at h
    · next hlit =>
      simp only [Option.some.injEq, Prod.mk.injEq] at h
      obtain ⟨rfl, rfl⟩ := h
      simp only [lpLit, Bool.and_eq_true, Bool.not_eq_true', decide_eq_true_eq] at hlit
      obtain ⟨rfl, hk⟩ := hlit
      have hk' := litNum_lt v
      refine ⟨hk, hk', _, rfl, ?_⟩
      have hlitNum : (BitVec.ofInt 32 v).toInt = litNum v false := rfl
      cases hv : t.vals x with
      | int n =>
        rw [hv] at hm hmax
        obtain rfl := Option.some.inj hm
        have hsum : (BitVec.ofInt 32 (n.toInt + litNum v false)).toInt = n.toInt + litNum v false :=
          toInt_ofInt32 (by omega) (by simp only [Val.ty, Ty.max] at hmax; omega)
        simp [litVal, Val.arith, Val.num, hlitNum, hsum]
      | word n =>
        rw [hv] at hm hmax
        obtain rfl := Option.some.inj hm
        have hsum : (BitVec.ofInt 64 (n.toInt + litNum v false)).toInt = n.toInt + litNum v false :=
          toInt_ofInt64 (by omega) (by simp only [Val.ty, Ty.max] at hmax; omega)
        simp [litVal, Val.arith, Val.num, hlitNum, hsum]
      | list r | bytes r | str r | other => simp [hv, Val.num] at hm
    · simp at h
  · simp at h

theorem lpIx_nodes {ix : Expr} {j : String} {k : Int} (h : lpIx ix = some (j, k)) :
    (∃ id, Node.expr (.var id j) ∈ ix.nodes) ∧ 0 ≤ k ∧ k < 2 ^ 31 := by
  unfold lpIx at h
  split at h
  · next id x =>
    simp only [Option.some.injEq, Prod.mk.injEq] at h
    obtain ⟨rfl, rfl⟩ := h
    exact ⟨⟨id, by simp [Expr.nodes]⟩, by omega, by omega⟩
  · next bid vid x lid v wide =>
    split at h
    · next hlit =>
      simp only [Option.some.injEq, Prod.mk.injEq] at h
      obtain ⟨rfl, rfl⟩ := h
      simp only [lpLit, Bool.and_eq_true, decide_eq_true_eq] at hlit
      exact ⟨⟨vid, by simp [Expr.nodes]⟩, hlit.2, litNum_lt v⟩
    · simp at h
  · simp at h

/-- What `lpSimple` has checked of an access. -/
theorem lpSimple_eq {a : Access} {j : String} {k : Int} {lim : Expr}
    (h : lpSimple c a = some (j, k, lim)) :
    lpIx a.ix = some (j, k) ∧ (j, lim) ∈ c.bounds ∧ lpLim c.ns lim = true ∧
      lpSteps c.ns a.id j = true ∧ ∃ id xs, a.base = .var id xs ∧ lpCnt c.ns xs = 0 := by
  unfold lpSimple at h
  split at h
  swap
  · simp at h
  next j' k' hix =>
  split at h
  swap
  · simp at h
  next lim' hlim =>
  split at h
  swap
  · simp at h
  next hok =>
  simp only [Option.some.injEq, Prod.mk.injEq] at h
  obtain ⟨rfl, rfl, rfl⟩ := h
  unfold lpOk at hok
  split at hok
  swap
  · simp at hok
  next id xs hbase =>
  simp only [Bool.and_eq_true, decide_eq_true_eq] at hok
  exact ⟨hix, boundOf_mem hlim, hok.1.1, hok.2, id, xs, hbase, hok.1.2⟩

/-- What the clauses of the access say where they are true. -/
theorem lpTake_true {a : Access} {j : String} {k : Int} {lim : Expr} {q : Planned} {g : Guard}
    {id : Nat} {xs : String} (hg : g.True s₀) (hsub : (lpTake c a j k lim q).guard.Sub g)
    (hbase : a.base = .var id xs) (hlim : lpLimit lim = true) (hk : 0 ≤ k) (hk' : k < 2 ^ 31) :
    (∃ m, (s₀.vals j).num = some m ∧ 0 ≤ m) ∧
      ∃ (n : Nat) (l : Int), (s₀.vals xs).seqLen s₀.heap = some n ∧ s₀.limit lim = some l ∧
        l + k ≤ n := by
  refine ⟨clause_ge wrapping_lawful (hg _ (hsub (store_sub a _ (lpRel_mem ..)))), ?_⟩
  have hfit : lpNtok c.prog lim ++ lpFit c.prog (.var id xs) k ∈ g.lpcond := hsub <| by
    rw [← hbase]
    exact store_sub a _ (lpRel_sub _ _ _ _ (lpAdd_mem _ _))
  exact clause_fit wrapping_lawful hlim hk hk' (hg _ hfit)

/-- The access is in range wherever it stands in a round. -/
theorem lpSimple_okAt {w : NumberedLoop} (hp : Placed p w.toLoop) (hadm : Admitted p w.toLoop)
    {a : Access} {nd : Node} {j : String} {k : Int} {lim : Expr} {q : Planned} {g : Guard}
    (hnd : nd ∈ w.nodes) (ha : nd.access = some a)
    (hs : lpSimple (w.ctx p) a = some (j, k, lim)) (hg : g.True s₀)
    (hsub : (lpTake (w.ctx p) a j k lim q).guard.Sub g)
    (hfit : SimpleFits w.toLoop s₀ a j k lim) (hhead : Head (w.ctx p) s₀ s)
    (hbelow : Below (w.ctx p).bounds s) {T : List Stmt} {st : Stmt} {D : List Node}
    (hbefore : Before w.toLoop T st nd D) :
    ∀ t, Now (w.ctx p) T D s t → ∃ vb vi, pureVal t a.base = some vb ∧ pureVal t a.ix = some vi ∧
      ∀ h, t.heap.Ext h → (Event.mk a.id vb vi h).InRange ∧
        (Event.mk a.id vb vi h).SameHeader s₀ a.base := by
  obtain ⟨hix, hbound, hlim, hsteps, id, xs, hbase, hxs⟩ := lpSimple_eq hs
  obtain ⟨hjix, hk, hk'⟩ := lpIx_nodes hix
  obtain ⟨-, -, hlimit⟩ := lpCond_parts w.cond _ hbound
  obtain ⟨⟨m₀, hm₀, h0⟩, n, l, hn, hl, hle⟩ := lpTake_true hg hsub hbase hlimit hk hk'
  have hfixed := hp.fixed hadm hbound hlim
  have hjt := hp.counter hadm hbound
  have hparts := Node.access_parts ha
  have hxt : ¬(w.ctx p).touched xs := hp.untouched hadm
    (.inr ⟨nd, hnd, id, hparts.1 (by simp [hbase, Expr.nodes])⟩)
  simp only [lpSteps, Bool.and_eq_true, decide_eq_true_eq] at hsteps
  have hctr : Counter (w.ctx p) s₀ j :=
    { untouched := hjt
      other := hsteps.1
      fits := fun _ => ⟨lim, l, hbound, hfixed, hl, hfit.step l hl⟩ }
  obtain ⟨m, hm, hty, hge⟩ := hhead.ctr j m₀ hctr hm₀
  have hlt : m < l := hbelow _ hbound m l hm (hhead.limit hfixed hl)
  intro t ht
  have hcnt : lpCnt D j = 0 := hbefore.unwritten (Node.access_id ha ▸ hsteps.2)
    (Node.access_id ha ▸ hfit.order)
  have htj : t.vals j = s.vals j := ht.same j hjt hcnt
  have htxs : t.vals xs = s₀.vals xs := by
    have := lpCnt_le hbefore.sub xs
    have h0' : lpCnt w.nodes xs = 0 := hxs
    exact (ht.same xs hxt (by omega)).trans (hhead.same xs hxt hxs)
  have hindex := hfit.index l hl
  obtain ⟨-, -, v, hv, hvnum⟩ := lpIx_value (t := t) hix (by rw [htj]; exact hm) (by omega)
    (by rw [htj, hty]; omega)
  refine ⟨s₀.vals xs, v, by rw [hbase, ← htxs]; rfl, hv, fun h hext => ⟨?_, ?_⟩⟩
  · exact ⟨m + k, n, hvnum, Val.seqLen_ext ((hhead.heap.trans ht.heap).trans hext) hn, by omega,
      by omega⟩
  · exact ⟨id, xs, hbase, rfl,
      fun hd hhd => Val.header_ext ((hhead.heap.trans ht.heap).trans hext) hhd⟩

/-- An access in the plan's set is recorded with its clauses. -/
theorem NumberedLoop.taken (w : NumberedLoop) {nd : Node} {a : Access} (hnd : nd ∈ w.nodes)
    (ha : nd.access = some a) (hset : a.id ∈ (lpPlan p w.toLoop).lpset) :
    Admitted p w.toLoop ∧ Taken (w.ctx p) a (lpPlan p w.toLoop).guard := by
  obtain ⟨hadm, nd', hnd', a', ha', hid, htaken⟩ := lpPlan_taken hset
  obtain ⟨rfl, rfl⟩ := w.access_inj hnd' hnd ha' ha hid
  exact ⟨hadm, htaken⟩

/-- Every access by `j + k` in the plan's set is in range, and the header copied before the loop
is its sequence's, in every run from a state the guard is true in, whatever the run does. -/
theorem lpTake_inRange {w : NumberedLoop} (hp : Placed p w.toLoop) {s' : State} {r : Option Out}
    {tr : List Event} (hg : (lpPlan p w.toLoop).guard.True s₀)
    (hrun : runLoop p R w.toLoop s₀ s' r tr) {nd : Node} (hnd : nd ∈ w.nodes) {a : Access}
    (ha : nd.access = some a) (hset : a.id ∈ (lpPlan p w.toLoop).lpset) {j : String} {k : Int}
    {lim : Expr} (hs : lpSimple (w.ctx p) a = some (j, k, lim))
    (hfit : SimpleFits w.toLoop s₀ a j k lim) :
    ∀ e ∈ tr, e.id = a.id → e.InRange ∧ e.SameHeader s₀ a.base := by
  obtain ⟨hadm, htaken⟩ := w.taken hnd ha hset
  rcases htaken with ⟨j', k', lim', q, hs', hsub⟩ | ⟨hnone, -⟩
  swap
  · simp [hs] at hnone
  rw [hs] at hs'
  simp only [Option.some.injEq, Prod.mk.injEq] at hs'
  obtain ⟨rfl, rfl, rfl⟩ := hs'
  have hall : Holds (fun e => e.id = a.id → e.InRange ∧ e.SameHeader s₀ a.base) (· = s₀)
      (runLoop p R w.toLoop) fun _ _ => True := ?_
  · exact (hall s₀ s' r tr rfl hrun).1
  refine runLoop_inPlace hp hadm ?_
  intro s hhead hbelow T st nd D hbefore b hb
  by_cases hbid : b.id = a.id
  · right
    obtain ⟨rfl, rfl⟩ := w.access_inj hnd hbefore.mem_nodes ha hb hbid.symm
    intro t ht
    obtain ⟨vb, vi, hvb, hvi, hok⟩ := lpSimple_okAt hp hadm hnd ha hs hg hsub hfit hhead hbelow
      hbefore t ht
    exact ⟨vb, vi, hvb, hvi, fun h hext _ => hok h hext⟩
  · exact .inl fun _ _ _ h => absurd h hbid

/-- `while(j < n) { x = xs[j]; j = j + 1; }`. -/
def readLoop : NumberedLoop where
  id := 11
  cond := .bin 2 .lt (.var 0 "j") (.var 1 "n")
  step := none
  body := [.assign 6 "x" (.index 5 (.var 3 "xs") (.var 4 "j")),
    .assign 10 "j" (.bin 9 .add (.var 7 "j") (.int 8 1 false))]
  numbered := by decide

/-- `for(…; j < n; s = s + xs[j]) { j = j + 1; }`. -/
def stepLoop : NumberedLoop where
  id := 13
  cond := .bin 2 .lt (.var 0 "j") (.var 1 "n")
  step := some ⟨8, "s", .bin 7 .add (.var 3 "s") (.index 6 (.var 4 "xs") (.var 5 "j"))⟩
  body := [.assign 12 "j" (.bin 11 .add (.var 9 "j") (.int 10 1 false))]
  numbered := by decide

/-- `while(j < n) { x = xs[j]; j = j + 1; j = j + 1; }`. -/
def twiceLoop : NumberedLoop where
  id := 15
  cond := .bin 2 .lt (.var 0 "j") (.var 1 "n")
  step := none
  body := [.assign 6 "x" (.index 5 (.var 3 "xs") (.var 4 "j")),
    .assign 10 "j" (.bin 9 .add (.var 7 "j") (.int 8 1 false)),
    .assign 14 "j" (.bin 13 .add (.var 11 "j") (.int 12 1 false))]
  numbered := by decide

/-- `xs` a buffer of `len` bytes, `n` its length and `j` what is given. -/
def bytesState (len : Fin (2 ^ 31)) (j : Int) : State where
  vals x :=
    if x = "j" then .int (BitVec.ofInt 32 j)
    else if x = "n" then .int (BitVec.ofNat 32 len)
    else if x = "xs" then .bytes (some 0)
    else .int 0
  heap r := if r = 0 then some ⟨0, len, BitVec.ofNat 32 len, len.2⟩ else none

instance (g : Guard) (s : State) : Decidable (g.True s) :=
  inferInstanceAs (Decidable (∀ tk ∈ g.lpcond, clauseVal wrapping s tk = some true))

def bytesProg (w : Loop) : Prog := sampleProg w fun x => if x = "xs" then .bytes else .int

theorem bytesProg_placed (w : Loop) : Placed (bytesProg w) w :=
  sampleProg_placed w fun x => by split <;> simp

theorem bytesState_limit (len : Fin (2 ^ 31)) (j : Int) (id : Nat) :
    (bytesState len j).limit (.var id "n") = some ((BitVec.ofNat 32 len).toInt) := by
  simp [State.limit, bytesState, Val.num]

theorem lpTake_inRange_read :
    (⟨5, .bytes (some 0), .int 0, (bytesState 1 0).heap⟩ : Event).InRange ∧
      (⟨5, .bytes (some 0), .int 0, (bytesState 1 0).heap⟩ : Event).SameHeader (bytesState 1 0)
        (.var 3 "xs") :=
  have hrun : runLoop (bytesProg readLoop.toLoop) sampleRuntime readLoop.toLoop (bytesState 1 0) _
      none [⟨5, .bytes (some 0), .int 0, (bytesState 1 0).heap⟩] := sampleLoop_run (n := 1) rfl
  have hacc : Node.access (.expr (.index 5 (.var 3 "xs") (.var 4 "j"))) =
      some ⟨5, .var 3 "xs", .var 4 "j", false, false⟩ := rfl
  have hs : lpSimple (readLoop.ctx (bytesProg readLoop.toLoop))
      ⟨5, .var 3 "xs", .var 4 "j", false, false⟩ = some ("j", 0, .var 1 "n") := rfl
  lpTake_inRange (bytesProg_placed _) (by decide +kernel) hrun
    (by simp [readLoop, Loop.nodes, Loop.stepStmts, blockNodes, Stmt.nodes, Expr.nodes]) hacc
    (by decide +kernel) hs
    { order := fun h => absurd h (by simp [Loop.inStep, readLoop, Loop.stepStmts, blockNodes])
      step := fun l hl => by
        obtain rfl := Option.some.inj ((bytesState_limit ..).symm.trans hl)
        decide +kernel
      index := fun l hl => by
        obtain rfl := Option.some.inj ((bytesState_limit ..).symm.trans hl)
        decide +kernel }
    _ (List.mem_singleton_self _) rfl

instance (e : Event) : Decidable e.InRange :=
  match hi : e.ix.num, hn : e.base.seqLen e.heap with
  | some i, some n =>
    decidable_of_iff (0 ≤ i ∧ i < n) <| by simp [Event.InRange, hi, hn]
  | none, _ => .isFalse (by simp [Event.InRange, hi])
  | some _, none => .isFalse (by simp [Event.InRange, hn])

/-- The loop makes an access of the plan's set, by `j + k` or by a sum of terms, that is out of
range, in a run from a state the guard is true in. -/
def Strays (p : Prog) (w : Loop) (s : State) (simple : Bool) : Prop :=
  Placed p w ∧ (lpPlan p w).guard.True s ∧ ∃ s' r tr, runLoop p sampleRuntime w s s' r tr ∧
    ∃ e ∈ tr, ∃ nd ∈ w.nodes, ∃ a, nd.access = some a ∧ a.id = e.id ∧
      e.id ∈ (lpPlan p w).lpset ∧ (lpSimple (w.ctx p) a).isSome = simple ∧ ¬e.InRange

/-- Whether a node makes an access of that shape. -/
def shaped (c : Ctx) (simple : Bool) (id : Nat) (nd : Node) : Bool :=
  match nd.access with
  | some a => a.id = id && (lpSimple c a).isSome = simple
  | none => false

/-- Whether the sampled run strays. -/
def sampleStrays (p : Prog) (w : Loop) (n : Nat) (s : State) (simple : Bool) : Bool :=
  match sampleLoop w n s with
  | some (_, tr) => tr.any fun e => e.id ∈ (lpPlan p w).lpset && !decide e.InRange &&
      w.nodes.any (shaped (w.ctx p) simple e.id)
  | none => false

theorem Strays.of_sample {w : Loop} {n : Nat} {simple : Bool} (hp : Placed p w)
    (hg : (lpPlan p w).guard.True s) (h : sampleStrays p w n s simple = true) :
    Strays p w s simple := by
  refine ⟨hp, hg, ?_⟩
  unfold sampleStrays at h
  split at h
  swap
  · simp at h
  next t tr hrun =>
  obtain ⟨e, he, hbad⟩ := List.any_eq_true.mp h
  simp only [Bool.and_eq_true, decide_eq_true_eq, Bool.not_eq_true',
    decide_eq_false_iff_not] at hbad
  obtain ⟨⟨hset, hout⟩, hany⟩ := hbad
  obtain ⟨nd, hnd, hshape⟩ := List.any_eq_true.mp hany
  unfold shaped at hshape
  split at hshape
  · next a ha =>
    simp only [Bool.and_eq_true, decide_eq_true_eq] at hshape
    exact ⟨t, none, tr, sampleLoop_run hrun, e, he, nd, hnd, a, ha, hshape.1, hset, hshape.2, hout⟩
  · simp at hshape

/-- A step read after the body, and a counter stepped past its type, lead out of the buffer. -/
theorem lpTake_strays :
    Strays (bytesProg stepLoop.toLoop) stepLoop.toLoop (bytesState 1 0) true ∧
      Strays (bytesProg twiceLoop.toLoop) twiceLoop.toLoop (bytesState 2147483647 2147483646)
        true :=
  ⟨.of_sample (n := 1) (bytesProg_placed _) (by decide +kernel) (by decide +kernel),
    .of_sample (n := 2) (bytesProg_placed _) (by decide +kernel) (by decide +kernel)⟩

end IdCompiler.Fast

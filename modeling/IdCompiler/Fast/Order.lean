import IdCompiler.Fast.Calls
import IdCompiler.Fast.Meaning

/-!
# The order of a round

One round of a loop, from the state its statements begin in: which names still
hold what they held, how far a counter may have come, and what a local set at
the top of the body holds. `D` lists the nodes that may have run so far in the
round, and `T` the statements at the top of the body that have.
-/

namespace IdCompiler.Fast

open IdCompiler.Core Behave

variable {p : Prog} {R : Runtime} {c : Ctx} {ok : Event → Prop}

/-- The value of an expression that only reads names and literals. -/
def pureVal (s : State) : Expr → Option Val
  | .int _ v w => some (litVal v w)
  | .var _ x => some (s.vals x)
  | .imp _ x => some (s.vals x)
  | .bin _ .add l r =>
    (pureVal s l).bind fun a => (pureVal s r).map fun b => a.arith (· + ·) b
  | .bin _ .mul l r =>
    (pureVal s l).bind fun a => (pureVal s r).map fun b => a.arith (· * ·) b
  | _ => none

/-- Such an expression changes nothing and makes no access. -/
theorem evalE_pure {s : State} {e : Expr} {v : Val} (h : pureVal s e = some v) :
    Holds ok (· = s) (evalE p R e) fun a t => t = s ∧ a = v := by
  fun_induction pureVal s e generalizing v with
  | case1 id n w =>
    obtain rfl := Option.some.inj h
    exact Holds.ret fun t ht => ⟨ht, rfl⟩
  | case2 id x =>
    obtain rfl := Option.some.inj h
    exact Holds.get fun t ht => ⟨ht, by rw [ht]⟩
  | case3 id x =>
    obtain rfl := Option.some.inj h
    exact Holds.get fun t ht => ⟨ht, by rw [ht]⟩
  | case4 id l r ihl ihr | case5 id l r ihl ihr =>
    simp only [Option.bind_eq_some_iff, Option.map_eq_some_iff] at h
    obtain ⟨a, ha, b, hb, rfl⟩ := h
    refine Holds.bind (ihl ha) fun a' => ?_
    refine Holds.of_pre fun t ht => ?_
    obtain ⟨rfl, rfl⟩ := ht
    refine Holds.bind (ihr hb) fun b' => ?_
    exact Holds.ret fun u hu => ⟨hu.1, by rw [hu.2]⟩
  | case6 => simp at h

/-- A function the loop calls may change this name. -/
def Ctx.touched (c : Ctx) (x : String) : Prop :=
  ∃ id f args, Node.expr (.call id f args) ∈ c.ns ∧ c.prog.exportsOf f x

/-- The largest value of a type of numbers. -/
def Ty.max : Ty → Int
  | .int => 2 ^ 31 - 1
  | .word => 2 ^ 63 - 1
  | _ => 0

/-- A state inside a round begun in `s`, after the nodes `D` may have run. -/
structure Mid (c : Ctx) (D : List Node) (s t : State) : Prop where
  /-- What has not been written holds what it held. -/
  same : ∀ x, ¬c.touched x → lpCnt D x = 0 → t.vals x = s.vals x
  heap : s.heap.Ext t.heap
  /-- What is only stepped has been stepped at most once for each of its writes. -/
  step : ∀ x m, ¬c.touched x → lpCntOther c.ns x = 0 → (s.vals x).num = some m →
    m + lpCnt c.ns x ≤ (s.vals x).ty.max →
    ∃ m', (t.vals x).num = some m' ∧ (t.vals x).ty = (s.vals x).ty ∧ m ≤ m' ∧ m' ≤ m + lpCnt D x

/-- A local holds what its definition was when the declaration ran, after the statements above
it. -/
def Local (c : Ctx) (s t : State) (d : Stmt) (ty : Ty) (q : String) (rhs : Expr) : Prop :=
  ∃ T₀ t₀, T₀ ++ [d] <+: c.stmts ∧ Mid c (blockNodes T₀) s t₀ ∧
    ∀ v, pureVal t₀ rhs = some v → t.vals q = v.coerceTo ty

/-- A state inside a round, with the locals set at the top of the body so far. -/
structure Now (c : Ctx) (T : List Stmt) (D : List Node) (s t : State) : Prop extends
    Mid c D s t where
  locs : ∀ id ty ex q rhs, Stmt.decl id ty ex q rhs ∈ T → ¬c.touched q → lpCnt c.ns q = 1 →
    Local c s t (.decl id ty ex q rhs) ty q rhs
  done : blockNodes T ⊆ D

theorem lpCnt_append (a b : List Node) (x : String) :
    lpCnt (a ++ b) x = lpCnt a x + lpCnt b x :=
  List.countP_append ..

theorem lpCnt_le {a b : List Node} (h : a.Subperm b) (x : String) : lpCnt a x ≤ lpCnt b x :=
  h.countP_le _

theorem lpCnt_pos {ns : List Node} {nd : Node} {x : String} (h : nd ∈ ns)
    (hw : lpWname nd = some x) : 0 < lpCnt ns x :=
  List.countP_pos_iff.mpr ⟨nd, h, by simp [hw]⟩

/-- At the start of a round nothing has run. -/
theorem Now.start (c : Ctx) (s : State) : Now c [] [] s s where
  same _ _ _ := rfl
  heap := Heap.Ext.refl _
  step x m _ _ hm _ := ⟨m, hm, rfl, Int.le_refl m, by simp [lpCnt]⟩
  locs _ _ _ _ _ h := by simp at h
  done := by simp [blockNodes]

theorem Mid.mono {D D' : List Node} {s t : State} (h : Mid c D s t) (hsub : D.Subperm D') :
    Mid c D' s t where
  same x hx h0 := h.same x hx (by have := lpCnt_le hsub x; omega)
  heap := h.heap
  step x m hx h0 hm hmax := by
    obtain ⟨m', hm', hty, hle, hle'⟩ := h.step x m hx h0 hm hmax
    have := lpCnt_le hsub x
    exact ⟨m', hm', hty, hle, by omega⟩

theorem Now.mono {T : List Stmt} {D D' : List Node} {s t : State} (h : Now c T D s t)
    (hsub : D.Subperm D') : Now c T D' s t :=
  { h.toMid.mono hsub with
    locs := h.locs
    done := List.Subset.trans h.done hsub.subset }

/-- A quiet change of names the loop's callees export and of the heap. -/
theorem Now.quiet {T : List Stmt} {D : List Node} {s t u : State} {ex : String → Prop}
    (h : Now c T D s t) (hq : Quiet ex t u) (hex : ∀ x, ex x → c.touched x) :
    Now c T D s u := by
  have hval : ∀ x, ¬c.touched x → u.vals x = t.vals x := fun x hx =>
    hq.2 x fun hc => hx (hex x hc)
  refine
    { same := fun x hx h0 => (hval x hx).trans (h.same x hx h0)
      heap := h.heap.trans hq.1
      step := fun x m hx h0 hm hmax => by rw [hval x hx]; exact h.step x m hx h0 hm hmax
      locs := fun id ty ex q rhs hT hq hc => ?_
      done := h.done }
  obtain ⟨T₀, t₀, hT₀, hmid, hv⟩ := h.locs id ty ex q rhs hT hq hc
  exact ⟨T₀, t₀, hT₀, hmid, fun v hv' => (hval q hq).trans (hv v hv')⟩

/-- The value a step gives its counter, exactly one more while the type holds it. -/
theorem step_value {v : Val} {n : Int} {e : Expr} {s : State} {w : Val} (hone : lpOne e = true)
    (hw : pureVal s e = some w) (hn : v.num = some n) (hmax : n + 1 ≤ v.ty.max) :
    (((v.arith (· + ·) w).coerceTo v.ty).num = some (n + 1)) ∧
      ((v.arith (· + ·) w).coerceTo v.ty).ty = v.ty := by
  cases e with
  | int id k wide =>
    simp only [lpOne, Bool.and_eq_true, decide_eq_true_eq, Bool.not_eq_true'] at hone
    obtain ⟨hk, rfl⟩ := hone
    obtain rfl := Option.some.inj hw
    simp only [litNum, Bool.false_eq_true, if_false] at hk
    cases v with
    | int v =>
      obtain rfl := Option.some.inj hn
      have hlo := BitVec.le_toInt v
      have h32 : (BitVec.ofInt 32 (v.toInt + 1)).toInt = v.toInt + 1 :=
        toInt_ofInt32 (by omega) (by simp only [Val.ty, Ty.max] at hmax; omega)
      simp [Val.arith, litVal, hk, Val.coerceTo, Val.ty, Val.num, h32]
    | word v =>
      obtain rfl := Option.some.inj hn
      have hlo := BitVec.le_toInt v
      have h64 : (BitVec.ofInt 64 (v.toInt + 1)).toInt = v.toInt + 1 :=
        toInt_ofInt64 (by omega) (by simp only [Val.ty, Ty.max] at hmax; omega)
      simp [Val.arith, litVal, hk, Val.coerceTo, Val.ty, Val.num, h64]
    | list r | bytes r | str t | other => simp [Val.num] at hn
  | var | imp | bin | index | call | other => simp [lpOne] at hone

/-- A write: a step gives the counter one more, anything else gives the name up. -/
theorem Now.write {T : List Stmt} {D : List Node} {s t : State} {nd : Node} {x : String} {v : Val}
    (h : Now c T D s t) (hw : lpWname nd = some x) (hsub : (D ++ [nd]).Subperm c.ns)
    (hinc : lpIsinc nd = true → ∃ e w, lpOne e = true ∧ pureVal t e = some w ∧
      v = ((t.vals x).arith (· + ·) w).coerceTo (t.vals x).ty) :
    Now c T (D ++ [nd]) s { t with vals := Function.update t.vals x v } := by
  have hnd : lpCnt [nd] x = 1 := by simp [lpCnt, hw]
  have hother : ∀ y, y ≠ x → lpCnt [nd] y = 0 := fun y hy => by
    simp [lpCnt, hw, Ne.symm hy]
  have htotal := fun y => lpCnt_le hsub y
  refine
    { same := fun y hy h0 => ?_
      heap := h.heap
      step := fun y m hy h0 hm hmax => ?_
      locs := fun id ty ex q rhs hT hq hc => ?_
      done := List.Subset.trans h.done (List.subset_append_left ..) }
  · rw [lpCnt_append] at h0
    have hne : y ≠ x := by rintro rfl; omega
    exact (Function.update_of_ne hne ..).trans (h.same y hy (by omega))
  · obtain ⟨m', hm', hty, hle, hle'⟩ := h.step y m hy h0 hm hmax
    have htot := htotal y
    rw [lpCnt_append] at htot
    by_cases hne : y = x
    · subst hne
      have hisinc : lpIsinc nd = true := by
        by_contra hc
        have hmem : nd ∈ c.ns := hsub.subset (by simp)
        have : 0 < lpCntOther c.ns y := List.countP_pos_iff.mpr ⟨nd, hmem, by simp [hw, hc]⟩
        omega
      obtain ⟨e, w, hone, hpe, rfl⟩ := hinc hisinc
      have hstep := step_value hone hpe hm' (by rw [hty]; omega)
      refine ⟨m' + 1, ?_, ?_, by omega, ?_⟩
      · simpa using hstep.1
      · simpa [hty] using hstep.2
      · rw [lpCnt_append, hnd]; push_cast; omega
    · refine ⟨m', ?_, ?_, hle, ?_⟩
      · simpa [hne] using hm'
      · simpa [hne] using hty
      · rw [lpCnt_append]; push_cast; omega
  · obtain ⟨T₀, t₀, hT₀, hmid, hv⟩ := h.locs id ty ex q rhs hT hq hc
    refine ⟨T₀, t₀, hT₀, hmid, fun w hw' => ?_⟩
    -- the one write of a local has run already
    have hne : q ≠ x := by
      rintro rfl
      have hmem : Node.stmt (.decl id ty ex q rhs) ∈ D :=
        h.done (Stmt.nodes_sub_block hT (Stmt.mem_nodes_self _))
      have hpos := lpCnt_pos hmem (x := q) rfl
      have htot := htotal q
      rw [lpCnt_append] at htot
      omega
    exact (Function.update_of_ne hne ..).trans (hv w hw')

end IdCompiler.Fast

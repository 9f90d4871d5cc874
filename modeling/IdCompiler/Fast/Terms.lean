import IdCompiler.Fast.Placed
import IdCompiler.Fast.Tokens

/-!
# The terms of an index

What each kind of term is worth where an access reads it, against the number the
guard's tokens for the term came to before the loop.
-/

namespace IdCompiler.Fast

open IdCompiler.Core Behave

variable {p : Prog} {c : Ctx} {s₀ s t : State} {g : Guard}

/-! ## Kinds -/

/-- What has been checked of a term of a kind. -/
inductive IsKind (c : Ctx) (id dp : Nat) : Kind → Expr → Prop
  | lit {i v} : 0 ≤ litNum v false → IsKind c id dp .lit (.int i v false)
  | imp {i x} : lpUany c.prog c.ns = false → lpCnt c.ns x = 0 → IsKind c id dp .inv (.imp i x)
  | inv {i x} : lpCnt c.ns x = 0 → IsKind c id dp .inv (.var i x)
  | ctr {i x lim} : boundOf c.bounds x = some lim → lpLim c.ns lim = true →
      lpSteps c.ns id x = true → IsKind c id dp .ctr (.var i x)
  | sec {i x f} : dp = 0 → lpCnt c.ns x = 1 → lpFirst c.ns x = some f →
      lxSec c id f = true → IsKind c id dp .sec (.var i x)
  | loc {i x fid ty ex y rhs} : dp = 0 → lpCnt c.ns x = 1 →
      lpFirst c.ns x = some (.stmt (.decl fid ty ex y rhs)) →
      lxDec c id (.stmt (.decl fid ty ex y rhs)) = true → IsKind c id dp .loc (.var i x)

theorem lxOne_is {id i : Nat} {x : String} {k : Kind} (h : lxOne c id x = k) (hk : k ≠ .none)
    (hcnt : lpCnt c.ns x = 1) : IsKind c id 0 k (.var i x) := by
  unfold lxOne at h
  split at h
  · next fid y rhs hf =>
    split at h
    · next hsec => exact h ▸ .sec rfl hcnt hf hsec
    · exact absurd h.symm hk
  · next fid ty ex y rhs hf =>
    split at h
    · next hdec => exact h ▸ .loc rfl hcnt hf hdec
    · exact absurd h.symm hk
  · exact absurd h.symm hk

theorem lxKind_is {id dp : Nat} {e : Expr} {k : Kind} (h : lxKind c id dp e = k)
    (hk : k ≠ .none) : IsKind c id dp k e := by
  cases e with
  | int i v w =>
    simp only [lxKind] at h
    split at h
    · next hlit =>
      simp only [lpLit, Bool.and_eq_true, Bool.not_eq_true', decide_eq_true_eq] at hlit
      obtain ⟨rfl, hlit⟩ := hlit
      exact h ▸ .lit hlit
    · exact absurd h.symm hk
  | imp i x =>
    simp only [lxKind] at h
    split at h
    · next himp =>
      simp only [Bool.and_eq_true, Bool.not_eq_true', decide_eq_true_eq] at himp
      exact h ▸ .imp himp.1.2 himp.2
    · exact absurd h.symm hk
  | var i x =>
    simp only [lxKind] at h
    split at h
    · next lim hlim =>
      split at h
      · next hctr =>
        simp only [Bool.and_eq_true] at hctr
        exact h ▸ .ctr hlim hctr.1 hctr.2
      · exact absurd h.symm hk
    · unfold lxWr at h
      split at h
      · next h0 => exact h ▸ .inv h0
      · split at h
        · next h1 =>
          simp only [Bool.and_eq_true, decide_eq_true_eq] at h1
          obtain ⟨hcnt, rfl⟩ := h1
          exact lxOne_is h hk hcnt
        · exact absurd h.symm hk
  | bin | index | call | other => exact absurd h.symm hk

/-! ## A round of a guarded run -/

/-- The guard reads this name. -/
def Guard.reads (g : Guard) (x : String) : Prop := ∃ tk ∈ g.lpcond, Tok.name x ∈ tk

/-- The top of a round, in a run from a state where the guard is true of integers and no counter
the guard reads is stepped past what its type holds. -/
structure Scene (p : Prog) (w : NumberedLoop) (g : Guard) (s₀ s : State) : Prop where
  placed : Placed p w.toLoop
  admitted : Admitted p w.toLoop
  clauses : ∀ tk ∈ g.lpcond, clauseVal exact s₀ tk = some true
  fits : ∀ j lim l, boundOf (lpCond w.cond).1 j = some lim → g.reads j → 0 < lpCnt w.nodes j →
    s₀.limit lim = some l → l - 1 + lpCnt w.nodes j ≤ (s₀.vals j).ty.max
  head : Head (w.ctx p) s₀ s
  below : Below (w.ctx p).bounds s

/-- A name of the loop that may be read here, for the access numbered `id` after `D`. -/
def Readable (w : Loop) (id : Nat) (D : List Node) (x : String) : Prop :=
  w.plain x ∧ (beforeFirst w.nodes id x = true → lpCnt D x = 0)

variable {w : NumberedLoop} {id dp : Nat} {D : List Node}

theorem Scene.counter (h : Scene p w g s₀ s) {j : String} {lim : Expr} {l : Int}
    (hb : boundOf (w.ctx p).bounds j = some lim) (hlim : lpLim w.nodes lim = true)
    (hother : lpCntOther w.nodes j = 0) (hreads : g.reads j) (hl : s₀.limit lim = some l) :
    Counter (w.ctx p) s₀ j where
  untouched := h.placed.counter h.admitted (boundOf_mem hb)
  other := hother
  fits hpos := ⟨lim, l, boundOf_mem hb, h.placed.fixed h.admitted (boundOf_mem hb) hlim, hl,
    h.fits j lim l hb hreads hpos hl⟩

/-- A clause of the guard that a name is not negative. -/
theorem Scene.nonneg (h : Scene p w g s₀ s) {x : String}
    (hx : [.name x, .const 0, .cmp .ge] ∈ g.lpcond) :
    (∃ m, (s₀.vals x).num = some m ∧ 0 ≤ m) ∧ g.reads x :=
  ⟨clause_ge exact_lawful (h.clauses _ hx), _, hx, by simp⟩

/-! ## What the tokens of a term bound -/

/-- The tokens, where the integer machine gets past them, leave a number no less than the term,
if that is less than the largest int. -/
def Bounds (s₀ t : State) (ts : List Tok) (e : Expr) : Prop :=
  ∀ st rest rs, runToks exact s₀ (ts ++ rest) st = some rs →
    ∃ hi : Int, 0 ≤ hi ∧ runToks exact s₀ rest (.num hi :: st) = some rs ∧
      (hi < 2 ^ 31 - 1 → ∃ v n, pureVal t e = some v ∧ v.num = some n ∧ 0 ≤ n ∧ n ≤ hi)

/-- The same with no such condition: the term is read where it stands. -/
def BoundsPlain (s₀ t : State) (ts : List Tok) (e : Expr) : Prop :=
  ∀ st rest rs, runToks exact s₀ (ts ++ rest) st = some rs →
    ∃ hi : Int, runToks exact s₀ rest (.num hi :: st) = some rs ∧
      ∃ v n, pureVal t e = some v ∧ v.num = some n ∧ 0 ≤ n ∧ n ≤ hi

theorem BoundsPlain.bounds {ts : List Tok} {e : Expr} (h : BoundsPlain s₀ t ts e) :
    Bounds s₀ t ts e := by
  intro st rest rs hrun
  obtain ⟨hi, hrest, v, n, hv, hn, h0, hle⟩ := h st rest rs hrun
  exact ⟨hi, by omega, hrest, fun _ => ⟨v, n, hv, hn, h0, hle⟩⟩

theorem run_wide {N : Type} {A : Arith N} {ts : List Tok} {y : SVal N} {st rs : List (SVal N)}
    (h : runToks A s (.wide :: ts) (y :: st) = some rs) :
    ∃ n, y = .num n ∧ runToks A s ts (.num n :: st) = some rs := by
  cases y with
  | num n => exact ⟨n, rfl, h⟩
  | seq v | null | truth b => simp [runToks, stepTok] at h

/-- A name that is not written is worth what it was. -/
theorem bounds_name {e : Expr} {x : String} (hleaf : lpLeaf e = .name x)
    (hval : pureVal t e = some (s₀.vals x)) (h0 : ∃ m, (s₀.vals x).num = some m ∧ 0 ≤ m) :
    BoundsPlain s₀ t [lpLeaf e, .wide] e := by
  intro st rest rs hrun
  rw [hleaf, List.cons_append] at hrun
  obtain ⟨y, hy, hrun⟩ := run_name hrun
  obtain ⟨hi, rfl, hrun⟩ := run_wide hrun
  obtain ⟨n, hn, rfl, -⟩ := pushName_num hy
  obtain ⟨m, hm, hm0⟩ := h0
  obtain rfl := Option.some.inj (hm.symm.trans hn)
  exact ⟨m, hrun, _, m, hval, hm, hm0, Int.le_refl m⟩

theorem bounds_lit {i : Nat} {v : Int} (h : 0 ≤ litNum v false) :
    BoundsPlain s₀ t [lpLeaf (.int i v false), .wide] (.int i v false) := by
  intro st rest rs hrun
  exact ⟨litNum v false, hrun, _, litNum v false, rfl, rfl, h, Int.le_refl _⟩

theorem exact_op {o : ArOp} {a b r : Int} (h : exact.op o a b = some r) : r = o.onInt a b := by
  have hop : exact.op o a b = if InWord (o.onInt a b) then some (o.onInt a b) else none := rfl
  rw [hop] at h
  split at h
  · exact (Option.some.inj h).symm
  · simp at h

/-- An operator of two operands, of integers. -/
theorem run_op {o : ArOp} {a b : Int} {ts : List Tok} {st rs : List (SVal Int)}
    (h : runToks exact s (.nary o 2 :: ts) (.num b :: .num a :: st) = some rs) :
    runToks exact s ts (.num (o.onInt a b) :: st) = some rs := by
  rw [runToks, stepTok_nary] at h
  cases hop : exact.op o a b with
  | none => simp [hop] at h
  | some r =>
    rw [hop] at h
    rw [← exact_op hop]
    exact h

/-- The tokens of a counter's limit less one. -/
theorem run_limit {lim : Expr} {rest : List Tok} {st rs : List (SVal Int)}
    (hlim : lpLimit lim = true)
    (h : runToks exact s₀ (lpNtok p lim ++ [.wide, .const 1, .nary .sub 2] ++ rest) st =
      some rs) :
    ∃ n l : Int, s₀.limit lim = some l ∧ l ≤ n ∧
      runToks exact s₀ rest (.num (n - 1) :: st) = some rs := by
  simp only [List.append_assoc, List.cons_append, List.nil_append] at h
  obtain ⟨y, hy, hnum⟩ := run_ntok hlim h
  obtain ⟨z, hz, hrun⟩ := run_wide hy
  obtain ⟨n, l, hn, hin, hl, hle⟩ := hnum z hz
  rw [runToks, stepTok_const, Option.bind_some, hn] at hrun
  exact ⟨n, l, hl, hle, run_op hrun⟩

/-- A counter read before its step is worth at most its limit less one. -/
theorem Scene.bounds_ctr (h : Scene p w g s₀ s) (hmid : Mid (w.ctx p) D s t) {i : Nat}
    {j : String} {lim : Expr} (hb : boundOf (w.ctx p).bounds j = some lim)
    (hlim : lpLim w.nodes lim = true) (hsteps : lpSteps w.nodes id j = true)
    (hread : Readable w.toLoop id D j)
    (hcl : [.name j, .const 0, .cmp .ge] ∈ g.lpcond) :
    BoundsPlain s₀ t (lpNtok p lim ++ [.wide, .const 1, .nary .sub 2]) (.var i j) := by
  intro st rest rs hrun
  obtain ⟨-, -, hlimit⟩ := lpCond_parts w.cond _ (boundOf_mem hb)
  obtain ⟨n, l, hl, hle, hrun⟩ := run_limit hlimit hrun
  obtain ⟨⟨m₀, hm₀, h0⟩, hreads⟩ := h.nonneg hcl
  simp only [lpSteps, Bool.and_eq_true, decide_eq_true_eq] at hsteps
  obtain ⟨m, hm, -, hge⟩ := h.head.ctr j m₀ (h.counter hb hlim hsteps.1 hreads hl) hm₀
  have hlt : m < l := h.below _ (boundOf_mem hb) m l hm
    (h.head.limit (h.placed.fixed h.admitted (boundOf_mem hb) hlim) hl)
  have htj : t.vals j = s.vals j := hmid.same j (h.placed.counter h.admitted (boundOf_mem hb))
    (hread.2 hsteps.2)
  exact ⟨n - 1, hrun, _, m, rfl, by rw [htj]; exact hm, by omega, by omega⟩

theorem Scene.same (h : Scene p w g s₀ s) (hmid : Mid (w.ctx p) D s t)
    (hD : D.Subperm w.nodes) {x : String} (hx : ¬(w.ctx p).touched x)
    (hcnt : lpCnt w.nodes x = 0) : t.vals x = s₀.vals x := by
  have := lpCnt_le hD x
  exact (hmid.same x hx (by omega)).trans (h.head.same x hx hcnt)

/-- The largest value of a term that is read where it stands. -/
def plainHi (c : Ctx) (k : Kind) (e : Expr) (g : Guard) : List Tok × Guard :=
  match k with
  | .ctr => lxHctr c e g
  | _ => ([lpLeaf e, .wide], g)

/-- Literals, names that are not written and counters. -/
theorem Scene.bounds_plain (h : Scene p w g s₀ s) (hmid : Mid (w.ctx p) D s t)
    (hD : D.Subperm w.nodes) {k : Kind} {e : Expr} (hk : IsKind (w.ctx p) id dp k e)
    (hplain : lxPlain k = true)
    (hread : ∀ i x, Node.expr (.var i x) ∈ e.nodes → Readable w.toLoop id D x)
    {q : Guard} (hsub : (lxHcl k e q).Sub g) :
    BoundsPlain s₀ t (plainHi (w.ctx p) k e (lxHcl k e q)).1 e := by
  have hcl : k ≠ .lit → [lpLeaf e, .const 0, .cmp .ge] ∈ g.lpcond := fun hne => by
    refine hsub ?_
    cases k with
    | inv | ctr => exact lpRel_mem ..
    | lit => exact absurd rfl hne
    | none | sec | loc => simp [lxPlain] at hplain
  cases hk with
  | lit hv => exact bounds_lit hv
  | imp huany hcnt =>
    obtain ⟨h0, -⟩ := h.nonneg (hcl (by simp))
    exact bounds_name rfl (congrArg some
      (h.same hmid hD (untouched_of_lpUany huany _) hcnt)) h0
  | inv hcnt =>
    obtain ⟨h0, -⟩ := h.nonneg (hcl (by simp))
    have hx := (hread _ _ (Expr.mem_nodes_self (.var _ _))).1
    exact bounds_name rfl (congrArg some
      (h.same hmid hD (h.placed.untouched h.admitted hx) hcnt)) h0
  | @ctr i x lim hb hlim hsteps =>
    have hx := hread i x (Expr.mem_nodes_self (.var i x))
    have := h.bounds_ctr (i := i) hmid hb hlim hsteps hx (hcl (by simp))
    simp only [plainHi, lxHctr, hb]
    exact this
  | sec | loc => simp [lxPlain] at hplain

end IdCompiler.Fast

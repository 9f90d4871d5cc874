import IdCompiler.Fast.Simple
import IdCompiler.Fast.Terms

/-!
# Sums of terms

An access whose index is a sum of terms the plan took is in range in every round
of every run the guard lets into the guarded copy, unless the guard's own
arithmetic wraps, the access stands in the step of a `for` whose body writes a
name of its index, or a counter is stepped past what its type holds.
-/

namespace IdCompiler.Fast

open IdCompiler.Core Behave

variable {p : Prog} {R : Runtime} {c : Ctx} {s₀ s t : State} {g : Guard} {w : NumberedLoop}
  {id : Nat} {D : List Node} {T : List Stmt}

/-! ## A second counter -/

/-- What is on the stack as numbers comes off it, deepest first. -/
theorem popNums_nums {N : Type} (l acc : List N) (st : List (SVal N)) :
    popNums l.length (l.map SVal.num ++ st) acc = some (l.reverse ++ acc, st) := by
  induction l generalizing acc with
  | nil => rfl
  | cons n l ih => simpa [popNums] using ih (n :: acc)

theorem joinLeft_add {a r : Int} {l : List Int} (h : joinLeft exact .add a l = some r) :
    r = a + l.sum := by
  induction l generalizing a with
  | nil =>
    obtain rfl := Option.some.inj h
    simp
  | cons n l ih =>
    obtain ⟨b, hb, h⟩ := Option.bind_eq_some_iff.mp h
    rw [ih h, exact_op hb, List.sum_cons]
    exact Int.add_assoc ..

/-- A sum of as many operands as there are numbers. -/
theorem run_sum {a : Int} {l : List Int} {ts : List Tok} {st rs : List (SVal Int)}
    (h : runToks exact s (.nary .add (l.length + 1) :: ts)
      ((l.reverse ++ [a]).map SVal.num ++ st) = some rs) :
    runToks exact s ts (.num (a + l.sum) :: st) = some rs := by
  have hpop := popNums_nums (l.reverse ++ [a]) [] st
  simp only [List.length_append, List.length_reverse, List.length_cons, List.length_nil,
    List.reverse_append, List.reverse_reverse, List.reverse_cons, List.reverse_nil,
    List.nil_append, List.append_nil, Nat.zero_add, List.singleton_append] at hpop
  obtain ⟨st', hstep, h⟩ := Option.bind_eq_some_iff.mp h
  simp only [stepTok, hpop, Option.map_eq_some_iff] at hstep
  obtain ⟨r, hr, rfl⟩ := hstep
  rw [← joinLeft_add hr]
  exact h

/-- The room of one counter, as the tokens have it. -/
def RoomIs (s₀ : State) (b : String × Expr) (r : Int) : Prop :=
  ∃ m l, (s₀.vals b.1).num = some m ∧ s₀.limit b.2 = some l ∧ l - 1 - m ≤ r

/-- The room of one counter on the stack. -/
theorem run_room {b : String × Expr} {rest : List Tok} {st rs : List (SVal Int)}
    (hlim : lpLimit b.2 = true)
    (h : runToks exact s₀ (lpNtok p b.2 ++ [.wide, .name b.1, .wide, .const 1, .nary .sub 3] ++
      rest) st = some rs) :
    ∃ r, RoomIs s₀ b r ∧ runToks exact s₀ rest (.num r :: st) = some rs := by
  simp only [List.append_assoc, List.cons_append, List.nil_append] at h
  obtain ⟨y, hy, hnum⟩ := run_ntok hlim h
  obtain ⟨z, hz, hrun⟩ := run_wide hy
  obtain ⟨n, l, hn, -, hl, hle⟩ := hnum z hz
  obtain ⟨y', hname, hrun'⟩ := run_name hrun
  obtain ⟨z', hz', hconst⟩ := run_wide hrun'
  obtain ⟨m, hm, hmz, -⟩ := pushName_num (hz' ▸ hname)
  obtain ⟨st', hstep, hrest⟩ := Option.bind_eq_some_iff.mp hconst
  obtain rfl := Option.some.inj hstep
  obtain ⟨st', hstep, hrest⟩ := Option.bind_eq_some_iff.mp hrest
  obtain ⟨r, hr, rfl⟩ := Option.map_eq_some_iff.mp hstep
  refine ⟨r, ⟨m, l, hm, hl, ?_⟩, hrest⟩
  obtain ⟨d, hd, hr⟩ := Option.bind_eq_some_iff.mp hr
  obtain ⟨d', hd', hr⟩ := Option.bind_eq_some_iff.mp hr
  obtain rfl := Option.some.inj hr
  rw [exact_op hd', exact_op hd, hn, hmz]
  have hone : exact.ofInt (litNum 1 false) = (1 : Int) := by decide
  have hsub : ∀ a b, ArOp.sub.onInt a b = a - b := fun _ _ => rfl
  have hof : ∀ a, exact.ofInt a = a := fun _ => rfl
  rw [hone, hsub, hsub, hof, hof]
  omega

/-- The rooms of all counters on the stack. -/
theorem run_lim {bounds : List (String × Expr)} {q : Guard} {rest : List Tok}
    {st rs : List (SVal Int)} (hlim : ∀ b ∈ bounds, lpLimit b.2 = true)
    (h : runToks exact s₀ ((lxHlim c bounds q).1 ++ rest) st = some rs) :
    ∃ l : List Int, List.Forall₂ (RoomIs s₀) bounds l ∧
      runToks exact s₀ rest (l.reverse.map SVal.num ++ st) = some rs := by
  induction bounds generalizing q st with
  | nil => exact ⟨[], .nil, h⟩
  | cons b bounds ih =>
    simp only [lxHlim, List.append_assoc] at h
    rw [← List.append_assoc] at h
    obtain ⟨r, hr, h⟩ := run_room (hlim b List.mem_cons_self) h
    obtain ⟨l, hl, h⟩ := ih (fun b hb => hlim b (List.mem_cons_of_mem _ hb)) h
    exact ⟨r :: l, .cons hr hl, by simpa using h⟩

theorem room_le {bounds : List (String × Expr)} {l : List Int}
    (h : List.Forall₂ (RoomIs s₀) bounds l) :
    (bounds.map fun b => (s₀.limit b.2).getD 0 - 1 - (s₀.vals b.1).num.getD 0).sum ≤ l.sum := by
  induction h with
  | nil => simp
  | cons hr _ ih =>
    obtain ⟨m, n, hm, hn, hle⟩ := hr
    simp only [List.map_cons, List.sum_cons, hm, hn, Option.getD_some]
    omega

theorem forall₂_left {α β : Type*} {P : α → β → Prop} {l : List α} {l' : List β}
    (h : List.Forall₂ P l l') {a : α} (ha : a ∈ l) : ∃ b, P a b := by
  induction h with
  | nil => simp at ha
  | cons hab _ ih =>
    rcases List.mem_cons.mp ha with rfl | ha
    · exact ⟨_, hab⟩
    · exact ih ha

/-- A name written once, by a step, is written by nothing else. -/
theorem lpCntOther_of_once {ns : List Node} {x : String} {f : Node} (hcnt : lpCnt ns x = 1)
    (hf : lpFirst ns x = some f) (hinc : lpIsinc f = true) : lpCntOther ns x = 0 := by
  have hmem := List.mem_of_find?_eq_some hf
  have hw : lpWname f = some x := by simpa using List.find?_some hf
  have hsplit : lpCnt ns x = lpCntOther ns x +
      ns.countP fun nd => lpWname nd = some x && lpIsinc nd := by
    unfold lpCnt lpCntOther
    clear hcnt hf hmem
    induction ns with
    | nil => rfl
    | cons nd ns ih =>
      simp only [List.countP_cons, ih]
      cases lpIsinc nd <;> simp <;> split <;> omega
  have hpos : 0 < ns.countP fun nd => lpWname nd = some x && lpIsinc nd :=
    List.countP_pos_iff.mpr ⟨f, hmem, by simp [hw, hinc]⟩
  omega

theorem num_ty_max {v : Val} {n : Int} (h : v.num = some n) : 2 ^ 31 - 1 ≤ v.ty.max := by
  cases v with
  | int v | word v => simp [Val.ty, Ty.max]
  | list r | bytes r | str s | other => simp [Val.num] at h

/-- A second counter is worth at most its start and the room of every counter. -/
theorem Scene.bounds_sec (h : Scene p w g s₀ s) (hmid : Mid (w.ctx p) D s t) {i : Nat}
    {k : String} {f : Node} (hcnt : lpCnt w.nodes k = 1) (hf : lpFirst w.nodes k = some f)
    (hsec : lxSec (w.ctx p) id f = true) (hread : Readable w.toLoop id D k)
    (hcl : [.name k, .const 0, .cmp .ge] ∈ g.lpcond)
    (hreads : ∀ b ∈ (w.ctx p).bounds, g.reads b.1) (q : Guard) :
    Bounds s₀ t (lxHsec (w.ctx p) (.var i k) q).1 (.var i k) := by
  intro st rest rs hrun
  simp only [lxSec, lxPsec, Bool.and_eq_true, decide_eq_true_eq, List.all_eq_true] at hsec
  obtain ⟨⟨hlt, hinc⟩, hall, hprog⟩ := hsec
  obtain ⟨⟨m₀, hm₀, h0⟩, -⟩ := h.nonneg hcl
  have hlimit : ∀ b ∈ (w.ctx p).bounds, lpLimit b.2 = true := fun b hb =>
    (lpCond_parts w.cond b hb).2.2
  -- the tokens: the counter, the room of each counter of the condition, and their sum
  simp only [lxHsec, lpLeaf, List.append_assoc, List.cons_append, List.nil_append] at hrun
  obtain ⟨y, hname, hrun⟩ := run_name hrun
  obtain ⟨z, rfl, hrun⟩ := run_wide hrun
  obtain ⟨m, hm, rfl, -⟩ := pushName_num hname
  obtain rfl := Option.some.inj (hm₀.symm.trans hm)
  obtain ⟨l, hl, hrun⟩ := run_lim hlimit hrun
  rw [hl.length_eq] at hrun
  have hrun : runToks exact s₀ rest (.num (m₀ + l.sum) :: st) = some rs :=
    run_sum (by simpa using hrun)
  have hroom : room (w.ctx p) s₀ ≤ l.sum := room_le hl
  have hone : ∀ b ∈ (w.ctx p).bounds, lpLim w.nodes b.2 = true ∧ lpCntOther w.nodes b.1 = 0 :=
    fun b hb => by
      have := hall b hb
      simp only [lxPone, Bool.and_eq_true, decide_eq_true_eq] at this
      exact this.1
  have hctr : ∀ b ∈ (w.ctx p).bounds, Counter (w.ctx p) s₀ b.1 ∧
      (∃ m, (s₀.vals b.1).num = some m) ∧ Fixed (w.ctx p) b.2 ∧ ∃ n, s₀.limit b.2 = some n :=
    fun b hb => by
      obtain ⟨r, m, n, hm, hn, -⟩ := forall₂_left hl hb
      obtain ⟨lim, hlim⟩ := boundOf_isSome hb
      obtain ⟨-, _, n', -, hn', -⟩ := forall₂_left hl (boundOf_mem hlim)
      exact ⟨h.counter hlim (hone _ (boundOf_mem hlim)).1 (hone b hb).2 (hreads b hb) hn', ⟨m, hm⟩,
        h.placed.fixed h.admitted hb (hone b hb).1, n, hn⟩
  have hnonneg : 0 ≤ room (w.ctx p) s₀ := by
    refine List.sum_nonneg fun r hr => ?_
    obtain ⟨b, hb, rfl⟩ := List.mem_map.mp hr
    obtain ⟨hc, ⟨m, hm⟩, hfix, n, hn⟩ := hctr b hb
    obtain ⟨m', hm', -, hle⟩ := h.head.ctr _ m hc hm
    have := h.below b hb m' n hm' (h.head.limit hfix hn)
    simp only [hm, hn, Option.getD_some]
    omega
  refine ⟨m₀ + l.sum, by omega, hrun, fun hlt31 => ?_⟩
  have hmax := num_ty_max hm₀
  have hsecond : Second (w.ctx p) s₀ k :=
    { untouched := h.placed.untouched h.admitted hread.1
      other := lpCntOther_of_once hcnt hf hinc
      once := hcnt
      ctrs := hctr
      prog := hprog
      fits := fun m hm => by
        obtain rfl := Option.some.inj (hm₀.symm.trans hm)
        omega }
  obtain ⟨m, hm, -, hge, hle⟩ := h.head.sec k m₀ hsecond hm₀
  have hgain := h.head.gain_le h.below hsecond
  have htk : t.vals k = s.vals k := hmid.same k hsecond.untouched
    (hread.2 (by simp [beforeFirst, hf, hlt]))
  exact ⟨_, m, rfl, by rw [htk]; exact hm, by omega, by omega⟩

/-! ## Sums and products -/

/-- Every name of an expression is one that may be read here. -/
def Reads (Rd : String → Prop) (e : Expr) : Prop :=
  ∀ i x, Node.expr (.var i x) ∈ e.nodes → Rd x

/-- Bounds add up. -/
theorem Bounds.add {i : Nat} {l r : Expr} {ts ts' : List Tok} (hl : Bounds s₀ t ts l)
    (hr : Bounds s₀ t ts' r) : Bounds s₀ t (ts ++ ts' ++ lxHop .add) (.bin i .add l r) := by
  intro st rest rs hrun
  simp only [List.append_assoc] at hrun
  obtain ⟨hi, h0, hrun, hval⟩ := hl _ _ _ hrun
  obtain ⟨hi', h0', hrun', hval'⟩ := hr _ _ _ hrun
  refine ⟨hi + hi', by omega, run_op (o := .add) hrun', fun hlt => ?_⟩
  obtain ⟨v, n, hv, hn, hn0, hle⟩ := hval (by omega)
  obtain ⟨v', n', hv', hn', hn0', hle'⟩ := hval' (by omega)
  have hnum := Val.num_arith (· + ·) hn hn' (by omega) (by omega)
  exact ⟨_, n + n', by simp [pureVal, hv, hv'], hnum, by omega, by omega⟩

/-- Bounds of factors that are not negative multiply. -/
theorem BoundsPlain.mul {i : Nat} {l r : Expr} {ts ts' : List Tok} (hl : BoundsPlain s₀ t ts l)
    (hr : BoundsPlain s₀ t ts' r) :
    Bounds s₀ t (ts ++ ts' ++ lxHop .mul) (.bin i .mul l r) := by
  intro st rest rs hrun
  simp only [List.append_assoc] at hrun
  obtain ⟨hi, hrun, v, n, hv, hn, hn0, hle⟩ := hl _ _ _ hrun
  obtain ⟨hi', hrun', v', n', hv', hn', hn0', hle'⟩ := hr _ _ _ hrun
  have hmul : n * n' ≤ hi * hi' := Int.mul_le_mul hle hle' hn0' (by omega)
  have h0 : 0 ≤ n * n' := Int.mul_nonneg hn0 hn0'
  refine ⟨hi * hi', by omega, run_op (o := .mul) hrun', fun hlt => ?_⟩
  have h31 : n * n' < 2 ^ 31 := by omega
  have hnum := Val.num_arith (· * ·) hn hn' h0 h31
  exact ⟨_, n * n', by simp [pureVal, hv, hv'], hnum, h0, hmul⟩

/-- What the terms' tokens bound, the tokens of their sum do. -/
theorem bounds_hiBy {kind : Expr → Kind} {leaf : Expr → Option Nat}
    {hi : Expr → Guard → List Tok × Guard} {Rd : String → Prop} {K : List Tok}
    (hmono : ∀ e (q : Guard), q.Sub (hi e q).2)
    (hkind : ∀ i op l r, kind (.bin i op l r) = .none)
    (hbin : ∀ i op l r, leaf (.bin i op l r) = none)
    (hplain : ∀ e q, lxPlain (kind e) = true → Reads Rd e → (hi e q).2.Sub g →
      BoundsPlain s₀ t (hi e q).1 e)
    (hleaf : ∀ e q, (leaf e).isSome = true → Reads Rd e → (hi e q).2.Sub g →
      (hi e q).1 ⊆ K → Bounds s₀ t (hi e q).1 e)
    (e : Expr) (q : Guard) (hok : (lxOkBy kind leaf e).isSome = true) (hrd : Reads Rd e)
    (hsub : (lxHiBy hi e q).2.Sub g) (hK : (lxHiBy hi e q).1 ⊆ K) :
    Bounds s₀ t (lxHiBy hi e q).1 e := by
  match e with
  | .bin i .add l r =>
    simp only [lxOkBy] at hok
    simp only [lxHiBy] at hsub hK ⊢
    split at hok
    swap
    · simp at hok
    next a b ha hb =>
    have hrl : Reads Rd l := fun i x hx => hrd i x (by simp [Expr.nodes, hx])
    have hrr : Reads Rd r := fun i x hx => hrd i x (by simp [Expr.nodes, hx])
    have hl := bounds_hiBy hmono hkind hbin hplain hleaf l q (by simp [ha]) hrl
      ((lxHiBy_sub hmono r _).trans hsub) fun _ hx => hK (by simp [hx])
    have hr := bounds_hiBy hmono hkind hbin hplain hleaf r _ (by simp [hb]) hrr hsub
      fun _ hx => hK (by simp [hx])
    exact hl.add hr
  | .bin i .mul l r =>
    simp only [lxOkBy] at hok
    split at hok
    swap
    · simp at hok
    next hp =>
    simp only [Bool.and_eq_true] at hp
    -- a factor is read where it stands, so it is a leaf
    have hone : ∀ e q, lxPlain (kind e) = true → lxHiBy hi e q = hi e q := fun e q he => by
      cases e with
      | bin i op l r => simp [hkind, lxPlain] at he
      | int | var | imp | index | call | other => rfl
    simp only [lxHiBy, hone _ _ hp.1, hone _ _ hp.2] at hsub ⊢
    have hrl : Reads Rd l := fun i x hx => hrd i x (by simp [Expr.nodes, hx])
    have hrr : Reads Rd r := fun i x hx => hrd i x (by simp [Expr.nodes, hx])
    exact (hplain l q hp.1 hrl ((hmono r _).trans hsub)).mul (hplain r _ hp.2 hrr hsub)
  | .bin i .lt l r | .bin i .and l r | .bin i (.other _) l r => simp [lxOkBy, hbin] at hok
  | .int .. | .var .. | .imp .. | .index .. | .call .. | .other .. =>
    exact hleaf _ q (by simpa [lxOkBy] using hok) hrd hsub hK

/-! ## The terms of an index -/

theorem lxKind_bin {c : Ctx} {id dp i : Nat} {op : BinOp} {l r : Expr} :
    lxKind c id dp (.bin i op l r) = .none := rfl

/-- A term read where it stands has the tokens `plainHi` says. -/
theorem lxHleafDef_plain {e : Expr} {q : Guard} (h : lxPlain (lxKind c id 1 e) = true) :
    lxHleafDef c id e q = plainHi c (lxKind c id 1 e) e (lxHcl (lxKind c id 1 e) e q) := by
  unfold lxHleafDef plainHi
  cases hk : lxKind c id 1 e <;> simp [hk, lxPlain] at h ⊢

theorem lxHleaf_plain {e : Expr} {q : Guard} (h : lxPlain (lxKind c id 0 e) = true) :
    lxHleaf c id e q = plainHi c (lxKind c id 0 e) e (lxHcl (lxKind c id 0 e) e q) := by
  unfold lxHleaf plainHi
  cases hk : lxKind c id 0 e <;> simp [hk, lxPlain] at h ⊢

theorem plainHi_sub (k : Kind) (e : Expr) (q : Guard) : q.Sub (plainHi c k e q).2 := by
  unfold plainHi
  split
  · exact lxHctr_sub e q
  · exact Guard.Sub.refl q

theorem lxPlain_ne {k : Kind} (h : lxPlain k = true) : k ≠ .none := by
  rintro rfl
  simp [lxPlain] at h

/-- A definition is bounded by its tokens, where its names may be read. -/
theorem Scene.bounds_def (h : Scene p w g s₀ s) (hmid : Mid (w.ctx p) D s t)
    (hD : D.Subperm w.nodes) {e : Expr} (hok : (lxOkDef (w.ctx p) id e).isSome = true)
    (hrd : Reads (Readable w.toLoop id D) e) {q : Guard}
    (hsub : (lxHiBy (lxHleafDef (w.ctx p) id) e q).2.Sub g) :
    Bounds s₀ t (lxHiBy (lxHleafDef (w.ctx p) id) e q).1 e := by
  have hplain : ∀ e q, lxPlain (lxKind (w.ctx p) id 1 e) = true →
      Reads (Readable w.toLoop id D) e → (lxHleafDef (w.ctx p) id e q).2.Sub g →
      BoundsPlain s₀ t (lxHleafDef (w.ctx p) id e q).1 e := fun e q hk hrd hsub => by
    rw [lxHleafDef_plain hk] at hsub ⊢
    exact h.bounds_plain hmid hD (lxKind_is rfl (lxPlain_ne hk)) hk hrd
      ((plainHi_sub ..).trans hsub)
  refine bounds_hiBy (K := (lxHiBy (lxHleafDef (w.ctx p) id) e q).1) (lxHleafDef_sub id)
    (fun _ _ _ _ => lxKind_bin) (fun i op l r => by simp [lxLeafDef, lxKind_bin]) hplain
    (fun e q hleaf hrd hsub _ => ?_) e q hok hrd hsub fun _ h => h
  refine (hplain e q ?_ hrd hsub).bounds
  unfold lxLeafDef at hleaf
  cases hk : lxKind (w.ctx p) id 1 e with
  | none | loc => simp [hk] at hleaf
  | lit | inv | ctr => rfl
  | sec =>
    -- a second counter is none inside a definition
    cases lxKind_is hk (by simp) with
    | sec hdp => omega

/-- What runs above a local's declaration is numbered below the access that reads the local. -/
theorem unwritten_below {x : String} (hD : D.Subperm w.nodes) (hlt : ∀ v ∈ D, v.id < id)
    (hfirst : beforeFirst w.nodes id x = true) : lpCnt D x = 0 := by
  refine lpCnt_eq_zero fun v hv hw => ?_
  obtain ⟨f, hf, hle⟩ := lpFirst_le w.numbered (hD.subset hv) hw
  simp only [beforeFirst, hf, decide_eq_true_eq] at hfirst
  have := hlt v hv
  omega

theorem blockNodes_prefix {T : List Stmt} {d : Stmt} (h : T ++ [d] <+: w.stmts) :
    (blockNodes T).Subperm w.nodes := by
  obtain ⟨rest, hrest⟩ := h
  refine List.Sublist.subperm ?_ |>.trans w.blockNodes_subperm
  rw [← hrest, blockNodes_append, blockNodes_append, List.append_assoc]
  exact List.sublist_append_left ..

/-- A local is worth what its definition was, which its tokens bound. -/
theorem Scene.bounds_loc (h : Scene p w g s₀ s) {st : Stmt} {nd : Node}
    (hbefore : Before w.toLoop T st nd D) (hnow : Now (w.ctx p) T D s t) {i : Nat} {x : String}
    (hk : IsKind (w.ctx p) nd.id 0 .loc (.var i x)) (hread : Readable w.toLoop nd.id D x)
    (hok : (lxLeaf (w.ctx p) nd.id (.var i x)).isSome = true)
    (hkind : lxKind (w.ctx p) nd.id 0 (.var i x) = .loc) {q : Guard}
    (hsub : (lxHleaf (w.ctx p) nd.id (.var i x) q).2.Sub g) :
    Bounds s₀ t (lxHleaf (w.ctx p) nd.id (.var i x) q).1 (.var i x) := by
  cases hk with
  | @loc _ _ fid ty ex y rhs _ hcnt hf hdec =>
  have hmem : Node.stmt (.decl fid ty ex y rhs) ∈ w.nodes := List.mem_of_find?_eq_some hf
  have hw : lpWname (.stmt (.decl fid ty ex y rhs)) = some x := by simpa using List.find?_some hf
  obtain rfl := Option.some.inj hw
  have hdef : lxDef (w.ctx p) (.var i y) = some rhs := by simp [lxDef, hf]
  simp only [lxLeaf, hkind, hdef, Option.bind_some] at hok
  simp only [lxHleaf, hkind, hdef, lxHcl] at hsub ⊢
  simp only [lxDec, Bool.and_eq_true, decide_eq_true_eq, List.any_eq_true] at hdec
  obtain ⟨⟨⟨hlt, rfl⟩, -⟩, d, hd, hdid⟩ := hdec
  have hd' : Node.stmt d = .stmt (.decl fid .int ex y rhs) :=
    numbered_inj w.numbered
      (w.blockNodes_subperm.subset (Stmt.nodes_sub_block hd (Stmt.mem_nodes_self d))) hmem hdid
  obtain rfl := Node.stmt.inj hd'
  have hT := hbefore.decl_mem hd hlt
  have htouch := h.placed.untouched h.admitted hread.1
  obtain ⟨T₀, t₀, hT₀, hmid, hval⟩ := hnow.locs _ _ _ _ _ hT htouch hcnt
  have hD₀ := blockNodes_prefix hT₀
  have habove : ∀ v ∈ blockNodes T₀, v.id < nd.id := fun v hv =>
    (w.above_decl hT₀ v hv).trans hlt
  have hrd : Reads (Readable w.toLoop nd.id (blockNodes T₀)) rhs := fun j z hz =>
    ⟨.inr ⟨_, hmem, j, by simp [Node.parts, Stmt.nodes, hz]⟩,
      fun hfirst => unwritten_below hD₀ habove hfirst⟩
  intro st' rest rs hrun
  obtain ⟨hi, h0, hrun, hbound⟩ := h.bounds_def hmid hD₀ hok hrd hsub st' rest rs hrun
  refine ⟨hi, h0, hrun, fun hlt31 => ?_⟩
  obtain ⟨v, n, hv, hn, hn0, hle⟩ := hbound hlt31
  refine ⟨_, n, rfl, ?_, hn0, hle⟩
  rw [hval v hv]
  exact Val.num_coerceTo_int hn hn0 (by omega)

/-- The guard reads every counter a second counter's tokens name. -/
theorem lxHlim_reads {bounds : List (String × Expr)} {q : Guard} {b : String × Expr}
    (hb : b ∈ bounds) : Tok.name b.1 ∈ (lxHlim c bounds q).1 := by
  induction bounds generalizing q with
  | nil => simp at hb
  | cons b' bounds ih =>
    simp only [lxHlim, List.mem_append]
    rcases List.mem_cons.mp hb with rfl | hb
    · exact .inl (.inr (by simp))
    · exact .inr (ih hb)

/-- A term of the index, whatever its kind. -/
theorem Scene.bounds_leaf (h : Scene p w g s₀ s) {st : Stmt} {nd : Node}
    (hbefore : Before w.toLoop T st nd D) (hnow : Now (w.ctx p) T D s t) {K : List Tok}
    (hK : K ∈ g.lpcond) {e : Expr} {q : Guard}
    (hok : (lxLeaf (w.ctx p) nd.id e).isSome = true)
    (hrd : Reads (Readable w.toLoop nd.id D) e)
    (hsub : (lxHleaf (w.ctx p) nd.id e q).2.Sub g) (hts : (lxHleaf (w.ctx p) nd.id e q).1 ⊆ K) :
    Bounds s₀ t (lxHleaf (w.ctx p) nd.id e q).1 e := by
  have hplain : lxPlain (lxKind (w.ctx p) nd.id 0 e) = true →
      Bounds s₀ t (lxHleaf (w.ctx p) nd.id e q).1 e := fun hk => by
    rw [lxHleaf_plain hk] at hsub ⊢
    exact (h.bounds_plain hnow.toMid hbefore.sub (lxKind_is rfl (lxPlain_ne hk)) hk hrd
      ((plainHi_sub ..).trans hsub)).bounds
  cases hk : lxKind (w.ctx p) nd.id 0 e with
  | none => simp [lxLeaf, hk] at hok
  | lit | inv | ctr => exact hplain (by simp [hk, lxPlain])
  | loc =>
    cases lxKind_is hk (by simp) with
    | loc hdp hcnt hf hdec =>
      exact h.bounds_loc hbefore hnow (.loc hdp hcnt hf hdec)
        (hrd _ _ (Expr.mem_nodes_self (.var _ _))) hok hk hsub
  | sec =>
    cases lxKind_is hk (by simp) with
    | @sec i x f _ hcnt hf hsec =>
      have hcl : [.name x, .const 0, .cmp .ge] ∈ g.lpcond := by
        refine hsub ?_
        simp only [lxHleaf, hk, lxHcl]
        exact lxHsec_sub _ _ (lpRel_mem ..)
      simp only [lxHleaf, hk] at hts ⊢
      refine h.bounds_sec hnow.toMid hcnt hf hsec (hrd _ _ (Expr.mem_nodes_self (.var i x))) hcl
        (fun b hb => ⟨K, hK, hts ?_⟩) _
      simp only [lxHsec, List.mem_append]
      exact .inl (.inr (lxHlim_reads hb))

/-! ## The theorem -/

/-- What the guard does not ask of an access whose index is a sum. -/
structure SumFits (w : Loop) (g : Guard) (s₀ : State) (a : Access) : Prop where
  /-- The guard's arithmetic does not wrap. -/
  exact : g.NoWrap s₀
  /-- An access in the step of a `for` runs after the body, which must not write what it reads. -/
  order : w.inStep a.id → ∀ i x, Node.expr (.var i x) ∈ a.ix.nodes →
    lpCnt (blockNodes w.body) x = 0
  /-- The steps of a round take no counter the guard reads past its type. -/
  step : ∀ j lim l, boundOf (lpCond w.cond).1 j = some lim → g.reads j → 0 < lpCnt w.nodes j →
    s₀.limit lim = some l → l - 1 + lpCnt w.nodes j ≤ (s₀.vals j).ty.max

/-- A clause that a bound is below the length of a list. -/
theorem clause_below {ts : List Tok} {e : Expr} {i : Nat} {xs : String}
    (hty : p.ty xs ≠ .string) (hb : Bounds s₀ t ts e)
    (h : clauseVal exact s₀ (ts ++ lpLenw p (.var i xs) ++ [.cmp .lt]) = some true) :
    ∃ (len : Nat) (v : Val) (n : Int), (s₀.vals xs).seqLen s₀.heap = some len ∧
      pureVal t e = some v ∧ v.num = some n ∧ 0 ≤ n ∧ n < len := by
  unfold clauseVal at h
  split at h
  swap
  · simp at h
  next b hrun =>
    obtain rfl := Option.some.inj h
    rw [List.append_assoc] at hrun
    obtain ⟨hi, h0, hrun, hval⟩ := hb _ _ _ hrun
    have hheader := run_header hty hrun
    obtain ⟨len, hlen, -, hrun⟩ := run_lenw hrun
    obtain ⟨z, hz, hcmp⟩ := run_cmp hrun
    obtain rfl := SVal.num.inj hz
    have hlt : hi < len := of_decide_eq_true hcmp
    have hlen31 := hheader len hlen
    obtain ⟨v, n, hv, hn, hn0, hle⟩ := hval (by omega)
    exact ⟨len, v, n, hlen, hv, hn, hn0, by omega⟩

/-- What `lxCover` has checked of an access. -/
theorem lxCover_eq {a : Access} (h : lxCover c a = true) :
    ∃ i xs, a.base = .var i xs ∧ lpCnt c.ns xs = 0 ∧ (lxOk c a.id a.ix).isSome = true := by
  unfold lxCover at h
  split at h
  swap
  · simp at h
  next i xs hbase =>
  simp only [Bool.and_eq_true, decide_eq_true_eq] at h
  refine ⟨i, xs, hbase, h.1, ?_⟩
  cases hok : lxOk c a.id a.ix with
  | none => simp [hok] at h
  | some n => rfl

/-- The access is in range wherever it stands in a round. -/
theorem Scene.sum_okAt (h : Scene p w g s₀ s) {a : Access} {nd : Node} (hnd : nd ∈ w.nodes)
    (ha : nd.access = some a) (htext : a.text = false) (hcover : lxCover (w.ctx p) a = true)
    {q : Planned} (hsub : (lxTake (w.ctx p) a q).guard.Sub g)
    (horder : w.inStep a.id → ∀ i x, Node.expr (.var i x) ∈ a.ix.nodes →
      lpCnt (blockNodes w.body) x = 0) {st : Stmt} (hbefore : Before w.toLoop T st nd D) :
    ∀ t, Now (w.ctx p) T D s t → ∃ vb vi, pureVal t a.base = some vb ∧ pureVal t a.ix = some vi ∧
      ∀ h, t.heap.Ext h → (Event.mk a.id vb vi h).InRange := by
  intro t hnow
  obtain ⟨i, xs, hbase, hxs, hok⟩ := lxCover_eq hcover
  have hid := Node.access_id ha
  have hparts := Node.access_parts ha
  have hxt : ¬(w.ctx p).touched xs := h.placed.untouched h.admitted
    (.inr ⟨nd, hnd, i, hparts.1 (by simp [hbase, Expr.nodes])⟩)
  have hty := h.placed.indexed nd hnd a ha htext i xs hbase
  -- the clause, and the tokens of the index in it
  have hadd := (lpAdd_sub ((lxHi (w.ctx p) a.id a.ix (lpRel a.base .null .ne q.guard)).1 ++
    lpLenw p a.base ++ [.cmp .lt]) (lxHi (w.ctx p) a.id a.ix (lpRel a.base .null .ne q.guard)).2)
  have hclause := hsub (store_sub a _ (lpAdd_mem ((lxHi (w.ctx p) a.id a.ix
    (lpRel a.base .null .ne q.guard)).1 ++ lpLenw p a.base ++ [.cmp .lt]) _))
  have hhi : (lxHi (w.ctx p) a.id a.ix (lpRel a.base .null .ne q.guard)).2.Sub g :=
    hadd.trans fun _ hk => hsub (store_sub a _ hk)
  have hrd : Reads (Readable w.toLoop nd.id D) a.ix := fun j x hx =>
    ⟨.inr ⟨nd, hnd, j, hparts.2 hx⟩,
      fun hfirst => hbefore.unwritten hfirst fun hin => horder (hid ▸ hin) j x hx⟩
  rw [hid] at hclause hhi hok
  have hbounds : Bounds s₀ t (lxHi (w.ctx p) nd.id a.ix (lpRel a.base .null .ne q.guard)).1 a.ix :=
    bounds_hiBy (lxHleaf_sub nd.id) (fun _ _ _ _ => lxKind_bin)
      (fun i op l r => by simp [lxLeaf, lxKind_bin])
      (fun e q hk hrd hsub => by
        rw [lxHleaf_plain hk] at hsub ⊢
        exact h.bounds_plain hnow.toMid hbefore.sub (lxKind_is rfl (lxPlain_ne hk)) hk hrd
          ((plainHi_sub ..).trans hsub))
      (fun e q hleaf hrd hsub hts => h.bounds_leaf hbefore hnow hclause hleaf hrd hsub hts)
      a.ix _ hok hrd hhi fun _ hx => by simp [lxHi] at hx ⊢; exact .inl hx
  have htrue := h.clauses _ hclause
  rw [hbase] at htrue hbounds
  obtain ⟨len, v, n, hlen, hv, hn, hn0, hlt⟩ := clause_below hty hbounds htrue
  have htxs : t.vals xs = s₀.vals xs := h.same hnow.toMid hbefore.sub hxt hxs
  refine ⟨s₀.vals xs, v, by rw [hbase, ← htxs]; rfl, hv, fun h' hext => ⟨n, len, hn, ?_, hn0, hlt⟩⟩
  exact Val.seqLen_ext ((h.head.heap.trans hnow.heap).trans hext) hlen

/-- Every access by a sum of terms in the plan's set is in range, in every run from a state the
guard is true in, whatever the run does. -/
theorem lxTake_inRange (hp : Placed p w.toLoop) {s' : State} {r : Option Out} {tr : List Event}
    (hg : (lpPlan p w.toLoop).guard.True s₀) (hrun : runLoop p R w.toLoop s₀ s' r tr) {nd : Node}
    (hnd : nd ∈ w.nodes) {a : Access} (ha : nd.access = some a)
    (hset : a.id ∈ (lpPlan p w.toLoop).lpset) (hs : lpSimple (w.ctx p) a = none)
    (hfit : SumFits w.toLoop (lpPlan p w.toLoop).guard s₀ a) :
    ∀ e ∈ tr, e.id = a.id → e.InRange := by
  obtain ⟨hadm, htaken⟩ := w.taken hnd ha hset
  rcases htaken with ⟨j, k, lim, q, hs', -⟩ | ⟨-, htext, hcover, q, hsub⟩
  · simp [hs] at hs'
  have hall : Holds (fun e => e.id = a.id → e.InRange) (· = s₀) (runLoop p R w.toLoop)
      fun _ _ => True := ?_
  · exact (hall s₀ s' r tr rfl hrun).1
  refine runLoop_inPlace hp hadm ?_
  intro s hhead hbelow T st nd D hbefore b hb
  by_cases hbid : b.id = a.id
  · right
    obtain ⟨rfl, rfl⟩ := w.access_inj hnd hbefore.mem_nodes ha hb hbid.symm
    have hscene : Scene p w (lpPlan p w.toLoop).guard s₀ s :=
      ⟨hp, hadm, hg.exact hfit.exact, hfit.step, hhead, hbelow⟩
    intro t ht
    obtain ⟨vb, vi, hvb, hvi, hok⟩ := hscene.sum_okAt hnd ha htext hcover hsub hfit.order hbefore
      t ht
    exact ⟨vb, vi, hvb, hvi, fun h hext _ => hok h hext⟩
  · exact .inl fun _ _ _ h => absurd h hbid

/-- `while(j < n) { int q = j * 2; x = xs[q + m]; j = j + 1; }`. -/
def localLoop : NumberedLoop where
  id := 17
  cond := .bin 2 .lt (.var 0 "j") (.var 1 "n")
  step := none
  body := [.decl 6 .int false "q" (.bin 5 .mul (.var 3 "j") (.int 4 2 false)),
    .assign 12 "x" (.index 11 (.var 7 "xs") (.bin 10 .add (.var 8 "q") (.var 9 "m"))),
    .assign 16 "j" (.bin 15 .add (.var 13 "j") (.int 14 1 false))]
  numbered := by decide

instance (g : Guard) (s : State) : Decidable (g.NoWrap s) :=
  inferInstanceAs (Decidable (∀ tk ∈ g.lpcond, clauseVal exact s tk ≠ none))

theorem lxTake_inRange_local :
    (⟨11, .bytes (some 0), .int 0, (bytesState 1 0).heap⟩ : Event).InRange :=
  have hrun : runLoop (bytesProg localLoop.toLoop) sampleRuntime localLoop.toLoop (bytesState 1 0) _
      none [⟨11, .bytes (some 0), .int 0, (bytesState 1 0).heap⟩] := sampleLoop_run (n := 1) rfl
  have hacc : Node.access (.expr (.index 11 (.var 7 "xs") (.bin 10 .add (.var 8 "q")
      (.var 9 "m")))) = some ⟨11, .var 7 "xs", .bin 10 .add (.var 8 "q") (.var 9 "m"), false,
        false⟩ := rfl
  have hs : lpSimple (localLoop.ctx (bytesProg localLoop.toLoop)) ⟨11, .var 7 "xs",
      .bin 10 .add (.var 8 "q") (.var 9 "m"), false, false⟩ = none := rfl
  lxTake_inRange (bytesProg_placed _) (by decide +kernel) hrun
    (by simp [localLoop, Loop.nodes, Loop.stepStmts, blockNodes, Stmt.nodes, Expr.nodes]) hacc
    (by decide +kernel) hs
    { exact := by decide +kernel
      order := fun h => absurd h (by simp [Loop.inStep, localLoop, Loop.stepStmts, blockNodes])
      step := fun j lim l hlim _ _ hl => by
        have hb := boundOf_mem hlim
        simp only [localLoop, lpCond, lpLimit, if_true, List.mem_singleton, Prod.mk.injEq] at hb
        obtain ⟨rfl, rfl⟩ := hb
        obtain rfl := Option.some.inj ((bytesState_limit ..).symm.trans hl)
        decide +kernel }
    _ (List.mem_singleton_self _) rfl

/-- `while(j < n) { x = xs[j * 4]; j = j + 1; }`. -/
def quadLoop : NumberedLoop where
  id := 13
  cond := .bin 2 .lt (.var 0 "j") (.var 1 "n")
  step := none
  body := [.assign 8 "x" (.index 7 (.var 3 "xs") (.bin 6 .mul (.var 4 "j") (.int 5 4 false))),
    .assign 12 "j" (.bin 11 .add (.var 9 "j") (.int 10 1 false))]
  numbered := by decide

/-- `for(…; j < n; s = s + xs[j + j]) { j = j + 1; }`. -/
def stepSumLoop : NumberedLoop where
  id := 15
  cond := .bin 2 .lt (.var 0 "j") (.var 1 "n")
  step := some ⟨10, "s", .bin 9 .add (.var 3 "s")
    (.index 8 (.var 4 "xs") (.bin 7 .add (.var 5 "j") (.var 6 "j")))⟩
  body := [.assign 14 "j" (.bin 13 .add (.var 11 "j") (.int 12 1 false))]
  numbered := by decide

/-- `while(j < n) { x = xs[j * 1]; j = j + 1; j = j + 1; }`. -/
def twiceSumLoop : NumberedLoop where
  id := 17
  cond := .bin 2 .lt (.var 0 "j") (.var 1 "n")
  step := none
  body := [.assign 8 "x" (.index 7 (.var 3 "xs") (.bin 6 .mul (.var 4 "j") (.int 5 1 false))),
    .assign 12 "j" (.bin 11 .add (.var 9 "j") (.int 10 1 false)),
    .assign 16 "j" (.bin 15 .add (.var 13 "j") (.int 14 1 false))]
  numbered := by decide

/-- A buffer of one byte, and a limit that is a word. -/
def wideState (n : Int) : State :=
  { bytesState 1 1 with vals := Function.update (bytesState 1 1).vals "n" (.word (BitVec.ofInt 64 n)) }

/-- A guard that wraps, a step read after the body and a counter stepped past its type lead out of
the buffer. -/
theorem lxTake_strays :
    Strays (bytesProg quadLoop.toLoop) quadLoop.toLoop (wideState (2 ^ 62 + 1)) false ∧
      Strays (bytesProg stepSumLoop.toLoop) stepSumLoop.toLoop (bytesState 1 0) false ∧
      Strays (bytesProg twiceSumLoop.toLoop) twiceSumLoop.toLoop
        (bytesState 2147483647 2147483646) false :=
  ⟨.of_sample (n := 1) (bytesProg_placed _) (by decide +kernel) (by decide +kernel),
    .of_sample (n := 1) (bytesProg_placed _) (by decide +kernel) (by decide +kernel),
    .of_sample (n := 2) (bytesProg_placed _) (by decide +kernel) (by decide +kernel)⟩

end IdCompiler.Fast

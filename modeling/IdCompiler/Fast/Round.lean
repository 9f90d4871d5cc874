import IdCompiler.Fast.Order

/-!
# Running a round

Every access of a round is made in a state inside the round: for a statement of
the body, one in which only nodes numbered below the access have run.
-/

namespace IdCompiler.Fast

open IdCompiler.Core Behave

variable {R : Runtime} {c : Ctx} {ok : Event → Prop} {s : State} {P : State → Prop}

/-! ## Expressions -/

/-- What a call the plan admits cannot break. -/
def Stable (c : Ctx) (P : State → Prop) : Prop :=
  ∀ t u, P t → Quiet c.touched t u → P u

theorem Now.stable {T : List Stmt} {D : List Node} : Stable c (Now c T D s) :=
  fun _ _ h hq => h.quiet hq fun _ => id

/-- So far the heap has only grown. -/
theorem Stable.grown (h : Stable c P) (H : Heap) : Stable c fun t => P t ∧ H.Ext t.heap :=
  fun t u hp hq => ⟨h t u hp.1 hq, hp.2.trans hq.1⟩

/-- An access is acceptable: whatever it reads, or because its sequence and index are read from
the state and acceptable there. -/
def OkAt (ok : Event → Prop) (P : State → Prop) (a : Access) : Prop :=
  (∀ vb vi h, ok ⟨a.id, vb, vi, h⟩) ∨
    ∀ t, P t → ∃ vb vi, pureVal t a.base = some vb ∧ pureVal t a.ix = some vi ∧
      ∀ h, t.heap.Ext h → ok ⟨a.id, vb, vi, h⟩

theorem OkAt.mono {P' : State → Prop} {a : Access} (h : OkAt ok P a) (hP : ∀ t, P' t → P t) :
    OkAt ok P' a :=
  h.imp_right fun h t ht => h t (hP t ht)

/-- Every access among the nodes is acceptable. -/
def OkNodes (ok : Event → Prop) (P : State → Prop) (ns : List Node) : Prop :=
  ∀ nd ∈ ns, ∀ a, nd.access = some a → OkAt ok P a

theorem OkNodes.sub {ns ns' : List Node} (h : OkNodes ok P ns) (hsub : ns' ⊆ ns) :
    OkNodes ok P ns' :=
  fun nd hnd => h nd (hsub hnd)

/-- A loop whose calls and statements the plan admits. -/
structure Ctx.Clean (c : Ctx) : Prop where
  named : c.prog.Named
  clean : lpClean c.prog c.ns = true

theorem Ctx.Clean.call (hc : c.Clean) {id : Nat} {f : String} {args : Args}
    (h : Node.expr (.call id f args) ∈ c.ns) : lpCls c.prog f = false := by
  have := List.all_eq_true.mp hc.clean _ h
  simpa [lpClear] using this

theorem Ctx.Clean.loop (hc : c.Clean) {id : Nat} {e : Expr} {body : List Stmt} :
    Node.stmt (.loop id e body) ∉ c.ns := by
  intro h
  have := List.all_eq_true.mp hc.clean _ h
  simp [lpClear] at this

theorem anyVal_stable : Holds ok P anyVal fun _ => P :=
  Holds.any fun _ => Holds.ret fun _ h => h

theorem allocate_stable (hP : Stable c P) : Holds ok P allocate fun _ => P :=
  Holds.rel fun t u _ h hu => hP t u h ⟨hu.2, fun x _ => by rw [hu.1]⟩

theorem evalBin_stable (op : BinOp) (a b : Val) : Holds ok P (evalBin op a b) fun _ => P := by
  cases op with
  | add | mul => exact Holds.ret fun _ h => h
  | lt =>
    simp only [evalBin]
    split
    · exact Holds.ret fun _ h => h
    · exact anyVal_stable
  | and =>
    simp only [evalBin]
    split
    · exact Holds.ret fun _ h => h
    · exact anyVal_stable
  | other t => exact anyVal_stable

/-- A call that is no read of a string's cell. -/
theorem evalCall_stable (hc : c.Clean) (hP : Stable c P) {id : Nat} {f : String} {args : Args}
    (hmem : Node.expr (.call id f args) ∈ c.ns) {vs : List Val}
    (hev : f = "character_code_at" → ∀ vb vi, vs = [vb, vi] → ∀ t, P t →
      ok ⟨id, vb, vi, t.heap⟩) :
    Holds ok P (evalCall c.prog R id f vs) fun _ => P := by
  unfold evalCall
  split
  · next vb vi =>
    exact Holds.bind (Holds.emit (hev rfl vb vi rfl) fun _ h => h) fun _ => anyVal_stable
  · exact Holds.rel fun t u v h hu => hu.1 ▸ h
  · refine Holds.bind (Holds.rel fun t u _ h hu => ?_) fun _ => anyVal_stable
    have hq := hu.clean hc.named (hc.call hmem)
    exact hP t u h (hq.mono fun x hx => ⟨id, f, args, hmem, hx⟩)

/-- How many arguments there are. -/
def Args.length : Args → Nat
  | .nil => 0
  | .cons _ rest => rest.length + 1

theorem Args.two_of_length {args : Args} (h : args.length = 2) : ∃ a b, args.two = some (a, b) := by
  match args, h with
  | .cons a (.cons b .nil), _ => exact ⟨a, b, rfl⟩

theorem Args.eq_of_two {args : Args} {a b : Expr} (h : args.two = some (a, b)) :
    args = .cons a (.cons b .nil) := by
  unfold Args.two at h
  split at h
  · simp only [Option.some.injEq, Prod.mk.injEq] at h
    rw [h.1, h.2]
  · simp at h

/-- Two arguments that only read the state. -/
theorem evalArgs_pure {p : Prog} {a b : Expr} {va vb : Val} (ha : pureVal s a = some va)
    (hb : pureVal s b = some vb) :
    Holds ok (· = s) (evalArgs p R (.cons a (.cons b .nil))) fun vs t =>
      t = s ∧ vs = [va, vb] := by
  simp only [evalArgs]
  refine Holds.bind (evalE_pure ha) fun v => Holds.bind (Q := fun vs t => t = s ∧ v = va ∧
    vs = [vb]) (Holds.of_pre fun t ht => ?_) fun vs => Holds.ret fun t ht => ?_
  · obtain ⟨rfl, rfl⟩ := ht
    refine Holds.bind (evalE_pure hb) fun w => ?_
    exact Holds.bind (Q := fun vs t' => t' = t ∧ w = vb ∧ vs = [])
      (Holds.ret fun u hu => ⟨hu.1, hu.2, rfl⟩)
      fun vs => Holds.ret fun u hu => ⟨hu.1, rfl, by rw [hu.2.1, hu.2.2]⟩
  · rw [ht.1, ht.2.1, ht.2.2]
    exact ⟨rfl, rfl⟩

mutual
theorem evalE_stable (hc : c.Clean) (hP : Stable c P) (e : Expr) (hsub : e.nodes ⊆ c.ns)
    (hacc : OkNodes ok P e.nodes) : Holds ok P (evalE c.prog R e) fun _ => P := by
  match e with
  | .int _ v w => exact Holds.ret fun _ h => h
  | .var _ x | .imp _ x => exact Holds.get fun _ h => h
  | .bin id op l r =>
    simp only [Expr.nodes] at hsub hacc
    have hl := evalE_stable hc hP l (fun _ h => hsub (by simp [h])) (hacc.sub fun _ h => by simp [h])
    have hr := evalE_stable hc hP r (fun _ h => hsub (by simp [h])) (hacc.sub fun _ h => by simp [h])
    simp only [evalE]
    refine Holds.bind hl fun a => ?_
    have hrest := Holds.bind hr fun b => evalBin_stable op a b
    split
    · exact Holds.ret fun _ h => h
    · exact Holds.choice anyVal_stable hrest
    · exact hrest
  | .index id b i =>
    simp only [Expr.nodes] at hsub hacc
    have hb := evalE_stable hc hP b (fun _ h => hsub (by simp [h])) (hacc.sub fun _ h => by simp [h])
    have hi := evalE_stable hc hP i (fun _ h => hsub (by simp [h])) (hacc.sub fun _ h => by simp [h])
    simp only [evalE]
    rcases hacc (.expr (.index id b i)) (by simp) _ rfl with hany | hpure
    · refine Holds.bind hb fun vb => Holds.bind hi fun vi => ?_
      exact Holds.bind (Holds.emit (fun t _ => hany vb vi t.heap) fun _ h => h) fun _ =>
        anyVal_stable
    · refine Holds.of_pre fun t ht => ?_
      obtain ⟨vb, vi, hvb, hvi, hok⟩ := hpure t ht
      refine Holds.bind (evalE_pure hvb) fun vb' => Holds.of_pre fun u hu => ?_
      obtain ⟨rfl, rfl⟩ := hu
      refine Holds.bind (evalE_pure hvi) fun vi' => ?_
      refine Holds.bind (Q := fun _ => P) (Holds.emit (fun v hv => ?_) fun v hv => ?_) fun _ =>
        anyVal_stable
      · rw [hv.1, hv.2]
        exact hok u.heap (Heap.Ext.refl _)
      · rw [hv.1]
        exact ht
  | .call id f args =>
    simp only [Expr.nodes] at hsub hacc
    have hargs := evalArgs_stable hc hP args (fun _ h => hsub (by simp [h]))
      (hacc.sub fun _ h => by simp [h])
    have hmem : Node.expr (.call id f args) ∈ c.ns := hsub (by simp)
    simp only [evalE]
    by_cases hf : f = "character_code_at" ∧ args.length = 2
    · obtain ⟨rfl, hlen⟩ := hf
      obtain ⟨a, b, htwo⟩ := Args.two_of_length hlen
      have hargs' := Args.eq_of_two htwo
      rcases hacc (.expr (.call id "character_code_at" args)) (by simp) ⟨id, a, b, false, true⟩
        (by simp [Node.access, htwo]) with hany | hpure
      · refine Holds.bind hargs fun vs => ?_
        exact (evalCall_stable hc hP hmem fun _ vb vi _ t _ => hany vb vi t.heap).pre
          fun _ h => h.1
      · refine Holds.of_pre fun t ht => ?_
        obtain ⟨va, vb, hva, hvb, hok⟩ := hpure t ht
        rw [hargs']
        refine Holds.bind (evalArgs_pure hva hvb) fun vs => Holds.of_pre fun u hu => ?_
        obtain ⟨rfl, rfl⟩ := hu
        refine Holds.bind (Q := fun _ => P) (Holds.emit (fun v hv => ?_) fun v hv => ?_) fun _ =>
          anyVal_stable
        · rw [hv]
          exact hok u.heap (Heap.Ext.refl _)
        · rw [hv]
          exact ht
    · refine Holds.bind hargs fun vs => Holds.of_pre fun t ht => ?_
      refine (evalCall_stable hc hP hmem fun hcca vb vi hvs => ?_).pre fun u hu => hu ▸ ht.1
      exact absurd ⟨hcca, by rw [← ht.2, hvs]; rfl⟩ hf
  | .other id args =>
    simp only [Expr.nodes] at hsub hacc
    have hargs := evalSome_stable hc hP args (fun _ h => hsub (by simp [h]))
      (hacc.sub fun _ h => by simp [h])
    simp only [evalE]
    exact Holds.bind hargs fun _ => Holds.bind (allocate_stable hP) fun _ => anyVal_stable
theorem evalArgs_stable (hc : c.Clean) (hP : Stable c P) (args : Args)
    (hsub : args.nodes ⊆ c.ns) (hacc : OkNodes ok P args.nodes) :
    Holds ok P (evalArgs c.prog R args) fun vs t => P t ∧ vs.length = args.length := by
  match args with
  | .nil => exact Holds.ret fun _ h => ⟨h, rfl⟩
  | .cons e rest =>
    simp only [Args.nodes] at hsub hacc
    have he := evalE_stable hc hP e (fun _ h => hsub (by simp [h])) (hacc.sub fun _ h => by simp [h])
    have hrest := evalArgs_stable hc hP rest (fun _ h => hsub (by simp [h]))
      (hacc.sub fun _ h => by simp [h])
    simp only [evalArgs]
    refine Holds.bind he fun v => Holds.bind hrest fun vs => Holds.ret fun t ht => ?_
    exact ⟨ht.1, by simp [Args.length, ht.2]⟩
theorem evalSome_stable (hc : c.Clean) (hP : Stable c P) (args : Args)
    (hsub : args.nodes ⊆ c.ns) (hacc : OkNodes ok P args.nodes) :
    Holds ok P (evalSome c.prog R args) fun _ => P := by
  match args with
  | .nil => exact Holds.ret fun _ h => h
  | .cons e rest =>
    simp only [Args.nodes] at hsub hacc
    have he := evalE_stable hc hP e (fun _ h => hsub (by simp [h])) (hacc.sub fun _ h => by simp [h])
    have hrest := evalSome_stable hc hP rest (fun _ h => hsub (by simp [h]))
      (hacc.sub fun _ h => by simp [h])
    simp only [evalSome]
    refine Holds.bind (Holds.choice (Holds.ret fun _ h => h) ?_) fun _ => hrest
    exact Holds.bind he fun _ => Holds.ret fun _ h => h
end

end IdCompiler.Fast

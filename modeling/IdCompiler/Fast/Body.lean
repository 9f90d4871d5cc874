import IdCompiler.Fast.Round

/-!
# The statements of a round

A statement runs its nodes in the order of their numbers, so an access inside it
is made when only what ran before the statement, and nodes numbered below the
access, may have run. The statements at the top of the body run one after the
other, and leave their locals set.
-/

namespace IdCompiler.Fast

open IdCompiler.Core Behave

variable {R : Runtime} {c : Ctx} {ok : Event → Prop} {s : State} {T : List Stmt}
  {D : List Node}

/-- Every access among the nodes is acceptable after whatever may have run before it: `D`, and
what stands before it among the nodes. -/
def Covered (ok : Event → Prop) (c : Ctx) (T : List Stmt) (s : State) (D ns : List Node) : Prop :=
  ∀ nd ∈ ns, ∀ a, nd.access = some a → ∀ D', D'.Subperm c.ns →
    (∀ w ∈ D', w ∈ D ∨ [w, nd].Sublist ns) → OkAt ok (Now c T D' s) a

theorem Covered.okNodes {ns : List Node} (h : Covered ok c T s D ns) (hD : D.Subperm c.ns) :
    OkNodes ok (Now c T D s) ns :=
  fun nd hnd a ha => h nd hnd a ha D hD fun _ hw => .inl hw

theorem Covered.sub {ns ns' : List Node} (h : Covered ok c T s D ns) (hsub : ns'.Sublist ns) :
    Covered ok c T s D ns' :=
  fun nd hnd a ha D' hD' hbefore => h nd (hsub.subset hnd) a ha D' hD' fun w hw =>
    (hbefore w hw).imp_right fun hw => hw.trans hsub

/-- What stands first may have run by then. -/
theorem Covered.after {ns ns' : List Node} (h : Covered ok c T s D (ns ++ ns')) :
    Covered ok c T s (D ++ ns) ns' := by
  intro nd hnd a ha D' hD' hbefore
  refine h nd (by simp [hnd]) a ha D' hD' fun w hw => ?_
  rcases hbefore w hw with hw | hw
  · rcases List.mem_append.mp hw with hw | hw
    · exact .inl hw
    · exact .inr ((List.singleton_sublist.mpr hw).append (List.singleton_sublist.mpr hnd))
  · exact .inr (hw.trans (List.sublist_append_right ..))

/-- A part of what may run is a part of the loop. -/
theorem subperm_part {ns ns' : List Node} (h : (D ++ ns).Subperm c.ns) (hsub : ns'.Sublist ns) :
    (D ++ ns').Subperm c.ns :=
  (((List.Sublist.refl D).append hsub).subperm).trans h

/-- Setting a name that is no counter's step. -/
theorem setVal_now {nd : Node} {x : String} {f : State → String × Val} {ns : List Node}
    (hw : lpWname nd = some x) (hf : ∀ t, (f t).1 = x) (hsub : (D ++ ns).Subperm c.ns)
    (hnd : [nd].Sublist ns) {P : State → Prop} (hP : ∀ t, P t → Now c T D s t)
    (hinc : ∀ t, P t → lpIsinc nd = true → ∃ e w, lpOne e = true ∧ pureVal t e = some w ∧
      (f t).2 = ((t.vals x).arith (· + ·) w).coerceTo (t.vals x).ty) :
    Holds ok P (setVal f) fun o t => o = .norm → Now c T (D ++ ns) s t := by
  refine Holds.rel fun t u o ht hu _ => ?_
  obtain ⟨rfl, -⟩ := hu
  have hnow := (hP t ht).write hw (subperm_part hsub hnd) (hinc t ht)
  rw [hf t]
  exact hnow.mono ((List.Sublist.refl D).append hnd).subperm

theorem last_sublist (ns : List Node) (nd : Node) : [nd].Sublist (ns ++ [nd]) :=
  List.sublist_append_right ns [nd]

theorem thn_sublist (e thn els : List Node) (nd : Node) :
    thn.Sublist (e ++ thn ++ els ++ [nd]) := by
  simp

theorem els_sublist (e thn els : List Node) (nd : Node) :
    els.Sublist (e ++ thn ++ els ++ [nd]) :=
  (List.sublist_append_right ..).trans (List.sublist_append_left ..)

/-- A step of a counter reads it and adds one. -/
theorem lpIsinc_assign {id : Nat} {x : String} {rhs : Expr} {t : State}
    (h : lpIsinc (.stmt (.assign id x rhs)) = true) :
    ∃ e w, lpOne e = true ∧ pureVal t e = some w ∧
      pureVal t rhs = some ((t.vals x).arith (· + ·) w) := by
  unfold lpIsinc at h
  split at h
  · next bid vid y e heq =>
    simp only [Node.stmt.injEq, Stmt.assign.injEq] at heq
    obtain ⟨-, rfl, rfl⟩ := heq
    simp only [Bool.and_eq_true, decide_eq_true_eq] at h
    obtain ⟨rfl, hone⟩ := h
    cases e with
    | int eid v w => exact ⟨_, _, hone, rfl, rfl⟩
    | var | imp | bin | index | call | other => simp [lpOne] at hone
  · simp at h

mutual
theorem runS_now (hc : c.Clean) (st : Stmt) (D : List Node) (hsub : (D ++ st.nodes).Subperm c.ns)
    (hcov : Covered ok c T s D st.nodes) :
    Holds ok (Now c T D s) (runS c.prog R st) fun o t =>
      o = .norm → Now c T (D ++ st.nodes) s t := by
  have hD : D.Subperm c.ns := (List.sublist_append_left ..).subperm.trans hsub
  have hin : st.nodes ⊆ c.ns := fun _ h => hsub.subset (List.mem_append_right _ h)
  have hok := hcov.okNodes hD
  match st with
  | .decl id ty ex x rhs =>
    simp only [Stmt.nodes] at hsub hin hok ⊢
    have hrhs := evalE_stable (R := R) hc Now.stable rhs (fun _ h => hin (by simp [h]))
      (hok.sub fun _ h => by simp [h])
    simp only [runS]
    refine Holds.bind hrhs fun v => ?_
    exact setVal_now (x := x) (by rfl) (fun _ => rfl) hsub (last_sublist ..) (fun _ h => h)
      fun _ _ h => by simp [lpIsinc] at h
  | .assign id x rhs =>
    simp only [Stmt.nodes] at hsub hin hok ⊢
    simp only [runS]
    by_cases hinc : lpIsinc (.stmt (.assign id x rhs)) = true
    · refine Holds.of_pre fun t ht => ?_
      obtain ⟨e, w, hone, hw, hv⟩ := lpIsinc_assign (t := t) hinc
      refine Holds.bind (evalE_pure hv) fun v => ?_
      refine setVal_now (x := x) (by rfl) (fun _ => rfl) hsub (last_sublist ..)
        (fun u hu => hu.1 ▸ ht) fun u hu _ => ⟨e, w, hone, by rw [hu.1]; exact hw, ?_⟩
      rw [hu.1, hu.2]
    · have hrhs := evalE_stable (R := R) hc Now.stable rhs (fun _ h => hin (by simp [h]))
        (hok.sub fun _ h => by simp [h])
      refine Holds.bind hrhs fun v => ?_
      exact setVal_now (x := x) (by rfl) (fun _ => rfl) hsub (last_sublist ..) (fun _ h => h)
        fun _ _ h => absurd h hinc
  | .iassign id pid b i rhs =>
    simp only [Stmt.nodes] at hsub hin hok ⊢
    have hgrow : ∀ t, Now c T D s t → Now c T (D ++ (b.nodes ++ i.nodes ++ [.expr (.index pid b i)] ++
        rhs.nodes ++ [.stmt (.iassign id pid b i rhs)])) s t :=
      fun t ht => ht.mono (List.sublist_append_left ..).subperm
    have hb := evalE_stable (R := R) hc Now.stable b (fun _ h => hin (by simp [h]))
      (hok.sub fun _ h => by simp [h])
    have hi := evalE_stable (R := R) hc Now.stable i (fun _ h => hin (by simp [h]))
      (hok.sub fun _ h => by simp [h])
    have hrhs := fun H => evalE_stable (R := R) hc (Now.stable.grown H) rhs
      (fun _ h => hin (by simp [h]))
      fun nd hnd a ha => (hok nd (by simp [hnd]) a ha).mono fun _ h => h.1
    simp only [runS]
    rcases hok (.stmt (.iassign id pid b i rhs)) (by simp) _ rfl with hany | hpure
    · refine Holds.bind hb fun vb => Holds.bind hi fun vi => Holds.of_pre fun t ht => ?_
      refine Holds.bind ((hrhs t.heap).pre fun u hu => ?_) fun _ => ?_
      · rw [hu]
        exact ⟨ht, Heap.Ext.refl _⟩
      · exact Holds.bind (Holds.emit (fun t _ => hany vb vi t.heap) fun _ h => h.1) fun _ =>
          Holds.ret fun _ h _ => hgrow _ h
    · -- the sequence and the index are read before the right side, which resizes nothing
      refine Holds.of_pre fun t ht => ?_
      obtain ⟨vb, vi, hvb, hvi, hevent⟩ := hpure t ht
      refine Holds.bind (evalE_pure hvb) fun vb' => Holds.of_pre fun u hu => ?_
      obtain ⟨rfl, rfl⟩ := hu
      refine Holds.bind (evalE_pure hvi) fun vi' => Holds.of_pre fun u' hu => ?_
      obtain ⟨rfl, rfl⟩ := hu
      refine Holds.bind ((hrhs u'.heap).pre fun w hw => ?_) fun _ => ?_
      · rw [hw]
        exact ⟨ht, Heap.Ext.refl _⟩
      · exact Holds.bind (Holds.emit (fun w hw => hevent w.heap hw.2) fun _ h => h.1) fun _ =>
          Holds.ret fun _ h _ => hgrow _ h
  | .cond id e thn els =>
    simp only [Stmt.nodes] at hsub hcov hin hok ⊢
    have he := evalE_stable (R := R) hc Now.stable e (fun _ h => hin (by simp [h]))
      (hok.sub fun _ h => by simp [h])
    have hthn := runB_now hc thn D (subperm_part hsub (by simp)) (hcov.sub (by simp))
    have hels := runB_now hc els D (subperm_part hsub (els_sublist ..))
      (hcov.sub (els_sublist ..))
    simp only [runS]
    refine Holds.bind he fun v => ?_
    have hthn' := hthn.post fun o t h (ho : o = .norm) =>
      (h ho).mono ((List.Sublist.refl D).append (thn_sublist e.nodes _ (blockNodes els)
        (.stmt (.cond id e thn els)))).subperm
    have hels' := hels.post fun o t h (ho : o = .norm) =>
      (h ho).mono ((List.Sublist.refl D).append (els_sublist e.nodes (blockNodes thn) _
        (.stmt (.cond id e thn els)))).subperm
    split
    · exact hthn'
    · exact hels'
    · exact Holds.choice hthn' hels'
  | .loop id e body => exact absurd (hin (Stmt.mem_nodes_self _)) hc.loop
  | .brk id => exact Holds.ret fun _ _ h => by simp at h
  | .ret id args =>
    simp only [Stmt.nodes] at hin hok ⊢
    have hargs := evalSome_stable (R := R) hc Now.stable args (fun _ h => hin (by simp [h]))
      (hok.sub fun _ h => by simp [h])
    simp only [runS]
    exact Holds.bind hargs fun _ => Holds.ret fun _ _ h => by simp at h
  | .other id args =>
    simp only [Stmt.nodes] at hin hok ⊢
    have hargs := evalSome_stable (R := R) hc Now.stable args (fun _ h => hin (by simp [h]))
      (hok.sub fun _ h => by simp [h])
    simp only [runS]
    exact Holds.bind hargs fun _ => Holds.ret fun t ht _ =>
      ht.mono (List.sublist_append_left ..).subperm
theorem runB_now (hc : c.Clean) (ss : List Stmt) (D : List Node)
    (hsub : (D ++ blockNodes ss).Subperm c.ns) (hcov : Covered ok c T s D (blockNodes ss)) :
    Holds ok (Now c T D s) (runB c.prog R ss) fun o t =>
      o = .norm → Now c T (D ++ blockNodes ss) s t := by
  match ss with
  | [] => exact Holds.ret fun t ht _ => by simpa [blockNodes] using ht
  | st :: rest =>
    simp only [blockNodes] at hsub hcov ⊢
    have hst := runS_now hc st D (subperm_part hsub (by simp)) (hcov.sub (by simp))
    have hrest := runB_now hc rest (D ++ st.nodes) (by simpa using hsub) hcov.after
    simp only [runB]
    refine Holds.bind hst fun o => ?_
    split
    · next ho =>
      rw [List.append_assoc] at hrest
      exact hrest.pre fun t ht => ht ho
    · next ho => exact Holds.ret fun t _ h => absurd h ho
end

/-! ## The top of the body -/

/-- A statement at the top of the body, with its local recorded. -/
theorem runTop_now (hc : c.Clean) (st : Stmt) (hpre : T ++ [st] <+: c.stmts)
    (hsub : (blockNodes T ++ st.nodes).Subperm c.ns)
    (hcov : Covered ok c T s (blockNodes T) st.nodes) :
    Holds ok (Now c T (blockNodes T) s) (runS c.prog R st) fun o t =>
      o = .norm → Now c (T ++ [st]) (blockNodes (T ++ [st])) s t := by
  have hnodes : blockNodes (T ++ [st]) = blockNodes T ++ st.nodes := by
    simp [blockNodes_append, blockNodes]
  rw [hnodes]
  -- what is left to show is the local, if the statement declares one
  have hrec : ∀ t, Now c T (blockNodes T ++ st.nodes) s t →
      (∀ id ty ex q rhs, st = .decl id ty ex q rhs → ¬c.touched q → lpCnt c.ns q = 1 →
        Local c s t st ty q rhs) →
      Now c (T ++ [st]) (blockNodes T ++ st.nodes) s t := fun t ht hl =>
    { ht.toMid with
      locs := fun id ty ex q rhs hT hq hcnt => by
        rcases List.mem_append.mp hT with hT | hT
        · exact ht.locs id ty ex q rhs hT hq hcnt
        · obtain rfl := (List.mem_singleton.mp hT)
          exact hl id ty ex q rhs rfl hq hcnt
      done := by rw [hnodes]; exact fun _ h => h }
  cases st with
  | decl id ty ex x rhs =>
    refine Holds.of_pre fun t₀ ht₀ => ?_
    have hin : rhs.nodes ⊆ c.ns := fun _ h => hsub.subset (by simp [Stmt.nodes, h])
    have hD : (blockNodes T).Subperm c.ns := (List.sublist_append_left ..).subperm.trans hsub
    have hrhs : Holds ok (· = t₀) (evalE c.prog R rhs) fun v t =>
        Now c T (blockNodes T) s t ∧ ∀ w, pureVal t₀ rhs = some w → v = w := by
      cases hp : pureVal t₀ rhs with
      | none =>
        refine (evalE_stable hc Now.stable rhs hin ((hcov.okNodes hD).sub fun _ h => by
          simp [Stmt.nodes, h])).mono (fun t ht => ht ▸ ht₀) fun v t ht => ⟨ht, by simp⟩
      | some w =>
        refine (evalE_pure hp).post fun v t ht => ⟨ht.1 ▸ ht₀, fun w' hw' => ?_⟩
        rw [ht.2, Option.some.inj hw']
    simp only [runS, Stmt.nodes]
    refine Holds.bind hrhs fun v => Holds.rel fun t u o ht hu ho => ?_
    obtain ⟨rfl, -⟩ := hu
    have hnow : Now c T (blockNodes T ++ [.stmt (.decl id ty ex x rhs)]) s _ :=
      ht.1.write (v := v.coerceTo ty) rfl (subperm_part hsub (last_sublist ..))
        fun h => by simp [lpIsinc] at h
    refine hrec _ (hnow.mono ((List.Sublist.refl _).append (last_sublist ..)).subperm) ?_
    rintro id' ty' ex' q rhs' heq - -
    simp only [Stmt.decl.injEq] at heq
    obtain ⟨-, rfl, -, rfl, rfl⟩ := heq
    refine ⟨T, t₀, hpre, ht₀.toMid, fun w hw => ?_⟩
    simp [ht.2 w hw]
  | assign | iassign | cond | loop | brk | ret | other =>
    exact (runS_now hc _ _ hsub hcov).post fun o t h ho =>
      hrec t (h ho) fun id ty ex q rhs heq => by simp at heq

/-- The statements of a round, one after the other. -/
theorem runBody_now (hc : c.Clean) (ss : List Stmt) (T : List Stmt) (hpre : T ++ ss = c.stmts)
    (hsub : (blockNodes c.stmts).Subperm c.ns)
    (hcov : ∀ T st rest, T ++ st :: rest = c.stmts → Covered ok c T s (blockNodes T) st.nodes) :
    Holds ok (Now c T (blockNodes T) s) (runB c.prog R ss) fun o t =>
      o = .norm → Now c c.stmts (blockNodes c.stmts) s t := by
  induction ss generalizing T with
  | nil =>
    rw [List.append_nil] at hpre
    exact Holds.ret fun t ht _ => hpre ▸ ht
  | cons st rest ih =>
    have hpre' : (T ++ [st]) ++ rest = c.stmts := by simpa using hpre
    have hpart : (blockNodes T ++ st.nodes).Subperm c.ns := by
      refine List.Sublist.subperm ?_ |>.trans hsub
      rw [← hpre]
      simp [blockNodes_append, blockNodes]
    simp only [runB]
    refine Holds.bind (runTop_now hc st ⟨rest, hpre'⟩ hpart (hcov T st rest hpre))
      fun o => ?_
    split
    · next ho => exact (ih (T ++ [st]) hpre').pre fun t ht => ht ho
    · next ho => exact Holds.ret fun t _ h => absurd h ho

end IdCompiler.Fast

import IdCompiler.Fast.Collect
import IdCompiler.Fast.Rounds
import IdCompiler.Fast.Sample

/-!
# An access in its place

Where an access of the loop stands: what has run before it in a round, which by
the numbers is what is numbered below it unless it is part of a `for`'s step,
and which names a call of the loop can change.
-/

namespace IdCompiler.Fast

open IdCompiler.Core Behave

variable {p : Prog} {c : Ctx}

/-! ## Names -/

/-- The nodes a node is made of, and itself. -/
def Node.parts : Node → List Node
  | .expr e => e.nodes
  | .stmt s => s.nodes

/-- A name the loop uses without an import. -/
def Loop.plain (w : Loop) (x : String) : Prop :=
  (∃ id, Node.expr (.var id x) ∈ w.cond.nodes) ∨
    ∃ nd ∈ w.nodes, ∃ id, Node.expr (.var id x) ∈ nd.parts

/-- A loop in its function, as the checks leave the program: names of functions, builtins and
constructors differ, a name one function exports is no other's variable (`reg_report3`), and
strings are not indexed (`chk_index`, `chk_iassign`). -/
structure Placed (p : Prog) (w : Loop) : Prop where
  named : p.Named
  inside : ∃ f, p.fn p.self = some f ∧ w.nodes ⊆ f.nodes
  plain : ∀ x, w.plain x → ∀ g, g ≠ p.self → ¬p.exportsOf g x
  indexed : ∀ nd ∈ w.nodes, ∀ a, nd.access = some a → a.text = false → ∀ id x,
    a.base = .var id x → p.ty x ≠ .string

/-- Alone in its program, a loop is in its place. -/
theorem sampleProg_placed (w : Loop) {ty : String → Ty} (hty : ∀ x, ty x ≠ .string) :
    Placed (sampleProg w ty) w where
  named :=
    { builtin := fun f hf => by
        have hne : f ≠ "main" := by
          rintro rfl
          revert hf
          decide
        simp [sampleProg, hne]
      struct := fun f hf => by simp [sampleProg] at hf }
  inside := ⟨⟨w.nodes, w.id, false, true⟩, by simp [sampleProg], fun _ h => h⟩
  plain := fun x _ g hg => by
    rintro ⟨fn, hfn, -⟩
    have hg : g ≠ "main" := hg
    simp [sampleProg, hg] at hfn
  indexed _ _ _ _ _ _ x _ := hty x

/-- An admitted loop makes no call to its own function, which would be no leaf. -/
theorem Placed.not_self {w : Loop} (h : Placed p w) (ha : Admitted p w) {id : Nat}
    {args : Args} : Node.expr (.call id p.self args) ∉ w.nodes := by
  intro hmem
  obtain ⟨f, hf, hsub⟩ := h.inside
  have hcls : lpCls p p.self = false := by
    have := List.all_eq_true.mp ha.clean _ hmem
    simpa [lpClear] using this
  simp only [lpCls, hf] at hcls
  have hknown := (lpUnleaf_eq_false hcls).2.2 _ _ _ (hsub hmem)
  rcases (lpKnown_eq_false hknown).2 with hb | hs
  · simp [h.named.builtin _ hb] at hf
  · simp [h.named.struct _ hs] at hf

/-- No call of the loop changes a name it uses. -/
theorem Placed.untouched {w : Loop} (h : Placed p w) (ha : Admitted p w) {x : String}
    (hx : w.plain x) : ¬(w.ctx p).touched x := by
  rintro ⟨id, f, args, hmem, hf⟩
  by_cases hself : f = p.self
  · subst hself
    exact h.not_self ha hmem
  · exact h.plain x hx f hself hf

/-- Where no function of the program is called, no name is changed by a call. -/
theorem untouched_of_lpUany {w : Loop} (h : lpUany p w.nodes = false) (x : String) :
    ¬(w.ctx p).touched x := by
  rintro ⟨id, f, args, hmem, fn, hf, -⟩
  have hf : p.fn f = some fn := hf
  have := List.any_eq_false.mp h _ hmem
  simp [lpCallbad, hf] at this

theorem Args.nodes_two {args : Args} {a b : Expr} (h : args.two = some (a, b)) :
    a.nodes ⊆ args.nodes ∧ b.nodes ⊆ args.nodes := by
  rw [Args.eq_of_two h]
  simp [Args.nodes]

/-- The sequence and the index of an access are parts of its node. -/
theorem Node.access_parts {nd : Node} {a : Access} (h : nd.access = some a) :
    a.base.nodes ⊆ nd.parts ∧ a.ix.nodes ⊆ nd.parts := by
  unfold Node.access at h
  split at h
  · obtain rfl := Option.some.inj h
    exact ⟨fun _ h => by simp [Node.parts, Expr.nodes, h],
      fun _ h => by simp [Node.parts, Expr.nodes, h]⟩
  · obtain rfl := Option.some.inj h
    exact ⟨fun _ h => by simp [Node.parts, Stmt.nodes, h],
      fun _ h => by simp [Node.parts, Stmt.nodes, h]⟩
  · obtain ⟨⟨b, i⟩, htwo, rfl⟩ := Option.map_eq_some_iff.mp h
    have := Args.nodes_two htwo
    exact ⟨fun _ h => by simp [Node.parts, Expr.nodes, this.1 h],
      fun _ h => by simp [Node.parts, Expr.nodes, this.2 h]⟩
  · simp at h

/-- The counters and the limits of a condition are parts of it. -/
theorem lpCond_parts (e : Expr) : ∀ b ∈ (lpCond e).1,
    (∃ id, Node.expr (.var id b.1) ∈ e.nodes) ∧ b.2.nodes ⊆ e.nodes ∧ lpLimit b.2 = true := by
  fun_induction lpCond e with
  | case1 id l r a b ihl ihr =>
    intro x hx
    rcases List.mem_append.mp hx with hx | hx
    · obtain ⟨⟨vid, hv⟩, hn, hl⟩ := ihl x hx
      exact ⟨⟨vid, by simp [Expr.nodes, hv]⟩, fun _ h => by simp [Expr.nodes, hn h], hl⟩
    · obtain ⟨⟨vid, hv⟩, hn, hl⟩ := ihr x hx
      exact ⟨⟨vid, by simp [Expr.nodes, hv]⟩, fun _ h => by simp [Expr.nodes, hn h], hl⟩
  | case2 id vid j r hlim =>
    intro x hx
    obtain rfl := List.mem_singleton.mp hx
    exact ⟨⟨vid, by simp [Expr.nodes]⟩, fun _ h => by simp [Expr.nodes, h], hlim⟩
  | case3 => simp
  | case4 => simp

theorem lpLname_nodes {lim : Expr} {x : String} (h : lpLname lim = some x) :
    ∃ id, Node.expr (.var id x) ∈ lim.nodes := by
  unfold lpLname at h
  split at h
  · next id y =>
    obtain rfl := Option.some.inj h
    exact ⟨id, by simp [Expr.nodes]⟩
  · split at h
    · next id y harg =>
      obtain rfl := Option.some.inj h
      obtain ⟨cid, vid, z, rfl, hz⟩ := lpLenarg_eq_some harg
      simp only [Expr.var.injEq] at hz
      obtain ⟨rfl, rfl⟩ := hz
      exact ⟨id, by simp [Expr.nodes, Args.nodes]⟩
    · simp at h

/-- A limit of the condition that is not written is fixed. -/
theorem Placed.fixed {w : Loop} (h : Placed p w) (ha : Admitted p w) {b : String × Expr}
    (hb : b ∈ (w.ctx p).bounds) (hlim : lpLim w.nodes b.2 = true) : Fixed (w.ctx p) b.2 := by
  refine ⟨hlim, fun x hx => h.untouched ha (.inl ?_)⟩
  obtain ⟨id, hid⟩ := lpLname_nodes hx
  exact ⟨id, (lpCond_parts w.cond b hb).2.1 hid⟩

theorem Placed.counter {w : Loop} (h : Placed p w) (ha : Admitted p w) {b : String × Expr}
    (hb : b ∈ (w.ctx p).bounds) : ¬(w.ctx p).touched b.1 :=
  h.untouched ha (.inl (lpCond_parts w.cond b hb).1)

/-! ## The order of the numbers -/

theorem Loop.blockNodes_subperm (w : Loop) : (blockNodes w.stmts).Subperm w.nodes := by
  rw [Loop.stmts, Loop.nodes, blockNodes_append]
  exact List.perm_append_comm.subperm

/-- There is one step at most. -/
theorem Loop.stepStmts_eq {w : Loop} {st : Stmt} {rest : List Stmt}
    (h : st :: rest = w.stepStmts) : rest = [] := by
  unfold Loop.stepStmts at h
  cases hstep : w.step with
  | none => simp [hstep] at h
  | some s => simp [hstep] at h; exact h.2

/-- A statement of a round is one of the body, after those above it, or the step. -/
theorem Loop.stmts_split {w : Loop} {T : List Stmt} {st : Stmt} {rest : List Stmt}
    (h : T ++ st :: rest = w.stmts) :
    (∃ rest', w.body = T ++ st :: rest') ∨ (T = w.body ∧ w.stepStmts = [st]) := by
  rw [Loop.stmts] at h
  rcases List.append_eq_append_iff.mp h with ⟨as, hbody, hst⟩ | ⟨bs, hT, hst⟩
  · cases as with
    | nil =>
      rw [List.nil_append] at hst
      obtain rfl := Loop.stepStmts_eq hst
      exact .inr ⟨by simpa using hbody.symm, hst.symm⟩
    | cons a as =>
      simp only [List.cons_append, List.cons.injEq] at hst
      exact .inl ⟨as, by rw [hbody, hst.1]⟩
  · cases bs with
    | nil =>
      rw [List.nil_append] at hst
      obtain rfl := Loop.stepStmts_eq hst.symm
      exact .inr ⟨by simpa using hT, hst⟩
    | cons b bs =>
      rw [List.cons_append] at hst
      have := Loop.stepStmts_eq hst.symm
      simp at this

theorem NumberedLoop.body_numbered (w : NumberedLoop) :
    ((blockNodes w.body).map Node.id).Pairwise (· < ·) :=
  w.numbered.sublist ((List.sublist_append_right ..).map _)

theorem NumberedLoop.step_numbered (w : NumberedLoop) :
    ((blockNodes w.stepStmts).map Node.id).Pairwise (· < ·) :=
  w.numbered.sublist ((List.sublist_append_left ..).map _)

/-- Of two nodes in order, the first has the smaller number. -/
theorem numbered_lt {ns : List Node} (h : (ns.map Node.id).Pairwise (· < ·)) {v nd : Node}
    (hsub : [v, nd].Sublist ns) : v.id < nd.id := by
  have := h.sublist (hsub.map Node.id)
  simpa using this

/-- Nodes in one loop with one number are one. -/
theorem numbered_inj {ns : List Node} (h : (ns.map Node.id).Pairwise (· < ·)) {v nd : Node}
    (hv : v ∈ ns) (hnd : nd ∈ ns) (hid : v.id = nd.id) : v = nd := by
  have hinj := List.inj_on_of_nodup_map (h.imp fun h => Nat.ne_of_lt h)
  exact hinj hv hnd hid

/-- An access's number is its node's. -/
theorem Node.access_id {nd : Node} {a : Access} (h : nd.access = some a) : a.id = nd.id := by
  unfold Node.access at h
  split at h
  · obtain rfl := Option.some.inj h
    rfl
  · obtain rfl := Option.some.inj h
    rfl
  · obtain ⟨ab, -, rfl⟩ := Option.map_eq_some_iff.mp h
    rfl
  · simp at h

/-- Accesses of one loop with one number are one, and their nodes are. -/
theorem NumberedLoop.access_inj (w : NumberedLoop) {v nd : Node} {a b : Access} (hv : v ∈ w.nodes)
    (hnd : nd ∈ w.nodes) (hb : v.access = some b) (ha : nd.access = some a) (hid : b.id = a.id) :
    v = nd ∧ b = a := by
  have hnode : v = nd := numbered_inj w.numbered hv hnd (by rw [← Node.access_id hb, hid, Node.access_id ha])
  subst hnode
  exact ⟨rfl, Option.some.inj (hb.symm.trans ha)⟩

/-- The first write to a name is numbered at most as any other. -/
theorem lpFirst_le {ns : List Node} (h : (ns.map Node.id).Pairwise (· < ·)) {v : Node}
    {x : String} (hv : v ∈ ns) (hw : lpWname v = some x) :
    ∃ f, lpFirst ns x = some f ∧ f.id ≤ v.id := by
  induction ns with
  | nil => simp at hv
  | cons nd ns ih =>
    rw [List.map_cons, List.pairwise_cons] at h
    unfold lpFirst
    by_cases hnd : lpWname nd = some x
    · refine ⟨nd, by simp [hnd], ?_⟩
      rcases List.mem_cons.mp hv with rfl | hv
      · exact Nat.le_refl _
      · exact Nat.le_of_lt (h.1 _ (List.mem_map_of_mem hv))
    · rcases List.mem_cons.mp hv with rfl | hv
      · exact absurd hw hnd
      · obtain ⟨f, hf, hle⟩ := ih h.2 hv
        exact ⟨f, by simpa [lpFirst, hnd] using hf, hle⟩

theorem lpCnt_eq_zero {ns : List Node} {x : String} (h : ∀ v ∈ ns, lpWname v ≠ some x) :
    lpCnt ns x = 0 := by
  unfold lpCnt
  rw [List.countP_eq_zero]
  intro v hv
  simpa using h v hv

/-- The access is part of a `for`'s step, which runs last but is numbered first. -/
def Loop.inStep (w : Loop) (id : Nat) : Prop := ∃ nd ∈ blockNodes w.stepStmts, nd.id = id

/-- What may have run in a round before the node `nd` of the statement `st`. -/
structure Before (w : Loop) (T : List Stmt) (st : Stmt) (nd : Node) (D : List Node) : Prop where
  split : ∃ rest, T ++ st :: rest = w.stmts
  mem : nd ∈ st.nodes
  sub : D.Subperm w.nodes
  before : ∀ v ∈ D, v ∈ blockNodes T ∨ [v, nd].Sublist st.nodes

/-- What has run before an access is numbered below it, or is the body run before the step. -/
theorem Before.lt {w : NumberedLoop} {T : List Stmt} {st : Stmt} {nd : Node} {D : List Node}
    (h : Before w.toLoop T st nd D) {v : Node} (hv : v ∈ D) :
    v.id < nd.id ∨ (w.inStep nd.id ∧ v ∈ blockNodes w.body) := by
  obtain ⟨rest, hrest⟩ := h.split
  rcases Loop.stmts_split hrest with ⟨rest', hbody⟩ | ⟨rfl, hstep⟩
  · left
    have hnum := w.body_numbered
    rw [hbody, blockNodes_append] at hnum
    simp only [blockNodes] at hnum
    rcases h.before v hv with hv | hv
    · exact numbered_lt hnum ((List.singleton_sublist.mpr hv).append
        ((List.singleton_sublist.mpr h.mem).trans (List.sublist_append_left ..)))
    · exact numbered_lt hnum (hv.trans ((List.sublist_append_left ..).trans
        (List.sublist_append_right ..)))
  · have hnodes : blockNodes w.stepStmts = st.nodes := by simp [hstep, blockNodes]
    rcases h.before v hv with hv | hv
    · exact .inr ⟨⟨nd, hnodes ▸ h.mem, rfl⟩, hv⟩
    · exact .inl (numbered_lt (hnodes ▸ w.step_numbered) hv)

/-- Before an access numbered below the first write of a name, the name has not been written. -/
theorem Before.unwritten {w : NumberedLoop} {T : List Stmt} {st : Stmt} {nd : Node}
    {D : List Node} (h : Before w.toLoop T st nd D) {x : String}
    (hfirst : beforeFirst w.nodes nd.id x = true)
    (hstep : w.inStep nd.id → lpCnt (blockNodes w.body) x = 0) : lpCnt D x = 0 := by
  refine lpCnt_eq_zero fun v hv hw => ?_
  have hmem : v ∈ w.nodes := h.sub.subset hv
  rcases h.lt hv with hlt | ⟨hin, hbody⟩
  · obtain ⟨f, hf, hle⟩ := lpFirst_le w.numbered hmem hw
    simp only [beforeFirst, hf, decide_eq_true_eq] at hfirst
    omega
  · have := lpCnt_pos hbody hw
    have := hstep hin
    omega

/-- A local declared above an access is declared at the top of the body before it. -/
theorem Before.decl_mem {w : NumberedLoop} {T : List Stmt} {st : Stmt} {nd : Node}
    {D : List Node} (h : Before w.toLoop T st nd D) {id : Nat} {ty : Ty} {ex : Bool} {q : String}
    {rhs : Expr} (hd : Stmt.decl id ty ex q rhs ∈ w.stmts) (hlt : id < nd.id) :
    Stmt.decl id ty ex q rhs ∈ T := by
  obtain ⟨rest, hrest⟩ := h.split
  have hbody : Stmt.decl id ty ex q rhs ∈ w.body := by
    rcases List.mem_append.mp hd with hd | hd
    · exact hd
    · unfold Loop.stepStmts at hd
      cases hstep : w.step with
      | none => simp [hstep] at hd
      | some s => simp [hstep, Step.stmt] at hd
  rcases Loop.stmts_split hrest with ⟨rest', hsplit⟩ | ⟨rfl, -⟩
  swap
  · exact hbody
  have hnum := w.body_numbered
  rw [hsplit, blockNodes_append] at hnum
  simp only [blockNodes] at hnum
  rw [hsplit] at hbody
  rcases List.mem_append.mp hbody with hd | hd
  · exact hd
  · exfalso
    rcases List.mem_cons.mp hd with heq | hd
    · -- an access inside the declaration is numbered below it
      have hmem := h.mem
      rw [← heq] at hmem hnum
      simp only [Stmt.nodes, List.mem_append, List.mem_singleton] at hmem
      rcases hmem with hmem | rfl
      · have : [nd, .stmt (.decl id ty ex q rhs)].Sublist
            (rhs.nodes ++ [.stmt (.decl id ty ex q rhs)]) :=
          (List.singleton_sublist.mpr hmem).append (List.Sublist.refl _)
        have := numbered_lt hnum ((this.trans (List.sublist_append_left ..)).trans
          (List.sublist_append_right ..))
        simp only [Node.id, Stmt.id] at this hlt
        omega
      · simp only [Node.id, Stmt.id] at hlt
        omega
    · have hlater := Stmt.nodes_sub_block hd (Stmt.mem_nodes_self _)
      have := numbered_lt hnum (((List.singleton_sublist.mpr h.mem).append
        (List.singleton_sublist.mpr hlater)).trans (List.sublist_append_right ..))
      simp only [Node.id, Stmt.id] at this hlt
      omega

/-- What stands above a declaration of the body is numbered below it. -/
theorem NumberedLoop.above_decl (w : NumberedLoop) {T : List Stmt} {id : Nat} {ty : Ty}
    {ex : Bool} {q : String} {rhs : Expr}
    (h : T ++ [.decl id ty ex q rhs] <+: w.stmts) : ∀ v ∈ blockNodes T, v.id < id := by
  intro v hv
  obtain ⟨rest, hrest⟩ := h
  have hrest' : T ++ .decl id ty ex q rhs :: rest = w.stmts := by simpa using hrest
  rcases Loop.stmts_split hrest' with ⟨rest', hbody⟩ | ⟨-, hstep⟩
  · have hnum := w.body_numbered
    rw [hbody, blockNodes_append] at hnum
    simp only [blockNodes] at hnum
    have hself : [Node.stmt (.decl id ty ex q rhs)].Sublist (Stmt.decl id ty ex q rhs).nodes :=
      List.singleton_sublist.mpr (Stmt.mem_nodes_self _)
    exact numbered_lt hnum ((List.singleton_sublist.mpr hv).append
      (hself.trans (List.sublist_append_left ..)))
  · unfold Loop.stepStmts at hstep
    cases hs : w.step with
    | none => simp [hs] at hstep
    | some s => simp [hs, Step.stmt] at hstep

/-- An admitted loop is clean. -/
theorem Placed.clean {w : Loop} (h : Placed p w) (ha : Admitted p w) : (w.ctx p).Clean where
  named := h.named
  clean := ha.clean

/-- Accesses acceptable wherever they stand in a round are acceptable in every run. -/
theorem runLoop_inPlace {R : Runtime} {ok : Event → Prop} {s₀ : State} {w : NumberedLoop}
    (hp : Placed p w.toLoop) (ha : Admitted p w.toLoop)
    (hok : ∀ s, Head (w.ctx p) s₀ s → Below (w.ctx p).bounds s →
      ∀ T st nd D, Before w.toLoop T st nd D → ∀ a, nd.access = some a →
        OkAt ok (Now (w.ctx p) T D s) a) :
    Holds ok (· = s₀) (runLoop p R w.toLoop) fun _ _ => True := by
  refine runLoop_holds (c := w.ctx p) w.toLoop (hp.clean ha) ha.cond rfl rfl w.blockNodes_subperm ?_
  intro s hhead hbelow T st rest hrest nd hnd a hacc D hD hbefore
  exact hok s hhead hbelow T st nd D ⟨⟨rest, hrest⟩, hnd, hD, hbefore⟩ a hacc

/-- The node of a statement of a round is a node of the loop. -/
theorem Before.mem_nodes {w : Loop} {T : List Stmt} {st : Stmt} {nd : Node} {D : List Node}
    (h : Before w T st nd D) : nd ∈ w.nodes := by
  obtain ⟨rest, hrest⟩ := h.split
  refine w.blockNodes_subperm.subset (Stmt.nodes_sub_block ?_ h.mem)
  rw [← hrest]
  simp

end IdCompiler.Fast

import IdCompiler.Fast.Plan

/-!
# What the plan collects

Clauses are only ever added, so those an access asked for are in the guard the
loop ends up with, and what is in the set was put there for an access of the
loop.
-/

namespace IdCompiler.Fast

variable {c : Ctx} {g g' : Guard}

/-- Every clause of the one is a clause of the other. -/
def Guard.Sub (g g' : Guard) : Prop := g.lpcond ⊆ g'.lpcond

theorem Guard.Sub.refl (g : Guard) : g.Sub g := fun _ => id

theorem Guard.Sub.trans {g'' : Guard} (h : g.Sub g') (h' : g'.Sub g'') : g.Sub g'' :=
  fun _ hk => h' (h hk)

theorem lpAdd_sub (tk : List Tok) (g : Guard) : g.Sub (lpAdd tk g) := by
  unfold lpAdd
  split
  · exact Guard.Sub.refl g
  · exact fun _ hk => List.mem_append_left _ hk

theorem lpAdd_mem (tk : List Tok) (g : Guard) : tk ∈ (lpAdd tk g).lpcond := by
  unfold lpAdd
  split
  · assumption
  · simp

theorem lpRel_sub (e : Expr) (rhs : Tok) (op : CmpOp) (g : Guard) : g.Sub (lpRel e rhs op g) :=
  lpAdd_sub _ g

theorem lpRel_mem (e : Expr) (rhs : Tok) (op : CmpOp) (g : Guard) :
    [lpLeaf e, rhs, .cmp op] ∈ (lpRel e rhs op g).lpcond :=
  lpAdd_mem _ g

theorem lpNul_sub (e : Expr) (g : Guard) : g.Sub (lpNul e g) := by
  unfold lpNul
  split
  · exact lpRel_sub ..
  · exact Guard.Sub.refl g

theorem lpCapok_sub (e : Expr) (g : Guard) : g.Sub (lpCapok e g) :=
  lpAdd_sub _ g

/-- A store asks for one clause more. -/
theorem store_sub (a : Access) (g : Guard) : g.Sub (if a.store then lpCapok a.base g else g) := by
  split
  · exact lpCapok_sub ..
  · exact Guard.Sub.refl g

theorem lxHcl_sub (k : Kind) (e : Expr) (g : Guard) : g.Sub (lxHcl k e g) := by
  cases k with
  | inv | ctr | sec => exact lpRel_sub ..
  | none | lit | loc => exact Guard.Sub.refl g

theorem lxHctr_sub (e : Expr) (g : Guard) : g.Sub (lxHctr c e g).2 := by
  unfold lxHctr
  split
  · split
    · exact lpNul_sub ..
    · exact Guard.Sub.refl g
  · exact Guard.Sub.refl g

theorem lxHlim_sub (bounds : List (String × Expr)) (g : Guard) : g.Sub (lxHlim c bounds g).2 := by
  induction bounds generalizing g with
  | nil => exact Guard.Sub.refl g
  | cons b rest ih => exact (lpNul_sub b.2 g).trans (ih _)

theorem lxHsec_sub (e : Expr) (g : Guard) : g.Sub (lxHsec c e g).2 :=
  lxHlim_sub c.bounds g

theorem lxHiBy_sub {leaf : Expr → Guard → List Tok × Guard} (h : ∀ e (g : Guard), g.Sub (leaf e g).2)
    (e : Expr) (g : Guard) : g.Sub (lxHiBy leaf e g).2 := by
  fun_induction lxHiBy leaf e g with
  | case1 =>
    rename_i ihl ihr
    exact Guard.Sub.trans ihl ihr
  | case2 e g => exact h e g

theorem lxHleafDef_sub (id : Nat) (e : Expr) (g : Guard) : g.Sub (lxHleafDef c id e g).2 := by
  have hcl := lxHcl_sub (lxKind c id 1 e) e g
  cases hk : lxKind c id 1 e with
  | ctr => simp only [lxHleafDef, hk] at hcl ⊢; exact hcl.trans (lxHctr_sub ..)
  | sec => simp only [lxHleafDef, hk] at hcl ⊢; exact hcl.trans (lxHsec_sub ..)
  | none | lit | inv | loc => simp only [lxHleafDef, hk] at hcl ⊢; exact hcl

theorem lxHleaf_sub (id : Nat) (e : Expr) (g : Guard) : g.Sub (lxHleaf c id e g).2 := by
  have hcl := lxHcl_sub (lxKind c id 0 e) e g
  cases hk : lxKind c id 0 e with
  | ctr => simp only [lxHleaf, hk] at hcl ⊢; exact hcl.trans (lxHctr_sub ..)
  | sec => simp only [lxHleaf, hk] at hcl ⊢; exact hcl.trans (lxHsec_sub ..)
  | loc =>
    simp only [lxHleaf, hk] at hcl ⊢
    split
    · exact hcl.trans (lxHiBy_sub (lxHleafDef_sub id) ..)
    · exact hcl
  | none | lit | inv => simp only [lxHleaf, hk] at hcl ⊢; exact hcl

theorem lxHi_sub (id : Nat) (e : Expr) (g : Guard) : g.Sub (lxHi c id e g).2 :=
  lxHiBy_sub (lxHleaf_sub id) e g

theorem lpTake_sub (a : Access) (j : String) (k : Int) (lim : Expr) (q : Planned) :
    q.guard.Sub (lpTake c a j k lim q).guard :=
  (lpRel_sub ..).trans <| (lpNul_sub ..).trans <| (lpAdd_sub ..).trans <| (lpRel_sub ..).trans
    (store_sub ..)

theorem lxTake_sub (a : Access) (q : Planned) : q.guard.Sub (lxTake c a q).guard :=
  (lpRel_sub ..).trans <| (lxHi_sub ..).trans <| (lpAdd_sub ..).trans (store_sub ..)

theorem lpAcc_cases (a : Access) (q : Planned) :
    (∃ j k lim, lpSimple c a = some (j, k, lim) ∧ lpAcc c a q = lpTake c a j k lim q) ∨
    (lpSimple c a = none ∧ a.text = false ∧ lxCover c a = true ∧ lpAcc c a q = lxTake c a q) ∨
    lpAcc c a q = q := by
  unfold lpAcc
  split
  · next j k lim h => exact .inl ⟨j, k, lim, h, rfl⟩
  · next h =>
    split
    · next hc =>
      simp only [Bool.and_eq_true, Bool.not_eq_true'] at hc
      exact .inr (.inl ⟨h, hc.1, hc.2, rfl⟩)
    · exact .inr (.inr rfl)

theorem lpNode_sub (nd : Node) (q : Planned) : q.guard.Sub (lpNode c nd q).guard := by
  unfold lpNode
  split
  · next a _ =>
    rcases lpAcc_cases (c := c) a q with ⟨j, k, lim, -, h⟩ | ⟨-, -, -, h⟩ | h
    · rw [h]; exact lpTake_sub ..
    · rw [h]; exact lxTake_sub ..
    · rw [h]; exact Guard.Sub.refl _
  · exact Guard.Sub.refl _

/-- The access was recorded, by one shape or the other, and its clauses are in the guard. -/
def Taken (c : Ctx) (a : Access) (g : Guard) : Prop :=
  (∃ j k lim q, lpSimple c a = some (j, k, lim) ∧ (lpTake c a j k lim q).guard.Sub g) ∨
  (lpSimple c a = none ∧ a.text = false ∧ lxCover c a = true ∧ ∃ q, (lxTake c a q).guard.Sub g)

theorem Taken.mono {a : Access} (h : Taken c a g) (hsub : g.Sub g') : Taken c a g' := by
  rcases h with ⟨j, k, lim, q, hs, hg⟩ | ⟨hs, ht, hc, q, hg⟩
  · exact .inl ⟨j, k, lim, q, hs, hg.trans hsub⟩
  · exact .inr ⟨hs, ht, hc, q, hg.trans hsub⟩

theorem lpNode_taken {nd : Node} {q : Planned} {id : Nat} (h : id ∈ (lpNode c nd q).lpset) :
    id ∈ q.lpset ∨ ∃ a, nd.access = some a ∧ a.id = id ∧ Taken c a (lpNode c nd q).guard := by
  unfold lpNode at h ⊢
  split at h
  swap
  · exact .inl h
  next a ha =>
  rcases lpAcc_cases (c := c) a q with ⟨j, k, lim, hs, heq⟩ | ⟨hs, htx, hcov, heq⟩ | heq
  · rw [heq] at h ⊢
    rcases List.mem_append.mp h with h | h
    · exact .inl h
    · exact .inr ⟨a, ha, (List.mem_singleton.mp h).symm, .inl ⟨j, k, lim, q, hs, Guard.Sub.refl _⟩⟩
  · rw [heq] at h ⊢
    rcases List.mem_append.mp h with h | h
    · exact .inl h
    · exact .inr ⟨a, ha, (List.mem_singleton.mp h).symm, .inr ⟨hs, htx, hcov, q, Guard.Sub.refl _⟩⟩
  · rw [heq] at h
    exact .inl h

theorem scan_taken (ns : List Node) (q : Planned) {id : Nat}
    (h : id ∈ (ns.foldl (fun q nd => lpNode c nd q) q).lpset) :
    q.guard.Sub (ns.foldl (fun q nd => lpNode c nd q) q).guard ∧
    (id ∈ q.lpset ∨ ∃ nd ∈ ns, ∃ a, nd.access = some a ∧ a.id = id ∧
      Taken c a (ns.foldl (fun q nd => lpNode c nd q) q).guard) := by
  induction ns generalizing q with
  | nil => exact ⟨Guard.Sub.refl _, .inl h⟩
  | cons nd ns ih =>
    obtain ⟨hsub, hmem⟩ := ih _ h
    refine ⟨(lpNode_sub nd q).trans hsub, ?_⟩
    rcases hmem with hmem | ⟨nd', hnd', a, ha, hid, ht⟩
    · rcases lpNode_taken hmem with hmem | ⟨a, ha, hid, ht⟩
      · exact .inl hmem
      · exact .inr ⟨nd, List.mem_cons_self, a, ha, hid, ht.mono hsub⟩
    · exact .inr ⟨nd', List.mem_cons_of_mem _ hnd', a, ha, hid, ht⟩

/-- What a loop must be to be planned at all. -/
structure Admitted (p : Prog) (w : Loop) : Prop where
  clean : lpClean p w.nodes = true
  twice : lpUany p w.nodes = false ∨ lpFnok p = true
  cond : (lpCond w.cond).2 = false

/-- What is in the plan's set is an access of the loop, recorded with its clauses. -/
theorem lpPlan_taken {p : Prog} {w : Loop} {id : Nat} (h : id ∈ (lpPlan p w).lpset) :
    Admitted p w ∧ ∃ nd ∈ w.nodes, ∃ a, nd.access = some a ∧ a.id = id ∧
      Taken (w.ctx p) a (lpPlan p w).guard := by
  unfold lpPlan at h ⊢
  split at h
  · next hadm =>
    simp only [Bool.and_eq_true, Bool.or_eq_true, Bool.not_eq_true'] at hadm
    rw [if_pos (by simp [hadm])]
    refine ⟨⟨hadm.1.1, hadm.1.2, hadm.2⟩, ?_⟩
    rcases (scan_taken (c := w.ctx p) w.nodes .empty h).2 with h | h
    · simp [Planned.empty] at h
    · exact h
  · simp [Planned.empty] at h

end IdCompiler.Fast

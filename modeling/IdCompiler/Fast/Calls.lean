import IdCompiler.Fast.Run

/-!
# Calls that cannot resize

A call the plan admits leaves every header as it is, and of the names it can
change only what the callee itself exports: a leaf's calls are all to builtins
or constructors that cannot.
-/

namespace IdCompiler.Fast

variable {p : Prog} {R : Runtime}

/-- Functions, builtins and constructors go by different names. -/
structure Prog.Named (p : Prog) : Prop where
  builtin : ∀ f ∈ bnames, p.fn f = none
  struct : ∀ f ∈ p.structs, p.fn f = none

/-- What a call may change of the state around it. -/
def Quiet (exports : String → Prop) (s t : State) : Prop :=
  s.heap.Ext t.heap ∧ ∀ x, ¬exports x → t.vals x = s.vals x

theorem Quiet.trans {ex : String → Prop} {s t u : State} (h : Quiet ex s t) (h' : Quiet ex t u) :
    Quiet ex s u :=
  ⟨h.1.trans h'.1, fun x hx => (h'.2 x hx).trans (h.2 x hx)⟩

theorem Quiet.mono {ex ex' : String → Prop} {s t : State} (h : Quiet ex s t)
    (hex : ∀ x, ex x → ex' x) : Quiet ex' s t :=
  ⟨h.1, fun x hx => h.2 x fun hc => hx (hex x hc)⟩

theorem lpKnown_eq_false {f : String} (h : lpKnown p f = false) :
    (f ≠ "push" ∧ f ≠ "pop" ∧ f ≠ "bytes_append") ∧ (f ∈ bnames ∨ f ∈ p.structs) := by
  simp only [lpKnown, Bool.not_eq_false', Bool.and_eq_true, decide_eq_true_eq,
    Bool.or_eq_true, ne_eq] at h
  exact ⟨⟨h.1.1.1, h.1.1.2, h.1.2⟩, h.2⟩

/-- A known call that is to no function changes no name. -/
theorem Effect.known {f : String} {s t : State} (hp : p.Named) (hk : lpKnown p f = false)
    (h : Effect p R f s t) : Quiet (fun _ => False) s t := by
  obtain ⟨⟨hpush, hpop, happ⟩, hmem⟩ := lpKnown_eq_false hk
  have hfn : p.fn f = none := hmem.elim (hp.builtin f) (hp.struct f)
  cases h with
  | builtin _ hb heff => exact ⟨R.keeps f _ _ hb hpush hpop happ heff, fun _ _ => rfl⟩
  | construct _ _ _ hext => exact ⟨hext, fun _ _ => rfl⟩
  | value _ hb hs => exact absurd hmem (by simp [hb, hs])
  | unseen hf | done hf | inner hf | exported hf | alloc hf => simp [hfn] at hf

/-- A leaf is a function that is here, with known calls only. -/
theorem lpUnleaf_eq_false {fn : Func} (h : lpUnleaf p fn = false) :
    fn.present = true ∧ fn.native = false ∧
      ∀ id g args, Node.expr (.call id g args) ∈ fn.nodes → lpKnown p g = false := by
  unfold lpUnleaf at h
  split at h
  · next hpn =>
    split at h
    · simp only [Bool.and_eq_true, Bool.not_eq_true'] at hpn
      refine ⟨hpn.1, hpn.2, fun id g args hg => ?_⟩
      have := List.any_eq_false.mp h _ hg
      simpa [lpCallbad] using this
    · simp at h
  · simp at h

/-- A leaf's call leaves the headers and every name it does not export. The induction is on what
its body does. -/
theorem Effect.leaf {f : String} {fn : Func} {s t : State} (hp : p.Named)
    (hf : p.fn f = some fn) (hl : lpUnleaf p fn = false) (h : Effect p R f s t) :
    Quiet fn.exports s t := by
  obtain ⟨hpres, hnat, hcalls⟩ := lpUnleaf_eq_false hl
  induction h with
  | builtin hn | construct hn | value hn => simp [hf] at hn
  | unseen hf' hun =>
    obtain rfl := Option.some.inj (hf.symm.trans hf')
    simp [hpres, hnat] at hun
  | done _ => exact ⟨Heap.Ext.refl _, fun _ _ => rfl⟩
  | inner hf' hg hstep _ _ ih =>
    obtain rfl := Option.some.inj (hf.symm.trans hf')
    have hq := hstep.known hp (hcalls _ _ _ hg)
    exact (hq.mono fun _ h => h.elim).trans (ih hf)
  | exported hf' hx _ ih =>
    obtain rfl := Option.some.inj (hf.symm.trans hf')
    have hq := ih hf
    refine ⟨hq.1, fun y hy => (hq.2 y hy).trans ?_⟩
    have hne : y ≠ _ := fun heq => hy (by rw [heq]; exact hx)
    exact Function.update_of_ne hne ..
  | alloc hf' hext _ ih =>
    have hq := ih hf
    exact ⟨hext.trans hq.1, hq.2⟩

/-- What a function of that name exports. -/
def Prog.exportsOf (p : Prog) (f x : String) : Prop := ∃ fn, p.fn f = some fn ∧ fn.exports x

/-- A call the plan admits resizes nothing and changes only what the callee exports. -/
theorem Effect.clean {f : String} {s t : State} (hp : p.Named) (hc : lpCls p f = false)
    (h : Effect p R f s t) : Quiet (p.exportsOf f) s t := by
  unfold lpCls at hc
  split at hc
  · next fn hf => exact (h.leaf hp hf hc).mono fun x hx => ⟨fn, hf, hx⟩
  · exact (h.known hp hc).mono fun _ h => h.elim

end IdCompiler.Fast

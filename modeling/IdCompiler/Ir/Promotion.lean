import IdCompiler.Ir.Promoted

/-!
# Runs with slots and runs with values

Where a run of the function with slots is, what a slot has there is the value
that stands for it in the function without. A block's phis take over what the
block before left, and within the block every store and load is matched by the
value it is about.
-/

namespace IdCompiler.Ir

open IdCompiler.Core

variable {P F : Rows} {root : Nat} {f a b c k p x : Nat} {v w : Int} {l rest : List Nat} {S : List Nat}
  {τ : Int → Int} {start : Nat → Int → Int} {phs : Nat → List Nat}

/-- The predecessor lists say which edges there are. -/
def Preds (P : Rows) (f : Nat) : Prop := ∀ b ∈ P.fnblk f, ∀ p, p ∈ P.bpred b ↔ Goes P f p b

/-! ## The function without slots -/

section

variable (hs : Shaped P f root) (hp : Promoted P F f root S τ start phs)
include hs hp

omit hs in
/-- An instruction of the function without slots is a phi, an access that is gone, or renamed. -/
theorem Promoted.cases (hb : b ∈ P.fnblk f) (hx : x ∈ F.binsn b) :
    x ∈ phs b ∨ x ∈ P.binsn b ∧ F.iop x = "nop" ∨
      x ∈ P.binsn b ∧ ¬(P.row x).OnSlot S ∧ F.row x = (P.row x).rename τ := by
  rw [hp.binsn b hb] at hx
  refine (List.mem_append.mp hx).imp_right fun hx => ?_
  have hin := mem_insns.mpr ⟨b, hb, hx⟩
  by_cases hslot : (P.row x).OnSlot S
  · exact .inl ⟨hx, hp.gone x hin hslot⟩
  · exact .inr ⟨hx, hslot, hp.row x hin hslot⟩

omit hs in
/-- The instructions that end blocks are the same. -/
theorem Promoted.ends (hx : x ∈ insns P f) : (F.row x).Ends ↔ (P.row x).Ends := by
  by_cases hslot : (P.row x).OnSlot S
  · have hnop : (F.row x).op = "nop" := hp.gone x hx hslot
    refine iff_of_false (not_ends hnop (by decide)) ?_
    rcases hslot.1 with hop | hop
    · exact not_ends hop (by decide)
    · exact not_ends hop (by decide)
  · rw [hp.row x hx hslot]
    exact Iff.rfl

theorem Promoted.targets (hb : b ∈ P.fnblk f) : targets F b = targets P b := by
  obtain ⟨l, t, hlt, ht, -⟩ := hs.ends b hb
  have hin : t ∈ insns P f := mem_insns.mpr ⟨b, hb, hlt ▸ List.mem_append_right l (List.mem_singleton_self t)⟩
  have hslot : ¬(P.row t).OnSlot S := by
    rintro ⟨hop | hop, -⟩
    · exact not_ends hop (by decide) ht
    · exact not_ends hop (by decide) ht
  have hblk : F.iblk t = P.iblk t := congrArg Row.blk (hp.row t hin hslot)
  unfold Ir.targets
  rw [hp.binsn b hb, hlt, ← List.append_assoc, List.getLast?_concat, List.getLast?_concat]
  exact hblk

theorem Promoted.goes : Goes F f p b ↔ Goes P f p b := by
  unfold Goes
  rw [hp.fnblk]
  exact and_congr_right fun hin => by rw [hp.targets hs hin]

/-- What an instruction that is left names is computed before it. -/
theorem Promoted.operands (hb : b ∈ P.fnblk f) (hx : P.binsn b = l ++ x :: rest) (hlive : P.iop x ≠ "nop")
    (hslot : ¬(P.row x).OnSlot (m2rCollect P f)) (hv : v ∈ Ir.operands P x) :
    Before F f (Goes P f) root b (phs b ++ l).length v ∧ v < P.size := by
  have hin : x ∈ P.binsn b := hx ▸ List.mem_append_right l List.mem_cons_self
  obtain ⟨hvalues, haddr⟩ := hs.earlier hb hin hlive
  refine hp.before hs hb hx hlive hv ?_
  cases List.mem_cons.mp hv with
  | inl heq => exact heq ▸ haddr.resolve_right hslot
  | inr hv => exact hvalues v hv

theorem Promoted.scoped (hpreds : Preds P f) (hS : S = m2rCollect P f) : Scoped F f (Goes P f) root := by
  have hτ := hp.renames hs
  have hnone : ∀ {b k}, Before F f (Goes P f) root b k (-1) := by
    rintro b k a ⟨-, y, -, heq⟩
    omega
  constructor
  case nodup => exact hp.nodup
  case edges => exact fun p q => (hp.goes hs).symm
  case entry => exact hs.entry
  case ends =>
    intro b hb
    rw [hp.fnblk] at hb
    obtain ⟨l, t, hlt, ht, hno⟩ := hs.ends b hb
    have hinsns : ∀ x ∈ l ++ [t], x ∈ insns P f := fun x hx => mem_insns.mpr ⟨b, hb, hlt ▸ hx⟩
    refine ⟨phs b ++ l, t, by rw [hp.binsn b hb, hlt, List.append_assoc], ?_, fun x hx => ?_⟩
    · rw [hp.ends (hinsns t (List.mem_append_right l (List.mem_singleton_self t)))]
      exact ht
    · cases List.mem_append.mp hx with
      | inl hphi =>
        have hop : (F.row x).op = "phi" := (hp.phi b hb x hphi).1
        exact not_ends hop (by decide)
      | inr hx =>
        rw [hp.ends (hinsns x (List.mem_append_left _ hx))]
        exact hno x hx
  case preds =>
    intro b hb p
    rw [hp.fnblk] at hb
    rw [hp.bpred]
    exact hpreds b hb p
  case filled =>
    intro b hb x hx hop
    rw [hp.fnblk] at hb
    rcases hp.cases hb hx with hphi | ⟨-, hnop⟩ | ⟨hx, -, hrow⟩
    · obtain ⟨-, -, -, hblk, s, -, -, hlist⟩ := hp.phi b hb x hphi
      rw [hblk, hlist, hp.bpred, List.length_map]
      exact ⟨rfl, rfl⟩
    · rw [hnop] at hop
      exact absurd hop (by decide)
    · have hold : P.iop x = "phi" := (congrArg Row.op hrow).symm.trans hop
      exact absurd hold (hs.lowered.noPhi x (mem_insns.mpr ⟨b, hb, hx⟩))
  case used =>
    intro b hb hreached x hx hlive
    rw [hp.fnblk] at hb
    rcases hp.cases hb hx with hphi | ⟨-, hnop⟩ | ⟨hx, hslot, hrow⟩
    · obtain ⟨hop, hia, hib, -⟩ := hp.phi b hb x hphi
      rw [hia, hib]
      exact ⟨hnone, hnone, fun hno => absurd hop hno⟩
    · exact absurd hnop hlive
    · obtain ⟨l, rest, hsplit⟩ := List.append_of_mem hx
      have hop : F.iop x = P.iop x := congrArg Row.op hrow
      have hplace : place F b (x : Nat) = (phs b ++ l).length :=
        place_eq hp.nodup (hp.fnblk.symm ▸ hb) (hp.split hb hsplit)
      rw [hS] at hslot
      have hall : ∀ v ∈ Ir.operands P x, Before F f (Goes P f) root b (phs b ++ l).length (τ v) := by
        intro v hv
        obtain ⟨hbefore, hlt⟩ := hp.operands hs hb hsplit (hop ▸ hlive) hslot hv
        exact hτ.before hreached hlt hbefore
      have hia : F.ia x = τ (P.ia x) := congrArg Row.a hrow
      have hib : F.ib x = τ (P.ib x) := congrArg Row.b hrow
      have hlist : F.ilist x = (P.ilist x).map τ := congrArg Row.list hrow
      rw [hplace, hia, hib, hlist]
      refine ⟨hall _ List.mem_cons_self, hall _ (List.mem_cons_of_mem _ List.mem_cons_self), fun _ v hv => ?_⟩
      obtain ⟨u, hu, rfl⟩ := List.mem_map.mp hv
      exact hall u (List.mem_cons_of_mem _ (List.mem_cons_of_mem _ hu))
  case incoming =>
    intro b hb x hx hop p hnext hreached v hv
    rw [hp.fnblk] at hb
    rcases hp.cases hb hx with hphi | ⟨-, hnop⟩ | ⟨hx, -, hrow⟩
    · obtain ⟨-, -, -, -, s, hin, -, hlist⟩ := hp.phi b hb x hphi
      rw [hlist, hp.bpred, List.getElem?_map] at hv
      obtain ⟨q, hq, rfl⟩ := Option.map_eq_some_iff.mp hv
      have hpq := List.getElem?_idxOf ((hpreds b hb p).mpr hnext)
      obtain rfl : p = q := Option.some.inj (hpq.symm.trans hq)
      have hheld := hp.held hs hnext.1 hreached (l := P.binsn p) (List.append_nil _).symm hin
      exact hheld.atEnd
    · rw [hnop] at hop
      exact absurd hop (by decide)
    · have hold : P.iop x = "phi" := (congrArg Row.op hrow).symm.trans hop
      exact absurd hold (hs.lowered.noPhi x (mem_insns.mpr ⟨b, hb, hx⟩))

end

/-! ## Runs -/

section

variable {V W : Type*} {o : Opcodes V W} {e e' : Entry V} {s s' : Now V W}

/-- Two runs in a block after its instructions `l`: what the slots have is what stands for it. -/
structure Matched (P F : Rows) (f root : Nat) (S : List Nat) (τ : Int → Int) (start : Nat → Int → Int)
    (phs : Nat → List Nat) (b : Nat) (e' : Entry V) (l : List Nat) (s s' : Now V W) : Prop where
  inside : Inside F f (Goes P f) root τ (fun w => w < P.size) b (phs b ++ l).length e' s s'
  slots : ∀ a ∈ S.map Int.ofNat, s.cells a = s'.env (held P S τ (start b) l a)

/-- Two runs between blocks. -/
structure Paired (P F : Rows) (f root : Nat) (S : List Nat) (τ : Int → Int) (start : Nat → Int → Int)
    (c c' : Stand V W) : Prop where
  level : Level F f (Goes P f) root τ (fun w => w < P.size) c c'
  first : c.prev = none → ∀ a ∈ S.map Int.ofNat, c.now.cells a = c'.now.env (start root a)
  later : ∀ p, c.prev = some p → ∀ a ∈ S.map Int.ofNat,
    c.now.cells a = c'.now.env (held P S τ (start p) (P.binsn p) a)

variable (hs : Shaped P f root) (hp : Promoted P F f root S τ start phs) (hpreds : Preds P f)
include hs hp hpreds

/-- What a block's phi is over the edge taken is what the block before left in the slot. -/
theorem Promoted.taken (hb : b ∈ P.fnblk f) (hprev : e.prev = some p) (hnext : Goes P f p b)
    (ha : v ∈ S.map Int.ofNat) (hx : x ∈ phs b) (hstart : start b v = x) :
    incomingOf o e (F.row x) = e.env (Ir.held P S τ (start p) (P.binsn p) v) := by
  have hroot : b ≠ root := by
    rintro rfl
    exact hs.entry p hnext
  obtain ⟨-, -, -, hblk, s, hs', heq, hlist⟩ := hp.phi b hb x hx
  obtain rfl := hp.apart b hb hroot v ha s hs' (hstart.trans heq.symm)
  refine incomingOf_some hprev ?_
  show (F.ilist x)[(F.iblk x).idxOf p]? = _
  rw [hlist, hblk, List.getElem?_map, List.getElem?_idxOf ((hpreds b hb p).mpr hnext)]
  rfl

omit hs hpreds in
/-- A value computed before a block is no phi of it. -/
theorem Promoted.ne_phi (hb : b ∈ P.fnblk f) (hw : Before F f (Goes P f) root b 0 w) (hx : x ∈ phs b) : w ≠ x := by
  rintro rfl
  have hin : x ∈ F.binsn b := by
    rw [hp.binsn b hb]
    exact List.mem_append_left _ hx
  cases hw b ⟨hp.fnblk.symm ▸ hb, x, hin, rfl⟩ with
  | inl h => exact Nat.not_lt_zero _ h.2
  | inr h => exact h.1 rfl

omit hs hpreds in
/-- A value from before the pass that is computed before a block's first old instruction is computed
before the block. -/
theorem Promoted.before_block (hb : b ∈ P.fnblk f) (hw : w < P.size)
    (h : Before F f (Goes P f) root b (phs b).length w) : Before F f (Goes P f) root b 0 w := by
  intro a ha
  refine .inr ((h a ha).resolve_left ?_)
  rintro ⟨rfl, hlt⟩
  obtain ⟨-, x, hx, rfl⟩ := hp.home hw ha
  have hnot : x ∉ phs a := by
    intro hphi
    have hle := hp.fresh a hb x hphi
    omega
  rw [place, Int.toNat_natCast, hp.binsn a hb, List.idxOf_append_of_notMem hnot] at hlt
  omega

variable {rs : List Row} {c c' : Stand V W}

/-- Behind the phis of a block. -/
theorem Promoted.entered (h : Paired P F f root S τ start c c') (hb : c.blk ∈ P.fnblk f) :
    ∃ t, runBlock o [] c'.entry ((phs c.blk).map F.row ++ rs) c'.now = runBlock o [] c'.entry rs t ∧
      Matched P F f root S τ start phs c.blk c'.entry [] c.now t := by
  have hτ := hp.renames hs
  have hphi : ∀ x ∈ phs c.blk, F.iop x = "phi" := fun x hx => (hp.phi c.blk hb x hx).1
  obtain ⟨t, hrun, hworld, hvalues, hothers⟩ : ∃ t : Now V W, runBlock o [] c'.entry
      ((phs c.blk).map F.row ++ rs) c'.now = runBlock o [] c'.entry rs t ∧ _ := runBlock_phis hphi
  have harr := h.level.arrived
  have hreached : Reached (Goes P f) root c.blk := harr.reached
  have hstart : Tracks τ (fun w => w < P.size) (Before F f (Goes P f) root c.blk 0) c.now.env c'.now.env :=
    harr.tracks hτ
  have hkept : ∀ w, Before F f (Goes P f) root c.blk 0 w → t.env w = c'.now.env w :=
    fun w hw => hothers w fun x hx => hp.ne_phi hb hw hx
  refine ⟨t, hrun, ⟨hworld.trans h.level.world, fun w hw hc => ?_, hkept⟩, fun a ha => ?_⟩
  · rw [List.append_nil] at hc
    by_cases hsame : τ w = w
    · have hnew : t.env w = c'.now.env w := hothers w fun x hx heq => by
        have hle := hp.fresh c.blk hb x hx
        have hlt : w < P.size := hw
        omega
      rw [hstart w hw (.inl hsame), hsame, hnew]
    · have hbefore := hp.before_block hb hw (hc.resolve_left hsame)
      rw [hstart w hw (.inr hbefore), hkept _ (hτ.before hreached hw hbefore)]
  · show c.now.cells a = t.env (start c.blk a)
    cases hprev : c.prev with
    | none =>
      have hroot : c.blk = root := (harr.start hprev).1
      rw [hothers _ fun x hx => ?_, hroot]
      · exact h.first hprev a ha
      · rw [hroot, hp.bare] at hx
        exact absurd hx List.not_mem_nil
    | some p =>
      have hnext : Goes P f p c.blk := (harr.edge p hprev).1
      have hroot : c.blk ≠ root := by
        intro heq
        rw [heq] at hnext
        exact hs.entry p hnext
      obtain ⟨x, hx, hstart⟩ := hp.full c.blk hb hroot a ha
      have hprev' : c'.entry.prev = some p := harr.prev.trans hprev
      rw [hstart, hvalues x hx, hp.taken hs hpreds hb hprev' hnext ha hx hstart]
      exact h.later p hprev a ha

theorem Promoted.steps (hS : S = m2rCollect P f) (h : Paired P F f root S τ start c c') (hb : c.blk ∈ P.fnblk f)
    (hx : P.binsn c.blk = l ++ x :: rest) (hm : Matched P F f root S τ start phs c.blk c'.entry l s s') :
    Steps o S [] c.entry c'.entry (P.row x) (F.row x)
      (Matched P F f root S τ start phs c.blk c'.entry (l ++ [x]))
      (fun t t' => Paired P F f root S τ start ⟨t.1, some c.blk, t.2⟩ ⟨t'.1, some c.blk, t'.2⟩) s s' := by
  have hτ := hp.renames hs
  have harr := h.level.arrived
  have hreached : Reached (Goes P f) root c.blk := harr.reached
  have hin : x ∈ insns P f := mem_insns.mpr ⟨c.blk, hb, hx ▸ List.mem_append_right l List.mem_cons_self⟩
  have hFb : c.blk ∈ F.fnblk f := hp.fnblk.symm ▸ hb
  have hFx : F.binsn c.blk = (phs c.blk ++ l) ++ x :: rest := hp.split hb hx
  have hlen : (phs c.blk ++ (l ++ [x])).length = (phs c.blk ++ l).length + 1 := by
    simp only [List.length_append, List.length_singleton]
    omega
  have hother : ∀ {t t' : Now V W}, ¬(P.row x).StoresSlot S →
      Inside F f (Goes P f) root τ (fun w => w < P.size) c.blk ((phs c.blk ++ l).length + 1) c'.entry t t' →
      t.cells = s.cells → (∀ w : Int, w ≠ x → t'.env w = s'.env w) →
      Matched P F f root S τ start phs c.blk c'.entry (l ++ [x]) t t' := by
    intro t t' hstore hinside hcells henv
    refine ⟨hlen ▸ hinside, fun a ha => ?_⟩
    rw [held_other hstore, hcells, hm.slots a ha, henv]
    exact (hp.held hs hb hreached hx ha).ne hp.nodup hFb hFx
  by_cases hslot : (P.row x).OnSlot S
  · have hnop : (F.row x).op = "nop" := hp.gone x hin hslot
    have hends' := not_ends hnop (by decide)
    have hends : ¬(P.row x).Ends := fun he => hends' ((hp.ends hin).mpr he)
    refine ⟨iff_of_false hends' hends, fun _ => ?_, fun he => absurd he hends⟩
    rcases hslot.1 with hop | hop
    · rw [act_load hop hslot, act_nop hnop]
      have hstore : ¬(P.row x).StoresSlot S := fun hstore => by
        rw [hstore.1] at hop
        exact absurd hop (by decide)
      refine ⟨rfl, hother hstore (hm.inside.drop hτ hp.nodup hFb hreached hFx ?_) rfl fun _ _ => rfl⟩
      rw [hp.loaded c.blk hb l x rest hx hop hslot]
      exact hm.slots _ hslot.2
    · rw [act_store hop hslot, act_nop hnop]
      have hsame : τ x = x := by
        by_contra hmoved
        obtain ⟨y, -, heq, hload, -⟩ := hp.moved x hmoved
        rw [← Int.natCast_inj.mp heq] at hload
        exact absurd (hop.symm.trans hload) (by decide)
      have hinside := hm.inside.idle hτ hp.nodup hFb hreached hFx hsame
      refine ⟨rfl, ⟨?_, ?_, ?_⟩, fun a ha => ?_⟩
      · exact hinside.world
      · rw [hlen]
        exact hinside.tracks
      · exact hinside.kept
      · rw [held_store ⟨hop, hslot⟩]
        show Function.update s.cells (P.ia x) (s.env (P.ib x)) a = _
        by_cases ha' : a = P.ia x
        · have hlive : P.iop x ≠ "nop" := by
            rw [show P.iop x = "store" from hop]
            decide
          have hearlier := (hs.earlier hb (hx ▸ List.mem_append_right l List.mem_cons_self) hlive).1
          obtain ⟨hbefore, hlt⟩ := hp.before hs hb hx hlive (List.mem_cons_of_mem _ List.mem_cons_self)
            (hearlier (P.ib x) List.mem_cons_self)
          rw [ha', Function.update_self, Function.update_self]
          exact hm.inside.tracks _ hlt (.inr hbefore)
        · rw [Function.update_of_ne ha', Function.update_of_ne ha', hm.slots a ha]
  · have hsame : τ x = x := by
      by_contra hmoved
      obtain ⟨y, -, heq, -, hon⟩ := hp.moved x hmoved
      rw [← Int.natCast_inj.mp heq] at hon
      exact hslot hon
    have hstore : ¬(P.row x).StoresSlot S := fun hstore => hslot hstore.2
    have hidle := hm.inside.idle hτ hp.nodup hFb hreached hFx hsame
    rw [hp.row x hin hslot]
    by_cases hop : P.iop x = "nop"
    · have hends := not_ends (r := P.row x) hop (by decide)
      refine ⟨Iff.rfl, fun _ => ?_, fun he => absurd he hends⟩
      rw [act_nop hop, act_nop (r := (P.row x).rename τ) hop]
      exact ⟨rfl, hother hstore hidle rfl fun _ _ => rfl⟩
    have htracks : ∀ v ∈ Ir.operands P x, s.env v = s'.env (τ v) := by
      intro v hv
      obtain ⟨hbefore, hlt⟩ := hp.operands hs hb hx hop (hS ▸ hslot) hv
      exact hm.inside.tracks v hlt (.inr hbefore)
    have hphi : P.iop x ≠ "phi" := hs.lowered.noPhi x hin
    have halike : Alike o c.entry c'.entry (P.row x) ((P.row x).rename τ) s s' :=
      .rename hm.inside.world harr.blk (htracks _ List.mem_cons_self)
        (htracks _ (List.mem_cons_of_mem _ List.mem_cons_self))
        (fun _ v hv => htracks v (List.mem_cons_of_mem _ (List.mem_cons_of_mem _ hv)))
        fun hop => absurd hop hphi
    refine ⟨halike.ends, fun _ => ?_, fun hends => halike.finish fun q hq => ?_⟩
    · have hno : ¬((P.row x).rename τ).OnSlot [] := not_onSlot_nil
      obtain ⟨hout, hafter⟩ := halike.act hslot hno
      refine ⟨hout, ?_⟩
      rcases hafter with ⟨heq, heq'⟩ | ⟨z, u, heq, heq'⟩
      · rw [heq, heq']
        exact hother hstore hidle rfl fun _ _ => rfl
      · rw [heq, heq']
        have hkeep := hm.inside.keep hτ hp.nodup hFb hreached hFx hsame z u
        exact hother hstore hkeep rfl fun w hw => Function.update_of_ne hw ..
    · have hscoped := hp.scoped hs hpreds hS
      have hFends : (F.row x).Ends := (hp.ends hin).mpr hends
      have hblk : F.iblk x = P.iblk x := congrArg Row.blk (hp.row x hin hslot)
      have hnext : Goes P f c.blk q := hscoped.goes hFb hFx hFends (hblk ▸ hq)
      obtain rfl := (hscoped.last hFb hFx hFends).1
      have hend : (F.binsn c.blk).length = (phs c.blk ++ l).length + 1 := by
        rw [hFx, List.length_append]
        rfl
      rw [← hend] at hidle
      refine ⟨hidle.leave hreached hnext, fun hp => absurd hp (Option.some_ne_none _), fun p hp a ha => ?_⟩
      obtain rfl := Option.some.inj hp
      rw [hx, held_other hstore]
      exact hm.slots a ha

/-- One block. -/
theorem Promoted.stepBlock (hS : S = m2rCollect P f) (h : Paired P F f root S τ start c c') :
    Matches (Paired P F f root S τ start) (stepBlock o P f S c) (stepBlock o F f [] c') := by
  have hblk : c'.blk = c.blk := h.level.arrived.blk
  apply stepBlock_matches
  · rw [hp.fnblk, hblk]
  intro hb
  obtain ⟨t, hrun, hstart⟩ := hp.entered hs hpreds h hb
  rw [hblk, hp.binsn c.blk hb, List.map_append, hrun]
  exact runBlock_matches
    (R := fun l => Matched P F f root S τ start phs c.blk c'.entry l)
    (fun l x rest hx s s' hm => hp.steps hs hpreds hS h hb hx hm) hstart

/-- However long they run, the two look the same, if they start with the same values and what the
slots have is what stands for it. -/
theorem Promoted.observed (hS : S = m2rCollect P f) (n : Nat) (hroot : c.blk = root) (hroot' : c'.blk = root)
    (hfirst : c.prev = none) (hfirst' : c'.prev = none) (hworld : c'.now.world = c.now.world)
    (henv : ∀ w < (P.size : Int), c.now.env w = c'.now.env w)
    (hcells : ∀ a ∈ S.map Int.ofNat, c.now.cells a = c'.now.env (start root a)) :
    Core.observed (Ir.stepBlock o P f S) Stand.seen n c = Core.observed (Ir.stepBlock o F f []) Stand.seen n c' := by
  refine observed_eq (fun c c' h => hp.stepBlock hs hpreds hS h) (fun c c' h => h.level.seen) n ?_
  refine ⟨⟨hworld, hroot'.trans hroot.symm, hfirst'.trans hfirst.symm, fun _ => ⟨hroot, fun w hw hc => ?_⟩,
    fun p hp => ?_⟩, fun _ => hcells, fun p hp => ?_⟩
  · rw [hc.resolve_right fun h => h]
    exact henv w hw
  · exact absurd (hfirst.symm.trans hp) (Option.some_ne_none p).symm
  · exact absurd (hfirst.symm.trans hp) (Option.some_ne_none p).symm

end

end IdCompiler.Ir

import IdCompiler.Ir.Collapse
import IdCompiler.Ir.Sweeping
import IdCompiler.Ir.Turned

/-!
# The pass keeps what a function does

From the function after `op_preds` to the filled store the slots become values,
and from there to the end the phis that are one value go, and the slots, which
nothing names any more. Every part keeps the calls, the blocks gone to and what
is returned.
-/

namespace IdCompiler.Ir

open IdCompiler.Core

variable {ir ir' P : Rows} {m m' : Mem} {root : Nat} {f b p x : Nat} {S : List Nat}

/-! ## The slots go -/

/-- Blocks whose instructions do the same, row by row. -/
theorem runBlock_congr {V W : Type*} {o : Opcodes V W} {slots : List Nat} {e : Entry V} {ids : List Nat}
    {s : Now V W} (h : ∀ x ∈ ids, ir'.row x = ir.row x ∨
      (ir.iop x = "nop" ∨ ir.iop x = "alloca") ∧ ir'.iop x = "nop") :
    runBlock o slots e (ids.map ir'.row) s = runBlock o slots e (ids.map ir.row) s := by
  induction ids generalizing s with
  | nil => rfl
  | cons x ids ih =>
    have hrest := fun s => ih (s := s) fun y hy => h y (List.mem_cons_of_mem x hy)
    rw [List.map_cons, List.map_cons]
    rcases h x List.mem_cons_self with hrow | ⟨hop, hnop⟩
    · rw [hrow]
      by_cases hends : (ir.row x).Ends
      · rw [runBlock_finish hends, runBlock_finish hends]
      · rw [runBlock_act hends, runBlock_act hends, hrest]
    · have hquiet : act o slots e (ir.row x) s = ([], s) := if_pos (hop.imp_right .inr)
      have hends : ¬(ir.row x).Ends := by
        rcases hop with hop | hop
        · exact not_ends hop (by decide)
        · exact not_ends hop (by decide)
      rw [runBlock_quiet (not_ends hnop (by decide)) (act_nop hnop), runBlock_quiet hends hquiet]
      exact hrest s

theorem foldl_irKill_row (hx : x ∉ S) : (S.foldl irKill ir).row x = ir.row x := by
  induction S generalizing ir with
  | nil => rfl
  | cons s S ih =>
    obtain ⟨hne, hx⟩ := not_or.mp (List.mem_cons.not.mp hx)
    rw [List.foldl_cons, ih hx]
    exact irKill_row_of_ne hne

/-- Slots can go, as no run does anything with one that is no access to it. -/
theorem sameRuns_kill (h : ∀ s ∈ S, ir.iop s = "nop" ∨ ir.iop s = "alloca") :
    SameRuns f root [] [] ir (S.foldl irKill ir) := by
  intro V W o c n _ _
  obtain ⟨ty, hkill⟩ := foldl_irKill S ir
  have hrows : ∀ x, (S.foldl irKill ir).row x = ir.row x ∨
      (ir.iop x = "nop" ∨ ir.iop x = "alloca") ∧ (S.foldl irKill ir).iop x = "nop" := by
    intro x
    by_cases hx : x ∈ S
    · refine .inr ⟨h x hx, ?_⟩
      rw [hkill]
      exact if_pos hx
    · exact .inl (foldl_irKill_row hx)
  have hfnblk : (S.foldl irKill ir).fnblk = ir.fnblk := by rw [hkill]
  have hbinsn : (S.foldl irKill ir).binsn = ir.binsn := by rw [hkill]
  have hstep : stepBlock o ir f [] = stepBlock o (S.foldl irKill ir) f [] := by
    funext c
    unfold stepBlock
    rw [hfnblk, hbinsn, runBlock_congr fun x _ => hrows x]
  rw [hstep]

/-! ## What the pass starts from -/

/-- Blocks that hold different instructions are different. -/
theorem Shaped.laid (h : Shaped P f root) : Laid P f := by
  refine ⟨h.nodup, ?_⟩
  refine (List.nodup_flatMap.mp h.nodup).2.imp_of_mem fun {b c} hb hc hdisjoint heq => ?_
  obtain ⟨x, hx⟩ := List.exists_mem_of_ne_nil _ (h.lowered.full b hb)
  exact hdisjoint hx (heq ▸ hx)

/-- The predecessor lists that `op_preds` makes. -/
theorem preds_of_edges (h : ∀ b ∈ P.fnblk f, P.bpred b = predEdges P f b) : Preds P f := by
  intro b hb p
  rw [h b hb, predEdges, List.mem_flatMap]
  constructor
  · rintro ⟨q, hq, hin⟩
    obtain ⟨hcount, rfl⟩ := List.mem_replicate.mp hin
    exact ⟨hq, List.count_pos_iff.mp (Nat.pos_of_ne_zero hcount)⟩
  · rintro ⟨hp, hin⟩
    exact ⟨p, hp, List.mem_replicate.mpr ⟨Nat.ne_of_gt (List.count_pos_iff.mpr hin), rfl⟩⟩

theorem Shaped.withPreds (h : Shaped P f root) (preds : Nat → List Nat) : Shaped (P.withPreds preds) f root :=
  ⟨⟨⟨h.lowered.size, h.lowered.full, h.lowered.noPhi, h.lowered.named, h.lowered.stored⟩, h.first, h.nodup,
    h.entry, h.ends⟩, h.dominated⟩

/-- The store when all phis are filled. -/
theorem Shaped.turning (h : Shaped P f root) (hpreds : Preds P f) :
    ∃ m₁ m τ, Turning P f m₁ m (m2rFilled P f) τ := by
  obtain ⟨τ, hentering⟩ := h.lowered.entered h.laid
  have hpassed := h.lowered.passed
  have hfrom : ∀ b ∈ P.fnblk f, ∀ pb ∈ P.bpred b, pb ∈ P.fnblk f :=
    fun b hb pb hpb => ((hpreds b hb pb).mp hpb).1
  refine ⟨_, _, τ, h.laid, hpassed, hentering, hpassed.filling hfrom, hpassed.given hfrom, fun b hb => ?_⟩
  exact m2rPhis_binsn (m := m2rInit P f) h.laid.blocks (getElem?_idxOf_blk hb)

/-! ## The whole pass -/

/-- Where a run starts. -/
def Stand.start {V W : Type} (root : Nat) (env cells : Int → V) (world : W) : Stand V W :=
  ⟨root, none, ⟨env, cells, world⟩⟩

/-- What can be seen of the first `n` blocks of a run of a function, and where it is then. -/
def looks {V W : Type} (o : Opcodes V W) (ir : Rows) (f root n : Nat) (env cells : Int → V) (world : W) :
    List (Seen V) × Option (Nat × Option Nat × W) :=
  observed (stepBlock o ir f (m2rCollect ir f)) Stand.seen n (Stand.start root env cells world)

/-- The runs of one function look like those of another one whatever the opcodes mean: each like one
in which the slots, or what is new in the other one, have some values to start with. -/
def KeepsRuns (f root : Nat) (ir ir' : Rows) : Prop :=
  ∀ (V W : Type) (o : Opcodes V W) (env : Int → V) (world : W),
    (∀ cells, ∃ env', (∀ w < (ir.size : Int), env' w = env w) ∧
      ∀ cells' n, looks o ir' f root n env' cells' world = looks o ir f root n env cells world) ∧
    ∀ env', (∀ w < (ir.size : Int), env' w = env w) → ∃ cells,
      ∀ cells' n, looks o ir' f root n env' cells' world = looks o ir f root n env cells world

theorem mem_m2rCollect_of (hb : (ir.fnblk f).head? = some b) (hx : x ∈ ir.binsn b) (hop : ir.iop x = "alloca") :
    x ∈ m2rCollect ir f := by
  unfold m2rCollect
  cases hblk : ir.fnblk f with
  | nil =>
    rw [hblk] at hb
    cases hb
  | cons c bs =>
    rw [hblk] at hb
    obtain rfl := Option.some.inj hb
    exact List.mem_filter.mpr ⟨hx, decide_eq_true hop⟩

theorem m2rCollect_eq_nil (h : ∀ b x, (ir.fnblk f).head? = some b → x ∈ ir.binsn b → ir.iop x ≠ "alloca") :
    m2rCollect ir f = [] := by
  unfold m2rCollect
  cases hblk : ir.fnblk f with
  | nil => rfl
  | cons b bs =>
    refine List.filter_eq_nil_iff.mpr fun x hx hop => h b x ?_ hx (of_decide_eq_true hop)
    rw [hblk]
    rfl

section

variable {m₁ m₂ : Mem} {τ : Int → Int} (h : Turning P f m₁ m m₂ τ)
include h

theorem Turning.pra : m₂.pra = m2rCollect P f := by
  obtain ⟨list, blk, rfl⟩ := h.filling.edges
  exact h.passed.pra

/-- Old rows were at most killed. -/
theorem Turning.iop (hx : x ∈ insns P f) : m₂.ir.iop x = P.iop x ∨ m₂.ir.iop x = "nop" := by
  rw [h.same.2.2.2.1]
  exact h.passed.iop (h.passed.lowered.size x hx)

/-- Values for what is undefined, by what the slots have to start with. -/
theorem Turning.undefined {V : Type*} (hroot : (P.fnblk f).head? = some root) (env cells : Int → V) :
    ∃ env' : Int → V, (∀ w < (P.size : Int), env' w = env w) ∧
      ∀ a ∈ (m2rCollect P f).map Int.ofNat, cells a = env' (startOf P f m₁ root a) := by
  refine ⟨fun w => if w < P.size then env w else
    cells (((m2rCollect P f).map Int.ofNat).getD (w - m₁.ir.size).toNat 0), fun w hw => if_pos hw, fun a ha => ?_⟩
  have hstart : startOf P f m₁ root a = ((m₁.ir.size + slotIdx P f a : Nat) : Int) :=
    if_pos ((idxOf_eq_zero hroot).mpr rfl)
  have hle : P.size ≤ m₁.ir.size := h.placed.size
  have hplace : (startOf P f m₁ root a - m₁.ir.size).toNat = slotIdx P f a := by
    rw [hstart]
    omega
  have hnew : ¬startOf P f m₁ root a < P.size := by
    rw [hstart]
    omega
  show cells a = if _ then _ else _
  rw [if_neg hnew, hplace, slotIdx, List.getD_eq_getElem?_getD, List.getElem?_idxOf ha, Option.getD_some]

variable {m' : Mem} (hrel : Collapses f m₂ m')
include hrel

theorem Turning.slots : ∀ s ∈ m'.pra, m'.ir.iop s = "nop" ∨ m'.ir.iop s = "alloca" := by
  intro s hs
  rw [hrel.pra, h.pra] at hs
  obtain ⟨hin, hop⟩ := mem_m2rCollect hs
  cases hrel.iop s with
  | inr hnop => exact .inl hnop
  | inl heq =>
    rw [heq]
    exact (h.iop hin).symm.imp_right fun hsame => hsame.trans hop

/-- No slot is left. -/
theorem Turning.noSlots : m2rCollect (m'.pra.foldl irKill m'.ir) f = [] := by
  obtain ⟨ty, hkill⟩ := foldl_irKill m'.pra m'.ir
  rw [hkill, hrel.pra, h.pra]
  refine m2rCollect_eq_nil fun b x hb hx hop => ?_
  have hb : (P.fnblk f).head? = some b := by
    rw [← h.same.1, ← hrel.fnblk]
    exact hb
  have hblk := List.mem_of_head? hb
  have hx : x ∈ m'.ir.binsn b := hx
  have hop : (if x ∈ m2rCollect P f then "nop" else m'.ir.iop x) = "alloca" := hop
  split at hop
  · exact absurd hop (by decide)
  next hnot =>
    have hold : m₂.ir.iop x = "alloca" := by
      cases hrel.iop x with
      | inl heq => exact heq.symm.trans hop
      | inr hnop => exact absurd (hnop.symm.trans hop) (by decide)
    rw [hrel.binsn, h.split hblk] at hx
    cases List.mem_append.mp hx with
    | inl hphi =>
      have hop' : m₂.ir.iop x = "phi" := by
        rw [h.same.2.2.2.1]
        exact (h.phi hblk hphi).2.2.op
      exact absurd (hop'.symm.trans hold) (by decide)
    | inr hx =>
      cases h.iop (mem_insns.mpr ⟨b, hblk, hx⟩) with
      | inl heq => exact hnot (mem_m2rCollect_of hb hx (heq.symm.trans hold))
      | inr hnop => exact absurd (hnop.symm.trans hold) (by decide)

end

theorem opMem2reg_keepsRuns (h : Shaped ir f root) :
    ∃ ir', opMem2reg (opPreds ir f) f = some ir' ∧ KeepsRuns f root ir ir' := by
  obtain ⟨preds, hpreds, hedges⟩ := opPreds_eq ir f
  rw [hpreds]
  have hs := h.withPreds preds
  have hpreds' : Preds (ir.withPreds preds) f := preds_of_edges hedges
  obtain ⟨m₁, m, τ, hturning⟩ := hs.turning hpreds'
  have hpromoted := hturning.promoted hs.first hpreds'
  have hscoped := hpromoted.scoped hs hpreds' rfl
  obtain ⟨hwired, -⟩ := hs.lowered.filled fun b hb pb hpb => ((hpreds' b hb pb).mp hpb).1
  obtain ⟨m', hclean, hrel, -⟩ := m2rClean_some (m2rFilled (ir.withPreds preds) f) f
  have hsweeps := m2rClean_sameRuns hwired hscoped hclean
  have hkill : SameRuns f root [] [] m'.ir (m'.pra.foldl irKill m'.ir) := sameRuns_kill (hturning.slots hrel)
  refine ⟨m'.pra.foldl irKill m'.ir, by rw [opMem2reg, hclean]; rfl, fun V W o env world => ?_⟩
  have hlook : ∀ env' cells cells' n, (∀ w < (ir.size : Int), env' w = env w) →
      (∀ a ∈ (m2rCollect ir f).map Int.ofNat, cells a = env' (startOf (ir.withPreds preds) f m₁ root a)) →
      looks o (m'.pra.foldl irKill m'.ir) f root n env' cells' world = looks o ir f root n env cells world := by
    intro env' cells cells' n henv hcells
    have hslots : observed (stepBlock o ir f (m2rCollect ir f)) Stand.seen n (Stand.start root env cells world) =
        observed (stepBlock o (m2rFilled (ir.withPreds preds) f).ir f []) Stand.seen n
          (Stand.start root env' cells' world) :=
      hpromoted.observed hs hpreds' rfl n rfl rfl rfl rfl rfl (fun w hw => (henv w hw).symm) hcells
    unfold looks
    rw [hturning.noSlots hrel]
    exact ((hslots.trans (hsweeps V W o _ n rfl rfl)).trans (hkill V W o _ n rfl rfl)).symm
  refine ⟨fun cells => ?_, fun env' henv => ?_⟩
  · obtain ⟨env', henv, hcells⟩ := hturning.undefined hs.first env cells
    exact ⟨env', henv, fun cells' n => hlook env' cells cells' n henv hcells⟩
  · exact ⟨fun a => env' (startOf (ir.withPreds preds) f m₁ root a),
      fun cells' n => hlook env' _ cells' n henv fun _ _ => rfl⟩

/-- Every block ends in its last instruction, and in no other. -/
theorem ends_of_last (h : ∀ b ∈ ir.fnblk f, ir.binsn b = (ir.binsn b).dropLast ++ [(ir.binsn b).getLastD 0] ∧
    (ir.row ((ir.binsn b).getLastD 0)).Ends ∧ ∀ x ∈ (ir.binsn b).dropLast, ¬(ir.row x).Ends) :
    ∀ b ∈ ir.fnblk f, ∃ l t, ir.binsn b = l ++ [t] ∧ (ir.row t).Ends ∧ ∀ x ∈ l, ¬(ir.row x).Ends :=
  fun b hb => ⟨_, _, h b hb⟩

theorem looping_shaped : Shaped looping 0 0 := by
  have hedges : ∀ b, b ≠ 0 → ∀ q, Goes looping 0 q b → b = 1 ∧ (q = 0 ∨ q = 1) ∨ b = 2 ∧ q = 1 := by
    rintro b - q ⟨hq, hb⟩
    revert b
    revert q
    decide
  have hbefore : ∀ b ∈ looping.fnblk 0, ∀ x ∈ looping.binsn b, ∀ v ∈ operands looping x,
      ∀ a ∈ looping.fnblk 0, (∃ y ∈ looping.binsn a, v = (y : Nat)) → a = b ∨ a = 0 ∧ b = 1 ∨ a = 1 ∧ b = 2 := by
    decide
  refine ⟨⟨looping_lowered, rfl, by decide, ?_, ends_of_last (by decide)⟩, fun b hb x hx _ v hv a ha => ?_⟩
  · rintro p ⟨hp, hin⟩
    revert p
    decide
  · rcases hbefore b hb x hx v hv a ha.1 ha.2 with rfl | ⟨rfl, rfl⟩ | ⟨rfl, rfl⟩
    · exact .refl
    · refine .of_entries (by decide) fun q hq _ => ?_
      rcases hedges 1 (by decide) q hq with ⟨-, rfl | rfl⟩ | ⟨hone, -⟩
      · exact .inl .refl
      · exact .inr .refl
      · exact absurd hone (by decide)
    · refine .of_entries (by decide) fun q hq _ => ?_
      rcases hedges 2 (by decide) q hq with ⟨htwo, -⟩ | ⟨-, rfl⟩
      · exact absurd htwo (by decide)
      · exact .inl .refl

theorem opMem2reg_keepsRuns_looping :
    ∃ ir', opMem2reg (opPreds looping 0) 0 = some ir' ∧ KeepsRuns 0 0 looping ir' :=
  opMem2reg_keepsRuns looping_shaped

/-! ## A value that is not computed on every path -/

/-- A loop in which a branch sets a slot to a call's result and loads it, and a call behind the branch
is given what was loaded. -/
def stale : Rows :=
  ⟨9, fun x => ["alloca", "br", "call", "cbr", "store", "load", "br", "call", "br"].getD x "", fun _ => "",
    fun x => [-1, -1, -1, 2, 0, 0].getD x (-1), fun x => [-1, -1, -1, -1, 2].getD x (-1), fun _ => "",
    fun x => if x = 7 then [5] else [], fun x => [[], [1], [], [2, 3], [], [], [3], [], [1]].getD x [],
    fun x => [0, 0, 1, 1, 2, 2, 2, 3, 3].getD x (-1),
    fun b => [[0, 1], [2, 3], [4, 5, 6], [7, 8]].getD b [], fun _ => [], fun _ => [0, 1, 2, 3]⟩

theorem stale_formed : Formed stale 0 0 := by
  refine ⟨by decide, rfl, by decide, ?_, ends_of_last (by decide)⟩
  rintro p ⟨hp, hin⟩
  revert p
  decide

/-- Calls give the number of the call, and only 0 is true. -/
def counted : Opcodes Nat Nat := ⟨fun _ _ _ _ w => w, fun _ _ _ _ w => (w, w + 1), fun v => v = 0, 0⟩

/-- What a call was given. -/
def Seen.args {V : Type} : Seen V → Option (List V)
  | .effect _ _ _ l => some l
  | _ => none

/-- In the second round the branch is not taken. The call is given what was loaded in the first one,
and after the pass the new result. -/
theorem stale_not_kept : Formed stale 0 0 ∧
    ∃ ir', opMem2reg (opPreds stale 0) 0 = some ir' ∧ ¬KeepsRuns 0 0 stale ir' := by
  refine ⟨stale_formed, (opMem2reg (opPreds stale 0) 0).get (by decide), (Option.some_get _).symm, fun hkeeps => ?_⟩
  obtain ⟨env', -, hlooks⟩ := (hkeeps Nat Nat counted (fun _ => 0) 0).1 fun _ => 0
  have hsame := congrArg (fun seen => seen.1.filterMap Seen.args) (hlooks (fun _ => 0) 6)
  have hbefore : (looks counted stale 0 0 6 (fun _ => 0) (fun _ => 0) 0).1.filterMap Seen.args =
      [[], [0], [], [0]] := rfl
  have hafter : (looks counted ((opMem2reg (opPreds stale 0) 0).get (by decide)) 0 0 6 env' (fun _ => 0) 0).1.filterMap
      Seen.args = [[], [0], [], [2]] := rfl
  exact absurd (hafter.symm.trans (hsame.trans hbefore)) (by decide)

end IdCompiler.Ir

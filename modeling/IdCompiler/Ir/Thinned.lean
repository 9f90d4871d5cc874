import IdCompiler.Ir.Agreed
import IdCompiler.Ir.Dce
import IdCompiler.Ir.Fold

/-!
# Folds and sweeps keep what a function does

Each of the two makes a row a killed one, with its uses replaced or without any.
The function stays one whose values are computed before they are used and whose
tests are as the lowering builds them, and from then on a run of it looks the
same.
-/

namespace IdCompiler.Ir

open IdCompiler.Core

variable {ir ir' ir'' : Rows} {next : Nat → Nat → Prop} {root : Nat} {f b x id fuel n : Nat} {v w : Int}
  {Q : Rows → Prop}

/-! ## One row less -/

/-- A function without slots as the passes after them find it. -/
structure Trim (ir : Rows) (f : Nat) (next : Nat → Nat → Prop) (root : Nat) : Prop where
  scope : Scoped ir f next root
  tame : Tame ir f
  known : Known ir f

/-- A store with the same blocks in which rows were at most killed, and in which a function does the same
on values it may start with. -/
structure Thinned (f root : Nat) (ir ir' : Rows) : Prop where
  size : ir'.size = ir.size
  fnblk : ir'.fnblk = ir.fnblk
  binsn : ir'.binsn = ir.binsn
  istr : ir'.istr = ir.istr
  other : ∀ x, x ∉ insns ir f → ir'.row x = ir.row x
  rows : ∀ x, ir'.iop x = ir.iop x ∧ ir'.ity x = ir.ity x ∨ ir'.iop x = "nop" ∧ ir'.ity x = ""
  same : ∀ (V W : Type) (o : Opcodes V W) bit zero (c : Stand V W) n, Tests o bit zero → c.blk = root →
    c.prev = none → Starts ir bit zero c.now.env →
    observed (stepBlock o ir f []) Stand.seen n c = observed (stepBlock o ir' f []) Stand.seen n c

theorem Starts.thinned {V : Type*} {bit : V → Prop} {zero : V} {env : Int → V} (hs : Starts ir bit zero env)
    (hsize : ir'.size = ir.size) (histr : ir'.istr = ir.istr)
    (hrows : ∀ x, ir'.iop x = ir.iop x ∧ ir'.ity x = ir.ity x ∨ ir'.iop x = "nop" ∧ ir'.ity x = "") :
    Starts ir' bit zero env := by
  refine ⟨fun x hx hty => ?_, fun c hc hop hstr => ?_⟩
  · rcases hrows x with ⟨-, hsame⟩ | ⟨-, hnone⟩
    · exact hs.bits x (hsize ▸ hx) (hsame.symm.trans hty)
    · exact absurd (hnone.symm.trans hty) (by decide)
  · rcases hrows c with ⟨hsame, -⟩ | ⟨hnop, -⟩
    · exact hs.zeros c (hsize ▸ hc) (hsame.symm.trans hop) (histr ▸ hstr)
    · exact absurd (hnop.symm.trans hop) (by decide)

theorem Thinned.insns (h : Thinned f root ir ir') : insns ir' f = insns ir f := by
  unfold Ir.insns
  rw [h.fnblk, h.binsn]

instance : IsPreorder Rows (Thinned f root) where
  refl _ := ⟨rfl, rfl, rfl, rfl, fun _ _ => rfl, fun _ => .inl ⟨rfl, rfl⟩, fun _ _ _ _ _ _ _ _ _ _ _ => rfl⟩
  trans _ _ _ h h' := by
    constructor
    case size => rw [h'.size, h.size]
    case fnblk => rw [h'.fnblk, h.fnblk]
    case binsn => rw [h'.binsn, h.binsn]
    case istr => rw [h'.istr, h.istr]
    case other =>
      intro x hx
      rw [h'.other x (h.insns.symm ▸ hx), h.other x hx]
    case rows =>
      intro x
      rcases h'.rows x with ⟨hop, hty⟩ | hgone
      · rw [hop, hty]
        exact h.rows x
      · exact .inr hgone
    case same =>
      intro V W o bit zero c n ho hroot hfirst hs
      rw [h.same V W o bit zero c n ho hroot hfirst hs]
      exact h'.same V W o bit zero c n ho hroot hfirst (hs.thinned h.size h.istr h.rows)

theorem dropped_rows (ir : Rows) (f id : Nat) (v : Int) (x : Nat) :
    (dropped ir f id v).iop x = ir.iop x ∧ (dropped ir f id v).ity x = ir.ity x ∨
    (dropped ir f id v).iop x = "nop" ∧ (dropped ir f id v).ity x = "" := by
  rw [dropped_eq]
  by_cases hx : x = id
  · subst hx
    exact .inr ⟨irKill_iop_self, Function.update_self ..⟩
  · exact .inl ⟨irKill_iop_of_ne hx, Function.update_of_ne hx ..⟩

theorem dropped_istr : (dropped ir f id v).istr = ir.istr := by
  rw [dropped_eq]
  rfl

/-- To kill a row is to replace its value by itself. -/
theorem dropped_self : dropped ir f id id = irKill ir id := by
  have hid : swap (id : Int) id = fun v => v := funext fun _ => swap_same
  have hsame : rauwIn (insns ir f) id id ir = ir := by
    unfold rauwIn
    rw [hid]
    simp only [List.map_id', ite_self]
  rw [dropped_eq, hsame]

theorem dropped_other (hid : id ∈ insns ir f) (hx : x ∉ insns ir f) : (dropped ir f id v).row x = ir.row x := by
  have hne : x ≠ id := fun heq => hx (heq ▸ hid)
  rw [dropped_eq, irKill_row_of_ne hne]
  unfold Rows.row rauwIn
  simp only [if_neg hx]

/-- What is left of a row is its old one with other operands. -/
theorem dropped_live (hlive : (dropped ir f id v).iop x ≠ "nop") : (dropped ir f id v).iop x = ir.iop x :=
  (dropped_rows _ _ _ _ x).elim (fun h => h.1) fun h => absurd h.1 hlive

theorem Known.dropped (h : Known ir f) (hv : (id : Int) < ir.size → v < ir.size) : Known (dropped ir f id v) f := by
  intro x hx hlive w hw
  rw [insns_dropped] at hx
  rw [operands_dropped hx] at hw
  rw [dropped_size]
  obtain ⟨u, hu, rfl⟩ := List.mem_map.mp hw
  have hlt := h x hx (dropped_live hlive ▸ hlive) u hu
  unfold swap
  split
  · next heq => exact hv (heq ▸ hlt)
  · exact hlt

theorem Tame.dropped (h : Tame ir f) (hpos : 0 ≤ v) (hv : ∀ z : Nat, v = z → ir.iop z = "zext" → z ∈ insns ir f) :
    Tame (dropped ir f id v) f := by
  have hold : ∀ {x op}, (Ir.dropped ir f id v).iop x = op → op ≠ "nop" → ir.iop x = op := fun hop hne =>
    (dropped_live (hop.symm ▸ hne)).symm.trans hop
  constructor
  case consts =>
    intro x hx hop
    exact h.consts x (insns_dropped ▸ hx) (hold hop (by decide))
  case slots =>
    intro x hx hop
    rw [insns_dropped] at hx
    have hop : ir.iop x = "alloca" ∨ ir.iop x = "phi" :=
      hop.imp (fun hop => hold hop (by decide)) fun hop => hold hop (by decide)
    rcases dropped_rows ir f id v x with ⟨-, hty⟩ | ⟨-, hty⟩
    · rw [hty]
      exact h.slots x hx hop
    · rw [hty]
      decide
  case widens =>
    intro x hx hop
    rw [insns_dropped] at hx
    have hia : (Ir.dropped ir f id v).ia x = swap id v (ir.ia x) := opRauw_ia hx
    have hold := h.widens x hx (hold hop (by decide))
    rw [hia]
    unfold swap
    split
    · exact hpos
    · exact hold
  case placed =>
    intro x hx hlive z hz hop
    rw [insns_dropped] at hx ⊢
    rw [operands_dropped hx] at hz
    have hop := hold hop (by decide)
    obtain ⟨u, hu, heq⟩ := List.mem_map.mp hz
    by_cases huid : u = id
    · rw [huid, swap_self] at heq
      exact hv z heq hop
    · rw [swap_of_ne huid] at heq
      exact h.placed x hx (dropped_live hlive ▸ hlive) z (heq ▸ hu) hop

/-! ## Folding -/

/-- What a fold does. -/
theorem foldOne_cases (h : Tame ir f) (hb : b ∈ ir.fnblk f) (hid : id ∈ ir.binsn b) :
    foldOne f ir id = ir ∨ ∃ z c v, Widened ir f b id z c v ∧ foldOne f ir id = dropped ir f id (v : Nat) := by
  unfold foldOne
  split
  case isFalse => exact .inl rfl
  case isTrue htest =>
    unfold foldCmp
    split
    case isFalse => exact .inl rfl
    case isTrue hfold =>
      obtain ⟨hz, hop, hty⟩ := foldIszext_eq_one hfold.1
      obtain ⟨hc, hconst, hzero⟩ := foldZeroOf_eq_one hfold.2
      obtain ⟨z, hz⟩ := Int.eq_ofNat_of_zero_le hz
      obtain ⟨c, hc⟩ := Int.eq_ofNat_of_zero_le hc
      rw [hz, Int.toNat_natCast] at hop hty
      rw [hc, Int.toNat_natCast] at hconst hzero
      have hlive : ir.iop id ≠ "nop" := by
        rw [htest.1]
        decide
      have hin : z ∈ insns ir f := h.placed id (mem_insns.mpr ⟨b, hb, hid⟩) hlive z (hz ▸ List.mem_cons_self) hop
      obtain ⟨v, hv⟩ := Int.eq_ofNat_of_zero_le (h.widens z hin hop)
      rw [hv, Int.toNat_natCast] at hty
      refine .inr ⟨z, c, v, ⟨hb, hid, htest.1, htest.2, hz, hop, hv, hty, hc, hconst, hzero⟩, ?_⟩
      rw [foldKill, hz, Int.toNat_natCast, hv]

/-- One row after the other. -/
theorem Thinned.foldl {g : Rows → Nat → Rows} {ids : List Nat} (h : Trim ir f next root)
    (hg : ∀ ir', Thinned f root ir ir' → Trim ir' f next root → ∀ id ∈ ids,
      Thinned f root ir' (g ir' id) ∧ Trim (g ir' id) f next root) :
    Thinned f root ir (ids.foldl g ir) ∧ Trim (ids.foldl g ir) f next root := by
  refine List.foldlRecOn (motive := fun ir' => Thinned f root ir ir' ∧ Trim ir' f next root) ids g
    ⟨Std.Refl.refl _, h⟩ ?_
  rintro ir' ⟨hthin, htrim⟩ id hid
  obtain ⟨hone, htrim⟩ := hg ir' hthin htrim id hid
  exact ⟨IsTrans.trans _ _ _ hthin hone, htrim⟩

theorem foldOne_thinned (h : Trim ir f next root) (hb : b ∈ ir.fnblk f) (hid : id ∈ ir.binsn b) :
    Thinned f root ir (foldOne f ir id) ∧ Trim (foldOne f ir id) f next root := by
  rcases foldOne_cases h.tame hb hid with hsame | ⟨z, c, v, hw, heq⟩
  · rw [hsame]
    exact ⟨Std.Refl.refl _, h⟩
  rw [heq]
  have hr := hw.replaces h.scope h.tame
  have hlive : ir.iop z ≠ "nop" := by
    rw [hw.zext]
    decide
  have hin := h.tame.zext hw
  have hmem : (v : Int) ∈ operands ir z := hw.bit ▸ List.mem_cons_self
  refine ⟨⟨dropped_size, dropped_fnblk, dropped_binsn, dropped_istr,
    fun _ hx => dropped_other hw.home.mem_insns hx, dropped_rows _ _ _ _, ?_⟩,
    h.scope.dropped (hr.renames h.scope) hr.ends, h.tame.dropped (Int.natCast_nonneg v) ?_,
    h.known.dropped fun _ => h.known z hin hlive v hmem⟩
  · intro V W o bit zero c n ho hroot hfirst hs
    exact hw.observed h.scope h.tame h.known ho n hroot hfirst hs
  · intro y hy hop
    exact h.tame.placed z hin hlive y (hy ▸ hmem) hop

theorem opFold_thinned (h : Trim ir f next root) :
    Thinned f root ir (opFold ir f) ∧ Trim (opFold ir f) f next root := by
  refine Thinned.foldl h fun ir' hthin htrim b hb => Thinned.foldl htrim fun ir'' hthin' htrim' id hid => ?_
  apply foldOne_thinned (b := b) htrim'
  · rw [hthin'.fnblk, hthin.fnblk]
    exact hb
  · rw [hthin'.binsn]
    exact hid

/-! ## Sweeping -/

section

variable {V W : Type*} {o : Opcodes V W} {e e' : Entry V} {s s' : Now V W}

/-- An instruction without an effect at most gives its id a value. -/
theorem act_of_notMem_irnoeff {r : Row} (hop : r.op ∉ irnoeff) :
    (act o [] e r s) = ([], s) ∨ ∃ u, act o [] e r s = ([], s.assign r.id u s.world) := by
  simp only [irnoeff, List.mem_cons, List.not_mem_nil, or_false, not_or] at hop
  obtain ⟨hstore, hcall, -⟩ := hop
  unfold act
  rw [if_neg not_onSlot_nil, if_neg (not_or.mpr ⟨hstore, hcall⟩)]
  split
  · exact .inl rfl
  · split
    · exact .inr ⟨_, rfl⟩
    · exact .inr ⟨_, rfl⟩

/-- What may be removed ends no block. -/
theorem Removable.ends (h : Removable ir f id) : ¬(ir.row id).Ends := by
  have hno : (ir.row id).op ∉ irnoeff := h.1
  simp only [irnoeff, List.mem_cons, List.not_mem_nil, or_false, not_or] at hno
  obtain ⟨-, -, hret, hbr, hcbr, -⟩ := hno
  exact not_or.mpr ⟨hret, not_or.mpr ⟨hbr, hcbr⟩⟩

/-- One instruction, when one that has no user is killed. -/
theorem Removable.steps (h : Removable ir f id) (hx : x ∈ insns ir f) (hs : Agreed (· ≠ (id : Int)) e e' s s') :
    Steps o [] [] e e' (ir.row x) ((irKill ir id).row x) (Agreed (· ≠ (id : Int)) e e')
      (fun t t' => Agreed (· ≠ (id : Int)) ⟨t.1, some e.blk, t.2.env⟩ ⟨t'.1, some e'.blk, t'.2.env⟩ t.2 t'.2) s s' := by
  by_cases hxid : x = id
  · subst hxid
    have hno : (ir.row x).op ∉ irnoeff := h.1
    have hends := h.ends
    have hnop : ((irKill ir x).row x).op = "nop" := irKill_iop_self
    refine ⟨iff_of_false (not_ends hnop (by decide)) hends, fun _ => ?_, fun he => absurd he hends⟩
    rw [act_nop hnop]
    rcases act_of_notMem_irnoeff (o := o) (e := e) (s := s) hno with hidle | ⟨u, hassign⟩
    · rw [hidle]
      exact ⟨rfl, hs⟩
    · rw [hassign]
      exact ⟨rfl, hs.one (fun hne => hne rfl) u⟩
  rw [irKill_row_of_ne hxid]
  refine hs.steps fun hop => ?_
  have huse := dceUsed_eq_zero.mp h.2 x hx
  exact ⟨fun ha => huse ⟨hxid, hop, .inl ha⟩, fun hb => huse ⟨hxid, hop, .inr (.inl hb)⟩,
    fun v hv heq => huse ⟨hxid, hop, .inr (.inr (heq ▸ hv))⟩⟩

end

/-- A function does the same without what nothing names. -/
theorem Removable.sameRuns (h : Removable ir f id) : SameRuns f root [] [] ir (irKill ir id) := by
  intro V W o c n _ _
  refine observed_eq (R := fun c c' => Agreed (· ≠ (id : Int)) c.entry c'.entry c.now c'.now) (fun c c' hc => ?_)
    (fun c c' hc => ?_) n ⟨rfl, rfl, fun _ _ => rfl, rfl, fun _ _ => rfl, rfl⟩
  · have hblk : c'.blk = c.blk := hc.blk
    apply stepBlock_matches
    · rw [hblk]
      exact Iff.rfl
    intro hin
    have hsame : (irKill ir id).binsn c'.blk = ir.binsn c.blk := congrArg ir.binsn hblk
    rw [hsame]
    exact runBlock_matches (R := fun _ => Agreed (· ≠ (id : Int)) c.entry c'.entry)
      (fun l x rest hx s s' hs => h.steps
        (mem_insns.mpr ⟨c.blk, hin, hx ▸ List.mem_append_right l List.mem_cons_self⟩) hs) hc
  · have hblk : c'.blk = c.blk := hc.blk
    have hprev : c'.prev = c.prev := hc.prev
    rw [Stand.seen, Stand.seen, hblk, hprev, hc.world]

theorem Removable.thinned (h : Trim ir f next root) (hr : Removable ir f id) (hid : id ∈ insns ir f) :
    Thinned f root ir (irKill ir id) ∧ Trim (irKill ir id) f next root := by
  have hτ : Renames ir f next root (swap id id) fun _ => True := fun w _ hne => absurd swap_same hne
  have hsame : SameRuns f root [] [] ir (irKill ir id) := hr.sameRuns
  rw [← dropped_self (f := f)] at hsame ⊢
  refine ⟨⟨dropped_size, dropped_fnblk, dropped_binsn, dropped_istr, fun _ hx => dropped_other hid hx,
    dropped_rows _ _ _ _, ?_⟩,
    h.scope.dropped hτ hr.ends, h.tame.dropped (Int.natCast_nonneg id) ?_, h.known.dropped fun hlt => hlt⟩
  · intro V W o bit zero c n _ hroot hfirst _
    exact hsame V W o c n hroot hfirst
  · intro z hz _
    exact Int.natCast_inj.mp hz ▸ hid

theorem dceOne_thinned {s : Rows × Nat} (h : Trim s.1 f next root) (hid : id ∈ insns s.1 f) :
    Thinned f root s.1 (dceOne f s id).1 ∧ Trim (dceOne f s id).1 f next root := by
  unfold dceOne
  split
  · next hr => exact Removable.thinned h hr hid
  · exact ⟨Std.Refl.refl _, h⟩

theorem dceSweep_thinned (h : Trim ir f next root) :
    Thinned f root ir (dceSweep ir f).1 ∧ Trim (dceSweep ir f).1 f next root := by
  refine List.foldlRecOn (motive := fun s => Thinned f root ir s.1 ∧ Trim s.1 f next root) (ir.fnblk f) (dceBlk f)
    (b := (ir, 0)) ⟨Std.Refl.refl _, h⟩ ?_
  rintro s ⟨hthin, htrim⟩ b hb
  refine List.foldlRecOn (motive := fun s => Thinned f root ir s.1 ∧ Trim s.1 f next root) (s.1.binsn b) (dceOne f)
    ⟨hthin, htrim⟩ ?_
  rintro s' ⟨hthin', htrim'⟩ id hid
  have hin : id ∈ insns s'.1 f := by
    refine mem_insns.mpr ⟨b, ?_, ?_⟩
    · rw [hthin'.fnblk]
      exact hb
    · rw [hthin'.binsn, ← hthin.binsn]
      exact hid
  obtain ⟨hone, hlast⟩ := dceOne_thinned htrim' hin
  exact ⟨IsTrans.trans _ _ _ hthin' hone, hlast⟩

/-- Dead code elimination ends, with a function that does the same. -/
theorem opDce_thinned (h : Trim ir f next root) :
    ∃ ir', opDce ir f = some ir' ∧ Thinned f root ir ir' ∧ Trim ir' f next root ∧ Settled ir' f := by
  obtain ⟨ir', hrun, -, hsettled⟩ := opDce_same ir f
  have hloop := hrun
  rw [opDce, opDceLoop_eq] at hloop
  obtain ⟨hthin, htrim⟩ := sweeps_keeps (P := fun ir' => Thinned f root ir ir' ∧ Trim ir' f next root)
    (fun ir' hir => by
      obtain ⟨hone, htrim⟩ := dceSweep_thinned hir.2
      exact ⟨IsTrans.trans _ _ _ hir.1 hone, htrim⟩) ⟨Std.Refl.refl _, h⟩ hloop
  exact ⟨ir', hrun, hthin, htrim, hsettled⟩

end IdCompiler.Ir

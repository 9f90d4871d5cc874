import IdCompiler.Ir.Walk

/-!
# All blocks walked and all phis filled

The walk of one block after the other, from the store that the first part left,
and the incoming edges of the phis. Beside the invariant of the walk, what it
leaves alone is carried along: the blocks' lists, their predecessors and the
phis, which have no operand until they are filled.
-/

namespace IdCompiler.Ir

variable {ir : Rows} {m m₀ m₁ m₂ : Mem} {f i j b x id n : Nat} {v : Int} {rest bs : List Nat}
  {P : Nat → Nat → Prop}

/-! ## What the walk leaves alone -/

/-- From one store to another with the same blocks, in which rows were at most killed or added. -/
structure Kin (m m' : Mem) : Prop where
  size : m.ir.size ≤ m'.ir.size
  fnblk : m'.ir.fnblk = m.ir.fnblk
  binsn : m'.ir.binsn = m.ir.binsn
  bpred : m'.ir.bpred = m.ir.bpred
  pra : m'.pra = m.pra
  phiof : m'.phiof = m.phiof
  iblk : ∀ x < m.ir.size, m'.ir.iblk x = m.ir.iblk x
  iop : ∀ x < m.ir.size, m'.ir.iop x = m.ir.iop x ∨ m'.ir.iop x = "nop"
  blank : ∀ x < m.ir.size, Blank m.ir x → Blank m'.ir x

theorem Kin.refl : Kin m m :=
  ⟨Nat.le_refl _, rfl, rfl, rfl, rfl, rfl, fun _ _ => rfl, fun _ _ => .inl rfl, fun _ _ => id⟩

theorem Kin.trans (h : Kin m₀ m₁) (h' : Kin m₁ m₂) : Kin m₀ m₂ := by
  constructor
  case size => exact Nat.le_trans h.size h'.size
  case fnblk => rw [h'.fnblk, h.fnblk]
  case binsn => rw [h'.binsn, h.binsn]
  case bpred => rw [h'.bpred, h.bpred]
  case pra => rw [h'.pra, h.pra]
  case phiof => rw [h'.phiof, h.phiof]
  case iblk => exact fun x hx => (h'.iblk x (Nat.lt_of_lt_of_le hx h.size)).trans (h.iblk x hx)
  case iop =>
    intro x hx
    cases h'.iop x (Nat.lt_of_lt_of_le hx h.size) with
    | inl heq => exact (h.iop x hx).imp heq.trans heq.trans
    | inr hnop => exact .inr hnop
  case blank => exact fun x hx hb => h'.blank x (Nat.lt_of_lt_of_le hx h.size) (h.blank x hx hb)

theorem Kin.insns (h : Kin m m₁) : insns m₁.ir f = insns m.ir f := by
  unfold Ir.insns
  rw [h.fnblk, h.binsn]

/-- A new value that is in no block. -/
theorem kin_leaf {op ty s : String} {out : Nat → Nat → Int} :
    Kin m { m with ir := irLeaf m.ir op ty (0 - 1) (0 - 1) s, outv := out } := by
  have hrow : ∀ x < m.ir.size, (irLeaf m.ir op ty (0 - 1) (0 - 1) s).row x = m.ir.row x :=
    fun x hx => irLeaf_row_of_ne (Nat.ne_of_lt hx)
  exact ⟨Nat.le_succ _, rfl, rfl, rfl, rfl, rfl, fun x hx => congrArg Row.blk (hrow x hx),
    fun x hx => .inl (iop_of_row (hrow x hx)), fun x hx hb => hb.of_row (hrow x hx)⟩

/-- A row that is killed was no phi. -/
theorem kin_kill {out : Nat → Nat → Int} (hop : m.ir.iop id ≠ "phi") :
    Kin m { m with ir := irKill m.ir id, outv := out } := by
  refine ⟨Nat.le_refl _, rfl, rfl, rfl, rfl, rfl, fun _ _ => rfl, fun x _ => ?_, fun x _ hb => ?_⟩
  · by_cases hx : x = id
    · exact .inr (by rw [hx]; exact irKill_iop_self)
    · exact .inl (irKill_iop_of_ne hx)
  · exact hb.of_row (irKill_row_of_ne fun heq => hop (heq ▸ hb.op))

/-- A phi that has no operand has none to replace. -/
theorem kin_drop (hop : m.ir.iop id ≠ "phi") : Kin m (m2rDrop m f id v) := by
  have hrauw : Kin m { m with ir := opRauw m.ir f id v } := by
    rw [opRauw_eq]
    refine ⟨Nat.le_refl _, rfl, rfl, rfl, rfl, rfl, fun _ _ => rfl, fun _ _ => .inl rfl, fun x _ hb => ?_⟩
    have hnone : swap id v (-1) = -1 := swap_of_ne (by omega)
    refine ⟨hb.op, ?_, ?_, ?_, hb.blk⟩
    · show (if x ∈ insns m.ir f then swap id v (m.ir.ia x) else m.ir.ia x) = -1
      rw [hb.ia, hnone, ite_self]
    · show (if x ∈ insns m.ir f then swap id v (m.ir.ib x) else m.ir.ib x) = -1
      rw [hb.ib, hnone, ite_self]
    · show (if x ∈ insns m.ir f then (m.ir.ilist x).map (swap id v) else m.ir.ilist x) = []
      rw [hb.list]
      exact ite_self _
  have hiop : (opRauw m.ir f id v).iop id ≠ "phi" := by
    rw [opRauw_eq]
    exact hop
  exact hrauw.trans (kin_kill hiop)

theorem kin_step : Kin m (m2rStep f i m id) := by
  unfold m2rStep
  by_cases hload : m.ir.iop id = "load"
  · rw [if_pos hload, m2rLoad]
    split
    · apply kin_drop
      rw [hload]
      decide
    · exact .refl
  · rw [if_neg hload]
    by_cases hstore : m.ir.iop id = "store"
    · rw [if_pos hstore, m2rStore]
      split
      · apply kin_kill
        rw [hstore]
        decide
      · exact .refl
    · rw [if_neg hstore]
      exact .refl

/-! ## One block -/

theorem Walked.congr {P' : Nat → Nat → Prop} (h : Walked f m rest P) (hP : ∀ i j, P' i j → P i j) :
    Walked f m rest P' :=
  ⟨h.size, h.placed, h.slots, h.done, h.todo, h.stored, fun i j hc => h.outs i j (hP i j hc)⟩

/-- A new value that is in no block changes nothing for the walk. -/
theorem Walked.leaf {op ty s : String} (h : Walked f m rest P) :
    Walked f { m with ir := irLeaf m.ir op ty (0 - 1) (0 - 1) s } rest P := by
  have hrow : ∀ x ∈ insns m.ir f, (irLeaf m.ir op ty (0 - 1) (0 - 1) s).row x = m.ir.row x :=
    fun x hx => irLeaf_row_of_ne (Nat.ne_of_lt (h.size x hx))
  have hnamed : ∀ {l : List Nat} {w : Int}, Named m.ir l w →
      Named (irLeaf m.ir op ty (0 - 1) (0 - 1) s) l w := fun hw => hw.imp_right Ready.leaf
  constructor
  case size => exact fun x hx => Nat.lt_succ_of_lt (h.size x hx)
  case placed => exact h.placed
  case slots => exact fun s hs => Nat.lt_succ_of_lt (h.slots s hs)
  case done =>
    intro x hx hout hlive w hw
    have hop := iop_of_row (hrow x hx)
    have hoperands := operands_of_row (hrow x hx)
    exact hnamed (h.done x hx hout (hop ▸ hlive) w (hoperands ▸ hw))
  case todo =>
    intro x l hs hlive
    have hx : x ∈ insns m.ir f := h.placed x (hs.subset List.mem_cons_self)
    have hop := iop_of_row (hrow x hx)
    have hia : (irLeaf m.ir op ty (0 - 1) (0 - 1) s).ia x = m.ir.ia x := congrArg Row.a (hrow x hx)
    have hrest : (irLeaf m.ir op ty (0 - 1) (0 - 1) s).ib x ::
        (irLeaf m.ir op ty (0 - 1) (0 - 1) s).ilist x = m.ir.ib x :: m.ir.ilist x :=
      congrArg (fun r : Row => r.b :: r.list) (hrow x hx)
    obtain ⟨hvalues, haddr⟩ := h.todo x l hs (hop ▸ hlive)
    refine ⟨fun w hw => hnamed (hvalues w (hrest ▸ hw)), ?_⟩
    show Named _ (x :: l) ((irLeaf m.ir op ty (0 - 1) (0 - 1) s).ia x) ∨ _
    rw [hia]
    refine haddr.imp hnamed ?_
    rintro ⟨hacc, y, hy, hias, hslot⟩
    have hyrow : (irLeaf m.ir op ty (0 - 1) (0 - 1) s).row y = m.ir.row y :=
      irLeaf_row_of_ne (Nat.ne_of_lt (h.slots y hy))
    exact ⟨hop.symm ▸ hacc, y, hy, hia.trans hias, (iop_of_row hyrow).trans hslot⟩
  case stored =>
    intro x hx hstore
    have hx' := hrow x (h.placed x hx)
    have hib : (irLeaf m.ir op ty (0 - 1) (0 - 1) s).ib x = m.ir.ib x := congrArg Row.b hx'
    show (irLeaf m.ir op ty (0 - 1) (0 - 1) s).ib x ≠ -1
    rw [hib]
    exact h.stored x hx ((iop_of_row hx').symm.trans hstore)
  case outs => exact fun i j hP => (h.outs i j hP).leaf

theorem Walked.put (h : Walked f m rest P) (hv : Ready m.ir rest v) :
    Walked f { m with outv := setCell m.outv i j v } rest fun i' j' => P i' j' ∨ i' = i ∧ j' = j := by
  refine ⟨h.size, h.placed, h.slots, h.done, h.todo, h.stored, fun i' j' hc => ?_⟩
  show Ready m.ir rest (setCell m.outv i j v i' j')
  by_cases hcell : i' = i ∧ j' = j
  · rw [hcell.1, hcell.2, setCell_self]
    exact hv
  · rw [setCell_of_ne hcell]
    exact h.outs i' j' (hc.resolve_right hcell)

/-- What a slot has where a block is entered: its phi, or a new undefined value. -/
theorem Walked.seed1 (h : Walked f m rest P) (hphi : i ≠ 0 → Ready m.ir rest (m.phiof i j)) :
    Kin m (m2rSeed1 i m j) ∧
      Walked f (m2rSeed1 i m j) rest fun i' j' => P i' j' ∨ i' = i ∧ j' = j := by
  unfold m2rSeed1 m2rIn
  by_cases hi : i = 0
  · rw [if_pos hi]
    refine ⟨kin_leaf, h.leaf.put ?_⟩
    have hrow : (irLeaf m.ir "const" (m.slotTy j) (0 - 1) (0 - 1) "undef").row m.ir.size =
        ⟨m.ir.size, "const", m.slotTy j, 0 - 1, 0 - 1, "undef", [], []⟩ := irLeaf_row_self
    have hop : (irLeaf m.ir "const" (m.slotTy j) (0 - 1) (0 - 1) "undef").iop m.ir.size = "const" :=
      congrArg Row.op hrow
    refine ⟨m.ir.size, rfl, Nat.lt_succ_self _, ?_, ?_⟩
    · rw [hop]
      decide
    · rw [hop]
      exact fun hload => absurd hload (by decide)
  · rw [if_neg hi]
    exact ⟨⟨Nat.le_refl _, rfl, rfl, rfl, rfl, rfl, fun _ _ => rfl, fun _ _ => .inl rfl, fun _ _ => id⟩,
      h.put (hphi hi)⟩

/-- The phis of the first part are ready at any time. -/
theorem Placed.ready {Q : Nat → Nat → Prop} (hp : Placed f m₀ m₁ Q) (hk : Kin m₁ m) (hc : Q i j) :
    Ready m.ir rest (m.phiof i j) := by
  obtain ⟨ph, hph, -, hlt, hblank⟩ := hp.phi i j hc
  have hop := (hk.blank ph hlt hblank).op
  rw [hk.phiof]
  refine ⟨ph, hph, Nat.lt_of_lt_of_le hlt hk.size, ?_, ?_⟩
  · rw [hop]
    decide
  · rw [hop]
    exact fun hload => absurd hload (by decide)

theorem Walked.seed {Q : Nat → Nat → Prop} (hp : Placed f m₀ m₁ Q) (hk : Kin m₁ m)
    (h : Walked f m rest P) (hphi : i ≠ 0 → ∀ j < m.pra.length, Q i j) :
    Kin m₁ (m2rSeed i m) ∧
      Walked f (m2rSeed i m) rest fun i' j' => P i' j' ∨ i' = i ∧ j' < m.pra.length := by
  have hrange : ∀ n ≤ m.pra.length, Kin m₁ ((List.range n).foldl (m2rSeed1 i) m) ∧
      Walked f ((List.range n).foldl (m2rSeed1 i) m) rest fun i' j' => P i' j' ∨ i' = i ∧ j' < n := by
    intro n hn
    induction n with
    | zero => exact ⟨hk, h.congr fun i' j' hc => hc.elim id fun hc => absurd hc.2 (Nat.not_lt_zero _)⟩
    | succ n ih =>
      obtain ⟨hkin, hwalked⟩ := ih (Nat.le_of_succ_le hn)
      obtain ⟨hone, hput⟩ := hwalked.seed1 (i := i) (j := n) fun hi => hp.ready hkin (hphi hi n hn)
      rw [List.range_succ, List.foldl_append]
      refine ⟨hkin.trans hone, hput.congr fun i' j' hc => ?_⟩
      rwa [or_assoc, ← and_or_left, ← Nat.lt_succ_iff_lt_or_eq]
  exact hrange _ (Nat.le_refl _)

theorem m2rStep_phi (hop : m.ir.iop id = "phi") : m2rStep f i m id = m := by
  unfold m2rStep
  rw [hop, if_neg (by decide), if_neg (by decide)]

theorem Walked.steps {l : List Nat} (h : Walked f m (l ++ rest) P) (hP : ∀ j < m.pra.length, P i j) :
    Kin m (l.foldl (m2rStep f i) m) ∧ Walked f (l.foldl (m2rStep f i) m) rest P := by
  induction l generalizing m with
  | nil => exact ⟨.refl, h⟩
  | cons id l ih =>
    have hone : Kin m (m2rStep f i m id) := kin_step
    have hstep : Walked f (m2rStep f i m id) (l ++ rest) P := h.step hP
    obtain ⟨hkin, hwalked⟩ := ih hstep (by rw [hone.pra]; exact hP)
    exact ⟨hone.trans hkin, hwalked⟩

/-- One block: first its phis, which the walk does not touch, then what was in it before. -/
theorem Placed.blk_eq {Q : Nat → Nat → Prop} (hp : Placed f m₀ m₁ Q) (hk : Kin m₁ (m2rSeed i m)) :
    m2rBlk f i b m = (m₀.ir.binsn b).foldl (m2rStep f i) (m2rSeed i m) := by
  obtain ⟨phs, hphs, hcells⟩ := hp.binsn b
  have hskip : ∀ l : List Nat, (∀ ph ∈ l, (m2rSeed i m).ir.iop ph = "phi") →
      l.foldl (m2rStep f i) (m2rSeed i m) = m2rSeed i m := by
    intro l hl
    induction l with
    | nil => rfl
    | cons ph l ih =>
      rw [List.foldl_cons, m2rStep_phi (hl ph List.mem_cons_self)]
      exact ih fun x hx => hl x (List.mem_cons_of_mem _ hx)
  have hall : ∀ ph ∈ phs, (m2rSeed i m).ir.iop ph = "phi" := by
    intro ph hph
    obtain ⟨i', j', hQ, -, heq⟩ := hcells ph hph
    obtain ⟨ph', heq', -, hlt, hblank⟩ := hp.phi i' j' hQ
    obtain rfl : ph' = ph := Int.natCast_inj.mp (heq'.symm.trans heq)
    exact (hk.blank ph' hlt hblank).op
  rw [m2rBlk, hk.binsn, hphs, List.foldl_append, hskip phs hall]

theorem Walked.blk {Q : Nat → Nat → Prop} (hp : Placed f m₀ m₁ Q) (hk : Kin m₁ m)
    (h : Walked f m (m₀.ir.binsn b ++ rest) P) (hphi : i ≠ 0 → ∀ j < m₀.pra.length, Q i j) :
    Kin m₁ (m2rBlk f i b m) ∧
      Walked f (m2rBlk f i b m) rest fun i' j' => P i' j' ∨ i' = i ∧ j' < m₀.pra.length := by
  have hpra : m.pra = m₀.pra := hk.pra.trans hp.pra
  obtain ⟨hkin, hseed⟩ := h.seed hp hk (by rw [hpra]; exact hphi)
  rw [hp.blk_eq hkin, ← hpra]
  have hcell : ∀ j < (m2rSeed i m).pra.length, P i j ∨ i = i ∧ j < m.pra.length := by
    intro j hj
    rw [hkin.pra, ← hk.pra] at hj
    exact .inr ⟨rfl, hj⟩
  obtain ⟨hsteps, hwalked⟩ := hseed.steps hcell
  exact ⟨hkin.trans hsteps, hwalked⟩

theorem Walked.walk (hp : Placed f m₀ m₁ (Cells m₀ (m₀.ir.fnblk f).length)) (hk : Kin m₁ m)
    (hbs : (m₀.ir.fnblk f).drop i = bs)
    (h : Walked f m (bs.flatMap m₀.ir.binsn) fun i' j' => i' < i ∧ j' < m₀.pra.length) :
    Kin m₁ (m2rWalk f i bs m) ∧ Walked f (m2rWalk f i bs m) []
      fun i' j' => i' < i + bs.length ∧ j' < m₀.pra.length := by
  induction bs generalizing i m with
  | nil => exact ⟨hk, h⟩
  | cons b bs ih =>
    have hi : i < (m₀.ir.fnblk f).length := by
      have hlen := congrArg List.length hbs
      rw [List.length_drop, List.length_cons] at hlen
      omega
    have hrest : (m₀.ir.fnblk f).drop (i + 1) = bs := by
      rw [← List.tail_drop, hbs]
      rfl
    have hcells : i ≠ 0 → ∀ j < m₀.pra.length, Cells m₀ (m₀.ir.fnblk f).length i j :=
      fun hne j hj => ⟨Nat.one_le_iff_ne_zero.mpr hne, hi, hj⟩
    rw [List.flatMap_cons] at h
    obtain ⟨hkin, hblk⟩ := h.blk hp hk hcells
    have hnext : Walked f (m2rBlk f i b m) (bs.flatMap m₀.ir.binsn) fun i' j' =>
        i' < i + 1 ∧ j' < m₀.pra.length := hblk.congr fun i' j' hc => by omega
    obtain ⟨hkin, hwalked⟩ := ih hkin hrest hnext
    refine ⟨hkin, hwalked.congr fun i' j' hc => ?_⟩
    rw [List.length_cons] at hc
    omega

/-! ## The whole walk -/

/-- Where the walk starts. -/
theorem Lowered.walked (h : Lowered ir f) {Q : Nat → Nat → Prop} (hp : Placed f (m2rInit ir f) m Q) :
    Walked f m (insns ir f) fun _ _ => False := by
  have hold : ∀ x ∈ insns ir f, m.ir.row x = ir.row x := fun x hx => hp.row x (h.size x hx)
  have hmem : ∀ x ∈ insns m.ir f, x ∈ insns ir f ∨ ∃ i j, Q i j ∧ m.phiof i j = (x : Nat) := by
    intro x hx
    obtain ⟨b, hb, hx⟩ := mem_insns.mp hx
    obtain ⟨phs, hphs, hcells⟩ := hp.binsn b
    rw [hphs] at hx
    cases List.mem_append.mp hx with
    | inl hx =>
      obtain ⟨i, j, hQ, -, heq⟩ := hcells x hx
      exact .inr ⟨i, j, hQ, heq⟩
    | inr hx => exact .inl (mem_insns.mpr ⟨b, hp.fnblk ▸ hb, hx⟩)
  have hready : ∀ {l : List Nat} {w : Int}, Defined ir l w → Ready m.ir l w := by
    rintro l w ⟨r, rfl, hlt, hop, hnot⟩
    have hsame : m.ir.iop r = ir.iop r := iop_of_row (hp.row r hlt)
    exact ⟨r, rfl, Nat.lt_of_lt_of_le hlt hp.size, by rwa [hsame], fun _ => hnot⟩
  have hcollect : ∀ s ∈ m2rCollect ir f, s ∈ insns ir f := by
    intro s hs
    unfold m2rCollect at hs
    cases hblks : ir.fnblk f with
    | nil =>
      rw [hblks] at hs
      exact absurd hs List.not_mem_nil
    | cons b bs =>
      rw [hblks] at hs
      exact mem_insns.mpr ⟨b, hblks ▸ List.mem_cons_self, (List.mem_filter.mp hs).1⟩
  constructor
  case size =>
    intro x hx
    cases hmem x hx with
    | inl hx => exact Nat.lt_of_lt_of_le (h.size x hx) hp.size
    | inr hc =>
      obtain ⟨i, j, hQ, heq⟩ := hc
      obtain ⟨ph, hph, -, hlt, -⟩ := hp.phi i j hQ
      obtain rfl : ph = x := Int.natCast_inj.mp (hph.symm.trans heq)
      exact hlt
  case placed =>
    intro x hx
    obtain ⟨b, hb, hx⟩ := mem_insns.mp hx
    obtain ⟨phs, hphs, -⟩ := hp.binsn b
    refine mem_insns.mpr ⟨b, hp.fnblk.symm ▸ hb, ?_⟩
    rw [hphs]
    exact List.mem_append_right _ hx
  case slots =>
    intro s hs
    rw [hp.pra] at hs
    exact Nat.lt_of_lt_of_le (h.size s (hcollect s hs)) hp.size
  case done =>
    intro x hx hout hlive v hv
    obtain ⟨i, j, hQ, heq⟩ := (hmem x hx).resolve_left hout
    obtain ⟨ph, hph, -, hlt, hblank⟩ := hp.phi i j hQ
    obtain rfl : ph = x := Int.natCast_inj.mp (hph.symm.trans heq)
    rw [operands, hblank.ia, hblank.ib, hblank.list] at hv
    simp only [List.mem_cons, List.not_mem_nil, or_false, or_self] at hv
    exact .inl hv
  case todo =>
    intro x l hs hlive
    have hrow := hold x (hs.subset List.mem_cons_self)
    have hop := iop_of_row hrow
    have hia : m.ir.ia x = ir.ia x := congrArg Row.a hrow
    have hrest : m.ir.ib x :: m.ir.ilist x = ir.ib x :: ir.ilist x :=
      congrArg (fun r : Row => r.b :: r.list) hrow
    obtain ⟨hvalues, haddr⟩ := h.named x l hs (hop ▸ hlive)
    rw [hrest, hia]
    refine ⟨fun w hw => (hvalues w hw).imp_right hready, ?_⟩
    rcases haddr with hnone | hdef | ⟨hacc, s, hs, hias, hslot⟩
    · exact .inl (.inl hnone)
    · exact .inl (.inr (hready hdef))
    · refine .inr ⟨hop.symm ▸ hacc, s, hp.pra.symm ▸ hs, hia.trans hias, ?_⟩
      rw [iop_of_row (hold s (hcollect s hs)), hslot]
  case stored =>
    intro x hx hstore
    have hib : m.ir.ib x = ir.ib x := congrArg Row.b (hold x hx)
    rw [hib]
    exact h.stored x hx ((iop_of_row (hold x hx)).symm.trans hstore)
  case outs => exact fun _ _ hc => hc.elim

end IdCompiler.Ir

import IdCompiler.Ir.Preserves
import IdCompiler.Ir.Thinned

/-!
# Slots become values that are no bits

What `op_mem2reg` adds are phis and undefined values of the slots' types, and
what it puts in an operand's place is another operand or one of these. So the
tests of a function stay as the lowering builds them.
-/

namespace IdCompiler.Ir

open IdCompiler.Core

variable {P ir ir' : Rows} {m m' : Mem} {next : Nat → Nat → Prop} {root : Nat} {f b i j n x id : Nat} {v w : Int}
  {Q : Mem → Prop}

/-! ## The steps of the pass -/

/-- What each step of the pass keeps, the pass keeps up to the end of the walk. -/
theorem m2rWalk_keeps (hpra : ∀ m, Q m → m.pra.length = n)
    (hphi : ∀ m i b j, Q m → b ∈ P.fnblk f → j < n → Q (m2rPhiOne i b m j))
    (hseed : ∀ m i j, Q m → j < n → Q (m2rSeed1 i m j))
    (hstep : ∀ m i b x, Q m → b ∈ P.fnblk f → x ∈ m.ir.binsn b → Q (m2rStep f i m x)) (h : Q (m2rInit P f)) :
    Q (m2rWalk f 0 (P.fnblk f) (m2rPhis (m2rInit P f) f)) := by
  have hphis : ∀ bs i m, bs ⊆ P.fnblk f → Q m → Q (m2rPhisFrom i bs m) := by
    intro bs
    induction bs with
    | nil => exact fun _ _ _ hm => hm
    | cons b bs ih =>
      intro i m hbs hm
      refine ih (i + 1) _ (List.subset_of_cons_subset hbs) ?_
      refine List.foldlRecOn (motive := Q) (List.range m.pra.length) _ hm fun m' hm' j hj => ?_
      exact hphi m' i b j hm' (hbs List.mem_cons_self) (hpra m hm ▸ List.mem_range.mp hj)
  have hwalk : ∀ bs i m, bs ⊆ P.fnblk f → Q m → Q (m2rWalk f i bs m) := by
    intro bs
    induction bs with
    | nil => exact fun _ _ _ hm => hm
    | cons b bs ih =>
      intro i m hbs hm
      have hm : Q (m2rSeed i m) := List.foldlRecOn (motive := Q) (List.range m.pra.length) _ hm
        fun m' hm' j hj => hseed m' i j hm' (hpra m hm ▸ List.mem_range.mp hj)
      refine ih (i + 1) _ (List.subset_of_cons_subset hbs) (And.left (b := (m2rBlk f i b m).ir.binsn =
        (m2rSeed i m).ir.binsn) ?_)
      refine List.foldlRecOn (motive := fun m' => Q m' ∧ m'.ir.binsn = (m2rSeed i m).ir.binsn) _ _ ⟨hm, rfl⟩ ?_
      rintro m' ⟨hm', hsame⟩ x hx
      rw [← hsame] at hx
      exact ⟨hstep m' i b x hm' (hbs List.mem_cons_self) hx, kin_step.binsn.trans hsame⟩
  exact hwalk _ 0 _ (List.Subset.refl _) (hphis _ 1 _ (List.tail_subset _) h)

theorem m2rFill_keeps (hinc : ∀ m ph j pb, Q m → Q (m2rIncAt f ph j m pb)) {bs : List Nat} (h : Q m) :
    Q (m2rFill f i bs m) := by
  induction bs generalizing i m with
  | nil => exact h
  | cons b bs ih =>
    refine ih (List.foldlRecOn (motive := Q) (List.range m.pra.length) _ h fun m' hm' j _ => ?_)
    exact List.foldlRecOn (motive := Q) (m'.ir.bpred b) _ hm' fun m'' hm'' pb _ => hinc m'' _ j pb hm''

/-! ## What is there at any time -/

/-- A value that is no widened one of another function. -/
def Plain (P : Rows) (f : Nat) (v : Int) : Prop := ∀ z < P.size, v = (z : Nat) → P.iop z = "zext" → z ∈ insns P f

/-- A row of a function, or one that the pass adds. -/
def Own (P : Rows) (f : Nat) (m : Mem) (x : Nat) : Prop := x ∈ insns P f ∨ P.size ≤ x ∧ x < m.ir.size

/-- The store of a function at any time of the pass. -/
structure Grown (P : Rows) (f : Nat) (m : Mem) : Prop where
  pra : m.pra = m2rCollect P f
  size : P.size ≤ m.ir.size
  old : ∀ x < P.size, m.ir.istr x = P.istr x ∧
    (m.ir.iop x = P.iop x ∧ m.ir.ity x = P.ity x ∨ m.ir.iop x = "nop" ∧ m.ir.ity x = "")
  new : ∀ x, P.size ≤ x → x < m.ir.size → m.ir.ity x ≠ "i1" ∧
    (m.ir.iop x = "phi" ∨ m.ir.iop x = "nop" ∨ m.ir.iop x = "const" ∧ m.ir.istr x = "undef")
  blocks : ∀ b ∈ P.fnblk f, ∀ x ∈ m.ir.binsn b, Own P f m x ∧ (x ∈ insns P f ∨ m.ir.iop x ≠ "const")
  plain : ∀ x, Own P f m x → m.ir.iop x ≠ "nop" → ∀ v ∈ operands m.ir x, Plain P f v
  outs : ∀ i j, Plain P f (m.outv i j)
  phis : ∀ i j, Plain P f (m.phiof i j)

theorem plain_none : Plain P f (0 - 1) := fun z _ heq => absurd heq (by omega)

theorem plain_new (h : P.size ≤ x) : Plain P f (x : Nat) := fun z hz heq => absurd heq (by omega)

theorem plain_setCell {t : Nat → Nat → Int} (h : ∀ i j, Plain P f (t i j)) (hv : Plain P f v) (i j i' j' : Nat) :
    Plain P f (setCell t i j v i' j') := by
  by_cases hcell : i' = i ∧ j' = j
  · rw [hcell.1, hcell.2, setCell_self]
    exact hv
  · rw [setCell_of_ne hcell]
    exact h i' j'

theorem mem_operands_dropped (h : w ∈ operands (dropped ir f id v) x) :
    ∃ u ∈ operands ir x, w = u ∨ w = swap id v u := by
  by_cases hx : x ∈ insns ir f
  · rw [operands_dropped hx] at h
    obtain ⟨u, hu, heq⟩ := List.mem_map.mp h
    exact ⟨u, hu, .inr heq.symm⟩
  · have hsame : operands (dropped ir f id v) x = operands ir x := by
      rw [dropped_eq]
      unfold operands irKill rauwIn
      simp only [if_neg hx]
    exact ⟨w, hsame ▸ h, .inl rfl⟩

theorem Plain.swap (hv : Plain P f v) (hw : Plain P f w) : Plain P f (Ir.swap id v w) := by
  unfold Ir.swap
  split
  · exact hv
  · exact hw

section

variable (hl : Lowered P f) (h : Grown P f m)
include hl h

theorem Grown.lt (hx : Own P f m x) : x < m.ir.size :=
  hx.elim (fun hin => Nat.lt_of_lt_of_le (hl.size x hin) h.size) fun hnew => hnew.2

/-- No slot has the type of a bit. -/
theorem Grown.slotTy (ht : Tame P f) (hj : j < (m2rCollect P f).length) : m.slotTy j ≠ "i1" := by
  have hmem : (m2rCollect P f)[j] ∈ m2rCollect P f := List.getElem_mem hj
  obtain ⟨hin, hop⟩ := mem_m2rCollect hmem
  rw [Mem.slotTy, h.pra, List.getD_eq_getElem?_getD, List.getElem?_eq_getElem hj, Option.getD_some]
  rcases (h.old _ (hl.size _ hin)).2 with ⟨-, hty⟩ | ⟨-, hty⟩
  · rw [hty]
    exact ht.slots _ hin (.inl hop)
  · rw [hty]
    decide

/-- A new row for a slot, in no block. -/
theorem Grown.leaf (op s : String) {ty : String} (hty : ty ≠ "i1") (hop : op = "phi" ∨ op = "const" ∧ s = "undef") :
    Grown P f { m with ir := irLeaf m.ir op ty (0 - 1) (0 - 1) s } := by
  have hold : ∀ {x}, x ≠ m.ir.size → (irLeaf m.ir op ty (0 - 1) (0 - 1) s).row x = m.ir.row x :=
    fun hne => irLeaf_row_of_ne hne
  have hself : (irLeaf m.ir op ty (0 - 1) (0 - 1) s).row m.ir.size = ⟨m.ir.size, op, ty, 0 - 1, 0 - 1, s, [], []⟩ :=
    irLeaf_row_self
  have hop_of : ∀ {x}, x ≠ m.ir.size → (irLeaf m.ir op ty (0 - 1) (0 - 1) s).iop x = m.ir.iop x :=
    fun hne => congrArg Row.op (hold hne)
  have hty_of : ∀ {x}, x ≠ m.ir.size → (irLeaf m.ir op ty (0 - 1) (0 - 1) s).ity x = m.ir.ity x :=
    fun hne => congrArg Row.ty (hold hne)
  have hstr_of : ∀ {x}, x ≠ m.ir.size → (irLeaf m.ir op ty (0 - 1) (0 - 1) s).istr x = m.ir.istr x :=
    fun hne => congrArg Row.str (hold hne)
  constructor
  case pra => exact h.pra
  case size => exact Nat.le_succ_of_le h.size
  case old =>
    intro x hx
    have hle := h.size
    have hne : x ≠ m.ir.size := by omega
    show (irLeaf m.ir op ty (0 - 1) (0 - 1) s).istr x = _ ∧ ((irLeaf m.ir op ty (0 - 1) (0 - 1) s).iop x = _ ∧
      (irLeaf m.ir op ty (0 - 1) (0 - 1) s).ity x = _ ∨ (irLeaf m.ir op ty (0 - 1) (0 - 1) s).iop x = _ ∧
      (irLeaf m.ir op ty (0 - 1) (0 - 1) s).ity x = _)
    rw [hop_of hne, hty_of hne, hstr_of hne]
    exact h.old x hx
  case new =>
    intro x hle hlt
    have hlt : x < m.ir.size + 1 := hlt
    show (irLeaf m.ir op ty (0 - 1) (0 - 1) s).ity x ≠ _ ∧ ((irLeaf m.ir op ty (0 - 1) (0 - 1) s).iop x = _ ∨
      (irLeaf m.ir op ty (0 - 1) (0 - 1) s).iop x = _ ∨ (irLeaf m.ir op ty (0 - 1) (0 - 1) s).iop x = _ ∧
      (irLeaf m.ir op ty (0 - 1) (0 - 1) s).istr x = _)
    by_cases hx : x = m.ir.size
    · have hrow := congrArg Row.op hself
      rw [hx]
      refine ⟨fun heq => hty ((congrArg Row.ty hself).symm.trans heq), ?_⟩
      rcases hop with hphi | ⟨hconst, hundef⟩
      · exact .inl (hrow.trans hphi)
      · exact .inr (.inr ⟨hrow.trans hconst, (congrArg Row.str hself).trans hundef⟩)
    · rw [hop_of hx, hty_of hx, hstr_of hx]
      exact h.new x hle (by omega)
  case blocks =>
    intro b hb x hx
    obtain ⟨hown, hop⟩ := h.blocks b hb x hx
    have hlt := h.lt hl hown
    refine ⟨hown.imp_right fun hnew => ⟨hnew.1, Nat.lt_succ_of_lt hnew.2⟩, hop.imp_right fun hno => ?_⟩
    show (irLeaf m.ir op ty (0 - 1) (0 - 1) s).iop x ≠ _
    rw [hop_of (Nat.ne_of_lt hlt)]
    exact hno
  case plain =>
    intro x hown hlive v hv
    by_cases hx : x = m.ir.size
    · have hnone : operands (irLeaf m.ir op ty (0 - 1) (0 - 1) s) m.ir.size = [0 - 1, 0 - 1] :=
        congrArg (fun r : Row => r.a :: r.b :: r.list) hself
      have hv : v ∈ operands (irLeaf m.ir op ty (0 - 1) (0 - 1) s) x := hv
      rw [hx, hnone] at hv
      have hv : v = 0 - 1 := by simpa using hv
      exact hv ▸ plain_none
    · have hlive : (irLeaf m.ir op ty (0 - 1) (0 - 1) s).iop x ≠ "nop" := hlive
      have hv : v ∈ operands (irLeaf m.ir op ty (0 - 1) (0 - 1) s) x := hv
      rw [hop_of hx] at hlive
      rw [operands_of_row (hold hx)] at hv
      refine h.plain x (hown.imp_right fun hnew => ⟨hnew.1, ?_⟩) hlive v hv
      have hlt : x < m.ir.size + 1 := hnew.2
      omega
  case outs => exact h.outs
  case phis => exact h.phis

/-- The rows are put into a block. -/
theorem Grown.phiOne (ht : Tame P f) (i b : Nat) (hj : j < (m2rCollect P f).length) : Grown P f (m2rPhiOne i b m j) := by
  obtain ⟨hpra, hsize, hold, hnew, hblocks, hplain, houts, hphis⟩ := h.leaf hl "phi" "" (h.slotTy hl ht hj) (.inl rfl)
  have hphi : (irLeaf m.ir "phi" (m.slotTy j) (0 - 1) (0 - 1) "").iop m.ir.size = "phi" := Function.update_self ..
  refine ⟨hpra, hsize, hold, hnew, fun c hc x hx => ?_, hplain, houts, ?_⟩
  · rw [m2rPhiOne_binsn] at hx
    by_cases hcb : c = b
    · rw [hcb, Function.update_self] at hx
      cases List.mem_cons.mp hx with
      | inl heq =>
        rw [heq]
        refine ⟨.inr ⟨h.size, Nat.lt_succ_self _⟩, .inr ?_⟩
        show (irLeaf m.ir "phi" (m.slotTy j) (0 - 1) (0 - 1) "").iop m.ir.size ≠ "const"
        rw [hphi]
        decide
      | inr hx => exact hblocks b (hcb ▸ hc) x hx
    · rw [Function.update_of_ne hcb] at hx
      exact hblocks c hc x hx
  · exact plain_setCell h.phis (plain_new h.size) i j

theorem Grown.seed1 (ht : Tame P f) (i : Nat) (hj : j < (m2rCollect P f).length) : Grown P f (m2rSeed1 i m j) := by
  unfold m2rSeed1 m2rIn
  split
  · obtain ⟨hpra, hsize, hold, hnew, hblocks, hplain, houts, hphis⟩ :=
      h.leaf hl "const" "undef" (h.slotTy hl ht hj) (.inr ⟨rfl, rfl⟩)
    exact ⟨hpra, hsize, hold, hnew, hblocks, hplain, plain_setCell h.outs (plain_new h.size) i j, hphis⟩
  · exact ⟨h.pra, h.size, h.old, h.new, h.blocks, h.plain, plain_setCell h.outs (h.phis i j) i j, h.phis⟩

omit hl in
/-- A row is killed, and its uses are replaced by a value of the function. -/
theorem Grown.dropped (id : Nat) (hv : ∀ w, Plain P f w → Plain P f (Ir.swap id v w)) :
    Grown P f { m with ir := Ir.dropped m.ir f id v } := by
  have hrows := dropped_rows m.ir f id v
  constructor
  case pra => exact h.pra
  case size =>
    rw [dropped_size]
    exact h.size
  case old =>
    intro x hx
    obtain ⟨hstr, hrow⟩ := h.old x hx
    refine ⟨(congrFun dropped_istr x).trans hstr, ?_⟩
    rcases hrows x with ⟨hop, hty⟩ | hgone
    · show (Ir.dropped m.ir f id v).iop x = _ ∧ (Ir.dropped m.ir f id v).ity x = _ ∨
        (Ir.dropped m.ir f id v).iop x = _ ∧ (Ir.dropped m.ir f id v).ity x = _
      rw [hop, hty]
      exact hrow
    · exact .inr hgone
  case new =>
    intro x hle hlt
    rw [dropped_size] at hlt
    obtain ⟨hnew, hkind⟩ := h.new x hle hlt
    show (Ir.dropped m.ir f id v).ity x ≠ _ ∧ ((Ir.dropped m.ir f id v).iop x = _ ∨
      (Ir.dropped m.ir f id v).iop x = _ ∨ (Ir.dropped m.ir f id v).iop x = _ ∧ (Ir.dropped m.ir f id v).istr x = _)
    rw [dropped_istr]
    rcases hrows x with ⟨hop, hty⟩ | ⟨hop, hty⟩
    · rw [hop, hty]
      exact ⟨hnew, hkind⟩
    · rw [hty]
      exact ⟨by decide, .inr (.inl hop)⟩
  case blocks =>
    intro b hb x hx
    rw [dropped_binsn] at hx
    obtain ⟨hown, hop⟩ := h.blocks b hb x hx
    refine ⟨?_, hop.imp_right fun hno hconst => ?_⟩
    · unfold Own
      rw [dropped_size]
      exact hown
    · rcases hrows x with ⟨hsame, -⟩ | ⟨hnop, -⟩
      · exact hno (hsame.symm.trans hconst)
      · exact absurd (hnop.symm.trans hconst) (by decide)
  case plain =>
    intro x hown hlive w hw
    unfold Own at hown
    rw [dropped_size] at hown
    have hold := h.plain x hown (dropped_live hlive ▸ hlive)
    obtain ⟨u, hu, rfl | rfl⟩ := mem_operands_dropped hw
    · exact hold w hu
    · exact hv u (hold u hu)
  case outs => exact h.outs
  case phis => exact h.phis

omit hl in
theorem Grown.put (i j : Nat) (hv : Plain P f v) : Grown P f { m with outv := setCell m.outv i j v } :=
  ⟨h.pra, h.size, h.old, h.new, h.blocks, h.plain, plain_setCell h.outs hv i j, h.phis⟩

omit hl in
/-- An instruction of the walk. -/
theorem Grown.step (i : Nat) (hb : b ∈ P.fnblk f) (hx : x ∈ m.ir.binsn b) : Grown P f (m2rStep f i m x) := by
  unfold m2rStep m2rLoad m2rStore
  by_cases hload : m.ir.iop x = "load"
  · rw [if_pos hload]
    split
    · exact h.dropped x fun w hw => (h.outs _ _).swap hw
    · exact h
  rw [if_neg hload]
  by_cases hstore : m.ir.iop x = "store"
  · rw [if_pos hstore]
    split
    · have hlive : m.ir.iop x ≠ "nop" := by
        rw [hstore]
        decide
      have hib := h.plain x (h.blocks b hb x hx).1 hlive (m.ir.ib x) (List.mem_cons_of_mem _ List.mem_cons_self)
      have hkill := (h.put i (m.slotOf (m.ir.ia x)).toNat hib).dropped x (v := (x : Nat)) fun w hw => by
        rwa [swap_same]
      rw [dropped_self] at hkill
      exact hkill
    · exact h
  · rw [if_neg hstore]
    exact h

omit hl in
/-- An incoming edge of a phi. -/
theorem Grown.incAt (ph j pb : Nat) : Grown P f (m2rIncAt f ph j m pb) := by
  refine ⟨h.pra, h.size, h.old, h.new, h.blocks, fun x hown hlive w hw => ?_, h.outs, h.phis⟩
  have hold := h.plain x hown hlive
  have hw : w ∈ m.ir.ia x :: m.ir.ib x :: Function.update m.ir.ilist ph _ x := hw
  by_cases hx : x = ph
  · subst hx
    rw [Function.update_self, ← List.cons_append, ← List.cons_append] at hw
    rcases List.mem_append.mp hw with hw | hw
    · exact hold w hw
    · exact List.mem_singleton.mp hw ▸ h.outs _ _
  · rw [Function.update_of_ne hx] at hw
    exact hold w hw

end

theorem grown_m2rInit (ht : Tame P f) : Grown P f (m2rInit P f) := by
  refine ⟨rfl, Nat.le_refl _, fun x _ => ⟨rfl, .inl ⟨rfl, rfl⟩⟩, fun x hle hlt => ?_, fun b hb x hx => ?_,
    fun x hown hlive v hv => ?_, fun _ _ => plain_none, fun _ _ => plain_none⟩
  · exact absurd hlt (Nat.not_lt.mpr hle)
  · have hin := mem_insns.mpr ⟨b, hb, hx⟩
    exact ⟨.inl hin, .inl hin⟩
  · rintro z - rfl hop
    have hin : x ∈ insns P f := hown.resolve_right fun hnew => absurd hnew.2 (Nat.not_lt.mpr hnew.1)
    exact ht.placed x hin hlive z hv hop

theorem grown_m2rFilled (hl : Lowered P f) (ht : Tame P f) : Grown P f (m2rFilled P f) := by
  refine m2rFill_keeps (fun m ph j pb h => h.incAt ph j pb) (m2rWalk_keeps (n := (m2rCollect P f).length)
    (fun m h => by rw [h.pra]) (fun m i b j h _ hj => h.phiOne hl ht i b hj) (fun m i j h hj => h.seed1 hl ht i hj)
    (fun m i b x h hb hx => h.step i hb hx) (grown_m2rInit ht))

/-! ## The other functions -/

/-- What the pass leaves of the other functions: all of it. -/
structure Aside (P : Rows) (f : Nat) (ir : Rows) : Prop where
  fnblk : ir.fnblk = P.fnblk
  binsn : ∀ b, b ∉ P.fnblk f → ir.binsn b = P.binsn b
  row : ∀ x < P.size, x ∉ insns P f → ir.row x = P.row x

section

variable (h : Grown P f m) (ha : Aside P f m.ir)
include h ha

theorem Grown.own (hx : x ∈ insns m.ir f) : Own P f m x := by
  obtain ⟨b, hb, hin⟩ := mem_insns.mp hx
  exact (h.blocks b (ha.fnblk ▸ hb) x hin).1

/-- What is killed is a row of the function. -/
theorem Aside.dropped {id : Nat} (hid : Own P f m id) : Aside P f (Ir.dropped m.ir f id v) := by
  refine ⟨dropped_fnblk.trans ha.fnblk, fun b hb => ?_, fun x hx hno => ?_⟩
  · rw [dropped_binsn]
    exact ha.binsn b hb
  · have hother : ∀ {y}, Own P f m y → x ≠ y := by
      rintro y hy rfl
      exact hy.elim hno fun hnew => Nat.not_lt.mpr hnew.1 hx
    have hout : x ∉ insns m.ir f := fun hin => hother (h.own ha hin) rfl
    rw [dropped_eq, irKill_row_of_ne (hother hid), ← ha.row x hx hno]
    unfold Rows.row rauwIn
    simp only [if_neg hout]

theorem Aside.step (i : Nat) (hb : b ∈ P.fnblk f) (hx : x ∈ m.ir.binsn b) : Aside P f (m2rStep f i m x).ir := by
  have hown := (h.blocks b hb x hx).1
  have hkill : Aside P f (irKill m.ir x) := by
    rw [← dropped_self (f := f)]
    exact ha.dropped h hown
  unfold m2rStep m2rLoad m2rStore
  split
  · split
    · exact ha.dropped h hown
    · exact ha
  · split
    · split
      · exact hkill
      · exact ha
    · exact ha

theorem Aside.leaf {op ty s : String} : Aside P f (irLeaf m.ir op ty (0 - 1) (0 - 1) s) := by
  refine ⟨ha.fnblk, ha.binsn, fun x hx hno => ?_⟩
  have hle := h.size
  rw [irLeaf_row_of_ne (by omega)]
  exact ha.row x hx hno

theorem Aside.phiOne (i j : Nat) (hb : b ∈ P.fnblk f) : Aside P f (m2rPhiOne i b m j).ir := by
  have hleaf : Aside P f (irLeaf m.ir "phi" (m.slotTy j) (0 - 1) (0 - 1) "") := ha.leaf h
  refine ⟨hleaf.fnblk, fun c hc => ?_, hleaf.row⟩
  have hne : c ≠ b := fun heq => hc (heq ▸ hb)
  rw [m2rPhiOne_binsn, Function.update_of_ne hne]
  exact ha.binsn c hc

theorem Aside.seed1 (i j : Nat) : Aside P f (m2rSeed1 i m j).ir := by
  unfold m2rSeed1 m2rIn
  split
  · exact ha.leaf h
  · exact ha

end

/-- When all phis are filled. -/
theorem aside_m2rFilled (hl : Lowered P f) (ht : Tame P f)
    (hpreds : ∀ b ∈ P.fnblk f, ∀ pb ∈ P.bpred b, pb ∈ P.fnblk f) : Aside P f (m2rFilled P f).ir := by
  have hwalk : Grown P f (m2rWalk f 0 (P.fnblk f) (m2rPhis (m2rInit P f) f)) ∧
      Aside P f (m2rWalk f 0 (P.fnblk f) (m2rPhis (m2rInit P f) f)).ir :=
    m2rWalk_keeps (Q := fun m => Grown P f m ∧ Aside P f m.ir) (n := (m2rCollect P f).length)
      (fun m h => by rw [h.1.pra]) (fun m i b j h hb hj => ⟨h.1.phiOne hl ht i b hj, h.2.phiOne h.1 i j hb⟩)
      (fun m i j h hj => ⟨h.1.seed1 hl ht i hj, h.2.seed1 h.1 i j⟩)
      (fun m i b x h hb hx => ⟨h.1.step i hb hx, h.2.step h.1 i hb hx⟩)
      ⟨grown_m2rInit ht, rfl, fun _ _ => rfl, fun _ _ _ => rfl⟩
  have hpassed := hl.passed
  have hfill : Filling f _ (m2rFilled P f) _ := hpassed.filling hpreds
  have hother : ∀ x < P.size, (m2rFilled P f).ir.row x =
      (m2rWalk f 0 (P.fnblk f) (m2rPhis (m2rInit P f) f)).ir.row x := by
    intro x hx
    obtain ⟨hlist, hblk⟩ := hfill.other x fun i j hc heq => by
      obtain ⟨ph, hph, hge, -⟩ := hpassed.placed.phi i j (hpassed.cells.mp hc)
      have hge : P.size ≤ ph := hge
      rw [hpassed.kin.phiof, hph] at heq
      omega
    obtain ⟨list, blk, heq⟩ := hfill.edges
    rw [heq] at hlist hblk ⊢
    unfold Rows.row
    rw [hlist, hblk]
    rfl
  obtain ⟨list, blk, heq⟩ := hfill.edges
  refine ⟨by rw [heq]; exact hwalk.2.fnblk, fun b hb => by rw [heq]; exact hwalk.2.binsn b hb, fun x hx hno => ?_⟩
  rw [hother x hx]
  exact hwalk.2.row x hx hno

/-! ## The filled store -/

section

variable {m₁ : Mem} {τ : Int → Int} (h : Turning P f m₁ m m' τ) (hg : Grown P f m')
include h hg

/-- An instruction of the filled store is an old one, or it computes no bit and is a phi or killed. -/
theorem Turning.cases (hx : x ∈ insns m'.ir f) :
    x ∈ insns P f ∧ m'.ir.iop x = P.iop x ∧ m'.ir.ity x = P.ity x ∨
      m'.ir.ity x ≠ "i1" ∧ (m'.ir.iop x = "phi" ∨ m'.ir.iop x = "nop") := by
  obtain ⟨b, hb, hin⟩ := mem_insns.mp hx
  rw [h.same.1] at hb
  obtain ⟨hown, hop⟩ := hg.blocks b hb x hin
  by_cases hold : x ∈ insns P f
  · rcases (hg.old x (h.passed.lowered.size x hold)).2 with hsame | ⟨hnop, hty⟩
    · exact .inl ⟨hold, hsame⟩
    · refine .inr ⟨?_, .inr hnop⟩
      rw [hty]
      decide
  · obtain ⟨hle, hlt⟩ := hown.resolve_left hold
    obtain ⟨hty, hkind⟩ := hg.new x hle hlt
    exact .inr ⟨hty, hkind.imp_right fun hkind => hkind.resolve_right fun hc => hop.resolve_left hold hc.1⟩

theorem Turning.old {op : String} (hx : x ∈ insns m'.ir f) (hop : m'.ir.iop x = op) (hphi : op ≠ "phi")
    (hnop : op ≠ "nop") : x ∈ insns P f ∧ P.iop x = op := by
  rcases h.cases hg hx with ⟨hin, hsame, -⟩ | ⟨-, hkind | hkind⟩
  · exact ⟨hin, hsame.symm.trans hop⟩
  · exact absurd (hop.symm.trans hkind) hphi
  · exact absurd (hop.symm.trans hkind) hnop

theorem Turning.tame (ht : Tame P f) (hroot : (P.fnblk f).head? = some root) (hpreds : Preds P f)
    (hknown : Known m'.ir f) : Tame m'.ir f := by
  have hpromoted := h.promoted hroot hpreds
  constructor
  case consts =>
    intro x hx hop
    obtain ⟨hin, hold⟩ := h.old hg hx hop (by decide) (by decide)
    exact ht.consts x hin hold
  case slots =>
    intro x hx hop
    rcases h.cases hg hx with ⟨hin, hsame, hty⟩ | ⟨hty, -⟩
    · rw [hty]
      exact ht.slots x hin (hsame ▸ hop)
    · exact hty
  case widens =>
    intro x hx hop
    obtain ⟨hin, hold⟩ := h.old hg hx hop (by decide) (by decide)
    have hno : ¬Slotted P f x := by
      rintro ⟨hacc | hacc, -⟩
      · exact absurd (hold.symm.trans hacc) (by decide)
      · exact absurd (hold.symm.trans hacc) (by decide)
    have hia : m'.ir.ia x = τ (P.ia x) := congrArg Row.a (hpromoted.row x hin hno)
    rw [hia]
    by_cases hsame : τ (P.ia x) = P.ia x
    · rw [hsame]
      exact ht.widens x hin hold
    · obtain ⟨y, hy, heq, hload, hslot⟩ := hpromoted.moved _ hsame
      rw [heq]
      exact (h.entering.traced.ready y hy List.not_mem_nil hload hslot).nonneg
  case placed =>
    intro x hx hlive z hz hop
    have hlt : z < m'.ir.size := Int.ofNat_lt.mp (hknown x hx hlive z hz)
    have hown : Own P f m' x := by
      obtain ⟨b, hb, hin⟩ := mem_insns.mp hx
      exact (hg.blocks b (h.same.1 ▸ hb) x hin).1
    have hplain := hg.plain x hown hlive z hz
    by_cases hold : z < P.size
    · rcases (hg.old z hold).2 with ⟨hsame, -⟩ | ⟨hnop, -⟩
      · exact hpromoted.sub (hplain z hold rfl (hsame.symm.trans hop))
      · exact absurd (hnop.symm.trans hop) (by decide)
    · obtain ⟨-, hphi | hnop | ⟨hconst, -⟩⟩ := hg.new z (Nat.not_lt.mp hold) hlt
      · exact absurd (hphi.symm.trans hop) (by decide)
      · exact absurd (hnop.symm.trans hop) (by decide)
      · exact absurd (hconst.symm.trans hop) (by decide)

end

theorem Wired.known (h : Wired ir f) : Known ir f := by
  intro x hx hlive v hv
  rcases h.named x hx hlive v hv with rfl | ⟨r, rfl, hlt, -⟩
  · omega
  · exact Int.ofNat_lt.mpr hlt

/-- Values that the function may start with may also be there in the filled store. -/
theorem Grown.starts {V : Type*} {bit : V → Prop} {zero : V} {env env' : Int → V} (h : Grown P f m)
    (hs : Starts P bit zero env) (henv : ∀ w < (P.size : Int), env' w = env w) : Starts m.ir bit zero env' := by
  refine ⟨fun x hx hty => ?_, fun c hc hop hstr => ?_⟩
  · by_cases hold : x < P.size
    · rw [henv x (Int.ofNat_lt.mpr hold)]
      rcases (h.old x hold).2 with ⟨-, hsame⟩ | ⟨-, hnone⟩
      · exact hs.bits x hold (hsame.symm.trans hty)
      · exact absurd (hnone.symm.trans hty) (by decide)
    · exact absurd hty (h.new x (Nat.not_lt.mp hold) hx).1
  · by_cases hold : c < P.size
    · rw [henv c (Int.ofNat_lt.mpr hold)]
      obtain ⟨histr, ⟨hsame, -⟩ | ⟨hnop, -⟩⟩ := h.old c hold
      · exact hs.zeros c hold (hsame.symm.trans hop) (histr.symm.trans hstr)
      · exact absurd (hnop.symm.trans hop) (by decide)
    · obtain ⟨-, hphi | hnop | ⟨-, hundef⟩⟩ := h.new c (Nat.not_lt.mp hold) hc
      · exact absurd (hphi.symm.trans hop) (by decide)
      · exact absurd (hnop.symm.trans hop) (by decide)
      · exact absurd (hundef.symm.trans hstr) (by decide)

/-! ## From there on -/

theorem Folding.thinned (hw : Wired ir f) (h : Trim ir f next root) (hc : Folding ir f b id v) :
    Thinned f root ir (dropped ir f id v) ∧ Trim (dropped ir f id v) f next root := by
  have hr := hc.replaces h.scope
  have hin := mem_insns.mpr ⟨b, hc.blk, hc.mem⟩
  have hlive : ir.iop id ≠ "nop" := by
    rw [hc.op]
    decide
  have hmem : v ∈ operands ir id := List.mem_cons_of_mem _ (List.mem_cons_of_mem _ hc.value)
  have hready := (hw.filled b hc.blk id hc.mem hc.op).values v hc.value
  refine ⟨⟨dropped_size, dropped_fnblk, dropped_binsn, dropped_istr, fun _ hx => dropped_other hin hx,
    dropped_rows _ _ _ _, ?_⟩,
    h.scope.dropped (hr.renames h.scope) hr.ends, h.tame.dropped hready.nonneg ?_,
    h.known.dropped fun _ => h.known id hin hlive v hmem⟩
  · intro V W o bit zero c n _ hroot hfirst _
    exact hc.sameRuns h.scope V W o c n hroot hfirst
  · intro z hz hop
    exact h.tame.placed id hin hlive z (hz ▸ hmem) hop

/-- The sweeps over phis. -/
theorem m2rClean_thinned (hw : Wired m.ir f) (h : Trim m.ir f next root) (hrun : m2rClean m f = some m') :
    Thinned f root m.ir m'.ir ∧ Trim m'.ir f next root := by
  have hall : Wired m'.ir f ∧ Thinned f root m.ir m'.ir ∧ Trim m'.ir f next root := by
    refine m2rClean_keeps (Q := fun ir => Wired ir f ∧ Thinned f root m.ir ir ∧ Trim ir f next root)
      ?_ ⟨hw, Std.Refl.refl _, h⟩ hrun
    rintro ir b id ⟨hw, hthin, htrim⟩ hb hid hop hpos
    have hc := hw.folding hb hid hop hpos
    obtain ⟨hone, hlast⟩ := hc.thinned hw htrim
    exact ⟨hw.dropped ((hw.filled b hb id hid hop).values _ hc.value) hc.ne, IsTrans.trans _ _ _ hthin hone, hlast⟩
  exact hall.2

/-- The slots go. -/
theorem killed_thinned {S : List Nat} (h : Trim ir f next root) (hsub : S ⊆ insns ir f)
    (hS : ∀ s ∈ S, ir.iop s = "nop" ∨ ir.iop s = "alloca") :
    Thinned f root ir (S.foldl irKill ir) ∧ Trim (S.foldl irKill ir) f next root := by
  refine Thinned.foldl h fun ir' hthin htrim s hs => ?_
  have hop : ir'.iop s = "nop" ∨ ir'.iop s = "alloca" := by
    rcases hthin.rows s with ⟨hsame, -⟩ | ⟨hnop, -⟩
    · rw [hsame]
      exact hS s hs
    · exact .inl hnop
  have hends : ¬(ir'.row s).Ends := by
    rcases hop with hop | hop
    · exact not_ends (r := ir'.row s) hop (by decide)
    · exact not_ends (r := ir'.row s) hop (by decide)
  have hsame : SameRuns f root [] [] ir' (irKill ir' s) :=
    sameRuns_kill (S := [s]) fun x hx => List.mem_singleton.mp hx ▸ hop
  have hτ : Renames ir' f next root (swap s s) fun _ => True := fun w _ hne => absurd swap_same hne
  rw [← dropped_self (f := f)] at hsame ⊢
  have hin : s ∈ insns ir' f := hthin.insns ▸ hsub hs
  refine ⟨⟨dropped_size, dropped_fnblk, dropped_binsn, dropped_istr, fun _ hx => dropped_other hin hx,
    dropped_rows _ _ _ _, ?_⟩,
    htrim.scope.dropped hτ hends, htrim.tame.dropped (Int.natCast_nonneg s) ?_, htrim.known.dropped fun hlt => hlt⟩
  · intro V W o bit zero c n _ hroot hfirst _
    exact hsame V W o c n hroot hfirst
  · intro z hz hzop
    obtain rfl := Int.natCast_inj.mp hz
    rcases hop with hop | hop
    · exact absurd (hop.symm.trans hzop) (by decide)
    · exact absurd (hop.symm.trans hzop) (by decide)

end IdCompiler.Ir

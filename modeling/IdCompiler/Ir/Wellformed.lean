import IdCompiler.Core.Sweeps
import IdCompiler.Ir.Filled

/-!
# What the pass leaves is well formed

Filling gives every phi one value and one block for each edge into its block,
and the sweeps that collapse phis keep this: a phi goes for one of its own
values, which is left, and every use of it becomes a use of that one. When no
sweep finds a phi that is one value, the slots go, which nothing names.
-/

namespace IdCompiler.Ir

variable {ir ir' : Rows} {m m₀ m₁ m₂ : Mem} {f i j b x id n : Nat} {v w : Int} {bs : List Nat}
  {P : Nat → Nat → Prop}

/-! ## Edges -/

/-- A phi with one value and one block for each edge into the block `b`, in their order. -/
structure Filled (ir : Rows) (b ph : Nat) : Prop where
  blk : ir.iblk ph = ir.bpred b
  length : (ir.ilist ph).length = (ir.bpred b).length
  values : ∀ v ∈ ir.ilist ph, Ready ir [] v

/-- A store with other lists of values and blocks. -/
def Mem.withEdges (m : Mem) (list : Nat → List Int) (blk : Nat → List Nat) : Mem :=
  { m with ir := { m.ir with ilist := list, iblk := blk } }

/-- The phis of the cells `P` are filled, and nothing else was done. -/
structure Filling (f : Nat) (m m' : Mem) (P : Nat → Nat → Prop) : Prop where
  edges : ∃ list blk, m' = m.withEdges list blk
  filled : ∀ i j b (ph : Nat), P i j → (m.ir.fnblk f)[i]? = some b → m.phiof i j = ph →
    Filled m'.ir b ph
  other : ∀ x : Nat, (∀ i j, P i j → m.phiof i j ≠ x) → m'.ir.ilist x = m.ir.ilist x ∧ m'.ir.iblk x = m.ir.iblk x

/-- What a predecessor leaves in a slot. -/
def Mem.leaves (m : Mem) (f j pb : Nat) : Int := m.outv (m2rPos m.ir f pb).toNat j

theorem m2rIncs_eq {ph : Nat} : m2rIncs m f b ph j = m.withEdges
    (Function.update m.ir.ilist ph (m.ir.ilist ph ++ (m.ir.bpred b).map (m.leaves f j)))
    (Function.update m.ir.iblk ph (m.ir.iblk ph ++ m.ir.bpred b)) := by
  have hfold : ∀ (pbs : List Nat) (m : Mem), pbs.foldl (m2rIncAt f ph j) m = m.withEdges
      (Function.update m.ir.ilist ph (m.ir.ilist ph ++ pbs.map (m.leaves f j)))
      (Function.update m.ir.iblk ph (m.ir.iblk ph ++ pbs)) := by
    intro pbs
    induction pbs with
    | nil =>
      intro m
      rw [List.map_nil, List.append_nil, List.append_nil, Function.update_eq_self,
        Function.update_eq_self]
      rfl
    | cons pb pbs ih =>
      intro m
      have hleaves : (m2rIncAt f ph j m pb).leaves f j = m.leaves f j := rfl
      rw [List.foldl_cons, ih, hleaves]
      simp only [m2rIncAt, Mem.withEdges, Function.update_idem, Function.update_self,
        List.append_assoc, List.map_cons, List.singleton_append]
      rfl
  exact hfold _ m

/-- The phis of the cells `P` have what the predecessors leave, and nothing else was done. -/
structure Given (f : Nat) (m m' : Mem) (P : Nat → Nat → Prop) : Prop where
  edges : ∃ list blk, m' = m.withEdges list blk
  values : ∀ i j b (ph : Nat), P i j → (m.ir.fnblk f)[i]? = some b → m.phiof i j = ph →
    m'.ir.ilist ph = (m.ir.bpred b).map (m.leaves f j) ∧ m'.ir.iblk ph = m.ir.bpred b
  other : ∀ x : Nat, (∀ i j, P i j → m.phiof i j ≠ x) → m'.ir.ilist x = m.ir.ilist x ∧ m'.ir.iblk x = m.ir.iblk x

theorem Given.refl : Given f m m fun _ _ => False :=
  ⟨⟨m.ir.ilist, m.ir.iblk, rfl⟩, fun _ _ _ _ h => h.elim, fun _ _ => ⟨rfl, rfl⟩⟩

theorem Given.congr {P' : Nat → Nat → Prop} (h : Given f m m₁ P) (hP : ∀ i j, P i j ↔ P' i j) :
    Given f m m₁ P' := by
  have heq : P = P' := funext fun i => funext fun j => propext (hP i j)
  exact heq ▸ h

/-- The phi of one more cell, when no other has the same id. -/
theorem Given.one (h : Given f m m₁ P) {ph : Nat} (hph : m.phiof i j = ph) (hblank : Blank m.ir ph)
    (hapart : ∀ i' j', P i' j' → m.phiof i' j' ≠ ph) (hb : (m.ir.fnblk f)[i]? = some b) :
    Given f m (m2rIncs m₁ f b ph j) fun i' j' => P i' j' ∨ i' = i ∧ j' = j := by
  obtain ⟨list, blk, rfl⟩ := h.edges
  obtain ⟨hlist, hblk⟩ := h.other ph hapart
  have hlist : list ph = [] := hlist.trans hblank.list
  have hblk : blk ph = [] := hblk.trans hblank.blk
  have hincs : m2rIncs (m.withEdges list blk) f b ph j =
      m.withEdges (Function.update list ph ((m.ir.bpred b).map (m.leaves f j)))
        (Function.update blk ph (m.ir.bpred b)) := by
    rw [m2rIncs_eq]
    show m.withEdges (Function.update list ph (list ph ++ (m.ir.bpred b).map (m.leaves f j)))
      (Function.update blk ph (blk ph ++ m.ir.bpred b)) = _
    rw [hlist, hblk, List.nil_append, List.nil_append]
  rw [hincs]
  refine ⟨⟨_, _, rfl⟩, fun i' j' b' ph' hP hb' hph' => ?_, fun x hx => ?_⟩
  · show Function.update list ph _ ph' = _ ∧ Function.update blk ph _ ph' = _
    rcases hP with hP | ⟨rfl, rfl⟩
    · have hne : ph' ≠ ph := fun heq => hapart i' j' hP (heq ▸ hph')
      rw [Function.update_of_ne hne, Function.update_of_ne hne]
      exact h.values i' j' b' ph' hP hb' hph'
    · obtain rfl := Int.natCast_inj.mp (hph'.symm.trans hph)
      obtain rfl := Option.some.inj (hb'.symm.trans hb)
      rw [Function.update_self, Function.update_self]
      exact ⟨rfl, rfl⟩
  · have hne : x ≠ ph := fun heq => hx i j (.inr ⟨rfl, rfl⟩) (heq ▸ hph)
    show Function.update list ph _ x = _ ∧ Function.update blk ph _ x = _
    rw [Function.update_of_ne hne, Function.update_of_ne hne]
    exact h.other x fun i' j' hP => hx i' j' (.inl hP)

/-- A store whose phis wait for their edges, with what the predecessors leave at hand. -/
structure Ripe (f : Nat) (m : Mem) : Prop where
  phi : ∀ i j, Cells m (m.ir.fnblk f).length i j → ∃ ph : Nat, m.phiof i j = ph ∧ Blank m.ir ph
  apart : ∀ i j i' j', Cells m (m.ir.fnblk f).length i j → Cells m (m.ir.fnblk f).length i' j' →
    m.phiof i j = m.phiof i' j' → i = i' ∧ j = j'
  ready : ∀ b ∈ m.ir.fnblk f, ∀ pb ∈ m.ir.bpred b, ∀ j < m.pra.length, Ready m.ir [] (m.leaves f j pb)

theorem Given.fillB (h : Given f m m₁ (Cells m i)) (hr : Ripe f m) (hi : 1 ≤ i)
    (hb : (m.ir.fnblk f)[i]? = some b) : Given f m (m2rFillB f i b m₁) (Cells m (i + 1)) := by
  have hlen : i < (m.ir.fnblk f).length := (List.getElem?_eq_some_iff.mp hb).1
  have hrange : ∀ n ≤ m.pra.length, Given f m
      ((List.range n).foldl (fun m j => m2rIncs m f b (m.phiof i j).toNat j) m₁)
      fun i' j' => Cells m i i' j' ∨ i' = i ∧ j' < n := by
    intro n hn
    induction n with
    | zero =>
      apply h.congr
      simp
    | succ n ih =>
      have hgiven := ih (Nat.le_of_succ_le hn)
      have hcell : Cells m (m.ir.fnblk f).length i n := ⟨hi, hlen, hn⟩
      obtain ⟨ph, hph, hblank⟩ := hr.phi i n hcell
      have hsame : ((List.range n).foldl (fun m j => m2rIncs m f b (m.phiof i j).toNat j) m₁).phiof
          i n = ph := by
        obtain ⟨list, blk, heq⟩ := hgiven.edges
        rw [heq]
        exact hph
      rw [List.range_succ, List.foldl_append, List.foldl_cons, List.foldl_nil, hsame]
      apply (hgiven.one hph hblank _ hb).congr
      · intro i' j'
        rw [or_assoc, ← and_or_left, ← Nat.lt_succ_iff_lt_or_eq]
      · intro i' j' hP heq
        have hother : Cells m (m.ir.fnblk f).length i' j' := by
          unfold Cells at hP ⊢
          omega
        obtain ⟨rfl, rfl⟩ := hr.apart i' j' i n hother hcell (heq.trans hph.symm)
        unfold Cells at hP
        omega
  have hpra : m₁.pra = m.pra := by
    obtain ⟨list, blk, heq⟩ := h.edges
    rw [heq]
    rfl
  rw [m2rFillB, hpra]
  apply (hrange _ (Nat.le_refl _)).congr
  intro i' j'
  unfold Cells
  omega

theorem Given.fill (h : Given f m m₁ (Cells m i)) (hr : Ripe f m) (hi : 1 ≤ i)
    (hbs : (m.ir.fnblk f).drop i = bs) : Given f m (m2rFill f i bs m₁) (Cells m (i + bs.length)) := by
  induction bs generalizing i m₁ with
  | nil => exact h
  | cons b bs ih =>
    have hb : (m.ir.fnblk f)[i]? = some b := by
      rw [← List.head?_drop, hbs]
      rfl
    have hrest : (m.ir.fnblk f).drop (i + 1) = bs := by
      rw [← List.tail_drop, hbs]
      rfl
    have hall := ih (h.fillB hr hi hb) (Nat.le_add_left 1 i) hrest
    rw [show i + (b :: bs).length = i + 1 + bs.length by rw [List.length_cons]; omega]
    exact hall

/-- Phis that have what the predecessors leave have their edges, when all of that is ready. -/
theorem Given.filling (h : Given f m m₁ (Cells m n)) (hr : Ripe f m) : Filling f m m₁ (Cells m n) := by
  refine ⟨h.edges, fun i j b ph hc hb hph => ?_, h.other⟩
  obtain ⟨hlist, hblk⟩ := h.values i j b ph hc hb hph
  obtain ⟨list, blk, rfl⟩ := h.edges
  refine ⟨hblk, ?_, fun v hv => ?_⟩
  · rw [hlist, List.length_map]
    rfl
  · rw [hlist] at hv
    obtain ⟨pb, hpb, rfl⟩ := List.mem_map.mp hv
    exact hr.ready b (List.mem_of_getElem? hb) pb hpb j hc.2.2

/-! ## What the sweeps start from -/

/-- Operands name what is left, and phis have their edges. -/
structure Wired (ir : Rows) (f : Nat) : Prop where
  named : ∀ x ∈ insns ir f, ir.iop x ≠ "nop" → ∀ v ∈ operands ir x, Named ir [] v
  filled : ∀ b ∈ ir.fnblk f, ∀ x ∈ ir.binsn b, ir.iop x = "phi" → Filled ir b x

/-- What the pass leaves of the blocks: each begins with phis, and the rest of it, its edges and
where they come from are as they were. -/
structure Around (ir : Rows) (f : Nat) (m : Mem) : Prop where
  fnblk : m.ir.fnblk = ir.fnblk
  bpred : m.ir.bpred = ir.bpred
  binsn : ∀ b, ∃ phs, m.ir.binsn b = phs ++ ir.binsn b
  iblk : ∀ x ∈ insns ir f, m.ir.iblk x = ir.iblk x
  /-- Nothing takes the slots for values. -/
  slots : ∀ s ∈ m.pra, m.ir.iop s ∈ noValue

theorem listIndexOf_eq {l : List Int} {v : Int} (h : v ∈ l) :
    listIndexOf l v = l.idxOf v ∧ l.idxOf v < l.length :=
  ⟨if_pos h, List.idxOf_lt_length_of_mem h⟩

theorem m2rPos_lt (h : b ∈ ir.fnblk f) : (m2rPos ir f b).toNat < (ir.fnblk f).length := by
  have hin : (b : Int) ∈ (ir.fnblk f).map Int.ofNat := List.mem_map_of_mem h
  obtain ⟨heq, hlt⟩ := listIndexOf_eq hin
  rw [m2rPos, heq, Int.toNat_natCast]
  exact Nat.lt_of_lt_of_eq hlt (List.length_map _)

/-- The store when the walk is over, between the one with the phis `m₁` and the filled one. -/
structure Passed (ir : Rows) (f : Nat) (m₁ m : Mem) : Prop where
  lowered : Lowered ir f
  placed : Placed f (m2rInit ir f) m₁ (Cells (m2rInit ir f) (ir.fnblk f).length)
  kin : Kin m₁ m
  walked : Walked f m [] fun i j => i < (ir.fnblk f).length ∧ j < (m2rInit ir f).pra.length

section

variable (h : Passed ir f m₁ m)
include h

theorem Passed.fnblk : m.ir.fnblk = ir.fnblk := h.kin.fnblk.trans h.placed.fnblk

theorem Passed.pra : m.pra = m2rCollect ir f := h.kin.pra.trans h.placed.pra

theorem Passed.cells : Cells m n i j ↔ Cells (m2rInit ir f) n i j := by
  unfold Cells
  rw [h.pra]
  rfl

/-- Rows from before the pass were at most killed. -/
theorem Passed.iop (hx : x < ir.size) : m.ir.iop x = ir.iop x ∨ m.ir.iop x = "nop" := by
  have hold : m₁.ir.iop x = ir.iop x := iop_of_row (h.placed.row x hx)
  exact (h.kin.iop x (Nat.lt_of_lt_of_le hx h.placed.size)).imp_left fun heq => heq.trans hold

theorem Passed.ripe (hpreds : ∀ b ∈ ir.fnblk f, ∀ pb ∈ ir.bpred b, pb ∈ ir.fnblk f) : Ripe f m := by
  constructor
  case phi =>
    intro i j hc
    rw [h.fnblk, h.cells] at hc
    obtain ⟨ph, hph, -, hlt, hblank⟩ := h.placed.phi i j hc
    exact ⟨ph, h.kin.phiof ▸ hph, h.kin.blank ph hlt hblank⟩
  case apart =>
    intro i j i' j' hc hc'
    rw [h.fnblk, h.cells] at hc hc'
    rw [h.kin.phiof]
    exact h.placed.apart i j i' j' hc hc'
  case ready =>
    intro b hb pb hpb j hj
    rw [h.fnblk] at hb
    rw [h.kin.bpred, h.placed.bpred] at hpb
    apply h.walked.outs
    have hin : pb ∈ m.ir.fnblk f := h.fnblk.symm ▸ hpreds b hb pb hpb
    have hlt := m2rPos_lt hin
    rw [h.fnblk] at hlt
    rw [h.pra] at hj
    exact ⟨hlt, hj⟩

/-- When all phis are filled, each has what the predecessors leave. -/
theorem Passed.given (hpreds : ∀ b ∈ ir.fnblk f, ∀ pb ∈ ir.bpred b, pb ∈ ir.fnblk f) :
    Given f m (m2rFill f 1 (ir.fnblk f).tail m) (Cells m (ir.fnblk f).length) := by
  have hnone : Given f m m (Cells m 1) :=
    Given.refl.congr fun i j => ⟨False.elim, fun hc => absurd hc.2.1 (Nat.not_lt.mpr hc.1)⟩
  have hdrop : (m.ir.fnblk f).drop 1 = (ir.fnblk f).tail := by rw [h.fnblk, List.drop_one]
  apply (hnone.fill (h.ripe hpreds) (Nat.le_refl 1) hdrop).congr
  intro i j
  unfold Cells
  rw [List.length_tail]
  omega

theorem Passed.filling (hpreds : ∀ b ∈ ir.fnblk f, ∀ pb ∈ ir.bpred b, pb ∈ ir.fnblk f) :
    Filling f m (m2rFill f 1 (ir.fnblk f).tail m) (Cells m (ir.fnblk f).length) :=
  (h.given hpreds).filling (h.ripe hpreds)

variable (hfill : Filling f m m₂ (Cells m (ir.fnblk f).length))
include hfill

/-- The phi of a cell has its edges. -/
theorem Passed.cell (hc : Cells m (ir.fnblk f).length i j) (hx : m.phiof i j = (x : Nat)) :
    ∃ b, (m.ir.fnblk f)[i]? = some b ∧ Filled m₂.ir b x := by
  have hlt : i < (m.ir.fnblk f).length := h.fnblk.symm ▸ hc.2.1
  have hb := List.getElem?_eq_getElem hlt
  exact ⟨_, hb, hfill.filled i j _ x hc hb hx⟩

theorem Passed.named (hx : x ∈ insns m₂.ir f) (hlive : m₂.ir.iop x ≠ "nop")
    (hv : v ∈ operands m₂.ir x) : Named m₂.ir [] v := by
  have hcell := fun i j => h.cell (i := i) (j := j) (x := x) hfill
  have hother := hfill.other x
  obtain ⟨list, blk, rfl⟩ := hfill.edges
  have hdone : ∀ w ∈ operands m.ir x, Named m.ir [] w := h.walked.done x hx List.not_mem_nil hlive
  by_cases hphi : ∃ i j, Cells m (ir.fnblk f).length i j ∧ m.phiof i j = x
  · obtain ⟨i, j, hc, hij⟩ := hphi
    obtain ⟨b, -, hfilled⟩ := hcell i j hc hij
    rcases List.mem_cons.mp hv with rfl | hv
    · exact hdone _ List.mem_cons_self
    · rcases List.mem_cons.mp hv with rfl | hv
      · exact hdone _ (List.mem_cons_of_mem _ List.mem_cons_self)
      · exact .inr (hfilled.values v hv)
  · have hlist := (hother fun i j hc hij => hphi ⟨i, j, hc, hij⟩).1
    have hsame : operands (m.withEdges list blk).ir x = operands m.ir x := by
      rw [operands, operands, hlist]
      rfl
    exact hdone v (hsame ▸ hv)

theorem Passed.wired : Wired m₂.ir f := by
  refine ⟨fun x hx hlive v hv => h.named hfill hx hlive hv, fun b hb x hx hop => ?_⟩
  have hall := hfill.filled
  obtain ⟨list, blk, rfl⟩ := hfill.edges
  have hb : b ∈ m.ir.fnblk f := hb
  have hx : x ∈ m.ir.binsn b := hx
  have hop : m.ir.iop x = "phi" := hop
  obtain ⟨phs, hphs, hcs⟩ := h.placed.binsn b
  rw [h.kin.binsn, hphs] at hx
  cases List.mem_append.mp hx with
  | inl hx =>
    obtain ⟨i, j, hc, hi, hij⟩ := hcs x hx
    have hib : (m.ir.fnblk f)[i]? = some b := h.fnblk.symm ▸ hi
    rw [← h.kin.phiof] at hij
    exact hall i j b x (h.cells.mpr hc) hib hij
  | inr hx =>
    -- What was there before is no phi.
    have hin : x ∈ insns ir f := mem_insns.mpr ⟨b, h.fnblk ▸ hb, hx⟩
    cases h.iop (h.lowered.size x hin) with
    | inl heq => exact absurd (heq.symm.trans hop) (h.lowered.noPhi x hin)
    | inr hnop => exact absurd (hnop.symm.trans hop) (by decide)

theorem Passed.around : Around ir f m₂ := by
  have hother := hfill.other
  obtain ⟨list, blk, rfl⟩ := hfill.edges
  constructor
  case fnblk => exact h.fnblk
  case bpred => exact h.kin.bpred.trans h.placed.bpred
  case binsn =>
    intro b
    obtain ⟨phs, hphs, -⟩ := h.placed.binsn b
    exact ⟨phs, (congrFun h.kin.binsn b).trans hphs⟩
  case iblk =>
    intro x hx
    have hlt : x < ir.size := h.lowered.size x hx
    have hno : ∀ i j, Cells m (ir.fnblk f).length i j → m.phiof i j ≠ x := by
      intro i j hc hij
      obtain ⟨ph, hph, hge, -⟩ := h.placed.phi i j (h.cells.mp hc)
      have hge : ir.size ≤ ph := hge
      rw [h.kin.phiof, hph] at hij
      omega
    have hrow : m₁.ir.iblk x = ir.iblk x := congrArg Row.blk (h.placed.row x hlt)
    exact (hother x hno).2.trans ((h.kin.iblk x (Nat.lt_of_lt_of_le hlt h.placed.size)).trans hrow)
  case slots =>
    intro s hs
    have hs : s ∈ m.pra := hs
    have hslot : s < ir.size ∧ ir.iop s = "alloca" := by
      rw [h.pra, m2rCollect] at hs
      cases hblk : ir.fnblk f with
      | nil =>
        rw [hblk] at hs
        exact absurd hs List.not_mem_nil
      | cons b bs =>
        rw [hblk] at hs
        obtain ⟨hs, hop⟩ := List.mem_filter.mp hs
        have hin : s ∈ insns ir f := mem_insns.mpr ⟨b, hblk ▸ List.mem_cons_self, hs⟩
        exact ⟨h.lowered.size s hin, of_decide_eq_true hop⟩
    show m.ir.iop s ∈ noValue
    cases h.iop hslot.1 with
    | inl heq =>
      rw [heq, hslot.2]
      decide
    | inr hnop =>
      rw [hnop]
      decide

end

theorem Lowered.passed (h : Lowered ir f) : Passed ir f (m2rPhis (m2rInit ir f) f)
    (m2rWalk f 0 (ir.fnblk f) (m2rPhis (m2rInit ir f) f)) := by
  have hp : Placed f (m2rInit ir f) (m2rPhis (m2rInit ir f) f)
      (Cells (m2rInit ir f) (ir.fnblk f).length) := placed_m2rPhis (m2rInit ir f) f
  have hstart : Walked f (m2rPhis (m2rInit ir f) f) ((ir.fnblk f).flatMap ir.binsn) fun i j =>
      i < 0 ∧ j < (m2rInit ir f).pra.length :=
    (h.walked hp).congr fun i j hc => absurd hc.1 (Nat.not_lt_zero i)
  obtain ⟨hkin, hwalked⟩ := hstart.walk hp .refl List.drop_zero
  refine ⟨h, hp, hkin, hwalked.congr fun i j hc => ?_⟩
  rw [Nat.zero_add]
  exact hc

/-- All of the pass but the sweeps. -/
theorem Lowered.filled (h : Lowered ir f)
    (hpreds : ∀ b ∈ ir.fnblk f, ∀ pb ∈ ir.bpred b, pb ∈ ir.fnblk f) :
    Wired (m2rFilled ir f).ir f ∧ Around ir f (m2rFilled ir f) :=
  have hfill := h.passed.filling hpreds
  ⟨h.passed.wired hfill, h.passed.around hfill⟩

end IdCompiler.Ir

import IdCompiler.Ir.Followed
import IdCompiler.Ir.Promotion

/-!
# The filled store is the function with its slots turned into values

When all phis are filled, the rows that are left have the operands that stand
for the old ones, each phi stands in front of its block, and over each edge it
has what the slot holds where the block before is left.
-/

namespace IdCompiler.Ir

variable {P : Rows} {m m₁ m₂ : Mem} {root : Nat} {f b i j n p x : Nat} {v w : Int} {τ : Int → Int}

/-! ## Phis by their blocks -/

/-- Ids have the same places as values. -/
theorem idxOf_ofNat (l : List Nat) (x : Nat) : (l.map Int.ofNat).idxOf (x : Int) = l.idxOf x := by
  induction l with
  | nil => rfl
  | cons y l ih =>
    rw [List.map_cons]
    by_cases hy : y = x
    · subst hy
      rw [List.idxOf_cons_self]
      exact List.idxOf_cons_self
    · have hcast : Int.ofNat y ≠ x := fun heq => hy (Int.natCast_inj.mp heq)
      rw [List.idxOf_cons_ne _ hy, List.idxOf_cons_ne _ hcast, ih]

theorem nodup_m2rCollect (hn : (insns P f).Nodup) : (m2rCollect P f).Nodup := by
  unfold m2rCollect
  cases hblk : P.fnblk f with
  | nil => exact List.nodup_nil
  | cons b bs => exact (nodup_binsn hn (hblk ▸ List.mem_cons_self)).filter _

/-- The phis a block begins with. -/
def phisOf (P : Rows) (f : Nat) (m : Mem) (b : Nat) : List Nat :=
  if (P.fnblk f).idxOf b = 0 then [] else m.phisAt (m2rCollect P f).length ((P.fnblk f).idxOf b)

/-- What a slot has where a block is entered. -/
def startOf (P : Rows) (f : Nat) (m : Mem) (b : Nat) (a : Int) : Int :=
  m.entering ((P.fnblk f).idxOf b) (slotIdx P f a)

theorem getElem?_idxOf_blk (hb : b ∈ P.fnblk f) : (P.fnblk f)[(P.fnblk f).idxOf b]? = some b :=
  List.getElem?_idxOf hb

/-- The block of every place but the first is another one than the entry block. -/
theorem idxOf_eq_zero (hroot : (P.fnblk f).head? = some root) : (P.fnblk f).idxOf b = 0 ↔ b = root := by
  cases hblk : P.fnblk f with
  | nil =>
    rw [hblk] at hroot
    cases hroot
  | cons c bs =>
    rw [hblk] at hroot
    obtain rfl := Option.some.inj hroot
    by_cases hb : c = b
    · rw [hb, List.idxOf_cons_self]
      exact iff_of_true rfl rfl
    · rw [List.idxOf_cons_ne bs hb]
      exact iff_of_false (Nat.succ_ne_zero _) (Ne.symm hb)

section

variable (hp : Placed f (m2rInit P f) m₁ (Cells (m2rInit P f) (P.fnblk f).length))
include hp

theorem mem_phisOf (hb : b ∈ P.fnblk f) : x ∈ phisOf P f m₁ b ↔
    ∃ j, Cells (m2rInit P f) (P.fnblk f).length ((P.fnblk f).idxOf b) j ∧
      m₁.phiof ((P.fnblk f).idxOf b) j = (x : Nat) := by
  have hlt := List.idxOf_lt_length_of_mem hb
  unfold phisOf
  by_cases h0 : (P.fnblk f).idxOf b = 0
  · rw [if_pos h0]
    refine iff_of_false List.not_mem_nil ?_
    rintro ⟨j, hc, -⟩
    have hpos := hc.1
    omega
  rw [if_neg h0, Mem.phisAt, List.mem_map]
  have hcell : ∀ {j}, j < (m2rCollect P f).length →
      Cells (m2rInit P f) (P.fnblk f).length ((P.fnblk f).idxOf b) j :=
    fun hj => ⟨Nat.one_le_iff_ne_zero.mpr h0, hlt, hj⟩
  constructor
  · rintro ⟨j, hj, rfl⟩
    have hc := hcell (List.mem_range.mp (List.mem_reverse.mp hj))
    obtain ⟨ph, hph, -⟩ := hp.phi _ j hc
    refine ⟨j, hc, ?_⟩
    rw [hph, Int.toNat_natCast]
  · rintro ⟨j, hc, hj⟩
    refine ⟨j, List.mem_reverse.mpr (List.mem_range.mpr hc.2.2), ?_⟩
    rw [hj, Int.toNat_natCast]

theorem nodup_phisOf (hb : b ∈ P.fnblk f) : (phisOf P f m₁ b).Nodup := by
  unfold phisOf
  split
  · exact List.nodup_nil
  next h0 =>
    have hcell : ∀ {j}, j ∈ (List.range (m2rCollect P f).length).reverse →
        Cells (m2rInit P f) (P.fnblk f).length ((P.fnblk f).idxOf b) j := fun hj =>
      ⟨Nat.one_le_iff_ne_zero.mpr h0, List.idxOf_lt_length_of_mem hb, List.mem_range.mp (List.mem_reverse.mp hj)⟩
    refine List.Nodup.map_on (fun j hj k hk heq => ?_) (List.nodup_reverse.mpr List.nodup_range)
    obtain ⟨ph, hph, -⟩ := hp.phi _ j (hcell hj)
    obtain ⟨ph', hph', -⟩ := hp.phi _ k (hcell hk)
    rw [hph, hph', Int.toNat_natCast, Int.toNat_natCast] at heq
    exact (hp.apart _ j _ k (hcell hj) (hcell hk) (by rw [hph, hph', heq])).2

end

/-- What a slot has where a block with phis is entered is one of them. -/
theorem startOf_eq (m : Mem) (hb : b ∈ P.fnblk f) (h0 : (P.fnblk f).idxOf b ≠ 0)
    (hv : v ∈ (m2rCollect P f).map Int.ofNat) :
    Cells (m2rInit P f) (P.fnblk f).length ((P.fnblk f).idxOf b) (slotIdx P f v) ∧
      startOf P f m b v = m.phiof ((P.fnblk f).idxOf b) (slotIdx P f v) :=
  ⟨⟨Nat.one_le_iff_ne_zero.mpr h0, List.idxOf_lt_length_of_mem hb, slotIdx_lt hv⟩, if_neg h0⟩

/-! ## The filled store -/

/-- The store with the phis `m₁`, the one when the walk is over `m`, and the filled one `m₂`. -/
structure Turning (P : Rows) (f : Nat) (m₁ m m₂ : Mem) (τ : Int → Int) : Prop where
  laid : Laid P f
  passed : Passed P f m₁ m
  entering : Entering P f m₁ m τ (P.fnblk f).length []
  filling : Filling f m m₂ (Cells m (P.fnblk f).length)
  given : Given f m m₂ (Cells m (P.fnblk f).length)
  binsn : ∀ b ∈ P.fnblk f, m₁.ir.binsn b = phisOf P f m₁ b ++ P.binsn b

section

variable (h : Turning P f m₁ m m₂ τ)
include h

theorem Turning.placed : Placed f (m2rInit P f) m₁ (Cells (m2rInit P f) (P.fnblk f).length) := h.passed.placed

/-- All but the lists of the phis is as the walk left it. -/
theorem Turning.same : m₂.ir.fnblk = P.fnblk ∧ m₂.ir.bpred = P.bpred ∧ m₂.ir.binsn = m₁.ir.binsn ∧
    m₂.ir.iop = m.ir.iop ∧ m₂.ir.ia = m.ir.ia ∧ m₂.ir.ib = m.ir.ib := by
  obtain ⟨list, blk, rfl⟩ := h.filling.edges
  exact ⟨h.passed.fnblk, h.passed.kin.bpred.trans h.placed.bpred, h.passed.kin.binsn, rfl, rfl, rfl⟩

theorem Turning.split (hb : b ∈ P.fnblk f) : m₂.ir.binsn b = phisOf P f m₁ b ++ P.binsn b := by
  rw [h.same.2.2.1]
  exact h.binsn b hb

/-- A row from before has no phi's id. -/
theorem Turning.row (hx : x < P.size) : m₂.ir.row x = m.ir.row x := by
  have hno : ∀ i j, Cells m (P.fnblk f).length i j → m.phiof i j ≠ x := by
    intro i j hc heq
    obtain ⟨ph, hph, hge, -⟩ := h.placed.phi i j (h.passed.cells.mp hc)
    have hge : P.size ≤ ph := hge
    rw [h.passed.kin.phiof, hph] at heq
    omega
  obtain ⟨hlist, hblk⟩ := h.filling.other x hno
  obtain ⟨list, blk, rfl⟩ := h.filling.edges
  unfold Rows.row
  rw [hlist, hblk]
  rfl

/-- A phi of a block has an id that is in use from the pass on. -/
theorem Turning.phi (hb : b ∈ P.fnblk f) (hx : x ∈ phisOf P f m₁ b) :
    P.size ≤ x ∧ x < m₁.ir.size ∧ Blank m.ir x := by
  obtain ⟨j, hc, hj⟩ := (mem_phisOf h.placed hb).mp hx
  obtain ⟨ph, hph, hge, hlt, hblank⟩ := h.placed.phi _ j hc
  obtain rfl : ph = x := Int.natCast_inj.mp (hph.symm.trans hj)
  exact ⟨hge, hlt, h.passed.kin.blank ph hlt hblank⟩

theorem Turning.lt (hx : x ∈ insns m₂.ir f) : x < m₁.ir.size := by
  obtain ⟨b, hb, hin⟩ := mem_insns.mp hx
  rw [h.same.1] at hb
  rw [h.split hb] at hin
  cases List.mem_append.mp hin with
  | inl hphi => exact (h.phi hb hphi).2.1
  | inr hin => exact Nat.lt_of_lt_of_le (h.passed.lowered.size x (mem_insns.mpr ⟨b, hb, hin⟩)) h.placed.size

/-- Every instruction stands in one place, as before. -/
theorem Turning.nodup : (insns m₂.ir f).Nodup := by
  have hold : ∀ {b x}, b ∈ P.fnblk f → x ∈ P.binsn b → x < P.size :=
    fun hb hx => h.passed.lowered.size _ (mem_insns.mpr ⟨_, hb, hx⟩)
  unfold insns
  rw [h.same.1, List.nodup_flatMap]
  refine ⟨fun b hb => ?_, ?_⟩
  · rw [h.split hb, List.nodup_append]
    refine ⟨nodup_phisOf h.placed hb, nodup_binsn h.laid.insns hb, fun x hx y hy heq => ?_⟩
    have hge := (h.phi hb hx).1
    have hlt := hold hb hy
    omega
  · refine h.laid.blocks.imp_of_mem fun {b c} hb hc hne x hx hy => ?_
    rw [h.split hb] at hx
    rw [h.split hc] at hy
    rcases List.mem_append.mp hx with hx | hx <;> rcases List.mem_append.mp hy with hy | hy
    · obtain ⟨j, hcell, hj⟩ := (mem_phisOf h.placed hb).mp hx
      obtain ⟨k, hcell', hk⟩ := (mem_phisOf h.placed hc).mp hy
      have heq := (h.placed.apart _ _ _ _ hcell hcell' (hj.trans hk.symm)).1
      exact hne ((List.idxOf_inj hb).mp heq)
    · have hge := (h.phi hb hx).1
      have hlt := hold hc hy
      omega
    · have hge := (h.phi hc hy).1
      have hlt := hold hb hx
      omega
    · exact hne (Home.unique h.laid.insns (w := (x : Nat)) ⟨hb, x, hx, rfl⟩ ⟨hc, x, hy, rfl⟩)

/-- What a block leaves in a slot is what the slot holds there. -/
theorem Turning.leaves (hb : p ∈ P.fnblk f) (hv : v ∈ (m2rCollect P f).map Int.ofNat) :
    m.leaves f (slotIdx P f v) p = held P (m2rCollect P f) τ (startOf P f m₁ p) (P.binsn p) v := by
  have hpos : (m2rPos m.ir f p).toNat = (P.fnblk f).idxOf p := by
    have hin : (p : Int) ∈ (P.fnblk f).map Int.ofNat := List.mem_map_of_mem hb
    rw [m2rPos, h.passed.fnblk, (listIndexOf_eq hin).1, Int.toNat_natCast, idxOf_ofNat]
  have hlt := List.idxOf_lt_length_of_mem hb
  obtain ⟨-, hout⟩ := h.entering.behind.past _ hlt p (getElem?_idxOf_blk hb)
  rw [Mem.leaves, hpos]
  exact hout v hv

/-- A phi has, for every edge into its block, what the slot holds where the block before is left. -/
theorem Turning.edges (hpreds : Preds P f) (hb : b ∈ P.fnblk f) (hx : x ∈ phisOf P f m₁ b) :
    m₂.ir.iblk x = P.bpred b ∧ ∃ s ∈ (m2rCollect P f).map Int.ofNat, startOf P f m₁ b s = (x : Nat) ∧
      m₂.ir.ilist x = (P.bpred b).map fun p => held P (m2rCollect P f) τ (startOf P f m₁ p) (P.binsn p) s := by
  obtain ⟨j, hc, hj⟩ := (mem_phisOf h.placed hb).mp hx
  have hcell := h.passed.cells.mpr hc
  have hmb : (m.ir.fnblk f)[(P.fnblk f).idxOf b]? = some b := by
    rw [h.passed.fnblk]
    exact getElem?_idxOf_blk hb
  have hmj : m.phiof ((P.fnblk f).idxOf b) j = x := by
    rw [h.passed.kin.phiof]
    exact hj
  have hbpred : m.ir.bpred = P.bpred := h.passed.kin.bpred.trans h.placed.bpred
  have hlen : j < (m2rCollect P f).length := hc.2.2
  have hblk := (h.filling.filled _ j b x hcell hmb hmj).blk
  rw [h.same.2.1] at hblk
  have hs : ((m2rCollect P f)[j] : Int) ∈ (m2rCollect P f).map Int.ofNat :=
    List.mem_map_of_mem (List.getElem_mem hlen)
  have hidx : slotIdx P f ((m2rCollect P f)[j] : Int) = j := by
    rw [slotIdx, idxOf_ofNat]
    exact (nodup_m2rCollect h.laid.insns).idxOf_getElem j hlen
  refine ⟨hblk, _, hs, ?_, ?_⟩
  · rw [(startOf_eq m₁ hb (Nat.one_le_iff_ne_zero.mp hc.1) hs).2, hidx]
    exact hj
  · rw [(h.given.values _ j b x hcell hmb hmj).1, hbpred]
    refine List.map_congr_left fun p hp => ?_
    have hleaves := h.leaves ((hpreds b hb p).mp hp).1 hs
    rw [hidx] at hleaves
    exact hleaves

/-- The filled store is the function with its slots turned into values. -/
theorem Turning.promoted (hroot : (P.fnblk f).head? = some root) (hpreds : Preds P f) :
    Promoted P m₂.ir f root (m2rCollect P f) τ (startOf P f m₁) (phisOf P f m₁) := by
  obtain ⟨hfnblk, hbpred, -, hiop, hia, hib⟩ := h.same
  have hold : ∀ {x}, x ∈ insns P f → x < P.size := fun hx => h.passed.lowered.size _ hx
  constructor
  case fnblk => rw [hfnblk]
  case binsn => exact fun b hb => h.split hb
  case bpred => exact hbpred
  case nodup => exact h.nodup
  case fresh => exact fun b hb x hx => (h.phi hb hx).1
  case row => exact fun x hx hno => (h.row (hold hx)).trans (h.entering.traced.row x hx fun hc => hno hc.2)
  case gone =>
    intro x hx hslot
    rw [hiop]
    exact h.entering.traced.gone x hx List.not_mem_nil hslot
  case moved =>
    intro w hw
    obtain ⟨x, hx, -, heq, hop, hslot⟩ := h.entering.traced.moved w hw
    exact ⟨x, hx, heq, hop, hslot⟩
  case loaded =>
    intro b hb l x rest hx hop hslot
    exact (h.entering.behind.loads _ b l x rest (getElem?_idxOf_blk hb) hx List.not_mem_nil hop hslot).2
  case phi =>
    intro b hb x hx
    obtain ⟨-, -, hblank⟩ := h.phi hb hx
    obtain ⟨hblk, hs⟩ := h.edges hpreds hb hx
    rw [hiop, hia, hib]
    exact ⟨hblank.op, hblank.ia, hblank.ib, hblk, hs⟩
  case full =>
    intro b hb hne s hs
    obtain ⟨hc, heq⟩ := startOf_eq m₁ hb ((idxOf_eq_zero hroot).not.mpr hne) hs
    obtain ⟨ph, hph, -⟩ := h.placed.phi _ _ hc
    exact ⟨ph, (mem_phisOf h.placed hb).mpr ⟨_, hc, hph⟩, heq.trans hph⟩
  case apart =>
    intro b hb hne s hs s' hs' heq
    have h0 := (idxOf_eq_zero hroot).not.mpr hne
    obtain ⟨hc, hstart⟩ := startOf_eq m₁ hb h0 hs
    obtain ⟨hc', hstart'⟩ := startOf_eq m₁ hb h0 hs'
    rw [hstart, hstart'] at heq
    exact (slotIdx_inj hs).mp (h.placed.apart _ _ _ _ hc hc' heq).2
  case bare => exact if_pos ((idxOf_eq_zero hroot).mpr rfl)
  case undef =>
    intro s hs a ha
    have heq : startOf P f m₁ root s = ((m₁.ir.size + slotIdx P f s : Nat) : Int) :=
      if_pos ((idxOf_eq_zero hroot).mpr rfl)
    rw [heq] at ha
    have hlt := h.lt ha.mem_insns
    omega

end

end IdCompiler.Ir

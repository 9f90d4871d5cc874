import Mathlib.Data.List.Induction
import IdCompiler.Ir.Mem2reg

/-!
# A phi for every slot in every block

What the first part of the pass leaves: fresh rows, each the phi of one place
and one slot, at the front of the blocks they are for, the last slot's first,
and everything else as it was.
-/

namespace IdCompiler.Ir

variable {ir : Rows} {m m₀ m₁ : Mem} {f i j b x n : Nat} {P : Nat → Nat → Prop}

/-! ## The front of a block -/

theorem m2rSwap_append {l r : List Nat} {y : Nat} :
    m2rSwap (l ++ y :: x :: r) (l.length + 1) = l ++ x :: y :: r := by
  simp [m2rSwap, List.set_append_right]

/-- The last instruction comes first and the others keep their order. -/
theorem m2rShift_append (l r : List Nat) : m2rShift (l ++ x :: r) l.length = x :: (l ++ r) := by
  induction l using List.reverseRecOn generalizing r with
  | nil => rfl
  | append_singleton l y ih =>
    rw [List.length_append, List.append_assoc, List.singleton_append]
    show m2rShift (m2rSwap (l ++ y :: x :: r) (l.length + 1)) l.length = _
    rw [m2rSwap_append, ih, List.append_assoc]
    rfl

/-! ## New rows -/

theorem irLeaf_row_of_ne {op ty s : String} {a b : Int} (h : x ≠ ir.size) :
    (irLeaf ir op ty a b s).row x = ir.row x := by
  unfold Rows.row irLeaf irInsn
  dsimp only
  rw [Function.update_of_ne h, Function.update_of_ne h, Function.update_of_ne h,
    Function.update_of_ne h, Function.update_of_ne h, Function.update_of_ne h, Function.update_of_ne h]

theorem irLeaf_row_self {op ty s : String} {a b : Int} :
    (irLeaf ir op ty a b s).row ir.size = ⟨ir.size, op, ty, a, b, s, [], []⟩ := by
  unfold Rows.row irLeaf irInsn
  dsimp only
  rw [Function.update_self, Function.update_self, Function.update_self, Function.update_self,
    Function.update_self, Function.update_self, Function.update_self]

theorem iop_of_row {ir ir' : Rows} (h : ir'.row x = ir.row x) : ir'.iop x = ir.iop x :=
  congrArg Row.op h

theorem operands_of_row {ir ir' : Rows} (h : ir'.row x = ir.row x) : operands ir' x = operands ir x :=
  congrArg (fun r : Row => r.a :: r.b :: r.list) h

/-- A phi that has no incoming value yet. -/
structure Blank (ir : Rows) (ph : Nat) : Prop where
  op : ir.iop ph = "phi"
  ia : ir.ia ph = -1
  ib : ir.ib ph = -1
  list : ir.ilist ph = []
  blk : ir.iblk ph = []

theorem Blank.of_row {ir ir' : Rows} (h : Blank ir x) (hrow : ir'.row x = ir.row x) : Blank ir' x :=
  ⟨(congrArg Row.op hrow).trans h.op, (congrArg Row.a hrow).trans h.ia, (congrArg Row.b hrow).trans h.ib,
    (congrArg Row.list hrow).trans h.list, (congrArg Row.blk hrow).trans h.blk⟩

/-! ## Placing -/

/-- The cells of `P` have their phis, and nothing else was done. -/
structure Placed (f : Nat) (m₀ m : Mem) (P : Nat → Nat → Prop) : Prop where
  size : m₀.ir.size ≤ m.ir.size
  row : ∀ x < m₀.ir.size, m.ir.row x = m₀.ir.row x
  fnblk : m.ir.fnblk = m₀.ir.fnblk
  bpred : m.ir.bpred = m₀.ir.bpred
  pra : m.pra = m₀.pra
  phi : ∀ i j, P i j → ∃ ph : Nat, m.phiof i j = ph ∧ m₀.ir.size ≤ ph ∧ ph < m.ir.size ∧ Blank m.ir ph
  apart : ∀ i j i' j', P i j → P i' j' → m.phiof i j = m.phiof i' j' → i = i' ∧ j = j'
  /-- A block begins with phis of its own place. -/
  binsn : ∀ b, ∃ phs, m.ir.binsn b = phs ++ m₀.ir.binsn b ∧
    ∀ ph ∈ phs, ∃ i j, P i j ∧ (m₀.ir.fnblk f)[i]? = some b ∧ m.phiof i j = (ph : Nat)

theorem Placed.refl : Placed f m m fun _ _ => False :=
  ⟨Nat.le_refl _, fun _ _ => rfl, rfl, rfl, rfl, fun _ _ h => h.elim, fun _ _ _ _ h => h.elim,
    fun _ => ⟨[], rfl, fun _ h => absurd h List.not_mem_nil⟩⟩

theorem Placed.congr {P' : Nat → Nat → Prop} (h : Placed f m₀ m P) (hP : ∀ i j, P i j ↔ P' i j) :
    Placed f m₀ m P' := by
  have heq : P = P' := funext fun i => funext fun j => propext (hP i j)
  exact heq ▸ h

theorem setCell_self {t : Nat → Nat → Int} {v : Int} : setCell t i j v i j = v := by
  rw [setCell, Function.update_self, Function.update_self]

theorem setCell_of_ne {t : Nat → Nat → Int} {v : Int} {i' j' : Nat} (h : ¬(i' = i ∧ j' = j)) :
    setCell t i j v i' j' = t i' j' := by
  unfold setCell
  by_cases hi : i' = i
  · subst hi
    rw [Function.update_self, Function.update_of_ne fun hj => h ⟨rfl, hj⟩]
  · rw [Function.update_of_ne hi]

theorem Placed.phiOne (h : Placed f m₀ m P) (hb : (m₀.ir.fnblk f)[i]? = some b) (hnew : ¬P i j) :
    Placed f m₀ (m2rPhiOne i b m j) fun i' j' => P i' j' ∨ i' = i ∧ j' = j := by
  have hcell : ∀ i' j', P i' j' → (m2rPhiOne i b m j).phiof i' j' = m.phiof i' j' :=
    fun i' j' hP => setCell_of_ne fun heq => hnew (heq.1 ▸ heq.2 ▸ hP)
  have hself : (m2rPhiOne i b m j).phiof i j = m.ir.size := setCell_self
  have hrow : ∀ y, y ≠ m.ir.size → (m2rPhiOne i b m j).ir.row y = m.ir.row y :=
    fun y hy => irLeaf_row_of_ne hy
  constructor
  case size => exact Nat.le_succ_of_le h.size
  case row =>
    intro y hy
    have hle := h.size
    rw [hrow y (by omega), h.row y hy]
  case fnblk => exact h.fnblk
  case bpred => exact h.bpred
  case pra => exact h.pra
  case phi =>
    rintro i' j' (hP | ⟨rfl, rfl⟩)
    · obtain ⟨ph, hph, hge, hlt, hblank⟩ := h.phi i' j' hP
      exact ⟨ph, (hcell i' j' hP).trans hph, hge, Nat.lt_succ_of_lt hlt,
        hblank.of_row (hrow ph (Nat.ne_of_lt hlt))⟩
    · have hnewrow : (m2rPhiOne i' b m j').ir.row m.ir.size =
          ⟨m.ir.size, "phi", m.slotTy j', 0 - 1, 0 - 1, "", [], []⟩ := irLeaf_row_self
      exact ⟨m.ir.size, hself, h.size, Nat.lt_succ_self _, congrArg Row.op hnewrow,
        congrArg Row.a hnewrow, congrArg Row.b hnewrow, congrArg Row.list hnewrow, congrArg Row.blk hnewrow⟩
  case apart =>
    -- The new id is larger than all others.
    have hother : ∀ i' j', P i' j' → (m2rPhiOne i b m j).phiof i' j' ≠ m.ir.size := by
      intro i' j' hP heq
      obtain ⟨ph, hph, -, hlt, -⟩ := h.phi i' j' hP
      rw [hcell i' j' hP, hph] at heq
      omega
    rintro i₁ j₁ i₂ j₂ (h₁ | ⟨rfl, rfl⟩) (h₂ | ⟨rfl, rfl⟩) heq
    · rw [hcell i₁ j₁ h₁, hcell i₂ j₂ h₂] at heq
      exact h.apart i₁ j₁ i₂ j₂ h₁ h₂ heq
    · exact absurd (heq.trans hself) (hother i₁ j₁ h₁)
    · exact absurd (heq.symm.trans hself) (hother i₂ j₂ h₂)
    · exact ⟨rfl, rfl⟩
  case binsn =>
    intro c
    obtain ⟨phs, hphs, hcells⟩ := h.binsn c
    have hold : ∀ ph ∈ phs, ∃ i' j', (P i' j' ∨ i' = i ∧ j' = j) ∧ (m₀.ir.fnblk f)[i']? = some c ∧
        (m2rPhiOne i b m j).phiof i' j' = (ph : Nat) := by
      intro ph hph
      obtain ⟨i', j', hP, hc, heq⟩ := hcells ph hph
      exact ⟨i', j', .inl hP, hc, (hcell i' j' hP).trans heq⟩
    show ∃ phs, Function.update m.ir.binsn b _ c = phs ++ m₀.ir.binsn c ∧ _
    by_cases hc : c = b
    · subst hc
      refine ⟨m.ir.size :: phs, ?_, fun ph hph => ?_⟩
      · have hfront := m2rShift_append (x := m.ir.size) (m.ir.binsn c) []
        rw [List.append_nil] at hfront
        rw [Function.update_self]
        show m2rShift (m.ir.binsn c ++ [m.ir.size]) (m.ir.binsn c).length = _
        rw [hfront, hphs]
        rfl
      · cases List.mem_cons.mp hph with
        | inl heq => exact ⟨i, j, .inr ⟨rfl, rfl⟩, hb, by rw [hself, heq]⟩
        | inr hph => exact hold ph hph
    · refine ⟨phs, ?_, hold⟩
      rw [Function.update_of_ne hc]
      exact hphs

theorem Placed.phiBlk (h : Placed f m₀ m P) (hb : (m₀.ir.fnblk f)[i]? = some b) (hnew : ∀ j, ¬P i j) :
    Placed f m₀ (m2rPhiBlk i b m) fun i' j' => P i' j' ∨ i' = i ∧ j' < m₀.pra.length := by
  have hrange : ∀ n, Placed f m₀ ((List.range n).foldl (m2rPhiOne i b) m)
      fun i' j' => P i' j' ∨ i' = i ∧ j' < n := by
    intro n
    induction n with
    | zero =>
      apply h.congr
      simp
    | succ n ih =>
      rw [List.range_succ, List.foldl_append]
      apply (ih.phiOne hb _).congr
      · intro i' j'
        rw [or_assoc, ← and_or_left, ← Nat.lt_succ_iff_lt_or_eq]
      · rintro (hP | ⟨-, hlt⟩)
        · exact hnew n hP
        · omega
  rw [m2rPhiBlk, h.pra]
  exact hrange _

/-- The cells of the places from 1 to before `n`. -/
def Cells (m₀ : Mem) (n i j : Nat) : Prop := 1 ≤ i ∧ i < n ∧ j < m₀.pra.length

theorem Placed.phisFrom {bs : List Nat} (h : Placed f m₀ m (Cells m₀ i)) (hi : 1 ≤ i)
    (hbs : (m₀.ir.fnblk f).drop i = bs) :
    Placed f m₀ (m2rPhisFrom i bs m) (Cells m₀ (i + bs.length)) := by
  induction bs generalizing i m with
  | nil => exact h
  | cons b bs ih =>
    have hb : (m₀.ir.fnblk f)[i]? = some b := by
      rw [← List.head?_drop, hbs]
      rfl
    have hrest : (m₀.ir.fnblk f).drop (i + 1) = bs := by
      rw [← List.tail_drop, hbs]
      rfl
    have hblk := h.phiBlk hb fun j hc => absurd hc.2.1 (Nat.lt_irrefl i)
    have hnext : Placed f m₀ (m2rPhiBlk i b m) (Cells m₀ (i + 1)) := by
      apply hblk.congr
      intro i' j'
      unfold Cells
      omega
    have hall := ih hnext (Nat.le_add_left 1 i) hrest
    rw [show i + (b :: bs).length = i + 1 + bs.length by rw [List.length_cons]; omega]
    exact hall

/-- After the first part every slot has a phi at every place but the first. -/
theorem placed_m2rPhis (m : Mem) (f : Nat) :
    Placed f m (m2rPhis m f) (Cells m (m.ir.fnblk f).length) := by
  have hstart : Placed f m m (Cells m 1) :=
    Placed.refl.congr fun i j => ⟨False.elim, fun h => absurd h.2.1 (Nat.not_lt.mpr h.1)⟩
  have hall := hstart.phisFrom (Nat.le_refl 1) (List.drop_one)
  apply hall.congr
  intro i j
  unfold Cells
  rw [List.length_tail]
  omega

/-! ## The phis by their places -/

/-- The phis of a place, in the order in which they stand. -/
def Mem.phisAt (m : Mem) (n i : Nat) : List Nat := (List.range n).reverse.map fun j => (m.phiof i j).toNat

theorem m2rPhiOne_binsn (i b : Nat) (m : Mem) (j : Nat) : (m2rPhiOne i b m j).ir.binsn =
    Function.update m.ir.binsn b (m.ir.size :: m.ir.binsn b) := by
  have hfront := m2rShift_append (x := m.ir.size) (m.ir.binsn b) []
  rw [List.append_nil] at hfront
  show Function.update m.ir.binsn b (m2rShift (m.ir.binsn b ++ [m.ir.size]) (m.ir.binsn b).length) = _
  rw [hfront]

theorem phisAt_succ : m.phisAt (n + 1) i = (m.phiof i n).toNat :: m.phisAt n i := by
  rw [Mem.phisAt, List.range_succ, List.reverse_append, List.reverse_singleton, List.singleton_append,
    List.map_cons, Mem.phisAt]

theorem phisAt_congr (h : ∀ j < n, m₁.phiof i j = m.phiof i j) : m₁.phisAt n i = m.phisAt n i :=
  List.map_congr_left fun j hj => by rw [h j (List.mem_range.mp (List.mem_reverse.mp hj))]

/-- The phis of one place, made one after the other. -/
theorem m2rPhiBlk_binsn (i b : Nat) (m : Mem) :
    (∀ c, (m2rPhiBlk i b m).ir.binsn c =
      if c = b then (m2rPhiBlk i b m).phisAt m.pra.length i ++ m.ir.binsn b else m.ir.binsn c) ∧
    ∀ i' j, i' ≠ i → (m2rPhiBlk i b m).phiof i' j = m.phiof i' j := by
  have hrange : ∀ n, (∀ c, ((List.range n).foldl (m2rPhiOne i b) m).ir.binsn c =
      if c = b then ((List.range n).foldl (m2rPhiOne i b) m).phisAt n i ++ m.ir.binsn b else m.ir.binsn c) ∧
      ∀ i' j, i' ≠ i → ((List.range n).foldl (m2rPhiOne i b) m).phiof i' j = m.phiof i' j := by
    intro n
    induction n with
    | zero =>
      refine ⟨fun c => ?_, fun _ _ _ => rfl⟩
      split
      · next hc => rw [hc]; rfl
      · rfl
    | succ n ih =>
      rw [List.range_succ, List.foldl_append, List.foldl_cons, List.foldl_nil]
      generalize (List.range n).foldl (m2rPhiOne i b) m = m' at ih
      obtain ⟨hbinsn, hphiof⟩ := ih
      have hself : (m2rPhiOne i b m' n).phiof i n = m'.ir.size := setCell_self
      have hother : ∀ i' j, ¬(i' = i ∧ j = n) → (m2rPhiOne i b m' n).phiof i' j = m'.phiof i' j :=
        fun i' j hne => setCell_of_ne hne
      refine ⟨fun c => ?_, fun i' j hne => (hother i' j fun heq => hne heq.1).trans (hphiof i' j hne)⟩
      rw [m2rPhiOne_binsn]
      by_cases hc : c = b
      · have hold : (m2rPhiOne i b m' n).phisAt n i = m'.phisAt n i :=
          phisAt_congr fun j hj => hother i j fun heq => by omega
        rw [hc, Function.update_self, hbinsn b, if_pos rfl, if_pos rfl, phisAt_succ, hself, hold]
        rfl
      · rw [Function.update_of_ne hc, hbinsn c, if_neg hc, if_neg hc]
  exact hrange m.pra.length

theorem m2rPhiBlk_pra (i b : Nat) (m : Mem) : (m2rPhiBlk i b m).pra = m.pra := by
  unfold m2rPhiBlk
  generalize List.range m.pra.length = l
  induction l generalizing m with
  | nil => rfl
  | cons j l ih =>
    rw [List.foldl_cons]
    exact ih (m2rPhiOne i b m j)

theorem m2rPhisFrom_binsn (i : Nat) (bs : List Nat) (m : Mem) (hn : bs.Nodup) :
    (∀ k c, bs[k]? = some c → (m2rPhisFrom i bs m).ir.binsn c =
      (m2rPhisFrom i bs m).phisAt m.pra.length (i + k) ++ m.ir.binsn c) ∧
    (∀ c, c ∉ bs → (m2rPhisFrom i bs m).ir.binsn c = m.ir.binsn c) ∧
    ∀ i' j, i' < i → (m2rPhisFrom i bs m).phiof i' j = m.phiof i' j := by
  induction bs generalizing i m with
  | nil => exact ⟨fun k c hc => by simp at hc, fun _ _ => rfl, fun _ _ _ => rfl⟩
  | cons b bs ih =>
    obtain ⟨hnot, hn⟩ := List.nodup_cons.mp hn
    obtain ⟨hblk, hkeep⟩ := m2rPhiBlk_binsn i b m
    obtain ⟨hat, hoff, hbefore⟩ := ih (i + 1) (m2rPhiBlk i b m) hn
    rw [m2rPhiBlk_pra] at hat
    rw [m2rPhisFrom]
    refine ⟨fun k c hc => ?_, fun c hc => ?_, fun i' j hi => ?_⟩
    · cases k with
      | zero =>
        obtain rfl : b = c := Option.some.inj hc
        have hsame : (m2rPhisFrom (i + 1) bs (m2rPhiBlk i b m)).phisAt m.pra.length (i + 0) =
            (m2rPhiBlk i b m).phisAt m.pra.length i := phisAt_congr fun j _ => hbefore i j (Nat.lt_succ_self i)
        rw [hoff b hnot, hblk b, if_pos rfl, hsame]
      | succ k =>
        have hc : bs[k]? = some c := hc
        have hne : c ≠ b := fun heq => hnot (heq ▸ List.mem_of_getElem? hc)
        have hplace : i + (k + 1) = i + 1 + k := by omega
        rw [hat k c hc, hblk c, if_neg hne, hplace]
    · obtain ⟨hne, hc⟩ := not_or.mp (List.mem_cons.not.mp hc)
      rw [hoff c hc, hblk c, if_neg hne]
    · rw [hbefore i' j (Nat.lt_succ_of_lt hi), hkeep i' j (Nat.ne_of_lt hi)]

/-- Each block but the first begins with the phis of its place. -/
theorem m2rPhis_binsn (hn : (m.ir.fnblk f).Nodup) (hb : (m.ir.fnblk f)[i]? = some b) :
    (m2rPhis m f).ir.binsn b =
      (if i = 0 then [] else (m2rPhis m f).phisAt m.pra.length i) ++ m.ir.binsn b := by
  unfold m2rPhis
  cases hfn : m.ir.fnblk f with
  | nil =>
    rw [hfn] at hb
    simp at hb
  | cons e bs =>
    rw [hfn] at hn hb
    obtain ⟨hnot, hn⟩ := List.nodup_cons.mp hn
    obtain ⟨hat, hoff, -⟩ := m2rPhisFrom_binsn 1 bs m hn
    cases i with
    | zero =>
      obtain rfl : e = b := Option.some.inj hb
      exact hoff e hnot
    | succ i =>
      have hplace : 1 + i = i + 1 := Nat.add_comm 1 i
      rw [if_neg (Nat.succ_ne_zero i), ← hplace]
      exact hat i b hb

end IdCompiler.Ir

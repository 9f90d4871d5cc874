import IdCompiler.Ir.Wellformed

/-!
# The function after the pass

Each phi that is dropped is one instruction less, so the sweeps end, and when
they do no phi that is left is one value. A phi that has no incoming value but
itself is kept: no path reaches its block, and there is nothing to replace it by.
-/

namespace IdCompiler.Ir

variable {ir ir' : Rows} {m m' : Mem} {f b x id : Nat} {v w u : Int} {l : List Int} {s : Mem × Nat}

/-! ## One value -/

/-- A phi whose incoming values other than itself are one value. -/
def OneValue (ir : Rows) (ph : Nat) : Prop :=
  ∃ v ∈ ir.ilist ph, v ≠ ph ∧ ∀ w ∈ ir.ilist ph, w = ph ∨ w = v

theorem m2rPick_cases (id : Nat) (u w : Int) : m2rPick id u w = u ∨ m2rPick id u w = -2 ∨
    u = -1 ∧ m2rPick id u w = w ∧ w ≠ id := by
  unfold m2rPick
  split
  · exact .inl rfl
  · next h =>
    split
    · next hu => exact .inr (.inr ⟨hu, rfl, fun heq => h (.inl heq)⟩)
    · exact .inr (.inl rfl)

/-- What the scan ends with was there at the start or is one of the values. -/
theorem foldl_m2rPick (hu : u < 0) (h : 0 ≤ l.foldl (m2rPick id) u) :
    l.foldl (m2rPick id) u ∈ l ∧ l.foldl (m2rPick id) u ≠ id := by
  have hall : ∀ (l : List Int) u, 0 ≤ l.foldl (m2rPick id) u → l.foldl (m2rPick id) u = u ∨
      l.foldl (m2rPick id) u ∈ l ∧ l.foldl (m2rPick id) u ≠ id := by
    intro l
    induction l with
    | nil => exact fun u _ => .inl rfl
    | cons w l ih =>
      intro u hpos
      rw [List.foldl_cons] at hpos ⊢
      rcases ih (m2rPick id u w) hpos with heq | ⟨hin, hne⟩
      · rw [heq] at hpos ⊢
        rcases m2rPick_cases id u w with hsame | hseveral | ⟨-, hw, hne⟩
        · exact .inl hsame
        · rw [hseveral] at hpos
          exact absurd hpos (by decide)
        · rw [hw]
          exact .inr ⟨List.mem_cons_self, hne⟩
      · exact .inr ⟨List.mem_cons_of_mem _ hin, hne⟩
  exact (hall l u h).resolve_left fun heq => by omega

/-- Where the values other than the phi are all one value, the scan ends with it. -/
theorem foldl_m2rPick_eq (hv : 0 ≤ v) (hne : v ≠ id) (hall : ∀ w ∈ l, w = id ∨ w = v) :
    l.foldl (m2rPick id) v = v ∧ (v ∈ l → l.foldl (m2rPick id) (-1) = v) := by
  induction l with
  | nil => exact ⟨rfl, fun h => absurd h List.not_mem_nil⟩
  | cons w l ih =>
    obtain ⟨hsame, hfirst⟩ := ih fun w hw => hall w (List.mem_cons_of_mem _ hw)
    rw [List.foldl_cons, List.foldl_cons]
    rcases hall w List.mem_cons_self with rfl | rfl
    · have hpick : ∀ u, m2rPick id u id = u := fun u => if_pos (.inl rfl)
      rw [hpick, hpick]
      refine ⟨hsame, fun hin => hfirst ?_⟩
      exact (List.mem_cons.mp hin).resolve_left hne
    · have hpick : m2rPick id w w = w := if_pos (.inr rfl)
      have hpick' : m2rPick id (-1) w = w := by
        unfold m2rPick
        rw [if_neg (by omega), if_pos (by omega)]
      rw [hpick, hpick']
      exact ⟨hsame, fun _ => hsame⟩

/-- A phi that the sweep does not take for one value is none. -/
theorem not_oneValue (hvalues : ∀ v ∈ ir.ilist x, 0 ≤ v) (hneg : ¬0 ≤ m2rSame ir x) :
    ¬OneValue ir x := by
  rintro ⟨v, hin, hne, hall⟩
  have hv := hvalues v hin
  have heq := (foldl_m2rPick_eq hv hne hall).2 hin
  rw [m2rSame] at hneg
  exact hneg (heq.symm ▸ hv)

/-! ## Sweeps -/

/-- What the sweeps leave alone, and that they keep what operands and phis name. -/
structure Collapses (f : Nat) (m m' : Mem) : Prop where
  fnblk : m'.ir.fnblk = m.ir.fnblk
  binsn : m'.ir.binsn = m.ir.binsn
  bpred : m'.ir.bpred = m.ir.bpred
  iblk : m'.ir.iblk = m.ir.iblk
  pra : m'.pra = m.pra
  iop : ∀ x, m'.ir.iop x = m.ir.iop x ∨ m'.ir.iop x = "nop"
  wired : Wired m.ir f → Wired m'.ir f

instance : IsPreorder Mem (Collapses f) where
  refl _ := ⟨rfl, rfl, rfl, rfl, rfl, fun _ => .inl rfl, fun h => h⟩
  trans _ _ _ h h' := by
    constructor
    case fnblk => rw [h'.fnblk, h.fnblk]
    case binsn => rw [h'.binsn, h.binsn]
    case bpred => rw [h'.bpred, h.bpred]
    case iblk => rw [h'.iblk, h.iblk]
    case pra => rw [h'.pra, h.pra]
    case iop =>
      intro x
      cases h'.iop x with
      | inl heq => exact (h.iop x).imp heq.trans heq.trans
      | inr hnop => exact .inr hnop
    case wired => exact fun hw => h'.wired (h.wired hw)

/-- A phi that is one value. -/
def Collapsible (m : Mem) (id : Nat) : Prop := m.ir.iop id = "phi" ∧ 0 ≤ m2rSame m.ir id

/-- What treating the instructions `l` does. -/
abbrev M2rSwept (f : Nat) (l : List Nat) (s s' : Mem × Nat) : Prop :=
  Core.Swept (Collapses f) (live ·.ir f) Collapsible l s s'

theorem Collapses.insns (h : Collapses f m m') : insns m'.ir f = insns m.ir f := by
  unfold Ir.insns
  rw [h.fnblk, h.binsn]

theorem Wired.dropped (h : Wired ir f) (hv : Ready ir [] v) (hne : v ≠ id) :
    Wired (dropped ir f id v) f := by
  have hkept : ∀ {x}, (Ir.dropped ir f id v).iop x ≠ "nop" →
      (Ir.dropped ir f id v).iop x = ir.iop x := by
    intro x hx
    rw [dropped_iop] at hx ⊢
    exact irKill_iop_of_ne fun heq => hx (by rw [heq, irKill_iop_self])
  refine ⟨fun x hx hlive w hw => ?_, fun b hb x hx hop => ?_⟩
  · rw [insns_dropped] at hx
    rw [operands_dropped hx] at hw
    obtain ⟨u, hu, rfl⟩ := List.mem_map.mp hw
    exact (h.named x hx (hkept hlive ▸ hlive) u hu).swap hv hne
  · have hlive : (Ir.dropped ir f id v).iop x ≠ "nop" := by
      rw [hop]
      decide
    rw [dropped_fnblk] at hb
    rw [dropped_binsn] at hx
    obtain ⟨hblk, hlen, hvalues⟩ := h.filled b hb x hx ((hkept hlive).symm.trans hop)
    have hlist : (Ir.dropped ir f id v).ilist x = (ir.ilist x).map (swap id v) :=
      opRauw_ilist (mem_insns.mpr ⟨b, hb, hx⟩)
    refine ⟨?_, ?_, fun w hw => ?_⟩
    · rw [dropped_iblk, dropped_bpred, hblk]
    · rw [hlist, dropped_bpred, List.length_map, hlen]
    · rw [hlist] at hw
      obtain ⟨u, hu, rfl⟩ := List.mem_map.mp hw
      exact (hvalues u hu).swap hv hne

theorem m2rTry_swept (hb : b ∈ s.1.ir.fnblk f) (hid : id ∈ s.1.ir.binsn b) :
    M2rSwept f [id] s (m2rTry f s id) := by
  have hin : id ∈ insns s.1.ir f := mem_insns.mpr ⟨b, hb, hid⟩
  unfold m2rTry
  by_cases hc : Collapsible s.1 id
  · have hyes : s.1.ir.iop id = "phi" ∧ 0 ≤ m2rSame s.1.ir id := hc
    rw [if_pos hyes]
    obtain ⟨hmem, hne⟩ := foldl_m2rPick (u := 0 - 1) (by decide) hc.2
    apply Core.Swept.act
    · constructor
      case wired =>
        intro hw
        exact hw.dropped ((hw.filled b hb id hid hc.1).values _ hmem) hne
      case iop =>
        intro x
        show (dropped s.1.ir f id _).iop x = _ ∨ (dropped s.1.ir f id _).iop x = _
        rw [dropped_iop]
        by_cases hx : x = id
        · exact .inr (hx ▸ irKill_iop_self)
        · exact .inl (irKill_iop_of_ne hx)
      case fnblk => exact dropped_fnblk
      case binsn => exact dropped_binsn
      case bpred => exact dropped_bpred
      case iblk => exact dropped_iblk
      case pra => rfl
    · apply live_dropped_lt hin
      rw [hc.1]
      decide
    · rfl
  · have hno : ¬(s.1.ir.iop id = "phi" ∧ 0 ≤ m2rSame s.1.ir id) := hc
    rw [if_neg hno]
    exact .pass hc

theorem m2rSweep_swept : M2rSwept f (insns m.ir f) (m, 0) (m2rSweep m f) := by
  apply Core.Swept.foldl
  intro s hrel b hb
  have hall : M2rSwept f ((s.1.ir.binsn b).flatMap fun id => [id]) s (m2rSweepB f s b) := by
    apply Core.Swept.foldl
    intro s' hrel' id hid
    apply m2rTry_swept (b := b)
    · rw [hrel'.fnblk, hrel.fnblk]
      exact hb
    · rw [hrel'.binsn]
      exact hid
  rw [List.flatMap_singleton', hrel.binsn] at hall
  exact hall

theorem m2rCleanLoop_eq {fuel n : Nat} :
    m2rCleanLoop f fuel n m = Core.sweeps (fun m => m2rSweep m f) fuel n m := by
  induction fuel generalizing n m with
  | zero => rfl
  | succ fuel ih => rw [m2rCleanLoop, Core.sweeps, ih]

/-- The sweeps end, and no phi that is left is one value. -/
theorem m2rClean_some (m : Mem) (f : Nat) : ∃ m', m2rClean m f = some m' ∧ Collapses f m m' ∧
    ∀ id ∈ insns m'.ir f, ¬Collapsible m' id := by
  have hsweep : ∀ m', Collapses f m m' → M2rSwept f (insns m.ir f) (m', 0) (m2rSweep m' f) :=
    fun m' hrel => hrel.insns ▸ m2rSweep_swept
  obtain ⟨m', hrun, hrel, hno⟩ := Core.Swept.ends hsweep
  refine ⟨m', ?_, hrel, hrel.insns ▸ hno⟩
  rw [m2rClean, m2rCleanLoop_eq]
  exact hrun

/-! ## The pass -/

/-- What `op_mem2reg` leaves is well formed. -/
structure WellFormed (ir : Rows) (f : Nat) : Prop where
  /-- What an instruction names is computed by a row that is left, and is no slot. -/
  named : ∀ x ∈ insns ir f, ir.iop x ≠ "nop" → ∀ v ∈ operands ir x, Named ir [] v
  edges : ∀ b ∈ ir.fnblk f, ir.bpred b = predEdges ir f b
  /-- A phi has one value and one block for each edge into its block, in order. -/
  filled : ∀ b ∈ ir.fnblk f, ∀ x ∈ ir.binsn b, ir.iop x = "phi" → Filled ir b x
  /-- A phi that is one value is gone. -/
  several : ∀ x ∈ insns ir f, ir.iop x = "phi" → ¬OneValue ir x

theorem foldl_irKill (slots : List Nat) (ir : Rows) : ∃ ty, slots.foldl irKill ir =
    { ir with iop := fun x => if x ∈ slots then "nop" else ir.iop x, ity := ty } := by
  induction slots generalizing ir with
  | nil => exact ⟨ir.ity, rfl⟩
  | cons s slots ih =>
    obtain ⟨ty, heq⟩ := ih (irKill ir s)
    refine ⟨ty, heq.trans ?_⟩
    unfold irKill
    congr 1
    funext x
    show (if x ∈ slots then "nop" else Function.update ir.iop s "nop" x) = _
    by_cases hx : x = s
    · subst hx
      rw [Function.update_self, ite_self, if_pos List.mem_cons_self]
    · rw [Function.update_of_ne hx]
      simp only [List.mem_cons, hx, false_or]

/-- The terminators are where they were, and so are the edges. -/
theorem Around.predEdges (h : Around ir f m) (hl : Lowered ir f) (hrel : Collapses f m m') (b : Nat) :
    predEdges m'.ir f b = predEdges ir f b := by
  have htargets : ∀ p ∈ ir.fnblk f, targets m'.ir p = targets ir p := by
    intro p hp
    obtain ⟨phs, hphs⟩ := h.binsn p
    unfold targets
    rw [hrel.binsn, hphs, List.getLast?_append]
    cases hlast : (ir.binsn p).getLast? with
    | none => exact absurd (List.getLast?_eq_none_iff.mp hlast) (hl.full p hp)
    | some v =>
      have hin : v ∈ insns ir f := mem_insns.mpr ⟨p, hp, List.mem_of_getLast? hlast⟩
      show m'.ir.iblk v = ir.iblk v
      rw [hrel.iblk, h.iblk v hin]
  unfold Ir.predEdges
  rw [hrel.fnblk, h.fnblk]
  apply List.flatMap_congr
  intro p hp
  rw [htargets p hp]

/-- A slot set before a loop whose condition reads it, and read once more after it. -/
def looping : Rows :=
  ⟨7, fun x => ["alloca", "store", "br", "load", "cbr", "ret", "const"].getD x "",
    fun x => ["int", "", "", "int", "", "", "int"].getD x "",
    fun x => [-1, 0, -1, 0, 3, 3].getD x (-1), fun x => [-1, 6].getD x (-1), fun _ => "",
    fun _ => [], fun x => [[], [], [1], [], [1, 2]].getD x [], fun x => [0, 0, 0, 1, 1, 2].getD x (-1),
    fun b => [[0, 1, 2], [3, 4], [5]].getD b [], fun _ => [], fun _ => [0, 1, 2]⟩

theorem looping_lowered : Lowered looping 0 := by decide

/-- A phi whose incoming values other than itself are all equal. -/
def AllEqual (ir : Rows) (ph : Nat) : Prop :=
  ∀ v ∈ ir.ilist ph, ∀ w ∈ ir.ilist ph, v ≠ ph → w ≠ ph → v = w

instance (ir : Rows) (ph : Nat) : Decidable (AllEqual ir ph) :=
  inferInstanceAs (Decidable (∀ v ∈ ir.ilist ph, ∀ w ∈ ir.ilist ph, v ≠ ph → w ≠ ph → v = w))

/-- A slot that is never used, and a block that no branch goes to. -/
def unreached : Rows :=
  ⟨3, fun x => ["alloca", "ret", "ret"].getD x "", fun x => ["int", "", ""].getD x "", fun _ => -1,
    fun _ => -1, fun _ => "", fun _ => [], fun _ => [], fun x => [0, 0, 1].getD x (-1),
    fun b => [[0, 1], [2]].getD b [], fun _ => [], fun _ => [0, 1]⟩

theorem unreached_lowered : Lowered unreached 0 := by decide

end IdCompiler.Ir

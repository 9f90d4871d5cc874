import Mathlib.Data.List.Infix
import IdCompiler.Ir.Edits
import IdCompiler.Ir.Phis

/-!
# The walk over the blocks

A load of a slot goes as soon as the walk comes to it, and every use of it
becomes the value that the slot has there. That value is never itself a load
the walk has still to come to: an operand is defined before it is used, and
what the table of outgoing values holds is what stores named and what the
phis are. So nothing that is left names what is gone.
-/

namespace IdCompiler.Ir

/-! ## What the lowering builds -/

/-- The opcodes of rows that compute no value: a killed row, a store, and a slot, which is only
an address. -/
def noValue : List String := ["nop", "store", "alloca"]

/-- A value that is computed, and not by an instruction from `l` on. -/
def Defined (ir : Rows) (l : List Nat) (v : Int) : Prop :=
  ∃ r : Nat, v = r ∧ r < ir.size ∧ ir.iop r ∉ noValue ∧ r ∉ l

/-- The address of one of the slots, in a load or a store. -/
def Addresses (ir : Rows) (slots : List Nat) (x : Nat) : Prop :=
  (ir.iop x = "load" ∨ ir.iop x = "store") ∧ ∃ s ∈ slots, ir.ia x = (s : Nat) ∧ ir.iop s = "alloca"

/-- A function as the lowering builds it. -/
structure Lowered (ir : Rows) (f : Nat) : Prop where
  size : ∀ x ∈ insns ir f, x < ir.size
  /-- Every block ends in its terminator. -/
  full : ∀ b ∈ ir.fnblk f, ir.binsn b ≠ []
  /-- Only this pass makes phis. -/
  noPhi : ∀ x ∈ insns ir f, ir.iop x ≠ "phi"
  /-- What an instruction names was defined before it, in its block or an earlier one, or is in
  no block, as constants are. Only an address may be a slot, one of the entry block. -/
  named : ∀ x l, x :: l <:+ insns ir f → ir.iop x ≠ "nop" →
    (∀ v ∈ ir.ib x :: ir.ilist x, v = -1 ∨ Defined ir (x :: l) v) ∧
      (ir.ia x = -1 ∨ Defined ir (x :: l) (ir.ia x) ∨ Addresses ir (m2rCollect ir f) x)
  /-- A store names what it stores. -/
  stored : ∀ x ∈ insns ir f, ir.iop x = "store" → ir.ib x ≠ -1

instance (ir : Rows) (l : List Nat) (v : Int) : Decidable (Defined ir l v) :=
  decidable_of_iff (0 ≤ v ∧ v.toNat < ir.size ∧ ir.iop v.toNat ∉ noValue ∧ v.toNat ∉ l) <| by
    constructor
    · rintro ⟨hpos, hlt, hop, hnot⟩
      exact ⟨v.toNat, (Int.toNat_of_nonneg hpos).symm, hlt, hop, hnot⟩
    · rintro ⟨r, rfl, hlt, hop, hnot⟩
      exact ⟨Int.natCast_nonneg r, hlt, hop, hnot⟩

instance (ir : Rows) (slots : List Nat) (x : Nat) : Decidable (Addresses ir slots x) :=
  inferInstanceAs (Decidable (_ ∧ ∃ s ∈ slots, _ ∧ _))

/-- What an instruction before `l` names, as the lowering has it. -/
def NamedBefore (ir : Rows) (f : Nat) : List Nat → Prop
  | [] => True
  | x :: l => ir.iop x ≠ "nop" → (∀ v ∈ ir.ib x :: ir.ilist x, v = -1 ∨ Defined ir (x :: l) v) ∧
      (ir.ia x = -1 ∨ Defined ir (x :: l) (ir.ia x) ∨ Addresses ir (m2rCollect ir f) x)

instance (ir : Rows) (f : Nat) (l : List Nat) : Decidable (NamedBefore ir f l) :=
  match l with
  | [] => isTrue trivial
  | _ :: _ => inferInstanceAs (Decidable (_ → _ ∧ _))

instance (ir : Rows) (f : Nat) : Decidable (Lowered ir f) :=
  decidable_of_iff ((∀ x ∈ insns ir f, x < ir.size) ∧ (∀ b ∈ ir.fnblk f, ir.binsn b ≠ []) ∧
    (∀ x ∈ insns ir f, ir.iop x ≠ "phi") ∧ (∀ l ∈ (insns ir f).tails, NamedBefore ir f l) ∧
    ∀ x ∈ insns ir f, ir.iop x = "store" → ir.ib x ≠ -1) <| by
    constructor
    · rintro ⟨hsize, hfull, hphi, hnamed, hstored⟩
      exact ⟨hsize, hfull, hphi, fun x l hl => hnamed (x :: l) ((List.mem_tails _ _).mpr hl), hstored⟩
    · intro h
      refine ⟨h.size, h.full, h.noPhi, fun l hl => ?_, h.stored⟩
      cases l with
      | nil => trivial
      | cons x l => exact h.named x l ((List.mem_tails _ _).mp hl)

/-! ## Values that are ready -/

/-- A value that is computed, and not by a load that the walk has still to come to. -/
def Ready (ir : Rows) (rest : List Nat) (v : Int) : Prop :=
  ∃ r : Nat, v = r ∧ r < ir.size ∧ ir.iop r ∉ noValue ∧ (ir.iop r = "load" → r ∉ rest)

/-- An operand that is none or ready. -/
def Named (ir : Rows) (rest : List Nat) (v : Int) : Prop := v = -1 ∨ Ready ir rest v

variable {ir ir' : Rows} {m m₀ m₁ m₂ : Mem} {f i j b n x id : Nat} {v w : Int} {l rest : List Nat}
  {P : Nat → Nat → Prop}

theorem Defined.ready (h : Defined ir l v) : Ready ir l v := by
  obtain ⟨r, rfl, hlt, hop, hnot⟩ := h
  exact ⟨r, rfl, hlt, hop, fun _ => hnot⟩

theorem Ready.mono (h : Ready ir l v) (hsub : rest ⊆ l) : Ready ir rest v := by
  obtain ⟨r, rfl, hlt, hop, hnot⟩ := h
  exact ⟨r, rfl, hlt, hop, fun hload hr => hnot hload (hsub hr)⟩

theorem Ready.nonneg (h : Ready ir l v) : 0 ≤ v := by
  obtain ⟨r, rfl, -⟩ := h
  exact Int.natCast_nonneg r

theorem Named.mono (h : Named ir l v) (hsub : rest ⊆ l) : Named ir rest v :=
  h.imp_right fun h => h.mono hsub

/-- Only the size and the opcodes matter, and those of the row itself. -/
theorem Ready.of_rows (h : Ready ir l v) (hsize : ir.size ≤ ir'.size)
    (hop : ∀ r : Nat, v = r → r < ir.size → ir'.iop r = ir.iop r) : Ready ir' l v := by
  obtain ⟨r, rfl, hlt, hvalue, hnot⟩ := h
  refine ⟨r, rfl, Nat.lt_of_lt_of_le hlt hsize, ?_, ?_⟩
  · rw [hop r rfl hlt]
    exact hvalue
  · rw [hop r rfl hlt]
    exact hnot

theorem Ready.leaf {op ty s : String} {a c : Int} (h : Ready ir l v) :
    Ready (irLeaf ir op ty a c s) l v :=
  h.of_rows (Nat.le_succ _) fun _ _ hlt => iop_of_row (irLeaf_row_of_ne (Nat.ne_of_lt hlt))

theorem Ready.kill (h : Ready ir l v) (hne : v ≠ id) : Ready (irKill ir id) l v :=
  h.of_rows (Nat.le_refl _) fun _ hr _ => irKill_iop_of_ne fun heq => hne (heq ▸ hr)

theorem Ready.ne_store (h : Ready ir l v) (hop : ir.iop id = "store") : v ≠ id := by
  obtain ⟨r, rfl, -, hvalue, -⟩ := h
  intro heq
  rw [Int.natCast_inj.mp heq, hop] at hvalue
  exact hvalue (by decide)

theorem Ready.ne_load (h : Ready ir (id :: l) v) (hop : ir.iop id = "load") : v ≠ id := by
  obtain ⟨r, rfl, -, -, hnot⟩ := h
  intro heq
  obtain rfl := Int.natCast_inj.mp heq
  exact hnot hop List.mem_cons_self

/-- A store in which every use of `id` was replaced and `id` is gone. -/
def dropped (ir : Rows) (f id : Nat) (v : Int) : Rows := irKill (opRauw ir f id v) id

theorem dropped_eq : dropped ir f id v = irKill (rauwIn (insns ir f) id v ir) id := by
  rw [dropped, opRauw_eq]

theorem dropped_iop : (dropped ir f id v).iop = (irKill ir id).iop := by
  rw [dropped_eq]
  rfl

theorem dropped_size : (dropped ir f id v).size = ir.size := by
  rw [dropped_eq]
  rfl

theorem dropped_iblk : (dropped ir f id v).iblk = ir.iblk := by
  rw [dropped_eq]
  rfl

theorem dropped_binsn : (dropped ir f id v).binsn = ir.binsn := by
  rw [dropped_eq]
  rfl

theorem dropped_bpred : (dropped ir f id v).bpred = ir.bpred := by
  rw [dropped_eq]
  rfl

theorem dropped_fnblk : (dropped ir f id v).fnblk = ir.fnblk := by
  rw [dropped_eq]
  rfl

theorem insns_dropped : insns (dropped ir f id v) f = insns ir f := by
  rw [dropped_eq]
  rfl

theorem live_dropped_lt (hid : id ∈ insns ir f) (hop : ir.iop id ≠ "nop") :
    live (dropped ir f id v) f < live ir f := by
  have hless : live (irKill (rauwIn (insns ir f) id v ir) id) f <
      live (rauwIn (insns ir f) id v ir) f := live_irKill_lt hid hop
  rw [dropped_eq]
  exact hless

theorem operands_dropped (hx : x ∈ insns ir f) :
    operands (dropped ir f id v) x = (operands ir x).map (swap id v) := operands_opRauw hx

theorem Ready.dropped (h : Ready ir l w) (hne : w ≠ id) : Ready (dropped ir f id v) l w := by
  refine h.of_rows ?_ fun r hr _ => ?_
  · exact Nat.le_of_eq dropped_size.symm
  · rw [dropped_iop]
    exact irKill_iop_of_ne fun heq => hne (heq ▸ hr)

/-- What a value has become when one is dropped for another that is ready. -/
theorem Ready.swap (h : Ready ir l w) (hv : Ready ir l v) (hne : v ≠ id) :
    Ready (Ir.dropped ir f id v) l (Ir.swap id v w) := by
  by_cases hw : w = id
  · rw [hw, swap_self]
    exact hv.dropped hne
  · rw [swap_of_ne hw]
    exact h.dropped hw

theorem Named.swap (h : Named ir l w) (hv : Ready ir l v) (hne : v ≠ id) :
    Named (dropped ir f id v) l (swap id v w) := by
  cases h with
  | inl hnone =>
    have hid : w ≠ id := by omega
    rw [swap_of_ne hid]
    exact .inl hnone
  | inr hw => exact .inr (hw.swap hv hne)

/-! ## The invariant of the walk -/

/-- The walk has come as far as `rest`, and the table has the cells `P`. -/
structure Walked (f : Nat) (m : Mem) (rest : List Nat) (P : Nat → Nat → Prop) : Prop where
  size : ∀ x ∈ insns m.ir f, x < m.ir.size
  placed : ∀ x ∈ rest, x ∈ insns m.ir f
  slots : ∀ s ∈ m.pra, s < m.ir.size
  /-- Behind the walk operands are ready. -/
  done : ∀ x ∈ insns m.ir f, x ∉ rest → m.ir.iop x ≠ "nop" → ∀ v ∈ operands m.ir x, Named m.ir rest v
  /-- Before it they will be when the walk is there, or are a slot's address. -/
  todo : ∀ x l, x :: l <:+ rest → m.ir.iop x ≠ "nop" →
    (∀ v ∈ m.ir.ib x :: m.ir.ilist x, Named m.ir (x :: l) v) ∧
      (Named m.ir (x :: l) (m.ir.ia x) ∨ Addresses m.ir m.pra x)
  stored : ∀ x ∈ rest, m.ir.iop x = "store" → m.ir.ib x ≠ -1
  outs : ∀ i j, P i j → Ready m.ir rest (m.outv i j)

theorem suffix_tail (h : x :: l <:+ rest) (id : Nat) : x :: l <:+ id :: rest :=
  h.trans (List.suffix_cons id rest)

/-- The walk goes past an instruction all of whose operands are ready. -/
theorem Walked.skip (h : Walked f m (id :: rest) P)
    (hid : m.ir.iop id ≠ "nop" → ∀ v ∈ operands m.ir id, Named m.ir (id :: rest) v) :
    Walked f m rest P := by
  have hsub : rest ⊆ id :: rest := List.subset_cons_self id rest
  constructor
  case size => exact h.size
  case placed => exact fun x hx => h.placed x (hsub hx)
  case slots => exact h.slots
  case done =>
    intro x hx hout hop v hv
    by_cases heq : x = id
    · subst heq
      exact (hid hop v hv).mono hsub
    · exact (h.done x hx (fun hin => (List.mem_cons.mp hin).elim heq hout) hop v hv).mono hsub
  case todo => exact fun x l hs hop => h.todo x l (suffix_tail hs id) hop
  case stored => exact fun x hx hop => h.stored x (hsub hx) hop
  case outs => exact fun i j hP => (h.outs i j hP).mono hsub

/-- A load goes, for a value that is ready. -/
theorem Walked.drop (h : Walked f m (id :: rest) P) (hop : m.ir.iop id = "load")
    (hv : Ready m.ir (id :: rest) v) : Walked f (m2rDrop m f id v) rest P := by
  have hsub : rest ⊆ id :: rest := List.subset_cons_self id rest
  have hkept : ∀ {x}, (dropped m.ir f id v).iop x ≠ "nop" → x ≠ id ∧ m.ir.iop x ≠ "nop" := by
    intro x hx
    rw [dropped_iop] at hx
    have hne : x ≠ id := fun heq => hx (by rw [heq, irKill_iop_self])
    rw [irKill_iop_of_ne hne] at hx
    exact ⟨hne, hx⟩
  have hother : ∀ {x}, x ≠ id → (dropped m.ir f id v).iop x = m.ir.iop x := by
    intro x hx
    rw [dropped_iop, irKill_iop_of_ne hx]
  have hnamed : ∀ {l : List Nat} {w : Int}, l ⊆ id :: rest → Named m.ir l w →
      Named (dropped m.ir f id v) l (swap id v w) :=
    fun hl hw => hw.swap (hv.mono hl) (hv.ne_load hop)
  constructor
  case size =>
    show ∀ x ∈ insns (dropped m.ir f id v) f, x < (dropped m.ir f id v).size
    rw [insns_dropped, dropped_size]
    exact h.size
  case placed =>
    intro x hx
    show x ∈ insns (dropped m.ir f id v) f
    rw [insns_dropped]
    exact h.placed x (hsub hx)
  case slots =>
    intro s hs
    show s < (dropped m.ir f id v).size
    rw [dropped_size]
    exact h.slots s hs
  case done =>
    intro x hx hout hlive w hw
    have hx : x ∈ insns (dropped m.ir f id v) f := hx
    have hw : w ∈ operands (dropped m.ir f id v) x := hw
    rw [insns_dropped] at hx
    rw [operands_dropped hx] at hw
    obtain ⟨hne, hlive⟩ := hkept hlive
    obtain ⟨u, hu, rfl⟩ := List.mem_map.mp hw
    have hready := h.done x hx (fun hin => (List.mem_cons.mp hin).elim hne hout) hlive u hu
    exact (hnamed (List.Subset.refl _) hready).mono hsub
  case todo =>
    intro x l hs hlive
    obtain ⟨hne, hlive⟩ := hkept hlive
    have hl : x :: l ⊆ id :: rest := (suffix_tail hs id).subset
    have hx : x ∈ insns m.ir f := h.placed x (hl List.mem_cons_self)
    obtain ⟨hvalues, haddr⟩ := h.todo x l (suffix_tail hs id) hlive
    refine ⟨fun w hw => ?_, ?_⟩
    · have hw : w ∈ (m.ir.ib x :: m.ir.ilist x).map (swap id v) := by
        rw [List.map_cons, ← opRauw_ib hx, ← opRauw_ilist hx]
        exact hw
      obtain ⟨u, hu, rfl⟩ := List.mem_map.mp hw
      exact hnamed hl (hvalues u hu)
    · have hia : (dropped m.ir f id v).ia x = swap id v (m.ir.ia x) := opRauw_ia hx
      show Named (dropped m.ir f id v) (x :: l) ((dropped m.ir f id v).ia x) ∨
        Addresses (dropped m.ir f id v) m.pra x
      rw [hia]
      refine haddr.imp (hnamed hl) ?_
      rintro ⟨hacc, s, hs, hias, hslot⟩
      -- The load is no slot.
      have hsne : s ≠ id := fun heq => by
        rw [heq, hop] at hslot
        exact absurd hslot (by decide)
      have hsid : (s : Int) ≠ id := fun heq => hsne (Int.natCast_inj.mp heq)
      refine ⟨?_, s, hs, ?_, ?_⟩
      · rw [hother hne]
        exact hacc
      · rw [hia, hias, swap_of_ne hsid]
      · rw [hother hsne, hslot]
  case stored =>
    intro x hx hstore
    have hlive : (dropped m.ir f id v).iop x ≠ "nop" := by
      intro hnop
      rw [show (dropped m.ir f id v).iop x = "store" from hstore] at hnop
      exact absurd hnop (by decide)
    obtain ⟨hne, -⟩ := hkept hlive
    have hstore : m.ir.iop x = "store" := (hother hne).symm.trans hstore
    have hib : (dropped m.ir f id v).ib x = swap id v (m.ir.ib x) :=
      opRauw_ib (h.placed x (hsub hx))
    show (dropped m.ir f id v).ib x ≠ -1
    rw [hib]
    by_cases hid : m.ir.ib x = id
    · rw [hid, swap_self]
      have hpos := hv.nonneg
      omega
    · rw [swap_of_ne hid]
      exact h.stored x (hsub hx) hstore
  case outs =>
    intro i j hP
    have hready := h.outs i j hP
    exact (hready.dropped (hready.ne_load hop)).mono hsub

/-- A store goes, and what it named is what the slot has from now on. -/
theorem Walked.keep (h : Walked f m (id :: rest) P) (hop : m.ir.iop id = "store") :
    Walked f (m2rKept m id i j) rest P := by
  have hsub : rest ⊆ id :: rest := List.subset_cons_self id rest
  have hkept : ∀ {x}, (irKill m.ir id).iop x ≠ "nop" → x ≠ id ∧ m.ir.iop x ≠ "nop" := by
    intro x hx
    have hne : x ≠ id := fun heq => hx (by rw [heq, irKill_iop_self])
    rw [irKill_iop_of_ne hne] at hx
    exact ⟨hne, hx⟩
  have hnamed : ∀ {l : List Nat} {w : Int}, Named m.ir l w → Named (irKill m.ir id) l w :=
    fun hw => hw.imp_right fun hw => hw.kill (hw.ne_store hop)
  constructor
  case size => exact h.size
  case placed => exact fun x hx => h.placed x (hsub hx)
  case slots => exact h.slots
  case done =>
    intro x hx hout hlive w hw
    obtain ⟨hne, hlive⟩ := hkept hlive
    have hready := h.done x hx (fun hin => (List.mem_cons.mp hin).elim hne hout) hlive w hw
    exact (hnamed hready).mono hsub
  case todo =>
    intro x l hs hlive
    obtain ⟨hne, hlive⟩ := hkept hlive
    obtain ⟨hvalues, haddr⟩ := h.todo x l (suffix_tail hs id) hlive
    refine ⟨fun w hw => hnamed (hvalues w hw), haddr.imp hnamed ?_⟩
    rintro ⟨hacc, s, hs, hias, hslot⟩
    have hsne : s ≠ id := fun heq => by
      rw [heq, hop] at hslot
      exact absurd hslot (by decide)
    refine ⟨?_, s, hs, hias, ?_⟩
    · exact (irKill_iop_of_ne hne).symm ▸ hacc
    · exact (irKill_iop_of_ne hsne).trans hslot
  case stored =>
    intro x hx hstore
    have hlive : (irKill m.ir id).iop x ≠ "nop" := by
      intro hnop
      rw [show (irKill m.ir id).iop x = "store" from hstore] at hnop
      exact absurd hnop (by decide)
    obtain ⟨hne, -⟩ := hkept hlive
    exact h.stored x (hsub hx) ((irKill_iop_of_ne hne).symm.trans hstore)
  case outs =>
    have hlive : m.ir.iop id ≠ "nop" := by
      rw [hop]
      decide
    have hstored : Ready m.ir (id :: rest) (m.ir.ib id) := by
      obtain ⟨hvalues, -⟩ := h.todo id rest List.suffix_rfl hlive
      exact (hvalues _ List.mem_cons_self).resolve_left (h.stored id List.mem_cons_self hop)
    intro i' j' hP
    show Ready (irKill m.ir id) rest (setCell m.outv i j (m.ir.ib id) i' j')
    by_cases hcell : i' = i ∧ j' = j
    · rw [hcell.1, hcell.2, setCell_self]
      exact (hstored.kill (hstored.ne_store hop)).mono hsub
    · rw [setCell_of_ne hcell]
      have hready := h.outs i' j' hP
      exact (hready.kill (hready.ne_store hop)).mono hsub

/-! ## Steps -/

theorem slotOf_nonneg {a : Int} : 0 ≤ m.slotOf a ↔ a ∈ m.pra.map Int.ofNat := by
  unfold Mem.slotOf listIndexOf
  split
  · next h => exact ⟨fun _ => h, fun _ => Int.natCast_nonneg _⟩
  · next h => exact ⟨fun hneg => absurd hneg (by decide), fun hin => absurd hin h⟩

theorem slotOf_lt {a : Int} (h : 0 ≤ m.slotOf a) : (m.slotOf a).toNat < m.pra.length := by
  have hin := slotOf_nonneg.mp h
  rw [Mem.slotOf, listIndexOf, if_pos hin, Int.toNat_natCast]
  exact Nat.lt_of_lt_of_eq (List.idxOf_lt_length_of_mem hin) (List.length_map _)

/-- An instruction that is no access to a slot is left as it is. -/
theorem Walked.other (h : Walked f m (id :: rest) P) (hno : ¬Addresses m.ir m.pra id) :
    Walked f m rest P := by
  apply h.skip
  intro hlive w hw
  obtain ⟨hvalues, haddr⟩ := h.todo id rest List.suffix_rfl hlive
  cases List.mem_cons.mp hw with
  | inl heq => exact heq ▸ haddr.resolve_right hno
  | inr hw => exact hvalues w hw

theorem Walked.step (h : Walked f m (id :: rest) P) (hP : ∀ j < m.pra.length, P i j) :
    Walked f (m2rStep f i m id) rest P := by
  have hslot : Addresses m.ir m.pra id → 0 ≤ m.slotOf (m.ir.ia id) := by
    rintro ⟨-, s, hs, hias, -⟩
    rw [slotOf_nonneg, hias]
    exact List.mem_map_of_mem hs
  unfold m2rStep
  by_cases hload : m.ir.iop id = "load"
  · rw [if_pos hload, m2rLoad]
    by_cases hin : 0 ≤ m.slotOf (m.ir.ia id)
    · rw [if_pos hin]
      exact h.drop hload (h.outs _ _ (hP _ (slotOf_lt hin)))
    · rw [if_neg hin]
      exact h.other fun hacc => hin (hslot hacc)
  · rw [if_neg hload]
    by_cases hstore : m.ir.iop id = "store"
    · rw [if_pos hstore, m2rStore]
      by_cases hin : 0 ≤ m.slotOf (m.ir.ia id)
      · rw [if_pos hin]
        exact h.keep hstore
      · rw [if_neg hin]
        exact h.other fun hacc => hin (hslot hacc)
    · rw [if_neg hstore]
      exact h.other fun hacc => hacc.1.elim hload hstore

end IdCompiler.Ir

import IdCompiler.Ir.Traced

/-!
# The walk, followed over the blocks

Each instruction the walk goes past keeps what is known of the operands and of
the tables, and where it comes to the next block the slots have that block's
phis, or in the entry block what is undefined. So when the walk is over, the
tables have what the slots hold where each block is left.
-/

namespace IdCompiler.Ir

variable {P : Rows} {m m₀ m₁ : Mem} {f b i j n x : Nat} {v w : Int} {bs l r rest : List Nat} {τ τ' : Int → Int}
  {st : Nat → Int → Int} {Q : Nat → Nat → Prop}

/-- The walk in the block of place `i`, behind its instructions `l`. -/
structure Followed (P : Rows) (f : Nat) (st : Nat → Int → Int) (Q : Nat → Nat → Prop) (m : Mem) (τ : Int → Int)
    (i : Nat) (l rest : List Nat) : Prop where
  walked : Walked f m rest Q
  traced : Traced P f m τ rest
  tabled : Tabled P f st m τ i l rest

/-- What a function is, apart from its operands, for the walk to be followed through it. -/
structure Laid (P : Rows) (f : Nat) : Prop where
  insns : (insns P f).Nodup
  blocks : (P.fnblk f).Nodup

/-! ## One instruction -/

section

variable (hn : Laid P f) (hb : (P.fnblk f)[i]? = some b) (hx : P.binsn b = l ++ x :: r) (hout : x ∉ rest)
  (h : Followed P f st Q m τ i l (x :: rest))
include hn hb hx hout h

/-- After a load of a slot, what the slot holds stands for it. -/
theorem Followed.load (hop : P.iop x = "load") (hslot : Slotted P f x)
    (hv : Ready m.ir (x :: rest) (m.outv i (slotIdx P f (P.ia x)))) :
    ∃ τ', Traced P f (m2rStep f i m x) τ' rest ∧ Tabled P f st (m2rStep f i m x) τ' i (l ++ [x]) rest := by
  obtain ⟨-, htraced, htabled⟩ := h
  have hblk := List.mem_of_getElem? hb
  have hin : x ∈ insns P f := mem_insns.mpr ⟨b, hblk, hx ▸ List.mem_append_right l List.mem_cons_self⟩
  have hload : m.ir.iop x = "load" :=
    (congrArg Row.op (htraced.row x hin fun hc => hc.1 List.mem_cons_self)).trans hop
  have hother : ¬(P.row x).StoresSlot (m2rCollect P f) :=
    fun hstore => absurd (hop.symm.trans hstore.1) (by decide)
  rw [(htraced.step_eq hin).1 hop hslot]
  generalize hcell : m.outv i (slotIdx P f (P.ia x)) = v at hv
  have hstores : ∀ y ∈ insns P f, y ∉ x :: rest → (P.row y).StoresSlot (m2rCollect P f) →
      swap x v (τ (P.ib y)) = τ (P.ib y) :=
    fun y hy hnot hstore => swap_of_ne ((htraced.stored y hy hnot hstore).ne_load hload)
  have hloads : ∀ y ∈ insns P f, y ∉ x :: rest → P.iop y = "load" → Slotted P f y → swap x v (τ y) = τ y :=
    fun y hy hnot hop hslot => swap_of_ne ((htraced.ready y hy hnot hop hslot).ne_load hload)
  have hsame : held P (m2rCollect P f) (fun w => swap x v (τ w)) (st i) l =
      held P (m2rCollect P f) τ (st i) l := by
    refine held_congr fun y hy hstore => ?_
    have hy' : y ∈ insns P f := mem_insns.mpr ⟨b, hblk, hx ▸ List.mem_append_left _ hy⟩
    exact hstores y hy' (htabled.done y hy) hstore
  refine ⟨fun w => swap x v (τ w), htraced.drop hin hout hop hslot hv, ?_⟩
  refine htabled.step hn.insns hn.blocks hb hx hout hstores hloads (fun _ _ => ?_) (fun _ _ => rfl) fun a ha => ?_
  · rw [htraced.fixed, swap_self, ← hcell]
    exact htabled.now _ hslot.2
  · rw [held_other hother, hsame]
    exact htabled.now a ha

/-- After a store to a slot it holds what was stored. -/
theorem Followed.store (hstore : (P.row x).StoresSlot (m2rCollect P f)) :
    Traced P f (m2rStep f i m x) τ rest ∧ Tabled P f st (m2rStep f i m x) τ i (l ++ [x]) rest := by
  obtain ⟨hwalked, htraced, htabled⟩ := h
  have hin : x ∈ insns P f :=
    mem_insns.mpr ⟨b, List.mem_of_getElem? hb, hx ▸ List.mem_append_right l List.mem_cons_self⟩
  have hrow := htraced.row x hin fun hc => hc.1 List.mem_cons_self
  have hop : m.ir.iop x = "store" := (congrArg Row.op hrow).trans hstore.1
  have hib : m.ir.ib x = τ (P.ib x) := congrArg Row.b hrow
  have hlive : m.ir.iop x ≠ "nop" := by
    rw [hop]
    decide
  have hv : Ready m.ir (x :: rest) (m.ir.ib x) :=
    ((hwalked.todo x rest List.suffix_rfl hlive).1 _ List.mem_cons_self).resolve_left
      (hwalked.stored x List.mem_cons_self hop)
  rw [(htraced.step_eq hin).2.1 hstore]
  refine ⟨htraced.keep hin hout hstore (hib ▸ hv), ?_⟩
  refine htabled.step hn.insns hn.blocks hb hx hout (fun _ _ _ _ => rfl) (fun _ _ _ _ _ => rfl) (fun hload _ => ?_)
    (fun k hk => Function.update_of_ne (Nat.ne_of_lt hk) ..) fun a ha => ?_
  · exact absurd (hload.symm.trans hstore.1) (by decide)
  · show setCell m.outv i (slotIdx P f (P.ia x)) (m.ir.ib x) i (slotIdx P f a) = _
    rw [held_store hstore]
    by_cases ha' : a = P.ia x
    · rw [ha', setCell_self, Function.update_self, hib]
    · have hne : slotIdx P f a ≠ slotIdx P f (P.ia x) := fun heq => ha' ((slotIdx_inj ha).mp heq)
      rw [setCell_of_ne fun heq => hne heq.2, Function.update_of_ne ha']
      exact htabled.now a ha

theorem Followed.other (hno : ¬Slotted P f x) :
    Traced P f (m2rStep f i m x) τ rest ∧ Tabled P f st (m2rStep f i m x) τ i (l ++ [x]) rest := by
  obtain ⟨-, htraced, htabled⟩ := h
  have hin : x ∈ insns P f :=
    mem_insns.mpr ⟨b, List.mem_of_getElem? hb, hx ▸ List.mem_append_right l List.mem_cons_self⟩
  rw [(htraced.step_eq hin).2.2 hno]
  refine ⟨htraced.skip hno, ?_⟩
  refine htabled.step hn.insns hn.blocks hb hx hout (fun _ _ _ _ => rfl) (fun _ _ _ _ _ => rfl)
    (fun _ hslot => absurd hslot hno) (fun _ _ => rfl) fun a ha => ?_
  rw [held_other fun hstore => hno hstore.2]
  exact htabled.now a ha

theorem Followed.step (hQ : ∀ j < (m2rCollect P f).length, Q i j) :
    ∃ τ', Followed P f st Q (m2rStep f i m x) τ' i (l ++ [x]) rest := by
  have hwalked : Walked f (m2rStep f i m x) rest Q := h.walked.step fun j hj => hQ j (h.traced.pra ▸ hj)
  by_cases hslot : Slotted P f x
  · by_cases hop : P.iop x = "load"
    · have hv := h.walked.outs i (slotIdx P f (P.ia x)) (hQ _ (slotIdx_lt hslot.2))
      obtain ⟨τ', htraced, htabled⟩ := h.load hn hb hx hout hop hslot hv
      exact ⟨τ', hwalked, htraced, htabled⟩
    · obtain ⟨htraced, htabled⟩ := h.store hn hb hx hout (stores_of_slotted hslot hop)
      exact ⟨τ, hwalked, htraced, htabled⟩
  · obtain ⟨htraced, htabled⟩ := h.other hn hb hx hout hslot
    exact ⟨τ, hwalked, htraced, htabled⟩

end

/-- What is left of a block. -/
theorem Followed.steps (hn : Laid P f) (hb : (P.fnblk f)[i]? = some b) (hx : P.binsn b = l ++ r)
    (hnodup : (r ++ rest).Nodup) (hQ : ∀ j < (m2rCollect P f).length, Q i j)
    (h : Followed P f st Q m τ i l (r ++ rest)) :
    ∃ τ', Followed P f st Q (r.foldl (m2rStep f i) m) τ' i (l ++ r) rest := by
  induction r generalizing l m τ with
  | nil => exact ⟨τ, by rw [List.append_nil]; exact h⟩
  | cons x r ih =>
    obtain ⟨hout, hnodup⟩ := List.nodup_cons.mp hnodup
    obtain ⟨τ', hone⟩ := h.step hn hb hx hout hQ
    have hx' : P.binsn b = (l ++ [x]) ++ r := by rw [hx, List.append_assoc, List.singleton_append]
    obtain ⟨τ'', hall⟩ := ih hx' hnodup hone
    rw [List.append_assoc, List.singleton_append] at hall
    exact ⟨τ'', hall⟩

/-! ## From block to block -/

/-- What a slot has where a block is entered: its phi, or in the entry block the next new value. -/
def Mem.entering (m : Mem) (i j : Nat) : Int := if i = 0 then ((m.ir.size + j : Nat) : Int) else m.phiof i j

theorem m2rSeed_outv (i : Nat) (m : Mem) :
    (∀ j < m.pra.length, (m2rSeed i m).outv i j = m.entering i j) ∧
      ∀ k, k ≠ i → (m2rSeed i m).outv k = m.outv k := by
  have hrange : ∀ n, (∀ j < n, ((List.range n).foldl (m2rSeed1 i) m).outv i j = m.entering i j) ∧
      (∀ k, k ≠ i → ((List.range n).foldl (m2rSeed1 i) m).outv k = m.outv k) ∧
      ((List.range n).foldl (m2rSeed1 i) m).phiof = m.phiof ∧
      (i = 0 → ((List.range n).foldl (m2rSeed1 i) m).ir.size = m.ir.size + n) := by
    intro n
    induction n with
    | zero => exact ⟨fun j hj => absurd hj (Nat.not_lt_zero j), fun _ _ => rfl, rfl, fun _ => rfl⟩
    | succ n ih =>
      rw [List.range_succ, List.foldl_append, List.foldl_cons, List.foldl_nil]
      generalize (List.range n).foldl (m2rSeed1 i) m = m' at ih
      obtain ⟨hcells, hothers, hphiof, hsize⟩ := ih
      have hout : (m2rSeed1 i m' n).outv = setCell m'.outv i n (m.entering i n) := by
        unfold m2rSeed1 m2rIn Mem.entering
        by_cases hi : i = 0
        · rw [if_pos hi, if_pos hi, hsize hi]
        · rw [if_neg hi, if_neg hi, hphiof]
      refine ⟨fun j hj => ?_, fun k hk => ?_, ?_, fun hi => ?_⟩
      · rw [hout]
        by_cases hjn : j = n
        · rw [hjn, setCell_self]
        · rw [setCell_of_ne fun heq => hjn heq.2]
          exact hcells j (by omega)
      · rw [hout]
        exact (Function.update_of_ne hk ..).trans (hothers k hk)
      · unfold m2rSeed1 m2rIn
        split <;> exact hphiof
      · unfold m2rSeed1 m2rIn
        rw [if_pos hi]
        show m'.ir.size + 1 = _
        rw [hsize hi]
        omega
  obtain ⟨hcells, hothers, -⟩ := hrange m.pra.length
  exact ⟨hcells, hothers⟩

/-- A new value that is in no block changes no row. -/
theorem Traced.leaf {op ty s : String} {out : Nat → Nat → Int} (h : Traced P f m τ rest)
    (hlt : ∀ x ∈ Ir.insns P f, x < m.ir.size) :
    Traced P f { m with ir := irLeaf m.ir op ty (0 - 1) (0 - 1) s, outv := out } τ rest := by
  have hrow : ∀ x ∈ Ir.insns P f, (irLeaf m.ir op ty (0 - 1) (0 - 1) s).row x = m.ir.row x :=
    fun x hx => irLeaf_row_of_ne (Nat.ne_of_lt (hlt x hx))
  constructor
  case pra => exact h.pra
  case insns => exact h.insns
  case moved => exact h.moved
  case ready => exact fun x hx hout hop hslot => (h.ready x hx hout hop hslot).leaf
  case stored => exact fun x hx hout hstore => (h.stored x hx hout hstore).leaf
  case row => exact fun x hx hno => (hrow x hx).trans (h.row x hx hno)
  case gone => exact fun x hx hout hslot => (iop_of_row (hrow x hx)).trans (h.gone x hx hout hslot)

theorem Traced.seed (h : Traced P f m τ rest) (hlt : ∀ x ∈ Ir.insns P f, x < m.ir.size) :
    Traced P f (m2rSeed i m) τ rest := by
  have hall : Traced P f (m2rSeed i m) τ rest ∧ ∀ x ∈ Ir.insns P f, x < (m2rSeed i m).ir.size := by
    refine List.foldlRecOn (motive := fun m => Traced P f m τ rest ∧ ∀ x ∈ Ir.insns P f, x < m.ir.size)
      (List.range m.pra.length) (m2rSeed1 i) ⟨h, hlt⟩ ?_
    rintro m ⟨h, hlt⟩ j -
    unfold m2rSeed1 m2rIn
    split
    · exact ⟨h.leaf hlt, fun x hx => Nat.lt_succ_of_lt (hlt x hx)⟩
    · exact ⟨⟨h.pra, h.insns, h.moved, h.ready, h.stored, h.row, h.gone⟩, hlt⟩
  exact hall.1

/-- Where a block is left. -/
theorem Tabled.leave (hb : (P.fnblk f)[i]? = some b) (h : Tabled P f st m τ i (P.binsn b) rest) :
    Behind P f st m τ (i + 1) rest := by
  refine ⟨h.loads, fun k hk b' hb' => ?_⟩
  by_cases hki : k = i
  · subst hki
    obtain rfl := Option.some.inj (hb'.symm.trans hb)
    exact ⟨h.done, h.now⟩
  · exact h.past k (by omega) b' hb'

/-- Where a block is entered. -/
theorem Behind.enter (h : Behind P f st m τ i rest) (hpra : m.pra = m2rCollect P f)
    (hst : ∀ a ∈ (m2rCollect P f).map Int.ofNat, st i a = m.entering i (slotIdx P f a)) :
    Tabled P f st (m2rSeed i m) τ i [] rest := by
  obtain ⟨hcells, hothers⟩ := m2rSeed_outv i m
  refine ⟨⟨h.loads, fun k hk b hb => ?_⟩, fun y hy => absurd hy List.not_mem_nil, fun a ha => ?_⟩
  · obtain ⟨hdone, hout⟩ := h.past k hk b hb
    refine ⟨hdone, fun a ha => ?_⟩
    rw [hothers k (Nat.ne_of_lt hk)]
    exact hout a ha
  · rw [hcells _ (hpra ▸ slotIdx_lt ha)]
    exact (hst a ha).symm

/-! ## All blocks -/

/-- The walk where it enters the block of place `i`, the phis of the slots being those of `m₁`. -/
structure Entering (P : Rows) (f : Nat) (m₁ m : Mem) (τ : Int → Int) (i : Nat) (rest : List Nat) : Prop where
  kin : Kin m₁ m
  start : i = 0 → m.ir.size = m₁.ir.size
  walked : Walked f m rest fun i' j' => i' < i ∧ j' < (m2rCollect P f).length
  traced : Traced P f m τ rest
  behind : Behind P f (fun k a => m₁.entering k (slotIdx P f a)) m τ i rest

section

variable (hn : Laid P f) (hp : Placed f (m2rInit P f) m₁ (Cells (m2rInit P f) (P.fnblk f).length))
include hn hp

theorem Entering.blk (hb : (P.fnblk f)[i]? = some b) (hnodup : (P.binsn b ++ rest).Nodup)
    (h : Entering P f m₁ m τ i (P.binsn b ++ rest)) :
    ∃ τ', Entering P f m₁ (m2rBlk f i b m) τ' (i + 1) rest := by
  obtain ⟨hkin, hstart, hwalked, htraced, hbehind⟩ := h
  have hi : i < (P.fnblk f).length := (List.getElem?_eq_some_iff.mp hb).1
  have hcells : i ≠ 0 → ∀ j < m.pra.length, Cells (m2rInit P f) (P.fnblk f).length i j :=
    fun hne j hj => ⟨Nat.one_le_iff_ne_zero.mpr hne, hi, Nat.lt_of_lt_of_eq hj (congrArg List.length htraced.pra)⟩
  obtain ⟨hseed, hwalked'⟩ := hwalked.seed hp hkin hcells
  have hlt : ∀ x ∈ insns P f, x < m.ir.size := fun x hx => hwalked.size x (htraced.insns hx)
  have hentering : ∀ j, m₁.entering i j = m.entering i j := by
    intro j
    unfold Mem.entering
    split
    · next h0 => rw [hstart h0]
    · rw [hkin.phiof]
  have hfollowed : Followed P f (fun k a => m₁.entering k (slotIdx P f a)) _ (m2rSeed i m) τ i []
      (P.binsn b ++ rest) :=
    ⟨hwalked', htraced.seed hlt, hbehind.enter htraced.pra fun a _ => hentering _⟩
  obtain ⟨τ', hwalked'', htraced', htabled⟩ :=
    hfollowed.steps hn hb rfl hnodup fun j hj => .inr ⟨rfl, htraced.pra ▸ hj⟩
  obtain ⟨hkin', -⟩ := hwalked.blk hp hkin fun hne j hj => ⟨Nat.one_le_iff_ne_zero.mpr hne, hi, hj⟩
  have heq : m2rBlk f i b m = (P.binsn b).foldl (m2rStep f i) (m2rSeed i m) := hp.blk_eq hseed
  refine ⟨τ', hkin', fun h0 => absurd h0 (Nat.succ_ne_zero i), ?_, ?_, ?_⟩
  · rw [heq]
    refine hwalked''.congr fun i' j' hc => ?_
    rw [htraced.pra]
    omega
  · rw [heq]
    exact htraced'
  · rw [heq]
    exact htabled.leave hb

theorem Entering.walk (hbs : (P.fnblk f).drop i = bs) (h : Entering P f m₁ m τ i (bs.flatMap P.binsn)) :
    ∃ τ', Entering P f m₁ (m2rWalk f i bs m) τ' (i + bs.length) [] := by
  induction bs generalizing i m τ with
  | nil => exact ⟨τ, h⟩
  | cons b bs ih =>
    have hb : (P.fnblk f)[i]? = some b := by
      rw [← List.head?_drop, hbs]
      rfl
    have hrest : (P.fnblk f).drop (i + 1) = bs := by
      rw [← List.tail_drop, hbs]
      rfl
    have hnodup : (P.binsn b ++ bs.flatMap P.binsn).Nodup := by
      have hsuffix : (b :: bs).flatMap P.binsn <:+ insns P f := by
        rw [← hbs, insns]
        refine ⟨((P.fnblk f).take i).flatMap P.binsn, ?_⟩
        rw [← List.flatMap_append, List.take_append_drop]
      exact hn.insns.sublist hsuffix.sublist
    rw [List.flatMap_cons] at h
    obtain ⟨τ', hone⟩ := h.blk hn hp hb hnodup
    obtain ⟨τ'', hall⟩ := ih hrest hone
    rw [show i + (b :: bs).length = i + 1 + bs.length by rw [List.length_cons]; omega]
    exact ⟨τ'', hall⟩

end

/-- Where the walk starts, nothing has another name. -/
theorem Lowered.entering (h : Lowered P f) {Q : Nat → Nat → Prop} (hp : Placed f (m2rInit P f) m₁ Q) :
    Entering P f m₁ m₁ (fun w => w) 0 (insns P f) := by
  have hwalked := h.walked hp
  refine ⟨.refl, fun _ => rfl, hwalked.congr fun i j hc => absurd hc.1 (Nat.not_lt_zero i), ?_, ?_⟩
  · constructor
    case pra => exact hp.pra
    case insns => exact fun x hx => hwalked.placed x hx
    case moved => exact fun w hw => absurd rfl hw
    case ready => exact fun x hx hout => absurd hx hout
    case stored => exact fun x hx hout => absurd hx hout
    case row =>
      intro x hx _
      rw [hp.row x (h.size x hx)]
      show _ = Row.mk _ _ _ _ _ _ ((P.ilist x).map fun w => w) _
      rw [List.map_id']
      rfl
    case gone => exact fun x hx hout => absurd hx hout
  · refine ⟨fun k b l x r hb hx hout => ?_, fun k hk => absurd hk (Nat.not_lt_zero k)⟩
    exact absurd (mem_insns.mpr ⟨b, List.mem_of_getElem? hb, hx ▸ List.mem_append_right l List.mem_cons_self⟩) hout

/-- When the walk is over, the tables have what the slots hold where each block is left. -/
theorem Lowered.entered (h : Lowered P f) (hn : Laid P f) :
    ∃ τ, Entering P f (m2rPhis (m2rInit P f) f) (m2rWalk f 0 (P.fnblk f) (m2rPhis (m2rInit P f) f)) τ
      (P.fnblk f).length [] := by
  have hp : Placed f (m2rInit P f) (m2rPhis (m2rInit P f) f)
      (Cells (m2rInit P f) (P.fnblk f).length) := placed_m2rPhis (m2rInit P f) f
  obtain ⟨τ, hall⟩ := (h.entering hp).walk hn hp List.drop_zero
  rw [Nat.zero_add] at hall
  exact ⟨τ, hall⟩

end IdCompiler.Ir

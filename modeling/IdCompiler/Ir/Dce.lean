import IdCompiler.Core.Sweeps
import IdCompiler.Ir.Meaning

/-!
# Dead code elimination

An instruction whose opcode may be removed and that no other instruction names
is killed, sweep after sweep, until a sweep kills none. A killed instruction is
one that no step of any run depends on, and each sweep but the last leaves
fewer instructions.
-/

namespace IdCompiler.Ir

/-- `dce_lists`: whether a value is among an instruction's auxiliary values. -/
def dceLists (ir : Rows) (at' id : Nat) : Nat :=
  if (id : Int) ∈ ir.ilist at' then 1 else 0

/-- `dce_names` -/
def dceNames (ir : Rows) (at' id : Nat) : Nat :=
  if ir.ia at' = id ∨ ir.ib at' = id ∨ dceLists ir at' id = 1 then 1 else 0

/-- `dce_refs`: one more if another instruction that is left names the value. -/
def dceRefs (ir : Rows) (at' id n : Nat) : Nat :=
  if at' ≠ id ∧ ir.iop at' ≠ "nop" ∧ dceNames ir at' id = 1 then n + 1 else n

/-- `dce_used_b` -/
def dceUsedB (ir : Rows) (b id n : Nat) : Nat :=
  (ir.binsn b).foldl (fun n at' => dceRefs ir at' id n) n

/-- `dce_used`: how many instructions of the function name the value. -/
def dceUsed (ir : Rows) (f id : Nat) : Nat :=
  (ir.fnblk f).foldl (fun n b => dceUsedB ir b id n) 0

/-- `dce_one`, with the number of instructions killed so far. -/
def dceOne (f : Nat) (s : Rows × Nat) (id : Nat) : Rows × Nat :=
  if s.1.iop id ∉ irnoeff ∧ dceUsed s.1 f id = 0 then (irKill s.1 id, s.2 + 1) else s

/-- `dce_blk`: the list of a block's instructions is not changed on the way. -/
def dceBlk (f : Nat) (s : Rows × Nat) (b : Nat) : Rows × Nat :=
  (s.1.binsn b).foldl (dceOne f) s

/-- `dce_sweep` from the first block on. -/
def dceSweep (ir : Rows) (f : Nat) : Rows × Nat :=
  (ir.fnblk f).foldl (dceBlk f) (ir, 0)

/-- The loop of `op_dce`, with `n` from the sweep before. -/
def opDceLoop (f : Nat) : Nat → Nat → Rows → Option Rows
  | 0, _, _ => none
  | fuel + 1, n, ir =>
    if 0 < n then opDceLoop f fuel (dceSweep ir f).2 (dceSweep ir f).1 else some ir

/-- `op_dce`: one sweep more than there are instructions is enough. -/
def opDce (ir : Rows) (f : Nat) : Option Rows :=
  opDceLoop f (live ir f + 2) 1 ir

/-! ## Uses -/

/-- An instruction other than `id` that is left and names it. -/
def Uses (ir : Rows) (at' id : Nat) : Prop :=
  at' ≠ id ∧ ir.iop at' ≠ "nop" ∧ (ir.ia at' = id ∨ ir.ib at' = id ∨ (id : Int) ∈ ir.ilist at')

instance (ir : Rows) (at' id : Nat) : Decidable (Uses ir at' id) := inferInstanceAs (Decidable (_ ∧ _))

variable {ir ir' : Rows} {f id at' b n : Nat} {s : Rows × Nat}

theorem dceNames_eq_one : dceNames ir at' id = 1 ↔
    ir.ia at' = id ∨ ir.ib at' = id ∨ (id : Int) ∈ ir.ilist at' := by
  have hlists : dceLists ir at' id = 1 ↔ (id : Int) ∈ ir.ilist at' := by
    unfold dceLists
    split
    · next h => exact ⟨fun _ => h, fun _ => rfl⟩
    · next h => exact ⟨fun h0 => absurd h0 (by decide), fun hin => absurd hin h⟩
  rw [← hlists]
  unfold dceNames
  split
  · next h => exact ⟨fun _ => h, fun _ => rfl⟩
  · next h => exact ⟨fun h0 => absurd h0 (by decide), fun hin => absurd hin h⟩

theorem dceRefs_eq : dceRefs ir at' id n = n + if Uses ir at' id then 1 else 0 := by
  have hiff : (at' ≠ id ∧ ir.iop at' ≠ "nop" ∧ dceNames ir at' id = 1) ↔ Uses ir at' id :=
    and_congr_right fun _ => and_congr_right fun _ => dceNames_eq_one
  unfold dceRefs
  by_cases h : Uses ir at' id
  · rw [if_pos h, if_pos (hiff.mpr h)]
  · rw [if_neg h, if_neg fun hc => h (hiff.mp hc)]
    rfl

theorem dceUsedB_eq : dceUsedB ir b id n = n + (ir.binsn b).countP fun at' => Uses ir at' id := by
  unfold dceUsedB
  generalize ir.binsn b = l
  induction l generalizing n with
  | nil => rfl
  | cons x l ih =>
    rw [List.foldl_cons, ih, dceRefs_eq, List.countP_cons]
    simp only [decide_eq_true_eq]
    omega

theorem dceUsed_eq : dceUsed ir f id = (insns ir f).countP fun at' => Uses ir at' id := by
  have hfold : ∀ (l : List Nat) n, l.foldl (fun n b => dceUsedB ir b id n) n =
      n + (l.flatMap ir.binsn).countP fun at' => Uses ir at' id := by
    intro l
    induction l with
    | nil => exact fun n => rfl
    | cons b l ih =>
      intro n
      rw [List.foldl_cons, ih, dceUsedB_eq, List.flatMap_cons, List.countP_append, Nat.add_assoc]
  rw [dceUsed, hfold, Nat.zero_add]
  rfl

/-- The count is 0 exactly where nothing uses the value. -/
theorem dceUsed_eq_zero : dceUsed ir f id = 0 ↔ ∀ at' ∈ insns ir f, ¬Uses ir at' id := by
  rw [dceUsed_eq, List.countP_eq_zero]
  simp only [decide_eq_true_eq]

/-! ## One instruction less -/

/-- What a sweep kills: what may be removed and has no user. -/
def Removable (ir : Rows) (f id : Nat) : Prop := ir.iop id ∉ irnoeff ∧ dceUsed ir f id = 0

/-- A value that nothing uses may be left out: the runs differ in it alone. -/
theorem Removable.same (h : Removable ir f id) : Same f ir (irKill ir id) := by
  intro V W m c n
  refine Core.observed_eq (R := Agree id) (fun c c' hc => ?_) (fun c c' hc => hc.seen) n .refl
  have hblk : c'.blk ∈ (irKill ir id).fnblk f ↔ c.blk ∈ ir.fnblk f := by rw [← hc.blk]; rfl
  unfold step
  by_cases hin : c.blk ∈ ir.fnblk f
  · rw [if_pos hin, if_pos (hblk.mpr hin)]
    have hnext : ((irKill ir id).binsn c'.blk)[c'.pos]? = (ir.binsn c.blk)[c.pos]? := by
      rw [← hc.blk, ← hc.pos]
      rfl
    rw [hnext]
    cases hat : (ir.binsn c.blk)[c.pos]? with
    | none => exact ⟨rfl, .none⟩
    | some x =>
      show Core.Matches (Agree id) (exec m (ir.row x) c) (exec m ((irKill ir id).row x) c')
      by_cases hx : x = id
      · -- Only the first run gives the value.
        obtain rfl := hx
        obtain ⟨v, hv⟩ := exec_of_notMem_irnoeff (m := m) (c := c) (r := ir.row x) h.1
        rw [hv, exec_nop irKill_iop_self]
        exact ⟨rfl, .some (hc.assign_next v)⟩
      · rw [irKill_row_of_ne hx]
        by_cases hnop : ir.iop x = "nop"
        · rw [exec_nop hnop, exec_nop hnop]
          exact ⟨rfl, .some hc.next⟩
        · -- What is left and is not the value itself does not name it.
          have hno := dceUsed_eq_zero.mp h.2 x (mem_insns.mpr ⟨_, hin, List.mem_of_getElem? hat⟩)
          refine hc.exec ⟨fun ha => ?_, fun hb => ?_, fun hl => ?_⟩
          · exact hno ⟨hx, hnop, .inl ha⟩
          · exact hno ⟨hx, hnop, .inr (.inl hb)⟩
          · exact hno ⟨hx, hnop, .inr (.inr hl)⟩
  · rw [if_neg hin, if_neg fun h => hin (hblk.mp h)]
    exact ⟨rfl, .none⟩

/-! ## Sweeps -/

/-- A function that does the same, in the same blocks with the same lists. -/
structure Leaves (f : Nat) (ir ir' : Rows) : Prop where
  same : Same f ir ir'
  binsn : ir'.binsn = ir.binsn
  fnblk : ir'.fnblk = ir.fnblk

instance : IsPreorder Rows (Leaves f) where
  refl _ := ⟨.refl, rfl, rfl⟩
  trans _ _ _ h h' := ⟨h.same.trans h'.same, h'.binsn.trans h.binsn, h'.fnblk.trans h.fnblk⟩

theorem Leaves.insns (h : Leaves f ir ir') : insns ir' f = insns ir f := by
  unfold Ir.insns
  rw [h.fnblk, h.binsn]

/-- What treating the instructions `l` does. -/
abbrev DceSwept (f : Nat) (l : List Nat) (s s' : Rows × Nat) : Prop :=
  Core.Swept (Leaves f) (live · f) (Removable · f) l s s'

theorem dceOne_swept (hid : id ∈ insns s.1 f) : DceSwept f [id] s (dceOne f s id) := by
  unfold dceOne
  by_cases hr : Removable s.1 f id
  · have hyes : s.1.iop id ∉ irnoeff ∧ dceUsed s.1 f id = 0 := hr
    rw [if_pos hyes]
    have hop : s.1.iop id ≠ "nop" := fun heq => hr.1 (heq ▸ by decide)
    exact .act ⟨hr.same, rfl, rfl⟩ (live_irKill_lt hid hop) rfl
  · have hno : ¬(s.1.iop id ∉ irnoeff ∧ dceUsed s.1 f id = 0) := hr
    rw [if_neg hno]
    exact .pass hr

theorem dceBlk_swept (hb : b ∈ s.1.fnblk f) : DceSwept f (s.1.binsn b) s (dceBlk f s b) := by
  have hall : DceSwept f ((s.1.binsn b).flatMap fun id => [id]) s (dceBlk f s b) := by
    apply Core.Swept.foldl
    intro s' hrel id hid
    apply dceOne_swept
    exact mem_insns.mpr ⟨b, hrel.fnblk ▸ hb, hrel.binsn ▸ hid⟩
  rwa [List.flatMap_singleton'] at hall

theorem dceSweep_swept : DceSwept f (insns ir f) (ir, 0) (dceSweep ir f) := by
  apply Core.Swept.foldl
  intro s' hrel b hb
  have hswept : DceSwept f (s'.1.binsn b) s' (dceBlk f s' b) := dceBlk_swept (hrel.fnblk ▸ hb)
  rwa [hrel.binsn] at hswept

theorem opDceLoop_eq {fuel : Nat} :
    opDceLoop f fuel n ir = Core.sweeps (fun ir => dceSweep ir f) fuel n ir := by
  induction fuel generalizing n ir with
  | zero => rfl
  | succ fuel ih =>
    rw [opDceLoop, Core.sweeps, ih]

/-! ## The fixpoint -/

/-- Nothing is left that has an opcode outside `irnoeff` and no user other than itself. -/
def Settled (ir : Rows) (f : Nat) : Prop :=
  ∀ id ∈ insns ir f, ir.iop id ∉ irnoeff → ∃ at' ∈ insns ir f, Uses ir at' id

theorem settled_of (h : ∀ id ∈ insns ir f, ¬Removable ir f id) : Settled ir f := by
  intro id hid hop
  by_contra hno
  refine h id hid ⟨hop, dceUsed_eq_zero.mpr fun at' hat huse => hno ⟨at', hat, huse⟩⟩

/-- Dead code elimination ends, with a function that does the same and in which every
instruction that could be removed has a user. -/
theorem opDce_same (ir : Rows) (f : Nat) :
    ∃ ir', opDce ir f = some ir' ∧ Same f ir ir' ∧ Settled ir' f := by
  have hsweep : ∀ ir', Leaves f ir ir' → DceSwept f (insns ir f) (ir', 0) (dceSweep ir' f) := by
    intro ir' hrel
    exact hrel.insns ▸ dceSweep_swept
  obtain ⟨ir', hrun, hrel, hno⟩ := Core.Swept.ends hsweep
  refine ⟨ir', ?_, hrel.same, settled_of (hrel.insns ▸ hno)⟩
  rw [opDce, opDceLoop_eq]
  exact hrun

/-- A chain of values goes one a sweep, from its end. -/
example :
    let op := fun id => ["load", "add", "ret"].getD id ""
    let a : Nat → Int := fun id => [-1, 0, -1].getD id 0
    let ir : Rows := ⟨3, op, fun _ => "int", a, fun _ => -1, fun _ => "", fun _ => [], fun _ => [],
      fun _ => 0, fun _ => [0, 1, 2], fun _ => [], fun _ => [0]⟩
    (opDce ir 0).map (fun ir => (insns ir 0).map ir.iop) = some ["nop", "nop", "ret"] := by decide

end IdCompiler.Ir

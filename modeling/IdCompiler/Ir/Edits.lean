import IdCompiler.Ir.Rows

/-!
# Building and editing instructions

New rows, the replacement of every use of a value by another, and the
predecessor lists. Each edit is given in closed form: which cells of which
columns it changes, and to what.
-/

namespace IdCompiler.Ir

/-- `ir_insn`: a new row, whose id is its index. It is in no block. -/
def irInsn (ir : Rows) (op ty : String) (a b : Int) (s : String) (l : List Int) (bl : List Nat) : Rows :=
  { ir with
    size := ir.size + 1
    iop := Function.update ir.iop ir.size op
    ity := Function.update ir.ity ir.size ty
    ia := Function.update ir.ia ir.size a
    ib := Function.update ir.ib ir.size b
    istr := Function.update ir.istr ir.size s
    ilist := Function.update ir.ilist ir.size l
    iblk := Function.update ir.iblk ir.size bl
    ihome := Function.update ir.ihome ir.size (0 - 1) }

/-- `ir_leaf` -/
def irLeaf (ir : Rows) (op ty : String) (a b : Int) (s : String) : Rows :=
  irInsn ir op ty a b s [] []

/-- What replaces an operand. -/
def swap (old fresh v : Int) : Int := if v = old then fresh else v

/-- `ir_rauw_at` and `ir_rauw_l`: one instruction. -/
def irRauwAt (old fresh : Int) (ir : Rows) (i : Nat) : Rows :=
  { ir with
    ia := Function.update ir.ia i (swap old fresh (ir.ia i))
    ib := Function.update ir.ib i (swap old fresh (ir.ib i))
    ilist := Function.update ir.ilist i ((ir.ilist i).map (swap old fresh)) }

/-- `op_rauw_b` -/
def opRauwB (old fresh : Int) (ir : Rows) (b : Nat) : Rows :=
  (ir.binsn b).foldl (irRauwAt old fresh) ir

/-- `op_rauw`: every use of a value becomes a use of another, in one function. -/
def opRauw (ir : Rows) (f : Nat) (old fresh : Int) : Rows :=
  (ir.fnblk f).foldl (opRauwB old fresh) ir

/-! ## Predecessors -/

/-- `pred_clear_at` -/
def predClearAt (ir : Rows) (b : Nat) : Rows := { ir with bpred := Function.update ir.bpred b [] }

/-- `pred_succ_at` -/
def predSuccAt (b : Nat) (ir : Rows) (target : Nat) : Rows :=
  { ir with bpred := Function.update ir.bpred target (ir.bpred target ++ [b]) }

/-- `pred_of`: the targets are those of the block's last instruction. -/
def predOf (ir : Rows) (b : Nat) : Rows :=
  match (ir.binsn b).getLast? with
  | some v => (ir.iblk v).foldl (predSuccAt b) ir
  | none => ir

/-- `op_preds` -/
def opPreds (ir : Rows) (f : Nat) : Rows :=
  (ir.fnblk f).foldl predOf ((ir.fnblk f).foldl predClearAt ir)

/-! ## What the edits change -/

/-- The values an instruction names. -/
def operands (ir : Rows) (x : Nat) : List Int := ir.ia x :: ir.ib x :: ir.ilist x

variable {ir : Rows} {f b x : Nat} {old fresh v : Int}

theorem swap_self : swap old fresh old = fresh := if_pos rfl

theorem swap_of_ne (h : v ≠ old) : swap old fresh v = v := if_neg h

theorem swap_swap : swap old fresh (swap old fresh v) = swap old fresh v := by
  by_cases h : v = old
  · rw [h, swap_self]
    by_cases hf : fresh = old
    · rw [hf, swap_self]
    · exact swap_of_ne hf
  · rw [swap_of_ne h, swap_of_ne h]

/-- The instructions of a list with one value replaced. -/
def rauwIn (l : List Nat) (old fresh : Int) (ir : Rows) : Rows :=
  { ir with
    ia := fun x => if x ∈ l then swap old fresh (ir.ia x) else ir.ia x
    ib := fun x => if x ∈ l then swap old fresh (ir.ib x) else ir.ib x
    ilist := fun x => if x ∈ l then (ir.ilist x).map (swap old fresh) else ir.ilist x }

/-- A column of which one cell and then those of a list are replaced. -/
theorem update_then {α : Type*} {g : α → α} (hg : ∀ a, g (g a) = g a) (col : Nat → α) (i : Nat)
    (l : List Nat) : (fun x => if x ∈ l then g (Function.update col i (g (col i)) x)
      else Function.update col i (g (col i)) x) = fun x => if x ∈ i :: l then g (col x) else col x := by
  funext x
  by_cases hx : x = i
  · subst hx
    rw [Function.update_self, hg, if_pos List.mem_cons_self]
    exact ite_self _
  · rw [Function.update_of_ne hx]
    simp only [List.mem_cons, hx, false_or]

theorem foldl_irRauwAt (l : List Nat) (ir : Rows) :
    l.foldl (irRauwAt old fresh) ir = rauwIn l old fresh ir := by
  induction l generalizing ir with
  | nil => rfl
  | cons i l ih =>
    have hlist : ∀ vs : List Int, (vs.map (swap old fresh)).map (swap old fresh) =
        vs.map (swap old fresh) := by
      intro vs
      rw [List.map_map]
      exact List.map_congr_left fun v _ => swap_swap
    rw [List.foldl_cons, ih]
    unfold rauwIn irRauwAt
    congr 1
    · exact update_then (fun _ => swap_swap) ir.ia i l
    · exact update_then (fun _ => swap_swap) ir.ib i l
    · exact update_then hlist ir.ilist i l

/-- Every use in the function is replaced, and nothing else. -/
theorem opRauw_eq : opRauw ir f old fresh = rauwIn (insns ir f) old fresh ir := by
  rw [← foldl_irRauwAt, opRauw, insns]
  generalize ir.fnblk f = l
  induction l generalizing ir with
  | nil => rfl
  | cons b l ih =>
    have hblk : opRauwB old fresh ir b = rauwIn (ir.binsn b) old fresh ir := foldl_irRauwAt _ ir
    have hsame : (opRauwB old fresh ir b).binsn = ir.binsn := by rw [hblk]; rfl
    rw [List.foldl_cons, ih, List.flatMap_cons, List.foldl_append, hsame]
    rfl

theorem opRauw_ia (hx : x ∈ insns ir f) :
    (opRauw ir f old fresh).ia x = swap old fresh (ir.ia x) := by
  rw [opRauw_eq]
  exact if_pos hx

theorem opRauw_ib (hx : x ∈ insns ir f) :
    (opRauw ir f old fresh).ib x = swap old fresh (ir.ib x) := by
  rw [opRauw_eq]
  exact if_pos hx

theorem opRauw_ilist (hx : x ∈ insns ir f) :
    (opRauw ir f old fresh).ilist x = (ir.ilist x).map (swap old fresh) := by
  rw [opRauw_eq]
  exact if_pos hx

theorem operands_opRauw (hx : x ∈ insns ir f) :
    operands (opRauw ir f old fresh) x = (operands ir x).map (swap old fresh) := by
  rw [operands, opRauw_ia hx, opRauw_ib hx, opRauw_ilist hx]
  rfl

/-! ## Predecessors -/

/-- The targets of a block's terminator. -/
def targets (ir : Rows) (p : Nat) : List Nat :=
  match (ir.binsn p).getLast? with
  | some v => ir.iblk v
  | none => []

/-- The edges into a block, by where they come from. -/
def predEdges (ir : Rows) (f b : Nat) : List Nat :=
  (ir.fnblk f).flatMap fun p => List.replicate ((targets ir p).count b) p

/-- The store with other predecessor lists. -/
def Rows.withPreds (ir : Rows) (preds : Nat → List Nat) : Rows := { ir with bpred := preds }

theorem predOf_eq (p : Nat) : predOf ir p =
    ir.withPreds fun b => ir.bpred b ++ List.replicate ((targets ir p).count b) p := by
  have hfold : ∀ (ts : List Nat) (ir : Rows), ts.foldl (predSuccAt p) ir =
      ir.withPreds fun b => ir.bpred b ++ List.replicate (ts.count b) p := by
    intro ts
    induction ts with
    | nil =>
      intro ir
      simp only [List.count_nil, List.replicate_zero, List.append_nil]
      rfl
    | cons t ts ih =>
      intro ir
      rw [List.foldl_cons, ih]
      unfold Rows.withPreds predSuccAt
      congr 1
      funext b
      show Function.update ir.bpred t (ir.bpred t ++ [p]) b ++ _ = _
      by_cases hb : b = t
      · subst hb
        rw [Function.update_self, List.count_cons_self, List.append_assoc, List.replicate_succ]
        rfl
      · rw [Function.update_of_ne hb, List.count_cons_of_ne (Ne.symm hb)]
  unfold predOf targets
  cases (ir.binsn p).getLast? with
  | some v => exact hfold _ _
  | none =>
    simp only [List.count_nil, List.replicate_zero, List.append_nil]
    rfl

/-- The predecessor lists of a function's blocks are its edges, in order. -/
theorem opPreds_eq (ir : Rows) (f : Nat) : ∃ preds, opPreds ir f = ir.withPreds preds ∧
    ∀ b ∈ ir.fnblk f, preds b = predEdges ir f b := by
  have hclear : ∀ (l : List Nat) (ir : Rows), l.foldl predClearAt ir =
      ir.withPreds fun b => if b ∈ l then [] else ir.bpred b := by
    intro l
    induction l with
    | nil => exact fun ir => rfl
    | cons c l ih =>
      intro ir
      rw [List.foldl_cons, ih]
      unfold Rows.withPreds predClearAt
      congr 1
      funext b
      show (if b ∈ l then [] else Function.update ir.bpred c [] b) = _
      by_cases hb : b = c
      · subst hb
        rw [Function.update_self, ite_self, if_pos List.mem_cons_self]
      · rw [Function.update_of_ne hb]
        simp only [List.mem_cons, hb, false_or]
  have hscan : ∀ (l : List Nat) (preds : Nat → List Nat), l.foldl predOf (ir.withPreds preds) =
      ir.withPreds fun b => preds b ++ l.flatMap fun p => List.replicate ((targets ir p).count b) p := by
    intro l
    induction l with
    | nil =>
      intro preds
      simp only [List.foldl_nil, List.flatMap_nil, List.append_nil]
    | cons c l ih =>
      intro preds
      have hone : predOf (ir.withPreds preds) c =
          ir.withPreds fun b => preds b ++ List.replicate ((targets ir c).count b) c := predOf_eq c
      rw [List.foldl_cons, hone, ih]
      simp only [List.flatMap_cons, List.append_assoc]
  have hpreds : opPreds ir f =
      ir.withPreds fun b => (if b ∈ ir.fnblk f then [] else ir.bpred b) ++ predEdges ir f b := by
    rw [opPreds, hclear, hscan]
    rfl
  refine ⟨_, hpreds, fun b hb => ?_⟩
  rw [if_pos hb, List.nil_append]

end IdCompiler.Ir

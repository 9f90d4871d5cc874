import IdCompiler.Ir.Tamed

/-!
# The passes in their order

Slots become values first, as the other passes are blind while values live in
memory; then the tests are folded, what the folds left behind is swept, and both
again. A function goes through all of it and does the same, on every meaning of
the opcodes under which a test of a bit is the bit.
-/

namespace IdCompiler.Ir

/-- `opt_round` -/
def optRound (ir : Rows) (f : Nat) : Option Rows :=
  (opMem2reg (opPreds ir f) f).bind fun ir =>
    (opDce (opFold ir f) f).bind fun ir =>
      opDce (opFold ir f) f

/-- `opt_func` -/
def optFunc (ir : Rows) (f : Nat) (lvl : Int) : Option Rows := if 0 < lvl then optRound ir f else some ir

open IdCompiler.Core

variable {ir ir' P : Rows} {root f : Nat}

/-- The runs of one function look like those of another one where tests mean what they do and the
values at the start are of their types: each like one in which the slots, or what is new in the other
one, have some values to start with. -/
def KeepsTests (f root : Nat) (ir ir' : Rows) : Prop :=
  ∀ (V W : Type) (o : Opcodes V W) (bit : V → Prop) (zero : V) (env : Int → V) (world : W),
    Tests o bit zero → Starts ir bit zero env →
      (∀ cells, ∃ env', (∀ w < (ir.size : Int), env' w = env w) ∧
        ∀ cells' n, looks o ir' f root n env' cells' world = looks o ir f root n env cells world) ∧
      ∀ env', (∀ w < (ir.size : Int), env' w = env w) → ∃ cells,
        ∀ cells' n, looks o ir' f root n env' cells' world = looks o ir f root n env cells world

/-- A function without slots that is made smaller has none. -/
theorem Thinned.noSlots (h : Thinned f root ir ir') (hnone : m2rCollect ir f = []) : m2rCollect ir' f = [] := by
  refine m2rCollect_eq_nil fun b x hb hx hop => ?_
  rw [h.fnblk] at hb
  rw [h.binsn] at hx
  rcases h.rows x with ⟨hsame, -⟩ | ⟨hnop, -⟩
  · have hin := mem_m2rCollect_of hb hx (hsame.symm.trans hop)
    rw [hnone] at hin
    exact List.not_mem_nil hin
  · exact absurd (hnop.symm.trans hop) (by decide)

/-- The passes after the slots are gone. -/
theorem Trim.passes (h : Trim ir f (Goes P f) root) :
    ∃ ir', ((opDce (opFold ir f) f).bind fun ir => opDce (opFold ir f) f) = some ir' ∧ Thinned f root ir ir' ∧
      Settled ir' f := by
  obtain ⟨hfold, htrim⟩ := opFold_thinned h
  obtain ⟨ir₁, hdce, hswept, htrim, -⟩ := opDce_thinned htrim
  obtain ⟨hfold', htrim⟩ := opFold_thinned htrim
  obtain ⟨ir₂, hdce', hswept', -, hsettled⟩ := opDce_thinned htrim
  refine ⟨ir₂, by rw [hdce]; exact hdce', ?_, hsettled⟩
  exact IsTrans.trans _ _ _ (IsTrans.trans _ _ _ (IsTrans.trans _ _ _ hfold hswept) hfold') hswept'

/-- What a round does with a function, and what it leaves of all else. -/
structure Round (f root : Nat) (ir ir' : Rows) : Prop where
  keeps : KeepsTests f root ir ir'
  settled : Settled ir' f
  size : ir.size ≤ ir'.size
  aside : Aside ir f ir'
  own : ∀ x ∈ insns ir' f, x ∈ insns ir f ∨ ir.size ≤ x ∧ x < ir'.size
  starts : ∀ {V : Type} {bit : V → Prop} {zero : V} {env env' : Int → V}, Starts ir bit zero env →
    (∀ w < (ir.size : Int), env' w = env w) → Starts ir' bit zero env'

theorem optRound_round (h : Shaped ir f root) (ht : Tame ir f) :
    ∃ ir', optRound ir f = some ir' ∧ Round f root ir ir' := by
  obtain ⟨preds, hpreds, hedges⟩ := opPreds_eq ir f
  have hs := h.withPreds preds
  have hpreds' : Preds (ir.withPreds preds) f := preds_of_edges hedges
  have ht' : Tame (ir.withPreds preds) f := ⟨ht.consts, ht.slots, ht.widens, ht.placed⟩
  obtain ⟨m₁, m, τ, hturning⟩ := hs.turning hpreds'
  have hpromoted := hturning.promoted hs.first hpreds'
  have hgrown := grown_m2rFilled hs.lowered ht'
  obtain ⟨hwired, -⟩ := hs.lowered.filled fun b hb pb hpb => ((hpreds' b hb pb).mp hpb).1
  have haside : Aside (ir.withPreds preds) f (m2rFilled (ir.withPreds preds) f).ir :=
    aside_m2rFilled hs.lowered ht' fun b hb pb hpb => ((hpreds' b hb pb).mp hpb).1
  have htrim : Trim (m2rFilled (ir.withPreds preds) f).ir f (Goes (ir.withPreds preds) f) root :=
    ⟨hpromoted.scoped hs hpreds' rfl, hturning.tame hgrown ht' hs.first hpreds' hwired.known, hwired.known⟩
  obtain ⟨m', hclean, hrel, -⟩ := m2rClean_some (m2rFilled (ir.withPreds preds) f) f
  obtain ⟨hcleaned, htrim⟩ := m2rClean_thinned hwired htrim hclean
  have hsub : m'.pra ⊆ insns m'.ir f := by
    intro s hs
    rw [hrel.pra, hturning.pra] at hs
    rw [hrel.insns]
    exact hpromoted.sub (mem_m2rCollect hs).1
  obtain ⟨hkilled, htrim⟩ := killed_thinned htrim hsub (hturning.slots hrel)
  obtain ⟨ir', hpasses, hthin, hsettled⟩ := htrim.passes
  have hall := IsTrans.trans _ _ _ (IsTrans.trans _ _ _ hcleaned hkilled) hthin
  have hmem2reg : opMem2reg (opPreds ir f) f = some (m'.pra.foldl irKill m'.ir) := by
    rw [hpreds, opMem2reg, hclean]
    rfl
  have hown : ∀ x ∈ insns (m2rFilled (ir.withPreds preds) f).ir f, Own (ir.withPreds preds) f
      (m2rFilled (ir.withPreds preds) f) x := fun x hx => hgrown.own haside hx
  refine ⟨ir', by rw [optRound, hmem2reg]; exact hpasses, ?_⟩
  constructor
  case settled => exact hsettled
  case size =>
    rw [hall.size]
    exact hgrown.size
  case aside =>
    refine ⟨hall.fnblk.trans haside.fnblk, fun b hb => ?_, fun x hx hno => ?_⟩
    · rw [hall.binsn]
      exact haside.binsn b hb
    · have hout : x ∉ insns (m2rFilled (ir.withPreds preds) f).ir f := fun hin =>
        (hown x hin).elim hno fun hnew => Nat.not_lt.mpr hnew.1 hx
      rw [hall.other x hout]
      exact haside.row x hx hno
  case own =>
    intro x hx
    rw [hall.insns] at hx
    rw [hall.size]
    exact hown x hx
  case starts =>
    intro V bit zero env env' hstart henv
    have hstart' : Starts (ir.withPreds preds) bit zero env := ⟨hstart.bits, hstart.zeros⟩
    exact (hgrown.starts hstart' henv).thinned hall.size hall.istr hall.rows
  case keeps =>
    intro V W o bit zero env world ho hstart
    have hlook : ∀ env' cells cells' n, (∀ w < (ir.size : Int), env' w = env w) →
        (∀ a ∈ (m2rCollect ir f).map Int.ofNat, cells a = env' (startOf (ir.withPreds preds) f m₁ root a)) →
        looks o ir' f root n env' cells' world = looks o ir f root n env cells world := by
      intro env' cells cells' n henv hcells
      have hslots : observed (stepBlock o ir f (m2rCollect ir f)) Stand.seen n (Stand.start root env cells world) =
          observed (stepBlock o (m2rFilled (ir.withPreds preds) f).ir f []) Stand.seen n
            (Stand.start root env' cells' world) :=
        hpromoted.observed hs hpreds' rfl n rfl rfl rfl rfl rfl (fun w hw => (henv w hw).symm) hcells
      unfold looks
      rw [hthin.noSlots (hturning.noSlots hrel), hslots]
      have hfilled := hgrown.starts (P := ir.withPreds preds) ⟨hstart.bits, hstart.zeros⟩ henv
      exact (hall.same V W o bit zero (.start root env' cells' world) n ho rfl rfl hfilled).symm
    refine ⟨fun cells => ?_, fun env' henv => ?_⟩
    · obtain ⟨env', henv, hcells⟩ := hturning.undefined hs.first env cells
      exact ⟨env', henv, fun cells' n => hlook env' cells cells' n henv hcells⟩
    · exact ⟨fun a => env' (startOf (ir.withPreds preds) f m₁ root a),
        fun cells' n => hlook env' _ cells' n henv fun _ _ => rfl⟩

/-- A round of the passes ends, with a function that does the same and in which nothing is left that
could be removed and that nothing else names. -/
theorem optRound_keepsTests (h : Shaped ir f root) (ht : Tame ir f) :
    ∃ ir', optRound ir f = some ir' ∧ KeepsTests f root ir ir' ∧ Settled ir' f := by
  obtain ⟨ir', hrun, hround⟩ := optRound_round h ht
  exact ⟨ir', hrun, hround.keeps, hround.settled⟩

/-- A loop that counts a slot up to 10, whose condition is the bit of a comparison that was widened. -/
def counting : Rows :=
  ⟨17, fun x => ["alloca", "store", "br", "load", "icmp", "zext", "icmp", "cbr", "load", "add", "store", "br",
      "load", "ret", "const", "const", "const"].getD x "",
    fun x => ["int", "", "", "int", "i1", "int", "i1", "", "int", "int", "", "", "int", "", "int", "int", "int"].getD x "",
    fun x => [-1, 0, -1, 0, 3, 4, 5, 6, 0, 8, 0, -1, 0, 12].getD x (-1),
    fun x => [-1, 14, -1, -1, 15, -1, 14, -1, -1, 16, 9].getD x (-1),
    fun x => ["", "", "", "", "<", "", "!=", "", "", "", "", "", "", "", "0", "10", "1"].getD x "",
    fun _ => [], fun x => [[], [], [1], [], [], [], [], [2, 3], [], [], [], [1]].getD x [], fun _ => 0,
    fun b => [[0, 1, 2], [3, 4, 5, 6, 7], [8, 9, 10, 11], [12, 13]].getD b [], fun _ => [], fun _ => [0, 1, 2, 3]⟩

theorem counting_shaped : Shaped counting 0 0 := by
  have hbefore : ∀ b ∈ counting.fnblk 0, ∀ x ∈ counting.binsn b, ∀ v ∈ operands counting x,
      ∀ a ∈ counting.fnblk 0, (∃ y ∈ counting.binsn a, v = (y : Nat)) → a = b ∨ a = 0 := by
    decide
  refine ⟨⟨by decide, rfl, by decide, ?_, ends_of_last (by decide)⟩, fun b hb x hx _ v hv a ha => ?_⟩
  · rintro p ⟨hp, hin⟩
    revert p
    decide
  · rcases hbefore b hb x hx v hv a ha.1 ha.2 with rfl | rfl
    · exact .refl
    · exact .of_root

/-- Operands that are no rows name nothing that is widened. -/
theorem tame_of (hconsts : ∀ x ∈ insns ir f, ir.iop x ≠ "const")
    (hslots : ∀ x ∈ insns ir f, ir.iop x = "alloca" ∨ ir.iop x = "phi" → ir.ity x ≠ "i1")
    (hwidens : ∀ x ∈ insns ir f, ir.iop x = "zext" → 0 ≤ ir.ia x)
    (hplaced : ∀ x ∈ insns ir f, ∀ v ∈ operands ir x, 0 ≤ v → ir.iop v.toNat = "zext" → v.toNat ∈ insns ir f) :
    Tame ir f :=
  ⟨hconsts, hslots, hwidens, fun x hx _ z hz => hplaced x hx z hz (Int.natCast_nonneg z)⟩

theorem counting_tame : Tame counting 0 := tame_of (by decide) (by decide) (by decide) (by decide)

/-- Whole numbers, the bits being 0 and 1. -/
def whole (k : Kind) (a b : Int) : Int :=
  if k.op = "zext" then a
  else if k.op = "icmp" then if k.str = "<" ∧ a < b ∨ k.str = "!=" ∧ a ≠ b then 1 else 0
  else a + b

/-- A meaning of the opcodes, in which a row of the type of a bit gives the last bit. -/
def wholes : Opcodes Int Unit :=
  ⟨fun k a b _ _ => if k.ty = "i1" then whole k a b % 2 else whole k a b, fun _ _ _ _ _ => (0, ()),
    fun v => v ≠ 0, 0⟩

theorem wholes_tests : Tests wholes (fun v => v = 0 ∨ v = 1) 0 := by
  refine ⟨fun k a b l w hty => ?_, fun _ _ _ _ _ _ => .inl rfl, fun ty ty' str v b l w l' w' hv => ?_⟩
  · have hlast : wholes.value k a b l w = whole k a b % 2 := if_pos hty
    rw [hlast]
    exact Int.emod_two_eq _
  · have hzext : wholes.value ⟨"zext", ty', str⟩ v b l w = v := by
      show (if ty' = "i1" then v % 2 else v) = v
      split
      · omega
      · rfl
    rw [hzext]
    show (if ty = "i1" then (if _ then 1 else 0) % 2 else if _ then 1 else 0) = v
    rcases hv with rfl | rfl
    · simp
    · simp

theorem optRound_keepsTests_counting : Tests wholes (fun v => v = 0 ∨ v = 1) 0 ∧
    ∃ ir', optRound counting 0 = some ir' ∧ KeepsTests 0 0 counting ir' ∧ Settled ir' 0 :=
  ⟨wholes_tests, optRound_keepsTests counting_shaped counting_tame⟩

end IdCompiler.Ir

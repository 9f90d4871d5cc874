import IdCompiler.Ir.Pipeline

/-!
# All functions of a program

The functions of a program share the store and are optimised one after the
other. A round over one leaves the blocks and the rows of the others, and the
rows it adds are no bits and no zeros, so each function is still as the lowering
built it when its turn comes and stays what its round made of it.
-/

namespace IdCompiler.Ir

open IdCompiler.Core

/-- `ir_opt`: the functions of the program one after the other. -/
def irOpt (lvl : Int) : List Nat → Rows → Option Rows
  | [], ir => some ir
  | f :: prog, ir => (optFunc ir f lvl).bind (irOpt lvl prog)

variable {ir ir' ir'' : Rows} {prog : List Nat} {root : Nat → Nat} {f g r x : Nat} {v : Int} {lvl : Int} {l : List Nat}

/-! ## A function in two stores -/

section

variable (h : Twin ir ir' f)
include h

theorem Twin.insns : insns ir' f = insns ir f := by
  unfold Ir.insns
  rw [h.fnblk]
  exact List.flatMap_congr h.binsn

theorem Twin.iop (hx : x ∈ Ir.insns ir f) : ir'.iop x = ir.iop x := iop_of_row (h.row x hx)

theorem Twin.collect : m2rCollect ir' f = m2rCollect ir f := by
  unfold m2rCollect
  rw [h.fnblk]
  cases hblk : ir.fnblk f with
  | nil => rfl
  | cons b bs =>
    have hb : b ∈ ir.fnblk f := hblk ▸ List.mem_cons_self
    show List.filter _ (ir'.binsn b) = List.filter _ (ir.binsn b)
    rw [h.binsn b hb]
    exact List.filter_congr fun x hx => by rw [h.iop (mem_insns.mpr ⟨b, hb, hx⟩)]

theorem Twin.targets {b : Nat} (hb : b ∈ ir.fnblk f) : targets ir' b = targets ir b := by
  unfold Ir.targets
  rw [h.binsn b hb]
  cases hlast : (ir.binsn b).getLast? with
  | none => rfl
  | some t => exact congrArg Row.blk (h.row t (mem_insns.mpr ⟨b, hb, List.mem_of_getLast? hlast⟩))

theorem Twin.goes : Goes ir' f = Goes ir f := by
  funext p q
  unfold Goes
  rw [h.fnblk]
  exact propext (and_congr_right fun hp => by rw [h.targets hp])

theorem Twin.home {b : Nat} : Home ir' f v b ↔ Home ir f v b := by
  unfold Home
  rw [h.fnblk]
  exact and_congr_right fun hb => by rw [h.binsn b hb]

end

theorem Twin.trans (h : Twin ir ir' f) (h' : Twin ir' ir'' f) : Twin ir ir'' f := by
  refine ⟨h'.fnblk.trans h.fnblk, fun b hb => ?_, fun x hx => ?_⟩
  · rw [h'.binsn b (h.fnblk.symm ▸ hb), h.binsn b hb]
  · rw [h'.row x (h.insns.symm ▸ hx), h.row x hx]

theorem Twin.settled (h : Twin ir ir' f) (hs : Settled ir f) : Settled ir' f := by
  intro x hx hop
  rw [h.insns] at hx ⊢
  obtain ⟨y, hy, hne, hlive, huse⟩ := hs x hx (h.iop hx ▸ hop)
  have hrow := h.row y hy
  refine ⟨y, hy, hne, (h.iop hy).symm ▸ hlive, ?_⟩
  have hia : ir'.ia y = ir.ia y := congrArg Row.a hrow
  have hib : ir'.ib y = ir.ib y := congrArg Row.b hrow
  have hlist : ir'.ilist y = ir.ilist y := congrArg Row.list hrow
  rw [hia, hib, hlist]
  exact huse

/-- What can be seen of its runs. -/
theorem Twin.looks {V W : Type} {o : Opcodes V W} {env env' cells : Int → V} {world : W} {b n : Nat}
    (h : Twin ir ir' f) (henv : ∀ x ∈ Ir.insns ir f, ir.iop x ≠ "nop" → ∀ v ∈ operands ir x, env' v = env v) :
    looks o ir' f b n env' cells world = looks o ir f b n env cells world := by
  unfold Ir.looks
  rw [h.collect]
  refine (h.observed (A := fun v => env' v = env v) henv n ?_).symm
  exact ⟨rfl, rfl, fun _ hw => hw, rfl, fun _ hw => hw, rfl⟩

/-- A function that has no block and no row with another one in common. -/
structure Away (ir : Rows) (g f : Nat) : Prop where
  blks : ∀ b ∈ ir.fnblk g, b ∉ ir.fnblk f
  rows : ∀ x ∈ insns ir g, x < ir.size ∧ x ∉ insns ir f

/-- Nor does it name one of its rows. -/
structure Clear (ir : Rows) (g f : Nat) : Prop extends Away ir g f where
  names : ∀ x ∈ insns ir g, ir.iop x ≠ "nop" → ∀ y ∈ insns ir f, (y : Int) ∉ operands ir x

theorem Twin.away {g k : Nat} (h : Twin ir ir' g) (h' : Twin ir ir' k) (hsize : ir.size ≤ ir'.size)
    (haway : Away ir g k) : Away ir' g k := by
  refine ⟨?_, fun x hx => ?_⟩
  · rw [h.fnblk, h'.fnblk]
    exact haway.blks
  · rw [h.insns] at hx
    rw [h'.insns]
    exact ⟨Nat.lt_of_lt_of_le (haway.rows x hx).1 hsize, (haway.rows x hx).2⟩

/-- The functions of a program as the lowering builds them. -/
structure Program (ir : Rows) (prog : List Nat) (root : Nat → Nat) : Prop where
  nodup : prog.Nodup
  shaped : ∀ f ∈ prog, Shaped ir f (root f)
  tame : ∀ f ∈ prog, Tame ir f
  clear : ∀ f ∈ prog, ∀ g ∈ prog, g ≠ f → Clear ir g f

/-! ## Another function's round -/

theorem Round.twin (hround : Round f r ir ir') (haway : Away ir g f) : Twin ir ir' g :=
  ⟨congrFun hround.aside.fnblk g, fun b hb => hround.aside.binsn b (haway.blks b hb),
    fun x hx => hround.aside.row x (haway.rows x hx).1 (haway.rows x hx).2⟩

section

variable (hround : Round f r ir ir') (hclear : Clear ir g f) (hs : Shaped ir g (root g))
include hround hclear hs

theorem Round.shaped : Shaped ir' g (root g) := by
  have htwin := hround.twin hclear.toAway
  have hdefined : ∀ {x l v}, x ∈ insns ir g → ir.iop x ≠ "nop" → v ∈ operands ir x → Defined ir l v →
      Defined ir' l v := by
    rintro x l v hx hlive hv ⟨y, rfl, hlt, hop, hnot⟩
    have hout : y ∉ insns ir f := fun hy => hclear.names x hx hlive y hy hv
    refine ⟨y, rfl, Nat.lt_of_lt_of_le hlt hround.size, ?_, hnot⟩
    rw [iop_of_row (hround.aside.row y hlt hout)]
    exact hop
  constructor
  case dominated =>
    intro b hb x hx hlive v hv a ha
    rw [htwin.fnblk] at hb
    rw [htwin.binsn b hb] at hx
    have hin := mem_insns.mpr ⟨b, hb, hx⟩
    rw [htwin.goes]
    rw [operands_of_row (htwin.row x hin)] at hv
    exact hs.dominated b hb x hx (htwin.iop hin ▸ hlive) v hv a (htwin.home.mp ha)
  case toFormed =>
    constructor
    case first =>
      rw [htwin.fnblk]
      exact hs.first
    case nodup =>
      rw [htwin.insns]
      exact hs.nodup
    case entry =>
      rw [htwin.goes]
      exact hs.entry
    case ends =>
      intro b hb
      rw [htwin.fnblk] at hb
      obtain ⟨l, t, hlt, ht, hno⟩ := hs.ends b hb
      have hin : ∀ x ∈ l ++ [t], x ∈ insns ir g := fun x hx => mem_insns.mpr ⟨b, hb, hlt ▸ hx⟩
      refine ⟨l, t, (htwin.binsn b hb).trans hlt, ?_, fun x hx => ?_⟩
      · rw [htwin.row t (hin t (List.mem_append_right l (List.mem_singleton_self t)))]
        exact ht
      · rw [htwin.row x (hin x (List.mem_append_left _ hx))]
        exact hno x hx
    case lowered =>
      constructor
      case size =>
        intro x hx
        rw [htwin.insns] at hx
        exact Nat.lt_of_lt_of_le (hs.lowered.size x hx) hround.size
      case full =>
        intro b hb
        rw [htwin.fnblk] at hb
        rw [htwin.binsn b hb]
        exact hs.lowered.full b hb
      case noPhi =>
        intro x hx
        rw [htwin.insns] at hx
        rw [htwin.iop hx]
        exact hs.lowered.noPhi x hx
      case stored =>
        intro x hx hop
        rw [htwin.insns] at hx
        have hib : ir'.ib x = ir.ib x := congrArg Row.b (htwin.row x hx)
        rw [hib]
        exact hs.lowered.stored x hx (htwin.iop hx ▸ hop)
      case named =>
        intro x l hl hlive
        rw [htwin.insns] at hl
        have hx : x ∈ insns ir g := hl.subset List.mem_cons_self
        have hrow := htwin.row x hx
        have hia : ir'.ia x = ir.ia x := congrArg Row.a hrow
        have hib : ir'.ib x = ir.ib x := congrArg Row.b hrow
        have hlist : ir'.ilist x = ir.ilist x := congrArg Row.list hrow
        have hlive := htwin.iop hx ▸ hlive
        obtain ⟨hvalues, haddr⟩ := hs.lowered.named x l hl hlive
        rw [hia, hib, hlist]
        refine ⟨fun v hv => (hvalues v hv).imp_right (hdefined hx hlive (List.mem_cons_of_mem _ hv)), ?_⟩
        refine haddr.imp_right fun haddr => haddr.imp (hdefined hx hlive List.mem_cons_self) ?_
        rintro ⟨hacc, s, hmem, hias, hslot⟩
        refine ⟨(htwin.iop hx).symm ▸ hacc, s, htwin.collect ▸ hmem, hia.trans hias, ?_⟩
        rw [htwin.iop (mem_m2rCollect hmem).1]
        exact hslot

omit hs in
theorem Round.tame (ht : Tame ir g) (hknown : Known ir g) : Tame ir' g := by
  have htwin := hround.twin hclear.toAway
  constructor
  case consts =>
    intro x hx
    rw [htwin.insns] at hx
    rw [htwin.iop hx]
    exact ht.consts x hx
  case slots =>
    intro x hx
    rw [htwin.insns] at hx
    have hty : ir'.ity x = ir.ity x := congrArg Row.ty (htwin.row x hx)
    rw [htwin.iop hx, hty]
    exact ht.slots x hx
  case widens =>
    intro x hx
    rw [htwin.insns] at hx
    have hia : ir'.ia x = ir.ia x := congrArg Row.a (htwin.row x hx)
    rw [htwin.iop hx, hia]
    exact ht.widens x hx
  case placed =>
    intro x hx hlive z hz hop
    rw [htwin.insns] at hx ⊢
    rw [htwin.iop hx] at hlive
    rw [operands_of_row (htwin.row x hx)] at hz
    have hout : z ∉ insns ir f := fun hy => hclear.names x hx hlive z hy hz
    have hlt : z < ir.size := Int.ofNat_lt.mp (hknown x hx hlive z hz)
    rw [iop_of_row (hround.aside.row z hlt hout)] at hop
    exact ht.placed x hx hlive z hz hop

end

/-- What an instruction names as the lowering builds it is a row. -/
theorem Lowered.known (h : Lowered ir f) : Known ir f := by
  intro x hx hlive v hv
  obtain ⟨l, rest, hsplit⟩ := List.append_of_mem hx
  obtain ⟨hvalues, haddr⟩ := h.named x rest ⟨l, hsplit.symm⟩ hlive
  have hdefined : ∀ {l v}, v = -1 ∨ Defined ir l v → v < ir.size := by
    rintro l v (rfl | ⟨r, rfl, hlt, -⟩)
    · omega
    · exact Int.ofNat_lt.mpr hlt
  cases List.mem_cons.mp hv with
  | inr hv => exact hdefined (hvalues v hv)
  | inl heq =>
    rw [heq]
    rcases haddr with hnone | hdef | ⟨-, s, hs, hias, -⟩
    · exact hdefined (l := []) (.inl hnone)
    · exact hdefined (.inr hdef)
    · rw [hias]
      exact Int.ofNat_lt.mpr (h.size s (mem_m2rCollect hs).1)

/-- The other functions are still as the lowering built them. -/
theorem Round.program (h : Program ir (f :: prog) root) (hround : Round f (root f) ir ir') :
    Program ir' prog root := by
  obtain ⟨hnot, hnodup⟩ := List.nodup_cons.mp h.nodup
  have hclear : ∀ g ∈ prog, Clear ir g f := fun g hg =>
    h.clear f List.mem_cons_self g (List.mem_cons_of_mem _ hg) fun heq => hnot (heq ▸ hg)
  have hshaped : ∀ g ∈ prog, Shaped ir g (root g) := fun g hg => h.shaped g (List.mem_cons_of_mem _ hg)
  have htwin : ∀ g ∈ prog, Twin ir ir' g := fun g hg => hround.twin (hclear g hg).toAway
  constructor
  case nodup => exact hnodup
  case shaped => exact fun g hg => hround.shaped (hclear g hg) (hshaped g hg)
  case tame =>
    intro g hg
    exact hround.tame (hclear g hg) (h.tame g (List.mem_cons_of_mem _ hg)) (hshaped g hg).lowered.known
  case clear =>
    intro g hg k hk hne
    have hold := h.clear g (List.mem_cons_of_mem _ hg) k (List.mem_cons_of_mem _ hk) hne
    have hg := htwin g hg
    have hk := htwin k hk
    refine ⟨hk.away hg hround.size hold.toAway, fun x hx hlive y hy => ?_⟩
    rw [hk.insns] at hx
    rw [hg.insns] at hy
    rw [operands_of_row (hk.row x hx)]
    exact hold.names x hx (hk.iop hx ▸ hlive) y hy

/-! ## The order of the functions -/

theorem KeepsTests.before {b : Nat} (h : KeepsTests g b ir' ir'') (htwin : Twin ir ir' g) (hsize : ir.size ≤ ir'.size)
    (hknown : Known ir g) (hstarts : ∀ {V : Type} {bit : V → Prop} {zero : V} {env env' : Int → V},
      Starts ir bit zero env → (∀ w < (ir.size : Int), env' w = env w) → Starts ir' bit zero env') :
    KeepsTests g b ir ir'' := by
  intro V W o bit zero env world ho hs
  refine ⟨fun cells => ?_, fun env' henv => ?_⟩
  · obtain ⟨env', henv, hlooks⟩ := (h V W o bit zero env world ho (hstarts hs fun _ _ => rfl)).1 cells
    refine ⟨env', fun w hw => henv w (by omega), fun cells' n => ?_⟩
    rw [hlooks cells' n]
    exact htwin.looks fun _ _ _ _ _ => rfl
  · obtain ⟨cells, hlooks⟩ := (h V W o bit zero env' world ho (hstarts hs henv)).2 env' fun _ _ => rfl
    refine ⟨cells, fun cells' n => ?_⟩
    rw [hlooks cells' n]
    exact htwin.looks fun x hx hlive v hv => henv v (hknown x hx hlive v hv)

theorem KeepsTests.after {b : Nat} (h : KeepsTests f b ir ir') (htwin : Twin ir' ir'' f) : KeepsTests f b ir ir'' := by
  have hlooks : ∀ {V W : Type} (o : Opcodes V W) n env cells world,
      looks o ir'' f b n env cells world = looks o ir' f b n env cells world :=
    fun o n env cells world => htwin.looks fun _ _ _ _ _ => rfl
  intro V W o bit zero env world ho hs
  obtain ⟨hfirst, hsecond⟩ := h V W o bit zero env world ho hs
  refine ⟨fun cells => ?_, fun env' henv => ?_⟩
  · obtain ⟨env', henv, hsame⟩ := hfirst cells
    exact ⟨env', henv, fun cells' n => (hlooks o n env' cells' world).trans (hsame cells' n)⟩
  · obtain ⟨cells, hsame⟩ := hsecond env' henv
    exact ⟨cells, fun cells' n => (hlooks o n env' cells' world).trans (hsame cells' n)⟩

/-- Two functions, the first of which counts, and the second loads a slot that it never sets. -/
def paired : Rows :=
  { counting with
    size := 20
    iop := fun x => if x < 17 then counting.iop x else ["alloca", "load", "ret"].getD (x - 17) ""
    ity := fun x => if x < 17 then counting.ity x else ["int", "int", ""].getD (x - 17) ""
    ia := fun x => if x < 17 then counting.ia x else [-1, 17, 18].getD (x - 17) (-1)
    binsn := fun b => if b < 4 then counting.binsn b else [17, 18, 19]
    fnblk := fun f => if f = 0 then [0, 1, 2, 3] else [4] }

theorem paired_program : Program paired [0, 1] fun f => if f = 0 then 0 else 4 := by
  have hbefore : ∀ f ∈ [0, 1], ∀ b ∈ paired.fnblk f, ∀ x ∈ paired.binsn b, ∀ v ∈ operands paired x,
      ∀ a ∈ paired.fnblk f, (∃ y ∈ paired.binsn a, v = (y : Nat)) → a = b ∨ a = if f = 0 then 0 else 4 := by
    decide
  have hentry : ∀ f ∈ [0, 1], ∀ p ∈ paired.fnblk f, (if f = 0 then 0 else 4) ∉ targets paired p := by decide
  have hlast : ∀ f ∈ [0, 1], ∀ b ∈ paired.fnblk f,
      paired.binsn b = (paired.binsn b).dropLast ++ [(paired.binsn b).getLastD 0] ∧
      (paired.row ((paired.binsn b).getLastD 0)).Ends ∧ ∀ x ∈ (paired.binsn b).dropLast, ¬(paired.row x).Ends := by
    decide
  constructor
  case nodup => decide
  case tame =>
    intro f hf
    have hconsts : ∀ f ∈ [0, 1], ∀ x ∈ insns paired f, paired.iop x ≠ "const" := by decide
    have hslots : ∀ f ∈ [0, 1], ∀ x ∈ insns paired f, paired.iop x = "alloca" ∨ paired.iop x = "phi" →
        paired.ity x ≠ "i1" := by decide
    have hwidens : ∀ f ∈ [0, 1], ∀ x ∈ insns paired f, paired.iop x = "zext" → 0 ≤ paired.ia x := by decide
    have hplaced : ∀ f ∈ [0, 1], ∀ x ∈ insns paired f, ∀ v ∈ operands paired x, 0 ≤ v →
        paired.iop v.toNat = "zext" → v.toNat ∈ insns paired f := by decide
    exact tame_of (hconsts f hf) (hslots f hf) (hwidens f hf) (hplaced f hf)
  case shaped =>
    intro f hf
    refine ⟨⟨?_, ?_, ?_, fun p hp => hentry f hf p hp.1 hp.2, ends_of_last (hlast f hf)⟩,
      fun b hb x hx _ v hv a ha => ?_⟩
    · revert f
      decide
    · revert f
      decide
    · revert f
      decide
    · rcases hbefore f hf b hb x hx v hv a ha.1 ha.2 with rfl | rfl
      · exact .refl
      · exact .of_root
  case clear =>
    intro f hf g hg hne
    refine ⟨⟨?_, ?_⟩, ?_⟩
    · revert f g
      decide
    · revert f g
      decide
    · revert f g
      decide

end IdCompiler.Ir

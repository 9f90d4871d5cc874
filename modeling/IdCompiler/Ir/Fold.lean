import IdCompiler.Ir.Replace

/-!
# Folding tests

The lowering asks of every condition whether it is not zero, also of one that is
a comparison's bit, which it widens first. Such a test is the bit, and every use
of it becomes a use of the bit. That the test and the bit are the same is known
in a run where the widening was run after the bit was last computed.
-/

namespace IdCompiler.Ir

/-- `fold_isbool`: whether what a row widens is a bit. -/
def foldIsbool (ir : Rows) (v : Nat) : Nat := if ir.ity (ir.ia v).toNat = "i1" then 1 else 0

/-- `fold_iszext` -/
def foldIszext (ir : Rows) (v : Int) : Nat :=
  if 0 ≤ v ∧ ir.iop v.toNat = "zext" ∧ foldIsbool ir v.toNat = 1 then 1 else 0

/-- `fold_zero_of` -/
def foldZeroOf (ir : Rows) (id : Nat) : Nat :=
  if 0 ≤ ir.ib id ∧ ir.iop (ir.ib id).toNat = "const" ∧ ir.istr (ir.ib id).toNat = "0" then 1 else 0

/-- `fold_kill` -/
def foldKill (ir : Rows) (f id : Nat) (v : Int) : Rows := dropped ir f id v

/-- `fold_cmp` -/
def foldCmp (f : Nat) (ir : Rows) (id : Nat) : Rows :=
  if foldIszext ir (ir.ia id) = 1 ∧ foldZeroOf ir id = 1 then foldKill ir f id (ir.ia (ir.ia id).toNat)
  else ir

/-- `fold_one` -/
def foldOne (f : Nat) (ir : Rows) (id : Nat) : Rows :=
  if ir.iop id = "icmp" ∧ ir.istr id = "!=" then foldCmp f ir id else ir

/-- `fold_blk`: no fold changes a block's list. -/
def foldBlk (f : Nat) (ir : Rows) (b : Nat) : Rows := (ir.binsn b).foldl (foldOne f) ir

/-- `op_fold` -/
def opFold (ir : Rows) (f : Nat) : Rows := (ir.fnblk f).foldl (foldBlk f) ir

open IdCompiler.Core

theorem of_ite_eq_one {p : Prop} [Decidable p] (h : (if p then 1 else 0) = 1) : p := by
  by_contra hno
  rw [if_neg hno] at h
  exact absurd h (by decide)

theorem foldIszext_eq_one {ir : Rows} {v : Int} (h : foldIszext ir v = 1) :
    0 ≤ v ∧ ir.iop v.toNat = "zext" ∧ ir.ity (ir.ia v.toNat).toNat = "i1" := by
  obtain ⟨hv, hop, hbool⟩ := of_ite_eq_one h
  exact ⟨hv, hop, of_ite_eq_one hbool⟩

theorem foldZeroOf_eq_one {ir : Rows} {id : Nat} (h : foldZeroOf ir id = 1) :
    0 ≤ ir.ib id ∧ ir.iop (ir.ib id).toNat = "const" ∧ ir.istr (ir.ib id).toNat = "0" := of_ite_eq_one h

/-! ## What the lowering builds of tests -/

/-- A function in which bits are not kept in slots, and constants stand outside the blocks and widened
values in them. -/
structure Tame (ir : Rows) (f : Nat) : Prop where
  consts : ∀ x ∈ insns ir f, ir.iop x ≠ "const"
  slots : ∀ x ∈ insns ir f, ir.iop x = "alloca" ∨ ir.iop x = "phi" → ir.ity x ≠ "i1"
  /-- A row that widens names what it widens. -/
  widens : ∀ x ∈ insns ir f, ir.iop x = "zext" → 0 ≤ ir.ia x
  placed : ∀ x ∈ insns ir f, ir.iop x ≠ "nop" → ∀ z : Nat, (z : Int) ∈ operands ir x → ir.iop z = "zext" →
    z ∈ insns ir f

/-- What is named is a row. -/
def Known (ir : Rows) (f : Nat) : Prop :=
  ∀ x ∈ insns ir f, ir.iop x ≠ "nop" → ∀ v ∈ operands ir x, v < ir.size

variable {V W : Type*}

/-- The meaning of a test: a row of the type of a bit computes one, and a bit that was widened is not
zero where it is set. -/
structure Tests (o : Opcodes V W) (bit : V → Prop) (zero : V) : Prop where
  value : ∀ k a b l w, k.ty = "i1" → bit (o.value k a b l w)
  effect : ∀ k a b l w, k.ty = "i1" → bit (o.effect k a b l w).1
  widened : ∀ ty ty' str v b l w l' w', bit v →
    o.value ⟨"icmp", ty, "!="⟩ (o.value ⟨"zext", ty', str⟩ v b l w) zero l' w' = v

/-- Values with which a run may start: a row of the type of a bit has one, and zeros are zero. -/
structure Starts (ir : Rows) (bit : V → Prop) (zero : V) (env : Int → V) : Prop where
  bits : ∀ x < ir.size, ir.ity x = "i1" → bit (env (x : Nat))
  zeros : ∀ c < ir.size, ir.iop c = "const" → ir.istr c = "0" → env (c : Nat) = zero

variable {ir ir' : Rows} {next : Nat → Nat → Prop} {root : Nat} {f b c k x id : Nat} {u : V} {w : W}
  {l rest : List Nat} {o : Opcodes V W} {bit : V → Prop} {zero : V} {e : Entry V} {r : Row} {s : Now V W}

/-! ## What a run keeps -/

theorem act_value {op : String} (hop : r.op = op) (hno : op ∉ ["nop", "param", "alloca", "store", "call", "phi"]) :
    act o [] e r s = ([], s.assign r.id (o.value r.kind (s.env r.a) (s.env r.b) (r.list.map s.env) s.world) s.world) := by
  simp only [List.mem_cons, List.not_mem_nil, or_false, not_or] at hno
  obtain ⟨hnop, hparam, halloca, hstore, hcall, hphi⟩ := hno
  unfold act
  rw [if_neg not_onSlot_nil, hop, if_neg (by simp only [hnop, hparam, halloca, or_self, not_false_eq_true]),
    if_neg (not_or.mpr ⟨hstore, hcall⟩), if_neg hphi]

/-- An instruction that ends no block: nothing, or a value, which is a bit if its type is one. -/
theorem Tests.act (ho : Tests o bit zero) (hphi : r.op = "phi" → r.ty ≠ "i1") :
    (act o [] e r s).2 = s ∧ r.op ≠ "zext" ∨ ∃ u w, (act o [] e r s).2 = s.assign r.id u w ∧
      (r.ty = "i1" → bit u) ∧
      (r.op = "zext" → u = o.value r.kind (s.env r.a) (s.env r.b) (r.list.map s.env) s.world) := by
  unfold Ir.act
  rw [if_neg not_onSlot_nil]
  by_cases hidle : r.op = "nop" ∨ r.op = "param" ∨ r.op = "alloca"
  · rw [if_pos hidle]
    refine .inl ⟨rfl, fun hop => ?_⟩
    rw [hop] at hidle
    exact absurd hidle (by decide)
  rw [if_neg hidle]
  by_cases heffect : r.op = "store" ∨ r.op = "call"
  · rw [if_pos heffect]
    refine .inr ⟨_, _, rfl, fun hty => ho.effect r.kind _ _ _ _ hty, fun hop => ?_⟩
    rw [hop] at heffect
    exact absurd heffect (by decide)
  rw [if_neg heffect]
  by_cases hop : r.op = "phi"
  · rw [if_pos hop]
    refine .inr ⟨_, _, rfl, fun hty => absurd hty (hphi hop), fun hzext => ?_⟩
    exact absurd (hop.symm.trans hzext) (by decide)
  · rw [if_neg hop]
    exact .inr ⟨_, _, rfl, fun hty => ho.value r.kind _ _ _ _ hty, fun _ => rfl⟩

/-- The values at a place of a block: what was widened before it is what it was widened from. -/
structure Bits (o : Opcodes V W) (ir : Rows) (f : Nat) (next : Nat → Nat → Prop) (root : Nat)
    (bit : V → Prop) (zero : V) (b k : Nat) (s : Now V W) : Prop where
  starts : Starts ir bit zero s.env
  widened : ∀ z ∈ insns ir f, ir.iop z = "zext" → Before ir f next root b k (z : Nat) →
    ∃ v l w, s.env (z : Nat) = o.value (ir.row z).kind (s.env (ir.ia z)) v l w

theorem Starts.assign (h : Starts ir bit zero s.env) (hbit : ir.ity x = "i1" → bit u) (hop : ir.iop x ≠ "const") :
    Starts ir bit zero (s.assign x u w).env := by
  refine ⟨fun y hy hty => ?_, fun c hc hconst hstr => ?_⟩
  · show bit (Function.update s.env x u y)
    by_cases hyx : y = x
    · rw [hyx, Function.update_self]
      exact hbit (hyx ▸ hty)
    · rw [Function.update_of_ne fun heq => hyx (Int.natCast_inj.mp heq)]
      exact h.bits y hy hty
  · have hne : (c : Int) ≠ x := fun heq => hop (Int.natCast_inj.mp heq ▸ hconst)
    exact (Function.update_of_ne hne ..).trans (h.zeros c hc hconst hstr)

/-- Nothing is widened before the first block. -/
theorem Bits.start (hs : Starts ir bit zero s.env) : Bits o ir f next root bit zero root 0 s := by
  refine ⟨hs, fun z hz _ hbefore => ?_⟩
  obtain ⟨a, ha⟩ := exists_home hz
  rcases hbefore a ha with ⟨-, hlt⟩ | ⟨hne, hdom⟩
  · exact absurd hlt (Nat.not_lt_zero _)
  · exact absurd hdom.eq_root hne

section

variable (h : Scoped ir f next root) (ht : Tame ir f)
include h ht

/-- What a row widens is computed before it, so it is not computed anew between the two. -/
theorem Bits.assign (hk : Bits o ir f next root bit zero b l.length s) (hb : b ∈ ir.fnblk f)
    (hreached : Reached next root b) (hx : ir.binsn b = l ++ x :: rest) (hbit : ir.ity x = "i1" → bit u)
    (hzext : ir.iop x = "zext" →
      u = o.value (ir.row x).kind (s.env (ir.ia x)) (s.env (ir.ib x)) ((ir.ilist x).map s.env) s.world) :
    Bits o ir f next root bit zero b (l.length + 1) (s.assign x u w) := by
  have hin : x ∈ insns ir f := mem_insns.mpr ⟨b, hb, hx ▸ List.mem_append_right l List.mem_cons_self⟩
  refine ⟨hk.starts.assign hbit (ht.consts x hin), fun z hz hop hbefore => ?_⟩
  have horigin : Origin ir f next root z (ir.ia z) := h.origin (by rw [hop]; decide)
  show ∃ v l w, Function.update s.env x u z = o.value _ (Function.update s.env x u (ir.ia z)) v l w
  rcases hbefore.step h.nodup hb hx with heq | hold
  · obtain rfl := Int.natCast_inj.mp heq
    have hplace := horigin b ⟨hb, z, hx ▸ List.mem_append_right l List.mem_cons_self, rfl⟩ hreached
    rw [place_eq h.nodup hb hx] at hplace
    rw [Function.update_self, Function.update_of_ne (hplace.ne h.nodup hb hx), hzext hop]
    exact ⟨_, _, _, rfl⟩
  · have hia := (horigin.before hz hreached hold).ne h.nodup hb hx
    rw [Function.update_of_ne (hold.ne h.nodup hb hx), Function.update_of_ne hia]
    exact hk.widened z hz hop hold

theorem Tests.carried (ho : Tests o bit zero) :
    Carried o ir f next root fun b k s => Bits o ir f next root bit zero b k s := by
  constructor
  case act =>
    intro e l x rest s hb hreached hx _ hk
    have hin : x ∈ insns ir f := mem_insns.mpr ⟨e.blk, hb, hx ▸ List.mem_append_right l List.mem_cons_self⟩
    rcases ho.act (e := e) (r := ir.row x) (s := s) fun hop => ht.slots x hin (.inr hop) with
      ⟨hsame, hop⟩ | ⟨u, w, hassign, hbit, hzext⟩
    · rw [hsame]
      refine ⟨hk.starts, fun z hz hzop hbefore => hk.widened z hz hzop ?_⟩
      refine (hbefore.step h.nodup hb hx).resolve_left fun heq => hop ?_
      obtain rfl := Int.natCast_inj.mp heq
      exact hzop
    · rw [hassign]
      exact hk.assign h ht hb hreached hx hbit hzext
  case leave =>
    intro b c l t s hb _ hnext hx hends hk
    refine ⟨hk.starts, fun z hz hop hbefore => hk.widened z hz hop ?_⟩
    have hend := (hbefore.enter hnext).before
    have hlen : (ir.binsn b).length = l.length + 1 := by
      rw [hx, List.length_append]
      rfl
    rw [hlen] at hend
    refine (hend.step h.nodup hb hx).resolve_left fun heq => ?_
    obtain rfl := Int.natCast_inj.mp heq
    exact not_ends (r := ir.row z) hop (by decide) hends

end

/-! ## One fold -/

/-- A test whether the bit `v`, which `z` widens, is not the zero `c`. -/
structure Widened (ir : Rows) (f b id z c v : Nat) : Prop where
  blk : b ∈ ir.fnblk f
  mem : id ∈ ir.binsn b
  op : ir.iop id = "icmp"
  str : ir.istr id = "!="
  ia : ir.ia id = z
  zext : ir.iop z = "zext"
  bit : ir.ia z = v
  ty : ir.ity v = "i1"
  ib : ir.ib id = c
  const : ir.iop c = "const"
  zero : ir.istr c = "0"

section

variable {z v : Nat}

theorem Widened.home (hw : Widened ir f b id z c v) : Home ir f (id : Nat) b := ⟨hw.blk, id, hw.mem, rfl⟩

theorem Widened.live (hw : Widened ir f b id z c v) : ir.iop id ≠ "nop" := by
  rw [hw.op]
  decide

theorem Tame.zext (ht : Tame ir f) (hw : Widened ir f b id z c v) : z ∈ insns ir f :=
  ht.placed id hw.home.mem_insns hw.live z (hw.ia ▸ List.mem_cons_self) hw.zext

section

variable (h : Scoped ir f next root) (ht : Tame ir f) (hw : Widened ir f b id z c v)
include h ht hw

/-- What is widened is computed before the test, and so is the bit. -/
theorem Widened.before (hb : Reached next root b) :
    Before ir f next root b (place ir b (id : Nat)) (z : Nat) ∧
      Before ir f next root b (place ir b (id : Nat)) (v : Nat) := by
  have hused := (h.used b hw.blk hb id hw.mem hw.live).1
  rw [hw.ia] at hused
  have horigin : Origin ir f next root z (ir.ia z) := h.origin (by rw [hw.zext]; decide)
  rw [hw.bit] at horigin
  exact ⟨hused, horigin.before (ht.zext hw) hb hused⟩

theorem Widened.replaces : Replaces ir f next root b id (v : Nat) :=
  ⟨hw.blk, hw.mem, not_ends (r := ir.row id) hw.op (by decide), fun hb => (hw.before h ht hb).2⟩

/-- Where the test stands it is the bit. -/
theorem Widened.value (hknown : Known ir f) (ho : Tests o bit zero) (hb : Reached next root b)
    (hk : Bits o ir f next root bit zero b (place ir b (id : Nat)) s) :
    act o [] e (ir.row id) s = ([], s.assign id (s.env (v : Nat)) s.world) := by
  obtain ⟨x, l, w, hz⟩ := hk.widened z (ht.zext hw) hw.zext (hw.before h ht hb).1
  have hlt : ∀ {x y : Nat}, x ∈ insns ir f → ir.iop x ≠ "nop" → (y : Int) ∈ operands ir x → y < ir.size :=
    fun hx hlive hy => Int.ofNat_lt.mp (hknown _ hx hlive _ hy)
  have hc : c < ir.size := hlt hw.home.mem_insns hw.live (hw.ib ▸ List.mem_cons_of_mem _ List.mem_cons_self)
  have hv : v < ir.size := hlt (ht.zext hw) (by rw [hw.zext]; decide) (hw.bit ▸ List.mem_cons_self)
  have hzero := hk.starts.zeros c hc hw.const hw.zero
  have hbit := hk.starts.bits v hv hw.ty
  rw [hw.bit] at hz
  rw [act_value (r := ir.row id) hw.op (by decide)]
  show ([], s.assign id (o.value ⟨ir.iop id, ir.ity id, ir.istr id⟩ (s.env (ir.ia id)) (s.env (ir.ib id)) _ _) _) = _
  have hkind : (ir.row z).kind = ⟨"zext", ir.ity z, ir.istr z⟩ := by
    rw [← hw.zext]
    rfl
  rw [hw.op, hw.str, hw.ia, hw.ib, hz, hzero, hkind, ho.widened _ _ _ _ _ _ _ _ _ hbit]

/-- Without the test the function does the same on values it may start with. -/
theorem Widened.observed (hknown : Known ir f) (ho : Tests o bit zero) {t : Stand V W} (n : Nat)
    (hroot : t.blk = root) (hfirst : t.prev = none) (hs : Starts ir bit zero t.now.env) :
    observed (stepBlock o ir f []) Stand.seen n t = observed (stepBlock o (dropped ir f id v) f []) Stand.seen n t := by
  refine (hw.replaces h ht).observed h (ho.carried h ht) (fun e e' s s' harr hb hin hk => ?_) n hroot hfirst (.start hs)
  have htracks := hin.tracks v trivial (.inl swap_fresh)
  rw [swap_fresh] at htracks
  rw [hw.value h ht hknown ho (hb ▸ harr.reached) hk, htracks]

end

end

end IdCompiler.Ir

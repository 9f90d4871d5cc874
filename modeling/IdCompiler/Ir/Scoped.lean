import IdCompiler.Ir.Blocks
import IdCompiler.Ir.Scope

/-!
# Functions whose values are computed before they are used

The edges between the blocks of a function are those of one graph, each block
ends in one terminator, and every operand is computed on every path to its use,
a phi's values on every path over the edge they are for.
-/

namespace IdCompiler.Ir

open IdCompiler.Core

/-- A function in which every value is computed before it is used. -/
structure Scoped (ir : Rows) (f : Nat) (next : Nat → Nat → Prop) (root : Nat) : Prop where
  nodup : (insns ir f).Nodup
  edges : ∀ p q, next p q ↔ Goes ir f p q
  entry : ∀ p, ¬next p root
  ends : ∀ b ∈ ir.fnblk f, ∃ l t, ir.binsn b = l ++ [t] ∧ (ir.row t).Ends ∧ ∀ x ∈ l, ¬(ir.row x).Ends
  preds : ∀ b ∈ ir.fnblk f, ∀ p, p ∈ ir.bpred b ↔ next p b
  filled : ∀ b ∈ ir.fnblk f, ∀ x ∈ ir.binsn b, ir.iop x = "phi" →
    ir.iblk x = ir.bpred b ∧ (ir.ilist x).length = (ir.bpred b).length
  used : ∀ b ∈ ir.fnblk f, Reached next root b → ∀ x ∈ ir.binsn b, ir.iop x ≠ "nop" →
    Before ir f next root b (place ir b (x : Nat)) (ir.ia x) ∧
      Before ir f next root b (place ir b (x : Nat)) (ir.ib x) ∧
      (ir.iop x ≠ "phi" → ∀ v ∈ ir.ilist x, Before ir f next root b (place ir b (x : Nat)) v)
  incoming : ∀ b ∈ ir.fnblk f, ∀ x ∈ ir.binsn b, ir.iop x = "phi" → ∀ p, next p b → Reached next root p →
    ∀ v, (ir.ilist x)[(ir.bpred b).idxOf p]? = some v → AtEnd ir f next root p v

variable {ir ir' : Rows} {next : Nat → Nat → Prop} {root : Nat} {f a b c p x : Nat} {v w : Int}
  {l rest : List Nat} {τ : Int → Int} {old : Int → Prop}

/-- The terminator is the last instruction. -/
theorem Scoped.last (h : Scoped ir f next root) (hb : b ∈ ir.fnblk f) (hx : ir.binsn b = l ++ x :: rest)
    (hends : (ir.row x).Ends) : rest = [] ∧ targets ir b = ir.iblk x := by
  obtain ⟨l', t, hlt, -, hno⟩ := h.ends b hb
  rcases List.eq_nil_or_concat rest with rfl | ⟨rest, y, rfl⟩
  · refine ⟨rfl, ?_⟩
    unfold targets
    rw [hx, List.getLast?_append]
    rfl
  · have heq : l' ++ [t] = (l ++ x :: rest) ++ [y] := by
      rw [← hlt, hx, List.append_assoc, List.concat_eq_append]
      rfl
    obtain ⟨rfl, -⟩ := List.append_inj' heq rfl
    exact absurd hends (hno x (List.mem_append_right _ List.mem_cons_self))

theorem Scoped.goes (h : Scoped ir f next root) (hb : b ∈ ir.fnblk f) (hx : ir.binsn b = l ++ x :: rest)
    (hends : (ir.row x).Ends) (hc : c ∈ ir.iblk x) : next b c := by
  rw [h.edges]
  exact ⟨hb, (h.last hb hx hends).2 ▸ hc⟩

/-- A phi has a value for every edge into its block. -/
theorem Scoped.value (h : Scoped ir f next root) (hb : b ∈ ir.fnblk f) (hx : x ∈ ir.binsn b)
    (hop : ir.iop x = "phi") (hp : next p b) :
    ∃ v ∈ ir.ilist x, (ir.ilist x)[(ir.iblk x).idxOf p]? = some v ∧
      (ir.ilist x)[(ir.bpred b).idxOf p]? = some v := by
  obtain ⟨hblk, hlen⟩ := h.filled b hb x hx hop
  have hlt : (ir.bpred b).idxOf p < (ir.ilist x).length := by
    rw [hlen]
    exact List.idxOf_lt_length_of_mem ((h.preds b hb p).mpr hp)
  have hv := List.getElem?_eq_getElem hlt
  refine ⟨_, List.mem_of_getElem? hv, ?_, hv⟩
  rw [hblk]
  exact hv

/-! ## Where two runs enter a block -/

section

variable {V W : Type*} {o : Opcodes V W} {e e' : Entry V} {s s' : Now V W}

/-- Two runs that enter a block over the same edge, or start with it. -/
structure Arrived (ir : Rows) (f : Nat) (next : Nat → Nat → Prop) (root : Nat) (τ : Int → Int)
    (old : Int → Prop) (e e' : Entry V) : Prop where
  blk : e'.blk = e.blk
  prev : e'.prev = e.prev
  start : e.prev = none → e.blk = root ∧ Tracks τ old (fun _ => False) e.env e'.env
  edge : ∀ p, e.prev = some p →
    next p e.blk ∧ Reached next root p ∧ Tracks τ old (AtEnd ir f next root p) e.env e'.env

theorem Arrived.reached (h : Arrived ir f next root τ old e e') : Reached next root e.blk := by
  cases hp : e.prev with
  | none =>
    rw [(h.start hp).1]
    exact .start
  | some p =>
    obtain ⟨hnext, hreached, -⟩ := h.edge p hp
    exact hreached.step hnext

theorem Arrived.tracks (h : Arrived ir f next root τ old e e') (hτ : Renames ir f next root τ old) :
    Tracks τ old (Before ir f next root e.blk 0) e.env e'.env := by
  intro w hw hc
  by_cases hsame : τ w = w
  · cases hp : e.prev with
    | none => exact (h.start hp).2 w hw (.inl hsame)
    | some p => exact (h.edge p hp).2.2 w hw (.inl hsame)
  · have hbefore := hc.resolve_left hsame
    cases hp : e.prev with
    | none =>
      -- Nothing is computed before the first block.
      rw [(h.start hp).1] at hbefore
      obtain ⟨d, rfl, hd, -⟩ := hτ w hw hsame
      obtain ⟨a, ha⟩ := exists_home hd
      rcases hbefore a ha with ⟨-, hlt⟩ | ⟨hne, hdom⟩
      · exact absurd hlt (Nat.not_lt_zero _)
      · exact absurd hdom.eq_root hne
    | some p =>
      obtain ⟨hnext, -, htracks⟩ := h.edge p hp
      exact htracks w hw (.inr (hbefore.enter hnext))

/-- Two runs between blocks. -/
structure Level (ir : Rows) (f : Nat) (next : Nat → Nat → Prop) (root : Nat) (τ : Int → Int)
    (old : Int → Prop) (c c' : Stand V W) : Prop where
  world : c'.now.world = c.now.world
  arrived : Arrived ir f next root τ old c.entry c'.entry

theorem Level.seen {c c' : Stand V W} (h : Level ir f next root τ old c c') : c.seen = c'.seen := by
  have hblk : c'.blk = c.blk := h.arrived.blk
  have hprev : c'.prev = c.prev := h.arrived.prev
  rw [Stand.seen, Stand.seen, hblk, hprev, h.world]

/-- Two runs at the same place of a block. -/
structure Inside (ir : Rows) (f : Nat) (next : Nat → Nat → Prop) (root : Nat) (τ : Int → Int)
    (old : Int → Prop) (b k : Nat) (e' : Entry V) (s s' : Now V W) : Prop where
  world : s'.world = s.world
  tracks : Tracks τ old (Before ir f next root b k) s.env s'.env
  /-- What was computed before the block still has its value. -/
  kept : ∀ w, Before ir f next root b 0 w → s'.env w = e'.env w

/-- Where the block is left, over an edge to the next one. -/
theorem Inside.leave (h : Inside ir f next root τ old b (ir.binsn b).length e' s s')
    (hb : Reached next root b) (hbc : next b c) :
    Level ir f next root τ old ⟨c, some b, s⟩ ⟨c, some b, s'⟩ := by
  refine ⟨h.world, rfl, rfl, fun hp => absurd hp (Option.some_ne_none b), fun p hp => ?_⟩
  obtain rfl := Option.some.inj hp
  exact ⟨hbc, hb, fun w hw hc => h.tracks w hw (hc.imp_right AtEnd.before)⟩

variable (hτ : Renames ir f next root τ old) (hn : (insns ir f).Nodup) (hb : b ∈ ir.fnblk f)
  (hr : Reached next root b) (hx : ir.binsn b = l ++ x :: rest)
  (h : Inside ir f next root τ old b l.length e' s s')
include hτ hn hb hr hx h

theorem Inside.keep (hsame : τ x = x) (z : V) (u : W) :
    Inside ir f next root τ old b (l.length + 1) e' (s.assign x z u) (s'.assign x z u) := by
  refine ⟨rfl, h.tracks.keep hτ hn hb hr hx hsame z, fun w hw => ?_⟩
  have hne : w ≠ x := (hw.mono (Nat.zero_le _)).ne hn hb hx
  show Function.update s'.env x z w = e'.env w
  rw [Function.update_of_ne hne, h.kept w hw]

theorem Inside.drop {z : V} (hz : z = s'.env (τ x)) :
    Inside ir f next root τ old b (l.length + 1) e' (s.assign x z s.world) s' :=
  ⟨h.world, h.tracks.drop hτ hn hb hr hx hz, h.kept⟩

theorem Inside.idle (hsame : τ x = x) : Inside ir f next root τ old b (l.length + 1) e' s s' :=
  ⟨h.world, h.tracks.idle hτ hn hb hr hx hsame, h.kept⟩

end

end IdCompiler.Ir

import IdCompiler.Ir.Blocks
import IdCompiler.Ir.Edits

/-!
# Runs that agree on what is named

What an instruction does depends on the values it names and on the slots. Two
runs of the same instructions whose values agree on all that is named look the
same, whatever else they differ in.
-/

namespace IdCompiler.Ir

open IdCompiler.Core

variable {V W : Type*} {o : Opcodes V W} {A : Int → Prop} {slots : List Nat} {e e' : Entry V} {s s' : Now V W}
  {r : Row}

/-- Two runs at the same place whose values agree on `A`. -/
structure Agreed (A : Int → Prop) (e e' : Entry V) (s s' : Now V W) : Prop where
  blk : e'.blk = e.blk
  prev : e'.prev = e.prev
  entry : ∀ w, A w → e'.env w = e.env w
  world : s'.world = s.world
  env : ∀ w, A w → s'.env w = s.env w
  cells : s'.cells = s.cells

/-- An instruction that names only such values. -/
def Row.Within (r : Row) (A : Int → Prop) : Prop := A r.a ∧ A r.b ∧ ∀ v ∈ r.list, A v

section

variable (h : Agreed A e e' s s')
include h

theorem Agreed.assign (x : Nat) (u : V) (z : W) : Agreed A e e' (s.assign x u z) (s'.assign x u z) := by
  refine ⟨h.blk, h.prev, h.entry, rfl, fun w hw => ?_, h.cells⟩
  show Function.update s'.env x u w = Function.update s.env x u w
  by_cases hwx : w = x
  · rw [hwx, Function.update_self, Function.update_self]
  · rw [Function.update_of_ne hwx, Function.update_of_ne hwx, h.env w hw]

/-- Only the first run gives a value that is not named. -/
theorem Agreed.one {id : Nat} (hid : ¬A id) (u : V) : Agreed A e e' (s.assign id u s.world) s' := by
  refine ⟨h.blk, h.prev, h.entry, h.world, fun w hw => ?_, h.cells⟩
  have hne : w ≠ id := fun heq => hid (heq ▸ hw)
  exact (h.env w hw).trans (Function.update_of_ne hne ..).symm

/-- Into the next block. -/
theorem Agreed.enter (b : Nat) : Agreed A ⟨b, some e.blk, s.env⟩ ⟨b, some e'.blk, s'.env⟩ s s' :=
  ⟨rfl, congrArg some h.blk, h.env, h.world, h.env, h.cells⟩

theorem Agreed.alike (hr : r.Within A) : Alike o e e' r r s s' := by
  obtain ⟨ha, hb, hlist⟩ := hr
  refine ⟨rfl, rfl, rfl, h.env _ ha, h.env _ hb, fun _ => ?_, h.world, h.blk, fun _ => ?_⟩
  · exact List.map_congr_left fun w hw => h.env w (hlist w hw)
  · unfold incomingOf
    rw [h.prev]
    cases hu : e.prev.bind fun p => r.list[r.blk.idxOf p]? with
    | none => rfl
    | some u =>
      obtain ⟨p, -, hp⟩ := Option.bind_eq_some_iff.mp hu
      exact h.entry u (hlist u (List.mem_of_getElem? hp))

theorem Agreed.access (hr : r.Within A) : Agreed A e e' (access r s) (access r s') := by
  unfold Ir.access
  split
  · rw [h.cells, h.world]
    exact h.assign ..
  · refine ⟨h.blk, h.prev, h.entry, h.world, h.env, ?_⟩
    show Function.update s'.cells r.a (s'.env r.b) = Function.update s.cells r.a (s.env r.b)
    rw [h.cells, h.env _ hr.2.1]

/-- One instruction. -/
theorem Agreed.steps (hr : r.op ≠ "nop" → r.Within A) :
    Steps o slots slots e e' r r (Agreed A e e')
      (fun t t' => Agreed A ⟨t.1, some e.blk, t.2.env⟩ ⟨t'.1, some e'.blk, t'.2.env⟩ t.2 t'.2) s s' := by
  by_cases hop : r.op = "nop"
  · refine ⟨Iff.rfl, fun _ => ?_, fun he => absurd he (not_ends hop (by decide))⟩
    rw [act_nop hop, act_nop hop]
    exact ⟨rfl, h⟩
  have hwithin := hr hop
  have halike : Alike o e e' r r s s' := h.alike hwithin
  refine ⟨Iff.rfl, fun _ => ?_, fun _ => halike.finish fun b _ => h.enter b⟩
  by_cases hslot : r.OnSlot slots
  · have haccess : ∀ {e : Entry V} {s : Now V W}, act o slots e r s = ([], Ir.access r s) := by
      intro e s
      unfold act
      rw [if_neg, if_pos hslot]
      rcases hslot.1 with hacc | hacc
      · rw [hacc]
        decide
      · rw [hacc]
        decide
    rw [haccess, haccess]
    exact ⟨rfl, h.access hwithin⟩
  · obtain ⟨hout, hafter⟩ := halike.act hslot hslot
    refine ⟨hout, ?_⟩
    rcases hafter with ⟨heq, heq'⟩ | ⟨u, z, heq, heq'⟩
    · rw [heq, heq']
      exact h
    · rw [heq, heq']
      exact h.assign ..

end

/-- A function in two stores whose instructions are the same. -/
structure Twin (ir ir' : Rows) (f : Nat) : Prop where
  fnblk : ir'.fnblk f = ir.fnblk f
  binsn : ∀ b ∈ ir.fnblk f, ir'.binsn b = ir.binsn b
  row : ∀ x ∈ insns ir f, ir'.row x = ir.row x

variable {ir ir' : Rows} {f : Nat}

/-- In both it does the same, on values that agree on what its instructions name. -/
theorem Twin.observed (h : Twin ir ir' f)
    (hA : ∀ x ∈ insns ir f, ir.iop x ≠ "nop" → ∀ v ∈ operands ir x, A v) {c c' : Stand V W} (n : Nat)
    (hc : Agreed A c.entry c'.entry c.now c'.now) :
    observed (stepBlock o ir f slots) Stand.seen n c = observed (stepBlock o ir' f slots) Stand.seen n c' := by
  refine observed_eq (R := fun c c' => Agreed A c.entry c'.entry c.now c'.now) (fun c c' hc => ?_)
    (fun c c' hc => ?_) n hc
  · have hblk : c'.blk = c.blk := hc.blk
    apply stepBlock_matches
    · rw [hblk, h.fnblk]
    intro hin
    have hsame : ir'.binsn c'.blk = ir.binsn c.blk := by
      rw [hblk]
      exact h.binsn c.blk hin
    rw [hsame]
    refine runBlock_matches (R := fun _ => Agreed A c.entry c'.entry) (fun l x rest hx s s' hs => ?_) hc
    have hmem : x ∈ insns ir f := mem_insns.mpr ⟨c.blk, hin, hx ▸ List.mem_append_right l List.mem_cons_self⟩
    rw [h.row x hmem]
    refine hs.steps fun hlive => ?_
    have hall := hA x hmem hlive
    exact ⟨hall _ List.mem_cons_self, hall _ (List.mem_cons_of_mem _ List.mem_cons_self),
      fun v hv => hall v (List.mem_cons_of_mem _ (List.mem_cons_of_mem _ hv))⟩
  · have hblk : c'.blk = c.blk := hc.blk
    have hprev : c'.prev = c.prev := hc.prev
    rw [Stand.seen, Stand.seen, hblk, hprev, hc.world]

end IdCompiler.Ir

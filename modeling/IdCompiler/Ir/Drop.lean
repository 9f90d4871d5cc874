import IdCompiler.Ir.Collapse
import IdCompiler.Ir.Replace

/-!
# Dropping a phi that is one value

The value a phi is, itself apart, is computed before the phi's block is entered
and not again before the phi is, so a run keeps the two equal wherever the phi
may be used.
-/

namespace IdCompiler.Ir

open IdCompiler.Core

variable {ir ir' : Rows} {next : Nat → Nat → Prop} {root : Nat} {f a b c p x id : Nat} {v w : Int}
  {l rest : List Nat}

/-- A phi whose values other than itself are one. -/
structure Folding (ir : Rows) (f b id : Nat) (v : Int) : Prop where
  blk : b ∈ ir.fnblk f
  mem : id ∈ ir.binsn b
  op : ir.iop id = "phi"
  value : v ∈ ir.ilist id
  ne : v ≠ id
  only : ∀ w ∈ ir.ilist id, w = id ∨ w = v

theorem Folding.home (hc : Folding ir f b id v) : Home ir f (id : Nat) b := ⟨hc.blk, id, hc.mem, rfl⟩

section

variable (h : Scoped ir f next root) (hc : Folding ir f b id v)
include h hc

/-- The first block has no phi. -/
theorem Folding.ne_root : b ≠ root := by
  rintro rfl
  have hlen := (h.filled b hc.blk id hc.mem hc.op).2
  have hnone : ir.bpred b = [] :=
    List.eq_nil_iff_forall_not_mem.mpr fun p hp => h.entry p ((h.preds b hc.blk p).mp hp)
  rw [hnone, List.length_nil, List.length_eq_zero_iff] at hlen
  have hvalue := hc.value
  rw [hlen] at hvalue
  exact List.not_mem_nil hvalue

/-- Over every edge the phi is the value or itself, and what it is is computed there. -/
theorem Folding.edge (hp : next p b) (hreached : Reached next root p) :
    AtEnd ir f next root p v ∨ Dom next root b p := by
  obtain ⟨u, hu, -, hget⟩ := h.value hc.blk hc.mem hc.op hp
  have hend := h.incoming b hc.blk id hc.mem hc.op p hp hreached u hget
  rcases hc.only u hu with rfl | rfl
  · exact .inr (hend b (hc.home))
  · exact .inl hend

/-- The value is computed before the block. -/
theorem Folding.before (hb : Reached next root b) : Before ir f next root b 0 v := by
  intro a ha
  have hdom : Dom next root a b := Dom.of_entries (hc.ne_root h) fun q hq hreached =>
    (hc.edge h hq hreached).imp_left fun hend => hend a ha
  refine .inr ⟨?_, hdom⟩
  rintro rfl
  -- Else the block would dominate every block before it.
  exact not_reached_of_entries (hc.ne_root h) (fun q hq hreached =>
    (hc.edge h hq hreached).elim (fun hend => hend a ha) fun hdom => hdom) hb

theorem Folding.replaces : Replaces ir f next root b id v := by
  refine ⟨hc.blk, hc.mem, not_ends (r := ir.row id) hc.op (by decide), fun hreached => ?_⟩
  exact (hc.before h hreached).mono (Nat.zero_le _)

end

/-! ## Runs without the phi -/

section

variable {V W : Type*} {o : Opcodes V W} {e e' : Entry V} {s s' : Now V W}

variable (h : Scoped ir f next root) (hc : Folding ir f b id v)
include h hc

/-- Where the phi stands, what it is over the edge taken is what the value is by now. -/
theorem Folding.incoming (harr : Arrived ir f next root (swap id v) (fun _ => True) e e') (hb : e.blk = b)
    (hkept : ∀ w, Before ir f next root b 0 w → s'.env w = e'.env w) :
    incomingOf o e (ir.row id) = s'.env v := by
  have hreached : Reached next root b := hb ▸ harr.reached
  rw [hkept v (hc.before h hreached)]
  cases hp : e.prev with
  | none => exact absurd (hb.symm.trans (harr.start hp).1) (hc.ne_root h)
  | some p =>
    obtain ⟨hnext, hfrom, htracks⟩ := harr.edge p hp
    rw [hb] at hnext
    obtain ⟨u, hu, hget, hget'⟩ := h.value hc.blk hc.mem hc.op hnext
    have hvalue : incomingOf o e (ir.row id) = e.env u := incomingOf_some hp hget
    rw [hvalue]
    rcases hc.only u hu with rfl | rfl
    · have hend := h.incoming b hc.blk id hc.mem hc.op p hnext hfrom id hget'
      rw [htracks id trivial (.inr hend), swap_self]
    · have hsame : swap id u u = u := swap_of_ne hc.ne
      rw [htracks u trivial (.inl hsame), hsame]

/-- The function without the phi does the same. -/
theorem Folding.sameRuns : SameRuns f root [] [] ir (dropped ir f id v) := by
  intro V W o c n hroot hfirst
  refine (hc.replaces h).observed h .trivial (fun e e' s s' harr hb hin _ => ?_) n hroot hfirst trivial
  rw [act_phi hc.op, hc.incoming h harr hb hin.kept]
  rfl

end

end IdCompiler.Ir

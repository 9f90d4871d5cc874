import IdCompiler.Ir.Drop

/-!
# Sweeps over phis keep what a function does

Each phi the sweeps drop is one value, so from one sweep to the next the
function stays one whose values are computed before they are used, and does the
same.
-/

namespace IdCompiler.Ir

open IdCompiler.Core

variable {ir : Rows} {m m' : Mem} {next : Nat → Nat → Prop} {root f b id fuel n : Nat} {u : Int} {l : List Int}
  {s : Mem × Nat} {Q : Rows → Prop}

/-! ## One value -/

/-- What the scan ends with is every value but the phi. -/
theorem foldl_m2rPick_only (hl : ∀ w ∈ l, 0 ≤ w) (h : 0 ≤ l.foldl (m2rPick id) u) :
    (u = l.foldl (m2rPick id) u ∨ u = -1) ∧ ∀ w ∈ l, w = id ∨ w = l.foldl (m2rPick id) u := by
  induction l generalizing u with
  | nil => exact ⟨.inl rfl, fun w hw => absurd hw List.not_mem_nil⟩
  | cons w l ih =>
    rw [List.foldl_cons] at h ⊢
    obtain ⟨hu, hall⟩ := ih (fun w hw => hl w (List.mem_cons_of_mem _ hw)) h
    have hw := hl w List.mem_cons_self
    have hhead : (u = l.foldl (m2rPick id) (m2rPick id u w) ∨ u = -1) ∧
        (w = id ∨ w = l.foldl (m2rPick id) (m2rPick id u w)) := by
      generalize l.foldl (m2rPick id) (m2rPick id u w) = r at h hu
      unfold m2rPick at hu
      split at hu
      · next hsame => omega
      · split at hu <;> omega
    refine ⟨hhead.1, fun x hx => ?_⟩
    cases List.mem_cons.mp hx with
    | inl heq => exact heq ▸ hhead.2
    | inr hx => exact hall x hx

/-- A phi the sweep takes for one value is. -/
theorem Wired.folding (h : Wired ir f) (hb : b ∈ ir.fnblk f) (hid : id ∈ ir.binsn b) (hop : ir.iop id = "phi")
    (hpos : 0 ≤ m2rSame ir id) : Folding ir f b id (m2rSame ir id) := by
  have hvalues : ∀ w ∈ ir.ilist id, 0 ≤ w := fun w hw => ((h.filled b hb id hid hop).values w hw).nonneg
  obtain ⟨hmem, hne⟩ := foldl_m2rPick (u := 0 - 1) (by decide) hpos
  exact ⟨hb, hid, hop, hmem, hne, (foldl_m2rPick_only hvalues hpos).2⟩

/-! ## Sweeps -/

/-- A store with the blocks of another, of which `Q` holds. -/
structure Reduced (f : Nat) (ir : Rows) (Q : Rows → Prop) (m : Mem) : Prop where
  fnblk : m.ir.fnblk = ir.fnblk
  binsn : m.ir.binsn = ir.binsn
  holds : Q m.ir

section

variable (hQ : ∀ ir' b id, Q ir' → b ∈ ir'.fnblk f → id ∈ ir'.binsn b → ir'.iop id = "phi" →
  0 ≤ m2rSame ir' id → Q (dropped ir' f id (m2rSame ir' id)))
include hQ

theorem Reduced.one (h : Reduced f ir Q s.1) (hb : b ∈ ir.fnblk f) (hid : id ∈ ir.binsn b) :
    Reduced f ir Q (m2rTry f s id).1 := by
  unfold m2rTry
  by_cases hc : s.1.ir.iop id = "phi" ∧ 0 ≤ m2rSame s.1.ir id
  · rw [if_pos hc]
    refine ⟨dropped_fnblk.trans h.fnblk, dropped_binsn.trans h.binsn, ?_⟩
    exact hQ s.1.ir b id h.holds (h.fnblk ▸ hb) (h.binsn ▸ hid) hc.1 hc.2
  · rw [if_neg hc]
    exact h

theorem Reduced.sweep (h : Reduced f ir Q m) : Reduced f ir Q (m2rSweep m f).1 := by
  refine List.foldlRecOn (motive := fun s => Reduced f ir Q s.1) (m.ir.fnblk f) (m2rSweepB f) (b := (m, 0)) h ?_
  intro s hs b hb
  refine List.foldlRecOn (motive := fun s => Reduced f ir Q s.1) (s.1.ir.binsn b) (m2rTry f) hs ?_
  intro s' hs' id hid
  rw [h.fnblk] at hb
  rw [hs.binsn] at hid
  exact hs'.one hQ hb hid

theorem Reduced.loop (h : Reduced f ir Q m) (hrun : m2rCleanLoop f fuel n m = some m') : Reduced f ir Q m' := by
  induction fuel generalizing n m with
  | zero => cases hrun
  | succ fuel ih =>
    rw [m2rCleanLoop] at hrun
    split at hrun
    · exact ih (h.sweep hQ) hrun
    · obtain rfl := Option.some.inj hrun
      exact h

/-- What dropping a phi that is one value keeps, the sweeps keep. -/
theorem m2rClean_keeps (h : Q m.ir) (hrun : m2rClean m f = some m') : Q m'.ir := by
  have hstart : Reduced f m.ir Q m := ⟨rfl, rfl, h⟩
  exact (hstart.loop hQ hrun).holds

end

/-- The sweeps leave a function that does the same. -/
theorem m2rClean_sameRuns (hw : Wired m.ir f) (hs : Scoped m.ir f next root) (hrun : m2rClean m f = some m') :
    SameRuns f root [] [] m.ir m'.ir := by
  have hall : Wired m'.ir f ∧ Scoped m'.ir f next root ∧ SameRuns f root [] [] m.ir m'.ir := by
    refine m2rClean_keeps (Q := fun ir => Wired ir f ∧ Scoped ir f next root ∧ SameRuns f root [] [] m.ir ir)
      ?_ ⟨hw, hs, fun _ _ _ _ _ _ _ => rfl⟩ hrun
    rintro ir b id ⟨hw, hs, hsame⟩ hb hid hop hpos
    have hc := hw.folding hb hid hop hpos
    have hvalue := (hw.filled b hb id hid hop).values _ hc.value
    have hr := hc.replaces hs
    refine ⟨hw.dropped hvalue hc.ne, hs.dropped (hr.renames hs) hr.ends, fun V W o c n hroot hfirst => ?_⟩
    exact (hsame V W o c n hroot hfirst).trans (hc.sameRuns hs V W o c n hroot hfirst)
  exact hall.2.2

end IdCompiler.Ir

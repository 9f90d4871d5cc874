import IdCompiler.Digest.Visit

/-!
# The components of the digest graph

The whole walk: it answers on every graph, numbers the classes of mutual
reachability so that every edge goes down, folds the classes a component
reaches, and gives a hash that no reordering of the rows or of their edges
can change.
-/

namespace IdCompiler.Digest

open IdCompiler.Core Relation Finset

variable {n : Nat} {g : Rows n}

/-- No count of unvisited rows passes the number of rows. -/
theorem white_le (s : Walk n) : white s ≤ n := by
  simpa [white] using Finset.card_filter_le (Finset.univ : Finset (Fin n)) fun u => s.ix u < 0

/-- The outer loop answers, visits every row it is given, and keeps the invariant. -/
theorem dgTryAll_spec (g : Rows n) (fuel : Nat) (hfuel : n ≤ fuel) (vs : List (Fin n))
    (s : Walk n) (hs : WalkInv g [] s) :
    ∃ s', dgTryAll g fuel vs s = some s' ∧ WalkInv g [] s' ∧
      (∀ u, 0 ≤ s.ix u → 0 ≤ s'.ix u) ∧ ∀ v ∈ vs, 0 ≤ s'.ix v := by
  induction vs generalizing s with
  | nil => exact ⟨s, rfl, hs, fun _ hu => hu, by simp⟩
  | cons v vs ih =>
    obtain ⟨t, ht, hinv, hkeep, hseen⟩ :
        ∃ t, dgTry g fuel v s = some t ∧ WalkInv g [] t ∧
          (∀ u, 0 ≤ s.ix u → 0 ≤ t.ix u) ∧ 0 ≤ t.ix v := by
      unfold dgTry
      by_cases hv : s.ix v < 0
      · obtain ⟨t, ht, hp⟩ := dgVisit_spec g fuel [] v s (le_trans (white_le s) hfuel) hv hs
          (by simp)
        exact ⟨t, by simp only [hv, ite_true, ht], hp.inv,
          fun u hu => by rw [hp.ix_keep u hu]; exact hu, hp.seen⟩
      · exact ⟨s, by simp only [hv, ite_false], hs, fun _ hu => hu, by omega⟩
    obtain ⟨s', hs', hinv', hkeep', hseen'⟩ := ih t hinv
    refine ⟨s', by simp [dgTryAll, ht, hs'], hinv', fun u hu => hkeep' u (hkeep u hu), ?_⟩
    intro u hu
    rcases List.mem_cons.mp hu with rfl | hu
    · exact hkeep' u hseen
    · exact hseen' u hu

/-- The finished walk: nothing is gray, and every row is in a component. -/
theorem dgSccAll_spec (g : Rows n) (fuel : Nat) (hfuel : n ≤ fuel) :
    ∃ s, dgSccAll g fuel = some s ∧ WalkInv g [] s ∧ ∀ u, 0 ≤ s.comp u := by
  obtain ⟨s, hs, hinv, _, hseen⟩ :=
    dgTryAll_spec g fuel hfuel (List.finRange n) (dgInit n) (walkInv_init g)
  refine ⟨s, hs, hinv, fun u => ?_⟩
  by_contra hc
  have hu : u ∈ s.stk := (hinv.mem_stk u).mpr ⟨hseen u (List.mem_finRange u), by omega⟩
  obtain ⟨x, hx, _⟩ := hinv.down u hu
  exact absurd hx (List.not_mem_nil)

/-- A loop answered by one visitor is answered alike by one that answers more. -/
theorem dgSucc_mono {visit visit' : Fin n → Walk n → Option (Walk n)}
    (hv : ∀ w s s', visit w s = some s' → visit' w s = some s') (v : Fin n)
    (ws : List (Fin n)) (s s' : Walk n) (h : dgSucc visit v ws s = some s') :
    dgSucc visit' v ws s = some s' := by
  induction ws generalizing s with
  | nil => exact h
  | cons w ws ih =>
    obtain ⟨t, ht, hrest⟩ := Option.bind_eq_some_iff.mp h
    refine Option.bind_eq_some_iff.mpr ⟨t, ?_, ih t hrest⟩
    unfold dgStep at ht ⊢
    split at ht
    · obtain ⟨r, hr, rfl⟩ := Option.map_eq_some_iff.mp ht
      rename_i hw
      rw [if_pos hw, hv w s r hr]
      rfl
    · rename_i hw
      rw [if_neg hw]
      exact ht

/-- More fuel never changes a visit that answered. -/
theorem dgVisit_mono (g : Rows n) (fuel : Nat) (v : Fin n) (s s' : Walk n)
    (h : dgVisit g fuel v s = some s') : dgVisit g (fuel + 1) v s = some s' := by
  induction fuel generalizing v s s' with
  | zero => simp [dgVisit] at h
  | succ fuel ih =>
    unfold dgVisit at h ⊢
    obtain ⟨t, ht, rfl⟩ := Option.map_eq_some_iff.mp h
    rw [dgSucc_mono (fun w r r' => ih w r r') v (g.out v) _ t ht]
    rfl

/-- More fuel never changes the outer loop once it answered. -/
theorem dgTryAll_mono (g : Rows n) (fuel : Nat) (vs : List (Fin n)) (s s' : Walk n)
    (h : dgTryAll g fuel vs s = some s') : dgTryAll g (fuel + 1) vs s = some s' := by
  induction vs generalizing s with
  | nil => exact h
  | cons v vs ih =>
    obtain ⟨t, ht, hrest⟩ := Option.bind_eq_some_iff.mp h
    refine Option.bind_eq_some_iff.mpr ⟨t, ?_, ih t hrest⟩
    unfold dgTry at ht ⊢
    split at ht
    · rename_i hv
      rw [if_pos hv]
      exact dgVisit_mono g fuel v s t ht
    · rename_i hv
      rw [if_neg hv]
      exact ht

/-- The recursion is never deeper than the number of rows: fuel past it changes nothing. -/
theorem dgSccAll_fuel (g : Rows n) {s : Walk n} (h : dgSccAll g n = some s) (fuel : Nat)
    (hfuel : n ≤ fuel) : dgSccAll g fuel = some s := by
  induction fuel, hfuel using Nat.le_induction with
  | base => exact h
  | succ fuel _ ih => exact dgTryAll_mono g fuel _ _ s ih

/-- The folded hash of the component a row landed in. -/
def deepOf (s : Walk n) (u : Fin n) : Word := s.deep.getD (s.comp u).toNat 0

/-- The folded classes of the component a row landed in. -/
def dirtyOf (s : Walk n) (u : Fin n) : Nat := s.dirty.getD (s.comp u).toNat 0

/-- The rows of `g'` are those of `g` in another order, each out-list in any order. -/
structure Reorders (e : Fin n ≃ Fin n) (g g' : Rows n) : Prop where
  out : ∀ u, (g'.out (e u)).Perm ((g.out u).map e)
  nat : ∀ u, g'.nat (e u) = g.nat u
  own : ∀ u, g'.own (e u) = g.own u

/-- A reordering carries edges to edges and back. -/
theorem Reorders.edge {e : Fin n ≃ Fin n} {g g' : Rows n} (h : Reorders e g g')
    (u w : Fin n) : Edge g u w ↔ Edge g' (e u) (e w) := by
  unfold Edge
  rw [(h.out u).mem_iff]
  simp

/-- The term an edge adds is the row's own component's, or zero inside the component. -/
theorem edgeHash_eq (s : Walk n) (u w : Fin n) :
    edgeHash s.comp s.deep (s.comp u) w =
      if s.comp w = s.comp u then 0 else dgMix (deepOf s w) 13 := rfl

/-- A component's hash, read off one of its rows. -/
theorem deepOf_eq {gray : List (Fin n)} {s : Walk n} (hs : WalkInv g gray s) {u : Fin n}
    (hu : 0 ≤ s.comp u) :
    deepOf s u = dgMix (∑ x with s.comp x = s.comp u, dgMix (g.own x) 7)
      (∑ x with s.comp x = s.comp u, ((g.out x).map fun w =>
        if s.comp w = s.comp u then 0 else dgMix (deepOf s w) 13).sum) :=
  hs.hash u hu

/-- Two finished walks of reordered graphs give corresponding rows one hash. -/
theorem deepOf_reorder {e : Fin n ≃ Fin n} {g g' : Rows n} (h : Reorders e g g')
    {s s' : Walk n} (hs : WalkInv g [] s) (hall : ∀ u, 0 ≤ s.comp u) (hs' : WalkInv g' [] s')
    (hall' : ∀ u, 0 ≤ s'.comp u) (u : Fin n) : deepOf s' (e u) = deepOf s u := by
  have hcomp : ∀ x y, s.comp x = s.comp y ↔ s'.comp (e x) = s'.comp (e y) := fun x y => by
    rw [hs.scc x y (hall x) (hall y), hs'.scc _ _ (hall' _) (hall' _)]
    exact mutual_iff_of_equiv e h.edge x y
  -- induction on the component's number: an edge that leaves goes to a smaller one
  induction hc : (s.comp u).toNat using Nat.strong_induction_on generalizing u with
  | _ c ih =>
    rw [deepOf_eq hs (hall u), deepOf_eq hs' (hall' (e u))]
    have hmembers : ∀ f f' : Fin n → Word,
        (∀ x, s.comp x = s.comp u → f' (e x) = f x) →
        ∑ x with s'.comp x = s'.comp (e u), f' x = ∑ x with s.comp x = s.comp u, f x := by
      intro f f' hff
      symm
      refine Finset.sum_bij (fun x _ => e x) ?_ (fun _ _ _ _ he => e.injective he) ?_ ?_
      · intro x hx
        simpa [← hcomp] using hx
      · intro y hy
        refine ⟨e.symm y, ?_, e.apply_symm_apply y⟩
        simpa [hcomp] using hy
      · intro x hx
        exact (hff x (by simpa using hx)).symm
    rw [hmembers (fun x => dgMix (g.own x) 7) (fun x => dgMix (g'.own x) 7)
      fun x _ => by rw [h.own]]
    refine congrArg (dgMix _) (hmembers _ _ fun x hx => ?_)
    rw [((h.out x).map _).sum_eq, List.map_map]
    refine congrArg List.sum (List.map_congr_left fun w hw => ?_)
    simp only [Function.comp_apply, ← hcomp w u]
    by_cases hwu : s.comp w = s.comp u
    · rw [if_pos hwu, if_pos hwu]
    · have hle := (hs.sealed_out x (hall x) w hw).2
      have hw0 := hall w
      rw [if_neg hwu, if_neg hwu, ih (s.comp w).toNat (by omega) w rfl]

/-- A component's classes vanish exactly when every class it reaches does. -/
theorem dirtyOf_ne_zero {s : Walk n} (hs : WalkInv g [] s) {u : Fin n} (hu : 0 ≤ s.comp u) :
    dirtyOf s u ≠ 0 ↔ ∃ w, Reach g u w ∧ g.nat w ≠ 0 := by
  constructor
  · intro hne
    obtain ⟨b, hb⟩ := Nat.exists_testBit_of_ne_zero hne
    obtain ⟨w, hr, hw⟩ := (hs.dirt u hu b).mp hb
    exact ⟨w, hr, fun h0 => by simp [h0] at hw⟩
  · rintro ⟨w, hr, hw⟩ h0
    obtain ⟨b, hb⟩ := Nat.exists_testBit_of_ne_zero hw
    have hbit : (dirtyOf s u).testBit b = true := (hs.dirt u hu b).mpr ⟨w, hr, hb⟩
    simp [h0] at hbit

/-- With marks `0` and `1` only, the fold is `0` or `1`. -/
theorem dirtyOf_le_one {s : Walk n} (hs : WalkInv g [] s) {u : Fin n} (hu : 0 ≤ s.comp u)
    (hmarks : ∀ w, g.nat w ≤ 1) : dirtyOf s u ≤ 1 := by
  have hbits : ∀ b, 1 ≤ b → (dirtyOf s u).testBit b = false := by
    intro b hb
    by_contra hc
    obtain ⟨w, _, hw⟩ := (hs.dirt u hu b).mp (by simpa [dirtyOf] using hc)
    have hlt : g.nat w < 2 ^ b :=
      lt_of_le_of_lt (hmarks w) (Nat.one_lt_two_pow (by omega))
    rw [Nat.testBit_lt_two_pow hlt] at hw
    exact absurd hw (by decide)
  have hlt : dirtyOf s u < 2 ^ 1 := Nat.lt_pow_two_of_testBit _ fun b hb => hbits b hb
  omega

/-- On every graph the walk answers; rows share a component exactly when each reaches the
other; an edge between components goes to a smaller number; a component's dirt is the
bitwise or of the classes it reaches; and the hash does not see the order of the rows or of
their edges. -/
theorem dgSccAll_components (g : Rows n) :
    ∃ s, (∀ fuel, n ≤ fuel → dgSccAll g fuel = some s) ∧
      (∀ u w, s.comp u = s.comp w ↔ Reach g u w ∧ Reach g w u) ∧
      (∀ u, ∀ w ∈ g.out u, s.comp w ≠ s.comp u → s.comp w < s.comp u) ∧
      (∀ u b, (dirtyOf s u).testBit b = true ↔
        ∃ w, Reach g u w ∧ (g.nat w).testBit b = true) ∧
      (∀ u, dirtyOf s u ≠ 0 ↔ ∃ w, Reach g u w ∧ g.nat w ≠ 0) ∧
      ((∀ w, g.nat w ≤ 1) → ∀ u, dirtyOf s u = 1 ↔ ∃ w, Reach g u w ∧ g.nat w = 1) ∧
      ∀ (g' : Rows n) (e : Fin n ≃ Fin n), Reorders e g g' →
        ∃ s', dgSccAll g' n = some s' ∧ ∀ u, deepOf s' (e u) = deepOf s u := by
  obtain ⟨s, hrun, hs, hall⟩ := dgSccAll_spec g n (le_refl n)
  refine ⟨s, dgSccAll_fuel g hrun, fun u w => hs.scc u w (hall u) (hall w), ?_,
    fun u b => hs.dirt u (hall u) b, fun u => dirtyOf_ne_zero hs (hall u), ?_, ?_⟩
  · intro u w hw hne
    have hle := (hs.sealed_out u (hall u) w hw).2
    omega
  · intro hmarks u
    have hle := dirtyOf_le_one hs (hall u) hmarks
    have hiff := dirtyOf_ne_zero hs (hall u)
    have hone : ∀ w, g.nat w ≠ 0 ↔ g.nat w = 1 := fun w => by have := hmarks w; omega
    simp only [hone] at hiff
    rw [← hiff]
    omega
  · intro g' e hre
    obtain ⟨s', hrun', hs', hall'⟩ := dgSccAll_spec g' n (le_refl n)
    exact ⟨s', hrun', deepOf_reorder hre hs hall hs' hall'⟩

/-- A row the digest cannot see calling a file-pure native: classes `1` and `2`. -/
def twoClasses : Rows 2 where
  out := fun u => if u = 0 then [1] else []
  nat := fun u => if u = 0 then 1 else 2
  own := fun _ => 0

/-- With a class `2` the dirt is not a `0`/`1` mark: the caller's is `3` and the native's `2`. -/
theorem dgSccAll_dirty_not_one :
    ∃ s, dgSccAll twoClasses 2 = some s ∧
      ¬ (dirtyOf s 0 = 1 ↔ ∃ w, Reach twoClasses 0 w ∧ twoClasses.nat w = 1) ∧
      ¬ (dirtyOf s 1 = 1 ↔ ∃ w, Reach twoClasses 1 w ∧ twoClasses.nat w ≠ 0) := by
  have hrun : ((dgSccAll twoClasses 2).map fun s => (dirtyOf s 0, dirtyOf s 1)) = some (3, 2) := by
    decide
  obtain ⟨s, hs, hd⟩ := Option.map_eq_some_iff.mp hrun
  obtain ⟨h0, h1⟩ := Prod.mk.inj hd
  refine ⟨s, hs, fun h => ?_, fun h => ?_⟩
  · have := h.mpr ⟨0, .refl, rfl⟩
    omega
  · have := h.mpr ⟨1, .refl, by decide⟩
    omega

end IdCompiler.Digest

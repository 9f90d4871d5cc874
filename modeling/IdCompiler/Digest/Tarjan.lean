import IdCompiler.Digest.Seal

/-!
# The invariant of Tarjan's walk

The rows being walked (`gray`) are on the stack; every row on the stack reaches
a gray row no higher than itself, and every row above it. A sealed component is
a whole class of mutual reachability, and its edges go to smaller numbers. One
visit preserves this and answers a low link that bounds every edge from the rows
it left on the stack to the rows already there.
-/

namespace IdCompiler.Digest

open IdCompiler.Core Relation

variable {n : Nat} {g : Rows n}

/-- The walk's columns describe a partial run whose unfinished rows are `gray`. -/
structure WalkInv (g : Rows n) (gray : List (Fin n)) (s : Walk n) : Prop where
  /-- Walk indices are below the next one. -/
  ix_lt : ∀ u, s.ix u < s.next
  /-- The next index is a count. -/
  next_nonneg : 0 ≤ s.next
  /-- A walk index names one row. -/
  ix_inj : ∀ u w, 0 ≤ s.ix u → s.ix u = s.ix w → u = w
  /-- The stack is in order of walk index, top last. -/
  sorted : s.stk.Pairwise fun a b => s.ix a < s.ix b
  /-- On the stack are the visited rows of no component yet. -/
  mem_stk : ∀ u, u ∈ s.stk ↔ 0 ≤ s.ix u ∧ s.comp u < 0
  /-- The stack mark agrees with the stack. -/
  on_stk : ∀ u, s.on u = 1 ↔ u ∈ s.stk
  /-- A row of a component was visited, and its component has a number. -/
  comp_ix : ∀ u, 0 ≤ s.comp u → 0 ≤ s.ix u ∧ s.comp u < s.ncomp
  /-- Components are numbered as they are sealed. -/
  ncomp_deep : s.ncomp = s.deep.length
  /-- Every sealed component has its dirt. -/
  deep_dirty : s.deep.length = s.dirty.length
  /-- A finished row's successors were all visited. -/
  closed : ∀ u, 0 ≤ s.ix u → u ∉ gray → ∀ w ∈ g.out u, 0 ≤ s.ix w
  /-- A sealed row's successors are sealed, in components no larger. -/
  sealed_out : ∀ u, 0 ≤ s.comp u → ∀ w ∈ g.out u, 0 ≤ s.comp w ∧ s.comp w ≤ s.comp u
  /-- Sealed rows share a component exactly when each reaches the other. -/
  scc : ∀ u w, 0 ≤ s.comp u → 0 ≤ s.comp w → (s.comp u = s.comp w ↔ Mutual (Edge g) u w)
  /-- A row on the stack reaches every row above it. -/
  up : ∀ x y, x ∈ s.stk → y ∈ s.stk → s.ix x ≤ s.ix y → Reach g x y
  /-- A row on the stack reaches a gray row no higher than itself. -/
  down : ∀ y ∈ s.stk, ∃ x ∈ gray, s.ix x ≤ s.ix y ∧ Reach g y x
  /-- Gray rows are on the stack. -/
  gray_stk : ∀ x ∈ gray, x ∈ s.stk
  /-- A component's dirt is the bits of the classes it reaches. -/
  dirt : ∀ u, 0 ≤ s.comp u → ∀ b, (s.dirty.getD (s.comp u).toNat 0).testBit b = true ↔
    ∃ w, Reach g u w ∧ (g.nat w).testBit b = true
  /-- A component's hash is folded from its members and the components it reaches. -/
  hash : ∀ u, 0 ≤ s.comp u →
    s.deep.getD (s.comp u).toNat 0 = compHash g s.comp s.deep (s.comp u)

/-- The columns before the walk describe no run at all. -/
theorem walkInv_init (g : Rows n) : WalkInv g [] (dgInit n) := by
  constructor <;> simp [dgInit]

/-- The low link is no part of the invariant. -/
theorem WalkInv.dgLower {gray : List (Fin n)} {s : Walk n} (h : WalkInv g gray s)
    (v : Fin n) (l : Int) : WalkInv g gray (dgLower v l s) := by
  unfold Digest.dgLower
  split
  · exact { h with }
  · exact h

@[simp] theorem dgLower_ix (v : Fin n) (l : Int) (s : Walk n) : (dgLower v l s).ix = s.ix := by
  unfold dgLower; split <;> rfl

@[simp] theorem dgLower_comp (v : Fin n) (l : Int) (s : Walk n) :
    (dgLower v l s).comp = s.comp := by
  unfold dgLower; split <;> rfl

@[simp] theorem dgLower_stk (v : Fin n) (l : Int) (s : Walk n) : (dgLower v l s).stk = s.stk := by
  unfold dgLower; split <;> rfl

@[simp] theorem dgLower_next (v : Fin n) (l : Int) (s : Walk n) :
    (dgLower v l s).next = s.next := by
  unfold dgLower; split <;> rfl

/-- Lowering leaves the smaller of the two low links. -/
theorem dgLower_low (v : Fin n) (l : Int) (s : Walk n) :
    (dgLower v l s).low v = min (s.low v) l := by
  unfold dgLower
  split
  · simp only [Function.update_self]; omega
  · omega

/-- Lowering one row leaves the low links of the others. -/
theorem dgLower_low_ne {u v : Fin n} (h : u ≠ v) (l : Int) (s : Walk n) :
    (dgLower v l s).low u = s.low u := by
  unfold dgLower
  split
  · exact Function.update_of_ne h ..
  · rfl

/-- The sealed rows form a closed set. -/
theorem WalkInv.sealed_closed {gray : List (Fin n)} {s : Walk n} (h : WalkInv g gray s) :
    Closed (Edge g) fun u => 0 ≤ s.comp u :=
  fun _ _ ha hab => (h.sealed_out _ ha _ hab).1

/-- The stack holds no row twice. -/
theorem WalkInv.nodup {gray : List (Fin n)} {s : Walk n} (h : WalkInv g gray s) :
    s.stk.Nodup :=
  h.sorted.imp fun hab he => by simp [he] at hab

/-- Numbering an unvisited row that every gray row reaches makes it the newest gray row. -/
theorem WalkInv.dgEnter {gray : List (Fin n)} {s : Walk n} (h : WalkInv g gray s) {v : Fin n}
    (hv : s.ix v < 0) (hreach : ∀ x ∈ gray, Reach g x v) :
    WalkInv g (v :: gray) (dgEnter v s) := by
  have hvstk : v ∉ s.stk := fun hm => by have := ((h.mem_stk v).mp hm).1; omega
  have hvcomp : s.comp v < 0 := by
    by_contra hc
    have := (h.comp_ix v (by omega)).1
    omega
  have hix : ∀ u, u ≠ v → (Function.update s.ix v s.next) u = s.ix u :=
    fun u hu => Function.update_of_ne hu ..
  have hne : ∀ u, u ∈ s.stk → u ≠ v := fun u hu he => hvstk (he ▸ hu)
  have hreachv : ∀ x ∈ s.stk, Reach g x v := by
    intro x hx
    obtain ⟨y, hy, _, hxy⟩ := h.down x hx
    exact hxy.trans (hreach y hy)
  have hnext := h.next_nonneg
  constructor
  case ix_lt =>
    intro u
    by_cases hu : u = v
    · subst hu; simp [Digest.dgEnter]
    · have := h.ix_lt u
      simp only [Digest.dgEnter, hix u hu]; omega
  case next_nonneg => simp only [Digest.dgEnter]; omega
  case ix_inj =>
    intro u w hu he
    by_cases huv : u = v <;> by_cases hwv : w = v
    · rw [huv, hwv]
    · have := h.ix_lt w
      subst huv
      simp only [Digest.dgEnter, Function.update_self, hix w hwv] at he
      omega
    · have := h.ix_lt u
      subst hwv
      simp only [Digest.dgEnter, Function.update_self, hix u huv] at he
      omega
    · simp only [Digest.dgEnter, hix u huv, hix w hwv] at hu he
      exact h.ix_inj u w hu he
  case sorted =>
    simp only [Digest.dgEnter, List.pairwise_append, List.mem_singleton]
    refine ⟨?_, List.pairwise_singleton .., ?_⟩
    · refine h.sorted.imp_of_mem fun {a b} ha hb hab => ?_
      rw [hix a (hne a ha), hix b (hne b hb)]
      exact hab
    · rintro a ha b rfl
      rw [hix a (hne a ha), Function.update_self]
      exact h.ix_lt a
  case mem_stk =>
    intro u
    by_cases hu : u = v
    · subst hu; simp [Digest.dgEnter, hvcomp, hnext]
    · simp only [Digest.dgEnter, List.mem_append, List.mem_singleton, hu, or_false, hix u hu]
      exact h.mem_stk u
  case on_stk =>
    intro u
    by_cases hu : u = v
    · subst hu; simp [Digest.dgEnter]
    · simp only [Digest.dgEnter, List.mem_append, List.mem_singleton, hu, or_false,
        Function.update_of_ne hu]
      exact h.on_stk u
  case comp_ix =>
    intro u hu
    have huv : u ≠ v := by rintro rfl; simp only [Digest.dgEnter] at hu; omega
    simp only [Digest.dgEnter, hix u huv]
    exact h.comp_ix u hu
  case ncomp_deep => exact h.ncomp_deep
  case deep_dirty => exact h.deep_dirty
  case closed =>
    intro u hu hgray w hw
    obtain ⟨huv, hug⟩ := not_or.mp (mt List.mem_cons.mpr hgray)
    simp only [Digest.dgEnter, hix u huv] at hu ⊢
    by_cases hwv : w = v
    · subst hwv; simpa using hnext
    · rw [hix w hwv]; exact h.closed u hu hug w hw
  case sealed_out => exact h.sealed_out
  case scc => exact h.scc
  case up =>
    intro x y hx hy hle
    simp only [Digest.dgEnter, List.mem_append, List.mem_singleton] at hx hy hle
    rcases hy with hy | rfl
    · rcases hx with hx | rfl
      · rw [hix x (hne x hx), hix y (hne y hy)] at hle
        exact h.up x y hx hy hle
      · have := h.ix_lt y
        rw [Function.update_self, hix y (hne y hy)] at hle
        omega
    · rcases hx with hx | rfl
      · exact hreachv x hx
      · exact .refl
  case down =>
    intro y hy
    simp only [Digest.dgEnter, List.mem_append, List.mem_singleton] at hy ⊢
    rcases hy with hy | rfl
    · obtain ⟨x, hx, hle, hr⟩ := h.down y hy
      refine ⟨x, List.mem_cons_of_mem _ hx, ?_, hr⟩
      rwa [hix x (hne x (h.gray_stk x hx)), hix y (hne y hy)]
    · exact ⟨y, List.mem_cons_self .., le_refl _, .refl⟩
  case gray_stk =>
    intro x hx
    simp only [Digest.dgEnter, List.mem_append, List.mem_singleton]
    rcases List.mem_cons.mp hx with rfl | hx
    · exact Or.inr rfl
    · exact Or.inl (h.gray_stk x hx)
  case dirt => exact h.dirt
  case hash => exact h.hash

/-- What a visit of `v` from `s` leaves, with `gray` still being walked. -/
structure VisitPost (g : Rows n) (gray : List (Fin n)) (v : Fin n) (s s' : Walk n) : Prop where
  inv : WalkInv g gray s'
  /-- Rows already visited keep their index, low link and component. -/
  ix_keep : ∀ u, 0 ≤ s.ix u → s'.ix u = s.ix u
  low_keep : ∀ u, 0 ≤ s.ix u → s'.low u = s.low u
  comp_keep : ∀ u, 0 ≤ s.ix u → s'.comp u = s.comp u
  /-- The stack grows at its top. -/
  stk_ext : ∃ new, s'.stk = s.stk ++ new
  next_le : s.next ≤ s'.next
  seen : 0 ≤ s'.ix v
  low_le : s'.low v ≤ s'.ix v
  /-- The low link of a row left on the stack is the index of a row it reaches there. -/
  low_reach : s'.comp v < 0 → ∃ y ∈ s'.stk, s'.ix y = s'.low v ∧ Reach g v y
  /-- The low link of a sealed row is above every earlier index. -/
  sealed_low : 0 ≤ s'.comp v → s.next ≤ s'.low v
  /-- The low link bounds every edge from the new part of the stack to the old part. -/
  cross : ∀ x ∈ s'.stk, x ∉ s.stk → ∀ y ∈ s.stk, y ∈ g.out x → s'.low v ≤ s.ix y

/-- The loop over the successors of `v`, entered from `s`, after those in `done`. -/
structure SuccInv (g : Rows n) (gray : List (Fin n)) (v : Fin n) (s : Walk n)
    (done : List (Fin n)) (t : Walk n) : Prop where
  inv : WalkInv g (v :: gray) t
  ix_keep : ∀ u, 0 ≤ s.ix u → t.ix u = s.ix u
  low_keep : ∀ u, 0 ≤ s.ix u → t.low u = s.low u
  comp_keep : ∀ u, 0 ≤ s.ix u → t.comp u = s.comp u
  ix_self : t.ix v = s.next
  stk_ext : ∃ new, t.stk = s.stk ++ v :: new
  next_lt : s.next < t.next
  low_le : t.low v ≤ t.ix v
  low_reach : ∃ y ∈ t.stk, t.ix y = t.low v ∧ Reach g v y
  seen : ∀ w ∈ done, 0 ≤ t.ix w
  cross : ∀ x ∈ t.stk, x ∉ s.stk → x ≠ v → ∀ y ∈ s.stk, y ∈ g.out x → t.low v ≤ s.ix y
  cross_self : ∀ y ∈ s.stk, y ∈ done → t.low v ≤ s.ix y

/-- Entering `v` starts its loop. -/
theorem SuccInv.start {gray : List (Fin n)} {s : Walk n} (h : WalkInv g gray s) {v : Fin n}
    (hv : s.ix v < 0) (hreach : ∀ x ∈ gray, Reach g x v) :
    SuccInv g gray v s [] (dgEnter v s) := by
  have hne : ∀ u, 0 ≤ s.ix u → u ≠ v := by rintro u hu rfl; omega
  refine ⟨h.dgEnter hv hreach, ?_, ?_, fun _ _ => rfl, ?_, ⟨[], rfl⟩, ?_, ?_, ?_, ?_, ?_, ?_⟩
  · intro u hu; exact Function.update_of_ne (hne u hu) ..
  · intro u hu; exact Function.update_of_ne (hne u hu) ..
  · simp [dgEnter]
  · simp [dgEnter]
  · simp [dgEnter]
  · exact ⟨v, by simp [dgEnter], by simp [dgEnter], .refl⟩
  · simp
  · intro x hx hxs hxv
    simp only [dgEnter, List.mem_append, List.mem_singleton] at hx
    exact absurd (hx.resolve_left hxs) hxv
  · simp

/-- Inside the loop of `v`, the stack the visit started from is visited and below `v`. -/
theorem SuccInv.old_ix {gray done : List (Fin n)} {v : Fin n} {s t : Walk n}
    (h : SuccInv g gray v s done t) (hs : WalkInv g gray s) {y : Fin n} (hy : y ∈ s.stk) :
    0 ≤ s.ix y ∧ y ∈ t.stk ∧ t.ix y < t.ix v := by
  have h0 := ((hs.mem_stk y).mp hy).1
  obtain ⟨new, hnew⟩ := h.stk_ext
  refine ⟨h0, by simp [hnew, hy], ?_⟩
  rw [h.ix_keep y h0, h.ix_self]
  exact hs.ix_lt y

/-- A row visited before the loop of `v` is not `v`. -/
theorem SuccInv.ne_self {gray done : List (Fin n)} {v u : Fin n} {s t : Walk n}
    (h : SuccInv g gray v s done t) (hs : WalkInv g gray s) (hu : 0 ≤ s.ix u) : u ≠ v := by
  rintro rfl
  have hlt := hs.ix_lt u
  have hself := h.ix_self
  have hkeep := h.ix_keep u hu
  omega

/-- One successor keeps the loop's invariant, given what a visit leaves. -/
theorem SuccInv.step {gray done : List (Fin n)} {v w : Fin n} {s t : Walk n}
    (h : SuccInv g gray v s done t) (hs : WalkInv g gray s) (hw : w ∈ g.out v)
    (hreach : ∀ x ∈ gray, Reach g x v) {visit : Fin n → Walk n → Option (Walk n)}
    (hvisit : t.ix w < 0 → (∀ x ∈ v :: gray, Reach g x w) →
      ∃ t', visit w t = some t' ∧ VisitPost g (v :: gray) w t t') :
    ∃ t', dgStep visit v w t = some t' ∧ SuccInv g gray v s (done ++ [w]) t' := by
  have hvt : v ∈ t.stk := h.inv.gray_stk v (List.mem_cons_self ..)
  have hv0 : 0 ≤ t.ix v := ((h.inv.mem_stk v).mp hvt).1
  obtain ⟨new, hnew⟩ := h.stk_ext
  unfold dgStep
  by_cases hwhite : t.ix w < 0
  · -- an unvisited successor is walked and its low link taken
    have hr : ∀ x ∈ v :: gray, Reach g x w := by
      intro x hx
      rcases List.mem_cons.mp hx with rfl | hx
      · exact .single hw
      · exact (hreach x hx).tail hw
    obtain ⟨t', ht', hp⟩ := hvisit hwhite hr
    have hwv : w ≠ v := by rintro rfl; omega
    have hvis : ∀ u, 0 ≤ s.ix u → 0 ≤ t.ix u := fun u hu => by rw [h.ix_keep u hu]; exact hu
    have hlow : (dgLower v (t'.low w) t').low v = min (t.low v) (t'.low w) := by
      rw [dgLower_low, hp.low_keep v hv0]
    obtain ⟨more, hmore⟩ := hp.stk_ext
    refine ⟨dgLower v (t'.low w) t', by simp only [hwhite, ite_true, ht', Option.map_some], ?_⟩
    refine ⟨hp.inv.dgLower v _, ?_, ?_, ?_, ?_, ?_, ?_, ?_, ?_, ?_, ?_, ?_⟩
    · intro u hu; rw [dgLower_ix, hp.ix_keep u (hvis u hu), h.ix_keep u hu]
    · intro u hu
      rw [dgLower_low_ne (h.ne_self hs hu), hp.low_keep u (hvis u hu), h.low_keep u hu]
    · intro u hu; rw [dgLower_comp, hp.comp_keep u (hvis u hu), h.comp_keep u hu]
    · rw [dgLower_ix, hp.ix_keep v hv0, h.ix_self]
    · exact ⟨new ++ more, by rw [dgLower_stk, hmore, hnew]; simp⟩
    · rw [dgLower_next]; exact lt_of_lt_of_le h.next_lt hp.next_le
    · rw [hlow, dgLower_ix, hp.ix_keep v hv0]
      exact le_trans (min_le_left ..) h.low_le
    · simp only [dgLower_stk, dgLower_ix, hlow]
      by_cases hmin : t.low v ≤ t'.low w
      · obtain ⟨y, hy, hyl, hyr⟩ := h.low_reach
        refine ⟨y, by simp [hmore, hy], ?_, hyr⟩
        rw [min_eq_left hmin, hp.ix_keep y ((h.inv.mem_stk y).mp hy).1, hyl]
      · have hws : t'.comp w < 0 := by
          by_contra hc
          have h1 := hp.sealed_low (by omega)
          have h2 := h.inv.ix_lt v
          have h3 := h.low_le
          omega
        obtain ⟨y, hy, hyl, hyr⟩ := hp.low_reach hws
        exact ⟨y, hy, by rw [min_eq_right (by omega), hyl], hyr.head hw⟩
    · intro x hx
      rw [dgLower_ix]
      rcases List.mem_append.mp hx with hx | hx
      · rw [hp.ix_keep x (h.seen x hx)]; exact h.seen x hx
      · rw [List.mem_singleton.mp hx]; exact hp.seen
    · intro x hx hxs hxv y hy hyx
      rw [dgLower_stk] at hx
      rw [hlow]
      obtain ⟨hy0, hyt, _⟩ := h.old_ix hs hy
      by_cases hxt : x ∈ t.stk
      · exact le_trans (min_le_left ..) (h.cross x hxt hxs hxv y hy hyx)
      · have := hp.cross x hx hxt y hyt hyx
        rw [h.ix_keep y hy0] at this
        exact le_trans (min_le_right ..) this
    · intro y hy hyd
      rw [hlow]
      rcases List.mem_append.mp hyd with hyd | hyd
      · exact le_trans (min_le_left ..) (h.cross_self y hy hyd)
      · -- an unvisited row is not on the old stack
        have hy0 := (h.old_ix hs hy).1
        have hkeep := h.ix_keep y hy0
        rw [List.mem_singleton.mp hyd] at hy0 hkeep
        omega
  · -- a visited successor is on the stack or in a finished component
    have hsame : ∀ t', (t' = t ∨ t' = dgLower v (t.ix w) t) →
        (∀ y ∈ s.stk, y = w → t'.low v ≤ s.ix y) →
        (∃ y ∈ t.stk, t.ix y = t'.low v ∧ Reach g v y) → t'.low v ≤ t.low v →
        SuccInv g gray v s (done ++ [w]) t' := by
      intro t' ht' hcw hlr hle
      have hix : t'.ix = t.ix := by rcases ht' with rfl | rfl <;> simp
      have hcomp : t'.comp = t.comp := by rcases ht' with rfl | rfl <;> simp
      have hstk : t'.stk = t.stk := by rcases ht' with rfl | rfl <;> simp
      have hnx : t'.next = t.next := by rcases ht' with rfl | rfl <;> simp
      have hinv : WalkInv g (v :: gray) t' := by
        rcases ht' with rfl | rfl
        · exact h.inv
        · exact h.inv.dgLower ..
      have hlow' : ∀ u, u ≠ v → t'.low u = t.low u := by
        intro u hu
        rcases ht' with rfl | rfl
        · rfl
        · exact dgLower_low_ne hu ..
      refine ⟨hinv, ?_, ?_, ?_, ?_, ?_, ?_, ?_, ?_, ?_, ?_, ?_⟩
      · rw [hix]; exact h.ix_keep
      · intro u hu
        rw [hlow' u (h.ne_self hs hu), h.low_keep u hu]
      · rw [hcomp]; exact h.comp_keep
      · rw [hix]; exact h.ix_self
      · rw [hstk]; exact h.stk_ext
      · rw [hnx]; exact h.next_lt
      · rw [hix]; exact le_trans hle h.low_le
      · rw [hstk, hix]; exact hlr
      · intro x hx
        rw [hix]
        rcases List.mem_append.mp hx with hx | hx
        · exact h.seen x hx
        · rw [List.mem_singleton.mp hx]; omega
      · rw [hstk]
        exact fun x hx hxs hxv y hy hyx => le_trans hle (h.cross x hx hxs hxv y hy hyx)
      · intro y hy hyd
        rcases List.mem_append.mp hyd with hyd | hyd
        · exact le_trans hle (h.cross_self y hy hyd)
        · exact hcw y hy (List.mem_singleton.mp hyd)
    by_cases hon : t.on w = 1
    · have hwstk : w ∈ t.stk := (h.inv.on_stk w).mp hon
      refine ⟨_, by simp only [hwhite, hon, ite_true, ite_false], hsame _ (Or.inr rfl) ?_ ?_ ?_⟩
      · rintro y hy rfl
        rw [dgLower_low, ← h.ix_keep y (h.old_ix hs hy).1]
        exact min_le_right ..
      · rw [dgLower_low]
        by_cases hmin : t.low v ≤ t.ix w
        · rw [min_eq_left hmin]; exact h.low_reach
        · exact ⟨w, hwstk, by rw [min_eq_right (by omega)], .single hw⟩
      · rw [dgLower_low]; exact min_le_left ..
    · refine ⟨_, by simp only [hwhite, hon, ite_false], hsame _ (Or.inl rfl) ?_ h.low_reach
        (le_refl _)⟩
      rintro y hy rfl
      exact absurd ((h.inv.on_stk y).mpr (h.old_ix hs hy).2.1) hon

end IdCompiler.Digest

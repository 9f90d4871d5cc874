import IdCompiler.Digest.Tarjan
import Mathlib.Data.List.GetD

/-!
# A whole visit

The loop over a row's successors, the two ways it ends, and the recursion: with
as much fuel as there are unvisited rows a visit always answers, and what it
leaves satisfies the invariant.
-/

namespace IdCompiler.Digest

open IdCompiler.Core Relation Finset

variable {n : Nat} {g : Rows n}

/-- The number of rows not visited yet. -/
def white (s : Walk n) : Nat := #{u | s.ix u < 0}

/-- Inside the loop of `v`, fewer rows are unvisited than before it. -/
theorem SuccInv.white_lt {gray done : List (Fin n)} {v : Fin n} {s t : Walk n}
    (h : SuccInv g gray v s done t) (hs : WalkInv g gray s) (hv : s.ix v < 0) :
    white t < white s := by
  refine Finset.card_lt_card ⟨fun u hu => ?_, fun hsub => ?_⟩
  · simp only [mem_filter, mem_univ, true_and] at hu ⊢
    by_contra hc
    have := h.ix_keep u (by omega)
    omega
  · have hmem : v ∈ ({u | t.ix u < 0} : Finset (Fin n)) := hsub (by simpa using hv)
    have := hs.next_nonneg
    simp only [mem_filter, mem_univ, true_and, h.ix_self] at hmem
    omega

/-- The loop over the successors of `v` runs to its end. -/
theorem SuccInv.run {gray : List (Fin n)} {v : Fin n} {s : Walk n} (hs : WalkInv g gray s)
    (hv : s.ix v < 0) (hreach : ∀ x ∈ gray, Reach g x v)
    {visit : Fin n → Walk n → Option (Walk n)}
    (hvisit : ∀ w t, white t < white s → t.ix w < 0 → WalkInv g (v :: gray) t →
      (∀ x ∈ v :: gray, Reach g x w) →
      ∃ t', visit w t = some t' ∧ VisitPost g (v :: gray) w t t')
    (rest done : List (Fin n)) (t : Walk n) (hout : g.out v = done ++ rest)
    (h : SuccInv g gray v s done t) :
    ∃ t', dgSucc visit v rest t = some t' ∧ SuccInv g gray v s (g.out v) t' := by
  induction rest generalizing done t with
  | nil => exact ⟨t, rfl, by rw [hout, List.append_nil]; exact h⟩
  | cons w ws ih =>
    have hw : w ∈ g.out v := by simp [hout]
    obtain ⟨t', ht', h'⟩ := h.step hs hw hreach fun hwhite hr =>
      hvisit w t (h.white_lt hs hv) hwhite h.inv hr
    obtain ⟨t'', ht'', h''⟩ := ih (done ++ [w]) t' (by simp [hout]) h'
    exact ⟨t'', by simp [dgSucc, ht', ht''], h''⟩

/-- A row whose low link is below its index waits on the stack. -/
theorem SuccInv.wait {gray : List (Fin n)} {v : Fin n} {s t : Walk n}
    (h : SuccInv g gray v s (g.out v) t) (hne : t.low v ≠ t.ix v) :
    VisitPost g gray v s t := by
  have hlow := h.low_le
  have hvt : v ∈ t.stk := h.inv.gray_stk v (List.mem_cons_self ..)
  have hv0 := (h.inv.mem_stk v).mp hvt
  obtain ⟨new, hnew⟩ := h.stk_ext
  have hinv : WalkInv g gray t :=
    { h.inv with
      closed := by
        intro u hu hug w hw
        by_cases huv : u = v
        · subst huv; exact h.seen w hw
        · exact h.inv.closed u hu (by simp [huv, hug]) w hw
      down := by
        intro y hy
        obtain ⟨x, hx, hle, hr⟩ := h.inv.down y hy
        rcases List.mem_cons.mp hx with rfl | hx
        · -- `v` itself reaches a row below it, and that row a gray one below it
          obtain ⟨y', hy', hyl, hyr⟩ := h.low_reach
          obtain ⟨x', hx', hle', hr'⟩ := h.inv.down y' hy'
          rcases List.mem_cons.mp hx' with rfl | hx'
          · omega
          · exact ⟨x', hx', by omega, (hr.trans hyr).trans hr'⟩
        · exact ⟨x, hx, hle, hr⟩
      gray_stk := fun x hx => h.inv.gray_stk x (List.mem_cons_of_mem _ hx) }
  refine ⟨hinv, h.ix_keep, h.low_keep, h.comp_keep, ⟨v :: new, hnew⟩, le_of_lt h.next_lt,
    hv0.1, hlow, fun _ => h.low_reach, fun hc => by omega, ?_⟩
  intro x hx hxs y hy hyx
  by_cases hxv : x = v
  · subst hxv; exact h.cross_self y hy hyx
  · exact h.cross x hx hxs hxv y hy hyx

/-- The members of a finished component: the stack from its root up. -/
structure SuccInv.Members (g : Rows n) (v : Fin n) (s t : Walk n) (ms : List (Fin n)) : Prop where
  stk : t.stk = s.stk ++ v :: ms
  nodup : (v :: ms).Nodup
  disj : ∀ u ∈ v :: ms, u ∉ s.stk
  both : ∀ u ∈ v :: ms, Mutual (Edge g) v u
  out : ∀ m ∈ v :: ms, ∀ w ∈ g.out m, w ∈ v :: ms ∨ 0 ≤ t.comp w

/-- When the low link of `v` is its own index, the stack from `v` up is one whole class. -/
theorem SuccInv.members {gray : List (Fin n)} {v : Fin n} {s t : Walk n}
    (h : SuccInv g gray v s (g.out v) t) (hs : WalkInv g gray s)
    (hreach : ∀ x ∈ gray, Reach g x v) (heq : t.low v = t.ix v) :
    ∃ ms, SuccInv.Members g v s t ms := by
  obtain ⟨ms, hms⟩ := h.stk_ext
  have hnd := h.inv.nodup
  have hsorted := h.inv.sorted
  have hvt : v ∈ t.stk := h.inv.gray_stk v (List.mem_cons_self ..)
  rw [hms, List.nodup_append] at hnd
  rw [hms, List.pairwise_append] at hsorted
  have hmt : ∀ u ∈ v :: ms, u ∈ t.stk := fun u hu => by rw [hms]; exact List.mem_append_right _ hu
  have hle : ∀ u ∈ v :: ms, t.ix v ≤ t.ix u := by
    intro u hu
    rcases List.mem_cons.mp hu with rfl | hu
    · exact le_refl _
    · exact le_of_lt ((List.pairwise_cons.mp hsorted.2.1).1 u hu)
  refine ⟨ms, hms, hnd.2.1, fun u hu hus => hnd.2.2 u hus u hu rfl, fun u hu => ?_, ?_⟩
  · refine ⟨h.inv.up v u hvt (hmt u hu) (hle u hu), ?_⟩
    obtain ⟨x, hx, _, hr⟩ := h.inv.down u (hmt u hu)
    rcases List.mem_cons.mp hx with rfl | hx
    · exact hr
    · exact hr.trans (hreach x hx)
  · intro m hm w hw
    -- a member's successor was visited; on the old stack it would lower the low link of `v`
    have hw0 : 0 ≤ t.ix w := by
      by_cases hmv : m = v
      · subst hmv; exact h.seen w hw
      · refine h.inv.closed m ((h.inv.mem_stk m).mp (hmt m hm)).1 ?_ w hw
        intro hmg
        rcases List.mem_cons.mp hmg with rfl | hmg
        · exact hmv rfl
        · exact hnd.2.2 m (hs.gray_stk m hmg) m hm rfl
    by_cases hc : 0 ≤ t.comp w
    · exact Or.inr hc
    · have hwt : w ∈ t.stk := (h.inv.mem_stk w).mpr ⟨hw0, by omega⟩
      rw [hms] at hwt
      rcases List.mem_append.mp hwt with hws | hwm
      · exfalso
        have hlt := (h.old_ix hs hws).2.2
        have hkeep := h.ix_keep w (h.old_ix hs hws).1
        have hcross : t.low v ≤ s.ix w := by
          by_cases hmv : m = v
          · subst hmv; exact h.cross_self w hws hw
          · exact h.cross m (hmt m hm) (fun hmo => hnd.2.2 m hmo m hm rfl) hmv w hws hw
        omega
      · exact Or.inl hwm

section Pop

variable {gray : List (Fin n)} {v : Fin n} {s t t' : Walk n} {ms : List (Fin n)}
  (h : SuccInv g gray v s (g.out v) t) (hm : SuccInv.Members g v s t ms)
  (hp : Popped g v s.stk ms t t')

include h hm in
/-- No member had a component before. -/
theorem members_comp_neg {u : Fin n} (hu : u ∈ v :: ms) : t.comp u < 0 :=
  ((h.inv.mem_stk u).mp (by rw [hm.stk]; exact List.mem_append_right _ hu)).2

include hp in
/-- A member gets the new component's number. -/
theorem popped_comp_in {u : Fin n} (hu : u ∈ v :: ms) : t'.comp u = t.ncomp := by
  rw [hp.comp, if_pos hu]

include hp in
/-- A row that is no member keeps its component. -/
theorem popped_comp_off {u : Fin n} (hu : u ∉ v :: ms) : t'.comp u = t.comp u := by
  rw [hp.comp, if_neg hu]

include h hm hp in
/-- A sealed row keeps its component. -/
theorem popped_comp_old {u : Fin n} (hu : 0 ≤ t.comp u) : t'.comp u = t.comp u :=
  popped_comp_off hp fun hmem => by have := members_comp_neg h hm hmem; omega

include hp in
/-- A row of some component is a member or was sealed before. -/
theorem popped_cases {u : Fin n} (hu : 0 ≤ t'.comp u) : u ∈ v :: ms ∨ 0 ≤ t.comp u := by
  by_cases hmem : u ∈ v :: ms
  · exact Or.inl hmem
  · rw [popped_comp_off hp hmem] at hu
    exact Or.inr hu

include h hp in
/-- Earlier components keep their hash and dirt. -/
theorem popped_rows_old {u : Fin n} (hu : 0 ≤ t.comp u) :
    t'.deep.getD (t.comp u).toNat 0 = t.deep.getD (t.comp u).toNat 0 ∧
    t'.dirty.getD (t.comp u).toNat 0 = t.dirty.getD (t.comp u).toNat 0 := by
  have hlt := (h.inv.comp_ix u hu).2
  have hdeep := h.inv.ncomp_deep
  have hlen := h.inv.deep_dirty
  obtain ⟨d, hd, _⟩ := hp.dirty
  rw [hp.deep, hd, List.getD_append _ _ _ _ (by omega), List.getD_append _ _ _ _ (by omega)]
  exact ⟨rfl, rfl⟩

include h hm in
/-- What a member reaches is a member or sealed. -/
theorem members_reach {u w : Fin n} (hu : u ∈ v :: ms) (hr : Reach g u w) :
    w ∈ v :: ms ∨ 0 ≤ t.comp w := by
  refine Closed.reach (s := fun x => x ∈ v :: ms ∨ 0 ≤ t.comp x) ?_ hr (Or.inl hu)
  rintro a b (ha | ha) hab
  · exact hm.out a ha b hab
  · exact Or.inr (h.inv.sealed_out a ha b hab).1

include h hm hp in
/-- Sharing a component is mutual reachability, the new component included. -/
theorem popped_scc (u w : Fin n) (hu : 0 ≤ t'.comp u) (hw : 0 ≤ t'.comp w) :
    t'.comp u = t'.comp w ↔ Mutual (Edge g) u w := by
  -- a member and a sealed row have different numbers, and the sealed rows are closed
  have hmixed : ∀ a b, a ∈ v :: ms → 0 ≤ t.comp b →
      t'.comp a ≠ t'.comp b ∧ ¬ Mutual (Edge g) a b := by
    intro a b ha hb
    refine ⟨?_, fun hmut => ?_⟩
    · have hlt := (h.inv.comp_ix b hb).2
      rw [popped_comp_in hp ha, popped_comp_old h hm hp hb]
      omega
    · have hsealed : 0 ≤ t.comp a := Closed.reach h.inv.sealed_closed hmut.2 hb
      have hneg := members_comp_neg h hm ha
      omega
  rcases popped_cases hp hu with hum | hus <;> rcases popped_cases hp hw with hwm | hws
  · rw [popped_comp_in hp hum, popped_comp_in hp hwm]
    exact iff_of_true rfl ((hm.both u hum).symm.trans (hm.both w hwm))
  · exact iff_of_false (hmixed u w hum hws).1 (hmixed u w hum hws).2
  · exact iff_of_false (hmixed w u hwm hus).1.symm fun hmut => (hmixed w u hwm hus).2 hmut.symm
  · rw [popped_comp_old h hm hp hus, popped_comp_old h hm hp hws]
    exact h.inv.scc u w hus hws

include h hm hp in
/-- The new component's dirt is the bits of every class a member reaches. -/
theorem popped_dirt_new {d b : Nat}
    (hd : d.testBit b = true ↔ ∃ m ∈ v :: ms, (g.nat m).testBit b = true ∨
      ∃ w ∈ g.out m, t'.comp w < t.deep.length ∧
        (t.dirty.getD (t'.comp w).toNat 0).testBit b = true)
    {u : Fin n} (hu : u ∈ v :: ms) :
    d.testBit b = true ↔ ∃ w, Reach g u w ∧ (g.nat w).testBit b = true := by
  have hsealed : ∀ w, 0 ≤ t.comp w → t'.comp w < t.deep.length := fun w hw => by
    rw [popped_comp_old h hm hp hw, ← h.inv.ncomp_deep]
    exact (h.inv.comp_ix w hw).2
  constructor
  · rw [hd]
    rintro ⟨m, hmm, hbit | ⟨w, hw, hlt, hbit⟩⟩
    · exact ⟨m, ((hm.both u hu).symm.trans (hm.both m hmm)).1, hbit⟩
    · have hmw : Reach g u w := (((hm.both u hu).symm.trans (hm.both m hmm)).1).tail hw
      have hws : 0 ≤ t.comp w := by
        rcases hm.out m hmm w hw with hwm | hws
        · rw [popped_comp_in hp hwm, h.inv.ncomp_deep] at hlt
          omega
        · exact hws
      rw [popped_comp_old h hm hp hws, h.inv.dirt w hws] at hbit
      obtain ⟨x, hx, hxb⟩ := hbit
      exact ⟨x, hmw.trans hx, hxb⟩
  · rintro ⟨w, hr, hbit⟩
    -- along the path: still inside the members, or already in a sealed component with the bit
    have hpath : ∀ x, Reach g x w →
        (x ∈ v :: ms → d.testBit b = true) ∧
        (0 ≤ t.comp x → (t.dirty.getD (t.comp x).toNat 0).testBit b = true) := by
      intro x hx
      induction hx using ReflTransGen.head_induction_on with
      | refl => exact ⟨fun hw => hd.mpr ⟨w, hw, Or.inl hbit⟩,
          fun hw => (h.inv.dirt w hw b).mpr ⟨w, .refl, hbit⟩⟩
      | head hxy hyw ih =>
        rename_i x y
        refine ⟨fun hxm => ?_, fun hxs => (h.inv.dirt x hxs b).mpr ⟨w, hyw.head hxy, hbit⟩⟩
        rcases hm.out x hxm y hxy with hym | hys
        · exact ih.1 hym
        · refine hd.mpr ⟨x, hxm, Or.inr ⟨y, hxy, hsealed y hys, ?_⟩⟩
          rw [popped_comp_old h hm hp hys]
          exact ih.2 hys
    exact (hpath u hr).1 hu

include h hm hp in
/-- Every component's dirt, the new one included. -/
theorem popped_dirt (u : Fin n) (hu : 0 ≤ t'.comp u) (b : Nat) :
    (t'.dirty.getD (t'.comp u).toNat 0).testBit b = true ↔
      ∃ w, Reach g u w ∧ (g.nat w).testBit b = true := by
  rcases popped_cases hp hu with hum | hus
  · have hdeep := h.inv.ncomp_deep
    have hlen := h.inv.deep_dirty
    obtain ⟨d, hd, hbits⟩ := hp.dirty
    rw [popped_comp_in hp hum, hd, List.getD_append_right _ _ _ _ (by omega)]
    have hidx : t.ncomp.toNat - t.dirty.length = 0 := by omega
    rw [hidx]
    exact popped_dirt_new h hm hp (hbits b) hum
  · rw [popped_comp_old h hm hp hus, (popped_rows_old h hp hus).2]
    exact h.inv.dirt u hus b

include h hm hp in
/-- A component's hash reads only the rows of that component and smaller ones. -/
theorem popped_hash (u : Fin n) (hu : 0 ≤ t'.comp u) :
    t'.deep.getD (t'.comp u).toNat 0 = compHash g t'.comp t'.deep (t'.comp u) := by
  have hdeep := h.inv.ncomp_deep
  have hsame : ∀ c : Int, (∀ x, t'.comp x = c → ∀ w ∈ g.out x, t'.comp w ≠ c → 0 ≤ t.comp w) →
      compHash g t'.comp t'.deep c = compHash g t'.comp t.deep c := by
    intro c hc
    refine congrArg (dgMix _) (Finset.sum_congr rfl fun x hx => ?_)
    refine congrArg List.sum (List.map_congr_left fun w hw => ?_)
    unfold edgeHash
    by_cases hwc : t'.comp w = c
    · rw [if_pos hwc, if_pos hwc]
    · have hws := hc x (by simpa using hx) w hw hwc
      rw [if_neg hwc, if_neg hwc, popped_comp_old h hm hp hws, (popped_rows_old h hp hws).1]
  rcases popped_cases hp hu with hum | hus
  · have hnew : t'.deep.getD t.ncomp.toNat 0 = compHash g t'.comp t.deep t.ncomp := by
      have hidx : t.ncomp.toNat - t.deep.length = 0 := by omega
      rw [hp.deep, List.getD_append_right _ _ _ _ (by omega), hidx, ← hdeep]
      rfl
    rw [popped_comp_in hp hum, hnew, hsame t.ncomp]
    · intro x hx w hw hwc
      have hxm : x ∈ v :: ms := by
        by_contra hxm
        rw [popped_comp_off hp hxm] at hx
        have hx0 : 0 ≤ t.comp x := by omega
        have := (h.inv.comp_ix x hx0).2
        omega
      rcases hm.out x hxm w hw with hwm | hws
      · exact absurd (popped_comp_in hp hwm) hwc
      · exact hws
  · have hlt := (h.inv.comp_ix u hus).2
    have hcls : ∀ x, t'.comp x = t.comp u → 0 ≤ t.comp x := by
      intro x hx
      by_cases hxm : x ∈ v :: ms
      · rw [popped_comp_in hp hxm] at hx; omega
      · rw [popped_comp_off hp hxm] at hx; omega
    rw [popped_comp_old h hm hp hus, hsame (t.comp u), (popped_rows_old h hp hus).1,
      h.inv.hash u hus]
    · unfold compHash
      have hmem : ∀ x, t'.comp x = t.comp u ↔ t.comp x = t.comp u := by
        intro x
        by_cases hxm : x ∈ v :: ms
        · have := members_comp_neg h hm hxm
          rw [popped_comp_in hp hxm]
          constructor <;> intro <;> omega
        · rw [popped_comp_off hp hxm]
      simp only [hmem]
      refine congrArg (dgMix _) (Finset.sum_congr rfl fun x hx => ?_)
      have hx0 : 0 ≤ t.comp x := by
        have : t.comp x = t.comp u := by simpa using hx
        omega
      refine congrArg List.sum (List.map_congr_left fun w hw => ?_)
      rw [edgeHash, edgeHash, popped_comp_old h hm hp (h.inv.sealed_out x hx0 w hw).1]
    · intro x hx w hw _
      exact (h.inv.sealed_out x (hcls x hx) w hw).1

include h hm hp in
/-- Sealing the finished component of `v` restores the invariant without `v` gray. -/
theorem popped_inv (hs : WalkInv g gray s) : WalkInv g gray t' := by
  have hv0 : 0 ≤ t.ix v := by rw [h.ix_self]; exact hs.next_nonneg
  have hstk : ∀ u ∈ s.stk, u ∉ v :: ms := fun u hu hmem => hm.disj u hmem hu
  have hsub : ∀ u ∈ s.stk, u ∈ t.stk := fun u hu => by rw [hm.stk]; exact List.mem_append_left _ hu
  constructor
  case ix_lt => rw [hp.ix, hp.next]; exact h.inv.ix_lt
  case next_nonneg => rw [hp.next]; exact h.inv.next_nonneg
  case ix_inj => rw [hp.ix]; exact h.inv.ix_inj
  case sorted =>
    have hsorted := h.inv.sorted
    rw [hm.stk, List.pairwise_append] at hsorted
    rw [hp.stk, hp.ix]
    exact hsorted.1
  case mem_stk =>
    intro u
    have hmem := h.inv.mem_stk u
    rw [hm.stk, List.mem_append] at hmem
    rw [hp.stk, hp.ix]
    by_cases hum : u ∈ v :: ms
    · have hn := h.inv.ncomp_deep
      rw [popped_comp_in hp hum]
      constructor
      · intro hus; exact absurd hum (hstk u hus)
      · intro ⟨_, hlt⟩; omega
    · rw [popped_comp_off hp hum, ← hmem]
      simp [hum]
  case on_stk =>
    intro u
    have hon := h.inv.on_stk u
    rw [hm.stk, List.mem_append] at hon
    rw [hp.stk, hp.on]
    by_cases hum : u ∈ v :: ms
    · rw [if_pos hum]
      exact iff_of_false (by decide) fun hus => hstk u hus hum
    · rw [if_neg hum, hon]
      simp [hum]
  case comp_ix =>
    intro u hu
    rw [hp.ix, hp.ncomp]
    rcases popped_cases hp hu with hum | hus
    · rw [popped_comp_in hp hum]
      refine ⟨((h.inv.mem_stk u).mp ?_).1, by omega⟩
      rw [hm.stk]; exact List.mem_append_right _ hum
    · rw [popped_comp_old h hm hp hus]
      have := h.inv.comp_ix u hus
      exact ⟨this.1, by omega⟩
  case ncomp_deep =>
    rw [hp.ncomp, hp.deep, List.length_append, h.inv.ncomp_deep]
    simp
  case deep_dirty =>
    obtain ⟨d, hd, _⟩ := hp.dirty
    rw [hp.deep, hd, List.length_append, List.length_append, h.inv.deep_dirty]
    simp
  case closed =>
    intro u hu hug w hw
    rw [hp.ix] at hu ⊢
    by_cases huv : u = v
    · subst huv; exact h.seen w hw
    · exact h.inv.closed u hu (by simp [huv, hug]) w hw
  case sealed_out =>
    intro u hu w hw
    rcases popped_cases hp hu with hum | hus
    · rw [popped_comp_in hp hum] at hu ⊢
      rcases hm.out u hum w hw with hwm | hws
      · rw [popped_comp_in hp hwm]; omega
      · have := (h.inv.comp_ix w hws).2
        rw [popped_comp_old h hm hp hws]; omega
    · have hws := h.inv.sealed_out u hus w hw
      rw [popped_comp_old h hm hp hus, popped_comp_old h hm hp hws.1]
      exact hws
  case scc => exact popped_scc h hm hp
  case up =>
    rw [hp.stk, hp.ix]
    exact fun x y hx hy hle => h.inv.up x y (hsub x hx) (hsub y hy) hle
  case down =>
    rw [hp.stk, hp.ix]
    intro y hy
    obtain ⟨x, hx, hle, hr⟩ := h.inv.down y (hsub y hy)
    rcases List.mem_cons.mp hx with rfl | hx
    · have hlt := (h.old_ix hs hy).2.2
      omega
    · exact ⟨x, hx, hle, hr⟩
  case gray_stk => rw [hp.stk]; exact hs.gray_stk
  case dirt => exact popped_dirt h hm hp
  case hash => exact popped_hash h hm hp

end Pop

/-- A row whose low link is its own index completes its component. -/
theorem SuccInv.pop {gray : List (Fin n)} {v : Fin n} {s t : Walk n}
    (h : SuccInv g gray v s (g.out v) t) (hs : WalkInv g gray s)
    (hreach : ∀ x ∈ gray, Reach g x v) (heq : t.low v = t.ix v) :
    VisitPost g gray v s (dgPop g v t) := by
  obtain ⟨ms, hm⟩ := h.members hs hreach heq
  have hcomp : ∀ u, u ∉ v :: ms → t.comp u < t.ncomp := by
    intro u _
    have hn := h.inv.ncomp_deep
    by_cases hc : 0 ≤ t.comp u
    · exact (h.inv.comp_ix u hc).2
    · omega
  have hp := dgPop_spec g v t s.stk ms hm.stk hm.nodup h.inv.ncomp_deep hcomp hm.out
  have hvm : v ∈ v :: ms := List.mem_cons_self ..
  have hnn := h.inv.ncomp_deep
  refine ⟨popped_inv h hm hp hs, ?_, ?_, ?_, ?_, ?_, ?_, ?_, ?_, ?_, ?_⟩
  · rw [hp.ix]; exact h.ix_keep
  · rw [hp.low]; exact h.low_keep
  · intro u hu
    rw [← h.comp_keep u hu, popped_comp_off hp]
    intro hum
    -- a member visited before the walk of `v` would be on the old stack
    have hneg := members_comp_neg h hm hum
    rw [h.comp_keep u hu] at hneg
    exact hm.disj u hum ((hs.mem_stk u).mpr ⟨hu, hneg⟩)
  · exact ⟨[], by rw [hp.stk, List.append_nil]⟩
  · rw [hp.next]; exact le_of_lt h.next_lt
  · rw [hp.ix, h.ix_self]; exact hs.next_nonneg
  · rw [hp.low, hp.ix]; exact h.low_le
  · intro hneg
    rw [popped_comp_in hp hvm] at hneg
    omega
  · intro _
    rw [hp.low, heq, h.ix_self]
  · intro x hx hxs
    rw [hp.stk] at hx
    exact absurd hx hxs

/-- A visit of an unvisited row answers, and keeps the invariant. -/
theorem dgVisit_spec (g : Rows n) (fuel : Nat) (gray : List (Fin n)) (v : Fin n) (s : Walk n)
    (hfuel : white s ≤ fuel) (hv : s.ix v < 0) (hs : WalkInv g gray s)
    (hreach : ∀ x ∈ gray, Reach g x v) :
    ∃ s', dgVisit g fuel v s = some s' ∧ VisitPost g gray v s s' := by
  induction fuel generalizing gray v s with
  | zero =>
    have hmem : v ∈ ({u | s.ix u < 0} : Finset (Fin n)) := by simpa using hv
    have hpos := Finset.card_pos.mpr ⟨v, hmem⟩
    unfold white at hfuel
    omega
  | succ fuel ih =>
    have hvisit : ∀ w t, white t < white s → t.ix w < 0 → WalkInv g (v :: gray) t →
        (∀ x ∈ v :: gray, Reach g x w) →
        ∃ t', dgVisit g fuel w t = some t' ∧ VisitPost g (v :: gray) w t t' :=
      fun w t hlt hw ht hr => ih (v :: gray) w t (by omega) hw ht hr
    obtain ⟨t, ht, hpost⟩ :=
      SuccInv.run hs hv hreach hvisit (g.out v) [] _ rfl (SuccInv.start hs hv hreach)
    simp only [dgVisit, ht, Option.map_some]
    by_cases heq : t.low v = t.ix v
    · exact ⟨_, by simp only [heq, ite_true], hpost.pop hs hreach heq⟩
    · exact ⟨_, by simp only [heq, ite_false], hpost.wait heq⟩

end IdCompiler.Digest

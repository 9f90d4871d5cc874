import IdCompiler.Arena.Turn

/-!
# Lists of the arena

What each operation of a list does to the arena: the blocks it names, what they are
afterwards, and the fields of the header.
-/

namespace IdCompiler.Arena

open IdCompiler.Core

variable {a : Nat} {m m' : Bytes} {g g' : Layout} {b c d p k v : Nat}

/-! ## Writes -/

theorem within_st64 (hk : k + 8 ≤ g.size b) : Within g b m (st64 m (b + k) v) :=
  fun i hi => st64_apart (by omega)

theorem copyBytes_apart {src dst n i : Nat} (h : i < dst ∨ dst + n ≤ i) :
    copyBytes m src dst n i = m i := by
  induction n with
  | zero => rfl
  | succ n ih =>
    rw [copyBytes, st8, ← ih (by omega)]
    exact h.elim (fun hlt => Bytes.store_of_lt (by omega)) fun hge => Bytes.store_of_ge (by omega)

/-- Bytes copied to a place apart arrive. -/
theorem copyBytes_in {src dst n i : Nat} (h : Apart src n dst n) (hi : i < n) :
    copyBytes m src dst n (dst + i) = m (src + i) := by
  unfold Apart at h
  induction n with
  | zero => exact absurd hi (Nat.not_lt_zero i)
  | succ n ih =>
    rw [copyBytes, st8]
    by_cases hin : i = n
    · subst hin
      rw [Bytes.store, if_pos ⟨Nat.le_refl _, by omega⟩, Nat.sub_self, Nat.pow_zero, Nat.div_one,
        BitVec.ofNat_toNat, BitVec.setWidth_eq, copyBytes_apart (by omega)]
    · rw [Bytes.store_of_lt (by omega)]
      exact ih (by omega) (by omega)

/-! ## Making a list -/

/-- A new list at `p` with the cells `d`. -/
structure Newed (a : Nat) (g g' : Layout) (p d : Nat) (m m' : Bytes) : Prop where
  change : Change a [p, d] g g' m m'
  head_was : g.use p = .none ∨ g.use p = .free 0
  cells_was : g.Spare d
  head : g'.use p = .header
  len : ld64 m' p = 0
  cap : ld64 m' (p + 8) = 4
  cells : ld64 m' (p + 16) = d

/-- The header is filled in while it is held. -/
theorem Sound.listInit (h : Sound a m g) (hp : g.use p = .held) (hown : 24 ≤ g.size p)
    (ht : listInit a m p = some m') :
    ∃ g' d, Change a [p, d] g g' m m' ∧ g.Spare d ∧
      g'.use p = .header ∧ ld64 m' p = 0 ∧ ld64 m' (p + 8) = 4 ∧ ld64 m' (p + 16) = d := by
  have hge := h.block_ge (b := p) (by rw [hp]; decide)
  have hlen := h.write hp (within_st64 (k := 0) (v := 0) (by omega))
  have hcap := hlen.trans (hlen.sound.write hp (within_st64 (k := 8) (v := 4) (by omega)))
  simp only [Arena.listInit, listInitCells, Option.bind_eq_bind, Option.bind_eq_some_iff] at ht
  obtain ⟨⟨d, m₁⟩, htake, heq⟩ := ht
  have hout : handOut g.lim 1 = 32 := handOut_cells (k := 0) (by have := h.lim; omega)
  obtain ⟨g₁, hsound, htaken, hoff⟩ := hcap.sound.poolTake (c := 1) (by decide) hout.le htake
  have hwas : g.Spare d := htaken.was.imp_right fun hwas => ⟨1, by decide, hwas⟩
  have hne : d ≠ p := hwas.ne hp (by decide) fun c _ => Use.noConfusion
  have hp₁ : g₁.use p = .held := by rw [htaken.use, turn_use_of_ne hne.symm, hp]
  have hd₁ : g₁.use d = .held := by rw [htaken.use, turn_use]
  have hsize : g₁.size p = g.size p := htaken.size p (by rw [hp]; decide)
  have hat := hsound.write hp₁ (within_st64 (k := 16) (v := d) (by omega))
  have hd : d < 2 ^ 64 := by
    have hin := hsound.placed.inside d (hsound.used d (by rw [hd₁]; decide))
    have htop := hsound.placed.top_lt
    omega
  have hm' : m' = st64 m₁ (p + 16) d := (Option.some.inj heq).symm
  -- The three fields, read after the last write.
  have h0 : ld64 m' p = 0 := by
    rw [hm', ld64_st64_apart (by omega), hoff.load (by omega), ld64_st64_apart (by omega)]
    exact ld64_st64 (by decide)
  have h8 : ld64 m' (p + 8) = 4 := by
    rw [hm', ld64_st64_apart (by omega), hoff.load (by omega)]
    exact ld64_st64 (by decide)
  have h16 : ld64 m' (p + 16) = d := by
    rw [hm']
    exact ld64_st64 hd
  have hroom : 32 ≤ g₁.size d := hout ▸ htaken.room
  have hlist := hat.sound.relist hp₁ hd₁ hne (by omega) 
      ⟨0, by have := hsound.lim; omega, by rw [← hm', h8, Nat.pow_zero, Nat.mul_one]⟩
    (by rw [← hm', h0, h8]; decide) (by rw [← hm']; exact h16)
    (by rw [← hm', h8]; exact hroom)
  refine ⟨g₁.relist p d, d, ?_, hwas, relist_use_head, h0, h8, h16⟩
  have hone : ∀ y ∈ [p], y ∈ [p, d] := fun y hy => by
    rw [List.mem_singleton.mp hy]
    exact List.mem_cons_self
  have htwo : ∀ y ∈ [d], y ∈ [p, d] := fun y hy => List.mem_cons_of_mem p hy
  rw [hm']
  exact (hcap.mono hone).trans (((htaken.change hsound hoff).mono htwo).trans
    ((hat.mono hone).trans (hlist.relisted hne)))

theorem Sound.listNew (h : Sound a m g) (ht : listNew a m = some (p, m')) :
    ∃ g' d, Newed a g g' p d m m' := by
  simp only [Arena.listNew, Option.bind_eq_bind, Option.bind_eq_some_iff] at ht
  obtain ⟨⟨q, m₁⟩, htake, m₂, hinit, heq⟩ := ht
  obtain ⟨rfl, rfl⟩ := Prod.mk.inj (Option.some.inj heq)
  obtain ⟨g₁, hsound, htaken, hoff⟩ := h.poolTake (c := 0) (by decide) (Nat.le_refl 24) htake
  have hq : g₁.use q = .held := by rw [htaken.use, turn_use]
  obtain ⟨g₂, d, hchange, hwas, hhead, h0, h8, h16⟩ := hsound.listInit hq htaken.room hinit
  have hne : d ≠ q := hwas.ne hq (by decide) fun c _ => Use.noConfusion
  rw [Layout.Spare, htaken.use, turn_use_of_ne hne] at hwas
  refine ⟨g₂, d, ?_, htaken.was, hwas, hhead, h0, h8, h16⟩
  exact ((htaken.change hsound hoff).mono fun y hy => by
    rw [List.mem_singleton.mp hy]
    exact List.mem_cons_self).trans hchange

/-! ## Room for one more cell -/

/-- The list `p` moved from the cells `d` to the cells `x`, of twice the capacity. -/
structure Grown (a : Nat) (g g' : Layout) (p d x : Nat) (m m' : Bytes) : Prop where
  change : Change a [p, d, x] g g' m m'
  was : g.Spare x
  head : g'.use p = .header
  old : ∃ c, c ≠ 0 ∧ g'.use d = .free c
  len : ld64 m' p = ld64 m p
  cap : ld64 m' (p + 8) = 2 * ld64 m (p + 8)
  cells : ld64 m' (p + 16) = x
  copy : ∀ i < 8 * ld64 m p, m' (x + i) = m (d + i)

/-- The cells of a list are another block. -/
theorem Sound.cells_ne (h : Sound a m g) (hp : g.use p = .header) : ld64 m (p + 16) ≠ p := by
  intro he
  have hd := (h.heads p hp).cells
  rw [he, hp] at hd
  exact Use.noConfusion hd

/-- A capacity is a small number, as its cells have addresses. -/
theorem Sound.cap_lt (h : Sound a m g) (hp : g.use p = .header) :
    ld64 m (p + 8) < 2 ^ 61 ∧ 4 ≤ ld64 m (p + 8) := by
  obtain ⟨k, hk, hk8⟩ := (h.heads p hp).cap
  have hpos := Nat.one_le_two_pow (n := k)
  have hroom := (h.heads p hp).room
  have hcells := (h.heads p hp).cells
  have hin := h.placed.inside _ (h.used (ld64 m (p + 16)) (by rw [hcells]; decide))
  have htop := h.placed.top_lt
  omega

theorem Sound.cap_class (h : Sound a m g) (hp : g.use p = .header) {k : Nat}
    (hk : ld64 m (p + 8) = 4 * 2 ^ k) : k < 60 := by
  have hsmall := h.cap_lt hp
  have hpow : 4 * 2 ^ k = 2 ^ (k + 2) := by
    rw [Nat.pow_add]
    omega
  have := (Nat.pow_lt_pow_iff_right (a := 2) (n := k + 2) (m := 61) (by decide)).mp (by omega)
  omega

/-- Where a list's cells are: in a block of their own that holds the capacity, off the three words of its head. -/
structure Extent (m : Bytes) (g : Layout) (p : Nat) : Prop where
  cells : g.use (ld64 m (p + 16)) = .cells
  room : 8 * ld64 m (p + 8) ≤ g.size (ld64 m (p + 16))
  below : ld64 m (p + 16) + g.size (ld64 m (p + 16)) < 2 ^ 64
  apart : p + 24 ≤ ld64 m (p + 16) ∨ ld64 m (p + 16) + g.size (ld64 m (p + 16)) ≤ p

theorem Sound.extent (h : Sound a m g) (hp : g.use p = .header) : Extent m g p := by
  have hcells := (h.heads p hp).cells
  have hown := (h.heads p hp).own
  have hin := h.placed.inside _ (h.used (ld64 m (p + 16)) (by rw [hcells]; decide))
  have htop := h.placed.top_lt
  have hpd := h.apart_of_ne (b := p) (c := ld64 m (p + 16)) (by rw [hp]; decide)
    (by rw [hcells]; decide) (h.cells_ne hp).symm
  unfold Apart at hpd
  exact ⟨hcells, (h.heads p hp).room, by omega, by omega⟩

/-- Growth while the new block is held: the list is moved to it. -/
theorem Sound.growCopy {x z : Nat} (h : Sound a m g) (hp : g.use p = .header)
    (hd : ld64 m (p + 16) = d) (hx : g.use x = .held) (hz : ∃ k, k + 1 < g.lim ∧ z = 4 * 2 ^ k)
    (hroom : 8 * z ≤ g.size x) (hlen : ld64 m p ≤ z) :
    Change a [p, d, x] g ((g.unlist p d).relist p x) m (listGrowCopy m p x z d) ∧
      ld64 (listGrowCopy m p x z d) p = ld64 m p ∧
      ld64 (listGrowCopy m p x z d) (p + 8) = z ∧
      ld64 (listGrowCopy m p x z d) (p + 16) = x ∧
      ∀ i < 8 * ld64 m p, listGrowCopy m p x z d (x + i) = m (d + i) := by
  have hne := h.cells_ne hp
  have hcells := (h.heads p hp).cells
  have hown := (h.heads p hp).own
  have hlencap := (h.heads p hp).len
  have hfit := (h.heads p hp).room
  have hlist := h.unlisted hp
  rw [hd] at hne hcells hfit hlist
  have hxp : x ≠ p := by
    rintro rfl
    exact Use.noConfusion (hx.symm.trans hp)
  have hxd : x ≠ d := by
    rintro rfl
    exact Use.noConfusion (hx.symm.trans hcells)
  have hxpos := h.used x (by rw [hx]; decide)
  have hin := h.placed.inside x hxpos
  have htop := h.placed.top_lt
  have hz64 : z < 2 ^ 64 := by omega
  have hx64 : x < 2 ^ 64 := by omega
  -- The three blocks have no byte in common.
  have hpx := h.apart_of_ne (b := p) (c := x) (by rw [hp]; decide) (by rw [hx]; decide) hxp.symm
  have hdx := h.apart_of_ne (b := d) (c := x) (by rw [hcells]; decide) (by rw [hx]; decide) hxd.symm
  unfold Apart at hpx hdx
  have hx' : (g.unlist p d).use x = .held := by rw [unlist_use_of_ne hxp hxd, hx]
  have hp' : (g.unlist p d).use p = .held := unlist_use_head
  have hcopy : Change a [x] (g.unlist p d) (g.unlist p d) m (copyBytes m d x (ld64 m p * 8)) :=
    hlist.sound.write hx' fun i hi => copyBytes_apart (by
      change i < x ∨ x + g.size x ≤ i at hi
      omega)
  have hcap := hcopy.sound.write hp' (within_st64 (k := 8) (v := z) (show 8 + 8 ≤ g.size p by omega))
  have hat : Change a [p] _ _ _ (listGrowCopy m p x z d) :=
    hcap.sound.write hp' (within_st64 (k := 16) (v := x) (show 16 + 8 ≤ g.size p by omega))
  have hfields : ∀ k, k + 8 ≤ 24 →
      ld64 (copyBytes m d x (ld64 m p * 8)) (p + k) = ld64 m (p + k) := fun k hk =>
    Bytes.load_congr fun i hge hlt => copyBytes_apart (by omega)
  have h0 : ld64 (listGrowCopy m p x z d) p = ld64 m p := by
    rw [listGrowCopy, listWide, ld64_st64_apart (by omega), ld64_st64_apart (by omega)]
    exact hfields 0 (by omega)
  have h8 : ld64 (listGrowCopy m p x z d) (p + 8) = z := by
    rw [listGrowCopy, listWide, ld64_st64_apart (by omega)]
    exact ld64_st64 hz64
  have h16 : ld64 (listGrowCopy m p x z d) (p + 16) = x := by
    rw [listGrowCopy, listWide]
    exact ld64_st64 hx64
  have hdone := hat.sound.relist hp' hx' hxp hown (by rw [h8]; exact hz)
    (by rw [h8, h0]; exact hlen) h16 (by rw [h8]; exact hroom)
  refine ⟨?_, h0, h8, h16, fun i hi => ?_⟩
  · have hpd : ∀ y ∈ [p, d], y ∈ [p, d, x] := by simp +contextual
    have hpx : ∀ y ∈ [p, x], y ∈ [p, d, x] := by simp +contextual
    have hp1 : ∀ y ∈ [p], y ∈ [p, d, x] := by simp +contextual
    have hx1 : ∀ y ∈ [x], y ∈ [p, d, x] := by simp +contextual
    exact (hlist.mono hpd).trans ((hcopy.mono hx1).trans ((hcap.mono hp1).trans
      ((hat.mono hp1).trans ((hdone.relisted hxp).mono hpx))))
  · rw [listGrowCopy, listWide, st64_apart (by omega), st64_apart (by omega)]
    refine copyBytes_in ?_ (by omega)
    unfold Apart
    omega

/-- The class `k` of a capacity `z` and the one after it, which is still in the table. -/
structure NextClass (lim z k : Nat) : Prop where
  cap : z = 4 * 2 ^ k
  lt : k + 2 < lim
  small : k + 1 < 60
  twice : 4 * 2 ^ (k + 1) = 2 * z
  word : z * 2 % 2 ^ 64 = 4 * 2 ^ (k + 1)
  old : handOut lim (k + 1) = 8 * (4 * 2 ^ k)
  new : handOut lim (k + 1 + 1) = 8 * (4 * 2 ^ (k + 1))

theorem Sound.nextClass (h : Sound a m g) (hp : g.use p = .header)
    (hcap : 2 * ld64 m (p + 8) < 2 ^ (g.lim + 1)) : ∃ k, NextClass g.lim (ld64 m (p + 8)) k := by
  obtain ⟨k, hk, hk8⟩ := (h.heads p hp).cap
  have hsmall := h.cap_lt hp
  have hlim := h.lim
  have hdouble : 2 * ld64 m (p + 8) = 2 ^ (k + 3) := by
    rw [hk8, Nat.pow_add]
    omega
  have hlt : k + 2 < g.lim := by
    have := (Nat.pow_lt_pow_iff_right (by decide)).mp (hdouble ▸ hcap)
    omega
  have hk60 : k + 1 < 60 := by
    have := (Nat.pow_lt_pow_iff_right (a := 2) (n := k + 3) (m := 62) (by decide)).mp (by omega)
    omega
  have htwice : 4 * 2 ^ (k + 1) = 2 * ld64 m (p + 8) := by
    rw [hk8, Nat.pow_succ]
    omega
  refine ⟨k, hk8, hlt, hk60, htwice, ?_, handOut_cells (by omega), handOut_cells (by omega)⟩
  rw [htwice, Nat.mul_comm, Nat.mod_eq_of_lt (by omega)]

/-- A class that is still in the table, and its cells. -/
theorem Sound.listGrow (h : Sound a m g) (hp : g.use p = .header)
    (hcap : 2 * ld64 m (p + 8) < 2 ^ (g.lim + 1))
    (ht : listGrow a m p (ld64 m (p + 8) * 2 % 2 ^ 64) = some m') :
    ∃ g' x, Grown a g g' p (ld64 m (p + 16)) x m m' := by
  obtain ⟨k, hk8, hk', hk60, hz2, hz, hout', hout⟩ := h.nextClass hp hcap
  have hown := (h.heads p hp).own
  have hlen := (h.heads p hp).len
  have hsmall := h.cap_lt hp
  have hlim := h.lim
  rw [hz] at ht
  simp only [Arena.listGrow, poolCls_cap hk60, Option.bind_eq_bind,
    Option.bind_some, Option.bind_eq_some_iff] at ht
  obtain ⟨⟨x, m₁⟩, htake, heq⟩ := ht
  obtain ⟨g₁, hsound, htaken, hoff⟩ := h.poolTake (c := k + 1 + 1) (by omega) (by omega) htake
  have hpn : g.use p ≠ .none := by rw [hp]; decide
  have hge := h.block_ge hpn
  have hcells := (h.heads p hp).cells
  have hgd := h.block_ge (b := ld64 m (p + 16)) (by rw [hcells]; decide)
  have hwas : g.Spare x := htaken.was.imp_right fun hwas => ⟨k + 1 + 1, by omega, hwas⟩
  have hxp := hwas.ne hp (by decide) fun c _ => Use.noConfusion
  have hxd := hwas.ne hcells (by decide) fun c _ => Use.noConfusion
  have hp₁ : g₁.use p = .header := by rw [htaken.use, turn_use_of_ne hxp.symm, hp]
  have hx₁ : g₁.use x = .held := by rw [htaken.use, turn_use]
  have h0 : ld64 m₁ p = ld64 m p := hoff.load hge
  have h16 : ld64 m₁ (p + 16) = ld64 m (p + 16) := hoff.load (by omega)
  have hroom := htaken.room
  obtain ⟨hchange, hl, hc, hx, hcopy⟩ := hsound.growCopy (z := 4 * 2 ^ (k + 1)) hp₁ rfl hx₁
    ⟨k + 1, by rw [htaken.lim]; omega, rfl⟩ (by omega) (by omega)
  rw [h16] at hchange hl hc hx hcopy
  -- The old cells go back to the class of their capacity.
  have hne := h.cells_ne hp
  have hold : ((g₁.unlist p (ld64 m (p + 16))).relist p x).use (ld64 m (p + 16)) = .held := by
    rw [relist_use_of_ne hne hxd.symm, unlist_use_cells]
  have hsize : g₁.size (ld64 m (p + 16)) = g.size (ld64 m (p + 16)) :=
    htaken.size _ (by rw [hcells]; decide)
  have hback := hchange.sound.given (c := k + 1) hold (by omega) (by
    have hfit := (h.heads p hp).room
    show handOut g₁.lim (k + 1) ≤ g₁.size (ld64 m (p + 16))
    rw [htaken.lim]
    omega) (fun he => by omega)
  have hm' : m' = Arena.poolGive a (listGrowCopy m₁ p x (4 * 2 ^ (k + 1)) (ld64 m (p + 16))) (k + 1)
      (ld64 m (p + 16)) := by
    rw [h16] at heq
    exact (Option.some.inj heq).symm
  rw [← hm'] at hback
  have hstay : ∀ y ∈ [ld64 m (p + 16)],
      (((g₁.unlist p (ld64 m (p + 16))).relist p x).give (ld64 m (p + 16)) (k + 1)).use y ≠ .none := by
    intro y hy
    rw [List.mem_singleton.mp hy, give_use]
    exact Use.noConfusion
  have hfield : ∀ j, j + 8 ≤ 24 →
      ld64 m' (p + j) = ld64 (listGrowCopy m₁ p x (4 * 2 ^ (k + 1)) (ld64 m (p + 16))) (p + j) :=
    fun j hj => hback.load hstay (by rw [relist_use_head]; decide)
      (fun hin => hne (List.mem_singleton.mp hin).symm) (by
        show j + 8 ≤ g₁.size p
        have := htaken.size p hpn
        omega)
  refine ⟨((g₁.unlist p (ld64 m (p + 16))).relist p x).give (ld64 m (p + 16)) (k + 1), x,
    ?_, hwas, ?_, ⟨k + 1, by omega, give_use⟩, ?_, ?_, ?_, ?_⟩
  · exact ((htaken.change hsound hoff).mono (by simp +contextual)).trans
      (hchange.trans (hback.mono (by simp +contextual)))
  · rw [give_use_of_ne hne.symm, relist_use_head]
  · exact (hfield 0 (by omega)).trans (hl.trans h0)
  · rw [hfield 8 (by omega), hc, hz2]
  · rw [hfield 16 (by omega), hx]
  · intro i hi
    have hfit := (h.heads p hp).room
    rw [hback.kept hstay (x := x) (by rw [relist_use_cells hxp]; decide)
      (fun hin => hxd (List.mem_singleton.mp hin)) (by omega) (by
        show x + i < x + g₁.size x
        omega), hcopy i (by omega)]
    exact hoff _ (.inr (by omega))

/-! ## Pushing and popping -/

/-- Another length, within the capacity. -/
theorem Sound.setLen {n : Nat} (h : Sound a m g) (hp : g.use p = .header)
    (hn : n % 2 ^ 64 ≤ ld64 m (p + 8)) : Change a [p] g g m (st64 m p n) := by
  have hne := h.cells_ne hp
  have hcells := (h.heads p hp).cells
  have hown := (h.heads p hp).own
  have hheld := (h.unlist hp).write unlist_use_head
    (within_st64 (k := 0) (v := n) (show 0 + 8 ≤ g.size p by omega))
  have h0 : ld64 (st64 m p n) p = n % 2 ^ 64 := Bytes.load_store
  have h8 : ld64 (st64 m p n) (p + 8) = ld64 m (p + 8) := ld64_st64_apart (by omega)
  have h16 : ld64 (st64 m p n) (p + 16) = ld64 m (p + 16) := ld64_st64_apart (by omega)
  have hsound : Sound a (st64 m p n) (g.unlist p (ld64 m (p + 16))) := hheld.sound
  have hdone := hsound.relist unlist_use_head unlist_use_cells hne hown
    (by rw [h8]; exact (h.heads p hp).cap) (by rw [h0, h8]; exact hn) h16
    (by rw [h8]; exact (h.heads p hp).room)
  rw [relist_unlist hp hcells] at hdone
  refine ⟨hdone, fun _ _ => rfl, fun _ hx => hx, fun _ _ => rfl, fun _ => Nat.le_refl _,
    rfl, Nat.le_refl _, rfl, ?_⟩
  intro i _ hy
  have hout := hy p List.mem_cons_self
  exact st64_apart (by omega)

/-- Another word in a cell. -/
theorem Sound.setCell (h : Sound a m g) (hd : g.use d = .cells) (hk : k + 8 ≤ g.size d) :
    Change a [d] g g m (st64 m (d + k) v) :=
  h.fill (by rw [hd]; decide) (by rw [hd]; rfl) (within_st64 hk)

/-- The word `v` at the end of the list `p`, whose cells are now at `x`. -/
structure Pushed (a : Nat) (g g' : Layout) (p d x v : Nat) (m m' : Bytes) : Prop where
  change : Change a [p, d, x] g g' m m'
  was : x = d ∨ g.Spare x
  head : g'.use p = .header
  old : x = d ∨ ∃ c, c ≠ 0 ∧ g'.use d = .free c
  len : ld64 m' p = ld64 m p + 1
  cells : ld64 m' (p + 16) = x
  copy : ∀ i < 8 * ld64 m p, m' (x + i) = m (d + i)
  last : ld64 m' (x + 8 * ld64 m p) = v

/-- With room for it, the word goes behind the last. -/
theorem Sound.pushAt (h : Sound a m g) (hp : g.use p = .header) (hv : v < 2 ^ 64)
    (hroom : ld64 m p < ld64 m (p + 8)) :
    Pushed a g g p (ld64 m (p + 16)) (ld64 m (p + 16)) v m (listPushAt m p v) := by
  have hsmall := h.cap_lt hp
  obtain ⟨hcells, hfit, hbelow, hoff⟩ := h.extent hp
  have hcell := h.setCell (k := 8 * ld64 m p) (v := v) hcells (by omega)
  have hfield : ∀ j, j + 8 ≤ 24 →
      ld64 (st64 m (ld64 m (p + 16) + 8 * ld64 m p) v) (p + j) = ld64 m (p + j) :=
    fun j hj => ld64_st64_apart (by omega)
  have h0 : ld64 (st64 m (ld64 m (p + 16) + 8 * ld64 m p) v) p = ld64 m p := hfield 0 (by omega)
  have hlen := hcell.sound.setLen (n := ld64 m p + 1) hp (by rw [hfield 8 (by omega)]; omega)
  have heq : listPushAt m p v =
      st64 (st64 m (ld64 m (p + 16) + 8 * ld64 m p) v) p (ld64 m p + 1) := by
    rw [listPushAt, listPushWrite, Nat.mul_comm, Nat.mod_eq_of_lt (by omega), h0]
  rw [heq]
  refine ⟨?_, .inl rfl, hp, .inl rfl, ?_, ?_, fun i hi => ?_, ?_⟩
  · exact (hcell.mono (by simp +contextual)).trans (hlen.mono (by simp +contextual))
  · exact ld64_st64 (by omega)
  · rw [ld64_st64_apart (by omega), hfield 16 (by omega)]
  · rw [st64_apart (by omega), st64_apart (by omega)]
  · rw [ld64_st64_apart (by omega)]
    exact ld64_st64 hv

/-- A word pushed, while the capacity has a class. -/
theorem Sound.listPush (h : Sound a m g) (hp : g.use p = .header) (hv : v < 2 ^ 64)
    (hcap : ld64 m p = ld64 m (p + 8) → 2 * ld64 m (p + 8) < 2 ^ (g.lim + 1))
    (ht : listPush a m p v = some m') :
    ∃ g' x, Pushed a g g' p (ld64 m (p + 16)) x v m m' := by
  have hsmall := h.cap_lt hp
  have hlen := (h.heads p hp).len
  simp only [Arena.listPush, Option.bind_eq_bind, Option.bind_eq_some_iff] at ht
  obtain ⟨m₁, hroom, heq⟩ := ht
  have hm' : m' = listPushAt m₁ p v := (Option.some.inj heq).symm
  rw [hm']
  rw [listRoom, signed_small (by omega), signed_small (by omega)] at hroom
  split at hroom
  · next hfull =>
    have hcap := hcap (by omega)
    obtain ⟨g₁, x, hgrown⟩ := h.listGrow hp hcap hroom
    have hpush := hgrown.change.sound.pushAt hgrown.head hv (by rw [hgrown.len, hgrown.cap]; omega)
    rw [hgrown.cells] at hpush
    refine ⟨g₁, x, ?_, .inr hgrown.was, hgrown.head, .inr hgrown.old, ?_, hpush.cells, ?_, ?_⟩
    · exact hgrown.change.trans (hpush.change.mono (by simp +contextual))
    · rw [hpush.len, hgrown.len]
    · intro i hi
      rw [hpush.copy i (by rw [hgrown.len]; exact hi), hgrown.copy i hi]
    · rw [← hgrown.len]
      exact hpush.last
  · next hfree =>
    have hm₁ : m₁ = m := (Option.some.inj hroom).symm
    subst hm₁
    exact ⟨g, _, h.pushAt hp hv (by omega)⟩

/-- A word popped off a list that has one: the last cell, and a length less by one. -/
theorem Sound.listPop (h : Sound a m g) (hp : g.use p = .header) (hlen : 0 < ld64 m p) :
    Change a [p] g g m (listPop m p).2 ∧ ld64 (listPop m p).2 p = ld64 m p - 1 ∧
      (listPop m p).1 = ld64 m (ld64 m (p + 16) + 8 * (ld64 m p - 1)) := by
  have hle := (h.heads p hp).len
  have hsmall := h.cap_lt hp
  obtain ⟨-, hfit, hbelow, hoff⟩ := h.extent hp
  have hless : (ld64 m p + minusOne) % 2 ^ 64 = ld64 m p - 1 := by
    unfold minusOne
    omega
  have h0 : ld64 (st64 m p (ld64 m p + minusOne)) p = ld64 m p - 1 := by
    rw [← hless]
    exact Bytes.load_store
  have h16 : ld64 (st64 m p (ld64 m p + minusOne)) (p + 16) = ld64 m (p + 16) :=
    ld64_st64_apart (by omega)
  refine ⟨h.setLen hp (by rw [hless]; omega), h0, ?_⟩
  show listPopRead (st64 m p (ld64 m p + minusOne)) p = _
  rw [listPopRead, h0, h16, Nat.mul_comm, Nat.mod_eq_of_lt (by omega), ld64_st64_apart (by omega)]

/-! ## Giving a list back -/

/-- The list `p` with the cells `d` is on the free lists. -/
structure Freed (a : Nat) (g g' : Layout) (p d : Nat) (m m' : Bytes) : Prop where
  change : Change a [p, d] g g' m m'
  head : g'.use p = .free 0
  cells : ∃ c, c ≠ 0 ∧ g'.use d = .free c

theorem Sound.listGive (h : Sound a m g) (hp : g.use p = .header) (ht : listGive a m p = some m') :
    ∃ g', Freed a g g' p (ld64 m (p + 16)) m m' := by
  obtain ⟨k, hk, hk8⟩ := (h.heads p hp).cap
  have hne := h.cells_ne hp
  have hown := (h.heads p hp).own
  have hfit := (h.heads p hp).room
  have hout : handOut g.lim (k + 1) = 8 * (4 * 2 ^ k) := handOut_cells (by omega)
  have hsmall := h.cap_lt hp
  have hlim := h.lim
  have hk60 := h.cap_class hp hk8
  simp only [Arena.listGive, hk8, poolCls_cap hk60, Option.bind_eq_bind,
    Option.bind_some] at ht
  have hlist := h.unlisted hp
  have hcells := hlist.sound.given (c := k + 1) unlist_use_cells (by omega)
    (show handOut g.lim (k + 1) ≤ g.size (ld64 m (p + 16)) by omega) (fun he => by omega)
  have hheld : ((g.unlist p (ld64 m (p + 16))).give (ld64 m (p + 16)) (k + 1)).use p = .held := by
    rw [give_use_of_ne hne.symm, unlist_use_head]
  have hmark := hcells.sound.write hheld
    (within_st64 (k := 8) (v := minusOne) (show 8 + 8 ≤ g.size p by omega))
  have hhead := hmark.sound.given (c := 0) hheld (by decide) (show handOut g.lim 0 ≤ g.size p from hown)
    fun _ => ld64_st64 (by decide)
  have hm' : m' = Arena.poolGive a (st64 (Arena.poolGive a m (k + 1) (ld64 m (p + 16))) (p + 8)
      minusOne) 0 p := (Option.some.inj ht).symm
  rw [hm']
  refine ⟨((g.unlist p (ld64 m (p + 16))).give (ld64 m (p + 16)) (k + 1)).give p 0, ?_, give_use,
    k + 1, by omega, ?_⟩
  · exact hlist.trans ((hcells.mono (by simp +contextual)).trans
      ((hmark.mono (by simp +contextual)).trans (hhead.mono (by simp +contextual))))
  · rw [give_use_of_ne hne, give_use]

theorem Sound.listFree (h : Sound a m g) (hp : g.use p = .header) (ht : listFree a m p = some m') :
    ∃ g', Freed a g g' p (ld64 m (p + 16)) m m' := by
  have hsmall := h.cap_lt hp
  have hge := h.block_ge (b := p) (by rw [hp]; decide)
  rw [Arena.listFree, signed_small (by omega), if_pos ⟨by omega, by omega⟩] at ht
  exact h.listGive hp ht

/-- A list given back before, or none at all, is left alone. -/
theorem Sound.listFree_again (h : Sound a m g) (hp : g.use p = .free 0 ∨ p = 0) :
    Arena.listFree a m p = some m := by
  rw [Arena.listFree, if_neg]
  rintro ⟨hne, hcap⟩
  obtain hp | hp := hp
  · rw [h.mark p hp] at hcap
    exact absurd hcap (by decide)
  · exact hne hp

/-- Giving a list back always ends. -/
theorem Sound.listFree_some (h : Sound a m g)
    (hp : g.use p = .header ∨ g.use p = .free 0 ∨ p = 0) : ∃ m', Arena.listFree a m p = some m' := by
  rcases hp with hp | hp
  · obtain ⟨k, hk, hk8⟩ := (h.heads p hp).cap
    have hgive : ∃ m', Arena.listGive a m p = some m' := by
      simp only [Arena.listGive, hk8, poolCls_cap (h.cap_class hp hk8), Option.bind_eq_bind,
        Option.bind_some]
      exact ⟨_, rfl⟩
    unfold Arena.listFree
    split
    · exact hgive
    · exact ⟨m, rfl⟩
  · exact ⟨m, h.listFree_again hp⟩

end IdCompiler.Arena

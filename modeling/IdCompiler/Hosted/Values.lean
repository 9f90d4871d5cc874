import IdCompiler.Hosted.Sizes

/-!
# Runs of list and bytes operations

Every operation keeps the invariant of the sizes, so in every run each block goes
back, or is resized, with its own size, and every cell below a length is in its block.
-/

namespace IdCompiler.Hosted

open IdCompiler.Core

namespace Runtime

variable {r r' : Runtime} {k : Kind} {b d s : Block}

/-! ## Operations -/

theorem mutCheck_ok {m : String} {u : Unit} (h : mutCheck m b r = .ok u) :
    0 ≤ (r.head b).cap := by
  unfold mutCheck at h
  split at h
  · split at h <;> cases h
  · omega

/-- One more cell written below the capacity. -/
theorem Sound.extend {v : Nat} (hs : r.Sound) (hb : r.live b = some k)
    (hroom : (r.head b).len < (r.head b).cap) :
    Sound ((r.setCell k b (r.head b).len.toNat v).setHead b
      { r.head b with len := (r.head b).len + 1 }) := by
  have h0 := (hs.handle b k hb).len_nonneg
  refine hs.touch hb ⟨_, rfl⟩ rfl rfl (fun c hc => Function.update_of_ne hc ..) rfl rfl ?_ ?_
  · dsimp only; omega
  · dsimp only; omega

/-- One cell fewer. -/
theorem Sound.drop (hs : r.Sound) (hb : r.live b = some k) (hpos : 0 < (r.head b).len) :
    Sound (r.setHead b { r.head b with len := (r.head b).len - 1 }) := by
  have hlen := (hs.handle b k hb).len_le
  refine hs.touch hb ⟨_, rfl⟩ rfl rfl (fun _ _ => rfl) rfl rfl ?_ ?_
  · dsimp only; omega
  · dsimp only; omega

/-- A list with more cells, where there was no room. -/
theorem Sound.grow (hs : r.Sound) (hb : r.live b = some .list) (hcap : 0 ≤ (r.head b).cap)
    (h : idListGrow b r = .ok r') : r'.Sound ∧ r'.live b = some .list ∧
      (r'.head b).len = (r.head b).len ∧ (r.head b).cap < (r'.head b).cap := by
  unfold idListGrow at h
  dsimp only at h
  split at h
  · cases h
  next hmax =>
  obtain ⟨ncap, hncap⟩ : ∃ ncap, ncap = if (r.head b).cap < 2 then 4 else (r.head b).cap * 2 :=
    ⟨_, rfl⟩
  rw [← hncap] at h
  split at h
  · cases h
  obtain rfl := Except.ok.inj h
  have hbounds : (r.head b).cap < ncap ∧ ncap ≤ intMax := by
    have := (hs.handle b _ hb).least_le
    simp only [Kind.least] at this
    unfold intMax at *
    rw [hncap]
    split <;> omega
  rw [sizeT_of_nonneg (by omega) hbounds.2]
  obtain ⟨hsound, hlive, d, hhead⟩ := hs.enlarge hb hcap
    (show (r.head b).cap ≤ (ncap.natAbs : Nat) by omega) (by omega)
  refine ⟨hsound, by rw [hlive, hb], ?_, ?_⟩ <;> rw [hhead, Function.update_self]
  dsimp only
  omega

/-- A bytes value with room for what it needs. -/
theorem Sound.reserve {need : Nat} (hs : r.Sound) (hb : r.live b = some .bytes)
    (hcap : 0 ≤ (r.head b).cap) (h : idBytesReserve b need r = .ok r') : r'.Sound ∧
      r'.live = r.live ∧ (r'.head b).len = (r.head b).len ∧ need ≤ (r'.head b).cap := by
  have hmax := (hs.handle b _ hb).cap_le
  have hsize : sizeT (r.head b).cap = (r.head b).cap.natAbs := sizeT_of_nonneg hcap (by omega)
  unfold idBytesReserve at h
  dsimp only at h
  rw [hsize] at h
  split at h
  · next hle =>
    obtain rfl := Except.ok.inj h
    exact ⟨hs, rfl, rfl, by omega⟩
  next hmore =>
  split at h
  · cases h
  next hneed =>
  obtain rfl := Except.ok.inj h
  unfold intMax at *
  obtain ⟨ncap, hncap⟩ : ∃ ncap, ncap = if (2147483647 : Int).toNat <
      (if (r.head b).cap.natAbs * 2 < need then need else (r.head b).cap.natAbs * 2) then
      (2147483647 : Int).toNat else
      if (r.head b).cap.natAbs * 2 < need then need else (r.head b).cap.natAbs * 2 := ⟨_, rfl⟩
  rw [← hncap]
  have hbounds : need ≤ ncap ∧ (r.head b).cap ≤ ncap ∧ (ncap : Int) ≤ 2147483647 := by
    rw [hncap]
    split <;> split <;> omega
  obtain ⟨hsound, hlive, d, hhead⟩ := hs.enlarge hb hcap hbounds.2.1 hbounds.2.2
  refine ⟨hsound, hlive, ?_, ?_⟩ <;> rw [hhead, Function.update_self]
  exact Int.ofNat_le.mpr hbounds.1

/-! ## Binding results -/

theorem bind_ok {α β : Type} {x : Except String α} {f : α → Except String β} {v : β}
    (h : (x >>= f) = .ok v) : ∃ u, x = .ok u ∧ f u = .ok v := by
  cases x with
  | error m => cases h
  | ok u => exact ⟨u, rfl, h⟩

theorem map_ok {α β : Type} {x : Except String α} {f : α → β} {v : β} (h : x.map f = .ok v) :
    ∃ u, x = .ok u ∧ f u = v := by
  cases x with
  | error m => cases h
  | ok u => exact ⟨u, rfl, Except.ok.inj h⟩

theorem Sound.listPush {v : Word} (hs : r.Sound) (hb : r.live b = some .list)
    (h : idListPush b v r = .ok r') : r'.Sound := by
  obtain ⟨u, hmut, h⟩ := bind_ok h
  have hcap := mutCheck_ok hmut
  obtain ⟨g, hgrow, h⟩ := bind_ok h
  obtain rfl := Except.ok.inj h
  have hg : g.Sound ∧ g.live b = some .list ∧ (g.head b).len < (g.head b).cap := by
    split at hgrow
    · obtain ⟨hsound, hlive, hlen, hmore⟩ := hs.grow hb hcap hgrow
      have := (hs.handle b _ hb).len_le
      exact ⟨hsound, hlive, by omega⟩
    · obtain rfl := Except.ok.inj hgrow
      exact ⟨hs, hb, by omega⟩
  exact hg.1.extend hg.2.1 hg.2.2

theorem Sound.bytesPush {v : Int} (hs : r.Sound) (hb : r.live b = some .bytes)
    (h : idBytesPush b v r = .ok r') : r'.Sound := by
  obtain ⟨u, hmut, h⟩ := bind_ok h
  have hcap := mutCheck_ok hmut
  obtain ⟨w, -, h⟩ := bind_ok h
  obtain ⟨g, hgrow, h⟩ := bind_ok h
  obtain rfl := Except.ok.inj h
  have hold := hs.handle b _ hb
  have h0 := hold.len_nonneg
  have hle := hold.len_le
  have hmax := hold.cap_le
  have hg : g.Sound ∧ g.live b = some .bytes ∧ (g.head b).len < (g.head b).cap := by
    split at hgrow
    · obtain ⟨hsound, hlive, hlen, hmore⟩ := hs.reserve hb hcap hgrow
      rw [sizeT_of_nonneg h0 (by omega)] at hmore
      exact ⟨hsound, by rw [hlive, hb], by omega⟩
    · obtain rfl := Except.ok.inj hgrow
      exact ⟨hs, hb, by omega⟩
  exact hg.1.extend hg.2.1 hg.2.2

theorem Sound.listPop {v : Word} (hs : r.Sound) (hb : r.live b = some .list)
    (h : idListPop b r = .ok (v, r')) : r'.Sound := by
  obtain ⟨u, -, h⟩ := bind_ok h
  dsimp only at h
  split at h
  · cases h
  · obtain ⟨-, rfl⟩ := Prod.mk.inj (Except.ok.inj h)
    exact hs.drop hb (by omega)

theorem Sound.bytesPop {v : Nat} (hs : r.Sound) (hb : r.live b = some .bytes)
    (h : idBytesPop b r = .ok (v, r')) : r'.Sound := by
  obtain ⟨u, -, h⟩ := bind_ok h
  dsimp only at h
  split at h
  · cases h
  · obtain ⟨-, rfl⟩ := Prod.mk.inj (Except.ok.inj h)
    exact hs.drop hb (by omega)

/-- Locking changes the sign of the capacity only. -/
theorem Sound.listLock (hs : r.Sound) (hb : r.live b = some k) : (idListLock b r).Sound := by
  have hold := hs.handle b k hb
  have hlen := hold.len_le
  refine hs.touch hb ⟨_, rfl⟩ rfl rfl (fun _ _ => rfl) rfl ?_ hold.len_nonneg ?_
  · dsimp only; omega
  · dsimp only; omega

/-- Writing cells alone. -/
theorem Sound.setBytes {m : Bytes} (hs : r.Sound) (hb : r.live b = some k) :
    (r.setBytes b m).Sound := by
  have hold := hs.handle b k hb
  exact hs.touch hb ⟨_, rfl⟩ rfl (Function.update_eq_self b r.head).symm
    (fun c hc => Function.update_of_ne hc ..) rfl rfl hold.len_nonneg hold.len_le

/-- The buffer appended may be the one that grows: its bytes are found again after that. -/
theorem Sound.bytesAppend (hs : r.Sound) (hd : r.live d = some .bytes)
    (hss : r.live s = some .bytes) (h : idBytesAppend d s r = .ok r') : r'.Sound := by
  obtain ⟨u, hmut, h⟩ := bind_ok h
  have hcap := mutCheck_ok hmut
  have hold := hs.handle d _ hd
  have h0 := hold.len_nonneg
  have hle := hold.len_le
  have hmax := hold.cap_le
  have hadd := (hs.handle s _ hss).len_nonneg
  have haddle := (hs.handle s _ hss).len_le
  have haddmax := (hs.handle s _ hss).cap_le
  split at h
  · cases h
  dsimp only at h
  split at h
  · obtain rfl := Except.ok.inj h
    exact hs
  split at h
  · cases h
  obtain ⟨g, hreserve, h⟩ := bind_ok h
  obtain rfl := Except.ok.inj h
  obtain ⟨hsound, hlive, hlen, hroom⟩ := hs.reserve hd hcap hreserve
  rw [sizeT_of_nonneg h0 (by omega), sizeT_of_nonneg hadd (by omega)] at hroom
  rw [sizeT_of_nonneg hadd (by omega)]
  refine hsound.touch (k := .bytes) (by rw [hlive, hd]) ⟨_, rfl⟩ rfl rfl
    (fun c hc => Function.update_of_ne hc ..) rfl rfl ?_ ?_
  · dsimp only; omega
  · dsimp only; omega

theorem setCells_sound {vs : List (Word × Nat)} (hs : r.Sound) (hb : r.live b = some .list) :
    (vs.foldl (fun r c => r.setCell .list b c.2 c.1.toNat) r).Sound := by
  induction vs generalizing r with
  | nil => exact hs
  | cons v vs ih => exact ih (r := r.setCell .list b v.2 v.1.toNat) (hs.setBytes hb) hb

/-- One operation keeps the invariant. -/
theorem Sound.step {guard : Bool} {o : Op} (hs : r.Sound) (hproper : o.Proper r)
    (h : r.step guard o = .ok r') : r'.Sound := by
  have hleast : Kind.least .list = 1 ∧ Kind.least .bytes = 8 := ⟨rfl, rfl⟩
  cases o with
  | listMake len cap =>
    obtain rfl := Except.ok.inj h
    obtain ⟨h0, hlen, hpos, hcap⟩ := hproper
    exact (hs.make h0 hlen (by omega) hcap rfl).1
  | listNew =>
    obtain rfl := Except.ok.inj h
    refine (hs.make ?_ ?_ ?_ ?_ (rfl : Hosted.make .list 0 4 r = _)).1 <;> decide
  | listSized n =>
    obtain rfl := Except.ok.inj h
    obtain ⟨h0, hmax⟩ := hproper
    refine (hs.make h0 ?_ ?_ ?_ rfl).1 <;> unfold intMax at * <;> split <;> omega
  | listLit vs =>
    obtain rfl := Except.ok.inj h
    have hmax : (vs.length : Int) ≤ intMax := hproper
    obtain ⟨b, g, hmake⟩ : ∃ b g, idListMake vs.length
        (if (vs.length : Int) < 1 then 4 else (vs.length : Int)) r = (b, g) := ⟨_, _, rfl⟩
    have hg := hs.make (by omega) (by split <;> omega) (by split <;> omega)
      (by unfold intMax at *; split <;> omega) hmake
    simp only [idListLit, hmake]
    exact setCells_sound hg.1 hg.2.1
  | listPush b v => exact hs.listPush hproper h
  | listPop b =>
    obtain ⟨⟨v, g⟩, hpop, rfl⟩ := map_ok h
    exact hs.listPop hproper hpop
  | listLock b =>
    obtain rfl := Except.ok.inj h
    exact hs.listLock hproper
  | listFree b => exact hs.giveBack hproper h
  | bytesMake len cap =>
    obtain rfl := Except.ok.inj h
    obtain ⟨h0, hlen, hpos, hcap⟩ := hproper
    exact (hs.make h0 hlen (by omega) hcap rfl).1
  | bytesNew n =>
    obtain ⟨⟨b, g⟩, hnew, rfl⟩ := map_ok h
    unfold idBytesNew at hnew
    split at hnew
    · cases hnew
    next hrange =>
    obtain ⟨c, f, hmake⟩ : ∃ c f, idBytesMake n (if n < 8 then 8 else n) r = (c, f) := ⟨_, _, rfl⟩
    have hf := hs.make (by omega) (by split <;> omega) (by split <;> omega)
      (by unfold intMax at *; split <;> omega) hmake
    simp only [hmake, Except.ok.injEq, Prod.mk.injEq] at hnew
    obtain ⟨rfl, rfl⟩ := hnew
    exact hf.1.setBytes hf.2.1
  | bytesPush b v => exact hs.bytesPush hproper h
  | bytesPop b =>
    obtain ⟨⟨v, g⟩, hpop, rfl⟩ := map_ok h
    exact hs.bytesPop hproper hpop
  | bytesAppend d s => exact hs.bytesAppend hproper.1 hproper.2 h
  | bytesFree b => exact hs.giveBack hproper h

theorem start_sound (mem : Block → Bytes) : (Runtime.start mem).Sound := by
  have hnot : ∀ c, ¬(Runtime.start mem).Out c := by
    rintro c ⟨b, hb, -⟩
    simp [Runtime.start] at hb
  constructor
  case pool => exact {
    taken_lt := fun b hb => absurd hb (hnot b)
    held_le := fun b hb => absurd hb (hnot b)
    small_room := fun b hb => absurd hb (hnot b)
    free_lt := fun _ _ hb => absurd hb List.not_mem_nil
    free_room := fun _ _ hb => absurd hb List.not_mem_nil
    free_apart := fun _ _ hb => absurd hb List.not_mem_nil
    free_once := fun _ => List.nodup_nil
    free_class := fun _ _ _ hb => absurd hb List.not_mem_nil
    given_fits := fun _ hc => absurd hc List.not_mem_nil }
  case one => simp [Runtime.start]
  case cells_ne => simp [Runtime.start]
  case handle => simp [Runtime.start]

/-- The invariant holds in every run. -/
theorem ran_sound {guard : Bool} (h : Ran guard r) : r.Sound := by
  induction h with
  | start mem => exact start_sound mem
  | step _ hproper hstep ih => exact ih.step hproper hstep

/-- The cells below the length lie in the block of the cells. -/
theorem Sound.cell_le (hs : r.Sound) (hb : r.live b = some k) {i : Nat}
    (hi : (i : Int) < (r.head b).len) :
    (r.cells b).2 + k.unit * (i + 1) ≤ r.pool.room (r.cells b).1 := by
  have hold := hs.handle b k hb
  have hle := hold.len_le
  have hheld := hs.pool.held_le _ ⟨b, some_of_live hb, holds_cells⟩
  have hmul : k.unit * (i + 1) ≤ k.unit * (r.head b).cap.natAbs :=
    Nat.mul_le_mul_left _ (by omega)
  refine Nat.le_trans ?_ hheld
  unfold cells
  split
  · next hdata =>
    rw [hold.own hdata]
    exact Nat.add_le_add_left hmul 16
  · next d hdata =>
    rw [(hold.apart d hdata).1, Nat.zero_add]
    exact hmul

end Runtime

/-- In every run each block goes back, or is resized, with a size of the class of its own or with a
large one where its own is large, and no cell below a length is outside its block. -/
theorem sizes_fit {guard : Bool} {r : Runtime} (h : Ran guard r) :
    (∀ c ∈ r.pool.given, c.Fits) ∧ ∀ b k, r.live b = some k → ∀ i : Nat,
      (i : Int) < (r.head b).len →
        (r.cells b).2 + k.unit * (i + 1) ≤ r.pool.room (r.cells b).1 :=
  ⟨(Runtime.ran_sound h).pool.given_fits, fun _ _ hb _ hi => (Runtime.ran_sound h).cell_le hb hi⟩

/-- A list of one cell, pushed to twice and freed: the block of four cells goes back, then the one
it was made in. -/
theorem sizes_fit_moved : ∃ r : Runtime, r.pool.given = [⟨32, 32⟩, ⟨24, 24⟩] ∧
    ∀ c ∈ r.pool.given, c.Fits := by
  have hmake := (Ran.start fun _ _ => 0 : Ran false _).step (o := .listMake 0 1)
    ⟨by decide, by decide, by decide, by decide⟩ rfl
  have hone := hmake.step (o := .listPush 0 7) rfl rfl
  have htwo := hone.step (o := .listPush 0 8) rfl rfl
  have hfree := htwo.step (o := .listFree 0) rfl rfl
  exact ⟨_, rfl, (sizes_fit hfree).1⟩

end IdCompiler.Hosted

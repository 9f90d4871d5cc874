import IdCompiler.Arena.Classes

/-!
# Blocks that become something else

A list is taken apart into a held header and held cells, changed while held, and put
together again. What an operation changed is given by the blocks it names.
-/

namespace IdCompiler.Arena

open IdCompiler.Core

variable {a : Nat} {m m' m'' : Bytes} {g g' : Layout} {b c d p x k : Nat} {u : Use}

/-! ## One block -/

/-- A block that is on no free list becomes `u`, where `u` is what its bytes say. -/
theorem Sound.turn (h : Sound a m g) (hn : g.use b ≠ .none) (hf : ∀ c, g.use b ≠ .free c)
    (huf : ∀ c, u ≠ .free c)
    (hcells : ∀ p, p ≠ b → g.use p = .header → ld64 m (p + 16) = b → u = .cells)
    (hhead : u = .header → Header m (g.turn b u) b ∧
      ∀ q, q ≠ b → g.use q = .header → ld64 m (q + 16) ≠ ld64 m (b + 16))
    (hstr : u = .str → Counted m g b) : Sound a m (g.turn b u) := by
  refine h.reshape (h.placed.reuse rfl rfl rfl) h.top_load rfl rfl ?_ (fun _ _ => rfl) ?_
    (fun _ _ => rfl) (fun _ _ _ => rfl) (fun _ _ => rfl) ?_ ?_ ?_
  · intro y c
    by_cases hy : y = b
    · rw [hy, turn_use]
      exact ⟨fun hu => absurd hu (huf c), fun hu => absurd hu (hf c)⟩
    · rw [turn_use_of_ne hy]
  · intro y hy
    by_cases hyb : y = b
    · rw [hyb]
      exact h.used b hn
    · rw [turn_use_of_ne hyb] at hy
      exact h.used y hy
  · intro q hq
    by_cases hqb : q = b
    · subst hqb
      rw [turn_use] at hq
      exact (hhead hq).1
    · rw [turn_use_of_ne hqb] at hq
      have hq' := h.heads q hq
      refine hq'.congr rfl (fun _ _ => rfl) (by rw [hq]; decide) rfl rfl rfl ?_
      by_cases hd : ld64 m (q + 16) = b
      · rw [hd, turn_use]
        exact hcells q hqb hq hd
      · rw [turn_use_of_ne hd]
        exact hq'.cells
  · intro q r hq hr heq
    by_cases hqb : q = b <;> by_cases hrb : r = b
    · rw [hqb, hrb]
    · subst hqb
      rw [turn_use] at hq
      rw [turn_use_of_ne hrb] at hr
      exact absurd heq.symm ((hhead hq).2 r hrb hr)
    · subst hrb
      rw [turn_use] at hr
      rw [turn_use_of_ne hqb] at hq
      exact absurd heq ((hhead hr).2 q hqb hq)
    · rw [turn_use_of_ne hqb] at hq
      rw [turn_use_of_ne hrb] at hr
      exact h.cells_inj q r hq hr heq
  · intro y hy
    by_cases hyb : y = b
    · subst hyb
      rw [turn_use] at hy
      exact hstr hy
    · rw [turn_use_of_ne hyb] at hy
      exact h.texts y hy

/-! ## A list -/

/-- The layout where the header `p` and the cells `d` are held. -/
def Layout.unlist (g : Layout) (p d : Nat) : Layout := (g.turn p .held).turn d .held

/-- The layout where `p` is a header with the cells `d`. -/
def Layout.relist (g : Layout) (p d : Nat) : Layout := (g.turn d .cells).turn p .header

theorem unlist_use_head : (g.unlist p d).use p = .held := by
  by_cases hpd : p = d
  · rw [Layout.unlist, hpd, turn_use]
  · rw [Layout.unlist, turn_use_of_ne hpd, turn_use]

theorem unlist_use_cells : (g.unlist p d).use d = .held := turn_use

theorem unlist_use_of_ne (hp : x ≠ p) (hd : x ≠ d) : (g.unlist p d).use x = g.use x := by
  rw [Layout.unlist, turn_use_of_ne hd, turn_use_of_ne hp]

theorem relist_use_head : (g.relist p d).use p = .header := turn_use

theorem relist_use_cells (h : d ≠ p) : (g.relist p d).use d = .cells := by
  rw [Layout.relist, turn_use_of_ne h, turn_use]

theorem relist_use_of_ne (hp : x ≠ p) (hd : x ≠ d) : (g.relist p d).use x = g.use x := by
  rw [Layout.relist, turn_use_of_ne hp, turn_use_of_ne hd]

/-- Put together again, the list is where it was. -/
theorem relist_unlist (hp : g.use p = .header) (hd : g.use d = .cells) :
    (g.unlist p d).relist p d = g := by
  have hne : d ≠ p := by
    rintro rfl
    exact Use.noConfusion (hp.symm.trans hd)
  ext x
  · rfl
  · rfl
  · by_cases hxp : x = p
    · rw [hxp, relist_use_head, hp]
    · by_cases hxd : x = d
      · rw [hxd, relist_use_cells hne, hd]
      · rw [relist_use_of_ne hxp hxd, unlist_use_of_ne hxp hxd]
  · rfl
  · rfl
  · rfl

/-- A list's header and cells are held. -/
theorem Sound.unlist (h : Sound a m g) (hp : g.use p = .header) :
    Sound a m (g.unlist p (ld64 m (p + 16))) := by
  have hd := (h.heads p hp).cells
  have hne : ld64 m (p + 16) ≠ p := fun he => by
    rw [he, hp] at hd
    exact Use.noConfusion hd
  have hfirst : Sound a m (g.turn p .held) := by
    refine h.turn (by rw [hp]; decide) (fun c => by rw [hp]; exact Use.noConfusion)
      (fun c => Use.noConfusion) ?_ Use.noConfusion Use.noConfusion
    intro q hqp hq hcells
    have hcells' := (h.heads q hq).cells
    rw [hcells, hp] at hcells'
    exact Use.noConfusion hcells'
  have hd' : (g.turn p .held).use (ld64 m (p + 16)) = .cells := by
    rw [turn_use_of_ne hne]
    exact hd
  refine hfirst.turn (by rw [hd']; decide) (fun c => by rw [hd']; exact Use.noConfusion)
    (fun c => Use.noConfusion) ?_ Use.noConfusion Use.noConfusion
  -- Only the list itself had these cells.
  intro q hqd hq hcells
  obtain ⟨hqp, hq⟩ := (turn_use_iff Use.noConfusion).mp hq
  exact absurd (h.cells_inj q p hq hp hcells) hqp

/-- A held header and held cells make a list. -/
theorem Sound.relist (h : Sound a m g) (hp : g.use p = .held) (hd : g.use d = .held) (hne : d ≠ p)
    (hown : 24 ≤ g.size p) (hcap : ∃ k, k + 1 < g.lim ∧ ld64 m (p + 8) = 4 * 2 ^ k)
    (hlen : ld64 m p ≤ ld64 m (p + 8)) (hcells : ld64 m (p + 16) = d)
    (hroom : 8 * ld64 m (p + 8) ≤ g.size d) : Sound a m (g.relist p d) := by
  have hnot : ∀ q, g.use q = .header → ld64 m (q + 16) ≠ d := by
    intro q hq hqd
    have hcells' := (h.heads q hq).cells
    rw [hqd, hd] at hcells'
    exact Use.noConfusion hcells'
  have hfirst : Sound a m (g.turn d .cells) :=
    h.turn (by rw [hd]; decide) (fun c => by rw [hd]; exact Use.noConfusion)
      (fun c => Use.noConfusion) (fun _ _ _ _ => rfl) Use.noConfusion Use.noConfusion
  have hp' : (g.turn d .cells).use p = .held := by
    rw [turn_use_of_ne hne.symm, hp]
  refine hfirst.turn (by rw [hp']; decide) (fun c => by rw [hp']; exact Use.noConfusion)
    (fun c => Use.noConfusion) ?_ (fun _ => ⟨?_, ?_⟩) Use.noConfusion
  · intro q hqp hq hqc
    have hcells' := (hfirst.heads q hq).cells
    rw [hqc, hp'] at hcells'
    exact Use.noConfusion hcells'
  · refine ⟨hown, hcap, hlen, ?_, ?_⟩
    · rw [hcells]
      exact relist_use_cells hne
    · rw [hcells]
      exact hroom
  · intro q hqp hq
    rw [hcells]
    exact hnot q ((turn_use_iff Use.noConfusion).mp hq).2

/-! ## What an operation changed -/

theorem forall_one {P : Nat → Prop} (hx : P x) : ∀ y ∈ [x], P y :=
  List.forall_mem_singleton.mpr hx

theorem forall_two {P : Nat → Prop} (hx : P x) (hp : P p) : ∀ y ∈ [x, p], P y :=
  List.forall_mem_cons.mpr ⟨hx, forall_one hp⟩

theorem forall_three {P : Nat → Prop} (hx : P x) (hp : P p) (hd : P d) : ∀ y ∈ [x, p, d], P y :=
  List.forall_mem_cons.mpr ⟨hx, forall_two hp hd⟩

/-- Only the bump pointer, the heads and the blocks `ys` differ. -/
def Except (a : Nat) (g : Layout) (ys : List Nat) (m m' : Bytes) : Prop :=
  ∀ i, (i < a ∨ a + 648 ≤ i) → (∀ y ∈ ys, i < y ∨ y + g.size y ≤ i) → m' i = m i

/-- From one state of the arena to another, where only the blocks `ys` have changed. -/
structure Change (a : Nat) (ys : List Nat) (g g' : Layout) (m m' : Bytes) : Prop where
  sound : Sound a m' g'
  use : ∀ x, x ∉ ys → g'.use x = g.use x
  live : ∀ x, g.use x ≠ .none → g'.use x ≠ .none
  size : ∀ x, g.use x ≠ .none → g'.size x = g.size x
  grow : ∀ x, g.size x ≤ g'.size x
  lim : g'.lim = g.lim
  top : g.top ≤ g'.top
  raw : g'.raw = g.raw
  bytes : Except a g' ys m m'

namespace Change

variable {g'' : Layout} {ys zs : List Nat}

theorem mono (h : Change a ys g g' m m') (hsub : ∀ y ∈ ys, y ∈ zs) : Change a zs g g' m m' where
  sound := h.sound
  use x hx := h.use x fun hy => hx (hsub x hy)
  live := h.live
  size := h.size
  grow := h.grow
  lim := h.lim
  top := h.top
  raw := h.raw
  bytes i hi hz := h.bytes i hi fun y hy => hz y (hsub y hy)

theorem trans (h : Change a ys g g' m m') (h' : Change a ys g' g'' m' m'') :
    Change a ys g g'' m m'' where
  sound := h'.sound
  use x hx := (h'.use x hx).trans (h.use x hx)
  live x hx := h'.live x (h.live x hx)
  size x hx := (h'.size x (h.live x hx)).trans (h.size x hx)
  grow x := (h.grow x).trans (h'.grow x)
  lim := h'.lim.trans h.lim
  top := h.top.trans h'.top
  raw := h'.raw.trans h.raw
  bytes i hi hy := (h'.bytes i hi hy).trans (h.bytes i hi fun y hmem => by
    have hgrow := h'.grow y
    have hout := hy y hmem
    omega)

/-- Before the arena and after its blocks nothing changes. -/
theorem outside (h : Change a ys g g' m m') (hys : ∀ y ∈ ys, g'.use y ≠ .none) {i : Nat}
    (hi : i < a ∨ g'.top ≤ i) : m' i = m i := by
  have hge := h.sound.placed.top_ge
  refine h.bytes i (by omega) fun y hy => ?_
  have hin := h.sound.placed.inside y (h.sound.used y (hys y hy))
  omega

/-- Another block is as it was. -/
theorem kept (h : Change a ys g g' m m') (hys : ∀ y ∈ ys, g'.use y ≠ .none)
    (hx : g.use x ≠ .none) (hxy : x ∉ ys) {i : Nat} (hge : x ≤ i) (hlt : i < x + g.size x) :
    m' i = m i := by
  have hx' := h.live x hx
  have hblock := h.sound.block_ge hx'
  have hsize := h.size x hx
  refine h.bytes i (.inr (by omega)) fun y hy => ?_
  have hapart := h.sound.apart_of_ne (hys y hy) hx' (fun he => hxy (he ▸ hy))
  unfold Apart at hapart
  omega

theorem load (h : Change a ys g g' m m') (hys : ∀ y ∈ ys, g'.use y ≠ .none)
    (hx : g.use x ≠ .none) (hxy : x ∉ ys) (hk : k + 8 ≤ g.size x) :
    ld64 m' (x + k) = ld64 m (x + k) :=
  Bytes.load_congr fun i hge hlt => h.kept hys hx hxy (by omega) (by omega)

end Change

/-! ## The parts of an operation -/

/-- Writing in a block of which nothing is read again. -/
theorem Sound.fill (h : Sound a m g) (hb : g.use b ≠ .none) (hk : (g.use b).kept = 0)
    (hw : Within g b m m') : Change a [b] g g m m' where
  sound := h.frame (h.frame_of_within hb hk hw)
  use _ _ := rfl
  live _ hx := hx
  size _ _ := rfl
  grow _ := Nat.le_refl _
  lim := rfl
  top := Nat.le_refl _
  raw := rfl
  bytes i _ hy := hw i (hy b List.mem_cons_self)

theorem Sound.write (h : Sound a m g) (hb : g.use b = .held) (hw : Within g b m m') :
    Change a [b] g g m m' :=
  h.fill (by rw [hb]; decide) (by rw [hb]; rfl) hw

/-- A block becoming something else. -/
theorem Sound.turned (h : Sound a m (g.turn b u)) (hu : u ≠ .none) : Change a [b] g (g.turn b u) m m where
  sound := h
  use x hx := turn_use_of_ne fun he => hx (by rw [he]; exact List.mem_cons_self)
  live x hx := by
    by_cases hxb : x = b
    · rw [hxb, turn_use]
      exact hu
    · rwa [turn_use_of_ne hxb]
  size _ _ := rfl
  grow _ := Nat.le_refl _
  lim := rfl
  top := Nat.le_refl _
  raw := rfl
  bytes _ _ _ := rfl

theorem Sound.unlisted (h : Sound a m g) (hp : g.use p = .header) :
    Change a [p, ld64 m (p + 16)] g (g.unlist p (ld64 m (p + 16))) m m where
  sound := h.unlist hp
  use x hx := by
    rw [List.mem_pair, not_or] at hx
    exact unlist_use_of_ne hx.1 hx.2
  live x hx := by
    by_cases hxp : x = p
    · rw [hxp, unlist_use_head]
      decide
    · by_cases hxd : x = ld64 m (p + 16)
      · rw [hxd, unlist_use_cells]
        decide
      · rwa [unlist_use_of_ne hxp hxd]
  size _ _ := rfl
  grow _ := Nat.le_refl _
  lim := rfl
  top := Nat.le_refl _
  raw := rfl
  bytes _ _ _ := rfl

theorem Sound.relisted (h : Sound a m (g.relist p d)) (hne : d ≠ p) :
    Change a [p, d] g (g.relist p d) m m where
  sound := h
  use x hx := by
    rw [List.mem_pair, not_or] at hx
    exact relist_use_of_ne hx.1 hx.2
  live x hx := by
    by_cases hxp : x = p
    · rw [hxp, relist_use_head]
      decide
    · by_cases hxd : x = d
      · rw [hxd, relist_use_cells hne]
        decide
      · rwa [relist_use_of_ne hxp hxd]
  size _ _ := rfl
  grow _ := Nat.le_refl _
  lim := rfl
  top := Nat.le_refl _
  raw := rfl
  bytes _ _ _ := rfl

/-- Taking a block. -/
theorem Taken.change (ht : Taken g g' c b) (h : Sound a m' g')
    (hoff : OffTable a m m') : Change a [b] g g' m m' where
  sound := h
  use x hx := by
    rw [ht.use, turn_use_of_ne fun he => hx (by rw [he]; exact List.mem_cons_self)]
  live x hx := by
    rw [ht.use]
    by_cases hxb : x = b
    · rw [hxb, turn_use]
      decide
    · rwa [turn_use_of_ne hxb]
  size := ht.size
  grow := ht.grow
  lim := ht.lim
  top := ht.top
  raw := ht.raw
  bytes i hi _ := hoff i hi

/-- Giving a block back. -/
theorem Sound.given (h : Sound a m g) (hb : g.use b = .held) (hc : c < 80)
    (hroom : handOut g.lim c ≤ g.size b) (hmark : c = 0 → ld64 m (b + 8) = minusOne) :
    Change a [b] g (g.give b c) m (Arena.poolGive a m c b) where
  sound := h.poolGive hb hc hroom hmark
  use x hx := give_use_of_ne fun he => hx (by rw [he]; exact List.mem_cons_self)
  live x hx := by
    by_cases hxb : x = b
    · rw [hxb, give_use]
      exact Use.noConfusion
    · rwa [give_use_of_ne hxb]
  size _ _ := rfl
  grow _ := Nat.le_refl _
  lim := rfl
  top := Nat.le_refl _
  raw := rfl
  bytes i hi hy := by
    have hpos := handOut_ge g.lim c
    have hout := hy b List.mem_cons_self
    change i < b ∨ b + g.size b ≤ i at hout
    exact h.poolGive_apart hc hi (by omega)

end IdCompiler.Arena

import IdCompiler.Arena.Layout

/-!
# Taking a block and giving it back

The bump pointer gives a block that lies after all others; a free list gives its first
block. Either way the block is held, and nothing outside the heads has changed. A held
block goes back to any class that hands out no more than its size.
-/

namespace IdCompiler.Arena

open IdCompiler.Core

variable {a : Nat} {m m' : Bytes} {g g' : Layout} {b c p z : Nat}

/-- Only the bump pointer and the heads differ. -/
def OffTable (a : Nat) (m m' : Bytes) : Prop := ∀ i, i < a ∨ a + 648 ≤ i → m' i = m i

theorem OffTable.load (h : OffTable a m m') {x : Nat} (hx : a + 648 ≤ x) : ld64 m' x = ld64 m x :=
  Bytes.load_congr fun i hge hlt => h i (.inr (by omega))

theorem OffTable.trans {m'' : Bytes} (h : OffTable a m m') (h' : OffTable a m' m'') :
    OffTable a m m'' := fun i hi => (h' i hi).trans (h i hi)

theorem ld64_st64 {x v : Nat} (h : v < 2 ^ 64) : ld64 (st64 m x v) x = v := by
  rw [ld64, st64, Bytes.load_store]
  exact Nat.mod_eq_of_lt h

theorem ld64_st64_apart {x y v : Nat} (h : y + 8 ≤ x ∨ x + 8 ≤ y) :
    ld64 (st64 m x v) y = ld64 m y :=
  Bytes.load_store_apart h

theorem ld64_lt (m : Bytes) (x : Nat) : ld64 m x < 2 ^ 64 := Bytes.load_lt

theorem st64_apart {x v i : Nat} (h : i < x ∨ x + 8 ≤ i) : st64 m x v i = m i :=
  h.elim Bytes.store_of_lt Bytes.store_of_ge

/-! ## The bump pointer -/

theorem align_eq (h : z + 7 < 2 ^ 64) : align z = (z + 7) / 8 * 8 := by
  have hmask : (0xfffffffffffffff8#64 : BitVec 64) = ~~~7#64 := by decide
  rw [align, hmask, Word.toNat_and_align, BitVec.toNat_ofNat, Nat.mod_eq_of_lt h]

theorem Sound.arenaTop (h : Sound a m g) : arenaTop a m = (g.top, m) := by
  have hpos := h.placed.top_ge
  rw [Arena.arenaTop, h.top_load, if_neg (by omega)]

/-- The pointer goes up by the size, aligned. -/
theorem Sound.memAlloc (h : Sound a m g) (ht : memAlloc a m z = some (p, m')) :
    p = g.top ∧ m' = st64 m a (g.top + align z) ∧ g.top + align z < 2 ^ 64 ∧
      align z = (z + 7) / 8 * 8 := by
  rw [Arena.memAlloc, h.arenaTop] at ht
  dsimp only at ht
  split at ht
  · next hlt =>
    cases ht
    have halign := align_eq (z := z) (by omega)
    exact ⟨rfl, rfl, by omega, halign⟩
  · cases ht

/-- The pointer moved, with more room given away after the blocks. -/
theorem Sound.bump (h : Sound a m g) (hplaced : Placed a g') (huse : g'.use = g.use)
    (hlim : g'.lim = g.lim) (hchain : g'.chain = g.chain)
    (hsize : ∀ b, g.use b ≠ .none → g'.size b = g.size b) : Sound a (st64 m a g'.top) g' := by
  have hlt : g'.top < 2 ^ 64 := hplaced.top_lt
  have hblock : ∀ b, g.use b ≠ .none → ∀ k, ld64 (st64 m a g'.top) (b + k) = ld64 m (b + k) :=
    fun b hb k => by
      have hge := h.block_ge hb
      exact ld64_st64_apart (.inr (by omega))
  have hheader : ∀ p, g.use p = .header → g.use p ≠ .none := fun p hp => by rw [hp]; decide
  refine h.reshape hplaced (ld64_st64 hlt) hlim hchain (fun b c => by rw [huse]) hsize ?_
    (fun c hc => ld64_st64_apart (.inr (by omega))) ?_ ?_ ?_ ?_ ?_
  · intro b hb
    rw [huse] at hb
    rw [hsize b hb]
    exact h.used b hb
  · intro b c hb
    exact hblock b (by rw [hb]; exact Use.noConfusion) 0
  · intro b hb
    exact hblock b (by rw [hb]; exact Use.noConfusion) 8
  · intro p hp
    rw [huse] at hp
    have hn := hheader p hp
    exact (h.heads p hp).congr hlim hsize hn (hblock p hn 0) (hblock p hn 8) (hblock p hn 16)
      (huse ▸ (h.heads p hp).cells)
  · intro p q hp hq heq
    rw [huse] at hp hq
    rw [hblock p (hheader p hp) 16, hblock q (hheader q hq) 16] at heq
    exact h.cells_inj p q hp hq heq
  · intro b hb
    rw [huse] at hb
    have hn : g.use b ≠ .none := fun hn => Use.noConfusion (hb.symm.trans hn)
    have hload : ld64 (st64 m a g'.top) b = ld64 m b := hblock b hn 0
    obtain ⟨h36, c, hc, hroom⟩ := h.texts b hb
    refine ⟨hlim.trans h36, c, ?_, ?_⟩
    · rw [hload]
      exact hc
    · rw [hsize b hn, hlim]
      exact hroom

/-- A block with no use yet is held. -/
theorem Sound.hold (h : Sound a m g) (hb : g.use b = .none) (hsize : 0 < g.size b) :
    Sound a m (g.turn b .held) := by
  refine h.reshape (h.placed.reuse rfl rfl rfl) h.top_load rfl rfl ?_ (fun _ _ => rfl) ?_
    (fun _ _ => rfl) (fun _ _ _ => rfl) (fun _ _ => rfl) ?_ ?_ ?_
  · intro x c
    rw [turn_use_iff Use.noConfusion]
    refine ⟨And.right, fun hx => ⟨?_, hx⟩⟩
    rintro rfl
    exact Use.noConfusion (hx.symm.trans hb)
  · intro x hx
    by_cases hxb : x = b
    · rw [hxb]
      exact hsize
    · rw [turn_use_of_ne hxb] at hx
      exact h.used x hx
  · intro p hp
    have hp := ((turn_use_iff Use.noConfusion).mp hp).2
    have hcells := (h.heads p hp).cells
    exact (h.heads p hp).congr rfl (fun _ _ => rfl) (by rw [hp]; decide) rfl rfl rfl
      (turn_use_keep hcells (by rw [hb]; decide))
  · intro p q hp hq heq
    have hp := ((turn_use_iff Use.noConfusion).mp hp).2
    have hq := ((turn_use_iff Use.noConfusion).mp hq).2
    exact h.cells_inj p q hp hq heq
  · intro x hx
    exact h.texts x ((turn_use_iff Use.noConfusion).mp hx).2

/-- A block right after all others. -/
theorem Placed.block (h : Placed a g) {n : Nat} (hlt : g.top + n < 2 ^ 64) :
    Placed a (g.block n) := by
  have hold : ∀ {x}, 0 < g.size x → x + g.size x ≤ g.top := fun {x} hx => (h.inside x hx).2
  have hcase : ∀ x, 0 < (g.block n).size x →
      x = g.top ∧ (g.block n).size x = n ∨ (g.block n).size x = g.size x ∧ 0 < g.size x := by
    intro x hx
    by_cases hxt : x = g.top
    · exact .inl ⟨hxt, by rw [hxt, block_size]⟩
    · rw [block_size_of_ne hxt] at hx ⊢
      exact .inr ⟨rfl, hx⟩
  have hge := h.top_ge
  constructor
  case top_ge => exact Nat.le_add_right_of_le hge
  case top_lt => exact hlt
  case inside =>
    intro x hx
    rw [block_top]
    obtain ⟨hxt, hs⟩ | ⟨hs, hpos⟩ := hcase x hx
    · rw [hs, hxt]
      exact ⟨hge, Nat.le_refl _⟩
    · rw [hs]
      have hin := h.inside x hpos
      exact ⟨hin.1, Nat.le_add_right_of_le hin.2⟩
  case apart =>
    intro x y hx hy hne
    obtain ⟨hxt, hxs⟩ | ⟨hxs, hxpos⟩ := hcase x hx <;>
      obtain ⟨hyt, hys⟩ | ⟨hys, hypos⟩ := hcase y hy <;> rw [hxs, hys]
    · exact absurd (hxt.trans hyt.symm) hne
    · rw [hxt]
      exact .inr (hold hypos)
    · rw [hyt]
      exact .inl (hold hxpos)
    · exact h.apart x y hxpos hypos hne
  case raw_inside =>
    intro r hr
    have hin := h.raw_inside r hr
    exact ⟨hin.1, Nat.le_add_right_of_le hin.2⟩
  case raw_apart =>
    intro r hr x hx
    obtain ⟨hxt, hs⟩ | ⟨hs, hpos⟩ := hcase x hx <;> rw [hs]
    · rw [hxt]
      exact .inl (h.raw_inside r hr).2
    · exact h.raw_apart r hr x hpos
  case raw_pair => exact h.raw_pair

/-- A region of the program right after all others. -/
theorem Placed.region (h : Placed a g) {n : Nat} (hlt : g.top + n < 2 ^ 64) :
    Placed a (g.region n) := by
  have hge := h.top_ge
  constructor
  case top_ge => exact Nat.le_add_right_of_le hge
  case top_lt => exact hlt
  case inside =>
    intro x hx
    have hin := h.inside x hx
    exact ⟨hin.1, Nat.le_add_right_of_le hin.2⟩
  case apart => exact h.apart
  case raw_inside =>
    intro r hr
    rcases List.mem_cons.mp hr with rfl | hr
    · exact ⟨hge, Nat.le_refl _⟩
    · have hin := h.raw_inside r hr
      exact ⟨hin.1, Nat.le_add_right_of_le hin.2⟩
  case raw_apart =>
    intro r hr x hx
    rcases List.mem_cons.mp hr with rfl | hr
    · exact .inr (h.inside x hx).2
    · exact h.raw_apart r hr x hx
  case raw_pair =>
    refine List.pairwise_cons.mpr ⟨fun r hr => ?_, h.raw_pair⟩
    exact .inr (h.raw_inside r hr).2

/-- No block starts at the bump pointer. -/
theorem Sound.use_top (h : Sound a m g) : g.use g.top = .none := by
  by_contra hne
  have hpos := h.used g.top hne
  have hin := h.placed.inside g.top hpos
  omega

/-- The head of class `c` set, and the block `b` moved to its chain or off it. -/
theorem Sound.relink (h : Sound a m g) (hc : c < 80) {x : Nat} {u : Use} {l : List Nat}
    (hx : x < 2 ^ 64) (hold : g.use b = .held ∨ g.use b = .free c)
    (hu : u = .held ∨ u = .free c) (hlinks : Links m x l) (hnodup : l.Nodup)
    (hmem : ∀ y, y ∈ l ↔ (g.turn b u).use y = .free c)
    (hroom : u = .free c → handOut g.lim c ≤ g.size b)
    (hmark : u = .free 0 → ld64 m (b + 8) = minusOne) :
    Sound a (st64 m (a + 8 + c * 8) x) ((g.turn b u).rechain c l) := by
  have hbn : g.use b ≠ .none := by rcases hold with hold | hold <;> rw [hold] <;> exact Use.noConfusion
  -- Neither the first words nor the headers lie in the table.
  have hblock : ∀ y, g.use y ≠ .none → ∀ k,
      ld64 (st64 m (a + 8 + c * 8) x) (y + k) = ld64 m (y + k) := fun y hy k => by
    have hge := h.block_ge hy
    exact ld64_st64_apart (.inr (by omega))
  have hsame : ∀ y v, v ≠ .held → v ≠ .free c → ((g.turn b u).use y = v ↔ g.use y = v) := by
    intro y v hvh hvc
    rw [turn_use_iff (by rcases hu with hu | hu <;> rw [hu] <;> assumption)]
    refine ⟨And.right, fun hy => ⟨?_, hy⟩⟩
    rintro rfl
    rcases hold with hold | hold
    · exact hvh (hy.symm.trans hold)
    · exact hvc (hy.symm.trans hold)
  have hfree : ∀ y d, (g.turn b u).use y = .free d → g.use y ≠ .none := by
    intro y d hy
    by_cases hyb : y = b
    · rwa [hyb]
    · rw [turn_use_of_ne hyb] at hy
      rw [hy]
      exact Use.noConfusion
  constructor
  case placed => exact h.placed.reuse rfl rfl rfl
  case lim => exact h.lim
  case top_load =>
    show ld64 (st64 m (a + 8 + c * 8) x) a = g.top
    rw [ld64_st64_apart (.inl (by omega)), h.top_load]
  case used =>
    intro y hy
    show 0 < g.size y
    by_cases hyb : y = b
    · rw [hyb]
      exact h.used b hbn
    · rw [rechain_use, turn_use_of_ne hyb] at hy
      exact h.used y hy
  case links =>
    intro d hd
    by_cases hdc : d = c
    · subst hdc
      rw [ld64_st64 hx, rechain_chain]
      exact hlinks.transport fun y hy => hblock y (hfree y d ((hmem y).mp hy)) 0
    · rw [ld64_st64_apart (by omega), rechain_chain_of_ne hdc]
      refine (h.links d hd).transport fun y hy => hblock y ?_ 0
      rw [(h.free d hd y).mp hy]
      exact Use.noConfusion
  case nodup =>
    intro d hd
    by_cases hdc : d = c
    · rwa [hdc, rechain_chain]
    · rw [rechain_chain_of_ne hdc]
      exact h.nodup d hd
  case free =>
    intro d hd y
    by_cases hdc : d = c
    · rw [hdc, rechain_chain]
      exact hmem y
    · rw [rechain_chain_of_ne hdc, rechain_use, hsame y (.free d) Use.noConfusion (by simpa using hdc)]
      exact h.free d hd y
  case room =>
    intro y d hy
    show d < 80 ∧ handOut g.lim d ≤ g.size y
    by_cases hyb : y = b
    · subst hyb
      rw [rechain_use, turn_use] at hy
      have hdc : d = c := by
        rcases hu with hu | hu
        · exact Use.noConfusion (hy.symm.trans hu)
        · injection hy.symm.trans hu
      subst hdc
      exact ⟨hc, hroom hy⟩
    · rw [rechain_use, turn_use_of_ne hyb] at hy
      exact h.room y d hy
  case mark =>
    intro y hy
    rw [hblock y (hfree y 0 hy) 8]
    by_cases hyb : y = b
    · subst hyb
      rw [rechain_use, turn_use] at hy
      exact hmark hy
    · rw [rechain_use, turn_use_of_ne hyb] at hy
      exact h.mark y hy
  case heads =>
    intro p hp
    have hp := (hsame p .header Use.noConfusion Use.noConfusion).mp hp
    have hn : g.use p ≠ .none := by rw [hp]; exact Use.noConfusion
    have hcells := (hsame _ .cells Use.noConfusion Use.noConfusion).mpr (h.heads p hp).cells
    have hcells : ((g.turn b u).rechain c l).use (ld64 m (p + 16)) = .cells := by
      rw [rechain_use]
      exact hcells
    exact (h.heads p hp).congr rfl (fun _ _ => rfl) hn (hblock p hn 0) (hblock p hn 8)
      (hblock p hn 16) hcells
  case cells_inj =>
    intro p q hp hq heq
    have hp := (hsame p .header Use.noConfusion Use.noConfusion).mp hp
    have hq := (hsame q .header Use.noConfusion Use.noConfusion).mp hq
    rw [hblock p (by rw [hp]; exact Use.noConfusion) 16,
      hblock q (by rw [hq]; exact Use.noConfusion) 16] at heq
    exact h.cells_inj p q hp hq heq
  case texts =>
    intro y hy
    have hy := (hsame y .str Use.noConfusion Use.noConfusion).mp hy
    have hn : g.use y ≠ .none := by rw [hy]; exact Use.noConfusion
    have hload : ld64 (st64 m (a + 8 + c * 8) x) y = ld64 m y := hblock y hn 0
    unfold Counted
    rw [hload]
    exact h.texts y hy

/-! ## Both ways of taking a block -/

/-- The block `b` was free in class `c`, or new, and is held. -/
structure Taken (g g' : Layout) (c b : Nat) : Prop where
  was : g.use b = .none ∨ g.use b = .free c
  use : g'.use = (g.turn b .held).use
  size : ∀ y, g.use y ≠ .none → g'.size y = g.size y
  grow : ∀ y, g.size y ≤ g'.size y
  lim : g'.lim = g.lim
  top : g.top ≤ g'.top
  room : handOut g.lim c ≤ g'.size b
  raw : g'.raw = g.raw

/-- The head of a class. -/
theorem Sound.poolHead (h : Sound a m g) : poolHead a m c = (a + 8 + c * 8, m) := by
  rw [Arena.poolHead, h.arenaTop]

theorem st64_head (hc : c < 80) {v : Nat} : OffTable a m (st64 m (a + 8 + c * 8) v) :=
  fun i hi => st64_apart (by omega)

/-- An empty list: the block comes from the bump pointer. -/
theorem Sound.takeNew (h : Sound a m g) (hz : handOut g.lim c ≤ z) (ht : Arena.memAlloc a m z = some (b, m')) :
    ∃ g', Sound a m' g' ∧ Taken g g' c b ∧ OffTable a m m' := by
  obtain ⟨rfl, rfl, hlt, halign⟩ := h.memAlloc ht
  have hpos := handOut_ge g.lim c
  have hnone := h.use_top
  have hsize : ∀ y, g.use y ≠ .none → (g.block (align z)).size y = g.size y := by
    intro y hy
    apply block_size_of_ne
    rintro rfl
    exact hy hnone
  have hbump := h.bump (h.placed.block hlt) rfl rfl rfl hsize
  have hroom : handOut g.lim c ≤ (g.block (align z)).size g.top := by
    rw [block_size]
    omega
  refine ⟨(g.block (align z)).turn g.top .held, hbump.hold hnone (by omega), ?_, ?_⟩
  · refine ⟨.inl hnone, rfl, hsize, fun y => ?_, rfl,
      Nat.le_add_right _ _, hroom, rfl⟩
    by_cases hy : y = g.top
    · have hzero : ¬0 < g.size y := fun hpos => by
        have hin := h.placed.inside y hpos
        omega
      exact Nat.le_of_not_lt fun hlt => hzero (Nat.zero_lt_of_lt hlt)
    · exact (block_size_of_ne hy).ge
  · exact fun i hi => st64_apart (by omega)

/-- The first block of a chain. -/
theorem Sound.takeFree (h : Sound a m g) (hc : c < 80) (hb : ld64 m (a + 8 + c * 8) ≠ 0) :
    ∃ g', Sound a (st64 m (a + 8 + c * 8) (ld64 m (ld64 m (a + 8 + c * 8)))) g' ∧
      Taken g g' c (ld64 m (a + 8 + c * 8)) := by
  obtain ⟨t, hchain, hlinks⟩ := (h.links c hc).exists_cons hb
  have hnodup := h.nodup c hc
  rw [hchain, List.nodup_cons] at hnodup
  have hfree := (h.free c hc (ld64 m (a + 8 + c * 8))).mp (by rw [hchain]; exact List.mem_cons_self)
  refine ⟨_, h.relink (u := .held) hc (ld64_lt ..) (.inr hfree) (.inl rfl) hlinks hnodup.2 ?_
    Use.noConfusion Use.noConfusion, ?_⟩
  · intro y
    rw [turn_use_iff Use.noConfusion, ← h.free c hc y, hchain, List.mem_cons]
    constructor
    · intro hy
      exact ⟨fun hyb => hnodup.1 (hyb ▸ hy), .inr hy⟩
    · rintro ⟨hne, hy | hy⟩
      · exact absurd hy hne
      · exact hy
  · exact ⟨.inr hfree, rfl, fun _ _ => rfl, fun _ => Nat.le_refl _, rfl,
    Nat.le_refl _, (h.room _ c hfree).2, rfl⟩

/-- A block of at least what its class hands out is held. -/
theorem Sound.poolTake (h : Sound a m g) (hc : c < 80) (hz : handOut g.lim c ≤ z)
    (ht : Arena.poolTake a m c z = some (b, m')) :
    ∃ g', Sound a m' g' ∧ Taken g g' c b ∧ OffTable a m m' := by
  rw [Arena.poolTake, h.poolHead] at ht
  dsimp only at ht
  unfold poolNext at ht
  split at ht
  · exact h.takeNew hz ht
  · next hb =>
    obtain ⟨rfl, rfl⟩ := Prod.mk.inj (Option.some.inj ht)
    obtain ⟨g', hsound, htaken⟩ := h.takeFree hc hb
    exact ⟨g', hsound, htaken, st64_head hc⟩

/-- A held block goes to the front of a chain. -/
theorem Sound.poolGive (h : Sound a m g) (hb : g.use b = .held) (hc : c < 80)
    (hroom : handOut g.lim c ≤ g.size b) (hmark : c = 0 → ld64 m (b + 8) = minusOne) :
    Sound a (Arena.poolGive a m c b) (g.give b c) := by
  have hbn : g.use b ≠ .none := by rw [hb]; exact Use.noConfusion
  have hge := h.block_ge hbn
  have hpos := handOut_ge g.lim c
  have hlt : b < 2 ^ 64 := by
    have hin := h.placed.inside b (h.used b hbn)
    have htop := h.placed.top_lt
    omega
  -- The link is written in the held block, where nothing is read again.
  have hlink : Sound a (st64 m b (ld64 m (a + 8 + c * 8))) g :=
    h.frame (h.frame_of_within hbn (by rw [hb]; rfl) fun i hi => st64_apart (by omega))
  have hmem : b ∉ g.chain c := fun hin => Use.noConfusion (hb.symm.trans ((h.free c hc b).mp hin))
  rw [Arena.poolGive, h.poolHead]
  refine hlink.relink hc hlt (.inl hb) (.inr rfl) ⟨rfl, by omega, ?_⟩
    (List.nodup_cons.mpr ⟨hmem, h.nodup c hc⟩) ?_ (fun _ => hroom) ?_
  · have hstart := hlink.links c hc
    rw [ld64_st64_apart (by omega)] at hstart
    change Links _ (ld64 _ b) _
    rw [ld64_st64 (ld64_lt ..)]
    exact hstart
  · intro y
    by_cases hyb : y = b
    · subst hyb
      rw [turn_use]
      exact ⟨fun _ => rfl, fun _ => List.mem_cons_self⟩
    · rw [turn_use_of_ne hyb, List.mem_cons, h.free c hc y]
      exact ⟨fun hy => hy.resolve_left hyb, .inr⟩
  · intro hu
    rw [ld64_st64_apart (by omega)]
    exact hmark (Use.free.inj hu)

/-- Outside the table and the block's first word nothing changes. -/
theorem Sound.poolGive_apart (h : Sound a m g) (hc : c < 80) {i : Nat} (hi : i < a ∨ a + 648 ≤ i)
    (hb : i < b ∨ b + 8 ≤ i) : Arena.poolGive a m c b i = m i := by
  rw [Arena.poolGive, h.poolHead]
  exact (st64_head hc i hi).trans (st64_apart hb)

end IdCompiler.Arena

import IdCompiler.Arena.Run

/-!
# The regions of what is live

After every run what is live has bytes of its own, and the free lists hold only what is
not live.
-/

namespace IdCompiler.Arena

open IdCompiler.Core Relation

variable {a : Nat} {s : State} {g : Layout} {m : Bytes}

/-- Headers, cells, strings and the regions of `mem_alloc`. -/
def regions (s : State) : List (Nat × Nat) :=
  (s.lists.map fun p => (p, 24)) ++
    ((s.lists.map fun p => (ld64 s.mem (p + 16), 8 * ld64 s.mem (p + 8))) ++
      ((s.strs.map fun t => (t.1, t.2 + 9)) ++ s.raws))

/-- What is live has bytes of its own in the arena, and each free list is a finite chain of
blocks that are not live, with all the bytes that the class hands out. -/
structure Orderly (a : Nat) (s : State) : Prop where
  apart : (regions s).Pairwise fun r t => Apart r.1 r.2 t.1 t.2
  inside : ∀ r ∈ regions s, a + 648 ≤ r.1 ∧ r.1 + r.2 ≤ ld64 s.mem a
  chains : ld64 s.mem a ≠ 0 → ∀ c < 80, ∃ l, Links s.mem (ld64 s.mem (a + 8 + c * 8)) l ∧ l.Nodup ∧
    ∀ b ∈ l, a + 648 ≤ b ∧ b + handOut 36 c ≤ ld64 s.mem a ∧
      ∀ r ∈ regions s, Apart b (handOut 36 c) r.1 r.2
  free_apart : ∀ c < 80, ∀ d < 80, ∀ l k, Links s.mem (ld64 s.mem (a + 8 + c * 8)) l →
    Links s.mem (ld64 s.mem (a + 8 + d * 8)) k → ld64 s.mem a ≠ 0 →
      ∀ x ∈ l, ∀ y ∈ k, x ≠ y ∨ c ≠ d → Apart x (handOut 36 c) y (handOut 36 d)

/-- Parts of two blocks. -/
theorem Sound.apart_parts {x y n k : Nat} (h : Sound a m g) (hx : g.use x ≠ .none)
    (hy : g.use y ≠ .none) (hne : x ≠ y) (hn : n ≤ g.size x) (hk : k ≤ g.size y) :
    Apart x n y k := by
  have hapart := h.apart_of_ne hx hy hne
  unfold Apart at hapart ⊢
  omega

section Regions

variable (hs : Sound a s.mem g) (hg : Holds s g)
include hs hg

theorem mem_heads {r : Nat × Nat} (hr : r ∈ s.lists.map fun p => (p, 24)) :
    g.use r.1 = .header ∧ r.2 ≤ g.size r.1 := by
  obtain ⟨p, hp, rfl⟩ := List.mem_map.mp hr
  have hp := (hg.lists p).mp hp
  exact ⟨hp, (hs.heads p hp).own⟩

theorem mem_cells {r : Nat × Nat}
    (hr : r ∈ s.lists.map fun p => (ld64 s.mem (p + 16), 8 * ld64 s.mem (p + 8))) :
    g.use r.1 = .cells ∧ r.2 ≤ g.size r.1 := by
  obtain ⟨p, hp, rfl⟩ := List.mem_map.mp hr
  have hp := hs.heads p ((hg.lists p).mp hp)
  exact ⟨hp.cells, hp.room⟩

theorem mem_texts {r : Nat × Nat} (hr : r ∈ s.strs.map fun t => (t.1, t.2 + 9)) :
    g.use r.1 = .str ∧ r.2 ≤ g.size r.1 := by
  obtain ⟨t, ht, rfl⟩ := List.mem_map.mp hr
  obtain ⟨huse, hlen⟩ := hg.strs t ht
  obtain ⟨-, c, hc, hroom⟩ := hs.texts t.1 huse
  have hlong := hc.room
  rw [hlen] at hlong
  rw [hg.lim] at hroom
  exact ⟨huse, hlong.trans hroom⟩

/-- Each region of what is live is part of a block in use, or a region of the program. -/
theorem mem_regions {r : Nat × Nat} (hr : r ∈ regions s) :
    r ∈ g.raw ∨ ∃ u, u ≠ .none ∧ (∀ c, u ≠ .free c) ∧ g.use r.1 = u ∧ r.2 ≤ g.size r.1 := by
  simp only [regions, List.mem_append] at hr
  obtain hr | hr | hr | hr := hr
  · exact .inr ⟨.header, by decide, fun c => Use.noConfusion, mem_heads hs hg hr⟩
  · exact .inr ⟨.cells, by decide, fun c => Use.noConfusion, mem_cells hs hg hr⟩
  · exact .inr ⟨.str, by decide, fun c => Use.noConfusion, mem_texts hs hg hr⟩
  · exact .inl (hg.raws ▸ hr)

theorem regions_inside {r : Nat × Nat} (hr : r ∈ regions s) :
    a + 648 ≤ r.1 ∧ r.1 + r.2 ≤ ld64 s.mem a := by
  rw [hs.top_load]
  obtain hr | ⟨u, hn, -, huse, hsize⟩ := mem_regions hs hg hr
  · exact hs.placed.raw_inside r hr
  · have hin := hs.placed.inside r.1 (hs.used r.1 (by rw [huse]; exact hn))
    omega

theorem regions_apart : (regions s).Pairwise fun r t => Apart r.1 r.2 t.1 t.2 := by
  -- Blocks of two kinds, and a block beside a region of the program.
  have hkinds : ∀ {r t : Nat × Nat} {u v : Use}, u ≠ v → u ≠ .none → v ≠ .none →
      g.use r.1 = u ∧ r.2 ≤ g.size r.1 → g.use t.1 = v ∧ t.2 ≤ g.size t.1 →
      Apart r.1 r.2 t.1 t.2 := by
    rintro r t u v huv hu hv ⟨rfl, hr⟩ ⟨rfl, ht⟩
    exact hs.apart_parts hu hv (fun he => huv (by rw [he])) hr ht
  have hraw : ∀ {r t : Nat × Nat} {u : Use}, u ≠ .none → g.use r.1 = u ∧ r.2 ≤ g.size r.1 →
      t ∈ s.raws → Apart r.1 r.2 t.1 t.2 := by
    rintro r t u hu ⟨rfl, hr⟩ ht
    rw [← hg.raws] at ht
    have hapart := hs.placed.raw_apart t ht r.1 (hs.used r.1 hu)
    unfold Apart at hapart ⊢
    omega
  refine List.pairwise_append.mpr ⟨?_, List.pairwise_append.mpr ⟨?_, List.pairwise_append.mpr
    ⟨?_, ?_, ?_⟩, ?_⟩, ?_⟩
  · -- Two headers.
    refine List.pairwise_map.mpr (hg.lists_nodup.imp_of_mem fun {p q} hp hq hne => ?_)
    have hp := (hg.lists p).mp hp
    have hq := (hg.lists q).mp hq
    exact hs.apart_parts (by rw [hp]; decide) (by rw [hq]; decide) hne (hs.heads p hp).own
      (hs.heads q hq).own
  · -- The cells of two lists.
    refine List.pairwise_map.mpr (hg.lists_nodup.imp_of_mem fun {p q} hp hq hne => ?_)
    have hp := (hg.lists p).mp hp
    have hq := (hg.lists q).mp hq
    have hpc := hs.heads p hp
    have hqc := hs.heads q hq
    exact hs.apart_parts (by rw [hpc.cells]; decide) (by rw [hqc.cells]; decide)
      (fun he => hne (hs.cells_inj p q hp hq he)) hpc.room hqc.room
  · -- Two strings.
    refine List.pairwise_map.mpr ((List.pairwise_map.mp hg.strs_nodup).imp_of_mem
      fun {t u} ht hu hne => ?_)
    have ht := mem_texts hs hg (List.mem_map_of_mem ht)
    have hu := mem_texts hs hg (List.mem_map_of_mem hu)
    exact hs.apart_parts (by rw [ht.1]; decide) (by rw [hu.1]; decide) hne ht.2 hu.2
  · have hpair := hs.placed.raw_pair
    rwa [hg.raws] at hpair
  · intro r hr t ht
    exact hraw (by decide) (mem_texts hs hg hr) ht
  · intro r hr t ht
    obtain ht | ht := List.mem_append.mp ht
    · exact hkinds (by decide) (by decide) (by decide) (mem_cells hs hg hr) (mem_texts hs hg ht)
    · exact hraw (by decide) (mem_cells hs hg hr) ht
  · intro r hr t ht
    obtain ht | ht := List.mem_append.mp ht
    · exact hkinds (by decide) (by decide) (by decide) (mem_heads hs hg hr) (mem_cells hs hg ht)
    · obtain ht | ht := List.mem_append.mp ht
      · exact hkinds (by decide) (by decide) (by decide) (mem_heads hs hg hr) (mem_texts hs hg ht)
      · exact hraw (by decide) (mem_heads hs hg hr) ht

theorem free_room {b c : Nat} (hb : g.use b = .free c) : handOut 36 c ≤ g.size b :=
  hg.lim ▸ (hs.room b c hb).2

/-- A free block beside a region of what is live. -/
theorem free_region {b c : Nat} {r : Nat × Nat} (hb : g.use b = .free c) (hr : r ∈ regions s) :
    Apart b (handOut 36 c) r.1 r.2 := by
  have hn : g.use b ≠ .none := by rw [hb]; exact Use.noConfusion
  have hroom := free_room hs hg hb
  obtain hr | ⟨u, hu, hf, huse, hsize⟩ := mem_regions hs hg hr
  · have hapart := hs.placed.raw_apart r hr b (hs.used b hn)
    unfold Apart at hapart ⊢
    omega
  · refine hs.apart_parts hn (by rw [huse]; exact hu) ?_ hroom hsize
    rintro rfl
    exact hf c (huse.symm.trans hb)

end Regions

theorem Good.orderly (h : Good a s) : Orderly a s := by
  obtain ⟨g, hs, hg⟩ := h
  have hchain : ∀ {c l}, c < 80 → Links s.mem (ld64 s.mem (a + 8 + c * 8)) l →
      ∀ b ∈ l, g.use b = .free c := fun {c l} hc hl b hb =>
    (hs.free c hc b).mp (hl.unique (hs.links c hc) ▸ hb)
  constructor
  case apart => exact regions_apart hs hg
  case inside => exact fun r hr => regions_inside hs hg hr
  case chains =>
    intro _ c hc
    refine ⟨g.chain c, hs.links c hc, hs.nodup c hc, fun b hb => ?_⟩
    have hb := (hs.free c hc b).mp hb
    have hn : g.use b ≠ .none := by rw [hb]; exact Use.noConfusion
    have hin := hs.placed.inside b (hs.used b hn)
    have hroom := free_room hs hg hb
    rw [hs.top_load]
    exact ⟨hin.1, by omega, fun r hr => free_region hs hg hb hr⟩
  case free_apart =>
    intro c hc d hd l k hl hk _ x hx y hy hne
    have hx := hchain hc hl x hx
    have hy := hchain hd hk y hy
    refine hs.apart_parts (by rw [hx]; exact Use.noConfusion) (by rw [hy]; exact Use.noConfusion) ?_
      (free_room hs hg hx) (free_room hs hg hy)
    rintro rfl
    obtain hne | hne := hne
    · exact hne rfl
    · exact hne (Use.free.inj (hx.symm.trans hy))

/-- Nothing is live before the first use. -/
theorem Unopened.orderly (h : Unopened a s) : Orderly a s := by
  obtain ⟨h0, hs⟩ := h
  have hnone : regions s = [] := by
    rw [hs]
    rfl
  refine ⟨?_, ?_, fun hne => absurd h0 hne, fun _ _ _ _ _ _ _ _ hne => absurd h0 hne⟩
  · rw [hnone]
    exact List.Pairwise.nil
  · rw [hnone]
    exact fun r hr => absurd hr List.not_mem_nil

end IdCompiler.Arena

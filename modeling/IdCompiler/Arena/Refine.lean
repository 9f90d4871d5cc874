import IdCompiler.Arena.Calls

/-!
# Runs of lists refine runs of abstract lists

From a fresh arena on, the memory is unopened or represents the heap. So whatever a call
gives back, the same call on the heap gives back, and lists that it does not name keep
their words.
-/

namespace IdCompiler.Arena

open IdCompiler.Core

variable {a : Nat} {m m' : Bytes} {g g' : Layout} {H H' H'' : Heap} {c : Call} {r : Int}
  {p : Nat} {l : List Nat}

/-- What a call gives back determines the heap it leaves. -/
theorem Does.unique {r' : Int} (h : Does m H c r H') (h' : Does m H c r' H'') (hr : r = r') :
    H' = H'' := by
  cases h with
  | @new p hp =>
    cases h' with
    | @new q hq =>
      obtain rfl : p = q := Int.natCast_inj.mp hr
      rfl
  | @lit p n cells hp =>
    cases h' with
    | @lit q n cells hq =>
      obtain rfl : p = q := Int.natCast_inj.mp hr
      rfl
  | push hp =>
    cases h' with
    | push hp' => rw [Option.some.inj (hp.symm.trans hp')]
  | pop hp =>
    cases h' with
    | pop hp' =>
      have hl := Option.some.inj (hp.symm.trans hp')
      rw [(List.append_inj' hl rfl).1]
  | get hp hx =>
    cases h'
    rfl
  | set hp =>
    cases h' with
    | set hp' => rw [Option.some.inj (hp.symm.trans hp')]
  | len hp =>
    cases h'
    rfl
  | free =>
    cases h'
    rfl
  | freeDeep =>
    cases h'
    rfl

/-- On an arena in use, a call does what it does on the heap. -/
theorem Rep.call (h : Rep a g m H) (hlim : g.lim = 80) (hlegal : Legal a H m' c)
    (hsmall : Small H c) (ht : exec a m c = some (r, m')) :
    ∃ H' g', Does m H c r H' ∧ Rep a g' m' H' ∧ g'.lim = 80 := by
  cases c with
  | new =>
    simp only [exec, Option.map_eq_some_iff, Prod.mk.injEq] at ht
    obtain ⟨⟨p, m₁⟩, hnew, rfl, rfl⟩ := ht
    obtain ⟨g', hrep, hnone, hlim', -⟩ := h.new hnew
    exact ⟨_, g', .new hnone, hrep, hlim'.trans hlim⟩
  | lit n cells =>
    simp only [exec, Option.map_eq_some_iff, Prod.mk.injEq] at ht
    obtain ⟨⟨p, m₁⟩, hlit, rfl, rfl⟩ := ht
    simp only [listLitCells, Option.bind_eq_bind, Option.bind_eq_some_iff] at hlit
    obtain ⟨⟨q, m₀⟩, hnew, m₂, hloop, heq⟩ := hlit
    obtain ⟨rfl, rfl⟩ := Prod.mk.inj (Option.some.inj heq)
    obtain ⟨hn, hcells, hout⟩ := hlegal
    obtain ⟨g₀, h₀, hnone, hlim₀, hframe⟩ := h.new hnew
    have hlim₀ := hlim₀.trans hlim
    rw [Int.toNat_natCast] at hloop
    have hsum : cells + 8 * (0 + n) = cells + 8 * n := by rw [Nat.zero_add]
    obtain ⟨g', hs', htop⟩ := litLoop_top h₀.sound (h₀.header Heap.new_live) hlim₀ hloop
    obtain ⟨g', hrep, hlim'⟩ := h₀.litLoop hlim₀ Heap.new_live (by rw [Nat.zero_add]; exact hsmall)
      (by rw [hsum]; exact hcells) (fun j hge hlt => hout j hge (hsum ▸ hlt)) hloop
    -- Making the list did not change the array.
    have hwords : Arena.words m₀ (cells + 8 * 0) n = Arena.words m cells n := words_move fun j hj => by
      refine hframe (cells + 8 * 0 + j) ?_
      rcases hout (cells + 8 * 0 + j) (by omega) (by omega) with hi | ⟨-, hi⟩
      · exact .inl hi
      · rw [hs'.top_load] at hi
        exact .inr (htop.trans hi)
    rw [List.nil_append, hwords, Heap.new_set] at hrep
    exact ⟨_, g', .lit hnone, hrep, hlim'⟩
  | push p v =>
    simp only [exec, Option.map_eq_some_iff, Prod.mk.injEq] at ht
    obtain ⟨m₁, hpush, rfl, rfl⟩ := ht
    obtain ⟨l, hl⟩ := Option.isSome_iff_exists.mp hlegal.1
    have hcap := h.sound.cap_lt (h.header hl)
    obtain ⟨g', hrep, hlim', -⟩ := h.push hl hlegal.2 (fun _ => by rw [hlim]; omega) hpush
    exact ⟨_, g', .push hl, hrep, hlim'.trans hlim⟩
  | pop p =>
    obtain ⟨rfl, rfl⟩ := Prod.mk.inj (Option.some.inj ht)
    obtain ⟨l, hl, hne⟩ := hlegal
    obtain ⟨k, x, rfl, hx, hrep⟩ := h.pop hl hne
    rw [hx]
    exact ⟨_, g, .pop hl, hrep, hlim⟩
  | get p i =>
    obtain ⟨rfl, rfl⟩ := Prod.mk.inj (Option.some.inj ht)
    obtain ⟨l, hl, hi⟩ := hlegal
    exact ⟨H, g, .get hl (h.get hl hi hsmall), h, hlim⟩
  | set p i v =>
    obtain ⟨rfl, rfl⟩ := Prod.mk.inj (Option.some.inj ht)
    obtain ⟨⟨l, hl, hi⟩, hv⟩ := hlegal
    exact ⟨_, g, .set hl, h.setAt hl hi hsmall hv, hlim⟩
  | len p =>
    obtain ⟨rfl, rfl⟩ := Prod.mk.inj (Option.some.inj ht)
    obtain ⟨l, hl⟩ := Option.isSome_iff_exists.mp hlegal
    rw [h.len hl (hsmall l hl)]
    exact ⟨H, g, .len hl, h, hlim⟩
  | free p =>
    simp only [exec, Option.map_eq_some_iff, Prod.mk.injEq] at ht
    obtain ⟨m₁, hfree, rfl, rfl⟩ := ht
    obtain ⟨g', hrep, hlim'⟩ := h.free hlegal hfree
    exact ⟨_, g', .free, hrep, hlim'.trans hlim⟩
  | freeDeep p =>
    simp only [exec, Option.map_eq_some_iff, Prod.mk.injEq] at ht
    obtain ⟨m₁, hfree, rfl, rfl⟩ := ht
    obtain ⟨m₂, g', hdeep, hrep, hlim'⟩ := h.freeDeep hlegal.1 hlegal.2
    obtain rfl : m₁ = m₂ := Option.some.inj (hfree.symm.trans hdeep)
    exact ⟨_, g', .freeDeep, hrep, hlim'.trans hlim⟩

/-- Bytes that are not the arena's may change. -/
theorem Rep.foreign (h : Rep a g m H) (hout : ∀ i, m' i ≠ m i → Foreign a (ld64 m a) i) :
    Rep a g m' H := by
  have hge := h.sound.placed.top_ge
  have hkeep : ∀ i, a ≤ i → i < g.top → m' i = m i := by
    intro i hi hlt
    by_contra hne
    rcases hout i hne with hj | ⟨-, hj⟩
    · omega
    · rw [h.sound.top_load] at hj
      omega
  have hblock : ∀ b, g.use b ≠ .none → ∀ i, b ≤ i → i < b + g.size b → m' i = m i := by
    intro b hb i hi hlt
    have hin := h.sound.placed.inside b (h.sound.used b hb)
    exact hkeep i (by omega) (by omega)
  have hframe : Frame a g m m' := by
    refine ⟨fun i hi hlt => hkeep i hi (by omega), fun b i hi hlt => ?_⟩
    have hb : g.use b ≠ .none := fun hb => by
      rw [hb] at hlt
      exact absurd hlt (by show ¬i < b + 0; omega)
    have hle := h.sound.kept_le b hb
    exact hblock b hb i hi (by omega)
  refine ⟨h.sound.frame hframe, h.heads, fun p l hl => ?_, h.made⟩
  rw [← h.words p l hl]
  have hhead := h.sound.heads p (h.header hl)
  have hn : g.use p ≠ .none := by rw [h.header hl]; decide
  have hk : (g.use p).kept = 24 := by rw [h.header hl]; rfl
  have h0 : ld64 m' p = ld64 m p := hframe.load_first (by omega)
  have h16 : ld64 m' (p + 16) = ld64 m (p + 16) := hframe.load (by omega)
  have hlen := hhead.len
  have hroom := hhead.room
  rw [contents, contents, h0, h16]
  exact words_move fun i hi => hblock _ (by rw [hhead.cells]; decide) _ (by omega) (by omega)

/-! ## From the first call on -/

/-- The arena represents the heap, or has not been used and there are no lists. -/
def Fits (a : Nat) (m : Bytes) (H : Heap) : Prop :=
  (∃ g, Rep a g m H ∧ g.lim = 80) ∨ (ld64 m a = 0 ∧ H = .empty)

theorem opened_rep (hlt : a + 648 < 2 ^ 64) : Rep a (.empty a 80) (opened a m) .empty :=
  ⟨opened_sound hlt (by decide), fun _ => ⟨Use.noConfusion, fun he => absurd he Bool.false_ne_true⟩,
    fun _ l hl => absurd hl.symm (Option.some_ne_none l), fun _ hp => absurd hp List.not_mem_nil⟩

/-- The calls that open the arena do what they do on an open one. -/
theorem first_call (h0 : ld64 m a = 0) (hlt : a + 648 < 2 ^ 64) (hlegal : Legal a .empty m' c)
    (hsmall : Small .empty c) (ht : exec a m c = some (r, m')) :
    ∃ H', Does m .empty c r H' ∧ Fits a m' H' := by
  have hopen := opened_rep (m := m) hlt
  have hnone : ∀ p, ¬(Heap.empty.live p).isSome := fun p => Bool.false_ne_true
  have hdrop : ∀ p, Heap.empty.drop p = .empty := fun p => Heap.drop_self rfl
  cases c with
  | new =>
    have ht' : exec a (opened a m) .new = some (r, m') := by
      rw [exec, ← listNew_first h0 hlt]
      exact ht
    obtain ⟨H', g', hdoes, hrep, hlim⟩ := hopen.call rfl hlegal hsmall ht'
    cases hdoes with
    | new hp => exact ⟨_, .new hp, .inl ⟨g', hrep, hlim⟩⟩
  | lit n cells =>
    have ht' : exec a (opened a m) (.lit n cells) = some (r, m') := by
      rw [exec, listLitCells, ← listNew_first h0 hlt]
      exact ht
    obtain ⟨H', g', hdoes, hrep, hlim⟩ := hopen.call rfl hlegal hsmall ht'
    -- The array lies outside the table that was wiped.
    have hwords : words (opened a m) cells n = words m cells n := words_move fun i hi => by
      have hge := hrep.sound.placed.top_ge
      refine opened_apart ?_
      rcases hlegal.2.2 (cells + i) (Nat.le_add_right _ _) (by omega) with hi | ⟨-, hi⟩
      · exact .inl hi
      · rw [hrep.sound.top_load] at hi
        exact .inr (by omega)
    cases hdoes with
    | lit hp =>
      rw [hwords] at hrep
      exact ⟨_, .lit hp, .inl ⟨g', hrep, hlim⟩⟩
  | push p v => exact absurd hlegal.1 (hnone p)
  | pop p =>
    obtain ⟨l, hl, -⟩ := hlegal
    exact absurd hl.symm (Option.some_ne_none l)
  | get p i =>
    obtain ⟨l, hl, -⟩ := hlegal
    exact absurd hl.symm (Option.some_ne_none l)
  | set p i v =>
    obtain ⟨⟨l, hl, -⟩, -⟩ := hlegal
    exact absurd hl.symm (Option.some_ne_none l)
  | len p => exact absurd hlegal (hnone p)
  | free p =>
    obtain rfl : p = 0 := hlegal.resolve_left List.not_mem_nil
    obtain ⟨rfl, rfl⟩ := Prod.mk.inj (Option.some.inj ht)
    exact ⟨_, .free, .inr ⟨h0, hdrop 0⟩⟩
  | freeDeep p =>
    obtain rfl : p = 0 := hlegal.1.resolve_left List.not_mem_nil
    obtain ⟨rfl, rfl⟩ := Prod.mk.inj (Option.some.inj ht)
    exact ⟨_, .freeDeep, .inr ⟨h0, hdrop 0⟩⟩

/-- A call keeps the memory a picture of the heap. -/
theorem Fits.call (h : Fits a m H) (hlt : a + 648 < 2 ^ 64) (hlegal : Legal a H m' c)
    (hsmall : Small H c) (ht : exec a m c = some (r, m')) :
    ∃ H', Does m H c r H' ∧ Fits a m' H' := by
  obtain ⟨g, hrep, hlim⟩ | ⟨h0, rfl⟩ := h
  · obtain ⟨H', g', hdoes, hrep', hlim'⟩ := hrep.call hlim hlegal hsmall ht
    exact ⟨H', hdoes, .inl ⟨g', hrep', hlim'⟩⟩
  · exact first_call h0 hlt hlegal hsmall ht

theorem Fits.foreign (h : Fits a m H) (hout : ∀ i, m' i ≠ m i → Foreign a (ld64 m a) i) :
    Fits a m' H := by
  obtain ⟨g, hrep, hlim⟩ | ⟨h0, hH⟩ := h
  · exact .inl ⟨g, hrep.foreign hout, hlim⟩
  · refine .inr ⟨?_, hH⟩
    rw [← h0]
    refine Bytes.load_congr fun i hge hlt => ?_
    by_contra hne
    rcases hout i hne with hi | ⟨hi, -⟩ <;> omega

/-- A memory and a heap after the same calls, each small, from a fresh arena on; between
them the program writes in what is not the arena's. -/
inductive Runs (a : Nat) (m₀ : Bytes) : Bytes → Heap → Prop
  | start : Runs a m₀ m₀ .empty
  | call {m m' : Bytes} {H H' : Heap} {c : Call} {r : Int} (h : Runs a m₀ m H)
    (hlegal : Legal a H m' c) (hsmall : Small H c) (ht : exec a m c = some (r, m'))
    (hdoes : Does m H c r H') : Runs a m₀ m' H'
  | write {m m' : Bytes} {H : Heap} (h : Runs a m₀ m H)
    (hout : ∀ i, m' i ≠ m i → Foreign a (ld64 m a) i) : Runs a m₀ m' H

theorem Runs.fits {m₀ : Bytes} (h0 : ld64 m₀ a = 0) (hlt : a + 648 < 2 ^ 64)
    (h : Runs a m₀ m H) : Fits a m H := by
  induction h with
  | start => exact .inr ⟨h0, rfl⟩
  | call h hlegal hsmall ht hdoes ih =>
    obtain ⟨H', hdoes', hfits⟩ := ih.call hlt hlegal hsmall ht
    rwa [hdoes.unique hdoes' rfl]
  | write h hout ih => exact ih.foreign hout

/-- The cells of each list hold its words. -/
theorem Fits.contents (h : Fits a m H) (hl : H.live p = some l) : contents m p = l := by
  obtain ⟨g, hrep, -⟩ | ⟨-, rfl⟩ := h
  · exact hrep.words p l hl
  · exact absurd hl.symm (Option.some_ne_none l)

end IdCompiler.Arena

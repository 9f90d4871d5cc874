import IdCompiler.Arena.Contents
import IdCompiler.Arena.Open

/-!
# Lists as mathematical lists

A heap has a list of words at each live handle. The arena represents it, and each
operation of the runtime does to the arena what it does to the heap.
-/

namespace IdCompiler.Arena

open IdCompiler.Core

/-- The abstract lists, and the handles that were ever given out. -/
structure Heap where
  live : Nat → Option (List Nat)
  made : List Nat

namespace Heap

/-- No lists. -/
def empty : Heap := ⟨fun _ => none, []⟩

/-- The list at `p` is now `l`. -/
def set (H : Heap) (p : Nat) (l : List Nat) : Heap :=
  { H with live := Function.update H.live p (some l) }

/-- A new list at `p`. -/
def new (H : Heap) (p : Nat) (l : List Nat) : Heap :=
  { (H.set p l) with made := p :: H.made }

/-- The list at `p` is no longer live. -/
def drop (H : Heap) (p : Nat) : Heap := { H with live := Function.update H.live p none }

/-- The handles of `l` are dropped in order, as long as `p` itself is live. -/
def dropEach (p : Nat) : Heap → List Nat → Heap
  | H, [] => H
  | H, e :: l => if (H.live p).isSome then dropEach p (H.drop e) l else H

/-- A list and the lists it holds. -/
def dropDeep (H : Heap) (p : Nat) : Heap := (dropEach p H ((H.live p).getD [])).drop p

variable {H : Heap} {p q : Nat} {l : List Nat}

@[simp] theorem set_live : (H.set p l).live p = some l := Function.update_self ..

theorem set_live_of_ne (h : q ≠ p) : (H.set p l).live q = H.live q := Function.update_of_ne h ..

@[simp] theorem new_live : (H.new p l).live p = some l := set_live

theorem new_live_of_ne (h : q ≠ p) : (H.new p l).live q = H.live q := set_live_of_ne h

@[simp] theorem drop_live : (H.drop p).live p = none := Function.update_self ..

theorem drop_live_of_ne (h : q ≠ p) : (H.drop p).live q = H.live q := Function.update_of_ne h ..

@[simp] theorem drop_made : (H.drop p).made = H.made := rfl

theorem set_self (h : H.live p = some l) : H.set p l = H := by
  obtain ⟨live, made⟩ := H
  rw [set, ← h, Function.update_eq_self]

theorem set_set {k : List Nat} : (H.set p l).set p k = H.set p k := by
  rw [set, set, Function.update_idem]
  rfl

theorem new_set {k : List Nat} : (H.new p l).set p k = H.new p k := by
  rw [new, new, set, set, set, Function.update_idem]

/-- What is not live can be dropped again. -/
theorem drop_self (h : H.live p = none) : H.drop p = H := by
  obtain ⟨live, made⟩ := H
  rw [drop, ← h, Function.update_eq_self]

end Heap

variable {a : Nat} {m m' : Bytes} {g g' : Layout} {H : Heap} {p q v : Nat} {l : List Nat}

/-- A byte offset that is an `int`. -/
theorem cellOff_small {i : Nat} (h : i < 2 ^ 28) : cellOff i = ((8 * i : Nat) : Int) := by
  unfold cellOff
  rw [Int.bmod_eq_of_le (by omega) (by omega)]
  omega

/-- The arena has the lists of the heap, each with its words. -/
structure Rep (a : Nat) (g : Layout) (m : Bytes) (H : Heap) : Prop where
  sound : Sound a m g
  heads : ∀ p, g.use p = .header ↔ (H.live p).isSome
  words : ∀ p l, H.live p = some l → contents m p = l
  made : ∀ p ∈ H.made, g.use p = .header ∨ g.use p = .free 0

namespace Rep

theorem header (h : Rep a g m H) (hp : H.live p = some l) : g.use p = .header :=
  (h.heads p).mpr (by rw [hp]; rfl)

theorem length (h : Rep a g m H) (hp : H.live p = some l) : ld64 m p = l.length := by
  rw [← h.words p l hp, length_contents]

/-- Another list at `p`, with all other lists as they were. -/
theorem set (h : Rep a g m H) (hs : Sound a m' g') (hp : g'.use p = .header)
    (hl : contents m' p = l)
    (hothers : ∀ q, q ≠ p → g.use q = .header → g'.use q = .header ∧ contents m' q = contents m q)
    (hback : ∀ q, q ≠ p → g'.use q = .header → g.use q = .header)
    (hmade : ∀ q, g.use q = .free 0 → g'.use q = .header ∨ g'.use q = .free 0) :
    Rep a g' m' (H.set p l) := by
  refine ⟨hs, fun q => ?_, fun q k hq => ?_, fun q hq => ?_⟩
  · by_cases hqp : q = p
    · rw [hqp, Heap.set_live]
      exact ⟨fun _ => rfl, fun _ => hp⟩
    · rw [Heap.set_live_of_ne hqp, ← h.heads]
      exact ⟨hback q hqp, fun hq => (hothers q hqp hq).1⟩
  · by_cases hqp : q = p
    · subst hqp
      rw [Heap.set_live] at hq
      rw [hl, Option.some.inj hq]
    · rw [Heap.set_live_of_ne hqp] at hq
      rw [(hothers q hqp (h.header hq)).2]
      exact h.words q k hq
  · rcases h.made q hq with hq | hq
    · by_cases hqp : q = p
      · rw [hqp]
        exact .inl hp
      · exact .inl (hothers q hqp hq).1
    · exact hmade q hq

/-- A new list. -/
theorem new (h : Rep a g m H) (ht : listNew a m = some (p, m')) :
    ∃ g', Rep a g' m' (H.new p []) ∧ H.live p = none ∧ g'.lim = g.lim ∧
      ∀ i, i < a ∨ g'.top ≤ i → m' i = m i := by
  obtain ⟨g', d, hnew⟩ := h.sound.listNew ht
  have hd : g'.use d = .cells := by
    rw [← hnew.cells]
    exact (hnew.change.sound.heads p hnew.head).cells
  have hother : ∀ q, q ≠ p → q ≠ d → g'.use q = g.use q := fun q hqp hqd =>
    hnew.change.use q fun hin => (List.mem_pair.mp hin).elim hqp hqd
  have hset : Rep a g' m' (H.set p []) := by
    refine h.set hnew.change.sound hnew.head hnew.contents
      (fun q _ hq => (hnew.others h.sound hq).2) (fun q hqp hq => ?_) fun q hq => ?_
    · by_cases hqd : q = d
      · rw [hqd, hd] at hq
        exact Use.noConfusion hq
      · rwa [← hother q hqp hqd]
    · by_cases hqp : q = p
      · rw [hqp]
        exact .inl hnew.head
      · by_cases hqd : q = d
        · rw [hqd] at hq
          exact absurd hq hnew.cells_was.not_free
        · exact .inr ((hother q hqp hqd).trans hq)
  refine ⟨g', ⟨hset.sound, hset.heads, hset.words, fun q hq => ?_⟩, ?_, hnew.change.lim,
    fun i hi => hnew.change.outside hnew.stay hi⟩
  · rcases List.mem_cons.mp hq with rfl | hq
    · exact .inl hnew.head
    · exact hset.made q hq
  · by_contra hne
    have hp := (h.heads p).mpr (Option.isSome_iff_ne_none.mpr hne)
    exact absurd rfl (hnew.others h.sound hp).1

theorem push (h : Rep a g m H) (hp : H.live p = some l) (hv : v < 2 ^ 64)
    (hcap : ld64 m p = ld64 m (p + 8) → 2 * ld64 m (p + 8) < 2 ^ (g.lim + 1))
    (ht : listPush a m p v = some m') :
    ∃ g', Rep a g' m' (H.set p (l ++ [v])) ∧ g'.lim = g.lim ∧
      ∀ i, i < a ∨ g'.top ≤ i → m' i = m i := by
  have hhead := h.header hp
  have hdc := (h.sound.heads p hhead).cells
  obtain ⟨g', x, hpush⟩ := h.sound.listPush hhead hv hcap ht
  have hx : g'.use x = .cells := by
    rw [← hpush.cells]
    exact (hpush.change.sound.heads p hpush.head).cells
  have hd : g'.use (ld64 m (p + 16)) ≠ .header := by
    rcases hpush.old with he | ⟨c, -, hc⟩
    · rw [← he, hx]
      decide
    · rw [hc]
      exact Use.noConfusion
  have hother : ∀ q, q ≠ p → q ≠ ld64 m (p + 16) → q ≠ x → g'.use q = g.use q :=
    fun q hqp hqd hqx => hpush.change.use q fun hin => by
      simp only [List.mem_cons, List.not_mem_nil, or_false] at hin
      rcases hin with he | he | he
      · exact hqp he
      · exact hqd he
      · exact hqx he
  refine ⟨g', h.set hpush.change.sound hpush.head ?_ (fun q hqp hq =>
    hpush.others h.sound hhead hq hqp) (fun q hqp hq => ?_) fun q hq => ?_, hpush.change.lim,
    fun i hi => hpush.change.outside hpush.stay hi⟩
  · rw [hpush.contents, h.words p l hp]
  · rw [← hother q hqp (fun he => hd (he ▸ hq)) fun he => ?_]
    · exact hq
    · rw [he, hx] at hq
      exact Use.noConfusion hq
  · by_cases hqp : q = p
    · rw [hqp]
      exact .inl hpush.head
    · rw [hother q hqp (fun he => ?_) fun he => ?_]
      · exact .inr hq
      · rw [he, hdc] at hq
        exact Use.noConfusion hq
      · rcases hpush.was with hwas | hwas
        · rw [he, hwas, hdc] at hq
          exact Use.noConfusion hq
        · rw [he] at hq
          exact absurd hq hwas.not_free

theorem pop (h : Rep a g m H) (hp : H.live p = some l) (hl : l ≠ []) :
    ∃ k x, l = k ++ [x] ∧ (listPop m p).1 = x ∧ Rep a g (listPop m p).2 (H.set p k) := by
  have hhead := h.header hp
  have hlen : 0 < ld64 m p := by
    rw [h.length hp]
    exact List.length_pos_of_ne_nil hl
  have hpop := h.sound.contents_pop hhead hlen
  rw [h.words p l hp] at hpop
  have hchange := (h.sound.listPop hhead hlen).1
  refine ⟨_, _, hpop, rfl, h.set hchange.sound hhead rfl (fun q hqp hq => ?_) (fun _ _ hq => hq)
    fun _ hq => .inr hq⟩
  exact ⟨hq, hchange.others h.sound hhead hq hqp⟩

/-- Where a cell is, for an index whose byte offset is an `int`. -/
theorem cellAt (h : Rep a g m H) (hp : H.live p = some l) {i : Nat} (hi : i < l.length)
    (hint : i < 2 ^ 28) : cellAt m p i = ld64 m (p + 16) + 8 * i := by
  have hhead := h.sound.heads p (h.header hp)
  have hcells := hhead.cells
  have hroom := hhead.room
  have hlen := hhead.len
  rw [h.length hp] at hlen
  have hin := h.sound.placed.inside _ (h.sound.used (ld64 m (p + 16)) (by rw [hcells]; decide))
  have htop := h.sound.placed.top_lt
  rw [Arena.cellAt, cellOff_small hint, addrAdd_nat (by omega)]

/-- The word at an index. -/
theorem get (h : Rep a g m H) (hp : H.live p = some l) {i : Nat} (hi : i < l.length)
    (hint : i < 2 ^ 28) : l[i]? = some (listGet m p i) := by
  rw [listGet, h.cellAt hp hi hint, ← h.words p l hp]
  exact getElem_words (by rw [h.length hp]; exact hi)

theorem setAt (h : Rep a g m H) (hp : H.live p = some l) {i : Nat} (hi : i < l.length)
    (hint : i < 2 ^ 28) (hv : v < 2 ^ 64) : Rep a g (listSet m p i v) (H.set p (l.set i v)) := by
  have hhead := h.header hp
  have hcells := (h.sound.heads p hhead).cells
  have hroom := (h.sound.heads p hhead).room
  have hown := (h.sound.heads p hhead).own
  have hle := (h.sound.heads p hhead).len
  have hlen := h.length hp
  have hchange := h.sound.setCell (d := ld64 m (p + 16)) (k := 8 * i) (v := v) hcells (by omega)
  have hfield : ∀ j, j + 8 ≤ 24 →
      ld64 (st64 m (ld64 m (p + 16) + 8 * i) v) (p + j) = ld64 m (p + j) := fun j hj =>
    hchange.load (forall_one (by rw [hcells]; decide)) (by rw [hhead]; decide)
      (fun hin => h.sound.cells_ne hhead (List.mem_singleton.mp hin).symm) (by omega)
  rw [listSet, h.cellAt hp hi hint]
  refine h.set hchange.sound hhead ?_ (fun q hqp hq =>
    ⟨hq, hchange.others_cells h.sound hhead hq hqp⟩) (fun _ _ hq => hq) fun _ hq => .inr hq
  rw [contents, hfield 16 (by omega), show ld64 _ p = _ from hfield 0 (by omega), words_set hv,
    ← h.words p l hp]
  rfl

theorem len (h : Rep a g m H) (hp : H.live p = some l) (hint : l.length < 2 ^ 31) :
    listLen m p = l.length := by
  unfold listLen
  rw [h.length hp]
  exact Int.bmod_eq_of_le (by omega) (by omega)

/-! ### Giving lists back -/

/-- A list given back, or one that is no longer there. -/
theorem free (h : Rep a g m H) (hp : p ∈ H.made ∨ p = 0) (ht : listFree a m p = some m') :
    ∃ g', Rep a g' m' (H.drop p) ∧ g'.lim = g.lim := by
  by_cases hhead : g.use p = .header
  · obtain ⟨g', hfree⟩ := h.sound.listFree hhead ht
    have hdc := (h.sound.heads p hhead).cells
    obtain ⟨c, hc, hd⟩ := hfree.cells
    have hother : ∀ q, q ≠ p → q ≠ ld64 m (p + 16) → g'.use q = g.use q := fun q hqp hqd =>
      hfree.change.use q fun hin => (List.mem_pair.mp hin).elim hqp hqd
    refine ⟨g', ⟨hfree.change.sound, fun q => ?_, fun q k hq => ?_, fun q hq => ?_⟩,
      hfree.change.lim⟩
    · by_cases hqp : q = p
      · rw [hqp, hfree.head, Heap.drop_live]
        exact ⟨Use.noConfusion, fun he => absurd he (by decide)⟩
      · rw [Heap.drop_live_of_ne hqp, ← h.heads]
        refine ⟨fun hq => ?_, fun hq => (hfree.others h.sound hhead hq hqp).1⟩
        rwa [← hother q hqp fun he => ?_]
        rw [he, hd] at hq
        exact Use.noConfusion hq
    · have hqp : q ≠ p := by
        rintro rfl
        rw [Heap.drop_live] at hq
        exact absurd hq.symm (Option.some_ne_none k)
      rw [Heap.drop_live_of_ne hqp] at hq
      rw [(hfree.others h.sound hhead (h.header hq) hqp).2]
      exact h.words q k hq
    · by_cases hqp : q = p
      · rw [hqp]
        exact .inr hfree.head
      · have hq := h.made q hq
        rwa [hother q hqp fun he => ?_]
        rw [he, hdc] at hq
        rcases hq with hq | hq <;> exact Use.noConfusion hq
  · have hsame := h.sound.listFree_again (hp.imp_left fun hp => (h.made p hp).resolve_left hhead)
    obtain rfl : m = m' := Option.some.inj (hsame.symm.trans ht)
    have hnone : H.live p = none := by
      rw [← Option.not_isSome_iff_eq_none, ← h.heads]
      exact hhead
    rw [Heap.drop_self hnone]
    exact ⟨g, h, rfl⟩

end Rep

end IdCompiler.Arena

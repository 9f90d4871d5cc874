import IdCompiler.Arena.Heap

/-!
# Calls of the list runtime

The runtime's calls on an arena beside what they mean on a heap. As long as indexes and
lengths stay in what their `int`s can hold, every call gives what the heap gives.
-/

namespace IdCompiler.Arena

open IdCompiler.Core

/-- The calls; an index is that of a cell, a count that of the words in an array. -/
inductive Call
  | new
  | lit (n cells : Nat)
  | push (p v : Nat)
  | pop (p : Nat)
  | get (p i : Nat)
  | set (p i v : Nat)
  | len (p : Nat)
  | free (p : Nat)
  | freeDeep (p : Nat)

/-- What the runtime gives back, and the memory it leaves. -/
def exec (a : Nat) (m : Bytes) : Call → Option (Int × Bytes)
  | .new => (listNew a m).map fun t => ((t.1 : Int), t.2)
  | .lit n cells => (listLitCells a m n cells).map fun t => ((t.1 : Int), t.2)
  | .push p v => (listPush a m p v).map fun m => (0, m)
  | .pop p => some ((listPop m p).1, (listPop m p).2)
  | .get p i => some (listGet m p i, m)
  | .set p i v => some (0, listSet m p i v)
  | .len p => some (listLen m p, m)
  | .free p => (listFree a m p).map fun m => (0, m)
  | .freeDeep p => (listFreeDeep a m p).map fun m => (0, m)

/-- What a call means on abstract lists; a literal reads its array in the memory. -/
inductive Does (m : Bytes) (H : Heap) : Call → Int → Heap → Prop
  | new {p : Nat} (hp : H.live p = none) : Does m H .new p (H.new p [])
  | lit {p n cells : Nat} (hp : H.live p = none) :
    Does m H (.lit n cells) p (H.new p (words m cells n))
  | push {p v : Nat} {l : List Nat} (hp : H.live p = some l) :
    Does m H (.push p v) 0 (H.set p (l ++ [v]))
  | pop {p x : Nat} {l : List Nat} (hp : H.live p = some (l ++ [x])) : Does m H (.pop p) x (H.set p l)
  | get {p i x : Nat} {l : List Nat} (hp : H.live p = some l) (hx : l[i]? = some x) :
    Does m H (.get p i) x H
  | set {p i v : Nat} {l : List Nat} (hp : H.live p = some l) :
    Does m H (.set p i v) 0 (H.set p (l.set i v))
  | len {p : Nat} {l : List Nat} (hp : H.live p = some l) : Does m H (.len p) l.length H
  | free {p : Nat} : Does m H (.free p) 0 (H.drop p)
  | freeDeep {p : Nat} : Does m H (.freeDeep p) 0 (H.dropDeep p)

/-- A byte that is not the arena's, with the bump pointer at `top`. -/
def Foreign (a top i : Nat) : Prop := i < a ∨ (a + 8 ≤ i ∧ top ≤ i)

/-- A handle that `list_new` gave, or none. -/
def Handle (H : Heap) (p : Nat) : Prop := p ∈ H.made ∨ p = 0

/-- The calls that a program may make: on live lists, and on those that had been. -/
def Legal (a : Nat) (H : Heap) (m' : Bytes) : Call → Prop
  | .new => True
  | .lit n cells => n < 2 ^ 31 ∧ cells + 8 * n ≤ 2 ^ 64 ∧
    ∀ i, cells ≤ i → i < cells + 8 * n → Foreign a (ld64 m' a) i
  | .push p v => (H.live p).isSome ∧ v < 2 ^ 64
  | .pop p => ∃ l, H.live p = some l ∧ l ≠ []
  | .get p i => ∃ l, H.live p = some l ∧ i < l.length
  | .set p i v => (∃ l, H.live p = some l ∧ i < l.length) ∧ v < 2 ^ 64
  | .len p => (H.live p).isSome
  | .free p => Handle H p
  | .freeDeep p => Handle H p ∧ ∀ l, H.live p = some l → ∀ e ∈ l, Handle H e

/-- The calls whose byte offsets and lengths are `int`s. -/
def Small (H : Heap) : Call → Prop
  | .lit n _ => n ≤ 2 ^ 28
  | .get _ i => i < 2 ^ 28
  | .set _ i _ => i < 2 ^ 28
  | .len p => ∀ l, H.live p = some l → l.length < 2 ^ 31
  | _ => True

variable {a : Nat} {m m' : Bytes} {g g' : Layout} {H : Heap} {p q v : Nat} {l : List Nat}

/-! ## Giving back a list and the lists it holds -/

namespace Rep

/-- What is not live has no capacity that the loop would accept. -/
theorem not_live (h : Rep a g m H) (hp : Handle H p) (hl : H.live p = none) :
    ¬(p ≠ 0 ∧ 0 < signed (ld64 m (p + 8))) := by
  rintro ⟨hne, hcap⟩
  have hhead : g.use p ≠ .header := fun hh => by
    have := (h.heads p).mp hh
    rw [hl] at this
    exact absurd this (by decide)
  rw [h.sound.mark p ((h.made p (hp.resolve_right hne)).resolve_left hhead)] at hcap
  exact absurd hcap (by decide)

/-- A live list is a block, with a capacity. -/
theorem live_cap (h : Rep a g m H) (hl : H.live p = some l) :
    p ≠ 0 ∧ 0 < signed (ld64 m (p + 8)) ∧ signed (ld64 m p) = l.length := by
  have hhead := h.header hl
  have hge := h.sound.block_ge (b := p) (by rw [hhead]; decide)
  have hsmall := h.sound.cap_lt hhead
  have hlen := (h.sound.heads p hhead).len
  rw [signed_small (by omega), signed_small (by omega), h.length hl]
  exact ⟨by omega, by omega, rfl⟩

/-- The handle in a cell. -/
theorem cell_word (h : Rep a g m H) (hl : H.live p = some l) {k e : Nat} (hk : l[k]? = some e) :
    ld64 m ((ld64 m (p + 16) + 8 * k) % 2 ^ 64) = e := by
  have hhead := h.sound.heads p (h.header hl)
  have hcells := hhead.cells
  have hroom := hhead.room
  have hlen := hhead.len
  obtain ⟨hlt, -⟩ := List.getElem?_eq_some_iff.mp hk
  rw [h.length hl] at hlen
  have hin := h.sound.placed.inside _ (h.sound.used (ld64 m (p + 16)) (by rw [hcells]; decide))
  have htop := h.sound.placed.top_lt
  rw [Nat.mod_eq_of_lt (by omega)]
  have hword := getElem_words (m := m) (d := ld64 m (p + 16)) (n := ld64 m p) (i := k)
    (by rw [h.length hl]; exact hlt)
  have hwords : Arena.words m (ld64 m (p + 16)) (ld64 m p) = l := h.words p l hl
  rw [hwords, hk] at hword
  exact (Option.some.inj hword).symm

/-- The loop gives back the handles that are left, as long as the list itself is there. -/
theorem freeCellsLoop (hp : Handle H p) {todo : List Nat} {fuel k : Nat} (h : Rep a g m H)
    (hl : ∀ l, H.live p = some l → l.drop k = todo) (htodo : ∀ e ∈ todo, Handle H e)
    (hfuel : todo.length < fuel) :
    ∃ m' g', listFreeCellsLoop a p fuel k m = some m' ∧ Rep a g' m' (Heap.dropEach p H todo) ∧
      g'.lim = g.lim := by
  induction todo generalizing fuel k m g H with
  | nil =>
    obtain ⟨fuel, rfl⟩ := Nat.exists_eq_succ_of_ne_zero (Nat.ne_zero_of_lt hfuel)
    refine ⟨m, g, ?_, h, rfl⟩
    rw [listFreeCellsLoop, if_neg]
    rintro ⟨hne, hcap, hlt⟩
    cases hlive : H.live p with
    | none => exact h.not_live hp hlive ⟨hne, hcap⟩
    | some l =>
      have hdone := List.drop_eq_nil_iff.mp (hl l hlive)
      rw [(h.live_cap hlive).2.2] at hlt
      omega
  | cons e t ih =>
    obtain ⟨fuel, rfl⟩ := Nat.exists_eq_succ_of_ne_zero (Nat.ne_zero_of_lt hfuel)
    cases hlive : H.live p with
    | none =>
      refine ⟨m, g, ?_, ?_, rfl⟩
      · rw [listFreeCellsLoop, if_neg fun hcond => h.not_live hp hlive ⟨hcond.1, hcond.2.1⟩]
      · rw [Heap.dropEach, hlive]
        exact h
    | some l =>
      have hdrop := hl l hlive
      have hk : l[k]? = some e := by
        rw [← List.head?_drop, hdrop]
        rfl
      obtain ⟨hlt, -⟩ := List.getElem?_eq_some_iff.mp hk
      obtain ⟨hne, hcap, hlen⟩ := h.live_cap hlive
      have he := htodo e List.mem_cons_self
      have huse : g.use e = .header ∨ g.use e = .free 0 ∨ e = 0 := by
        rcases he with he | he
        · exact (h.made e he).imp_right .inl
        · exact .inr (.inr he)
      obtain ⟨m₁, hm₁⟩ := h.sound.listFree_some huse
      obtain ⟨g₁, h₁, hlim₁⟩ := h.free he hm₁
      have hrest : ∀ l, (H.drop e).live p = some l → l.drop (k + 1) = t := by
        intro l' hl'
        have hpe : p ≠ e := by
          rintro rfl
          rw [Heap.drop_live] at hl'
          exact absurd hl'.symm (Option.some_ne_none l')
        rw [Heap.drop_live_of_ne hpe, hlive] at hl'
        rw [← Option.some.inj hl', ← List.tail_drop, hdrop]
        rfl
      obtain ⟨m', g', hloop, hrep, hlim⟩ := ih (show Handle (H.drop e) p from hp) h₁ hrest
        (fun x hx => htodo x (List.mem_cons_of_mem e hx)) (Nat.lt_of_succ_lt_succ hfuel)
      refine ⟨m', g', ?_, ?_, hlim.trans hlim₁⟩
      · rw [listFreeCellsLoop, if_pos ⟨hne, hcap, by rw [hlen]; omega⟩, listFreeAt,
          h.cell_word hlive hk, hm₁]
        exact hloop
      · rw [Heap.dropEach, hlive]
        exact hrep

/-- A list and the lists in its cells are given back. -/
theorem freeDeep (h : Rep a g m H) (hp : Handle H p)
    (hcells : ∀ l, H.live p = some l → ∀ e ∈ l, Handle H e) :
    ∃ m' g', listFreeDeep a m p = some m' ∧ Rep a g' m' (H.dropDeep p) ∧ g'.lim = g.lim := by
  have hmade : ∀ (l : List Nat) (H : Heap), (Heap.dropEach p H l).made = H.made := by
    intro l
    induction l with
    | nil => exact fun _ => rfl
    | cons e l ih =>
      intro H
      rw [Heap.dropEach]
      split
      · rw [ih, Heap.drop_made]
      · rfl
  have hloop : ∃ m₁ g₁, listFreeCells a m p = some m₁ ∧
      Rep a g₁ m₁ (Heap.dropEach p H ((H.live p).getD [])) ∧ g₁.lim = g.lim := by
    refine freeCellsLoop hp h (fun l hl => ?_) (fun e he => ?_) ?_
    · rw [hl]
      rfl
    · cases hlive : H.live p with
      | none =>
        rw [hlive] at he
        exact absurd he List.not_mem_nil
      | some l =>
        rw [hlive] at he
        exact hcells l hlive e he
    · cases hlive : H.live p with
      | none => exact Nat.succ_pos _
      | some l =>
        rw [h.length hlive]
        exact Nat.lt_succ_self _
  obtain ⟨m₁, g₁, hm₁, h₁, hlim₁⟩ := hloop
  have hp₁ : Handle (Heap.dropEach p H ((H.live p).getD [])) p := by
    rw [Handle, hmade]
    exact hp
  have huse : g₁.use p = .header ∨ g₁.use p = .free 0 ∨ p = 0 := by
    rcases hp₁ with hp | hp
    · exact (h₁.made p hp).imp_right .inl
    · exact .inr (.inr hp)
  obtain ⟨m', hm'⟩ := h₁.sound.listFree_some huse
  obtain ⟨g', h', hlim'⟩ := h₁.free hp₁ hm'
  refine ⟨m', g', ?_, h', hlim'.trans hlim₁⟩
  rw [listFreeDeep, hm₁]
  exact hm'

/-! ## A list made from an array -/

/-- Whatever words are pushed, the list stays and the bump pointer does not go back. -/
theorem litLoop_top {cells n i : Nat} (h : Sound a m g) (hp : g.use p = .header) (hlim : g.lim = 80)
    (ht : listLitLoop a p cells n i m = some m') :
    ∃ g', Sound a m' g' ∧ g.top ≤ g'.top := by
  induction n generalizing i m g with
  | zero =>
    obtain rfl : m = m' := Option.some.inj ht
    exact ⟨g, h, Nat.le_refl _⟩
  | succ n ih =>
    simp only [listLitLoop, Option.bind_eq_bind, Option.bind_eq_some_iff] at ht
    obtain ⟨m₁, hpush, hrest⟩ := ht
    have hsmall := h.cap_lt hp
    obtain ⟨g₁, x, hpushed⟩ := h.listPush hp (ld64_lt ..) (fun _ => by rw [hlim]; omega) hpush
    obtain ⟨g', hs, htop⟩ := ih hpushed.change.sound hpushed.head (hpushed.change.lim.trans hlim) hrest
    exact ⟨g', hs, hpushed.change.top.trans htop⟩

/-- The words of the array, one after the other. -/
theorem litLoop {cells n i : Nat} (h : Rep a g m H) (hlim : g.lim = 80) (hl : H.live p = some l)
    (hi : i + n ≤ 2 ^ 28) (hcells : cells + 8 * (i + n) ≤ 2 ^ 64)
    (hout : ∀ j, cells ≤ j → j < cells + 8 * (i + n) → Foreign a (ld64 m' a) j)
    (ht : listLitLoop a p cells n i m = some m') :
    ∃ g', Rep a g' m' (H.set p (l ++ Arena.words m (cells + 8 * i) n)) ∧ g'.lim = 80 := by
  induction n generalizing i m g H l with
  | zero =>
    obtain rfl : m = m' := Option.some.inj ht
    refine ⟨g, ?_, hlim⟩
    rw [show Arena.words m (cells + 8 * i) 0 = [] from rfl, List.append_nil, Heap.set_self hl]
    exact h
  | succ n ih =>
    simp only [listLitLoop, Option.bind_eq_bind, Option.bind_eq_some_iff] at ht
    obtain ⟨m₁, hpush, hrest⟩ := ht
    have hoff : cellOff i = ((8 * i : Nat) : Int) := cellOff_small (by omega)
    rw [hoff, addrAdd_nat (by omega)] at hpush
    have hsmall := h.sound.cap_lt (h.header hl)
    obtain ⟨g₁, h₁, hlim₁, hframe⟩ := h.push hl (ld64_lt ..) (fun _ => by rw [hlim]; omega) hpush
    have hlim₁ := hlim₁.trans hlim
    -- The array lies outside all blocks taken until the end.
    have hhead₁ : g₁.use p = .header := h₁.header Heap.set_live
    obtain ⟨g', hs', htop⟩ := litLoop_top h₁.sound hhead₁ hlim₁ hrest
    have hsame : ∀ j, cells ≤ j → j < cells + 8 * (i + (n + 1)) → m₁ j = m j := fun j hge hlt => by
      refine hframe j ?_
      rcases hout j hge hlt with hj | ⟨-, hj⟩
      · exact .inl hj
      · rw [hs'.top_load] at hj
        exact .inr (by omega)
    obtain ⟨g', h', hlim'⟩ := ih (i := i + 1) h₁ hlim₁ Heap.set_live (by omega) (by omega)
      (fun j hge hlt => hout j hge (by omega)) hrest
    refine ⟨g', ?_, hlim'⟩
    have hwords : Arena.words m (cells + 8 * i) (n + 1) =
        ld64 m (cells + 8 * i) :: Arena.words m₁ (cells + 8 * (i + 1)) n := by
      rw [words_cons, words_move (m := m) (x := cells + 8 * (i + 1)) (d := cells + 8 * i + 8)
        fun j hj => by
          rw [show cells + 8 * i + 8 = cells + 8 * (i + 1) by omega]
          exact hsame _ (by omega) (by omega)]
    rw [Heap.set_set, List.append_assoc, List.singleton_append, ← hwords] at h'
    exact h'

end Rep

end IdCompiler.Arena

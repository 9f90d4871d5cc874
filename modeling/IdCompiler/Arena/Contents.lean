import IdCompiler.Arena.Lists
import Mathlib.Data.List.Basic

/-!
# What lists hold

The words of a list's cells as a list, what each operation makes of it, and that no
operation on another list changes it.
-/

namespace IdCompiler.Arena

open IdCompiler.Core

variable {a : Nat} {m m' : Bytes} {g g' : Layout} {d n p q v x : Nat} {ys : List Nat}

/-- The first `n` words from `d` on. -/
def words (m : Bytes) (d n : Nat) : List Nat := (List.range n).map fun i => ld64 m (d + 8 * i)

/-- The words of the list `p`. -/
def contents (m : Bytes) (p : Nat) : List Nat := words m (ld64 m (p + 16)) (ld64 m p)

@[simp] theorem length_words : (words m d n).length = n := by
  rw [words, List.length_map, List.length_range]

@[simp] theorem length_contents : (contents m p).length = ld64 m p := length_words

theorem getElem_words {i : Nat} (hi : i < n) :
    (words m d n)[i]? = some (ld64 m (d + 8 * i)) := by
  rw [words, List.getElem?_map, List.getElem?_range hi]
  rfl

/-- The same bytes, perhaps elsewhere, are the same words. -/
theorem words_move (h : ∀ i < 8 * n, m' (x + i) = m (d + i)) : words m' x n = words m d n := by
  refine List.map_congr_left fun i hi => ?_
  have hi := List.mem_range.mp hi
  have hbyte : ∀ j < 8, m' (x + 8 * i + j) = m (d + 8 * i + j) := fun j hj => by
    rw [Nat.add_assoc, Nat.add_assoc]
    exact h (8 * i + j) (by omega)
  have hload : ∀ k y z, (∀ j < k, m' (y + j) = m (z + j)) → m'.load y k = m.load z k := by
    intro k
    induction k with
    | zero => exact fun _ _ _ => rfl
    | succ k ih =>
      intro y z hyz
      have h0 := hyz 0 (by omega)
      rw [Bytes.load, Bytes.load, show m' y = m z from h0, ih (y + 1) (z + 1) fun j hj => ?_]
      have hj := hyz (j + 1) (by omega)
      rwa [← Nat.add_assoc, ← Nat.add_assoc, Nat.add_right_comm y, Nat.add_right_comm z] at hj
  exact hload 8 _ _ hbyte

theorem words_succ : words m d (n + 1) = words m d n ++ [ld64 m (d + 8 * n)] := by
  rw [words, List.range_succ, List.map_append]
  rfl

theorem words_cons : words m d (n + 1) = ld64 m d :: words m (d + 8) n := by
  rw [words, List.range_succ_eq_map, List.map_cons, List.map_map]
  refine congrArg _ (List.map_congr_left fun i _ => ?_)
  show ld64 m (d + 8 * (i + 1)) = ld64 m (d + 8 + 8 * i)
  congr 1
  omega

/-- One more word, behind what is there. -/
theorem words_push (hlast : ld64 m' (x + 8 * n) = v)
    (h : ∀ i < 8 * n, m' (x + i) = m (d + i)) : words m' x (n + 1) = words m d n ++ [v] := by
  rw [words_succ, hlast, words_move h]

/-- Another word in one cell. -/
theorem words_set {i : Nat} (hv : v < 2 ^ 64) :
    words (st64 m (d + 8 * i) v) d n = (words m d n).set i v := by
  refine List.ext_getElem? fun j => ?_
  rw [List.getElem?_set, length_words]
  by_cases hj : j < n
  · rw [getElem_words hj, getElem_words hj]
    split
    · next heq =>
      subst heq
      rw [if_pos hj, ld64_st64 hv]
    · rw [ld64_st64_apart (by omega)]
  · rw [List.getElem?_eq_none (by rw [length_words]; omega),
      List.getElem?_eq_none (by rw [length_words]; omega)]
    split
    · next heq => rw [if_neg (by omega)]
    · rfl

/-! ## Lists that an operation does not name -/

/-- A list is where it was, with the words it had. -/
theorem Change.contents (h : Change a ys g g' m m') (hs : Sound a m g)
    (hstay : ∀ y ∈ ys, g'.use y ≠ .none) (hq : g.use q = .header) (hqy : q ∉ ys)
    (hcy : ld64 m (q + 16) ∉ ys) : g'.use q = .header ∧ Arena.contents m' q = Arena.contents m q := by
  have hhead := hs.heads q hq
  have hn : g.use q ≠ .none := by rw [hq]; decide
  have hown := hhead.own
  have h0 : ld64 m' q = ld64 m q := h.load (k := 0) hstay hn hqy (by omega)
  have h16 : ld64 m' (q + 16) = ld64 m (q + 16) := h.load (k := 16) hstay hn hqy (by omega)
  have hlen := hhead.len
  have hroom := hhead.room
  refine ⟨(h.use q hqy).trans hq, ?_⟩
  rw [Arena.contents, Arena.contents, h0, h16]
  exact words_move fun i hi =>
    h.kept hstay (by rw [hhead.cells]; decide) hcy (Nat.le_add_right _ _) (by omega)

/-- The blocks of a new list are in use afterwards. -/
theorem Newed.stay (h : Newed a g g' p d m m') : ∀ y ∈ [p, d], g'.use y ≠ .none := by
  refine forall_two ?_ ?_
  · rw [h.head]
    decide
  · rw [← h.cells, (h.change.sound.heads p h.head).cells]
    decide

/-- The blocks of a new list are not those of another. -/
theorem Newed.others (h : Newed a g g' p d m m') (hs : Sound a m g) (hq : g.use q = .header) :
    q ≠ p ∧ g'.use q = .header ∧ Arena.contents m' q = Arena.contents m q := by
  have hcells := (hs.heads q hq).cells
  have hpn : ∀ {y u}, g.use y = u → u ≠ .none → u ≠ .free 0 → y ≠ p := by
    rintro y u hy hn hf rfl
    rcases h.head_was with hwas | hwas
    · exact hn (hy.symm.trans hwas)
    · exact hf (hy.symm.trans hwas)
  have hqp := hpn hq (by decide) Use.noConfusion
  refine ⟨hqp, h.change.contents hs h.stay hq ?_ ?_⟩
  · rw [List.mem_pair, not_or]
    exact ⟨hqp, (h.cells_was.ne hq (by decide) fun c _ => Use.noConfusion).symm⟩
  · rw [List.mem_pair, not_or]
    exact ⟨hpn hcells (by decide) Use.noConfusion,
      (h.cells_was.ne hcells (by decide) fun c _ => Use.noConfusion).symm⟩

/-- The blocks of a push are in use afterwards. -/
theorem Pushed.stay (h : Pushed a g g' p d x v m m') : ∀ y ∈ [p, d, x], g'.use y ≠ .none := by
  have hx : g'.use x = .cells := by
    rw [← h.cells]
    exact (h.change.sound.heads p h.head).cells
  refine forall_three ?_ ?_ ?_
  · rw [h.head]
    decide
  · rcases h.old with he | ⟨c, -, hc⟩
    · rw [← he, hx]
      decide
    · rw [hc]
      exact Use.noConfusion
  · rw [hx]
    decide

theorem Pushed.others (h : Pushed a g g' p (ld64 m (p + 16)) x v m m') (hs : Sound a m g)
    (hp : g.use p = .header) (hq : g.use q = .header) (hqp : q ≠ p) :
    g'.use q = .header ∧ Arena.contents m' q = Arena.contents m q := by
  have hd := (hs.heads p hp).cells
  have hcells := (hs.heads q hq).cells
  have hx : g'.use x = .cells := by
    rw [← h.cells]
    exact (h.change.sound.heads p h.head).cells
  have hxn : ∀ {y u}, g.use y = u → u = .header ∨ u = .cells → y ≠ ld64 m (p + 16) → y ≠ x := by
    rintro y u hy hu hne rfl
    rcases h.was with hwas | hwas
    · exact hne hwas
    · rcases hu with rfl | rfl
      · exact hwas.not_header hy
      · exact absurd rfl (hwas.ne hy (by decide) fun c _ => Use.noConfusion)
  have hqd : q ≠ ld64 m (p + 16) := fun he => by
    rw [← he, hq] at hd
    exact Use.noConfusion hd
  have hcd : ld64 m (q + 16) ≠ ld64 m (p + 16) := fun he => hqp (hs.cells_inj q p hq hp he)
  have hcp : ld64 m (q + 16) ≠ p := fun he => by
    rw [he, hp] at hcells
    exact Use.noConfusion hcells
  refine h.change.contents hs h.stay hq ?_ ?_
  · simp only [List.mem_cons, List.not_mem_nil, or_false, not_or]
    exact ⟨hqp, hqd, hxn hq (.inl rfl) hqd⟩
  · simp only [List.mem_cons, List.not_mem_nil, or_false, not_or]
    exact ⟨hcp, hcd, hxn hcells (.inr rfl) hcd⟩

theorem Freed.others (h : Freed a g g' p (ld64 m (p + 16)) m m') (hs : Sound a m g)
    (hp : g.use p = .header) (hq : g.use q = .header) (hqp : q ≠ p) :
    g'.use q = .header ∧ Arena.contents m' q = Arena.contents m q := by
  have hd := (hs.heads p hp).cells
  have hcells := (hs.heads q hq).cells
  obtain ⟨c, -, hc⟩ := h.cells
  refine h.change.contents hs (forall_two ?_ ?_) hq ?_ ?_
  · rw [h.head]
    exact Use.noConfusion
  · rw [hc]
    exact Use.noConfusion
  · rw [List.mem_pair, not_or]
    refine ⟨hqp, fun he => ?_⟩
    rw [← he, hq] at hd
    exact Use.noConfusion hd
  · rw [List.mem_pair, not_or]
    refine ⟨fun he => ?_, fun he => hqp (hs.cells_inj q p hq hp he)⟩
    rw [he, hp] at hcells
    exact Use.noConfusion hcells

/-- A change within the list `p` itself. -/
theorem Change.others (h : Change a [p] g g m m') (hs : Sound a m g) (hp : g.use p = .header)
    (hq : g.use q = .header) (hqp : q ≠ p) : Arena.contents m' q = Arena.contents m q := by
  have hcells := (hs.heads q hq).cells
  refine (h.contents hs (forall_one (by rw [hp]; decide)) hq (fun hin => ?_) fun hin => ?_).2
  · exact hqp (List.mem_singleton.mp hin)
  · rw [List.mem_singleton.mp hin, hp] at hcells
    exact Use.noConfusion hcells

/-- A change within the cells of the list `p`. -/
theorem Change.others_cells (h : Change a [ld64 m (p + 16)] g g m m') (hs : Sound a m g)
    (hp : g.use p = .header) (hq : g.use q = .header) (hqp : q ≠ p) :
    Arena.contents m' q = Arena.contents m q := by
  have hd := (hs.heads p hp).cells
  refine (h.contents hs (forall_one (by rw [hd]; decide)) hq (fun hin => ?_) fun hin => ?_).2
  · rw [List.mem_singleton.mp hin, hd] at hq
    exact Use.noConfusion hq
  · exact hqp (hs.cells_inj q p hq hp (List.mem_singleton.mp hin))

/-! ## The list an operation names -/

theorem Newed.contents (h : Newed a g g' p d m m') : Arena.contents m' p = [] := by
  rw [Arena.contents, h.len]
  rfl

theorem Pushed.contents (h : Pushed a g g' p (ld64 m (p + 16)) x v m m') :
    Arena.contents m' p = Arena.contents m p ++ [v] := by
  rw [Arena.contents, Arena.contents, h.len, h.cells]
  exact words_push h.last h.copy

/-- A pop gives the last word and leaves the others. -/
theorem Sound.contents_pop (h : Sound a m g) (hp : g.use p = .header) (hlen : 0 < ld64 m p) :
    Arena.contents m p = Arena.contents (Arena.listPop m p).2 p ++ [(Arena.listPop m p).1] := by
  obtain ⟨hchange, h0, hlast⟩ := h.listPop hp hlen
  have hcells := (h.heads p hp).cells
  have hroom := (h.heads p hp).room
  have hle := (h.heads p hp).len
  have hown := (h.heads p hp).own
  have hne := h.cells_ne hp
  have h16 : ld64 (Arena.listPop m p).2 (p + 16) = ld64 m (p + 16) := ld64_st64_apart (by omega)
  have hmove : words (Arena.listPop m p).2 (ld64 m (p + 16)) (ld64 m p - 1) =
      words m (ld64 m (p + 16)) (ld64 m p - 1) := words_move fun i hi =>
    hchange.kept (forall_one (by rw [hp]; decide)) (by rw [hcells]; decide)
      (fun hin => hne (List.mem_singleton.mp hin)) (Nat.le_add_right _ _) (by omega)
  rw [Arena.contents, Arena.contents, h0, h16, hmove, hlast, ← words_succ,
    Nat.sub_add_cancel hlen]

end IdCompiler.Arena

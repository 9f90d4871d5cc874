import IdCompiler.Arena.Open
import IdCompiler.Core.Reach

/-!
# Runs of the arena

A program takes regions, makes and changes lists and strings, gives them back and writes
in what it owns, in any order. Every operation keeps the arena sound, from its first use on.
-/

namespace IdCompiler.Arena

open IdCompiler.Core Relation

/-- The memory, and what the program was given and has not given back. -/
structure State where
  mem : Bytes
  lists : List Nat
  /-- Every address that `list_new` ever gave. -/
  made : List Nat
  /-- The blocks of strings, each with its length. -/
  strs : List (Nat × Nat)
  /-- The regions of `mem_alloc`. -/
  raws : List (Nat × Nat)

/-- Nothing taken yet. -/
def State.fresh (m : Bytes) : State := ⟨m, [], [], [], []⟩

/-- A byte outside the arena, or in a region that was given to the program. -/
def Outside (a : Nat) (s : State) (top i : Nat) : Prop :=
  i < a ∨ (a + 8 ≤ i ∧ top ≤ i) ∨ ∃ r ∈ s.raws, r.1 ≤ i ∧ i < r.1 + r.2

/-- A byte the program may write: also those of strings behind their counts, and of cells. -/
def Own (a : Nat) (s : State) (i : Nat) : Prop :=
  Outside a s (ld64 s.mem a) i ∨ (∃ t ∈ s.strs, t.1 + 8 ≤ i ∧ i < t.1 + t.2 + 9) ∨
    ∃ p ∈ s.lists, ld64 s.mem (p + 16) ≤ i ∧ i < ld64 s.mem (p + 16) + 8 * ld64 s.mem (p + 8)

/-- The address of a string: its count lies outside the arena, or it is a live string. -/
def Operand (a : Nat) (s : State) (top x : Nat) : Prop :=
  (∀ i, x - 8 ≤ i → i < x - 8 + 8 → Outside a s top i) ∨ ∃ t ∈ s.strs, x = t.1 + 8

/-- One operation. -/
inductive Step (a : Nat) : State → State → Prop
  | alloc {s : State} {z p : Nat} {m : Bytes} (ht : memAlloc a s.mem z = some (p, m)) :
    Step a s { s with mem := m, raws := (p, align z) :: s.raws }
  | new {s : State} {p : Nat} {m : Bytes} (ht : listNew a s.mem = some (p, m)) :
    Step a s { s with mem := m, lists := p :: s.lists, made := p :: s.made }
  | push {s : State} {p v : Nat} {m : Bytes} (hp : p ∈ s.lists) (hv : v < 2 ^ 64)
    (hcap : ld64 s.mem p = ld64 s.mem (p + 8) → 2 * ld64 s.mem (p + 8) < 2 ^ 36)
    (ht : listPush a s.mem p v = some m) : Step a s { s with mem := m }
  | pop {s : State} {p : Nat} (hp : p ∈ s.lists) (hlen : 0 < ld64 s.mem p) :
    Step a s { s with mem := (listPop s.mem p).2 }
  | free {s : State} {p : Nat} {m : Bytes} (hp : p ∈ s.made ∨ p = 0)
    (ht : listFree a s.mem p = some m) :
    Step a s { s with mem := m, lists := s.lists.erase p }
  -- The caller stores the count, as all of them do.
  | blk {s : State} {b n : Nat} {m : Bytes} (hn : n ≤ strMax)
    (ht : strBlk a s.mem n = some (b, m)) :
    Step a s { s with mem := st64 m b n, strs := (b, n) :: s.strs }
  | drop {s : State} {b n : Nat} {m : Bytes} (hb : (b, n) ∈ s.strs)
    (ht : strFree a s.mem (b + 8) = some m) :
    Step a s { s with mem := m, strs := s.strs.erase (b, n) }
  | word {s : State} {w x : Nat} {m : Bytes} (ht : strOfWord a s.mem w = some (x, m)) :
    Step a s { s with mem := m, strs := (x - 8, ld64 m (x - 8)) :: s.strs }
  | concat {s : State} {p q b x i j : Nat} {m₁ m : Bytes}
    (halloc : concatAlloc a s.mem p q = some (b, m₁))
    (hp : Operand a s (ld64 m₁ a) p) (hq : Operand a s (ld64 m₁ a) q)
    (hi : strLen s.mem p = i) (hj : strLen s.mem q = j) (hn : i + j < 2 ^ 31)
    (ht : concat a s.mem p q = some (x, m)) :
    Step a s { s with mem := m, strs := (x - 8, i + j) :: s.strs }
  | write {s : State} {m : Bytes} (hown : ∀ i, m i ≠ s.mem i → Own a s i) : Step a s { s with mem := m }

variable {a : Nat} {s s' : State} {g g' : Layout} {m m' : Bytes}

/-! ## What the blocks of a state are -/

/-- The live lists and strings are the blocks that the layout has for them. -/
structure Holds (s : State) (g : Layout) : Prop where
  lim : g.lim = 36
  lists : ∀ p, p ∈ s.lists ↔ g.use p = .header
  lists_nodup : s.lists.Nodup
  made : ∀ p ∈ s.made, g.use p = .header ∨ g.use p = .free 0
  strs : ∀ t ∈ s.strs, g.use t.1 = .str ∧ ld64 s.mem t.1 = t.2
  strs_nodup : (s.strs.map Prod.fst).Nodup
  raws : g.raw = s.raws

/-- The arena is sound, and the state is what its blocks say. -/
def Good (a : Nat) (s : State) : Prop := ∃ g, Sound a s.mem g ∧ Holds s g

/-- Strings whose blocks did not change. -/
theorem Holds.strs_kept {ys : List Nat} {strs : List (Nat × Nat)} (h : Holds s g)
    (hs : Sound a s.mem g) (hc : Change a ys g g' s.mem m') (hstay : ∀ y ∈ ys, g'.use y ≠ .none)
    (hsub : ∀ t ∈ strs, t ∈ s.strs ∧ t.1 ∉ ys) :
    ∀ t ∈ strs, g'.use t.1 = .str ∧ ld64 m' t.1 = t.2 := by
  intro t ht
  obtain ⟨hmem, hys⟩ := hsub t ht
  obtain ⟨huse, hlen⟩ := h.strs t hmem
  have hn : g.use t.1 ≠ .none := by rw [huse]; decide
  have hroom := hs.kept_le t.1 hn
  rw [huse] at hroom
  exact ⟨(hc.use t.1 hys).trans huse, (hc.load (k := 0) hstay hn hys hroom).trans hlen⟩

/-- A block of any other kind is not that of a string. -/
theorem Holds.str_ne {u : Use} {y : Nat} (h : Holds s g) (hy : g.use y = u) (hu : u ≠ .str) :
    ∀ t ∈ s.strs, t.1 ≠ y := by
  rintro t ht rfl
  exact hu (hy.symm.trans (h.strs t ht).1)

theorem Holds.str_spare {y : Nat} (h : Holds s g) (hy : g.Spare y) : ∀ t ∈ s.strs, t.1 ≠ y :=
  fun t ht he => hy.ne (h.strs t ht).1 (by decide) (fun c _ => Use.noConfusion) he.symm

/-- Outside the arena and in the regions nothing changes. -/
theorem Holds.outside_kept {ys : List Nat} {i : Nat} (h : Holds s g)
    (hc : Change a ys g g' s.mem m') (hstay : ∀ y ∈ ys, g'.use y ≠ .none)
    (hi : Outside a s g'.top i) : m' i = s.mem i := by
  have hge := hc.sound.placed.top_ge
  obtain hi | ⟨hi8, hi⟩ | ⟨r, hr, hlo, hhi⟩ := hi
  · exact hc.outside hstay (.inl hi)
  · exact hc.outside hstay (.inr hi)
  · rw [← h.raws, ← hc.raw] at hr
    have hin := hc.sound.placed.raw_inside r hr
    refine hc.bytes i (.inr (by omega)) fun y hy => ?_
    have hapart := hc.sound.placed.raw_apart r hr y (hc.sound.used y (hstay y hy))
    unfold Apart at hapart
    omega

/-- The length of an operand while another block is made. -/
theorem Holds.operand_kept {b x i : Nat} (h : Holds s g) (hs : Sound a s.mem g)
    (hc : Change a [b] g g' s.mem m') (hb : g.Spare b) (hstay : g'.use b ≠ .none)
    (hx : Operand a s g'.top x) (hi : strLen s.mem x = i) : strLen m' x = i := by
  have hstay' : ∀ y ∈ [b], g'.use y ≠ .none := forall_one hstay
  have hload : ld64 m' (x - 8) = ld64 s.mem (x - 8) := by
    obtain hx | ⟨t, ht, rfl⟩ := hx
    · refine Bytes.load_congr fun i hge hlt => ?_
      exact h.outside_kept hc hstay' (hx i hge hlt)
    · have hstr := h.strs_kept hs hc hstay' (fun t ht => ⟨ht, fun hin =>
        h.str_spare hb t ht (List.mem_singleton.mp hin)⟩) t ht
      have hsub : t.1 + 8 - 8 = t.1 := Nat.add_sub_cancel t.1 8
      rw [hsub]
      exact hstr.2.trans (h.strs t ht).2.symm
  unfold strLen at hi ⊢
  rw [hload]
  exact hi

/-! ## Each operation on an arena in use -/

theorem Good.alloc {z p : Nat} (h : Good a s) (ht : memAlloc a s.mem z = some (p, m)) :
    Good a { s with mem := m, raws := (p, align z) :: s.raws } := by
  obtain ⟨g, hs, hg⟩ := h
  obtain ⟨rfl, rfl, hlt, -⟩ := hs.memAlloc ht
  have hbump := hs.bump (hs.placed.region hlt) rfl rfl rfl fun _ _ => rfl
  refine ⟨g.region (align z), hbump, hg.lim, hg.lists, hg.lists_nodup, hg.made, fun t ht => ?_,
    hg.strs_nodup, by rw [region_raw, hg.raws]⟩
  have huse := (hg.strs t ht).1
  have hge := hs.block_ge (b := t.1) (by rw [huse]; decide)
  refine ⟨huse, ?_⟩
  show ld64 (st64 s.mem a _) t.1 = t.2
  rw [ld64_st64_apart (.inr (by omega))]
  exact (hg.strs t ht).2

theorem Good.new {p : Nat} (h : Good a s) (ht : listNew a s.mem = some (p, m)) :
    Good a { s with mem := m, lists := p :: s.lists, made := p :: s.made } := by
  obtain ⟨g, hs, hg⟩ := h
  obtain ⟨g', d, hnew⟩ := hs.listNew ht
  have hd' : g'.use d = .cells := by
    rw [← hnew.cells]
    exact (hnew.change.sound.heads p hnew.head).cells
  have hp : g.use p ≠ .header := fun hp => by
    rcases hnew.head_was with hwas | hwas <;> exact Use.noConfusion (hp.symm.trans hwas)
  have hstay : ∀ y ∈ [p, d], g'.use y ≠ .none := by
    intro y hy
    rcases List.mem_pair.mp hy with rfl | rfl
    · rw [hnew.head]
      decide
    · rw [hd']
      decide
  have hother : ∀ q, q ≠ p → q ≠ d → g'.use q = g.use q := fun q hqp hqd =>
    hnew.change.use q fun hin => (List.mem_pair.mp hin).elim hqp hqd
  refine ⟨g', hnew.change.sound, hnew.change.lim.trans hg.lim, fun q => ?_, ?_, fun q hq => ?_, ?_, hg.strs_nodup, ?_⟩
  · by_cases hqp : q = p
    · rw [hqp]
      exact ⟨fun _ => hnew.head, fun _ => List.mem_cons_self⟩
    · rw [List.mem_cons, or_iff_right hqp, hg.lists]
      by_cases hqd : q = d
      · rw [hqd, hd']
        exact ⟨fun hq => absurd rfl (hnew.cells_was.ne hq (by decide) fun c _ => Use.noConfusion),
          Use.noConfusion⟩
      · rw [hother q hqp hqd]
  · exact List.nodup_cons.mpr ⟨fun hin => hp ((hg.lists p).mp hin), hg.lists_nodup⟩
  · by_cases hqp : q = p
    · rw [hqp]
      exact .inl hnew.head
    · have hq := hg.made q ((List.mem_cons.mp hq).resolve_left hqp)
      by_cases hqd : q = d
      · subst hqd
        rcases hq with hq | hq
        · exact absurd rfl (hnew.cells_was.ne hq (by decide) fun c _ => Use.noConfusion)
        · exact absurd rfl (hnew.cells_was.ne hq Use.noConfusion fun c hc he =>
            hc (Use.free.inj he).symm)
      · rwa [hother q hqp hqd]
  · refine hg.strs_kept hs hnew.change hstay fun t ht => ⟨ht, fun hin => ?_⟩
    rcases List.mem_pair.mp hin with he | he
    · have huse := (hg.strs t ht).1
      rw [he] at huse
      rcases hnew.head_was with hwas | hwas <;> exact Use.noConfusion (huse.symm.trans hwas)
    · exact hg.str_spare hnew.cells_was t ht he
  · rw [hnew.change.raw, hg.raws]

/-- An operation that makes no list and gives none back. -/
theorem Holds.next {ys : List Nat} {strs : List (Nat × Nat)} (h : Holds s g)
    (hc : Change a ys g g' s.mem m')
    (hlists : ∀ y ∈ ys, g'.use y = .header ↔ g.use y = .header)
    (hmade : ∀ y ∈ ys, g.use y = .free 0 → g'.use y = .free 0)
    (hstrs : ∀ t ∈ strs, g'.use t.1 = .str ∧ ld64 m' t.1 = t.2)
    (hnodup : (strs.map Prod.fst).Nodup) :
    Good a { s with mem := m', strs := strs } := by
  have hhead : ∀ q, g'.use q = .header ↔ g.use q = .header := by
    intro q
    by_cases hq : q ∈ ys
    · exact hlists q hq
    · rw [hc.use q hq]
  refine ⟨g', hc.sound, hc.lim.trans h.lim, fun q => (h.lists q).trans (hhead q).symm, h.lists_nodup, fun q hq => ?_,
    hstrs, hnodup, by rw [hc.raw, h.raws]⟩
  rcases h.made q hq with hq | hq
  · exact .inl ((hhead q).mpr hq)
  · by_cases hy : q ∈ ys
    · exact .inr (hmade q hy hq)
    · rw [hc.use q hy]
      exact .inr hq

/-- The same where the strings stay as they are. -/
theorem Holds.next_same {ys : List Nat} (h : Holds s g) (hs : Sound a s.mem g)
    (hc : Change a ys g g' s.mem m') (hstay : ∀ y ∈ ys, g'.use y ≠ .none)
    (hlists : ∀ y ∈ ys, g'.use y = .header ↔ g.use y = .header)
    (hmade : ∀ y ∈ ys, g.use y = .free 0 → g'.use y = .free 0)
    (hys : ∀ t ∈ s.strs, t.1 ∉ ys) : Good a { s with mem := m' } :=
  h.next hc hlists hmade (h.strs_kept hs hc hstay fun t ht => ⟨ht, hys t ht⟩) h.strs_nodup

theorem Good.push {p v : Nat} (h : Good a s) (hp : p ∈ s.lists) (hv : v < 2 ^ 64)
    (hcap : ld64 s.mem p = ld64 s.mem (p + 8) → 2 * ld64 s.mem (p + 8) < 2 ^ 36)
    (ht : listPush a s.mem p v = some m) : Good a { s with mem := m } := by
  obtain ⟨g, hs, hg⟩ := h
  have hp := (hg.lists p).mp hp
  have hcells := (hs.heads p hp).cells
  obtain ⟨g', x, hpush⟩ := hs.listPush hp hv (fun he => by rw [hg.lim]; have := hcap he; omega) ht
  have hx' : g'.use x = .cells := by
    rw [← hpush.cells]
    exact (hpush.change.sound.heads p hpush.head).cells
  -- What the old cells are afterwards: the cells still, or free.
  have hd' : g'.use (ld64 s.mem (p + 16)) = .cells ∨ ∃ c, c ≠ 0 ∧ g'.use (ld64 s.mem (p + 16)) = .free c :=
    hpush.old.imp_left fun he => by rw [← he, hx']
  have hx : g.use x = .cells ∨ g.Spare x := hpush.was.imp_left fun he => by rw [he, hcells]
  refine hg.next_same hs hpush.change (forall_three ?_ ?_ ?_) (forall_three ?_ ?_ ?_)
    (forall_three ?_ ?_ ?_) ?_
  · rw [hpush.head]
    decide
  · rcases hd' with hd' | ⟨c, -, hd'⟩ <;> rw [hd'] <;> exact Use.noConfusion
  · rw [hx']
    decide
  · rw [hpush.head, hp]
  · rw [hcells]
    refine ⟨fun he => ?_, Use.noConfusion⟩
    rcases hd' with hd' | ⟨c, -, hd'⟩ <;> exact Use.noConfusion (he.symm.trans hd')
  · rw [hx']
    refine ⟨Use.noConfusion, fun he => ?_⟩
    rcases hx with hx | hx
    · exact Use.noConfusion (he.symm.trans hx)
    · exact absurd he hx.not_header
  · exact fun he => Use.noConfusion (hp.symm.trans he)
  · exact fun he => Use.noConfusion (hcells.symm.trans he)
  · intro he
    rcases hx with hx | hx
    · exact Use.noConfusion (he.symm.trans hx)
    · exact absurd he hx.not_free
  · intro t ht hin
    simp only [List.mem_cons, List.not_mem_nil, or_false] at hin
    rcases hin with he | he | he
    · exact hg.str_ne hp (by decide) t ht he
    · exact hg.str_ne hcells (by decide) t ht he
    · rcases hx with hx | hx
      · exact hg.str_ne hx (by decide) t ht he
      · exact hg.str_spare hx t ht he

theorem Good.pop {p : Nat} (h : Good a s) (hp : p ∈ s.lists) (hlen : 0 < ld64 s.mem p) :
    Good a { s with mem := (listPop s.mem p).2 } := by
  obtain ⟨g, hs, hg⟩ := h
  have hp := (hg.lists p).mp hp
  refine hg.next_same hs (hs.listPop hp hlen).1 (fun y hy => ?_) (fun _ _ => Iff.rfl)
    (fun _ _ => id) fun t ht hin => ?_
  · rw [List.mem_singleton.mp hy, hp]
    decide
  · exact hg.str_ne hp (by decide) t ht (List.mem_singleton.mp hin)

theorem Good.free {p : Nat} (h : Good a s) (hp : p ∈ s.made ∨ p = 0)
    (ht : listFree a s.mem p = some m) :
    Good a { s with mem := m, lists := s.lists.erase p } := by
  obtain ⟨g, hs, hg⟩ := h
  by_cases hhead : g.use p = .header
  · obtain ⟨g', hfree⟩ := hs.listFree hhead ht
    have hcells := (hs.heads p hhead).cells
    obtain ⟨c, hc, hd⟩ := hfree.cells
    have hstay : ∀ y ∈ [p, ld64 s.mem (p + 16)], g'.use y ≠ .none := by
      intro y hy
      rcases List.mem_pair.mp hy with heq | heq
      · rw [heq, hfree.head]
        exact Use.noConfusion
      · rw [heq, hd]
        exact Use.noConfusion
    have hother : ∀ q, q ≠ p → q ≠ ld64 s.mem (p + 16) → g'.use q = g.use q := fun q hqp hqd =>
      hfree.change.use q fun hin => (List.mem_pair.mp hin).elim hqp hqd
    refine ⟨g', hfree.change.sound, hfree.change.lim.trans hg.lim, fun q => ?_, hg.lists_nodup.erase p, fun q hq => ?_, ?_,
      hg.strs_nodup, by rw [hfree.change.raw, hg.raws]⟩
    · rw [hg.lists_nodup.mem_erase_iff, hg.lists]
      by_cases hqp : q = p
      · rw [hqp, hfree.head]
        exact ⟨fun he => absurd rfl he.1, Use.noConfusion⟩
      · rw [and_iff_right hqp]
        by_cases hqd : q = ld64 s.mem (p + 16)
        · rw [hqd, hd, hcells]
          exact ⟨Use.noConfusion, Use.noConfusion⟩
        · rw [hother q hqp hqd]
    · by_cases hqp : q = p
      · rw [hqp]
        exact .inr hfree.head
      · have hq := hg.made q hq
        by_cases hqd : q = ld64 s.mem (p + 16)
        · rw [hqd, hcells] at hq
          rcases hq with hq | hq <;> exact Use.noConfusion hq
        · rwa [hother q hqp hqd]
    · refine hg.strs_kept hs hfree.change hstay fun t ht => ⟨ht, fun hin => ?_⟩
      rcases List.mem_pair.mp hin with he | he
      · exact hg.str_ne hhead (by decide) t ht he
      · exact hg.str_ne hcells (by decide) t ht he
  · -- The header is marked, or there is no list: nothing happens.
    have hsame := hs.listFree_again (p := p) (hp.imp_left fun hp => (hg.made p hp).resolve_left hhead)
    obtain rfl : s.mem = m := Option.some.inj (hsame.symm.trans ht)
    rw [List.erase_of_not_mem fun hin => hhead ((hg.lists p).mp hin)]
    exact ⟨g, hs, hg⟩

/-- A new string, beside other blocks that the operation gave back again. -/
theorem Good.text {b n : Nat} {ys : List Nat} (hg : Holds s g) (hs : Sound a s.mem g)
    (hc : Change a ys g g' s.mem m) (hstay : ∀ y ∈ ys, g'.use y ≠ .none)
    (hys : ∀ y ∈ ys, g.Spare y ∧ g'.use y ≠ .header) (hb : b ∈ ys) (hstr : g'.use b = .str)
    (hlen : ld64 m b = n) : Good a { s with mem := m, strs := (b, n) :: s.strs } := by
  refine hg.next hc (fun y hy => ?_) (fun y hy he => absurd he (hys y hy).1.not_free) ?_ ?_
  · exact ⟨fun he => absurd he (hys y hy).2, fun he => absurd he (hys y hy).1.not_header⟩
  · intro t ht
    rcases List.mem_cons.mp ht with rfl | ht
    · exact ⟨hstr, hlen⟩
    · exact hg.strs_kept hs hc hstay
        (fun t ht => ⟨ht, fun hin => hg.str_spare (hys _ hin).1 t ht rfl⟩) t ht
  · refine List.nodup_cons.mpr ⟨fun hin => ?_, hg.strs_nodup⟩
    obtain ⟨t, ht, he⟩ := List.mem_map.mp hin
    exact hg.str_spare (hys b hb).1 t ht he

theorem Good.texted {b n : Nat} (hg : Holds s g) (hs : Sound a s.mem g)
    (ht : Texted a g g' b n s.mem m) : Good a { s with mem := m, strs := (b, n) :: s.strs } := by
  refine Good.text hg hs ht.change (forall_one ?_) (forall_one ⟨ht.was, ?_⟩) List.mem_cons_self ht.str ht.len
  · rw [ht.str]
    decide
  · rw [ht.str]
    decide

theorem Good.blk {b n : Nat} (h : Good a s) (hn : n ≤ strMax)
    (ht : strBlk a s.mem n = some (b, m)) :
    Good a { s with mem := st64 m b n, strs := (b, n) :: s.strs } := by
  obtain ⟨g, hs, hg⟩ := h
  obtain ⟨g', c, hc, hsound, htaken, hoff⟩ := hs.strBlk hg.lim hn ht
  have hroom := hc.fits hg.lim htaken
  have hmax : n ≤ 2 ^ 47 - 9 := hn
  exact Good.texted hg hs (hsound.texted hg.lim htaken hoff hc (fun i hi => st64_apart (by omega))
    (ld64_st64 (by omega)))

theorem Good.word {w x : Nat} (h : Good a s) (ht : strOfWord a s.mem w = some (x, m)) :
    Good a { s with mem := m, strs := (x - 8, ld64 m (x - 8)) :: s.strs } := by
  obtain ⟨g, hs, hg⟩ := h
  obtain ⟨g', p, b, n, rfl, hne, hc, hp, hb, ⟨c, -, hp'⟩, hb', hlen, -⟩ := hs.strOfWord hg.lim ht
  have hsub : b + 8 - 8 = b := Nat.add_sub_cancel b 8
  rw [hsub]
  refine Good.text hg hs hc (forall_two ?_ ?_) (forall_two ⟨hp, ?_⟩ ⟨hb, ?_⟩) (by simp) hb' rfl
  · rw [hp']
    exact Use.noConfusion
  · rw [hb']
    decide
  · rw [hp']
    exact Use.noConfusion
  · rw [hb']
    decide

theorem Good.concat {p q b x i j : Nat} {m₁ : Bytes} (h : Good a s)
    (halloc : concatAlloc a s.mem p q = some (b, m₁)) (hp : Operand a s (ld64 m₁ a) p)
    (hq : Operand a s (ld64 m₁ a) q) (hi : strLen s.mem p = i) (hj : strLen s.mem q = j)
    (hn : i + j < 2 ^ 31) (ht : concat a s.mem p q = some (x, m)) :
    Good a { s with mem := m, strs := (x - 8, i + j) :: s.strs } := by
  obtain ⟨g, hs, hg⟩ := h
  obtain ⟨g', rfl, htext⟩ := hs.concat hg.lim hi hj hn halloc (fun m' g' hc hb hstay htop =>
    ⟨hg.operand_kept hs hc hb hstay (htop ▸ hp) hi, hg.operand_kept hs hc hb hstay (htop ▸ hq) hj⟩) ht
  have hsub : b + 8 - 8 = b := Nat.add_sub_cancel b 8
  rw [hsub]
  exact Good.texted hg hs htext

theorem Good.drop {b n : Nat} (h : Good a s) (hb : (b, n) ∈ s.strs)
    (ht : strFree a s.mem (b + 8) = some m) :
    Good a { s with mem := m, strs := s.strs.erase (b, n) } := by
  obtain ⟨g, hs, hg⟩ := h
  have huse := (hg.strs _ hb).1
  obtain ⟨g', c, hc, hc0, hfree⟩ := hs.strFree huse ht
  have hnodup : s.strs.Nodup := hg.strs_nodup.of_map
  refine hg.next hc (forall_one ?_) (forall_one ?_) ?_ (hg.strs_nodup.sublist (List.erase_sublist.map _))
  · rw [hfree, huse]
    exact ⟨Use.noConfusion, Use.noConfusion⟩
  · intro he
    exact Use.noConfusion (huse.symm.trans he)
  · refine hg.strs_kept hs hc (forall_one (by rw [hfree]; exact Use.noConfusion)) fun t ht => ?_
    obtain ⟨hne, hmem⟩ := hnodup.mem_erase_iff.mp ht
    refine ⟨hmem, fun hin => hne ?_⟩
    -- Two strings with one block are one string.
    have hlen := (hg.strs t hmem).2
    have hlen' := (hg.strs _ hb).2
    have hfst := List.mem_singleton.mp hin
    rw [hfst] at hlen
    exact Prod.ext hfst (hlen.symm.trans hlen')

/-- The bytes a program owns are none that the allocator reads again. -/
theorem Holds.frame (hg : Holds s g) (hs : Sound a s.mem g)
    (hown : ∀ i, m i ≠ s.mem i → Own a s i) : Frame a g s.mem m := by
  have htop := hs.placed.top_ge
  have hcells : ∀ p ∈ s.lists, g.use (ld64 s.mem (p + 16)) = .cells ∧
      8 * ld64 s.mem (p + 8) ≤ g.size (ld64 s.mem (p + 16)) := fun p hp =>
    have hp := hs.heads p ((hg.lists p).mp hp)
    ⟨hp.cells, hp.room⟩
  have hstrs : ∀ t ∈ s.strs, g.use t.1 = .str ∧ t.2 + 9 ≤ g.size t.1 := fun t ht => by
    obtain ⟨huse, hlen⟩ := hg.strs t ht
    obtain ⟨-, c, hc, hroom⟩ := hs.texts t.1 huse
    have hlong := hc.room
    rw [hg.lim] at hroom
    exact ⟨huse, by omega⟩
  constructor
  case table =>
    intro i hge hlt
    by_contra hne
    obtain (hi | ⟨hi, hi'⟩ | ⟨r, hr, hlo, hhi⟩) | ⟨t, ht, hlo, hhi⟩ | ⟨p, hp, hlo, hhi⟩ := hown i hne
    · omega
    · rw [hs.top_load] at hi'
      omega
    · rw [← hg.raws] at hr
      have hin := hs.placed.raw_inside r hr
      omega
    · have hin := hs.block_ge (b := t.1) (by rw [(hstrs t ht).1]; decide)
      omega
    · have hin := hs.block_ge (b := ld64 s.mem (p + 16)) (by rw [(hcells p hp).1]; decide)
      omega
  case block =>
    intro b i hge hlt
    by_contra hne
    have hb : g.use b ≠ .none := fun hb => by
      rw [hb] at hlt
      exact absurd hlt (by show ¬i < b + 0; omega)
    have hle := hs.kept_le b hb
    have hin := hs.placed.inside b (hs.used b hb)
    obtain (hi | ⟨hi, hi'⟩ | ⟨r, hr, hlo, hhi⟩) | ⟨t, ht, hlo, hhi⟩ | ⟨p, hp, hlo, hhi⟩ := hown i hne
    · omega
    · rw [hs.top_load] at hi'
      omega
    · rw [← hg.raws] at hr
      have hapart := hs.placed.raw_apart r hr b (hs.used b hb)
      unfold Apart at hapart
      omega
    · obtain ⟨huse, hroom⟩ := hstrs t ht
      by_cases htb : t.1 = b
      · rw [← htb, huse] at hlt
        exact absurd hlt (by show ¬i < t.1 + 8; omega)
      · have hapart := hs.apart_of_ne (by rw [huse]; decide) hb htb
        unfold Apart at hapart
        omega
    · obtain ⟨huse, hroom⟩ := hcells p hp
      by_cases hdb : ld64 s.mem (p + 16) = b
      · rw [← hdb, huse] at hlt
        exact absurd hlt (by show ¬i < ld64 s.mem (p + 16) + 0; omega)
      · have hapart := hs.apart_of_ne (by rw [huse]; decide) hb hdb
        unfold Apart at hapart
        omega

theorem Good.write (h : Good a s) (hown : ∀ i, m i ≠ s.mem i → Own a s i) :
    Good a { s with mem := m } := by
  obtain ⟨g, hs, hg⟩ := h
  have hf := hg.frame hs hown
  refine ⟨g, hs.frame hf, hg.lim, hg.lists, hg.lists_nodup, hg.made, fun t ht => ?_, hg.strs_nodup, hg.raws⟩
  obtain ⟨huse, hlen⟩ := hg.strs t ht
  exact ⟨huse, (hf.load_first (by rw [huse]; decide)).trans hlen⟩

/-- Every operation keeps the arena sound. -/
theorem Good.step (h : Good a s) (hstep : Step a s s') : Good a s' := by
  cases hstep with
  | alloc ht => exact h.alloc ht
  | new ht => exact h.new ht
  | push hp hv hcap ht => exact h.push hp hv hcap ht
  | pop hp hlen => exact h.pop hp hlen
  | free hp ht => exact h.free hp ht
  | blk hn ht => exact h.blk hn ht
  | drop hb ht => exact h.drop hb ht
  | word ht => exact h.word ht
  | concat halloc hp hq hi hj hn ht => exact h.concat halloc hp hq hi hj hn ht
  | write hown => exact h.write hown

/-! ## Runs from the first use on -/

/-- Not opened yet, and nothing taken. -/
def Unopened (a : Nat) (s : State) : Prop := ld64 s.mem a = 0 ∧ s = .fresh s.mem

/-- An arena just opened is in order. -/
theorem opened_good (hlt : a + 648 < 2 ^ 64) : Good a (.fresh (opened a m)) :=
  ⟨.empty a 36, opened_sound hlt (by decide), rfl, fun _ => ⟨fun hp => absurd hp List.not_mem_nil, Use.noConfusion⟩,
    List.nodup_nil, fun _ hp => absurd hp List.not_mem_nil, fun _ ht => absurd ht List.not_mem_nil,
    List.nodup_nil, rfl⟩

/-- The length of a string outside the arena, once the arena is open. -/
theorem strLen_opened {top x : Nat} (htop : a + 648 ≤ top) (hx : Operand a (.fresh m) top x) :
    strLen (opened a m) x = strLen m x := by
  have hload : ld64 (opened a m) (x - 8) = ld64 m (x - 8) := by
    obtain hx | ⟨t, ht, -⟩ := hx
    · refine Bytes.load_congr fun i hge hlt => opened_apart ?_
      obtain hi | ⟨-, hi⟩ | ⟨r, hr, -⟩ := hx i hge hlt
      · exact .inl hi
      · exact .inr (by omega)
      · exact absurd hr List.not_mem_nil
    · exact absurd ht List.not_mem_nil
  unfold strLen
  rw [hload]

/-- The bump pointer after the block for two strings is taken. -/
theorem concatAlloc_top {p q b i j : Nat} {m₁ : Bytes} (h0 : ld64 m a = 0) (hlt : a + 648 < 2 ^ 64)
    (hi : strLen m p = i) (hj : strLen m q = j) (hn : i + j < 2 ^ 31)
    (ht : concatAlloc a m p q = some (b, m₁)) : a + 648 ≤ ld64 m₁ a := by
  have hmax : i + j ≤ strMax := by
    unfold strMax
    omega
  rw [concatAlloc_eq hi hj hn, strBlk_first h0 hlt hmax, Option.map_eq_some_iff] at ht
  obtain ⟨⟨b', m₀⟩, hblk, heq⟩ := ht
  obtain ⟨rfl, rfl⟩ := Prod.mk.inj heq
  have hopen : Sound a (opened a m) (Layout.empty a 36) := opened_sound hlt (by decide)
  obtain ⟨g₁, c, hc, hsound, htaken, hoff⟩ := hopen.strBlk rfl hmax hblk
  have hroom := hc.fits rfl htaken
  have hwrite : Change a [b'] g₁ g₁ m₀ (st64 m₀ b' (i + j)) :=
    hsound.write (by rw [htaken.use, turn_use]) fun k hk => st64_apart (by omega)
  rw [hwrite.sound.top_load]
  exact hsound.placed.top_ge

/-- The first operations, up to the one that opens the arena. -/
theorem unopened_step (h0 : ld64 m a = 0) (hlt : a + 648 < 2 ^ 64) (hstep : Step a (.fresh m) s') :
    Good a s' ∨ Unopened a s' := by
  have hgood := opened_good (m := m) hlt
  cases hstep with
  | alloc ht =>
    rw [show (State.fresh m).mem = m from rfl, memAlloc_first h0 hlt] at ht
    exact .inl (hgood.alloc ht)
  | new ht =>
    rw [show (State.fresh m).mem = m from rfl, listNew_first h0 hlt] at ht
    exact .inl (hgood.new ht)
  | push hp => exact absurd hp List.not_mem_nil
  | pop hp => exact absurd hp List.not_mem_nil
  | @free p m' hp ht =>
    obtain rfl : p = 0 := hp.resolve_left List.not_mem_nil
    obtain rfl : m = m' := Option.some.inj ht
    exact .inr ⟨h0, rfl⟩
  | blk hn ht =>
    rw [show (State.fresh m).mem = m from rfl, strBlk_first h0 hlt hn] at ht
    exact .inl (hgood.blk hn ht)
  | drop hb => exact absurd hb List.not_mem_nil
  | word ht =>
    rw [show (State.fresh m).mem = m from rfl, strOfWord_first h0 hlt] at ht
    exact .inl (hgood.word ht)
  | @concat p q b x i j m₁ m' halloc hp hq hi hj hn ht =>
    have htop := concatAlloc_top h0 hlt hi hj hn halloc
    have hi' := (strLen_opened htop hp).trans hi
    have hj' := (strLen_opened htop hq).trans hj
    have hsame := concatAlloc_first h0 hlt hi hj hi' hj' hn
    have ht' : concat a (opened a m) p q = some (x, m') := by
      rw [Arena.concat, ← hsame]
      exact ht
    exact .inl (hgood.concat (hsame ▸ halloc) hp hq hi' hj' hn ht')
  | @write m' hown =>
    refine .inr ⟨?_, rfl⟩
    rw [← h0]
    refine Bytes.load_congr fun i hge hlt => ?_
    by_contra hne
    obtain (hi | ⟨hi, -⟩ | ⟨r, hr, -⟩) | ⟨t, ht, -⟩ | ⟨p, hp, -⟩ := hown i hne
    · omega
    · omega
    · exact absurd hr List.not_mem_nil
    · exact absurd ht List.not_mem_nil
    · exact absurd hp List.not_mem_nil

/-- A run keeps the arena unopened, or in order. -/
theorem run_good (h0 : ld64 m a = 0) (hlt : a + 648 < 2 ^ 64)
    (hrun : ReflTransGen (Step a) (.fresh m) s) : Good a s ∨ Unopened a s := by
  have hclosed : Closed (Step a) fun s => Good a s ∨ Unopened a s := by
    intro s s' hs hstep
    obtain hs | ⟨hs, heq⟩ := hs
    · exact .inl (hs.step hstep)
    · rw [heq] at hstep
      exact unopened_step hs hlt hstep
  exact hclosed.reach hrun (.inr ⟨h0, rfl⟩)

end IdCompiler.Arena

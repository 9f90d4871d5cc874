import IdCompiler.Arena.Run

/-!
# What strings hold

The bytes of a string as a list, that a string made from bytes of the memory has those
bytes, and that a string is made wherever the arena has room for it.
-/

namespace IdCompiler.Arena

open IdCompiler.Core Relation

variable {a : Nat} {m m' : Bytes} {g g' : Layout} {b c k n p src x z : Nat} {bs : List (BitVec 8)}

/-- The `n` bytes from `x` on. -/
def bytesAt (m : Bytes) (x n : Nat) : List (BitVec 8) := (List.range n).map fun k => m (x + k)

/-- The string at `x` has these bytes: their count before them, and a NUL behind. -/
structure Spells (m : Bytes) (x : Nat) (bs : List (BitVec 8)) : Prop where
  count : ld64 m (x - 8) = bs.length
  bytes : bytesAt m x bs.length = bs
  nul : m (x + bs.length) = 0#8

@[simp] theorem length_bytesAt : (bytesAt m x n).length = n := by
  rw [bytesAt, List.length_map, List.length_range]

theorem getElem_bytesAt (hk : k < n) : (bytesAt m x n)[k]? = some (m (x + k)) := by
  rw [bytesAt, List.getElem?_map, List.getElem?_range hk]
  rfl

theorem bytesAt_congr {y : Nat} (h : ∀ k < n, m' (x + k) = m (y + k)) :
    bytesAt m' x n = bytesAt m y n :=
  List.map_congr_left fun k hk => h k (List.mem_range.mp hk)

theorem bytesAt_succ : bytesAt m x (n + 1) = m x :: bytesAt m (x + 1) n := by
  rw [bytesAt, List.range_succ_eq_map, List.map_cons, List.map_map]
  refine congrArg _ (List.map_congr_left fun k _ => ?_)
  show m (x + (k + 1)) = m (x + 1 + k)
  congr 1
  omega

theorem bytesAt_add : bytesAt m x (n + k) = bytesAt m x n ++ bytesAt m (x + n) k := by
  rw [bytesAt, List.range_add, List.map_append, List.map_map]
  refine congrArg _ (List.map_congr_left fun i _ => ?_)
  show m (x + (n + i)) = m (x + n + i)
  rw [Nat.add_assoc]

/-- The same bytes in another memory are the same string. -/
theorem Spells.congr (h : Spells m x bs) (hx : 8 ≤ x)
    (hm : ∀ i, x - 8 ≤ i → i ≤ x + bs.length → m' i = m i) : Spells m' x bs := by
  constructor
  case count =>
    rw [← h.count]
    exact Bytes.load_congr fun i hge hlt => hm i hge (by omega)
  case bytes =>
    rw [bytesAt_congr fun k hk => hm (x + k) (by omega) (by omega)]
    exact h.bytes
  case nul =>
    rw [hm _ (by omega) (Nat.le_refl _)]
    exact h.nul

/-! ## A string from bytes of the memory -/

/-- Bytes that taking a block does not change, and that lie apart from it, are copied. -/
theorem strOfMem_spells {m₁ : Bytes} (hblk : strBlk a m n = some (b, m₁)) (hn : n ≤ strMax)
    (hkeep : ∀ k < n, m₁ (src + k) = m (src + k)) (hap : Apart src n (b + 8) n)
    (ht : strOfMem a m src n = some (x, m')) : x = b + 8 ∧ Spells m' x (bytesAt m src n) := by
  simp only [strOfMem, hblk, Option.bind_eq_bind, Option.bind_some, strOfMemAt, Option.pure_def,
    Option.some.injEq, Prod.mk.injEq] at ht
  obtain ⟨rfl, rfl⟩ := ht
  unfold strMax at hn
  refine ⟨rfl, ?_, ?_, ?_⟩
  · rw [length_bytesAt, Nat.add_sub_cancel, ld64_st8_apart (by omega)]
    exact ld64_st64 (by omega)
  · rw [length_bytesAt]
    refine bytesAt_congr fun k hk => ?_
    rw [st8_apart (by omega), st64_apart (by omega), copyBytes_in hap hk]
    exact hkeep k hk
  · rw [length_bytesAt, st8, Bytes.store, if_pos ⟨Nat.le_refl _, by omega⟩, Nat.zero_div]


/-- The same in a sound arena, for bytes off the table. -/
theorem Sound.strOfMem_spells (h : Sound a m g) (hlim : g.lim = 36) (hn : n ≤ strMax)
    (hoff : ∀ k < n, src + k < a ∨ a + 648 ≤ src + k) (ht : Arena.strOfMem a m src n = some (x, m')) :
    ∃ g' b, x = b + 8 ∧ Texted a g g' b n m m' ∧
      (Apart src n (b + 8) n → Spells m' x (bytesAt m src n)) := by
  have ht' := ht
  simp only [Arena.strOfMem, Option.bind_eq_bind, Option.bind_eq_some_iff] at ht'
  obtain ⟨⟨b, m₁⟩, hblk, heq⟩ := ht'
  obtain ⟨rfl, -⟩ := Prod.mk.inj (Option.some.inj heq)
  obtain ⟨g₁, c, -, -, -, htable⟩ := h.strBlk hlim hn hblk
  obtain ⟨g', b', hb, htext⟩ := h.strOfMem hlim hn ht
  obtain rfl : b = b' := Nat.add_right_cancel hb
  exact ⟨g', b, rfl, htext, fun hap =>
    (Arena.strOfMem_spells hblk hn (fun k hk => htable _ (hoff k hk)) hap ht).2⟩

/-! ## Where the arena has room -/

/-- What a string's class hands out is less than twice what the string takes. -/
theorem strClass.handOut_le (hc : strClass n c) : handOut 36 c ≤ 2 * (n + 9) := by
  obtain ⟨j, -, hcls, -, hgo⟩ := poolCls_first (z := 16) (c := 36) (t := n + 9) (k := 43)
    (by norm_num) (by decide) (by have := hc.1; unfold strMax at this; omega)
  obtain ⟨-, -, -, hcls'⟩ := hc
  rw [Nat.cast_add] at hcls
  obtain rfl : c = 36 + j := Option.some.inj (hcls'.symm.trans hcls)
  rw [handOut_str]
  cases j with
  | zero => omega
  | succ j =>
    have hlast := hgo j (Nat.lt_succ_self j)
    rw [Nat.pow_succ]
    omega

/-- A block is taken where the bump pointer may go on by its size, and goes no further. -/
theorem Sound.poolTake_some (h : Sound a m g) (hc : c < 80) (hz : g.top + z + 7 < 2 ^ 64) :
    ∃ b m', Arena.poolTake a m c z = some (b, m') ∧ ld64 m' a ≤ g.top + z + 7 := by
  rw [Arena.poolTake, h.poolHead]
  dsimp only
  unfold poolNext
  split
  · rw [Arena.memAlloc, h.arenaTop]
    dsimp only
    rw [if_pos hz]
    refine ⟨_, _, rfl, ?_⟩
    have halign := align_eq (z := z) (by omega)
    rw [ld64_st64 (by omega)]
    omega
  · refine ⟨_, _, rfl, ?_⟩
    rw [ld64_st64_apart (by omega), h.top_load]
    omega

theorem Sound.strBlk_some (h : Sound a m g) (hn : n ≤ strMax)
    (hroom : g.top + 2 * n + 25 < 2 ^ 64) :
    ∃ b m', Arena.strBlk a m n = some (b, m') ∧ ld64 m' a ≤ g.top + 2 * n + 25 := by
  obtain ⟨c, hc, -⟩ := poolCls_str hn
  have hle := hc.handOut_le
  have hsize := strCsz_eq hc.2.1 hc.2.2.1
  obtain ⟨b, m', ht, htop⟩ := h.poolTake_some (c := c) (z := strCsz c) hc.2.2.1 (by omega)
  refine ⟨b, m', ?_, by omega⟩
  simp only [Arena.strBlk, hc.2.2.2, Option.bind_eq_bind, Option.bind_some]
  exact ht

theorem Sound.strOfMem_some (h : Sound a m g) (src : Nat) (hn : n ≤ strMax)
    (hroom : g.top + 2 * n + 25 < 2 ^ 64) : ∃ x m', Arena.strOfMem a m src n = some (x, m') := by
  obtain ⟨b, m₁, hblk, -⟩ := h.strBlk_some hn hroom
  rw [Arena.strOfMem, hblk]
  exact ⟨_, _, rfl⟩

end IdCompiler.Arena

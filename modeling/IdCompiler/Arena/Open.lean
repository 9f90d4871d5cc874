import IdCompiler.Arena.Strings

/-!
# The first use of an arena

An arena whose first word is 0 is opened by the operation that first takes a block. The
operation then does what it does on an arena opened before.
-/

namespace IdCompiler.Arena

open IdCompiler.Core

variable {a : Nat} {m : Bytes} {c z n w : Nat}

/-- The memory of an arena just opened. -/
def opened (a : Nat) (m : Bytes) : Bytes := st64 (poolWipe m (a + 8) 80) a (a + 648)

/-- No blocks yet. -/
def Layout.empty (a lim : Nat) : Layout where
  top := a + 648
  size _ := 0
  use _ := .none
  raw := []
  chain _ := []
  lim := lim

theorem poolWipe_apart {x k i : Nat} (h : i < x ∨ x + k * 8 ≤ i) : poolWipe m x k i = m i := by
  induction k with
  | zero => rfl
  | succ k ih =>
    rw [poolWipe, st64_apart (by omega)]
    exact ih (by omega)

theorem poolWipe_in {x k i : Nat} (hge : x ≤ i) (hlt : i < x + k * 8) : poolWipe m x k i = 0#8 := by
  induction k with
  | zero => exact absurd hlt (by omega)
  | succ k ih =>
    by_cases hk : i < x + k * 8
    · rw [poolWipe, st64_apart (by omega)]
      exact ih hk
    · rw [poolWipe, st64, Bytes.store, if_pos ⟨by omega, by omega⟩, Nat.zero_div]

/-- A wiped table does not change when it is wiped again. -/
theorem poolWipe_again {x k : Nat} : poolWipe (poolWipe m x k) x k = poolWipe m x k := by
  funext i
  by_cases hi : i < x ∨ x + k * 8 ≤ i
  · rw [poolWipe_apart hi]
  · rw [poolWipe_in (by omega) (by omega), poolWipe_in (by omega) (by omega)]

theorem load_zero {x k : Nat} (h : ∀ i, x ≤ i → i < x + k → m i = 0#8) : m.load x k = 0 := by
  induction k generalizing x with
  | zero => rfl
  | succ k ih =>
    rw [Bytes.load, h x (Nat.le_refl _) (by omega), ih fun i hge hlt => h i (by omega) (by omega)]
    rfl

theorem opened_apart {i : Nat} (h : i < a ∨ a + 648 ≤ i) : opened a m i = m i := by
  rw [opened, st64_apart (by omega), poolWipe_apart (by omega)]

theorem opened_first (h : a + 648 < 2 ^ 64) : ld64 (opened a m) a = a + 648 := ld64_st64 h

theorem opened_head (hc : c < 80) : ld64 (opened a m) (a + 8 + c * 8) = 0 := by
  refine load_zero fun i hge hlt => ?_
  rw [opened, st64_apart (by omega)]
  exact poolWipe_in (by omega) (by omega)

/-- The arena just opened has no blocks. -/
theorem opened_sound {lim : Nat} (h : a + 648 < 2 ^ 64) (hlim : 36 ≤ lim ∧ lim ≤ 80) :
    Sound a (opened a m) (Layout.empty a lim) := by
  constructor
  case placed =>
    exact ⟨Nat.le_refl _, h, fun b hb => absurd hb (Nat.lt_irrefl 0),
      fun b c hb => absurd hb (Nat.lt_irrefl 0), fun r hr => absurd hr List.not_mem_nil,
      fun r hr => absurd hr List.not_mem_nil, List.Pairwise.nil⟩
  case lim => exact hlim
  case top_load => exact opened_first h
  case used => exact fun b hb => absurd rfl hb
  case links => exact fun c hc => opened_head hc
  case nodup => exact fun c _ => List.nodup_nil
  case free => exact fun c _ b => ⟨fun hb => absurd hb List.not_mem_nil, Use.noConfusion⟩
  case room => exact fun b c hb => Use.noConfusion hb
  case mark => exact fun b hb => Use.noConfusion hb
  case heads => exact fun p hp => Use.noConfusion hp
  case cells_inj => exact fun p q hp => Use.noConfusion hp
  case texts => exact fun b hb => Use.noConfusion hb

/-! ## Operations that open the arena -/

theorem arenaTop_first (h0 : ld64 m a = 0) : arenaTop a m = (a + 648, poolWipe m (a + 8) 80) := by
  rw [arenaTop, if_pos h0, arenaOpen]

theorem arenaTop_opened (hlt : a + 648 < 2 ^ 64) :
    arenaTop a (opened a m) = (a + 648, opened a m) := by
  rw [arenaTop, opened_first hlt, if_neg (by omega)]

section First

variable (h0 : ld64 m a = 0) (hlt : a + 648 < 2 ^ 64)
include h0 hlt

theorem memAlloc_first : memAlloc a m z = memAlloc a (opened a m) z := by
  have hstore : ∀ v, st64 (opened a m) a v = st64 (poolWipe m (a + 8) 80) a v := by
    intro v
    funext i
    by_cases hi : i < a ∨ a + 8 ≤ i
    · rw [st64_apart hi, opened, st64_apart hi, st64_apart hi]
    · rw [st64, st64, Bytes.store, Bytes.store, if_pos ⟨by omega, by omega⟩,
        if_pos ⟨by omega, by omega⟩]
  rw [memAlloc, memAlloc, arenaTop_first h0, arenaTop_opened hlt]
  dsimp only
  rw [hstore]

/-- All classes are empty, so the block comes from the bump pointer. -/
theorem poolTake_first (hc : c < 80) : poolTake a m c z = poolTake a (opened a m) c z := by
  have hwiped : ld64 (poolWipe m (a + 8) 80) a = 0 := by
    rw [← h0]
    exact Bytes.load_congr fun i hge hlt => poolWipe_apart (by omega)
  have hhead : ld64 (poolWipe m (a + 8) 80) (a + 8 + c * 8) = 0 :=
    load_zero fun i hge hlt => poolWipe_in (by omega) (by omega)
  have hagain : opened a (poolWipe m (a + 8) 80) = opened a m := by
    rw [opened, opened, poolWipe_again]
  rw [poolTake, poolTake, poolHead, poolHead, arenaTop_first h0, arenaTop_opened hlt]
  dsimp only
  rw [hhead, opened_head hc, poolNext, poolNext, if_pos rfl, if_pos rfl, memAlloc_first hwiped hlt,
    hagain]

theorem listNew_first : listNew a m = listNew a (opened a m) := by
  rw [listNew, listNew, poolTake_first h0 hlt (by decide)]

theorem strBlk_first (hn : n ≤ strMax) : strBlk a m n = strBlk a (opened a m) n := by
  obtain ⟨c, hc, -⟩ := poolCls_str hn
  simp only [strBlk, hc.2.2.2, Option.bind_eq_bind, Option.bind_some]
  exact poolTake_first h0 hlt hc.2.2.1

theorem strOfWord_first : strOfWord a m w = strOfWord a (opened a m) w := by
  have hblk := strBlk_first h0 hlt (n := 23) (by decide)
  rw [strOfWord, strOfWord]
  rw [show strBlk a m 23 = strBlk a (opened a m) 23 from hblk]

/-- The lengths of two strings outside the table are the same. -/
theorem concatAlloc_first {s r : Nat} {i j : Nat} (hs : strLen m s = i) (hr : strLen m r = j)
    (hs' : strLen (opened a m) s = i) (hr' : strLen (opened a m) r = j) (hn : i + j < 2 ^ 31) :
    concatAlloc a m s r = concatAlloc a (opened a m) s r := by
  rw [concatAlloc_eq hs hr hn, concatAlloc_eq hs' hr' hn,
    strBlk_first h0 hlt (by unfold strMax; omega)]

end First

end IdCompiler.Arena

import IdCompiler.Arena.Refine

/-!
# An index whose byte offset is no `int`

One list alone in the arena, pushed to until it has more than 2^28 cells. Its arrays lie
one after the other, so the cell that `list_get` computes for the index 2^28, 2^31 bytes
before the first cell, is the first of the array before.
-/

namespace IdCompiler.Arena

open IdCompiler.Core

variable {m m' : Bytes} {H : Heap} {k n : Nat}

/-- One list of `n` ones, whose cells are those of its growth number `k`. -/
structure Solo (m : Bytes) (H : Heap) (n k : Nat) : Prop where
  runs : Runs 4096 (fun _ => 0) m H
  live : H.live 4744 = some (List.replicate n 1)
  fits : n ≤ 4 * 2 ^ k
  tight : k = 0 ∨ 4 * 2 ^ k < 2 * n
  top : ld64 m 4096 = 4736 + 64 * 2 ^ k
  len : ld64 m 4744 = n
  cap : ld64 m 4752 = 4 * 2 ^ k
  cells : ld64 m 4760 = 4736 + 32 * 2 ^ k
  heads : ∀ c < 32, k < c → ld64 m (4104 + c * 8) = 0
  /-- The array before, on a free list of its own. -/
  before : 0 < k → ld64 m (4736 + 16 * 2 ^ k) = 0

/-- The list just made. -/
theorem solo_new : ∃ m H, Solo m H 0 0 := by
  have hval : ((listNew 4096 fun _ => 0).map fun t =>
      (t.1, ld64 t.2 4096, ld64 t.2 4744, ld64 t.2 4752, ld64 t.2 4760)) =
        some (4744, 4800, 0, 4, 4768) := by decide +kernel
  have hheads : ((listNew 4096 fun _ => 0).map fun t =>
      (List.range 32).all fun c => c == 0 || ld64 t.2 (4104 + c * 8) == 0) = some true := by
    decide +kernel
  obtain ⟨⟨p, m⟩, hnew, heq⟩ := Option.map_eq_some_iff.mp hval
  simp only [Prod.mk.injEq] at heq
  obtain ⟨rfl, htop, hlen, hcap, hcells⟩ := heq
  have ht : exec 4096 (fun _ => 0) .new = some (((4744 : Nat) : Int), m) := by
    rw [exec, hnew]
    rfl
  rw [hnew] at hheads
  have hheads := List.all_eq_true.mp (Option.some.inj hheads)
  refine ⟨m, Heap.empty.new 4744 [],
    .call (c := .new) .start trivial trivial ht (.new rfl), Heap.new_live, Nat.zero_le _,
    .inl rfl, htop, hlen, hcap, hcells, fun c hc h0 => ?_, fun h => absurd h (by decide)⟩
  have hhead := hheads c (List.mem_range.mpr hc)
  simp only [Bool.or_eq_true, beq_iff_eq] at hhead
  exact hhead.resolve_left (by omega)

/-- A push into a cell that is there. -/
theorem Solo.push (h : Solo m H n k) (hk : k < 30) (hn : n < 4 * 2 ^ k) :
    ∃ m' H', Solo m' H' (n + 1) k := by
  have hpow := Nat.pow_lt_pow_right (a := 2) (by decide) hk
  have hroom : listRoom 4096 m 4744 = some m := by
    rw [listRoom, h.len, h.cap, signed_small (by omega), signed_small (by omega), if_neg (by omega)]
  have hcell : (4736 + 32 * 2 ^ k + n * 8) % 2 ^ 64 = 4736 + 32 * 2 ^ k + n * 8 :=
    Nat.mod_eq_of_lt (by omega)
  have hlen : ld64 (st64 m (4736 + 32 * 2 ^ k + n * 8) 1) 4744 = n := by
    rw [ld64_st64_apart (by omega), h.len]
  have hpush : listPush 4096 m 4744 1 =
      some (st64 (st64 m (4736 + 32 * 2 ^ k + n * 8) 1) 4744 (n + 1)) := by
    simp only [listPush, hroom, Option.bind_eq_bind, Option.bind_some, listPushAt, listPushWrite,
      h.cells, h.len, hcell, hlen]
    rfl
  have hsame : ∀ y, y + 8 ≤ 4744 ∨ (4752 ≤ y ∧ y + 8 ≤ 4736 + 32 * 2 ^ k) →
      ld64 (st64 (st64 m (4736 + 32 * 2 ^ k + n * 8) 1) 4744 (n + 1)) y = ld64 m y := fun y hy => by
    have hone := Nat.one_le_two_pow (n := k)
    rw [ld64_st64_apart (by omega), ld64_st64_apart (by omega)]
  have hone := Nat.one_le_two_pow (n := k)
  refine ⟨_, H.set 4744 (List.replicate n 1 ++ [1]),
    .call (c := .push 4744 1) (r := 0) h.runs ⟨by rw [h.live]; rfl, by decide⟩ trivial
      (by rw [exec, hpush]; rfl) (.push h.live), ?_, by omega, ?_, ?_, ?_, ?_, ?_, ?_, ?_⟩
  · rw [Heap.set_live, ← List.replicate_succ']
  · exact h.tight.imp_right fun ht => by omega
  · rw [hsame 4096 (.inl (by omega)), h.top]
  · exact ld64_st64 (by omega)
  · rw [hsame 4752 (.inr (by omega)), h.cap]
  · rw [hsame 4760 (.inr (by omega)), h.cells]
  · intro c hc hck
    rw [hsame _ (.inl (by omega)), h.heads c hc hck]
  · intro h0
    have htwo : 2 ≤ 2 ^ k := Nat.le_self_pow (by omega) 2
    rw [hsame _ (.inr (by omega)), h.before h0]

/-- The memory once the next array is taken, filled and named by the header. -/
def moved (m : Bytes) (k : Nat) : Bytes :=
  listGrowCopy (st64 m 4096 (4736 + 128 * 2 ^ k)) 4744 (4736 + 64 * 2 ^ k) (4 * 2 ^ (k + 1))
    (4736 + 32 * 2 ^ k)

/-- A class with no free block: the new array lies behind all others. -/
theorem Solo.grow (h : Solo m H n k) (hk : k < 28) (hn : n = 4 * 2 ^ k) :
    listRoom 4096 m 4744 = some (poolGive 4096 (moved m k) (k + 1) (4736 + 32 * 2 ^ k)) := by
  have hpow := Nat.pow_lt_pow_right (a := 2) (by decide) hk
  have hdouble : 4 * 2 ^ k * 2 % 2 ^ 64 = 4 * 2 ^ (k + 1) := by
    rw [Nat.mod_eq_of_lt (by omega), Nat.pow_succ]
    omega
  have hhead : ld64 m (4096 + 8 + (k + 2) * 8) = 0 := h.heads (k + 2) (by omega) (by omega)
  have htop : arenaTop 4096 m = (4736 + 64 * 2 ^ k, m) := by
    rw [arenaTop, h.top, if_neg (by omega)]
  have halign : 4736 + 64 * 2 ^ k + align (4 * 2 ^ (k + 1) * 8) = 4736 + 128 * 2 ^ k := by
    rw [align_eq (by rw [Nat.pow_succ]; omega), Nat.pow_succ]
    omega
  have htake : poolTake 4096 m (k + 2) (4 * 2 ^ (k + 1) * 8) =
      some (4736 + 64 * 2 ^ k, st64 m 4096 (4736 + 128 * 2 ^ k)) := by
    rw [poolTake, poolHead, htop]
    dsimp only
    rw [hhead, poolNext, if_pos rfl, memAlloc, htop]
    dsimp only
    rw [if_pos (by rw [Nat.pow_succ]; omega), halign]
  have hcells : ld64 (st64 m 4096 (4736 + 128 * 2 ^ k)) 4760 = 4736 + 32 * 2 ^ k := by
    rw [ld64_st64_apart (by omega), h.cells]
  rw [listRoom, h.len, h.cap, signed_small (by omega), signed_small (by omega), if_pos (by omega),
    hdouble]
  simp only [listGrow, poolCls_cap (show k + 1 < 60 by omega), Option.bind_eq_bind, Option.bind_some,
    htake, hcells]
  rfl

/-- The words outside the new array, once the list has moved. -/
theorem Solo.moved_load (h : Solo m H n k) (hn : n = 4 * 2 ^ k) {y : Nat}
    (hy : (4104 ≤ y ∧ y + 8 ≤ 4752) ∨ (4768 ≤ y ∧ y + 8 ≤ 4736 + 64 * 2 ^ k)) :
    ld64 (moved m k) y = ld64 m y := by
  have hlen : ld64 (st64 m 4096 (4736 + 128 * 2 ^ k)) 4744 = n := by
    rw [ld64_st64_apart (by omega), h.len]
  rw [moved, listGrowCopy, listWide, hlen, ld64_st64_apart (by omega), ld64_st64_apart (by omega)]
  have hcopy : ld64 (copyBytes (st64 m 4096 (4736 + 128 * 2 ^ k)) (4736 + 32 * 2 ^ k)
      (4736 + 64 * 2 ^ k) (n * 8)) y = ld64 (st64 m 4096 (4736 + 128 * 2 ^ k)) y :=
    Bytes.load_congr fun i hge hlt => copyBytes_apart (by omega)
  rw [hcopy, ld64_st64_apart (by omega)]

theorem Solo.moved_header (h : Solo m H n k) (hk : k < 28) (hn : n = 4 * 2 ^ k) :
    ld64 (moved m k) 4096 = 4736 + 128 * 2 ^ k ∧ ld64 (moved m k) 4752 = 4 * 2 ^ (k + 1) ∧
      ld64 (moved m k) 4760 = 4736 + 64 * 2 ^ k := by
  have hpow := Nat.pow_lt_pow_right (a := 2) (by decide) hk
  have hlen : ld64 (st64 m 4096 (4736 + 128 * 2 ^ k)) 4744 = n := by
    rw [ld64_st64_apart (by omega), h.len]
  have hcopy : ld64 (copyBytes (st64 m 4096 (4736 + 128 * 2 ^ k)) (4736 + 32 * 2 ^ k)
      (4736 + 64 * 2 ^ k) (n * 8)) 4096 = ld64 (st64 m 4096 (4736 + 128 * 2 ^ k)) 4096 :=
    Bytes.load_congr fun i hge hlt => copyBytes_apart (by omega)
  rw [moved, listGrowCopy, listWide, hlen]
  refine ⟨?_, ?_, ?_⟩
  · rw [ld64_st64_apart (by omega), ld64_st64_apart (by omega), hcopy]
    exact ld64_st64 (by omega)
  · rw [ld64_st64_apart (by omega)]
    exact ld64_st64 (by rw [Nat.pow_succ]; omega)
  · exact ld64_st64 (by omega)

/-- The array before goes on a free list that was empty. -/
theorem Solo.given (h : Solo m H n k) (hk : k < 28) (hn : n = 4 * 2 ^ k) :
    poolGive 4096 (moved m k) (k + 1) (4736 + 32 * 2 ^ k) =
      st64 (st64 (moved m k) (4736 + 32 * 2 ^ k) 0) (4104 + (k + 1) * 8) (4736 + 32 * 2 ^ k) := by
  have hone := Nat.one_le_two_pow (n := k)
  have htop : (arenaTop 4096 (moved m k)).2 = moved m k := by
    rw [arenaTop, (h.moved_header hk hn).1, if_neg (by omega)]
  have hhead : ld64 (moved m k) (4096 + 8 + (k + 1) * 8) = 0 := by
    rw [h.moved_load hn (.inl (by omega))]
    exact h.heads (k + 1) (by omega) (by omega)
  rw [poolGive, poolHead, htop]
  dsimp only
  rw [hhead]

/-- The words the push still reads, once the list has moved and the old array is given. -/
theorem Solo.given_load (h : Solo m H n k) (hk : k < 28) (hn : n = 4 * 2 ^ k) {y : Nat}
    (hy : y + 8 ≤ 4104 + (k + 1) * 8 ∨
      (4112 + (k + 1) * 8 ≤ y ∧ y + 8 ≤ 4736 + 32 * 2 ^ k)) :
    ld64 (poolGive 4096 (moved m k) (k + 1) (4736 + 32 * 2 ^ k)) y = ld64 (moved m k) y := by
  have hone := Nat.one_le_two_pow (n := k)
  rw [h.given hk hn, ld64_st64_apart (by omega), ld64_st64_apart (by omega)]

/-- A push that moves the cells first. -/
theorem Solo.push_grow (h : Solo m H n k) (hk : k < 28) (hn : n = 4 * 2 ^ k) :
    ∃ m' H', Solo m' H' (n + 1) (k + 1) := by
  have hone := Nat.one_le_two_pow (n := k)
  have hpow := Nat.pow_lt_pow_right (a := 2) (by decide) hk
  have htwo : 2 ^ (k + 1) = 2 * 2 ^ k := by rw [Nat.pow_succ, Nat.mul_comm]
  obtain ⟨htop, hcap, hcells⟩ := h.moved_header hk hn
  set m₁ := poolGive 4096 (moved m k) (k + 1) (4736 + 32 * 2 ^ k) with hm₁
  have hload : ∀ {y}, y + 8 ≤ 4104 + (k + 1) * 8 ∨
      (4112 + (k + 1) * 8 ≤ y ∧ y + 8 ≤ 4736 + 32 * 2 ^ k) → ld64 m₁ y = ld64 (moved m k) y :=
    h.given_load hk hn
  have hlen₁ : ld64 m₁ 4744 = n := by
    rw [hload (.inr (by omega)), h.moved_load hn (.inl (by omega)), h.len]
  have hcells₁ : ld64 m₁ 4760 = 4736 + 64 * 2 ^ k := by rw [hload (.inr (by omega)), hcells]
  have hcell : (4736 + 64 * 2 ^ k + n * 8) % 2 ^ 64 = 4736 + 64 * 2 ^ k + n * 8 :=
    Nat.mod_eq_of_lt (by omega)
  have hlen : ld64 (st64 m₁ (4736 + 64 * 2 ^ k + n * 8) 1) 4744 = n := by
    rw [ld64_st64_apart (by omega), hlen₁]
  have hpush : listPush 4096 m 4744 1 =
      some (st64 (st64 m₁ (4736 + 64 * 2 ^ k + n * 8) 1) 4744 (n + 1)) := by
    simp only [listPush, h.grow hk hn, ← hm₁, Option.bind_eq_bind, Option.bind_some, listPushAt,
      listPushWrite, hcells₁, hlen₁, hcell, hlen]
    rfl
  have hsame : ∀ {y}, y + 8 ≤ 4744 ∨ (4752 ≤ y ∧ y + 8 ≤ 4736 + 64 * 2 ^ k) →
      ld64 (st64 (st64 m₁ (4736 + 64 * 2 ^ k + n * 8) 1) 4744 (n + 1)) y = ld64 m₁ y := by
    intro y hy
    rw [ld64_st64_apart (by omega), ld64_st64_apart (by omega)]
  refine ⟨_, H.set 4744 (List.replicate n 1 ++ [1]),
    .call (c := .push 4744 1) (r := 0) h.runs ⟨by rw [h.live]; rfl, by decide⟩ trivial
      (by rw [exec, hpush]; rfl) (.push h.live), ?_, by omega, .inr (by omega), ?_, ?_, ?_, ?_, ?_,
      fun _ => ?_⟩
  · rw [Heap.set_live, ← List.replicate_succ']
  · rw [hsame (.inl (by omega)), hload (.inl (by omega)), htop]
    omega
  · exact ld64_st64 (by omega)
  · rw [hsame (.inr (by omega)), hload (.inr (by omega)), hcap]
  · rw [hsame (.inr (by omega)), hcells₁]
    omega
  · intro c hc hck
    rw [hsame (.inl (by omega)), hload (.inr (by omega)), h.moved_load hn (.inl (by omega))]
    exact h.heads c hc (by omega)
  · have hold : 4736 + 16 * 2 ^ (k + 1) = 4736 + 32 * 2 ^ k := by omega
    rw [hold, hsame (.inr (by omega)), hm₁, h.given hk hn, ld64_st64_apart (by omega)]
    exact ld64_st64 (by omega)

/-- Pushes enough give a list of each of these lengths, one array behind the other. -/
theorem solo_of_length : ∀ n ≤ 2 ^ 28 + 1, ∃ m H k, k < 28 ∧ Solo m H n k := by
  intro n
  induction n with
  | zero =>
    obtain ⟨m, H, h⟩ := solo_new
    exact fun _ => ⟨m, H, 0, by decide, h⟩
  | succ n ih =>
    intro hn
    obtain ⟨m, H, k, hk, h⟩ := ih (by omega)
    by_cases hfull : n < 4 * 2 ^ k
    · obtain ⟨m', H', h'⟩ := h.push (by omega) hfull
      exact ⟨m', H', k, hk, h'⟩
    · have hfull : n = 4 * 2 ^ k := Nat.le_antisymm h.fits (Nat.le_of_not_lt hfull)
      have hnext : k + 1 < 28 := by
        by_contra hlast
        have hk27 : k = 27 := by omega
        rw [hk27] at hfull
        omega
      obtain ⟨m', H', h'⟩ := h.push_grow hk hfull
      exact ⟨m', H', k + 1, hnext, h'⟩

/-- The byte offset of the index 2^28, as an `int`. -/
theorem cellOff_wide : cellOff (2 ^ 28) = -2 ^ 31 := by
  decide +kernel

/-- The cell `list_get` reads is the first word of the array before. -/
theorem Solo.get_wide (h : Solo m H (2 ^ 28 + 1) k) (hk : k < 28) : listGet m 4744 (2 ^ 28) = 0 := by
  have hk27 : k = 27 := by
    by_contra hne
    have hpow : 2 ^ k ≤ 2 ^ 26 := Nat.pow_le_pow_right (by decide) (by omega)
    have hfits := h.fits
    omega
  subst hk27
  have hcell : cellAt m 4744 (2 ^ 28) = 4736 + 16 * 2 ^ 27 := by
    rw [cellAt, h.cells, cellOff_wide, addrAdd]
    decide +kernel
  rw [listGet, hcell]
  exact h.before (by decide)

end IdCompiler.Arena

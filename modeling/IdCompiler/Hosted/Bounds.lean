import IdCompiler.Hosted.Store

/-!
# The bounds of the flat store

An access is safe exactly where the sum its check makes is the address after its
last byte; and in every reachable state what lies below the high-water mark lies
in the block.
-/

namespace IdCompiler.Hosted

open IdCompiler.Core

variable {s : Store} {α β : Type}

/-! ## The check -/

theorem Outcome.safe_trap (m : String) : (Outcome.trap m : Outcome α).Safe s :=
  fun _ _ h => absurd h (Nat.not_lt_zero _)

theorem Outcome.safe_map (f : α → β) (o : Outcome α) : (o.map f).Safe s ↔ o.Safe s := Iff.rfl

/-- The check refuses, or the address is positive and the sum is not past the mark. -/
theorem idAt_cases (addr width : Word) (k : Nat → Outcome α) :
    (addr.toInt ≤ 0 ∧ idAt s addr width k = .trap (rangeText addr s)) ∨
    (0 < addr.toInt ∧ s.used.toInt < (addr + width).toInt ∧
      idAt s addr width k = .trap (rangeText addr s)) ∨
    (0 < addr.toInt ∧ (addr + width).toInt ≤ s.used.toInt ∧
      idAt s addr width k = k addr.toNat) := by
  unfold idAt
  by_cases h0 : addr.toInt ≤ 0
  · exact .inl ⟨h0, if_pos (by simp [BitVec.sle_iff_toInt_le, h0])⟩
  · by_cases h1 : s.used.toInt < (addr + width).toInt
    · exact .inr (.inl ⟨by omega, h1, if_pos (by simp [BitVec.slt_iff_toInt_lt.mpr h1])⟩)
    · refine .inr (.inr ⟨by omega, by omega, if_neg ?_⟩)
      rw [Bool.or_eq_true, not_or, BitVec.sle_iff_toInt_le, BitVec.slt_iff_toInt_lt]
      exact ⟨h0, h1⟩

theorem toNat_of_pos {w : Word} (h : 0 ≤ w.toInt) : (w.toNat : Int) = w.toInt := by
  rw [BitVec.toInt_eq_toNat_cond] at h ⊢
  have := w.isLt
  split at h <;> omega

/-- Where the sum is exact the bytes asked for are all below the mark, or the check refuses. -/
theorem idAt_safe {addr width : Word} {k : Nat → Outcome α} (h0 : 0 ≤ width.toInt)
    (hsum : addr.toInt ≤ 0 ∨ addr.toInt + width.toInt < 2 ^ 63)
    (hk : ∀ p, (k p).first = p ∧ ((k p).count : Int) ≤ width.toInt) :
    (idAt s addr width k).Safe s := by
  rcases idAt_cases (s := s) addr width k with ⟨-, h⟩ | ⟨-, -, h⟩ | ⟨hpos, hle, h⟩
  · rw [h]; exact Outcome.safe_trap _
  · rw [h]; exact Outcome.safe_trap _
  · rw [h]
    intro o hfirst hlast
    have hexact : (addr + width).toInt = addr.toInt + width.toInt :=
      Word.toInt_add_exact (by omega) (by omega)
    have haddr := toNat_of_pos (w := addr) (by omega)
    obtain ⟨hp, hc⟩ := hk addr.toNat
    rw [hp] at hfirst hlast
    constructor <;> omega

/-- Past the signed range the sum is negative, and the check lets the access through. -/
theorem idAt_over {addr width : Word} (k : Nat → Outcome α) (h0 : 0 ≤ width.toInt)
    (hused : 0 ≤ s.used.toInt) (hpos : 0 < addr.toInt)
    (hover : 2 ^ 63 ≤ addr.toInt + width.toInt) : idAt s addr width k = k addr.toNat := by
  have hsum := Word.toInt_add_over hover
  have haddr := Word.toInt_lt addr
  have hwidth := Word.toInt_lt width
  rcases idAt_cases (s := s) addr width k with ⟨h, -⟩ | ⟨-, h, -⟩ | ⟨-, -, h⟩
  · omega
  · omega
  · exact h

/-- An access that touches all it asks for is safe exactly where the sum is exact. -/
theorem idAt_safe_iff {addr width : Word} {k : Nat → Outcome α} (h0 : 0 ≤ width.toInt)
    (hused : 0 ≤ s.used.toInt)
    (hk : ∀ p, (k p).first = p ∧ ((k p).count : Int) = width.toInt) :
    (idAt s addr width k).Safe s ↔ addr.toInt ≤ 0 ∨ addr.toInt + width.toInt < 2 ^ 63 := by
  constructor
  · intro hsafe
    by_contra hcon
    rw [not_or] at hcon
    rw [idAt_over k h0 hused (by omega) (by omega)] at hsafe
    obtain ⟨hp, hc⟩ := hk addr.toNat
    have haddr := toNat_of_pos (w := addr) (by omega)
    have hlt := Word.toInt_lt addr
    have hmark := Word.toInt_lt s.used
    -- the last byte asked for is past every high-water mark
    have hlast := (hsafe (addr.toNat + width.toInt.toNat - 1) (by omega) (by omega)).2
    omega
  · intro h
    exact idAt_safe h0 h fun p => ⟨(hk p).1, (hk p).2.le⟩

/-! ## The search for a NUL -/

theorem memchr_some {byte : Nat → BitVec 8} {p n k : Nat} (h : memchr byte p n = some k) :
    k < n ∧ byte (p + k) = 0 ∧ ∀ j < k, byte (p + j) ≠ 0 := by
  induction n generalizing p k with
  | zero => simp [memchr] at h
  | succ n ih =>
    unfold memchr at h
    split at h
    · next h0 =>
      obtain rfl := Option.some.inj h
      exact ⟨Nat.succ_pos n, h0, fun j hj => absurd hj (Nat.not_lt_zero j)⟩
    · next h0 =>
      obtain ⟨m, hm, rfl⟩ := Option.map_eq_some_iff.mp h
      obtain ⟨hlt, hbyte, hbefore⟩ := ih hm
      refine ⟨by omega, by rwa [Nat.add_assoc, Nat.add_comm 1 m] at hbyte, fun j hj => ?_⟩
      cases j with
      | zero => exact h0
      | succ j =>
        have := hbefore j (by omega)
        rwa [Nat.add_assoc, Nat.add_comm 1 j] at this

theorem memchr_none {byte : Nat → BitVec 8} {p n : Nat} (h : memchr byte p n = none) :
    ∀ j < n, byte (p + j) ≠ 0 := by
  induction n generalizing p with
  | zero => exact fun j hj => absurd hj (Nat.not_lt_zero j)
  | succ n ih =>
    unfold memchr at h
    split at h
    · simp at h
    · next h0 =>
      intro j hj
      cases j with
      | zero => exact h0
      | succ j =>
        have := ih (Option.map_eq_none_iff.mp h) j (by omega)
        rwa [Nat.add_assoc, Nat.add_comm 1 j] at this

/-- The bytes the search reads: all of them, or those up to the first NUL. -/
def searched (byte : Nat → BitVec 8) (p n : Nat) : Nat :=
  match memchr byte p n with
  | some k => k + 1
  | none => n

theorem strAt_reads (n p : Nat) :
    (strAt s n p).first = p ∧ (strAt s n p).count = searched s.byte p n := by
  unfold strAt searched
  cases memchr s.byte p n <;> exact ⟨rfl, rfl⟩

theorem searched_le (byte : Nat → BitVec 8) (p n : Nat) : searched byte p n ≤ n := by
  unfold searched
  split
  · next h => exact (memchr_some h).1
  · exact Nat.le_refl n

/-- The search stops at a NUL that is there. -/
theorem searched_stops {byte : Nat → BitVec 8} {p n j : Nat} (h0 : byte (p + j) = 0) (hj : j < n) :
    searched byte p n ≤ j + 1 := by
  unfold searched
  split
  · next k h =>
    by_contra hcon
    exact (memchr_some h).2.2 j (by omega) h0
  · next h => exact absurd h0 (memchr_none h j hj)

/-- The search goes on where there is none. -/
theorem searched_goes {byte : Nat → BitVec 8} {p n m : Nat} (hnone : ∀ j < m, byte (p + j) ≠ 0)
    (hm : m < n) : m < searched byte p n := by
  unfold searched
  split
  · next k h =>
    by_contra hcon
    exact hnone k (by omega) (memchr_some h).2.1
  · exact hm

/-- A string read off the store is safe where the sum is exact, or where a NUL ends the search
below the mark. -/
theorem idStrOfMem_safe_iff (hused : 0 ≤ s.used.toInt) (addr n : Word) :
    (idStrOfMem s addr n).Safe s ↔
      addr.toInt ≤ 0 ∨ n.toInt < 0 ∨ addr.toInt + n.toInt < 2 ^ 63 ∨
        ∃ k, addr.toNat ≤ k ∧ (k : Int) < s.used.toInt ∧ s.byte k = 0 := by
  by_cases hneg : n.toInt < 0
  · refine iff_of_true ?_ (.inr (.inl hneg))
    unfold idStrOfMem
    rw [if_pos (by rw [BitVec.slt_iff_toInt_lt]; simpa using hneg)]
    exact Outcome.safe_trap _
  have heq : idStrOfMem s addr n = idAt s addr n (strAt s n.toNat) :=
    if_neg (by rw [BitVec.slt_iff_toInt_lt]; simpa using hneg)
  have hn := toNat_of_pos (w := n) (by omega)
  rw [heq]
  by_cases hsum : addr.toInt ≤ 0 ∨ addr.toInt + n.toInt < 2 ^ 63
  · refine iff_of_true (idAt_safe (by omega) hsum fun p => ⟨(strAt_reads _ p).1, ?_⟩) (by tauto)
    have := searched_le s.byte p n.toNat
    rw [(strAt_reads _ p).2]
    omega
  rw [not_or] at hsum
  have haddr := toNat_of_pos (w := addr) (by omega)
  have hmark := Word.toInt_lt s.used
  have hlt := Word.toInt_lt addr
  obtain ⟨hp, hc⟩ := strAt_reads (s := s) n.toNat addr.toNat
  rw [idAt_over _ (by omega) hused (by omega) (by omega)]
  unfold Outcome.Safe
  rw [hp, hc]
  constructor
  · intro hsafe
    by_contra hcon
    -- no NUL before the mark, so the search reads the byte there, or starts past it
    have hlong : s.used.toInt.toNat - addr.toNat < searched s.byte addr.toNat n.toNat := by
      refine searched_goes (fun j hj h0 => hcon ?_) (by omega)
      exact .inr (.inr (.inr ⟨addr.toNat + j, by omega, by omega, h0⟩))
    have := (hsafe (max addr.toNat s.used.toInt.toNat) (by omega) (by omega)).2
    omega
  · rintro (h | h | h | ⟨o, hge, hlt, h0⟩)
    · omega
    · omega
    · omega
    · intro i hfirst hlast
      have hstop : searched s.byte addr.toNat n.toNat ≤ o - addr.toNat + 1 :=
        searched_stops (by rwa [Nat.add_sub_cancel' hge]) (by omega)
      constructor <;> omega

/-! ## Allocation -/

theorem toInt_two_pow_44 : (1#64 <<< 44).toInt = 2 ^ 44 := by decide

/-- One doubling. -/
theorem double_toNat {cap : Word} (h : cap.toNat ≤ 2 ^ 44) : (cap * 2).toNat = cap.toNat * 2 := by
  rw [BitVec.toNat_mul]
  exact Nat.mod_eq_of_lt (by simp only [BitVec.reduceToNat]; omega)

/-- The capacity that doubling ends with holds what is needed. -/
theorem growTo_spec {need cap c : Word} {fuel : Nat} (hcap : cap.toNat ≤ 2 ^ 45)
    (h : growTo need fuel cap = .ok c) :
    need.toInt ≤ c.toInt ∧ cap.toNat ≤ c.toNat ∧ c.toNat ≤ 2 ^ 45 := by
  induction fuel generalizing cap with
  | zero => simp [growTo] at h
  | succ fuel ih =>
    unfold growTo at h
    split at h
    swap
    · next hlt =>
      obtain rfl := Except.ok.inj h
      rw [BitVec.slt_iff_toInt_lt] at hlt
      exact ⟨by omega, Nat.le_refl _, hcap⟩
    split at h
    · simp at h
    · next hbig =>
      rw [BitVec.slt_iff_toInt_lt, toInt_two_pow_44] at hbig
      have hint := Word.toInt_eq_toNat (x := cap) (by omega)
      have hdouble : (cap * 2).toNat = cap.toNat * 2 := double_toNat (by omega)
      have := ih (by omega) h
      omega

/-- Enough rounds are as good as any number of them. -/
theorem growTo_enough {need cap : Word} {n m : Nat} (hcap : cap.toNat ≤ 2 ^ 45)
    (hn : 2 ^ 44 < cap.toNat * 2 ^ n) (hm : n < m) :
    growTo need m cap = growTo need (n + 1) cap := by
  induction n generalizing cap m with
  | zero =>
    obtain ⟨m, rfl⟩ := Nat.exists_eq_add_of_lt hm
    have hint := Word.toInt_eq_toNat (x := cap) (by omega)
    have hbig : (1#64 <<< 44).slt cap = true := by
      rw [BitVec.slt_iff_toInt_lt, toInt_two_pow_44]
      omega
    simp only [growTo, hbig, if_true]
  | succ n ih =>
    obtain ⟨m, rfl⟩ : ∃ k, m = k + 1 := ⟨m - 1, by omega⟩
    unfold growTo
    split
    · split
      · rfl
      · next hbig =>
        rw [BitVec.slt_iff_toInt_lt, toInt_two_pow_44] at hbig
        have hint := Word.toInt_eq_toNat (x := cap) (by omega)
        have hdouble : (cap * 2).toNat = cap.toNat * 2 := double_toNat (by omega)
        refine ih (by omega) ?_ (by omega)
        rw [hdouble, Nat.mul_assoc, ← Nat.pow_succ']
        exact hn
    · rfl

/-- What is below the mark is in the block. -/
structure Store.Sound (s : Store) : Prop where
  cap_le : s.cap.toNat ≤ 2 ^ 45
  used_le : s.used = 1 ∧ s.cap = 0 ∨ s.used.toNat ≤ s.cap.toNat

theorem Store.sound_fresh (byte : Nat → BitVec 8) : (Store.fresh byte).Sound where
  cap_le := by simp [Store.fresh]
  used_le := .inl ⟨rfl, rfl⟩

theorem Store.Sound.used_small (h : s.Sound) : s.used.toNat ≤ 2 ^ 45 := by
  rcases h.used_le with ⟨h1, -⟩ | hle
  · simp [h1]
  · exact hle.trans h.cap_le

/-- A store is grown to what is needed. -/
theorem idStoreGrow_spec {fresh : Nat → BitVec 8} {need : Word} {s' : Store}
    (hcap : s.cap.toNat ≤ 2 ^ 45) (h : idStoreGrow fresh need s = .ok s') :
    need.toInt ≤ s'.cap.toInt ∧ s'.cap.toNat ≤ 2 ^ 45 := by
  unfold idStoreGrow at h
  simp only [bind, Except.bind] at h
  cases hg : growTo need 46 (if s.cap = 0 then 65536 else s.cap) with
  | error m =>
    rw [hg] at h
    cases h
  | ok c =>
    rw [hg] at h
    simp only [pure, Except.pure, Except.ok.injEq] at h
    obtain rfl := h
    have hstart : (if s.cap = 0 then 65536 else s.cap : Word).toNat ≤ 2 ^ 45 := by
      split
      · decide
      · exact hcap
    have := growTo_spec hstart hg
    exact ⟨this.1, this.2.2⟩

/-- An allocation keeps what is below the mark in the block. -/
theorem idMemAlloc_sound {fresh : Nat → BitVec 8} {n base : Word} {s' : Store} (hs : s.Sound)
    (h : idMemAlloc fresh n s = .ok (s', base)) : s'.Sound := by
  unfold idMemAlloc at h
  split at h
  · simp at h
  next hneg =>
  rw [BitVec.slt_iff_toInt_lt] at hneg
  simp only at h
  split at h
  · simp at h
  next hover =>
  rw [BitVec.slt_iff_toInt_lt] at hover
  have hsmall := hs.used_small
  have hseven : (s.used + 7).toNat = s.used.toNat + 7 := by
    rw [Word.toNat_add_exact (by simp only [BitVec.reduceToNat]; omega)]
    rfl
  have hbase := Word.toNat_and_align (s.used + 7)
  generalize hb : (s.used + 7) &&& ~~~7#64 = b at h hover hbase
  have hbint := Word.toInt_eq_toNat (x := b) (by omega)
  have hzero : (0 : Word).toInt = 0 := by decide
  -- the last address is not below the base, so the sum did not leave the signed range
  have hlast : 0 ≤ (b + n).toInt := by omega
  have hlastNat := toNat_of_pos hlast
  split at h
  · next hgrow =>
    cases hg : idStoreGrow fresh (b + n) s with
    | error m => simp [hg, bind, Except.bind] at h
    | ok t =>
      simp only [hg, bind, Except.bind, pure, Except.pure, Except.ok.injEq, Prod.mk.injEq] at h
      obtain ⟨rfl, rfl⟩ := h
      have hspec := idStoreGrow_spec hs.cap_le hg
      have hcap := Word.toInt_eq_toNat (x := t.cap) (by omega)
      exact ⟨hspec.2, .inr (by simp only; omega)⟩
  · next hroom =>
    simp only [bind, Except.bind, pure, Except.pure, Except.ok.injEq, Prod.mk.injEq] at h
    obtain ⟨rfl, rfl⟩ := h
    rw [BitVec.slt_iff_toInt_lt] at hroom
    have hcap := Word.toInt_eq_toNat (x := s.cap) (by have := hs.cap_le; omega)
    exact ⟨hs.cap_le, .inr (by simp only; omega)⟩

/-- In every reachable state what is below the mark is in the block. -/
theorem Reachable.sound (h : Reachable s) : s.Sound := by
  induction h with
  | fresh byte => exact Store.sound_fresh byte
  | alloc _ hstep ih => exact idMemAlloc_sound ih hstep

/-- A safe access of a reachable state touches bytes of the block only. -/
theorem Outcome.Safe.in_block {o : Outcome α} (hs : Reachable s) (h : o.Safe s) {k : Nat}
    (hfirst : o.first ≤ k) (hlast : k < o.first + o.count) : k < s.cap.toNat := by
  obtain ⟨h1, hlt⟩ := h k hfirst hlast
  have hsmall := hs.sound.used_small
  have hint := Word.toInt_eq_toNat (x := s.used) (by omega)
  rcases hs.sound.used_le with ⟨hone, -⟩ | hle
  · rw [hone] at hlt
    simp only [BitVec.reduceToInt] at hlt
    omega
  · omega

/-! ## Every access -/

/-- A load or a store of a width is safe exactly where its sum is exact. -/
theorem width_safe_iff {addr : Word} {width : Nat} {k : Nat → Outcome α} (hw : width ≤ 8)
    (hused : 0 ≤ s.used.toInt) (hk : ∀ p, (k p).first = p ∧ (k p).count = width) :
    (idAt s addr (BitVec.ofNat 64 width) k).Safe s ↔
      addr.toInt ≤ 0 ∨ addr.toInt + width < 2 ^ 63 := by
  have hint : (BitVec.ofNat 64 width).toInt = width := by
    have hnat : (BitVec.ofNat 64 width).toNat = width := by
      rw [BitVec.toNat_ofNat]
      exact Nat.mod_eq_of_lt (by omega)
    rw [Word.toInt_eq_toNat (by omega), hnat]
  rw [idAt_safe_iff (by omega) hused fun p => ⟨(hk p).1, by rw [(hk p).2, hint]⟩, hint]

/-- A refused length is safe, any other exactly where its sum is exact. -/
theorem length_safe_iff {addr n : Word} {k : Nat → Outcome α} {neg : Bool} {m : String}
    (hused : 0 ≤ s.used.toInt) (hneg : neg = true ↔ n.toInt < 0)
    (hk : 0 ≤ n.toInt → ∀ p, (k p).first = p ∧ ((k p).count : Int) = n.toInt) :
    (if neg then .trap m else idAt s addr n k : Outcome α).Safe s ↔
      addr.toInt ≤ 0 ∨ n.toInt < 0 ∨ addr.toInt + n.toInt < 2 ^ 63 := by
  by_cases h : n.toInt < 0
  · rw [if_pos (hneg.mpr h)]
    exact iff_of_true (Outcome.safe_trap m) (.inr (.inl h))
  · rw [if_neg (mt hneg.mp h), idAt_safe_iff (by omega) hused (hk (by omega))]
    simp [h]

end IdCompiler.Hosted

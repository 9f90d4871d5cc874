import IdCompiler.Arena.Lists

/-!
# Strings of the arena

Every string is made in a held block, which its count then turns into a string. The
buffer for the digits of a number goes back by the class of its constant size.
-/

namespace IdCompiler.Arena

open IdCompiler.Core

variable {a : Nat} {m m' : Bytes} {g g' : Layout} {b c n p q s r w x : Nat}

/-- A string of `n` bytes in the block `b`. -/
structure Texted (a : Nat) (g g' : Layout) (b n : Nat) (m m' : Bytes) : Prop where
  change : Change a [b] g g' m m'
  was : g.Spare b
  str : g'.use b = .str
  len : ld64 m' b = n
  room : n + 9 ≤ g'.size b

/-! ## A block for a string -/

/-- A held block with room for a string of `n` bytes. -/
theorem Sound.strBlk (h : Sound a m g) (hlim : g.lim = 36) (hn : n ≤ strMax)
    (ht : strBlk a m n = some (b, m')) :
    ∃ g' c, strClass n c ∧ Sound a m' g' ∧ Taken g g' c b ∧ OffTable a m m' := by
  obtain ⟨c, hc, -⟩ := poolCls_str hn
  simp only [Arena.strBlk, hc.2.2.2, Option.bind_eq_bind, Option.bind_some] at ht
  obtain ⟨g', hsound, htaken, hoff⟩ := h.poolTake hc.2.2.1
    (hlim ▸ (strCsz_eq hc.2.1 hc.2.2.1).ge) ht
  exact ⟨g', c, hc, hsound, htaken, hoff⟩

/-- Written while held, with its count, the block is a string. -/
theorem Sound.text (h : Sound a m g) (hlim : g.lim = 36) (hb : g.use b = .held) (hc : strClass n c)
    (hroom : handOut g.lim c ≤ g.size b) (hw : Within g b m m') (hlen : ld64 m' b = n) :
    Change a [b] g (g.turn b .str) m m' := by
  have hwrite := h.write hb hw
  refine hwrite.trans (Sound.turned ?_ Use.noConfusion)
  refine hwrite.sound.turn (by rw [hb]; decide) (fun c => by rw [hb]; exact Use.noConfusion)
    (fun c => Use.noConfusion) ?_ Use.noConfusion fun _ => ?_
  · intro p hpb hp hcells
    have hcells' := (hwrite.sound.heads p hp).cells
    rw [hcells, hb] at hcells'
    exact Use.noConfusion hcells'
  · exact ⟨hlim, c, by rw [hlen]; exact hc, hroom⟩

theorem strClass.fits (hc : strClass n c) (hlim : g.lim = 36) (htaken : Taken g g' c b) :
    n + 9 ≤ g'.size b :=
  hc.room.trans (hlim ▸ htaken.room)

theorem strClass.spare (hc : strClass n c) (htaken : Taken g g' c b) : g.Spare b :=
  htaken.was.imp_right fun hwas => ⟨c, by have := hc.2.1; omega, hwas⟩

/-- A string is made in the block just taken. -/
theorem Sound.texted {m₁ : Bytes} {g₁ : Layout} (h : Sound a m₁ g₁) (hlim : g.lim = 36) (htaken : Taken g g₁ c b)
    (hoff : OffTable a m m₁) (hc : strClass n c) (hw : Within g₁ b m₁ m') (hlen : ld64 m' b = n) :
    Texted a g (g₁.turn b .str) b n m m' where
  change := (htaken.change h hoff).trans
    (h.text (htaken.lim.trans hlim) (by rw [htaken.use, turn_use]) hc (htaken.lim ▸ htaken.room) hw
      hlen)
  was := hc.spare htaken
  str := turn_use
  len := hlen
  room := by
    rw [turn_size]
    exact hc.fits hlim htaken

theorem within_copyBytes {src k : Nat} (hk : k + n ≤ g.size b) :
    Within g b m (copyBytes m src (b + k) n) :=
  fun i hi => copyBytes_apart (by omega)

theorem st8_apart {v i : Nat} (h : i ≠ x) : st8 m x v i = m i :=
  (Nat.lt_or_gt_of_ne h).elim Bytes.store_of_lt fun hlt => Bytes.store_of_ge (by omega)

theorem ld64_st8_apart {y v : Nat} (h : y + 8 ≤ x ∨ x + 1 ≤ y) : ld64 (st8 m x v) y = ld64 m y :=
  Bytes.load_store_apart h

theorem within_st8 {k v : Nat} (hk : k < g.size b) : Within g b m (st8 m (b + k) v) :=
  fun i hi => st8_apart (by omega)

theorem Within.trans {m'' : Bytes} (h : Within g b m m') (h' : Within g b m' m'') :
    Within g b m m'' := fun i hi => (h' i hi).trans (h i hi)

theorem Sound.strOfMem (h : Sound a m g) (hlim : g.lim = 36) {src : Nat} (hn : n ≤ strMax)
    (ht : strOfMem a m src n = some (x, m')) :
    ∃ g' b, x = b + 8 ∧ Texted a g g' b n m m' := by
  simp only [Arena.strOfMem, Option.bind_eq_bind, Option.bind_eq_some_iff] at ht
  obtain ⟨⟨b, m₁⟩, hblk, heq⟩ := ht
  obtain ⟨g₁, c, hc, hsound, htaken, hoff⟩ := h.strBlk hlim hn hblk
  obtain ⟨rfl, rfl⟩ := Prod.mk.inj (Option.some.inj heq)
  have hroom := hc.fits hlim htaken
  have hmax : n ≤ 2 ^ 47 - 9 := hn
  have hcopy : Within g₁ b m₁ (copyBytes m₁ src (b + 8) n) := within_copyBytes (by omega)
  refine ⟨_, b, rfl, hsound.texted hlim htaken hoff hc ?_ ?_⟩
  · refine hcopy.trans fun i hi => ?_
    show st8 (st64 _ b n) (b + 8 + n) 0 i = _
    rw [st8_apart (by omega), st64_apart (by omega)]
  · show ld64 (st8 _ (b + 8 + n) 0) b = n
    rw [ld64_st8_apart (by omega)]
    exact ld64_st64 (by omega)

/-! ## Numbers -/

/-- The digits lie right before `q`, one for each round. -/
theorem numMag_out {fuel : Nat} (ht : numMag fuel m w q = some (x, m')) (hq : fuel ≤ q) :
    x ≤ q ∧ q ≤ x + fuel ∧ ∀ i, i < x ∨ q ≤ i → m' i = m i := by
  induction fuel generalizing m w q with
  | zero =>
    rw [numMag] at ht
    split at ht
    · obtain ⟨rfl, rfl⟩ := Prod.mk.inj (Option.some.inj ht)
      exact ⟨Nat.le_refl _, Nat.le_refl _, fun _ _ => rfl⟩
    · exact absurd ht (by simp)
  | succ fuel ih =>
    rw [numMag] at ht
    split at ht
    · obtain ⟨hle, hge, hout⟩ := ih ht (by omega)
      refine ⟨by omega, by omega, fun i hi => ?_⟩
      rw [hout i (by omega)]
      exact st8_apart (by omega)
    · obtain ⟨rfl, rfl⟩ := Prod.mk.inj (Option.some.inj ht)
      exact ⟨Nat.le_refl _, by omega, fun _ _ => rfl⟩

/-- A number has at most 21 characters, right before `q`. -/
theorem numStr_out (ht : numStr m w q = some (x, m')) (hq : 21 ≤ q) :
    x ≤ q ∧ q ≤ x + 21 ∧ ∀ i, i < x ∨ q ≤ i → m' i = m i := by
  unfold numStr at ht
  split at ht
  · simp only [numNeg, Option.bind_eq_bind, Option.bind_eq_some_iff] at ht
    obtain ⟨⟨y, m₁⟩, hmag, heq⟩ := ht
    obtain ⟨rfl, rfl⟩ := Prod.mk.inj (Option.some.inj heq)
    obtain ⟨hle, hge, hout⟩ := numMag_out hmag (by omega)
    refine ⟨by omega, by omega, fun i hi => ?_⟩
    rw [st8_apart (by omega)]
    exact hout i (by omega)
  · simp only [numPos, Option.bind_eq_bind, Option.bind_eq_some_iff] at ht
    obtain ⟨⟨y, m₁⟩, hmag, heq⟩ := ht
    obtain ⟨hle, hge, hout⟩ := numMag_out hmag (by omega)
    split at heq
    · obtain ⟨rfl, rfl⟩ := Prod.mk.inj (Option.some.inj heq)
      -- Zero has no digits, so nothing was written before its one.
      next hzero =>
      subst hzero
      simp only [numMag, ne_eq, not_true_eq_false, if_false, Option.some.injEq, Prod.mk.injEq] at hmag
      obtain ⟨-, rfl⟩ := hmag
      exact ⟨by omega, by omega, fun i hi => st8_apart (by omega)⟩
    · obtain ⟨rfl, rfl⟩ := Prod.mk.inj (Option.some.inj heq)
      exact ⟨hle, by omega, hout⟩

/-- The class of the buffer for the digits. -/
theorem strClass_buffer : strClass 23 37 := by
  refine ⟨by decide, by decide, by decide, ?_⟩
  exact poolClsLoop_eq (z := 16) (t := 32) (j := 1) (by decide) (by decide) (by decide) (by decide)

/-- How a number becomes a string: its digits from `q` on in the buffer `p`, copied to `b`. -/
structure Printed (a : Nat) (g g₁ g₂ : Layout) (w p q b : Nat) (m m₁ m₂ m₃ : Bytes) : Prop where
  taken : Taken g g₁ 37 p
  start : Change a [p] g g₁ m m₁
  spare : g.Spare p
  room : 32 ≤ g₁.size p
  digits : numStr (st8 m₁ (p + 31) 0) w (p + 31) = some (q, m₂)
  ge : p + 10 ≤ q
  le : q ≤ p + 31
  fill : Change a [p] g₁ g₁ m₁ m₂
  copy : strOfMem a m₂ q (p + 31 - q) = some (b + 8, m₃)
  text : Texted a g₁ g₂ b (p + 31 - q) m₂ m₃
  ne : b ≠ p
  held : g₂.use p = .held
  back : Change a [p] g₂ (g₂.give p 37) m₃ (poolGive a m₃ 37 p)

theorem Sound.strOfWord_printed (h : Sound a m g) (hlim : g.lim = 36)
    (ht : strOfWord a m w = some (x, m')) :
    ∃ g₁ g₂ p q b m₁ m₂ m₃, Printed a g g₁ g₂ w p q b m m₁ m₂ m₃ ∧ x = b + 8 ∧
      m' = Arena.poolGive a m₃ 37 p := by
  simp only [Arena.strOfWord, Option.bind_eq_bind, Option.bind_eq_some_iff] at ht
  obtain ⟨⟨p, m₁⟩, hblk, hat⟩ := ht
  obtain ⟨g₁, c, hc, hsound, htaken, hoff⟩ := h.strBlk hlim (n := 23) (by decide) hblk
  obtain rfl : c = 37 := Option.some.inj (hc.2.2.2.symm.trans strClass_buffer.2.2.2)
  have hroom : 32 ≤ g₁.size p := hc.fits hlim htaken
  have hp₁ : g₁.use p = .held := by rw [htaken.use, turn_use]
  simp only [strOfWordAt, Option.bind_eq_bind, Option.bind_eq_some_iff] at hat
  obtain ⟨⟨q, m₂⟩, hnum, ⟨y, m₃⟩, hmem, d, hd, heq⟩ := hat
  obtain ⟨hle, hge, hout⟩ := numStr_out hnum (by omega)
  obtain ⟨rfl, rfl⟩ := Prod.mk.inj (Option.some.inj heq)
  obtain rfl : d = 37 := Option.some.inj (hd.symm.trans strClass_buffer.2.2.2)
  -- The digits are written in the buffer, which is still held.
  have hwithin : Within g₁ p m₁ m₂ :=
    (within_st8 (k := 31) (by omega)).trans fun i hi => hout i (by omega)
  have hdigits := hsound.write hp₁ hwithin
  obtain ⟨g₂, b, rfl, htext⟩ := hdigits.sound.strOfMem (htaken.lim.trans hlim) (n := p + 31 - q)
    (by unfold strMax; omega) hmem
  have hne : b ≠ p := htext.was.ne hp₁ (by decide) fun c _ => Use.noConfusion
  have hp₂ : g₂.use p = .held := by
    rw [htext.change.use p (fun hin => hne (List.mem_singleton.mp hin).symm), hp₁]
  have hsize : g₂.size p = g₁.size p := htext.change.size p (by rw [hp₁]; decide)
  have hlim₂ : g₂.lim = 36 := htext.change.lim.trans (htaken.lim.trans hlim)
  have hback := htext.change.sound.given (c := 37) hp₂ (by decide)
    (by rw [hlim₂]; show 32 ≤ g₂.size p; omega) (fun he => by omega)
  exact ⟨g₁, g₂, p, q, b, m₁, m₂, m₃, ⟨htaken, htaken.change hsound hoff, hc.spare htaken, hroom,
    hnum, by omega, hle, hdigits, hmem, htext, hne, hp₂, hback⟩, rfl, rfl⟩

theorem Sound.strOfWord (h : Sound a m g) (hlim : g.lim = 36)
    (ht : strOfWord a m w = some (x, m')) :
    ∃ g' p b n, x = b + 8 ∧ b ≠ p ∧ Change a [p, b] g g' m m' ∧
      g.Spare p ∧ g.Spare b ∧ (∃ c, c ≠ 0 ∧ g'.use p = .free c) ∧ g'.use b = .str ∧
      ld64 m' b = n ∧ n ≤ strMax := by
  obtain ⟨g₁, g₂, p, q, b, m₁, m₂, m₃, hr, rfl, rfl⟩ := h.strOfWord_printed hlim ht
  have hbn : g₂.use b ≠ .none := by rw [hr.text.str]; decide
  refine ⟨g₂.give p 37, p, b, _, rfl, hr.ne, ?_, hr.spare, ?_, ⟨37, by decide, give_use⟩, ?_, rfl, ?_⟩
  · exact (hr.start.mono (by simp)).trans ((hr.fill.mono (by simp)).trans
      ((hr.text.change.mono (by simp)).trans (hr.back.mono (by simp))))
  · have hwas := hr.text.was
    rwa [Layout.Spare, hr.taken.use, turn_use_of_ne hr.ne] at hwas
  · rw [give_use_of_ne hr.ne, hr.text.str]
  · have hload := hr.back.load (x := b) (k := 0) (fun y hy => by
      rw [List.mem_singleton.mp hy, give_use]
      exact Use.noConfusion) hbn (fun hin => hr.ne (List.mem_singleton.mp hin))
      (by have := hr.text.room; omega)
    rw [show ld64 _ b = _ from hload]
    show ld64 m₃ b ≤ _
    have hge := hr.ge
    rw [hr.text.len]
    unfold strMax
    omega

/-! ## Two strings -/

theorem addrAdd_nat {k : Nat} (h : x + k < 2 ^ 64) : addrAdd x k = x + k := by
  unfold addrAdd
  rw [← Nat.cast_add, Int.emod_eq_of_lt (by omega) (by omega)]
  rfl

/-- The copies and the NUL lie in the block. -/
theorem concatAt_within {i j : Nat} (hroom : i + j + 9 ≤ g.size b) (hb : b + g.size b < 2 ^ 64)
    (hs : strLen m s = i) (hr : strLen (copyBytes m s (b + 8) i) r = j) :
    (concatAt m s r b).1 = b + 8 ∧ Within g b m (concatAt m s r b).2 ∧
      ld64 (concatAt m s r b).2 b = ld64 m b := by
  have hfirst : addrAdd (b + 8) i = b + 8 + i := addrAdd_nat (by omega)
  have hlast : addrAdd (b + 8 + i) j = b + 8 + i + j := addrAdd_nat (by omega)
  have heq : concatAt m s r b =
      (b + 8, st8 (copyBytes (copyBytes m s (b + 8) i) r (b + 8 + i) j) (b + 8 + i + j) 0) := by
    rw [concatAt, concatCopy1, hs, Int.toNat_natCast, hfirst]
    simp only [concatCopy2, hr, Int.toNat_natCast, hlast]
  rw [heq]
  refine ⟨rfl, fun k hk => ?_, ?_⟩
  · show st8 _ _ 0 k = m k
    rw [st8_apart (by omega), copyBytes_apart (by omega), copyBytes_apart (by omega)]
  · show ld64 (st8 _ _ 0) b = _
    rw [ld64_st8_apart (by omega)]
    refine Bytes.load_congr fun k hge hlt => ?_
    rw [copyBytes_apart (by omega), copyBytes_apart (by omega)]

/-- The block for two strings, with the sum of their lengths. -/
theorem concatAlloc_eq {i j : Nat} (hs : strLen m s = i) (hr : strLen m r = j)
    (hn : i + j < 2 ^ 31) :
    concatAlloc a m s r = (Arena.strBlk a m (i + j : Nat)).map fun t => (t.1, st64 t.2 t.1 (i + j)) := by
  have hsum : Int.bmod (strLen m s + strLen m r) (2 ^ 32) = ((i + j : Nat) : Int) := by
    rw [hs, hr, ← Nat.cast_add, Int.bmod_eq_of_le (by omega) (by omega)]
  have hnum : (((i + j : Nat) : Int) % 2 ^ 64).toNat = i + j := by
    rw [Int.emod_eq_of_lt (by omega) (by omega)]
    rfl
  rw [concatAlloc, hsum]
  cases hblk : Arena.strBlk a m (i + j : Nat) with
  | none => rfl
  | some t =>
    simp only [Option.bind_eq_bind, Option.bind_some, hnum, Option.map_some]
    rfl

/-- The lengths stay as they are read while the new block is filled. -/
theorem Sound.concat {i j : Nat} {m₁ : Bytes} (h : Sound a m g) (hlim : g.lim = 36) (hs : strLen m s = i)
    (hr : strLen m r = j) (hn : i + j < 2 ^ 31) (halloc : concatAlloc a m s r = some (b, m₁))
    (hkeep : ∀ m' g', Change a [b] g g' m m' → g.Spare b → g'.use b ≠ .none →
      g'.top = ld64 m₁ a → strLen m' s = i ∧ strLen m' r = j)
    (ht : concat a m s r = some (x, m')) :
    ∃ g', x = b + 8 ∧ Texted a g g' b (i + j) m m' := by
  rw [Arena.concat, halloc] at ht
  rw [concatAlloc_eq hs hr hn, Option.map_eq_some_iff] at halloc
  obtain ⟨⟨b', m₀⟩, hblk, heq⟩ := halloc
  obtain ⟨rfl, rfl⟩ := Prod.mk.inj heq
  obtain ⟨g₁, c, hc, hsound, htaken, hoff⟩ := h.strBlk hlim (by unfold strMax; omega) hblk
  have hroom := hc.fits hlim htaken
  have hb₁ : g₁.use b' = .held := by rw [htaken.use, turn_use]
  have hin := hsound.placed.inside b' (hsound.used b' (by rw [hb₁]; decide))
  have htop := hsound.placed.top_lt
  have hcount : Within g₁ b' m₀ (st64 m₀ b' (i + j)) := fun k hk => st64_apart (by omega)
  have hfilled := hsound.write hb₁ hcount
  -- Every memory on the way differs from the first in the block only.
  have hlens : ∀ m', Within g₁ b' m₀ m' → strLen m' s = i ∧ strLen m' r = j := fun m' hw =>
    hkeep m' g₁ ((htaken.change hsound hoff).trans (hsound.write hb₁ hw))
      (hc.spare htaken) (by rw [hb₁]; decide) hfilled.sound.top_load.symm
  have hcopy : Within g₁ b' (st64 m₀ b' (i + j)) (copyBytes (st64 m₀ b' (i + j)) s (b' + 8) i) :=
    fun k hk => copyBytes_apart (by omega)
  obtain ⟨hx, hw, hload⟩ := concatAt_within (m := st64 m₀ b' (i + j)) (s := s) (r := r) hroom
    (by omega) (hlens _ hcount).1 (hlens _ (hcount.trans hcopy)).2
  have hm' : concatAt (st64 m₀ b' (i + j)) s r b' = (x, m') := Option.some.inj ht
  rw [hm'] at hx hw hload
  refine ⟨g₁.turn b' .str, hx, hsound.texted hlim htaken hoff hc (hcount.trans hw) ?_⟩
  rw [hload]
  exact ld64_st64 (by omega)

/-! ## Giving a string back -/

theorem Sound.strFree (h : Sound a m g) (hb : g.use b = .str)
    (ht : strFree a m (b + 8) = some m') :
    ∃ g' c, Change a [b] g g' m m' ∧ c ≠ 0 ∧ g'.use b = .free c := by
  obtain ⟨-, c, hc, hroom⟩ := h.texts b hb
  have hmax : ld64 m b ≤ 2 ^ 47 - 9 := hc.1
  rw [Arena.strFree, if_pos (by omega), Nat.add_sub_cancel, strGive, signed_small (by omega),
    hc.2.2.2] at ht
  have hheld : Sound a m (g.turn b .held) := by
    refine h.turn (by rw [hb]; decide) (fun c => by rw [hb]; exact Use.noConfusion)
      (fun c => Use.noConfusion) ?_ Use.noConfusion Use.noConfusion
    intro p hpb hp hcells
    have hcells' := (h.heads p hp).cells
    rw [hcells, hb] at hcells'
    exact Use.noConfusion hcells'
  have hc0 : c ≠ 0 := by
    have := hc.2.1
    omega
  have hback := hheld.given (c := c) turn_use hc.2.2.1 hroom fun he => absurd he hc0
  have hm' : m' = Arena.poolGive a m c b := (Option.some.inj ht).symm
  rw [hm']
  exact ⟨_, c, (hheld.turned Use.noConfusion).trans hback, hc0, give_use⟩

end IdCompiler.Arena

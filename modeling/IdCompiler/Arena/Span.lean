import IdCompiler.Arena.Decimal

/-!
# Spans of strings

`str_sub` tests a span with a sum that wraps. It is right for exactly those spans whose
exact sum is an `int`, or whose wrapped sum still lies behind the string.
-/

namespace IdCompiler.Arena

open IdCompiler.Core Relation

/-- What a call gives that may stop the program with a message. -/
inductive Ends (α : Type) : Type
  | fails (message : String)
  | gives (x : α)

theorem Ends.fails_ne {α : Type} {message : String} {x : α} : Ends.fails message ≠ .gives x := nofun

/-- `sub_span`. -/
def subSpan (m : Bytes) (s : Nat) (i n : Int) : Ends Int :=
  if 0 ≤ i ∧ 0 ≤ n ∧ (n = 0 ∨ wrap32 (i + n) ≤ strLen m s) then .gives n
  else .fails (s!"str span out of bounds: i={i} n={n} in a string of length {strLen m s}" ++
    "; clamp i and n first (fixed_point_minimum, fixed_point_maximum)")

/-- `str_sub`. -/
def strSub (a : Nat) (m : Bytes) (s : Nat) (i n : Int) : Ends (Option (Nat × Bytes)) :=
  match subSpan m s i n with
  | .fails message => .fails message
  | .gives subN => .gives (strOfMem a m (addrAdd s i) subN.toNat)

/-- The bytes that the rounds of `copy_bytes` load. -/
def copyReads (src : Nat) : Nat → List Nat
  | 0 => []
  | d + 1 => copyReads src d ++ [src + d]

/-- The bytes that `str_sub` copies. -/
def subReads (m : Bytes) (s : Nat) (i n : Int) : List Nat :=
  match subSpan m s i n with
  | .fails _ => []
  | .gives subN => copyReads (addrAdd s i) subN.toNat

/-- The bump pointer after the call. -/
def subTop (a : Nat) (m : Bytes) (s : Nat) (i n : Int) : Nat :=
  match strSub a m s i n with
  | .gives (some t) => ld64 t.2 a
  | _ => ld64 m a

/-- A string of the program: with its count and its bytes outside the arena, or live. -/
def Text (a : Nat) (s : State) (top x : Nat) : Prop :=
  (8 ≤ x ∧ x + ld64 s.mem (x - 8) < 2 ^ 64 ∧
    ∀ i, x - 8 ≤ i → i < x + ld64 s.mem (x - 8) → Outside a s top i) ∨
  ∃ t ∈ s.strs, x = t.1 + 8

/-- The span fails exactly where it is not in the string; else it is copied, and nothing else
is read. -/
structure Spans (a : Nat) (m : Bytes) (x : Nat) (i n : Int) : Prop where
  fails : (∃ message, strSub a m x i n = .fails message) ↔
    i < 0 ∨ n < 0 ∨ (0 < n ∧ strLen m x < i + n)
  returns : (arenaTop a m).1 + 2 ^ 33 ≤ 2 ^ 64 → strSub a m x i n ≠ .gives none
  copies : ∀ t, strSub a m x i n = .gives (some t) →
    Spells t.2 t.1 (bytesAt m (x + i.toNat) n.toNat)
  reads : ∀ j ∈ subReads m x i n, x ≤ j ∧ j < x + ld64 m (x - 8)

/-- The exact sum is no `int`, and what it wraps to is not behind the string. -/
def Wraps (m : Bytes) (x : Nat) (i n : Int) : Prop :=
  0 ≤ i ∧ 0 < n ∧ 2 ^ 31 ≤ i + n ∧ i + n - 2 ^ 32 ≤ strLen m x

variable {a : Nat} {m m' : Bytes} {g g' : Layout} {s : State} {i n : Int} {x src k : Nat}

theorem strLen_le : -2 ^ 31 ≤ strLen m x ∧ strLen m x < 2 ^ 31 ∧ strLen m x ≤ ld64 m (x - 8) := by
  unfold strLen
  have hge := Int.le_bmod (x := (ld64 m (x - 8) : Int)) (m := 2 ^ 32) (by decide)
  have hlt := Int.bmod_lt (x := (ld64 m (x - 8) : Int)) (m := 2 ^ 32) (by decide)
  refine ⟨by omega, by omega, ?_⟩
  rw [Int.bmod_def]
  split <;> omega

/-- A span that the test accepts, in exact arithmetic. -/
theorem subSpan_gives (hlo : -2 ^ 31 ≤ i) (hhi : i < 2 ^ 31) (hnlo : -2 ^ 31 ≤ n) (hnhi : n < 2 ^ 31)
    (hw : ¬Wraps m x i n) : (0 ≤ i ∧ 0 ≤ n ∧ (n = 0 ∨ wrap32 (i + n) ≤ strLen m x)) ↔
      ¬(i < 0 ∨ n < 0 ∨ (0 < n ∧ strLen m x < i + n)) := by
  unfold Wraps at hw
  have hlen := strLen_le (m := m) (x := x)
  by_cases hsum : i + n < 2 ^ 31
  · by_cases hneg : 0 ≤ i ∧ 0 ≤ n
    · rw [wrap32_small (by omega) hsum]
      omega
    · omega
  · -- The sum wraps, to a number that is below zero.
    have hwrap : wrap32 (i + n) = i + n - 2 ^ 32 := by
      rw [wrap32, Int.bmod_def, if_neg (by omega)]
      omega
    rw [hwrap]
    omega

theorem mem_copyReads {n : Nat} : k ∈ copyReads src n ↔ src ≤ k ∧ k < src + n := by
  induction n with
  | zero => simp [copyReads]
  | succ n ih =>
    rw [copyReads, List.mem_append, ih, List.mem_singleton]
    omega

/-- A string lies below the end of the addresses. -/
theorem Good.text_lt {top : Nat} (h : Good a s) (hx : Text a s top x) :
    8 ≤ x ∧ x + ld64 s.mem (x - 8) < 2 ^ 64 := by
  obtain ⟨g, hs, hg⟩ := h
  obtain ⟨hge, hlt, -⟩ | ⟨t, ht, rfl⟩ := hx
  · exact ⟨hge, hlt⟩
  · obtain ⟨huse, hlen⟩ := hg.strs t ht
    obtain ⟨-, c, hc, hroom⟩ := hs.texts t.1 huse
    have hin := hs.placed.inside t.1 (hs.used t.1 (by rw [huse]; decide))
    have htop := hs.placed.top_lt
    have hfit := hc.room
    rw [hg.lim] at hroom
    rw [Nat.add_sub_cancel]
    omega

/-- The bytes of a string are none of the table's. -/
theorem Holds.text_off {top : Nat} (hg : Holds s g) (hs : Sound a s.mem g) (hx : Text a s top x)
    (htop : g.top ≤ top) {j : Nat} (hge : x ≤ j) (hlt : j < x + ld64 s.mem (x - 8)) :
    j < a ∨ a + 648 ≤ j := by
  have hfirst := hs.placed.top_ge
  obtain ⟨-, -, hout⟩ | ⟨t, ht, rfl⟩ := hx
  · obtain hj | ⟨-, hj⟩ | ⟨r, hr, hlo, hhi⟩ := hout j (by omega) hlt
    · exact .inl hj
    · exact .inr (by omega)
    · rw [← hg.raws] at hr
      have hin := hs.placed.raw_inside r hr
      exact .inr (by omega)
  · have hblock := hs.block_ge (b := t.1) (by rw [(hg.strs t ht).1]; decide)
    exact .inr (by omega)

/-- A block that is made for a copy has no byte of the string. -/
theorem Holds.text_apart {b l j : Nat} (hg : Holds s g) (hs : Sound a s.mem g)
    (htext : Texted a g g' b l s.mem m') (hx : Text a s g'.top x) (hge : x ≤ j)
    (hlt : j < x + ld64 s.mem (x - 8)) : j < b ∨ b + g'.size b ≤ j := by
  have hb : g'.use b ≠ .none := by rw [htext.str]; decide
  have hs' := htext.change.sound
  have hin := hs'.placed.inside b (hs'.used b hb)
  obtain ⟨-, -, hout⟩ | ⟨t, ht, rfl⟩ := hx
  · obtain hj | ⟨-, hj⟩ | ⟨r, hr, hlo, hhi⟩ := hout j (by omega) hlt
    · omega
    · omega
    · rw [← hg.raws, ← htext.change.raw] at hr
      have hapart := hs'.placed.raw_apart r hr b (hs'.used b hb)
      unfold Apart at hapart
      omega
  · obtain ⟨huse, -⟩ := hg.strs t ht
    have hne : t.1 ≠ b := hg.str_spare htext.was t ht
    have hn : g.use t.1 ≠ .none := by rw [huse]; decide
    obtain ⟨-, c, hc, hroom⟩ := hs.texts t.1 huse
    have hfit := hc.room
    have hsize := htext.change.size t.1 hn
    have hapart := hs'.apart_of_ne (htext.change.live t.1 hn) hb hne
    unfold Apart at hapart
    rw [hg.lim] at hroom
    rw [Nat.add_sub_cancel] at hlt
    omega

/-- A copy of bytes of a string spells them. -/
theorem Good.copies {j k : Nat} (h : Good a s) (hk : k ≤ strMax)
    (ht : strOfMem a s.mem j k = some (src, m')) (hx : Text a s (ld64 m' a) x) (hge : x ≤ j)
    (hle : j + k ≤ x + ld64 s.mem (x - 8)) : Spells m' src (bytesAt s.mem j k) := by
  obtain ⟨g, hs, hg⟩ := h
  obtain ⟨g₁, b₁, -, htext₁⟩ := hs.strOfMem hg.lim hk ht
  have htop := htext₁.change.top
  rw [htext₁.change.sound.top_load] at hx
  obtain ⟨g', b, rfl, htext, hspell⟩ := hs.strOfMem_spells hg.lim hk
    (fun d hd => hg.text_off hs hx htop (by omega) (by omega)) ht
  refine hspell ?_
  rw [← htext₁.change.sound.top_load, htext.change.sound.top_load] at hx
  have hroom := htext.room
  -- Two runs of bytes that meet have a first byte in common.
  by_contra hmeet
  unfold Apart at hmeet
  rcases Nat.le_total j (b + 8) with hjb | hbj
  · have hfirst := hg.text_apart hs htext hx (j := b + 8) (by omega) (by omega)
    omega
  · have hfirst := hg.text_apart hs htext hx (j := j) (by omega) (by omega)
    omega

/-! ## The spans that are tested right -/

/-- What the test accepts is in the string. -/
theorem subSpan_inside (hw : ¬Wraps m x i n) (hlo : -2 ^ 31 ≤ i) (hhi : i < 2 ^ 31)
    (hnlo : -2 ^ 31 ≤ n) (hnhi : n < 2 ^ 31) {k : Int} (hk : subSpan m x i n = .gives k) :
    k = n ∧ 0 ≤ i ∧ 0 ≤ n ∧ (0 < n → i + n ≤ ld64 m (x - 8)) := by
  unfold subSpan at hk
  split at hk
  · next hok =>
    have hin := (subSpan_gives hlo hhi hnlo hnhi hw).mp hok
    have hlen := strLen_le (m := m) (x := x)
    exact ⟨(Ends.gives.inj hk).symm, hok.1, hok.2.1, fun hpos => by omega⟩
  · exact absurd hk Ends.fails_ne

theorem spans_of (hx : x + ld64 m (x - 8) < 2 ^ 64) (hw : ¬Wraps m x i n) (hlo : -2 ^ 31 ≤ i)
    (hhi : i < 2 ^ 31) (hnlo : -2 ^ 31 ≤ n) (hnhi : n < 2 ^ 31)
    (hsome : (arenaTop a m).1 + 2 ^ 33 ≤ 2 ^ 64 → ∀ j k, k < 2 ^ 31 → ∃ t, strOfMem a m j k = some t)
    (hcopy : ∀ j k t, k < 2 ^ 31 → x ≤ j → j + k ≤ x + ld64 m (x - 8) →
      strSub a m x i n = .gives (some t) → strOfMem a m j k = some t →
      Spells t.2 t.1 (bytesAt m j k)) : Spans a m x i n := by
  have hgives := subSpan_gives (m := m) (x := x) hlo hhi hnlo hnhi hw
  constructor
  case fails =>
    rw [strSub, subSpan]
    split
    · next hok =>
      split at hok
      · next hin => exact absurd hok.symm Ends.fails_ne
      · next hout => exact ⟨fun _ => by_contra fun h => hout (hgives.mpr h), fun _ => ⟨_, rfl⟩⟩
    · next hok =>
      split at hok
      · next hin => exact ⟨fun ⟨_, h⟩ => absurd h.symm Ends.fails_ne, fun h => absurd h (hgives.mp hin)⟩
      · exact absurd hok Ends.fails_ne
  case returns =>
    intro hroom hnone
    rw [strSub] at hnone
    split at hnone
    · exact absurd hnone Ends.fails_ne
    · next k hk =>
      obtain ⟨rfl, -, hn, -⟩ := subSpan_inside hw hlo hhi hnlo hnhi hk
      obtain ⟨t, ht⟩ := hsome hroom (addrAdd x i) k.toNat (by omega)
      rw [ht] at hnone
      exact Option.some_ne_none t (Ends.gives.inj hnone)
  case copies =>
    intro t hsub
    have ht := hsub
    rw [strSub] at ht
    split at ht
    · exact absurd ht Ends.fails_ne
    · next k hk =>
      obtain ⟨rfl, hi, hn, hin⟩ := subSpan_inside hw hlo hhi hnlo hnhi hk
      have ht := Ends.gives.inj ht
      by_cases hzero : k = 0
      · -- Nothing is copied, from wherever it is.
        subst hzero
        have ht : strOfMem a m x 0 = some t := ht
        exact hcopy x 0 t (by omega) (Nat.le_refl _) (by omega) hsub ht
      · have hpos := hin (by omega)
        have hsrc : addrAdd x i = x + i.toNat := by
          rw [← Int.toNat_of_nonneg hi, addrAdd_nat (by omega), Int.toNat_natCast]
        rw [hsrc] at ht
        exact hcopy _ _ t (by omega) (by omega) (by omega) hsub ht
  case reads =>
    intro j hj
    rw [subReads] at hj
    split at hj
    · exact absurd hj List.not_mem_nil
    · next k hk =>
      obtain ⟨rfl, hi, hn, hin⟩ := subSpan_inside hw hlo hhi hnlo hnhi hk
      obtain ⟨hge, hlt⟩ := mem_copyReads.mp hj
      have hpos := hin (by omega)
      have hsrc : addrAdd x i = x + i.toNat := by
        rw [← Int.toNat_of_nonneg hi, addrAdd_nat (by omega), Int.toNat_natCast]
      omega

/-- A wrapped sum is accepted though the span is not in the string. -/
theorem Wraps.not_spans (hw : Wraps m x i n) (hhi : i < 2 ^ 31) (hnhi : n < 2 ^ 31) :
    ¬Spans a m x i n := by
  obtain ⟨hi, hn, hsum, hle⟩ := hw
  have hlen := strLen_le (m := m) (x := x)
  have hwrap : wrap32 (i + n) = i + n - 2 ^ 32 := by
    rw [wrap32, Int.bmod_def, if_neg (by omega)]
    omega
  intro h
  obtain ⟨message, hfail⟩ := h.fails.mpr (.inr (.inr ⟨hn, by omega⟩))
  rw [strSub, subSpan, if_pos ⟨hi, by omega, .inr (by omega)⟩] at hfail
  exact Ends.fails_ne hfail.symm

theorem Good.spans (h : Good a s) (hx : Text a s (subTop a s.mem x i n) x) (hlo : -2 ^ 31 ≤ i)
    (hhi : i < 2 ^ 31) (hnlo : -2 ^ 31 ≤ n) (hnhi : n < 2 ^ 31) (hw : ¬Wraps s.mem x i n) :
    Spans a s.mem x i n := by
  refine spans_of (h.text_lt hx).2 hw hlo hhi hnlo hnhi (fun hroom j k hk => ?_)
    fun j k t hk hge hle hsub ht => ?_
  · obtain ⟨g, hs, hg⟩ := h
    rw [hs.arenaTop] at hroom
    obtain ⟨y, m', ht⟩ := hs.strOfMem_some j (n := k) (by unfold strMax; omega) (by omega)
    exact ⟨_, ht⟩
  · rw [subTop, hsub] at hx
    exact h.copies (by unfold strMax; omega) ht hx hge hle

/-! ## The first operation of an arena -/

theorem strOfMem_first {j k : Nat} (h0 : ld64 m a = 0) (hlt : a + 648 < 2 ^ 64) (hk : k ≤ strMax) :
    strOfMem a m j k = strOfMem a (opened a m) j k := by
  rw [strOfMem, strOfMem, strBlk_first h0 hlt hk]

/-- A string that lies outside an arena that is not open yet is the same once it is. -/
theorem text_opened {top : Nat} (htop : a + 648 ≤ top) (hx : Text a (.fresh m) top x) :
    8 ≤ x ∧ (∀ i, x - 8 ≤ i → i < x + ld64 m (x - 8) → opened a m i = m i) ∧
      Text a (.fresh (opened a m)) top x := by
  obtain ⟨hge, hlt, hout⟩ | ⟨t, ht, -⟩ := hx
  · have hsame : ∀ i, x - 8 ≤ i → i < x + ld64 m (x - 8) → opened a m i = m i := by
      intro i hi hi'
      obtain hi | ⟨-, hi⟩ | ⟨r, hr, -⟩ := hout i hi hi'
      · exact opened_apart (.inl hi)
      · exact opened_apart (.inr (by omega))
      · exact absurd hr List.not_mem_nil
    have hcount : ld64 (opened a m) (x - 8) = ld64 m (x - 8) :=
      Bytes.load_congr fun i hi hi' => hsame i hi (by omega)
    refine ⟨hge, hsame, .inl ⟨hge, ?_, ?_⟩⟩
    · show x + ld64 (opened a m) (x - 8) < 2 ^ 64
      rw [hcount]
      exact hlt
    · intro i hi hi'
      exact hout i hi (hcount ▸ hi')
  · exact absurd ht List.not_mem_nil

theorem unopened_spans (h0 : ld64 m a = 0) (hlt : a + 648 < 2 ^ 64)
    (hx : Text a (.fresh m) (subTop a m x i n) x) (hlo : -2 ^ 31 ≤ i) (hhi : i < 2 ^ 31)
    (hnlo : -2 ^ 31 ≤ n) (hnhi : n < 2 ^ 31) (hw : ¬Wraps m x i n) : Spans a m x i n := by
  have hopen : Sound a (opened a m) (Layout.empty a 36) := opened_sound hlt (by decide)
  refine spans_of ?_ hw hlo hhi hnlo hnhi (fun hroom j k hk => ?_) fun j k t hk hge hle hsub ht => ?_
  · obtain ⟨-, hlt, -⟩ | ⟨t, ht, -⟩ := hx
    · exact hlt
    · exact absurd ht List.not_mem_nil
  · rw [arenaTop_first h0] at hroom
    rw [strOfMem_first h0 hlt (by unfold strMax; omega)]
    have hroom : (Layout.empty a 36).top + 2 ^ 33 ≤ 2 ^ 64 := hroom
    obtain ⟨y, m', ht⟩ := hopen.strOfMem_some j (n := k) (by unfold strMax; omega) (by omega)
    exact ⟨_, ht⟩
  · rw [subTop, hsub] at hx
    rw [strOfMem_first h0 hlt (by unfold strMax; omega)] at ht
    obtain ⟨g', b, -, htext⟩ := hopen.strOfMem rfl (n := k) (by unfold strMax; omega) ht
    have htop := htext.change.sound.placed.top_ge
    rw [← htext.change.sound.top_load] at htop
    obtain ⟨hx8, hsame, hx'⟩ := text_opened htop hx
    have hcount : ld64 (opened a m) (x - 8) = ld64 m (x - 8) :=
      Bytes.load_congr fun i hi hi' => hsame i hi (by omega)
    have hspell := (opened_good (m := m) hlt).copies (by unfold strMax; omega) ht hx' hge
      (by rw [show ld64 (State.fresh (opened a m)).mem (x - 8) = _ from hcount]; exact hle)
    rwa [show bytesAt (State.fresh (opened a m)).mem j k = bytesAt m j k from
      bytesAt_congr fun d hd => hsame _ (by omega) (by omega)] at hspell

/-- The empty string below the arena. -/
theorem text_empty {top : Nat} : Text 4096 (.fresh fun _ => 0) top 8 :=
  .inl ⟨by decide, by decide, fun i _ hi => .inl (Nat.lt_trans hi (by decide))⟩

end IdCompiler.Arena

import IdCompiler.Arena.Alloc
import Mathlib.Logic.Function.Basic

/-!
# What the blocks of the arena are

Each block taken from the bump pointer keeps its place and its size. It is on a free list,
a list's header, a list's cells, a string, or held by an operation under way. The bytes
that the allocator reads again are those of the heads and a few words of each block.
-/

namespace IdCompiler.Arena

open IdCompiler.Core

/-- What a block is. -/
inductive Use
  | none
  | free (cls : Nat)
  | header
  | cells
  | str
  /-- Taken, and not yet anything else. -/
  | held
  deriving DecidableEq

/-- The blocks of an arena. -/
@[ext]
structure Layout where
  /-- The bump pointer. -/
  top : Nat
  size : Nat → Nat
  use : Nat → Use
  /-- The regions `mem_alloc` gave to the program. -/
  raw : List (Nat × Nat)
  chain : Nat → List Nat
  /-- The first class of strings; 80 where lists use all the classes. -/
  lim : Nat

/-- The block `b` becomes `u`. -/
def Layout.turn (g : Layout) (b : Nat) (u : Use) : Layout :=
  { g with use := Function.update g.use b u }

/-- The chain of class `c` becomes `l`. -/
def Layout.rechain (g : Layout) (c : Nat) (l : List Nat) : Layout :=
  { g with chain := Function.update g.chain c l }

/-- The block `b` is the first of class `c`. -/
def Layout.give (g : Layout) (b c : Nat) : Layout :=
  (g.turn b (.free c)).rechain c (b :: g.chain c)

/-- A block of `n` bytes at the bump pointer. -/
def Layout.block (g : Layout) (n : Nat) : Layout :=
  { g with top := g.top + n, size := Function.update g.size g.top n }

/-- A region of `n` bytes for the program, at the bump pointer. -/
def Layout.region (g : Layout) (n : Nat) : Layout :=
  { g with top := g.top + n, raw := (g.top, n) :: g.raw }

section Turn

variable {g : Layout} {b x c n : Nat} {u v : Use} {l : List Nat}

@[simp] theorem block_top : (g.block n).top = g.top + n := rfl
@[simp] theorem block_use : (g.block n).use = g.use := rfl
@[simp] theorem block_raw : (g.block n).raw = g.raw := rfl
@[simp] theorem block_lim : (g.block n).lim = g.lim := rfl
@[simp] theorem block_size : (g.block n).size g.top = n := Function.update_self ..

theorem block_size_of_ne (h : x ≠ g.top) : (g.block n).size x = g.size x :=
  Function.update_of_ne h ..

@[simp] theorem region_top : (g.region n).top = g.top + n := rfl
@[simp] theorem region_size : (g.region n).size = g.size := rfl
@[simp] theorem region_use : (g.region n).use = g.use := rfl
@[simp] theorem region_lim : (g.region n).lim = g.lim := rfl
@[simp] theorem region_raw : (g.region n).raw = (g.top, n) :: g.raw := rfl

@[simp] theorem turn_top : (g.turn b u).top = g.top := rfl
@[simp] theorem turn_size : (g.turn b u).size = g.size := rfl
@[simp] theorem turn_raw : (g.turn b u).raw = g.raw := rfl
@[simp] theorem turn_chain : (g.turn b u).chain = g.chain := rfl
@[simp] theorem turn_lim : (g.turn b u).lim = g.lim := rfl
@[simp] theorem turn_use : (g.turn b u).use b = u := Function.update_self ..

theorem turn_use_of_ne (h : x ≠ b) : (g.turn b u).use x = g.use x := Function.update_of_ne h ..

/-- Any other use is that of another block. -/
theorem turn_use_iff (h : v ≠ u) : (g.turn b u).use x = v ↔ x ≠ b ∧ g.use x = v := by
  by_cases hx : x = b
  · subst hx
    rw [turn_use]
    exact ⟨fun he => absurd he.symm h, fun he => absurd rfl he.1⟩
  · rw [turn_use_of_ne hx]
    exact ⟨fun he => ⟨hx, he⟩, And.right⟩

/-- What the block was not, others still are. -/
theorem turn_use_keep (h : g.use x = v) (hb : g.use b ≠ v) : (g.turn b u).use x = v := by
  rw [turn_use_of_ne, h]
  rintro rfl
  exact hb h

@[simp] theorem rechain_top : (g.rechain c l).top = g.top := rfl
@[simp] theorem rechain_size : (g.rechain c l).size = g.size := rfl
@[simp] theorem rechain_use : (g.rechain c l).use = g.use := rfl
@[simp] theorem rechain_raw : (g.rechain c l).raw = g.raw := rfl
@[simp] theorem rechain_lim : (g.rechain c l).lim = g.lim := rfl
@[simp] theorem rechain_chain : (g.rechain c l).chain c = l := Function.update_self ..

theorem rechain_chain_of_ne (h : x ≠ c) : (g.rechain c l).chain x = g.chain x :=
  Function.update_of_ne h ..

@[simp] theorem give_size : (g.give b c).size = g.size := rfl
@[simp] theorem give_lim : (g.give b c).lim = g.lim := rfl
@[simp] theorem give_use : (g.give b c).use b = .free c := turn_use

theorem give_use_of_ne (h : x ≠ b) : (g.give b c).use x = g.use x := turn_use_of_ne h

end Turn

/-- A block that may become cells or a string: none yet, or free and not a header. -/
def Layout.Spare (g : Layout) (x : Nat) : Prop := g.use x = .none ∨ ∃ c, c ≠ 0 ∧ g.use x = .free c

/-- The bytes that a class hands out. -/
def handOut (lim c : Nat) : Nat :=
  if c = 0 then 24 else if c < lim then 16 * 2 ^ c else 16 * 2 ^ (c - lim)

/-- The bytes at the front of a block that are read again. -/
def Use.kept : Use → Nat
  | .free c => if c = 0 then 16 else 8
  | .header => 24
  | .str => 8
  | _ => 0

/-- Two regions have no byte in common. -/
def Apart (x n y k : Nat) : Prop := x + n ≤ y ∨ y + k ≤ x

/-- The blocks and regions of an arena at `a` have places of their own. -/
structure Placed (a : Nat) (g : Layout) : Prop where
  top_ge : a + 648 ≤ g.top
  top_lt : g.top < 2 ^ 64
  inside : ∀ b, 0 < g.size b → a + 648 ≤ b ∧ b + g.size b ≤ g.top
  apart : ∀ b c, 0 < g.size b → 0 < g.size c → b ≠ c → Apart b (g.size b) c (g.size c)
  raw_inside : ∀ r ∈ g.raw, a + 648 ≤ r.1 ∧ r.1 + r.2 ≤ g.top
  raw_apart : ∀ r ∈ g.raw, ∀ b, 0 < g.size b → Apart r.1 r.2 b (g.size b)
  raw_pair : g.raw.Pairwise fun r s => Apart r.1 r.2 s.1 s.2

/-- Where blocks are does not depend on what they are. -/
theorem Placed.reuse {a : Nat} {g g' : Layout} (h : Placed a g) (htop : g'.top = g.top)
    (hsize : g'.size = g.size) (hraw : g'.raw = g.raw) : Placed a g' := by
  constructor
  case top_ge => rw [htop]; exact h.top_ge
  case top_lt => rw [htop]; exact h.top_lt
  case inside => rw [hsize, htop]; exact h.inside
  case apart => rw [hsize]; exact h.apart
  case raw_inside => rw [hraw, htop]; exact h.raw_inside
  case raw_apart => rw [hraw, hsize]; exact h.raw_apart
  case raw_pair => rw [hraw]; exact h.raw_pair

/-- The header of a list. -/
structure Header (m : Bytes) (g : Layout) (p : Nat) : Prop where
  own : 24 ≤ g.size p
  cap : ∃ k, k + 1 < g.lim ∧ ld64 m (p + 8) = 4 * 2 ^ k
  len : ld64 m p ≤ ld64 m (p + 8)
  cells : g.use (ld64 m (p + 16)) = .cells
  room : 8 * ld64 m (p + 8) ≤ g.size (ld64 m (p + 16))

/-- The most bytes a string of the arena has. -/
def strMax : Nat := 2 ^ 47 - 9

/-- The class of a string's block. -/
def strClass (n c : Nat) : Prop := n ≤ strMax ∧ 36 ≤ c ∧ c < 80 ∧ poolCls 16 36 (n + 9) = some c

/-- A string's block: its count gives the class it came from. -/
def Counted (m : Bytes) (g : Layout) (b : Nat) : Prop :=
  g.lim = 36 ∧ ∃ c, strClass (ld64 m b) c ∧ handOut g.lim c ≤ g.size b

/-- The state of the arena at `a`. -/
structure Sound (a : Nat) (m : Bytes) (g : Layout) : Prop where
  placed : Placed a g
  lim : 36 ≤ g.lim ∧ g.lim ≤ 80
  /-- The first word is the bump pointer. -/
  top_load : ld64 m a = g.top
  used : ∀ b, g.use b ≠ .none → 0 < g.size b
  /-- Each head starts the chain of its class. -/
  links : ∀ c < 80, Links m (ld64 m (a + 8 + c * 8)) (g.chain c)
  nodup : ∀ c < 80, (g.chain c).Nodup
  free : ∀ c < 80, ∀ b, b ∈ g.chain c ↔ g.use b = .free c
  room : ∀ b c, g.use b = .free c → c < 80 ∧ handOut g.lim c ≤ g.size b
  /-- A header given back is marked. -/
  mark : ∀ b, g.use b = .free 0 → ld64 m (b + 8) = minusOne
  heads : ∀ p, g.use p = .header → Header m g p
  /-- No two lists have the same cells. -/
  cells_inj : ∀ p q, g.use p = .header → g.use q = .header → ld64 m (p + 16) = ld64 m (q + 16) →
    p = q
  texts : ∀ b, g.use b = .str → Counted m g b

variable {a : Nat} {m m' : Bytes} {g g' : Layout} {b : Nat}

/-- A spare block is nothing else. -/
theorem Layout.Spare.ne {x y : Nat} {u : Use} (h : g.Spare x) (hy : g.use y = u) (hu : u ≠ .none)
    (hf : ∀ c, c ≠ 0 → u ≠ .free c) : x ≠ y := by
  rintro rfl
  obtain hx | ⟨c, hc, hx⟩ := h
  · exact hu (hy.symm.trans hx)
  · exact hf c hc (hy.symm.trans hx)

theorem Layout.Spare.not_free {x : Nat} (h : g.Spare x) : g.use x ≠ .free 0 := fun hx =>
  absurd rfl (h.ne hx Use.noConfusion fun _ hc he => hc (Use.free.inj he).symm)

theorem Layout.Spare.not_header {x : Nat} (h : g.Spare x) : g.use x ≠ .header := fun hx =>
  absurd rfl (h.ne hx Use.noConfusion fun _ _ => Use.noConfusion)

theorem handOut_ge (lim c : Nat) : 16 ≤ handOut lim c := by
  have hpow : ∀ k : Nat, 1 ≤ 2 ^ k := fun k => Nat.one_le_two_pow
  unfold handOut
  split
  · decide
  · split
    · have := hpow c
      omega
    · have := hpow (c - lim)
      omega

namespace Sound

/-- What is read again lies in the block. -/
theorem kept_le (h : Sound a m g) (b : Nat) (hb : g.use b ≠ .none) : (g.use b).kept ≤ g.size b := by
  cases hu : g.use b with
  | none => exact absurd hu hb
  | free c =>
    have hroom := (h.room b c hu).2
    have hge := handOut_ge g.lim c
    unfold Use.kept
    dsimp only
    split <;> omega
  | header => exact (h.heads b hu).own
  | cells => exact Nat.zero_le _
  | str =>
    obtain ⟨-, c, -, hroom⟩ := h.texts b hu
    have hge := handOut_ge g.lim c
    show 8 ≤ _
    omega
  | held => exact Nat.zero_le _

theorem apart_of_ne (h : Sound a m g) {b c : Nat} (hb : g.use b ≠ .none) (hc : g.use c ≠ .none)
    (hne : b ≠ c) : Apart b (g.size b) c (g.size c) :=
  h.placed.apart b c (h.used b hb) (h.used c hc) hne

/-- Blocks lie after the heads. -/
theorem block_ge (h : Sound a m g) (hb : g.use b ≠ .none) : a + 648 ≤ b :=
  (h.placed.inside b (h.used b hb)).1

end Sound

/-- Two memories agree on what the allocator reads again. -/
structure Frame (a : Nat) (g : Layout) (m m' : Bytes) : Prop where
  table : ∀ i, a ≤ i → i < a + 648 → m' i = m i
  block : ∀ b i, b ≤ i → i < b + (g.use b).kept → m' i = m i

namespace Frame

theorem head (hf : Frame a g m m') {c : Nat} (hc : c < 80) :
    ld64 m' (a + 8 + c * 8) = ld64 m (a + 8 + c * 8) :=
  Bytes.load_congr fun i hge hlt => hf.table i (by omega) (by omega)

theorem load (hf : Frame a g m m') {b k : Nat} (hk : k + 8 ≤ (g.use b).kept) :
    ld64 m' (b + k) = ld64 m (b + k) :=
  Bytes.load_congr fun i hge hlt => hf.block b i (by omega) (by omega)

theorem load_first (hf : Frame a g m m') {b : Nat} (hk : 8 ≤ (g.use b).kept) :
    ld64 m' b = ld64 m b :=
  hf.load (k := 0) (by omega)

end Frame

/-- A header in another memory and layout that agree on it. -/
theorem Header.congr {p : Nat} (h : Header m g p) (hlim : g'.lim = g.lim)
    (hsize : ∀ b, g.use b ≠ .none → g'.size b = g.size b)
    (hp : g.use p ≠ .none) (h0 : ld64 m' p = ld64 m p) (h8 : ld64 m' (p + 8) = ld64 m (p + 8))
    (h16 : ld64 m' (p + 16) = ld64 m (p + 16)) (hcells : g'.use (ld64 m (p + 16)) = .cells) :
    Header m' g' p := by
  have hd : g.use (ld64 m (p + 16)) ≠ .none := by rw [h.cells]; decide
  constructor
  case own => rw [hsize p hp]; exact h.own
  case cap => rw [h8, hlim]; exact h.cap
  case len => rw [h0, h8]; exact h.len
  case cells => rw [h16]; exact hcells
  case room => rw [h8, h16, hsize _ hd]; exact h.room

/-- A change that leaves the free lists as they are. -/
theorem Sound.reshape (h : Sound a m g) (hplaced : Placed a g') (htop : ld64 m' a = g'.top)
    (hlim : g'.lim = g.lim) (hchain : g'.chain = g.chain) (hfree : ∀ b c, g'.use b = .free c ↔ g.use b = .free c)
    (hsize : ∀ b, g.use b ≠ .none → g'.size b = g.size b)
    (hused : ∀ b, g'.use b ≠ .none → 0 < g'.size b)
    (hhead : ∀ c < 80, ld64 m' (a + 8 + c * 8) = ld64 m (a + 8 + c * 8))
    (hfirst : ∀ b c, g.use b = .free c → ld64 m' b = ld64 m b)
    (hmark : ∀ b, g.use b = .free 0 → ld64 m' (b + 8) = ld64 m (b + 8))
    (hlist : ∀ p, g'.use p = .header → Header m' g' p)
    (hinj : ∀ p q, g'.use p = .header → g'.use q = .header →
      ld64 m' (p + 16) = ld64 m' (q + 16) → p = q)
    (htext : ∀ b, g'.use b = .str → Counted m' g' b) : Sound a m' g' := by
  constructor
  case placed => exact hplaced
  case lim => rw [hlim]; exact h.lim
  case top_load => exact htop
  case used => exact hused
  case links =>
    intro c hc
    rw [hhead c hc, hchain]
    exact (h.links c hc).transport fun b hb => hfirst b c ((h.free c hc b).mp hb)
  case nodup =>
    intro c hc
    rw [hchain]
    exact h.nodup c hc
  case free =>
    intro c hc b
    rw [hchain, hfree]
    exact h.free c hc b
  case room =>
    intro b c hb
    have hb := (hfree b c).mp hb
    rw [hsize b (by rw [hb]; exact Use.noConfusion), hlim]
    exact h.room b c hb
  case mark =>
    intro b hb
    have hb := (hfree b 0).mp hb
    rw [hmark b hb]
    exact h.mark b hb
  case heads => exact hlist
  case cells_inj => exact hinj
  case texts => exact htext

/-- What the allocator does not read again may change. -/
theorem Sound.frame (h : Sound a m g) (hf : Frame a g m m') : Sound a m' g := by
  have hheader : ∀ p, g.use p = .header → ld64 m' p = ld64 m p ∧ ld64 m' (p + 8) = ld64 m (p + 8) ∧
      ld64 m' (p + 16) = ld64 m (p + 16) := fun p hp =>
    have hk : (g.use p).kept = 24 := by rw [hp]; rfl
    ⟨hf.load_first (by omega), hf.load (by omega), hf.load (by omega)⟩
  refine h.reshape h.placed ?_ rfl rfl (fun b c => Iff.rfl) (fun b hb => rfl) h.used
    (fun c hc => hf.head hc) ?_ ?_ ?_ ?_ ?_
  · rw [← h.top_load]
    exact Bytes.load_congr fun i hge hlt => hf.table i hge (by omega)
  · intro b c hb
    apply hf.load_first
    rw [hb]
    unfold Use.kept
    dsimp only
    split <;> omega
  · intro b hb
    exact hf.load (by rw [hb]; decide)
  · intro p hp
    obtain ⟨h0, h8, h16⟩ := hheader p hp
    exact (h.heads p hp).congr rfl (fun b hb => rfl) (by rw [hp]; decide) h0 h8 h16 (h.heads p hp).cells
  · intro p q hp hq heq
    rw [(hheader p hp).2.2, (hheader q hq).2.2] at heq
    exact h.cells_inj p q hp hq heq
  · intro b hb
    rw [Counted, hf.load_first (by rw [hb]; decide)]
    exact h.texts b hb

/-- Only bytes of the block at `b` differ. -/
def Within (g : Layout) (b : Nat) (m m' : Bytes) : Prop :=
  ∀ i, i < b ∨ b + g.size b ≤ i → m' i = m i

/-- A block of which nothing is read again may change. -/
theorem Sound.frame_of_within (h : Sound a m g) (hb : g.use b ≠ .none) (hk : (g.use b).kept = 0)
    (hw : Within g b m m') : Frame a g m m' := by
  constructor
  case table =>
    intro i hge hlt
    have := h.block_ge hb
    exact hw i (.inl (by omega))
  case block =>
    intro c i hge hlt
    by_cases hcb : c = b
    · rw [hcb, hk] at hlt
      omega
    · have hc : g.use c ≠ .none := fun hn => by
        rw [hn] at hlt
        simp only [Use.kept] at hlt
        omega
      have hle := h.kept_le c hc
      have hapart := h.apart_of_ne hc hb hcb
      unfold Apart at hapart
      exact hw i (by omega)

end IdCompiler.Arena

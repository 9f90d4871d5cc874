import IdCompiler.Core.Bytes
import Mathlib.Logic.Function.Basic

/-!
# The block pool of the hosted runtime

Blocks without headers: a small block goes back to the free list of the class of
the size it is given back with, a large one to the system. A block is named by a
number; the memory of different blocks is apart. Memory never runs out here.
-/

namespace IdCompiler.Hosted

open IdCompiler.Core

/-- A block from the pool or the system. -/
abbrev Block := Nat

/-- `ID_POOL_MAX`. -/
def idPoolMax : Nat := 16384

/-- The class of a size. -/
def idPoolClass (n : Nat) : Nat :=
  if n ≤ 512 then if n = 0 then 1 else (n + 15) >>> 4
  else
    let m := n - 1
    let e := Nat.log2 m
    33 + (e - 9) * 4 + ((m >>> (e - 2)) &&& 3)

/-- The bytes of a block of a class. -/
def idPoolClassBytes (k : Nat) : Nat :=
  if k ≤ 32 then k <<< 4
  else
    let j := k - 33
    let e := 9 + (j >>> 2)
    (1 <<< e) + ((j &&& 3) + 1) * (1 <<< (e - 2))

/-- A call that gives a block back or resizes it: the size it names and the size the block was last
obtained or resized with. -/
structure Given where
  size : Nat
  held : Nat

/-- Both are large, or both are small and of one class. -/
def Given.Fits (c : Given) : Prop :=
  (idPoolMax < c.size ↔ idPoolMax < c.held) ∧
    (c.size ≤ idPoolMax → idPoolClass c.size = idPoolClass c.held)

/-- The pool and its blocks. -/
structure Pool where
  /-- The bytes a block has. -/
  room : Block → Nat
  /-- The size a block was last obtained or resized with. -/
  held : Block → Nat
  mem : Block → Bytes
  /-- `id_pool_fl`: the free blocks of each class. -/
  fl : Nat → List Block
  /-- The next block carved from a chunk or got from the system. -/
  next : Block
  /-- The calls that gave a size, in order. -/
  given : List Given

namespace Pool

/-- A new block: `id_pool_carve` for a class, `id_pool_large_alloc` above the classes. -/
def carve (p : Pool) (n room : Nat) : Block × Pool :=
  (p.next, { p with
    room := Function.update p.room p.next room
    held := Function.update p.held p.next n
    next := p.next + 1 })

/-- `id_pool_get`. -/
def get (p : Pool) (n : Nat) : Block × Pool :=
  if idPoolMax < n then p.carve n n
  else
    let k := idPoolClass n
    match p.fl k with
    | [] => p.carve n (idPoolClassBytes k)
    | b :: rest => (b, { p with
        held := Function.update p.held b n
        fl := Function.update p.fl k rest })

/-- `id_pool_free`. -/
def free (p : Pool) (b : Block) (n : Nat) : Pool :=
  { p with
    fl := if idPoolMax < n then p.fl
      else Function.update p.fl (idPoolClass n) (b :: p.fl (idPoolClass n))
    given := p.given ++ [⟨n, p.held b⟩] }

@[simp]
theorem free_held (p : Pool) (b : Block) (n : Nat) : (p.free b n).held = p.held := rfl

@[simp]
theorem free_mem (p : Pool) (b : Block) (n : Nat) : (p.free b n).mem = p.mem := rfl

/-- `n` bytes from `src_at` on in one block, copied to `at_` on in another. -/
def copyTo (p : Pool) (dst : Block) (at_ : Nat) (src : Block) (src_at n : Nat) : Pool :=
  { p with mem := Function.update p.mem dst ((p.mem dst).copy at_ (p.mem src) src_at n) }

/-- `id_realloc` of a block. Two large sizes go to the system's `realloc`, which moves the block. -/
def realloc (p : Pool) (b : Block) (old n : Nat) : Block × Pool :=
  let q : Pool := { p with given := p.given ++ [⟨old, p.held b⟩] }
  if idPoolMax < old ∧ idPoolMax < n then
    let (d, q) := q.carve n n
    (d, q.copyTo d 0 b 0 (min old n))
  else if old ≤ idPoolMax ∧ n ≤ idPoolMax ∧ idPoolClass old = idPoolClass n then
    (b, { q with held := Function.update q.held b n })
  else
    let (d, q) := q.get n
    (d, (q.copyTo d 0 b 0 (if old < n then old else n)).free b old)

end Pool

/-! ## Classes -/

theorem and_three (q : Nat) : q &&& 3 = q % 4 := Nat.and_two_pow_sub_one_eq_mod q 2

/-- The quarter of a power of two that a number above 511 falls in. -/
theorem quarter (m : Nat) (h : 512 ≤ m) :
    m < (1 <<< Nat.log2 m) + (((m >>> (Nat.log2 m - 2)) &&& 3) + 1) * (1 <<< (Nat.log2 m - 2)) := by
  have hne : m ≠ 0 := by omega
  have hlow : 2 ^ Nat.log2 m ≤ m := Nat.log2_self_le hne
  have hhigh : m < 2 ^ (Nat.log2 m + 1) := Nat.lt_log2_self
  obtain ⟨e, he⟩ : ∃ e, Nat.log2 m = e + 2 := by
    refine ⟨Nat.log2 m - 2, ?_⟩
    have : 9 ≤ Nat.log2 m := (Nat.le_log2 hne).mpr h
    omega
  rw [he] at hlow hhigh ⊢
  have hpos := Nat.two_pow_pos e
  have hdiv := Nat.div_add_mod m (2 ^ e)
  have hmod := Nat.mod_lt m hpos
  simp only [Nat.add_sub_cancel, Nat.shiftLeft_eq, Nat.one_mul, Nat.shiftRight_eq_div_pow,
    and_three, Nat.pow_succ] at *
  generalize 2 ^ e = u at *
  generalize m / u = q at *
  -- the quotient is one of 4, 5, 6 and 7
  have hq4 : 4 ≤ q := by
    by_contra hlt
    have : u * q ≤ u * 3 := Nat.mul_le_mul_left u (by omega)
    omega
  have hq8 : q < 8 := by
    by_contra hge
    have : u * 8 ≤ u * q := Nat.mul_le_mul_left u (by omega)
    omega
  have hrem : q % 4 = q - 4 := by omega
  rw [hrem, show u * 2 * 2 = 4 * u by omega, ← Nat.add_mul, show 4 + (q - 4 + 1) = q + 1 by omega,
    Nat.add_mul, Nat.mul_comm q u]
  omega

/-- A block of its class has room for a size. -/
theorem le_idPoolClassBytes (n : Nat) : n ≤ idPoolClassBytes (idPoolClass n) := by
  unfold idPoolClass
  split
  · next hsmall =>
    have hclass : (if n = 0 then 1 else (n + 15) >>> 4) ≤ 32 := by
      split
      · decide
      · rw [Nat.shiftRight_eq_div_pow]
        omega
    rw [idPoolClassBytes, if_pos hclass, Nat.shiftLeft_eq]
    split
    · omega
    · rw [Nat.shiftRight_eq_div_pow]
      omega
  · next hbig =>
    have hquarter := quarter (n - 1) (by omega)
    have he : 9 ≤ Nat.log2 (n - 1) := (Nat.le_log2 (by omega)).mpr (by omega)
    have hq : (n - 1) >>> (Nat.log2 (n - 1) - 2) &&& 3 < 4 := Nat.and_lt_two_pow _ (by decide : 3 < 2 ^ 2)
    dsimp only
    generalize (n - 1) >>> (Nat.log2 (n - 1) - 2) &&& 3 = q at *
    generalize Nat.log2 (n - 1) = e at *
    have hlarge : ¬33 + (e - 9) * 4 + q ≤ 32 := by omega
    have hsub : 33 + (e - 9) * 4 + q - 33 = (e - 9) * 4 + q := by omega
    have hdiv : 9 + ((e - 9) * 4 + q) >>> 2 = e := by
      rw [Nat.shiftRight_eq_div_pow]
      omega
    have hand : ((e - 9) * 4 + q) &&& 3 = q := by
      rw [and_three]
      omega
    simp only [idPoolClassBytes, if_neg hlarge, hsub, hdiv, hand]
    omega

/-! ## The pool's invariant -/

/-- What holds of the pool while the blocks in `taken` are out. -/
structure Pool.Sound (p : Pool) (taken : Block → Prop) : Prop where
  /-- A block that is out was made. -/
  taken_lt : ∀ b, taken b → b < p.next
  /-- It has room for its size. -/
  held_le : ∀ b, taken b → p.held b ≤ p.room b
  /-- A small one has the bytes of its class. -/
  small_room : ∀ b, taken b → p.held b ≤ idPoolMax →
    p.room b = idPoolClassBytes (idPoolClass (p.held b))
  /-- A free block was made. -/
  free_lt : ∀ k, ∀ b ∈ p.fl k, b < p.next
  /-- It has the bytes of its list's class. -/
  free_room : ∀ k, ∀ b ∈ p.fl k, p.room b = idPoolClassBytes k
  /-- It is not out. -/
  free_apart : ∀ k, ∀ b ∈ p.fl k, ¬taken b
  /-- It is on its list once. -/
  free_once : ∀ k, (p.fl k).Nodup
  /-- It is on no other list. -/
  free_class : ∀ k j b, b ∈ p.fl k → b ∈ p.fl j → k = j
  /-- Every size given so far was the block's. -/
  given_fits : ∀ c ∈ p.given, c.Fits

namespace Pool

variable {p q : Pool} {taken taken' : Block → Prop} {b d : Block} {n old : Nat}

theorem Sound.congr (hs : p.Sound taken) (h : ∀ b, taken' b ↔ taken b) : p.Sound taken' := by
  have heq : taken' = taken := funext fun b => propext (h b)
  rwa [heq]

theorem Sound.next_not (hs : p.Sound taken) : ¬taken p.next := fun h =>
  Nat.lt_irrefl _ (hs.taken_lt _ h)

/-- A block fresh from a chunk or the system is out and apart from the others. -/
theorem Sound.carve {room : Nat} (hs : p.Sound taken) (hle : n ≤ room)
    (hroom : n ≤ idPoolMax → room = idPoolClassBytes (idPoolClass n)) :
    (p.carve n room).2.Sound fun c => taken c ∨ c = p.next := by
  have hold : ∀ {α : Type} (f : Block → α) (v : α) c, c < p.next →
      Function.update f p.next v c = f c :=
    fun f v c hc => Function.update_of_ne (Nat.ne_of_lt hc) v f
  constructor
  case taken_lt =>
    rintro c (hc | rfl)
    · exact Nat.lt_succ_of_lt (hs.taken_lt c hc)
    · exact Nat.lt_succ_self _
  case held_le =>
    rintro c (hc | rfl)
    · simp only [Pool.carve, hold _ _ c (hs.taken_lt c hc)]
      exact hs.held_le c hc
    · simpa [Pool.carve] using hle
  case small_room =>
    rintro c (hc | rfl)
    · simp only [Pool.carve, hold _ _ c (hs.taken_lt c hc)]
      exact hs.small_room c hc
    · simpa [Pool.carve] using hroom
  case free_lt => exact fun k c hc => Nat.lt_succ_of_lt (hs.free_lt k c hc)
  case free_room =>
    intro k c hc
    simp only [Pool.carve, hold _ _ c (hs.free_lt k c hc)]
    exact hs.free_room k c hc
  case free_apart =>
    rintro k c hc (ht | rfl)
    · exact hs.free_apart k c hc ht
    · exact Nat.lt_irrefl _ (hs.free_lt k _ hc)
  case free_once => exact hs.free_once
  case free_class => exact hs.free_class
  case given_fits => exact hs.given_fits

/-- The first free block of a class taken off its list. -/
theorem Sound.pop {rest : List Block} (hs : p.Sound taken)
    (hfl : p.fl (idPoolClass n) = b :: rest) :
    Pool.Sound { p with
      held := Function.update p.held b n
      fl := Function.update p.fl (idPoolClass n) rest } fun c => taken c ∨ c = b := by
  have hb : b ∈ p.fl (idPoolClass n) := by rw [hfl]; exact List.mem_cons_self
  have hnot := hs.free_apart _ b hb
  have hmem : ∀ k c, c ∈ Function.update p.fl (idPoolClass n) rest k → c ∈ p.fl k ∧ c ≠ b := by
    intro k c hc
    rw [Function.update_apply] at hc
    split at hc
    · next hk =>
      have honce := hs.free_once (idPoolClass n)
      rw [hfl, List.nodup_cons] at honce
      rw [hk, hfl]
      exact ⟨List.mem_cons_of_mem b hc, fun h => honce.1 (h ▸ hc)⟩
    · next hk => exact ⟨hc, fun h => hk (hs.free_class _ _ b (h ▸ hc) hb)⟩
  have hroom := hs.free_room _ b hb
  have hheld : ∀ c, taken c → Function.update p.held b n c = p.held c := fun c hc =>
    Function.update_of_ne (fun h : c = b => hnot (h ▸ hc)) n p.held
  constructor
  case taken_lt =>
    rintro c (hc | rfl)
    · exact hs.taken_lt c hc
    · exact hs.free_lt _ c hb
  case held_le =>
    rintro c (hc | rfl)
    · simpa only [hheld c hc] using hs.held_le c hc
    · simpa only [Function.update_self, hroom] using le_idPoolClassBytes n
  case small_room =>
    rintro c (hc | rfl)
    · simpa only [hheld c hc] using hs.small_room c hc
    · simp [hroom]
  case free_lt => exact fun k c hc => hs.free_lt k c (hmem k c hc).1
  case free_room => exact fun k c hc => hs.free_room k c (hmem k c hc).1
  case free_apart =>
    rintro k c hc (ht | rfl)
    · exact hs.free_apart k c (hmem k c hc).1 ht
    · exact (hmem k c hc).2 rfl
  case free_once =>
    intro k
    show (Function.update p.fl (idPoolClass n) rest k).Nodup
    rw [Function.update_apply]
    split
    · have honce := hs.free_once (idPoolClass n)
      rw [hfl] at honce
      exact honce.of_cons
    · exact hs.free_once k
  case free_class =>
    exact fun k j c hk hj => hs.free_class k j c (hmem k c hk).1 (hmem j c hj).1
  case given_fits => exact hs.given_fits

/-- `id_pool_get` gives a block that was not out. -/
theorem get_spec (hs : p.Sound taken) (h : p.get n = (b, q)) : ¬taken b ∧
    (q.Sound fun c => taken c ∨ c = b) ∧ q.held b = n ∧ (∀ c, taken c → q.held c = p.held c) ∧
    q.mem = p.mem := by
  have hcarve : ∀ room, n ≤ room → (n ≤ idPoolMax → room = idPoolClassBytes (idPoolClass n)) →
      p.carve n room = (b, q) → ¬taken b ∧ (q.Sound fun c => taken c ∨ c = b) ∧ q.held b = n ∧
        (∀ c, taken c → q.held c = p.held c) ∧ q.mem = p.mem := by
    intro room hle hroom heq
    have hsound := hs.carve hle hroom
    rw [heq] at hsound
    obtain ⟨rfl, rfl⟩ := Prod.mk.inj heq
    exact ⟨hs.next_not, hsound, Function.update_self .., fun c hc =>
      Function.update_of_ne (Nat.ne_of_lt (hs.taken_lt c hc)) .., rfl⟩
  unfold Pool.get at h
  split at h
  · next hbig => exact hcarve n (Nat.le_refl _) (fun hle => absurd hbig (Nat.not_lt.mpr hle)) h
  next hsmall =>
  dsimp only at h
  split at h
  · exact hcarve _ (le_idPoolClassBytes n) (fun _ => rfl) h
  · next c rest hfl =>
    obtain ⟨rfl, rfl⟩ := Prod.mk.inj h
    have hc : c ∈ p.fl (idPoolClass n) := by rw [hfl]; exact List.mem_cons_self
    have hnot := hs.free_apart _ c hc
    exact ⟨hnot, hs.pop hfl, Function.update_self .., fun a ha =>
      Function.update_of_ne (fun heq : a = c => hnot (heq ▸ ha)) .., rfl⟩

/-- A block given back with its size is on the free list of its class. -/
theorem free_sound (hs : p.Sound taken) (hb : taken b) (hfit : Given.Fits ⟨n, p.held b⟩) :
    (p.free b n).Sound fun c => taken c ∧ c ≠ b := by
  have hroom : n ≤ idPoolMax → p.room b = idPoolClassBytes (idPoolClass n) := by
    intro hn
    have hheld : p.held b ≤ idPoolMax := Nat.not_lt.mp (mt hfit.1.mpr (Nat.not_lt.mpr hn))
    rw [hs.small_room b hb hheld, hfit.2 hn]
  have hmem : ∀ k c, c ∈ (p.free b n).fl k →
      c ∈ p.fl k ∨ (c = b ∧ k = idPoolClass n ∧ n ≤ idPoolMax) := by
    intro k c hc
    simp only [Pool.free] at hc
    split at hc
    · exact .inl hc
    next hn =>
    rw [Function.update_apply] at hc
    split at hc
    · next hk =>
      rcases List.mem_cons.mp hc with rfl | hc
      · exact .inr ⟨rfl, hk, Nat.not_lt.mp hn⟩
      · exact .inl (hk ▸ hc)
    · exact .inl hc
  have hout : ∀ k, b ∉ p.fl k := fun k hk => hs.free_apart k b hk hb
  constructor
  case taken_lt => exact fun c hc => hs.taken_lt c hc.1
  case held_le => exact fun c hc => hs.held_le c hc.1
  case small_room => exact fun c hc => hs.small_room c hc.1
  case free_lt =>
    intro k c hc
    rcases hmem k c hc with hc | ⟨rfl, -, -⟩
    · exact hs.free_lt k c hc
    · exact hs.taken_lt c hb
  case free_room =>
    intro k c hc
    rcases hmem k c hc with hc | ⟨rfl, rfl, hn⟩
    · exact hs.free_room k c hc
    · exact hroom hn
  case free_apart =>
    rintro k c hc ⟨ht, hne⟩
    rcases hmem k c hc with hc | ⟨rfl, -, -⟩
    · exact hs.free_apart k c hc ht
    · exact hne rfl
  case free_once =>
    intro k
    simp only [Pool.free]
    split
    · exact hs.free_once k
    rw [Function.update_apply]
    split
    · exact List.nodup_cons.mpr ⟨hout _, hs.free_once _⟩
    · exact hs.free_once k
  case free_class =>
    intro k j c hk hj
    rcases hmem k c hk with hk | ⟨rfl, rfl, -⟩ <;> rcases hmem j c hj with hj | ⟨hc, rfl, -⟩
    · exact hs.free_class k j c hk hj
    · exact absurd (hc ▸ hk) (hout k)
    · exact absurd hj (hout j)
    · rfl
  case given_fits =>
    intro c hc
    rcases List.mem_append.mp hc with hc | hc
    · exact hs.given_fits c hc
    · rw [List.mem_singleton.mp hc]
      exact hfit

/-- The copy changes the bytes of its target only. -/
theorem copyTo_mem {src : Block} {i j : Nat} (hne : b ≠ d) :
    (p.copyTo d i src j n).mem b = p.mem b :=
  Function.update_of_ne hne ..

theorem Sound.copyTo {src : Block} {i j : Nat} (hs : p.Sound taken) :
    (p.copyTo d i src j n).Sound taken :=
  ⟨hs.taken_lt, hs.held_le, hs.small_room, hs.free_lt, hs.free_room, hs.free_apart, hs.free_once,
    hs.free_class, hs.given_fits⟩

theorem Sound.note {c : Given} (hs : p.Sound taken) (hc : c.Fits) :
    Pool.Sound { p with given := p.given ++ [c] } taken :=
  ⟨hs.taken_lt, hs.held_le, hs.small_room, hs.free_lt, hs.free_room, hs.free_apart, hs.free_once,
    hs.free_class, fun a ha => by
      rcases List.mem_append.mp ha with ha | ha
      · exact hs.given_fits a ha
      · rw [List.mem_singleton.mp ha]
        exact hc⟩

/-- A size of the same class in place of the old one. -/
theorem Sound.resize (hs : p.Sound taken) (hb : taken b)
    (hsmall : p.held b ≤ idPoolMax) (hclass : idPoolClass (p.held b) = idPoolClass n) :
    Pool.Sound { p with held := Function.update p.held b n } taken := by
  have hroom := hs.small_room b hb hsmall
  rw [hclass] at hroom
  refine ⟨hs.taken_lt, ?_, ?_, hs.free_lt, hs.free_room, hs.free_apart, hs.free_once,
    hs.free_class, hs.given_fits⟩
  · intro c hc
    simp only [Function.update_apply]
    split
    · next heq =>
      rw [heq, hroom]
      exact le_idPoolClassBytes n
    · exact hs.held_le c hc
  · intro c hc
    simp only [Function.update_apply]
    split
    · next heq =>
      intro _
      rw [heq, hroom]
    · exact hs.small_room c hc

/-- A block that is out and given back stops being so, whatever else is out. -/
theorem Sound.shrink {taken' : Block → Prop} (hs : p.Sound taken) (h : ∀ b, taken' b → taken b) :
    p.Sound taken' :=
  ⟨fun b hb => hs.taken_lt b (h b hb), fun b hb => hs.held_le b (h b hb),
    fun b hb => hs.small_room b (h b hb), hs.free_lt, hs.free_room,
    fun k b hk hb => hs.free_apart k b hk (h b hb), hs.free_once, hs.free_class, hs.given_fits⟩

/-- `id_realloc` takes the old block in exchange for one of the new size. -/
theorem realloc_spec (hs : p.Sound taken) (hb : taken b) (hfit : Given.Fits ⟨old, p.held b⟩)
    (h : p.realloc b old n = (d, q)) : (d = b ∨ ¬taken d) ∧
    (q.Sound fun c => (taken c ∧ c ≠ b) ∨ c = d) ∧ q.held d = n ∧
    (∀ c, taken c → c ≠ b → q.held c = p.held c) ∧ (∀ c, c ≠ d → q.mem c = p.mem c) := by
  have hnote := hs.note hfit
  unfold Pool.realloc at h
  dsimp only at h
  split at h
  · next hlarge =>
    -- the system's `realloc`: another block, the old one is gone
    obtain ⟨rfl, rfl⟩ := Prod.mk.inj h
    have hnext := hs.next_not
    have hcarve := hnote.carve (Nat.le_refl n) fun hle => absurd hlarge.2 (Nat.not_lt.mpr hle)
    refine ⟨.inr hnext, (hcarve.copyTo).shrink ?_, Function.update_self .., ?_, ?_⟩
    · rintro c (hc | hc)
      · exact .inl hc.1
      · exact .inr hc
    · intro c hc _
      exact Function.update_of_ne (fun heq : c = p.next => hnext (heq ▸ hc)) ..
    · intro c hc
      exact copyTo_mem hc
  split at h
  · next hsame =>
    obtain ⟨rfl, rfl⟩ := Prod.mk.inj h
    have hheld : p.held b ≤ idPoolMax := Nat.not_lt.mp (mt hfit.1.mpr (Nat.not_lt.mpr hsame.1))
    have hclass : idPoolClass (p.held b) = idPoolClass n := by
      rw [← hsame.2.2]
      exact (hfit.2 hsame.1).symm
    refine ⟨.inl rfl, (hnote.resize hb hheld hclass).congr fun c => ?_,
      Function.update_self .., fun c _ hne => Function.update_of_ne hne .., fun _ _ => rfl⟩
    constructor
    · rintro (hc | rfl)
      · exact hc.1
      · exact hb
    · intro hc
      by_cases hcb : c = b
      · exact .inr hcb
      · exact .inl ⟨hc, hcb⟩
  · next hmoved =>
    obtain ⟨rfl, rfl⟩ := Prod.mk.inj h
    obtain ⟨hnot, hsound, hheld, hkeep, hmem⟩ := get_spec hnote (Prod.mk.eta (p := Pool.get _ n)).symm
    have hne : b ≠ (Pool.get { p with given := p.given ++ [⟨old, p.held b⟩] } n).1 :=
      fun heq => hnot (heq ▸ hb)
    refine ⟨.inr hnot, ?_, hheld, fun c hc _ => hkeep c hc, fun c hc => ?_⟩
    · have hsize := hkeep b hb
      refine (free_sound hsound.copyTo (.inl hb) (n := old) ?_).congr fun c => ?_
      · show Given.Fits ⟨old, (Pool.get _ n).2.held b⟩
        rw [hsize]
        exact hfit
      · constructor
        · rintro (hc | rfl)
          · exact ⟨.inl hc.1, hc.2⟩
          · exact ⟨.inr rfl, hne.symm⟩
        · rintro ⟨hc | hc, hcb⟩
          · exact .inl ⟨hc, hcb⟩
          · exact .inr hc
    · show (Pool.copyTo _ _ _ b _ _).mem c = p.mem c
      rw [copyTo_mem hc, hmem]

end Pool

end IdCompiler.Hosted

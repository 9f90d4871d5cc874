import IdCompiler.Core.Words
import Mathlib.Data.Nat.Basic

/-!
# Numbers in bytes

Numbers of a fixed number of bytes in a memory of bytes, the lowest byte first:
what a load gives after a store to the same place, to a place apart, and after a
copy. Nothing here names a program.
-/

namespace IdCompiler.Core

/-- A memory: one byte at each address. -/
abbrev Bytes := Nat → BitVec 8

namespace Bytes

/-- The number in the `n` bytes from `a` on. -/
def load (m : Bytes) (a : Nat) : Nat → Nat
  | 0 => 0
  | n + 1 => (m a).toNat + 256 * load m (a + 1) n

/-- The `n` bytes from `a` on now hold the low bytes of `v`. -/
def store (m : Bytes) (a n v : Nat) : Bytes := fun i =>
  if a ≤ i ∧ i < a + n then BitVec.ofNat 8 (v / 256 ^ (i - a)) else m i

/-- `n` bytes from `src` on in one memory, copied to `dst` in another. -/
def copy (m : Bytes) (dst : Nat) (from_ : Bytes) (src n : Nat) : Bytes := fun i =>
  if dst ≤ i ∧ i < dst + n then from_ (src + (i - dst)) else m i

variable {m m' : Bytes} {a b n k v i : Nat}

theorem load_lt : load m a n < 256 ^ n := by
  induction n generalizing a with
  | zero => simp [load]
  | succ n ih =>
    have hlow := (m a).isLt
    have hrest := ih (a := a + 1)
    rw [load, Nat.pow_succ]
    omega

/-- A load depends on its bytes only. -/
theorem load_congr (h : ∀ i, a ≤ i → i < a + n → m i = m' i) : load m a n = load m' a n := by
  induction n generalizing a with
  | zero => rfl
  | succ n ih =>
    rw [load, load, h a (Nat.le_refl _) (by omega),
      ih fun i hge hlt => h i (by omega) (by omega)]

theorem store_of_lt (h : i < a) : store m a n v i = m i :=
  if_neg fun hin => by omega

theorem store_of_ge (h : a + n ≤ i) : store m a n v i = m i :=
  if_neg fun hin => by omega

theorem copy_apart {f : Bytes} {src : Nat} (h : i < a ∨ a + n ≤ i) : copy m a f src n i = m i :=
  if_neg fun hin => by omega

/-- The number stored comes back, cut to its bytes. -/
theorem load_store : load (store m a n v) a n = v % 256 ^ n := by
  induction n generalizing a v with
  | zero => simp [load, Nat.mod_one]
  | succ n ih =>
    have hrest : load (store m a (n + 1) v) (a + 1) n = load (store m (a + 1) n (v / 256)) (a + 1) n := by
      apply load_congr
      intro i hge hlt
      have hpow : v / 256 ^ (i - a) = v / 256 / 256 ^ (i - (a + 1)) := by
        rw [Nat.div_div_eq_div_mul, ← Nat.pow_succ']
        congr 2
        omega
      rw [store, store, if_pos ⟨by omega, by omega⟩, if_pos ⟨hge, hlt⟩, hpow]
    have hlow : (store m a (n + 1) v a).toNat = v % 256 := by
      rw [store, if_pos ⟨Nat.le_refl _, by omega⟩, Nat.sub_self, Nat.pow_zero, Nat.div_one,
        BitVec.toNat_ofNat]
    rw [load, hrest, ih, hlow, Nat.pow_succ', Nat.mod_mul]

/-- A store apart from a load does not change it. -/
theorem load_store_apart (h : b + k ≤ a ∨ a + n ≤ b) : load (store m a n v) b k = load m b k := by
  apply load_congr
  intro i hge hlt
  rcases h with h | h
  · exact store_of_lt (by omega)
  · exact store_of_ge (by omega)

/-- A copy apart from a load does not change it. -/
theorem load_copy_apart {f : Bytes} {src : Nat} (h : b + k ≤ a ∨ a + n ≤ b) :
    load (copy m a f src n) b k = load m b k := by
  apply load_congr
  intro i hge hlt
  exact copy_apart (by omega)

end Bytes

end IdCompiler.Core

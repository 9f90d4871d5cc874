import IdCompiler.Fast.Syntax

/-!
# Values and the heap

What a name of a loop may hold, the arithmetic of ints and words, and the
headers of lists and bytes buffers, which are all that a loop's guard reads.
-/

namespace IdCompiler.Fast

/-- The header of a list or a bytes buffer. -/
structure Header where
  /-- Where its cells are. -/
  data : Nat
  len : Nat
  /-- Negative for a constant. -/
  cap : BitVec 32
  len_lt : len < 2 ^ 31

/-- A string as it lies in memory: its bytes, and what follows the terminator. -/
structure Text where
  chars : List (BitVec 8)
  beyond : Nat → BitVec 8
  /-- The count in front of the bytes is a `size_t` of memory that is there. -/
  len_lt : chars.length < 2 ^ 63

/-- The value of a name. -/
inductive Val
  | int (v : BitVec 32)
  | word (v : BitVec 64)
  /-- A list, by the place of its header; none when it is absent. -/
  | list (r : Option Nat)
  | bytes (r : Option Nat)
  | str (s : Text)
  | other

/-- The headers in memory. -/
abbrev Heap := Nat → Option Header

/-- Every header there was is there, unchanged. -/
def Heap.Ext (h h' : Heap) : Prop := ∀ r hd, h r = some hd → h' r = some hd

theorem Heap.Ext.refl (h : Heap) : h.Ext h := fun _ _ => id

theorem Heap.Ext.trans {h h' h'' : Heap} (a : h.Ext h') (b : h'.Ext h'') : h.Ext h'' :=
  fun r hd hr => b r hd (a r hd hr)

/-- The names' values and the headers. -/
structure State where
  vals : String → Val
  heap : Heap

/-- A number as an integer. -/
def Val.num : Val → Option Int
  | .int v => some v.toInt
  | .word v => some v.toInt
  | _ => none

/-- The header a list or a bytes buffer has. -/
def Val.header (h : Heap) : Val → Option Header
  | .list (some r) => h r
  | .bytes (some r) => h r
  | _ => none

/-- The length of a sequence that is there. -/
def Val.seqLen (h : Heap) : Val → Option Nat
  | .str s => some s.chars.length
  | v => (v.header h).map Header.len

/-- A sum or a product: in 32 bits when both are ints, else in 64. -/
def Val.arith (f : Int → Int → Int) : Val → Val → Val
  | .int a, .int b => .int (BitVec.ofInt 32 (f a.toInt b.toInt))
  | a, b =>
    match a.num, b.num with
    | some m, some n => .word (BitVec.ofInt 64 (f m n))
    | _, _ => .other

/-- A value put in a variable of a type. -/
def Val.coerceTo (t : Ty) (v : Val) : Val :=
  match t, v.num with
  | .int, some n => .int (BitVec.ofInt 32 n)
  | .word, some n => .word (BitVec.ofInt 64 n)
  | _, _ => v

/-- The type a variable has by what it holds. -/
def Val.ty : Val → Ty
  | .int _ => .int
  | .word _ => .word
  | .list _ => .list
  | .bytes _ => .bytes
  | .str _ => .string
  | .other => .other

/-- Whether a condition holds. -/
def Val.truth (v : Val) : Option Bool := v.num.map fun n => n ≠ 0

/-- A truth value as an int. -/
def Val.ofBool (b : Bool) : Val := .int (if b then 1 else 0)

theorem Val.truth_ofBool (b : Bool) : (Val.ofBool b).truth = some b := by
  cases b <;> decide

theorem Val.seqLen_ext {h h' : Heap} (hext : h.Ext h') {v : Val} {n : Nat}
    (hv : v.seqLen h = some n) : v.seqLen h' = some n := by
  cases v with
  | str s => exact hv
  | list r | bytes r =>
    cases r with
    | none => simp [Val.seqLen, Val.header] at hv
    | some r =>
      simp only [Val.seqLen, Val.header, Option.map_eq_some_iff] at hv ⊢
      obtain ⟨hd, hr, hlen⟩ := hv
      exact ⟨hd, hext r hd hr, hlen⟩
  | int v | word v | other => simp [Val.seqLen, Val.header] at hv

theorem Val.header_ext {h h' : Heap} (hext : h.Ext h') {v : Val} {hd : Header}
    (hv : v.header h = some hd) : v.header h' = some hd := by
  cases v with
  | list r | bytes r =>
    cases r with
    | none => simp [Val.header] at hv
    | some r => exact hext r hd hv
  | int v | word v | str s | other => simp [Val.header] at hv

/-- An integer a 32-bit int holds is what it reads back. -/
theorem toInt_ofInt32 {n : Int} (h : -2 ^ 31 ≤ n) (h' : n < 2 ^ 31) :
    (BitVec.ofInt 32 n).toInt = n := by
  rw [BitVec.toInt_ofInt]
  exact Int.bmod_eq_of_le (by omega) (by omega)

/-- An integer a 64-bit word holds is what it reads back. -/
theorem toInt_ofInt64 {n : Int} (h : -2 ^ 63 ≤ n) (h' : n < 2 ^ 63) :
    (BitVec.ofInt 64 n).toInt = n := by
  rw [BitVec.toInt_ofInt]
  exact Int.bmod_eq_of_le (by omega) (by omega)

/-- Arithmetic that leaves neither range is exact. -/
theorem Val.num_arith (f : Int → Int → Int) {a b : Val} {m n : Int} (ha : a.num = some m)
    (hb : b.num = some n) (h0 : 0 ≤ f m n) (h31 : f m n < 2 ^ 31) :
    (Val.arith f a b).num = some (f m n) := by
  have h64 : (BitVec.ofInt 64 (f m n)).toInt = f m n := toInt_ofInt64 (by omega) (by omega)
  have h32 : (BitVec.ofInt 32 (f m n)).toInt = f m n := toInt_ofInt32 (by omega) h31
  cases a <;> cases b <;> simp_all [Val.arith, Val.num]

/-- An int variable holds a number that fits one. -/
theorem Val.num_coerceTo_int {v : Val} {n : Int} (hv : v.num = some n) (h0 : 0 ≤ n)
    (h31 : n < 2 ^ 31) : (v.coerceTo .int).num = some n := by
  have h32 : (BitVec.ofInt 32 n).toInt = n := toInt_ofInt32 (by omega) h31
  unfold Val.coerceTo
  rw [hv]
  simp only [Val.num, h32]

end IdCompiler.Fast

import IdCompiler.Core.Dominance
import IdCompiler.Ir.Edits
import Mathlib.Data.List.Lattice
import Mathlib.Data.List.Nodup
import Mathlib.Data.List.Pairwise

/-!
# Where a value may be used

A value is computed before an instruction if on every path to it the value's own
instruction is passed, in a block that dominates or earlier in the same one.
What is put in the place of a value that is computed so far is itself computed
there, and is not computed anew while the value is not.
-/

namespace IdCompiler.Ir

open IdCompiler.Core

variable {ir ir' : Rows} {next : Nat → Nat → Prop} {root : Nat} {f a b c d k n x : Nat} {v w : Int}
  {l rest : List Nat}

/-- The edges between the blocks of a function. -/
def Goes (ir : Rows) (f p q : Nat) : Prop := p ∈ ir.fnblk f ∧ q ∈ targets ir p

/-- A value's instruction stands in a block. -/
def Home (ir : Rows) (f : Nat) (w : Int) (a : Nat) : Prop :=
  a ∈ ir.fnblk f ∧ ∃ x ∈ ir.binsn a, w = (x : Nat)

/-- Where in the block. -/
def place (ir : Rows) (a : Nat) (w : Int) : Nat := (ir.binsn a).idxOf w.toNat

/-- A value is computed before the `k`th instruction of a block, or stands in no block. -/
def Before (ir : Rows) (f : Nat) (next : Nat → Nat → Prop) (root b k : Nat) (w : Int) : Prop :=
  ∀ a, Home ir f w a → a = b ∧ place ir b w < k ∨ a ≠ b ∧ Dom next root a b

/-- A value is computed when a block is left. -/
def AtEnd (ir : Rows) (f : Nat) (next : Nat → Nat → Prop) (root b : Nat) (w : Int) : Prop :=
  ∀ a, Home ir f w a → Dom next root a b

/-- Only where the instructions stand matters. -/
theorem before_congr (hfnblk : ir'.fnblk = ir.fnblk) (hbinsn : ir'.binsn = ir.binsn) :
    Before ir' f next root = Before ir f next root := by
  unfold Before Home place
  rw [hfnblk, hbinsn]

theorem atEnd_congr (hfnblk : ir'.fnblk = ir.fnblk) (hbinsn : ir'.binsn = ir.binsn) :
    AtEnd ir' f next root = AtEnd ir f next root := by
  unfold AtEnd Home
  rw [hfnblk, hbinsn]

theorem place_congr (hbinsn : ir'.binsn = ir.binsn) : place ir' = place ir := by
  unfold place
  rw [hbinsn]

/-! ## Homes and places -/

theorem Home.mem_insns (h : Home ir f (x : Nat) a) : x ∈ insns ir f := by
  obtain ⟨ha, y, hy, heq⟩ := h
  rw [Int.natCast_inj.mp heq]
  exact Ir.mem_insns.mpr ⟨a, ha, hy⟩

theorem exists_home (h : x ∈ insns ir f) : ∃ a, Home ir f (x : Nat) a := by
  obtain ⟨a, ha, hx⟩ := mem_insns.mp h
  exact ⟨a, ha, x, hx, rfl⟩

/-- The first place of what stands once in a list, and what stands before it. -/
theorem idxOf_split {L : List Nat} (hn : L.Nodup) (hL : L = l ++ x :: rest) :
    L.idxOf x = l.length ∧ ∀ y ∈ L, L.idxOf y < l.length ↔ y ∈ l := by
  rw [hL] at hn ⊢
  have hnot : x ∉ l := fun hin => (List.nodup_append.mp hn).2.2 x hin x List.mem_cons_self rfl
  refine ⟨?_, fun y _ => ⟨fun hlt => ?_, fun hin => ?_⟩⟩
  · rw [List.idxOf_append_of_notMem hnot, List.idxOf_cons_self, Nat.add_zero]
  · by_contra hout
    rw [List.idxOf_append_of_notMem hout] at hlt
    omega
  · rw [List.idxOf_append_of_mem hin]
    exact List.idxOf_lt_length_of_mem hin

/-- An instruction stands in one block. -/
theorem Home.unique (hn : (insns ir f).Nodup) (h : Home ir f w a) (h' : Home ir f w b) : a = b := by
  obtain ⟨ha, x, hx, rfl⟩ := h
  obtain ⟨hb, y, hy, heq⟩ := h'
  obtain rfl := Int.natCast_inj.mp heq
  by_contra hne
  have hsymm : Std.Symm (Function.onFun List.Disjoint ir.binsn) := ⟨fun _ _ h => List.Disjoint.symm h⟩
  exact (List.nodup_flatMap.mp hn).2.forall ha hb hne hx hy

theorem nodup_binsn (hn : (insns ir f).Nodup) (hb : b ∈ ir.fnblk f) : (ir.binsn b).Nodup :=
  (List.nodup_flatMap.mp hn).1 b hb

/-- The place of an instruction is how many stand before it. -/
theorem place_eq (hn : (insns ir f).Nodup) (hb : b ∈ ir.fnblk f) (hx : ir.binsn b = l ++ x :: rest) :
    place ir b (x : Nat) = l.length := by
  rw [place, Int.toNat_natCast]
  exact (idxOf_split (nodup_binsn hn hb) hx).1

theorem place_inj (h : Home ir f w b) (h' : Home ir f v b) (heq : place ir b w = place ir b v) : w = v := by
  obtain ⟨-, x, hx, rfl⟩ := h
  obtain ⟨-, y, hy, rfl⟩ := h'
  rw [place, place, Int.toNat_natCast, Int.toNat_natCast] at heq
  rw [(List.idxOf_inj hx).mp heq]

/-! ## Before and after -/

theorem Before.mono (h : Before ir f next root b k w) (hk : k ≤ n) : Before ir f next root b n w :=
  fun a ha => (h a ha).imp_left fun h => ⟨h.1, Nat.lt_of_lt_of_le h.2 hk⟩

/-- What is computed before an instruction is not what it computes. -/
theorem Before.ne (h : Before ir f next root b l.length w) (hn : (insns ir f).Nodup) (hb : b ∈ ir.fnblk f)
    (hx : ir.binsn b = l ++ x :: rest) : w ≠ x := by
  rintro rfl
  have hin : x ∈ ir.binsn b := hx ▸ List.mem_append_right l List.mem_cons_self
  have hplace := place_eq hn hb hx
  cases h b ⟨hb, x, hin, rfl⟩ with
  | inl h => omega
  | inr h => exact h.1 rfl

/-- After an instruction what it computes is computed, and what was before. -/
theorem Before.step (h : Before ir f next root b (l.length + 1) w) (hn : (insns ir f).Nodup)
    (hb : b ∈ ir.fnblk f) (hx : ir.binsn b = l ++ x :: rest) : w = x ∨ Before ir f next root b l.length w := by
  by_cases hw : w = x
  · exact .inl hw
  refine .inr fun a ha => (h a ha).imp_left ?_
  rintro ⟨rfl, hlt⟩
  have hin : x ∈ ir.binsn a := hx ▸ List.mem_append_right l List.mem_cons_self
  have hplace := place_eq hn hb hx
  have hne : place ir a w ≠ place ir a (x : Nat) := fun heq => hw (place_inj ha ⟨hb, x, hin, rfl⟩ heq)
  exact ⟨rfl, by omega⟩

theorem Before.atEnd (h : Before ir f next root b k w) : AtEnd ir f next root b w := by
  intro a ha
  rcases h a ha with ⟨rfl, -⟩ | ⟨-, hdom⟩
  · exact Dom.refl
  · exact hdom

/-- What is computed where a block is entered is computed where the block before is left. -/
theorem Before.enter (h : Before ir f next root c 0 w) (hbc : next b c) : AtEnd ir f next root b w := by
  intro a ha
  rcases h a ha with ⟨-, hlt⟩ | ⟨hne, hdom⟩
  · exact absurd hlt (Nat.not_lt_zero _)
  · exact hdom.of_next hbc hne

theorem AtEnd.before (h : AtEnd ir f next root b w) : Before ir f next root b (ir.binsn b).length w := by
  intro a ha
  by_cases hab : a = b
  · subst hab
    obtain ⟨-, x, hx, rfl⟩ := ha
    refine .inl ⟨rfl, ?_⟩
    rw [place, Int.toNat_natCast]
    exact List.idxOf_lt_length_of_mem hx
  · exact .inr ⟨hab, h a ha⟩

/-! ## What takes the place of a value -/

/-- The value `v` is computed before the instruction `d`, wherever a run gets to it. -/
def Origin (ir : Rows) (f : Nat) (next : Nat → Nat → Prop) (root d : Nat) (v : Int) : Prop :=
  ∀ a, Home ir f (d : Nat) a → Reached next root a → Before ir f next root a (place ir a (d : Nat)) v

/-- Where `d` is computed, so is what takes its place. -/
theorem Origin.before (h : Origin ir f next root d v) (hd : d ∈ insns ir f) (hb : Reached next root b)
    (hused : Before ir f next root b k (d : Nat)) : Before ir f next root b k v := by
  intro a' ha'
  obtain ⟨a, ha⟩ := exists_home hd
  rcases hused a ha with ⟨rfl, hlt⟩ | ⟨hne, hdom⟩
  · exact (h a ha hb a' ha').imp_left fun h => ⟨h.1, Nat.lt_trans h.2 hlt⟩
  · have hreached := hdom.reached hb
    rcases h a ha hreached a' ha' with ⟨rfl, -⟩ | ⟨-, hdom'⟩
    · exact .inr ⟨hne, hdom⟩
    · refine .inr ⟨?_, hdom'.trans hdom⟩
      rintro rfl
      exact hne (hdom.antisymm hdom' hb)

theorem Origin.atEnd (h : Origin ir f next root d v) (hd : d ∈ insns ir f) (hb : Reached next root b)
    (hused : AtEnd ir f next root b (d : Nat)) : AtEnd ir f next root b v :=
  (h.before hd hb hused.before).atEnd

/-! ## Values under other names -/

/-- What stands for a value in another run: where `here` says that it is computed, the value of
`τ w` there is the value of `w`, and everywhere if it keeps its name. -/
def Tracks {V : Type*} (τ : Int → Int) (old here : Int → Prop) (env env' : Int → V) : Prop :=
  ∀ w, old w → (τ w = w ∨ here w) → env w = env' (τ w)

/-- Each value that gets another name is an instruction's, before which that other one is computed. -/
def Renames (ir : Rows) (f : Nat) (next : Nat → Nat → Prop) (root : Nat) (τ : Int → Int)
    (old : Int → Prop) : Prop :=
  ∀ w, old w → τ w ≠ w → ∃ d : Nat, w = d ∧ d ∈ insns ir f ∧ Origin ir f next root d (τ w)

section

variable {V : Type*} {τ : Int → Int} {old here : Int → Prop} {env env' : Int → V}

theorem Renames.before (hτ : Renames ir f next root τ old) (hb : Reached next root b) (hw : old w)
    (hused : Before ir f next root b k w) : Before ir f next root b k (τ w) := by
  by_cases hsame : τ w = w
  · rw [hsame]
    exact hused
  · obtain ⟨d, rfl, hd, horigin⟩ := hτ w hw hsame
    exact horigin.before hd hb hused

theorem Renames.atEnd (hτ : Renames ir f next root τ old) (hb : Reached next root b) (hw : old w)
    (hused : AtEnd ir f next root b w) : AtEnd ir f next root b (τ w) :=
  (hτ.before hb hw hused.before).atEnd

variable (hτ : Renames ir f next root τ old) (hn : (insns ir f).Nodup) (hb : b ∈ ir.fnblk f)
  (hr : Reached next root b) (hx : ir.binsn b = l ++ x :: rest)
  (h : Tracks τ old (Before ir f next root b l.length) env env')
include hτ hn hb hr hx h

/-- Before an instruction and after it, for the values of others. -/
theorem Tracks.other (hw : old w) (hne : w ≠ x) (hc : τ w = w ∨ Before ir f next root b (l.length + 1) w) :
    env w = env' (τ w) ∧ τ w ≠ x := by
  have hbefore : τ w = w ∨ Before ir f next root b l.length w :=
    hc.imp_right fun hc => (hc.step hn hb hx).resolve_left hne
  refine ⟨h w hw hbefore, ?_⟩
  rcases hbefore with hsame | hbefore
  · rw [hsame]
    exact hne
  · exact (hτ.before hr hw hbefore).ne hn hb hx

/-- An instruction that both runs do. -/
theorem Tracks.keep (hsame : τ x = x) (z : V) : Tracks τ old (Before ir f next root b (l.length + 1))
    (Function.update env x z) (Function.update env' x z) := by
  intro w hw hc
  by_cases hwx : w = x
  · rw [hwx, hsame, Function.update_self, Function.update_self]
  · obtain ⟨heq, hne⟩ := h.other hτ hn hb hr hx hw hwx hc
    rw [Function.update_of_ne hwx, Function.update_of_ne hne, heq]

/-- An instruction that only the first run does, while the other has its value already. -/
theorem Tracks.drop {z : V} (hz : z = env' (τ x)) :
    Tracks τ old (Before ir f next root b (l.length + 1)) (Function.update env x z) env' := by
  intro w hw hc
  by_cases hwx : w = x
  · rw [hwx, Function.update_self, hz]
  · obtain ⟨heq, -⟩ := h.other hτ hn hb hr hx hw hwx hc
    rw [Function.update_of_ne hwx, heq]

/-- An instruction that computes nothing. -/
theorem Tracks.idle (hsame : τ x = x) : Tracks τ old (Before ir f next root b (l.length + 1)) env env' := by
  intro w hw hc
  by_cases hwx : w = x
  · exact h w hw (.inl (by rw [hwx, hsame]))
  · exact (h.other hτ hn hb hr hx hw hwx hc).1

end

end IdCompiler.Ir

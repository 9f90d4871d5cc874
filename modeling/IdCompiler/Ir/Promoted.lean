import IdCompiler.Ir.Filled
import IdCompiler.Ir.Scoped

/-!
# A function and the one with its slots turned into values

What a slot holds at a place of a block is what the block's last store before it
stored, or what the slot had where the block was entered. A load of a slot is
gone, and what the slot holds there stands for it; what a slot has where a block
is entered is that block's phi.
-/

namespace IdCompiler.Ir

open IdCompiler.Core

variable {P F : Rows} {next : Nat → Nat → Prop} {root : Nat} {f a b c d k n p x : Nat} {v w : Int}
  {l rest : List Nat} {S : List Nat} {τ : Int → Int} {start : Nat → Int → Int} {phs : Nat → List Nat}

/-- A function of the shape the lowering builds: every instruction stands in one place, the first
block has no predecessor, and every block ends in its single terminator. -/
structure Formed (ir : Rows) (f root : Nat) : Prop where
  lowered : Lowered ir f
  first : (ir.fnblk f).head? = some root
  nodup : (insns ir f).Nodup
  entry : ∀ p, ¬Goes ir f p root
  ends : ∀ b ∈ ir.fnblk f, ∃ l t, ir.binsn b = l ++ [t] ∧ (ir.row t).Ends ∧ ∀ x ∈ l, ¬(ir.row x).Ends

/-- One in which a value is computed on every path to the instructions that name it. -/
structure Shaped (ir : Rows) (f root : Nat) : Prop extends Formed ir f root where
  dominated : ∀ b ∈ ir.fnblk f, ∀ x ∈ ir.binsn b, ir.iop x ≠ "nop" → ∀ v ∈ operands ir x,
    ∀ a, Home ir f v a → Dom (Goes ir f) root a b

/-! ## What a slot holds -/

/-- A store to a slot. -/
def Row.StoresSlot (S : List Nat) (r : Row) : Prop := r.op = "store" ∧ r.OnSlot S

instance (S : List Nat) (r : Row) : Decidable (r.StoresSlot S) := inferInstanceAs (Decidable (_ ∧ _))

/-- What the slots hold after one more instruction. -/
def holdStep (P : Rows) (S : List Nat) (τ : Int → Int) (c : Int → Int) (x : Nat) : Int → Int :=
  if (P.row x).StoresSlot S then Function.update c (P.ia x) (τ (P.ib x)) else c

/-- What the slots hold after the instructions `l`. -/
def held (P : Rows) (S : List Nat) (τ : Int → Int) (c : Int → Int) (l : List Nat) : Int → Int :=
  l.foldl (holdStep P S τ) c

theorem held_append {c : Int → Int} : held P S τ c (l ++ [x]) = holdStep P S τ (held P S τ c l) x := by
  rw [held, List.foldl_append]
  rfl

theorem held_store {c : Int → Int} (hx : (P.row x).StoresSlot S) :
    held P S τ c (l ++ [x]) = Function.update (held P S τ c l) (P.ia x) (τ (P.ib x)) := by
  rw [held_append, holdStep, if_pos hx]

theorem held_other {c : Int → Int} (hx : ¬(P.row x).StoresSlot S) :
    held P S τ c (l ++ [x]) = held P S τ c l := by
  rw [held_append, holdStep, if_neg hx]

/-- Only what the stores among them stored matters. -/
theorem held_congr {τ' : Int → Int} {c : Int → Int}
    (h : ∀ x ∈ l, (P.row x).StoresSlot S → τ' (P.ib x) = τ (P.ib x)) : held P S τ' c l = held P S τ c l := by
  induction l using List.reverseRecOn with
  | nil => rfl
  | append_singleton l x ih =>
    have hrest := ih fun y hy => h y (List.mem_append_left _ hy)
    by_cases hx : (P.row x).StoresSlot S
    · rw [held_store hx, held_store hx, hrest, h x (List.mem_append_right l (List.mem_singleton_self x)) hx]
    · rw [held_other hx, held_other hx, hrest]

/-! ## The two functions -/

/-- The function `F` is `P` with its slots `S` turned into values: `τ` says what stands for a
value, `start` what the slots have where a block is entered, and `phs` which phis a block has. -/
structure Promoted (P F : Rows) (f root : Nat) (S : List Nat) (τ : Int → Int) (start : Nat → Int → Int)
    (phs : Nat → List Nat) : Prop where
  fnblk : F.fnblk f = P.fnblk f
  binsn : ∀ b ∈ P.fnblk f, F.binsn b = phs b ++ P.binsn b
  bpred : F.bpred = P.bpred
  nodup : (insns F f).Nodup
  fresh : ∀ b ∈ P.fnblk f, ∀ ph ∈ phs b, P.size ≤ ph
  row : ∀ x ∈ insns P f, ¬(P.row x).OnSlot S → F.row x = (P.row x).rename τ
  gone : ∀ x ∈ insns P f, (P.row x).OnSlot S → F.iop x = "nop"
  moved : ∀ w, τ w ≠ w → ∃ x ∈ insns P f, w = x ∧ P.iop x = "load" ∧ (P.row x).OnSlot S
  loaded : ∀ b ∈ P.fnblk f, ∀ l x rest, P.binsn b = l ++ x :: rest → P.iop x = "load" →
    (P.row x).OnSlot S → τ x = held P S τ (start b) l (P.ia x)
  phi : ∀ b ∈ P.fnblk f, ∀ ph ∈ phs b, F.iop ph = "phi" ∧ F.ia ph = -1 ∧ F.ib ph = -1 ∧
    F.iblk ph = P.bpred b ∧ ∃ s ∈ S.map Int.ofNat, start b s = (ph : Nat) ∧
      F.ilist ph = (P.bpred b).map fun p => held P S τ (start p) (P.binsn p) s
  full : ∀ b ∈ P.fnblk f, b ≠ root → ∀ s ∈ S.map Int.ofNat, ∃ ph ∈ phs b, start b s = (ph : Nat)
  apart : ∀ b ∈ P.fnblk f, b ≠ root → ∀ s ∈ S.map Int.ofNat, ∀ s' ∈ S.map Int.ofNat,
    start b s = start b s' → s = s'
  bare : phs root = []
  undef : ∀ s ∈ S.map Int.ofNat, ∀ a, ¬Home F f (start root s) a

/-! ## Operands -/

/-- An operand of an instruction, if it is a value: an id in use, which stands before the
instruction if it stands in the function at all. -/
def Earlier (P : Rows) (f x : Nat) (v : Int) : Prop :=
  v = -1 ∨ ∃ r : Nat, v = r ∧ r < P.size ∧ (r ∈ insns P f → (insns P f).idxOf r < (insns P f).idxOf x)

/-- A block in the list of all instructions. -/
theorem insns_split (hb : b ∈ P.fnblk f) (hx : P.binsn b = l ++ x :: rest) :
    ∃ pre post, insns P f = (pre ++ l) ++ x :: (rest ++ post) := by
  obtain ⟨bs, bs', hbs⟩ := List.append_of_mem hb
  refine ⟨bs.flatMap P.binsn, bs'.flatMap P.binsn, ?_⟩
  rw [insns, hbs, List.flatMap_append, List.flatMap_cons, hx]
  simp only [List.append_assoc, List.cons_append]

theorem Earlier.lt (h : Earlier P f x v) : v < P.size ∨ v = -1 := by
  rcases h with hnone | ⟨r, rfl, hlt, -⟩
  · exact .inr hnone
  · exact .inl (Int.ofNat_lt.mpr hlt)

section

variable (hs : Shaped P f root)
include hs

theorem Shaped.earlier (hb : b ∈ P.fnblk f) (hx : x ∈ P.binsn b) (hlive : P.iop x ≠ "nop") :
    (∀ v ∈ P.ib x :: P.ilist x, Earlier P f x v) ∧
      (Earlier P f x (P.ia x) ∨ (P.row x).OnSlot (m2rCollect P f)) := by
  obtain ⟨l, rest, hsplit⟩ := List.append_of_mem hx
  obtain ⟨pre, post, hall⟩ := insns_split hb hsplit
  obtain ⟨hplace, hbefore⟩ := idxOf_split hs.nodup hall
  have hdefined : ∀ {v}, Defined P (x :: (rest ++ post)) v → Earlier P f x v := by
    rintro v ⟨r, rfl, hlt, -, hnot⟩
    refine .inr ⟨r, rfl, hlt, fun hin => ?_⟩
    rw [hplace, hbefore r hin]
    rw [hall] at hin
    exact (List.mem_append.mp hin).resolve_right hnot
  obtain ⟨hvalues, haddr⟩ := hs.lowered.named x (rest ++ post) ⟨pre ++ l, hall.symm⟩ hlive
  refine ⟨fun v hv => (hvalues v hv).elim .inl hdefined, ?_⟩
  rcases haddr with hnone | hdef | ⟨hacc, s, hs, hias, -⟩
  · exact .inl (.inl hnone)
  · exact .inl (hdefined hdef)
  · refine .inr ⟨hacc, ?_⟩
    show P.ia x ∈ _
    rw [hias]
    exact List.mem_map_of_mem hs

end

/-! ## Where values are computed -/

section

variable (hs : Shaped P f root) (hp : Promoted P F f root S τ start phs)
include hs hp

omit hs in
theorem Promoted.split (hb : b ∈ P.fnblk f) (hx : P.binsn b = l ++ rest) :
    F.binsn b = (phs b ++ l) ++ rest := by
  rw [hp.binsn b hb, hx, List.append_assoc]

omit hs in
theorem Promoted.sub (hx : x ∈ insns P f) : x ∈ insns F f := by
  obtain ⟨b, hb, hin⟩ := mem_insns.mp hx
  refine mem_insns.mpr ⟨b, hp.fnblk.symm ▸ hb, ?_⟩
  rw [hp.binsn b hb]
  exact List.mem_append_right _ hin

omit hs in
/-- A value from before the pass stands where it stood. -/
theorem Promoted.home (hv : v < P.size) (h : Home F f v a) : Home P f v a := by
  obtain ⟨ha, x, hx, rfl⟩ := h
  rw [hp.fnblk] at ha
  rw [hp.binsn a ha] at hx
  cases List.mem_append.mp hx with
  | inl hphi =>
    have hle := hp.fresh a ha x hphi
    omega
  | inr hx => exact ⟨ha, x, hx, rfl⟩

/-- An operand is computed before the instruction that names it. -/
theorem Promoted.before (hb : b ∈ P.fnblk f) (hx : P.binsn b = l ++ x :: rest) (hlive : P.iop x ≠ "nop")
    (hmem : v ∈ operands P x) (hv : Earlier P f x v) :
    Before F f (Goes P f) root b (phs b ++ l).length v ∧ v < P.size := by
  have hin : x ∈ P.binsn b := hx ▸ List.mem_append_right l List.mem_cons_self
  rcases hv with rfl | ⟨r, rfl, hlt, hrank⟩
  · refine ⟨fun a ha => ?_, by omega⟩
    obtain ⟨-, y, -, heq⟩ := ha
    omega
  refine ⟨fun a ha => ?_, Int.ofNat_lt.mpr hlt⟩
  have hhome := hp.home (Int.ofNat_lt.mpr hlt) ha
  have hdom := hs.dominated b hb x hin hlive _ hmem a hhome
  by_cases hab : a = b
  · subst hab
    obtain ⟨pre, post, hall⟩ := insns_split hb hx
    obtain ⟨hplace, hbefore⟩ := idxOf_split hs.nodup hall
    have hr := hhome.mem_insns
    have hless := hrank hr
    rw [hplace, hbefore r hr] at hless
    refine .inl ⟨rfl, ?_⟩
    obtain ⟨-, y, hy, heq⟩ := hhome
    obtain rfl := Int.natCast_inj.mp heq
    have hl : r ∈ l := by
      rw [hx] at hy
      refine (List.mem_append.mp hy).resolve_right fun hlater => ?_
      have hnodup := hs.nodup
      rw [hall] at hnodup
      have hlater' : r ∈ x :: (rest ++ post) := by
        rw [← List.cons_append]
        exact List.mem_append_left post hlater
      exact (List.nodup_append.mp hnodup).2.2 r hless r hlater' rfl
    rw [place, Int.toNat_natCast, hp.split hb hx, List.idxOf_append_of_mem (List.mem_append_right _ hl)]
    exact List.idxOf_lt_length_of_mem (List.mem_append_right _ hl)
  · exact .inr ⟨hab, hdom⟩

omit hs in
/-- What a slot holds is computed, if what the stores before stored is. -/
theorem Promoted.held_before (hb : b ∈ P.fnblk f) (hl : P.binsn b = l ++ rest)
    (hstored : ∀ l' x, l' ++ [x] <+: l → (P.row x).StoresSlot S →
      Before F f (Goes P f) root b (phs b ++ l').length (τ (P.ib x)))
    (hv : v ∈ S.map Int.ofNat) :
    Before F f (Goes P f) root b (phs b ++ l).length (held P S τ (start b) l v) := by
  induction l using List.reverseRecOn generalizing rest with
  | nil =>
    show Before F f (Goes P f) root b (phs b ++ []).length (start b v)
    intro a ha
    by_cases hroot : b = root
    · rw [hroot] at ha
      exact absurd ha (hp.undef v hv a)
    · obtain ⟨ph, hph, heq⟩ := hp.full b hb hroot v hv
      have hfnblk : b ∈ F.fnblk f := hp.fnblk.symm ▸ hb
      have hmem : ph ∈ F.binsn b := by
        rw [hp.binsn b hb]
        exact List.mem_append_left _ hph
      rw [heq] at ha ⊢
      obtain rfl := ha.unique hp.nodup ⟨hfnblk, ph, hmem, rfl⟩
      refine .inl ⟨rfl, ?_⟩
      rw [List.append_nil, place, Int.toNat_natCast, hp.binsn a hb, List.idxOf_append_of_mem hph]
      exact List.idxOf_lt_length_of_mem hph
  | append_singleton l x ih =>
    have hrest : P.binsn b = l ++ x :: rest := by
      rw [hl, List.append_assoc, List.singleton_append]
    have hbefore := ih hrest fun l' y hy => hstored l' y (hy.trans (List.prefix_append l [x]))
    have hle : (phs b ++ l).length ≤ (phs b ++ (l ++ [x])).length := by
      simp only [List.length_append]
      omega
    by_cases hstore : (P.row x).StoresSlot S
    · rw [held_store hstore]
      by_cases hv : v = P.ia x
      · rw [hv, Function.update_self]
        exact (hstored l x (List.prefix_refl _) hstore).mono hle
      · rw [Function.update_of_ne hv]
        exact hbefore.mono hle
    · rw [held_other hstore]
      exact hbefore.mono hle

/-- What a store stores is computed before it, under the name it has after the pass. -/
theorem Promoted.stored_before (hb : b ∈ P.fnblk f) (hreached : Reached (Goes P f) root b)
    (hx : P.binsn b = l ++ x :: rest) (hstore : (P.row x).StoresSlot S)
    (horigin : ∀ d : Nat, d ∈ insns P f → τ d ≠ d → (insns P f).idxOf d < (insns P f).idxOf x →
      Origin F f (Goes P f) root d (τ d)) :
    Before F f (Goes P f) root b (phs b ++ l).length (τ (P.ib x)) := by
  have hin : x ∈ P.binsn b := hx ▸ List.mem_append_right l List.mem_cons_self
  have hop : P.iop x = "store" := hstore.1
  have hlive : P.iop x ≠ "nop" := by
    rw [hop]
    decide
  have hearlier := (hs.earlier hb hin hlive).1 (P.ib x) List.mem_cons_self
  obtain ⟨hbefore, -⟩ := hp.before hs hb hx hlive (List.mem_cons_of_mem _ List.mem_cons_self) hearlier
  by_cases hsame : τ (P.ib x) = P.ib x
  · rw [hsame]
    exact hbefore
  · obtain ⟨d, hd, heq, -⟩ := hp.moved _ hsame
    rw [heq] at hsame hbefore hearlier ⊢
    have hrank : (insns P f).idxOf d < (insns P f).idxOf x := by
      rcases hearlier with hnone | ⟨r, hr, -, hrank⟩
      · omega
      · obtain rfl := Int.natCast_inj.mp hr
        exact hrank hd
    exact (horigin d hd hsame hrank).before (hp.sub hd) hreached hbefore

/-- What stands for a load is computed before the load. -/
theorem Promoted.origin (hd : d ∈ insns P f) (hmoved : τ d ≠ d) : Origin F f (Goes P f) root d (τ d) := by
  induction hn : (insns P f).idxOf d using Nat.strongRecOn generalizing d with
  | ind n ih =>
    obtain ⟨y, -, heq, hop, hslot⟩ := hp.moved d hmoved
    obtain rfl := Int.natCast_inj.mp heq
    intro a ha hreached
    have hhome := hp.home (Int.ofNat_lt.mpr (hs.lowered.size d hd)) ha
    obtain ⟨hblk, y, hy, heq⟩ := hhome
    obtain rfl := Int.natCast_inj.mp heq
    obtain ⟨l, rest, hsplit⟩ := List.append_of_mem hy
    have hplace : place F a (d : Nat) = (phs a ++ l).length := place_eq hp.nodup ha.1 (hp.split hblk hsplit)
    rw [hplace, hp.loaded a hblk l d rest hsplit hop hslot]
    refine hp.held_before hblk hsplit (fun l' x hprefix hstore => ?_) hslot.2
    obtain ⟨t, ht⟩ := hprefix
    have hx : P.binsn a = l' ++ x :: (t ++ d :: rest) := by
      rw [hsplit, ← ht]
      simp only [List.append_assoc, List.cons_append, List.nil_append]
    have hxl : x ∈ l := by
      rw [← ht]
      exact List.mem_append_left t (List.mem_append_right l' (List.mem_singleton_self x))
    refine hp.stored_before hs hblk hreached hx hstore fun d' hd' hmoved' hrank => ?_
    obtain ⟨pre, post, hall⟩ := insns_split hblk hsplit
    obtain ⟨hidx, hbefore⟩ := idxOf_split hs.nodup hall
    have hxin : x ∈ insns P f := by
      rw [hall]
      exact List.mem_append_left _ (List.mem_append_right pre hxl)
    have hless := (hbefore x hxin).mpr (List.mem_append_right pre hxl)
    exact ih _ (by omega) hd' hmoved' rfl

theorem Promoted.renames : Renames F f (Goes P f) root τ fun w => w < P.size := by
  intro w _ hmoved
  obtain ⟨d, hd, rfl, -⟩ := hp.moved w hmoved
  exact ⟨d, rfl, hp.sub hd, hp.origin hs hd hmoved⟩

/-- What a slot holds at a place is computed there. -/
theorem Promoted.held (hb : b ∈ P.fnblk f) (hreached : Reached (Goes P f) root b) (hl : P.binsn b = l ++ rest)
    (hv : v ∈ S.map Int.ofNat) :
    Before F f (Goes P f) root b (phs b ++ l).length (Ir.held P S τ (start b) l v) := by
  refine hp.held_before hb hl (fun l' x hprefix hstore => ?_) hv
  obtain ⟨t, ht⟩ := hprefix
  have hx : P.binsn b = l' ++ x :: (t ++ rest) := by
    rw [hl, ← ht]
    simp only [List.append_assoc, List.cons_append, List.nil_append]
  exact hp.stored_before hs hb hreached hx hstore fun d hd hmoved _ => hp.origin hs hd hmoved

end

end IdCompiler.Ir

import IdCompiler.Fast.Meaning
import IdCompiler.Fast.Progress

/-!
# Reading the guard's clauses back

What the clauses of the guard say of the state they are true in, for either
machine: where the machine came to a number, the number is that of the limit or
the length the tokens were made from.
-/

namespace IdCompiler.Fast

variable {N : Type} {A : Arith N} {p : Prog} {s : State}

/-- A machine that computes as integers do, where nothing leaves the 64-bit range. -/
structure Arith.Lawful (A : Arith N) : Prop where
  cmp : ∀ o a b, InWord a → InWord b → A.cmp o (A.ofInt a) (A.ofInt b) = o.onInt a b
  op : ∀ o a b, InWord a → InWord b → InWord (o.onInt a b) →
    A.op o (A.ofInt a) (A.ofInt b) = some (A.ofInt (o.onInt a b))

theorem wrapping_lawful : wrapping.Lawful where
  cmp o a b ha hb := by
    simp only [wrapping, toInt_ofInt64 ha.1 ha.2, toInt_ofInt64 hb.1 hb.2]
  op o a b ha hb _ := by
    simp only [wrapping, toInt_ofInt64 ha.1 ha.2, toInt_ofInt64 hb.1 hb.2]

theorem exact_lawful : exact.Lawful where
  cmp _ _ _ _ _ := rfl
  op _ _ _ _ _ h := if_pos h

theorem litNum_nonneg {k : Int} (h : 0 ≤ k) (h' : k < 2 ^ 31) : litNum k false = k := by
  simp only [litNum, Bool.false_eq_true, if_false]
  exact toInt_ofInt32 (by omega) h'

theorem litNum_lt (v : Int) : litNum v false < 2 ^ 31 := by
  simp only [litNum, Bool.false_eq_true, if_false]
  exact BitVec.toInt_lt

/-- A name on the stack as a number is its number. -/
theorem pushName_num {v : Val} {y : N} (h : pushName A v = some (.num y)) :
    ∃ n, v.num = some n ∧ y = A.ofInt n ∧ InWord n := by
  cases v with
  | int v =>
    obtain rfl := SVal.num.inj (Option.some.inj h)
    exact ⟨v.toInt, rfl, rfl, inWord_toInt32 v⟩
  | word v =>
    obtain rfl := SVal.num.inj (Option.some.inj h)
    exact ⟨v.toInt, rfl, rfl, inWord_toInt64 v⟩
  | list r | bytes r | str s | other => simp [pushName] at h

theorem run_name {x : String} {ts : List Tok} {st rs : List (SVal N)}
    (h : runToks A s (.name x :: ts) st = some rs) :
    ∃ y, pushName A (s.vals x) = some y ∧ runToks A s ts (y :: st) = some rs := by
  simp only [runToks, stepTok, Option.bind_eq_some_iff, Option.map_eq_some_iff] at h
  obtain ⟨_, ⟨y, hy, rfl⟩, h⟩ := h
  exact ⟨y, hy, h⟩

theorem stepTok_const (k : Int) (st : List (SVal N)) :
    stepTok A s (.const k) st = some (.num (A.ofInt (litNum k false)) :: st) := rfl

theorem stepTok_wide (n : N) (st : List (SVal N)) :
    stepTok A s .wide (.num n :: st) = some (.num n :: st) := rfl

theorem stepTok_nary (o : ArOp) (a b : N) (st : List (SVal N)) :
    stepTok A s (.nary o 2) (.num b :: .num a :: st) =
      (A.op o a b).map fun r => .num r :: st := by
  simp only [stepTok, popNums, joinLeft]
  cases A.op o a b <;> rfl

/-- A comparison that ends a true clause compares two numbers. -/
theorem run_cmp {o : CmpOp} {b : N} {y : SVal N}
    (h : runToks A s [.cmp o] [.num b, y] = some [.truth true]) :
    ∃ a, y = .num a ∧ A.cmp o a b = true := by
  cases y with
  | num a =>
    simp only [runToks, stepTok_cmp, Option.bind_some] at h
    exact ⟨a, rfl, by simpa using h⟩
  | seq v | null | truth t => cases o <;> simp [runToks, stepTok] at h

/-- The length of a sequence, once the machine has come past it. -/
theorem run_lenw {id : Nat} {x : String} {ts : List Tok} {st rs : List (SVal N)}
    (h : runToks A s (lpLenw p (.var id x) ++ ts) st = some rs) :
    ∃ n : Nat, (s.vals x).seqLen s.heap = some n ∧ InWord n ∧
      runToks A s ts (.num (A.ofInt n) :: st) = some rs := by
  simp only [lpLenw, lpLeaf, List.cons_append, List.nil_append] at h
  obtain ⟨y, hy, h⟩ := run_name h
  have hheader : ∀ v, y = .seq v → v = s.vals x := by
    rintro v rfl
    cases hv : s.vals x <;> simp [hv, pushName, Val.num] at hy <;> exact hy.symm
  unfold lpLenop at h
  split at h
  · cases y with
    | seq v =>
      obtain rfl := hheader v rfl
      cases hv : s.vals x with
      | str t =>
        simp only [hv, runToks, stepTok, Option.bind_some] at h
        exact ⟨t.chars.length, rfl, inWord_textLen t, h⟩
      | int v | word v | list v | bytes v | other => simp [hv, runToks, stepTok] at h
    | num n | null | truth b => simp [runToks, stepTok] at h
  · cases y with
    | seq v =>
      obtain rfl := hheader v rfl
      simp only [runToks, stepTok, Option.bind_eq_some_iff, Option.map_eq_some_iff] at h
      obtain ⟨_, ⟨hd, hhd, rfl⟩, _, hw, h⟩ := h
      obtain rfl := Option.some.inj hw
      refine ⟨hd.len, ?_, inWord_len hd, h⟩
      cases hv : s.vals x with
      | list r | bytes r =>
        rw [hv] at hhd
        simp [Val.seqLen, hhd]
      | int v | word v | str v | other => simp [hv, Val.header] at hhd
    | num n | null | truth b => simp [runToks, stepTok] at h

/-- What has a header has the length of a list. -/
theorem Val.seqLen_lt {v : Val} {h : Heap} {hd : Header} {n : Nat} (hhd : v.header h = some hd)
    (hn : v.seqLen h = some n) : n < 2 ^ 31 := by
  cases v with
  | list r | bytes r =>
    simp only [Val.seqLen, hhd, Option.map_some, Option.some.injEq] at hn
    exact hn ▸ hd.len_lt
  | int v | word v | str v | other => simp [Val.header] at hhd

/-- The length token of a name that is no string reads a header. -/
theorem run_header {id : Nat} {x : String} {ts : List Tok} {st rs : List (SVal N)}
    (hty : p.ty x ≠ .string) (h : runToks A s (lpLenw p (.var id x) ++ ts) st = some rs) :
    ∀ n, (s.vals x).seqLen s.heap = some n → n < 2 ^ 31 := by
  intro n hn
  simp only [lpLenw, lpLeaf, Prog.typeOf, lpLenop, List.cons_append, List.nil_append] at h
  obtain ⟨y, hy, hrun⟩ := run_name h
  cases hv : s.vals x with
  | str t =>
    rw [hv] at hy
    obtain rfl := Option.some.inj hy
    simp [runToks, stepTok, Val.header] at hrun
  | list r | bytes r =>
    rw [hv] at hn
    obtain ⟨hd, hhd, -⟩ := Option.map_eq_some_iff.mp hn
    exact Val.seqLen_lt hhd hn
  | int v | word v | other => simp [hv, Val.seqLen, Val.header] at hn

theorem toInt_ofNat32_le (n : Nat) : (BitVec.ofNat 32 n).toInt ≤ n := by
  have h : (BitVec.ofNat 32 n).toNat ≤ n := by
    rw [BitVec.toNat_ofNat]
    exact Nat.mod_le ..
  have h' := (BitVec.ofNat 32 n).isLt
  rw [BitVec.toInt_eq_toNat_cond]
  split <;> omega

/-- A limit on the stack as a number is at least what the condition reads. -/
theorem run_ntok {lim : Expr} {ts : List Tok} {st rs : List (SVal N)} (hlim : lpLimit lim = true)
    (h : runToks A s (lpNtok p lim ++ ts) st = some rs) :
    ∃ y, runToks A s ts (y :: st) = some rs ∧ ∀ z, y = .num z →
      ∃ n l, z = A.ofInt n ∧ InWord n ∧ s.limit lim = some l ∧ l ≤ n := by
  cases lim with
  | int id v w =>
    refine ⟨_, h, fun z hz => ⟨litNum v w, litNum v w, ?_, inWord_litNum v w, rfl, Int.le_refl _⟩⟩
    exact (SVal.num.inj hz).symm
  | var id x =>
    obtain ⟨y, hy, h⟩ := run_name h
    refine ⟨y, h, fun z hz => ?_⟩
    obtain ⟨n, hn, rfl, hin⟩ := pushName_num (hz ▸ hy)
    exact ⟨n, n, rfl, hin, hn, Int.le_refl n⟩
  | call id f args =>
    simp only [lpLimit, Option.isSome_iff_exists] at hlim
    obtain ⟨a, ha⟩ := hlim
    obtain ⟨_, vid, x, _, rfl⟩ := lpLenarg_eq_some ha
    simp only [lpNtok, ha] at h
    obtain ⟨n, hn, hin, h⟩ := run_lenw h
    refine ⟨_, h, fun z hz => ⟨n, (BitVec.ofNat 32 n).toInt, (SVal.num.inj hz).symm, hin, ?_,
      toInt_ofNat32_le n⟩⟩
    simp [State.limit, ha, hn]
  | imp | bin | index | other => simp [lpLimit, lpLenarg] at hlim

/-- A clause that a name is not negative. -/
theorem clause_ge {x : String} (hA : A.Lawful)
    (h : clauseVal A s [.name x, .const 0, .cmp .ge] = some true) :
    ∃ m, (s.vals x).num = some m ∧ 0 ≤ m := by
  unfold clauseVal at h
  split at h
  swap
  · simp at h
  next b hrun =>
    obtain rfl := Option.some.inj h
    obtain ⟨y, hy, hrun⟩ := run_name hrun
    rw [runToks, stepTok_const] at hrun
    obtain ⟨z, rfl, hcmp⟩ := run_cmp hrun
    obtain ⟨m, hm, rfl, hin⟩ := pushName_num hy
    rw [hA.cmp _ _ _ hin (inWord_litNum 0 false)] at hcmp
    exact ⟨m, hm, by simpa [CmpOp.onInt, litNum] using hcmp⟩

/-- A clause that a limit is at most a length less a constant. -/
theorem clause_fit {id : Nat} {xs : String} {lim : Expr} {k : Int} (hA : A.Lawful)
    (hlim : lpLimit lim = true) (hk : 0 ≤ k) (hk' : k < 2 ^ 31)
    (h : clauseVal A s (lpNtok p lim ++ lpFit p (.var id xs) k) = some true) :
    ∃ (n : Nat) (l : Int), (s.vals xs).seqLen s.heap = some n ∧ s.limit lim = some l ∧
      l + k ≤ n := by
  unfold clauseVal at h
  split at h
  swap
  · simp at h
  next b hrun =>
    obtain rfl := Option.some.inj h
    obtain ⟨y, hrun, hy⟩ := run_ntok hlim hrun
    unfold lpFit at hrun
    obtain ⟨n, hn, hin, hrun⟩ := run_lenw hrun
    have hkin : InWord k := by simp only [InWord]; omega
    have hsub : InWord (ArOp.sub.onInt n k) := by
      simp only [InWord, ArOp.onInt] at hin ⊢
      omega
    rw [runToks, stepTok_const, litNum_nonneg hk hk', Option.bind_some, runToks, stepTok_nary,
      hA.op _ _ _ hin hkin hsub] at hrun
    obtain ⟨z, rfl, hcmp⟩ := run_cmp hrun
    obtain ⟨m, l, rfl, hmin, hl, hle⟩ := hy z rfl
    rw [hA.cmp _ _ _ hmin hsub] at hcmp
    have : m ≤ (n : Int) - k := of_decide_eq_true hcmp
    exact ⟨n, l, hn, hl, by omega⟩

end IdCompiler.Fast

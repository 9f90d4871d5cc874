import IdCompiler.Fast.Guard
import IdCompiler.Fast.Value

/-!
# What the tokens of a guard mean

The tokens as a stack machine over numbers, read off their description. The
machine runs over 64-bit words that wrap, as the targets run it, and over
integers that may not leave the 64-bit range; where the second answers, the
first answers the same.
-/

namespace IdCompiler.Fast

/-- What a token leaves on the stack, over numbers `N`. -/
inductive SVal (N : Type)
  | num (n : N)
  | seq (v : Val)
  | null
  | truth (b : Bool)

/-- The numbers the machine runs over. -/
structure Arith (N : Type) where
  ofInt : Int → N
  op : ArOp → N → N → Option N
  cmp : CmpOp → N → N → Bool

/-- The operator on integers. -/
def ArOp.onInt : ArOp → Int → Int → Int
  | .add => (· + ·)
  | .sub => (· - ·)
  | .mul => (· * ·)

/-- The comparison of integers. -/
def CmpOp.onInt : CmpOp → Int → Int → Bool
  | .lt, a, b => a < b
  | .le, a, b => a ≤ b
  | .ge, a, b => b ≤ a
  | .ne, a, b => a ≠ b

/-- Words of 64 bits, wrapping. -/
def wrapping : Arith (BitVec 64) where
  ofInt := BitVec.ofInt 64
  op o a b := some (BitVec.ofInt 64 (o.onInt a.toInt b.toInt))
  cmp o a b := o.onInt a.toInt b.toInt

/-- The signed 64-bit range. -/
def InWord (n : Int) : Prop := -2 ^ 63 ≤ n ∧ n < 2 ^ 63

instance (n : Int) : Decidable (InWord n) := inferInstanceAs (Decidable (_ ∧ _))

/-- Integers that stay in the 64-bit range. -/
def exact : Arith Int where
  ofInt n := n
  op o a b := if InWord (o.onInt a b) then some (o.onInt a b) else none
  cmp o a b := o.onInt a b

variable {N : Type}

/-- A name on the stack: its number, or the sequence it stands for. -/
def pushName (A : Arith N) (v : Val) : Option (SVal N) :=
  match v with
  | .other => none
  | .list r => some (.seq (.list r))
  | .bytes r => some (.seq (.bytes r))
  | .str s => some (.seq (.str s))
  | v => v.num.map fun n => .num (A.ofInt n)

/-- The operands below the top joined with it from the left: `first` is the deepest. -/
def joinLeft (A : Arith N) (o : ArOp) : N → List N → Option N
  | acc, [] => some acc
  | acc, n :: rest => (A.op o acc n).bind fun a => joinLeft A o a rest

/-- The top `n` numbers of a stack, deepest first, and what is under them. -/
def popNums : Nat → List (SVal N) → List N → Option (List N × List (SVal N))
  | 0, st, acc => some (acc, st)
  | n + 1, .num a :: st, acc => popNums n st (a :: acc)
  | _ + 1, _, _ => none

/-- One token. -/
def stepTok (A : Arith N) (s : State) : Tok → List (SVal N) → Option (List (SVal N))
  | .name x, st => (pushName A (s.vals x)).map (· :: st)
  | .lit v w, st => some (.num (A.ofInt (litNum v w)) :: st)
  | .const k, st => some (.num (A.ofInt (litNum k false)) :: st)
  | .null, st => some (.null :: st)
  | .wide, .num n :: st => some (.num n :: st)
  | .len, .seq v :: st => (v.header s.heap).map fun h => .num (A.ofInt h.len) :: st
  | .cap, .seq v :: st => (v.header s.heap).map fun h => .num (A.ofInt h.cap.toInt) :: st
  | .slen, .seq (.str t) :: st => some (.num (A.ofInt t.chars.length) :: st)
  | .nary o n, st =>
    match popNums n st [] with
    | some (a :: rest, st') => (joinLeft A o a rest).map fun r => .num r :: st'
    | _ => none
  | .cmp .ne, .null :: .seq v :: st => some (.truth (v.seqLen s.heap).isSome :: st)
  | .cmp o, .num b :: .num a :: st => some (.truth (A.cmp o a b) :: st)
  | _, _ => none

/-- A run of tokens. -/
def runToks (A : Arith N) (s : State) : List Tok → List (SVal N) → Option (List (SVal N))
  | [], st => some st
  | t :: ts, st => (stepTok A s t st).bind (runToks A s ts)

/-- The truth value a clause leaves. -/
def clauseVal (A : Arith N) (s : State) (tk : List Tok) : Option Bool :=
  match runToks A s tk [] with
  | some [.truth b] => some b
  | _ => none

theorem runToks_append (A : Arith N) (s : State) (a b : List Tok) (st : List (SVal N)) :
    runToks A s (a ++ b) st = (runToks A s a st).bind (runToks A s b) := by
  induction a generalizing st with
  | nil => rfl
  | cons t a ih =>
    simp only [List.cons_append, runToks, Option.bind_assoc]
    cases stepTok A s t st with
    | none => rfl
    | some st' => simp [ih]

/-! ## The two machines agree -/

/-- A word of the wrapping machine for an integer of the exact one. -/
inductive SRel : SVal Int → SVal (BitVec 64) → Prop
  | num {n : Int} : InWord n → SRel (.num n) (.num (BitVec.ofInt 64 n))
  | seq (v : Val) : SRel (.seq v) (.seq v)
  | null : SRel .null .null
  | truth (b : Bool) : SRel (.truth b) (.truth b)

theorem inWord_toInt32 (v : BitVec 32) : InWord v.toInt := by
  have h := BitVec.le_toInt v
  have h' := BitVec.toInt_lt (x := v)
  simp only [InWord]
  omega

theorem inWord_toInt64 (v : BitVec 64) : InWord v.toInt := by
  have h := BitVec.le_toInt v
  have h' := BitVec.toInt_lt (x := v)
  simp only [InWord]
  omega

theorem inWord_num {v : Val} {n : Int} (h : v.num = some n) : InWord n := by
  cases v with
  | int v => simp only [Val.num, Option.some.injEq] at h; exact h ▸ inWord_toInt32 v
  | word v => simp only [Val.num, Option.some.injEq] at h; exact h ▸ inWord_toInt64 v
  | list r | bytes r | str s | other => simp [Val.num] at h

theorem inWord_litNum (v : Int) (w : Bool) : InWord (litNum v w) := by
  unfold litNum
  cases w
  · exact inWord_toInt32 _
  · exact inWord_toInt64 _

theorem joinLeft_rel {o : ArOp} {acc r : Int} {ns : List Int} (hacc : InWord acc)
    (hns : ∀ n ∈ ns, InWord n) (h : joinLeft exact o acc ns = some r) :
    InWord r ∧ joinLeft wrapping o (BitVec.ofInt 64 acc) (ns.map (BitVec.ofInt 64)) =
      some (BitVec.ofInt 64 r) := by
  induction ns generalizing acc with
  | nil =>
    obtain rfl := Option.some.inj h
    exact ⟨hacc, rfl⟩
  | cons n ns ih =>
    simp only [joinLeft, exact, Option.bind_eq_some_iff] at h
    obtain ⟨a, ha, h⟩ := h
    split at ha
    swap
    · simp at ha
    next hin =>
      obtain rfl := Option.some.inj ha
      obtain ⟨hr, hw⟩ := ih hin (fun m hm => hns m (List.mem_cons_of_mem _ hm)) h
      refine ⟨hr, ?_⟩
      have hn := hns n List.mem_cons_self
      simp only [List.map_cons, joinLeft, wrapping, Option.bind_some,
        toInt_ofInt64 hacc.1 hacc.2, toInt_ofInt64 hn.1 hn.2]
      exact hw

theorem popNums_rel {n : Nat} {st : List (SVal Int)} {st' : List (SVal (BitVec 64))}
    {acc ns : List Int} {rest : List (SVal Int)} (hst : List.Forall₂ SRel st st')
    (hacc : ∀ a ∈ acc, InWord a) (h : popNums n st acc = some (ns, rest)) :
    ∃ rest', popNums n st' (acc.map (BitVec.ofInt 64)) = some (ns.map (BitVec.ofInt 64), rest') ∧
      List.Forall₂ SRel rest rest' ∧ ∀ a ∈ ns, InWord a := by
  induction n generalizing st st' acc with
  | zero =>
    simp only [popNums, Option.some.injEq, Prod.mk.injEq] at h
    obtain ⟨rfl, rfl⟩ := h
    exact ⟨st', rfl, hst, hacc⟩
  | succ n ih =>
    cases hst with
    | nil => simp [popNums] at h
    | cons hv hst =>
      cases hv with
      | num hin =>
        simp only [popNums] at h ⊢
        have hacc' : ∀ a ∈ _ :: acc, InWord a := List.forall_mem_cons.mpr ⟨hin, hacc⟩
        simpa using ih hst hacc' h
      | seq v | null | truth b => simp [popNums] at h

theorem pushName_rel {v : Val} {a : SVal Int} (h : pushName exact v = some a) :
    ∃ b, pushName wrapping v = some b ∧ SRel a b := by
  cases v with
  | int v =>
    obtain rfl := Option.some.inj h
    exact ⟨_, rfl, .num (inWord_toInt32 v)⟩
  | word v =>
    obtain rfl := Option.some.inj h
    exact ⟨_, rfl, .num (inWord_toInt64 v)⟩
  | list r | bytes r | str s =>
    obtain rfl := Option.some.inj h
    exact ⟨_, rfl, .seq _⟩
  | other => simp [pushName] at h

theorem inWord_len (h : Header) : InWord h.len := by
  have := h.len_lt
  simp only [InWord]
  omega

theorem inWord_textLen (t : Text) : InWord t.chars.length := by
  have := t.len_lt
  simp only [InWord]
  omega

/-- A comparison of two numbers. -/
theorem stepTok_cmp (A : Arith N) (s : State) (o : CmpOp) (a b : N) (st : List (SVal N)) :
    stepTok A s (.cmp o) (.num b :: .num a :: st) = some (.truth (A.cmp o a b) :: st) := by
  cases o <;> rfl

/-- Where the exact machine makes a step, the wrapping one makes the same. -/
theorem stepTok_rel {s : State} {t : Tok} {st rs : List (SVal Int)}
    {st' : List (SVal (BitVec 64))} (hst : List.Forall₂ SRel st st')
    (h : stepTok exact s t st = some rs) :
    ∃ rs', stepTok wrapping s t st' = some rs' ∧ List.Forall₂ SRel rs rs' := by
  cases t with
  | name x =>
    simp only [stepTok, Option.map_eq_some_iff] at h ⊢
    obtain ⟨a, ha, rfl⟩ := h
    obtain ⟨b, hb, hab⟩ := pushName_rel ha
    exact ⟨b :: st', ⟨b, hb, rfl⟩, .cons hab hst⟩
  | lit v w =>
    obtain rfl := Option.some.inj h
    exact ⟨_, rfl, .cons (.num (inWord_litNum v w)) hst⟩
  | const k =>
    obtain rfl := Option.some.inj h
    exact ⟨_, rfl, .cons (.num (inWord_litNum k false)) hst⟩
  | null =>
    obtain rfl := Option.some.inj h
    exact ⟨_, rfl, .cons .null hst⟩
  | wide =>
    cases hst with
    | nil => simp [stepTok] at h
    | cons hv hst =>
      cases hv with
      | num hin =>
        obtain rfl := Option.some.inj h
        exact ⟨_, rfl, .cons (.num hin) hst⟩
      | seq v | null | truth b => simp [stepTok] at h
  | len | cap =>
    cases hst with
    | nil => simp [stepTok] at h
    | cons hv hst =>
      cases hv with
      | seq v =>
        simp only [stepTok, Option.map_eq_some_iff] at h ⊢
        obtain ⟨hd, hh, rfl⟩ := h
        first
        | exact ⟨_, ⟨hd, hh, rfl⟩, .cons (.num (inWord_len hd)) hst⟩
        | exact ⟨_, ⟨hd, hh, rfl⟩, .cons (.num (inWord_toInt32 hd.cap)) hst⟩
      | num hin | null | truth b => simp [stepTok] at h
  | slen =>
    cases hst with
    | nil => simp [stepTok] at h
    | cons hv hst =>
      cases hv with
      | seq v =>
        cases v with
        | str t =>
          obtain rfl := Option.some.inj h
          exact ⟨_, rfl, .cons (.num (inWord_textLen t)) hst⟩
        | int v | word v | list v | bytes v | other => simp [stepTok] at h
      | num hin | null | truth b => simp [stepTok] at h
  | nary o n =>
    simp only [stepTok] at h ⊢
    split at h
    swap
    · simp at h
    next a rest st₁ hpop =>
      obtain ⟨st₂, hpop', hrel, hin⟩ := popNums_rel hst (by simp) hpop
      simp only [Option.map_eq_some_iff] at h
      obtain ⟨r, hr, rfl⟩ := h
      obtain ⟨hrin, hw⟩ := joinLeft_rel (hin a List.mem_cons_self)
        (fun m hm => hin m (List.mem_cons_of_mem _ hm)) hr
      rw [List.map_nil] at hpop'
      exact ⟨_, by rw [hpop']; simp only [List.map_cons, hw, Option.map_some], .cons (.num hrin) hrel⟩
  | cmp o =>
    cases hst with
    | nil => cases o <;> simp [stepTok] at h
    | cons hv hst =>
      cases hst with
      | nil => cases hv <;> cases o <;> simp [stepTok] at h
      | cons hv' hst =>
        cases hv with
        | num hb =>
          cases hv' with
          | num ha =>
            rw [stepTok_cmp] at h ⊢
            obtain rfl := Option.some.inj h
            refine ⟨_, rfl, ?_⟩
            simp only [wrapping, exact, toInt_ofInt64 ha.1 ha.2, toInt_ofInt64 hb.1 hb.2]
            exact .cons (.truth _) hst
          | seq v | null | truth b => cases o <;> simp [stepTok] at h
        | null =>
          cases hv' with
          | seq v =>
            cases o with
            | ne =>
              obtain rfl := Option.some.inj h
              exact ⟨_, rfl, .cons (.truth _) hst⟩
            | lt | le | ge => simp [stepTok] at h
          | num hin | null | truth b => cases o <;> simp [stepTok] at h
        | seq v | truth b => cases o <;> simp [stepTok] at h
  | bar => simp [stepTok] at h

theorem runToks_rel {s : State} {ts : List Tok} {st rs : List (SVal Int)}
    {st' : List (SVal (BitVec 64))} (hst : List.Forall₂ SRel st st')
    (h : runToks exact s ts st = some rs) :
    ∃ rs', runToks wrapping s ts st' = some rs' ∧ List.Forall₂ SRel rs rs' := by
  induction ts generalizing st st' with
  | nil =>
    obtain rfl := Option.some.inj h
    exact ⟨st', rfl, hst⟩
  | cons t ts ih =>
    simp only [runToks, Option.bind_eq_some_iff] at h ⊢
    obtain ⟨st₁, hstep, h⟩ := h
    obtain ⟨st₁', hstep', hst₁⟩ := stepTok_rel hst hstep
    obtain ⟨rs', hrs', hrel⟩ := ih hst₁ h
    exact ⟨rs', ⟨st₁', hstep', hrs'⟩, hrel⟩

/-- A clause the exact machine answers has that value in wrapping words. -/
theorem clauseVal_wrapping {s : State} {tk : List Tok} {b : Bool}
    (h : clauseVal exact s tk = some b) : clauseVal wrapping s tk = some b := by
  unfold clauseVal at h ⊢
  split at h
  swap
  · simp at h
  next b' hrun =>
    obtain rfl := Option.some.inj h
    obtain ⟨rs', hrs', hrel⟩ := runToks_rel .nil hrun
    cases hrel with
    | cons hv hnil =>
      cases hnil
      cases hv
      rw [hrs']

/-- The clauses of a guard, each true in wrapping 64-bit words. -/
def Guard.True (g : Guard) (s : State) : Prop :=
  ∀ tk ∈ g.lpcond, clauseVal wrapping s tk = some true

/-- No sum, difference or product in a clause of the guard leaves the 64-bit range. -/
def Guard.NoWrap (g : Guard) (s : State) : Prop :=
  ∀ tk ∈ g.lpcond, clauseVal exact s tk ≠ none

/-- Where nothing wraps, a guard that is true is true of integers. -/
theorem Guard.True.exact {g : Guard} {s : State} (h : g.True s) (hw : g.NoWrap s) :
    ∀ tk ∈ g.lpcond, clauseVal exact s tk = some true := by
  intro tk htk
  obtain ⟨b, hb⟩ := Option.ne_none_iff_exists'.mp (hw tk htk)
  have := clauseVal_wrapping hb
  rw [h tk htk] at this
  rw [hb, this]

end IdCompiler.Fast

import IdCompiler.Names.Scope
import Mathlib.Data.List.Perm.Basic

/-!
# Lexical scope

The text of a function as marks in the order in which they are written. A declaration is
visible at a use behind it while its block is open, which is read off the marks between
them. The walk looks every name up with just these names.
-/

namespace IdCompiler.Names

open IdCompiler.Source

/-- What the text of a function says of names. -/
inductive Mark
  | opens
  | closes
  /-- The end of a declaration. -/
  | declares (name : String)
  | uses (name : String)
  deriving DecidableEq

/-- Whether the block that is open before some text, `depth` blocks further out, stays open in it. -/
def stays : Nat → List Mark → Bool
  | _, [] => true
  | depth, .opens :: text => stays (depth + 1) text
  | 0, .closes :: _ => false
  | depth + 1, .closes :: text => stays depth text
  | depth, .declares _ :: text => stays depth text
  | depth, .uses _ :: text => stays depth text

/-- The declarations of a text whose blocks are open at its end. -/
def visible : List Mark → List String
  | [] => []
  | .declares name :: text => if stays 0 text then name :: visible text else visible text
  | _ :: text => visible text

/-- The uses of a text that follows `before`, each with the names visible at it. -/
def usesIn (params : List String) : List Mark → List Mark → List (String × List String)
  | _, [] => []
  | before, .uses name :: text =>
    (name, params ++ visible before) :: usesIn params (before ++ [.uses name]) text
  | before, mark :: text => usesIn params (before ++ [mark]) text

/-! ## The text of a function -/

/-- A name that is no function's and no builtin's, unless the function declares it. -/
def Tables.IsVar (t : Tables) (owner name : String) : Prop :=
  t.fnNodeOf name < 0 ∧ ¬(t.declaredIn name owner = 0 ∧ t.isBuiltin name)

/-- A called name that is a variable of a function type. -/
def Tables.IsCallee (t : Tables) (owner name : String) : Prop := t.isCallVar name ∧ t.isFcall name owner

instance (t : Tables) (owner name : String) : Decidable (t.IsVar owner name) :=
  inferInstanceAs (Decidable (_ ∧ _))

instance (t : Tables) (owner name : String) : Decidable (t.IsCallee owner name) :=
  inferInstanceAs (Decidable (_ ∧ _))

mutual
/-- The variables an expression reads, as they are written. -/
def Expr.names (t : Tables) (owner : String) : Expr → List String
  | .var name => if t.IsVar owner name then [name] else []
  | .imp _ => []
  | .pair l r => l.names t owner ++ r.names t owner
  | .un e => e.names t owner
  | .call name args => (if t.IsCallee owner name then [name] else []) ++ args.names t owner
  | .other args => args.names t owner
def Args.names (t : Tables) (owner : String) : Args → List String
  | .nil => []
  | .cons e rest => e.names t owner ++ rest.names t owner
end

def Expr.marks (t : Tables) (owner : String) (e : Expr) : List Mark := (e.names t owner).map .uses

def Args.marks (t : Tables) (owner : String) (args : Args) : List Mark := (args.names t owner).map .uses

def optMarks (t : Tables) (owner : String) (e : Option Expr) : List Mark :=
  e.elim [] (Expr.marks t owner)

mutual
/-- The text of a statement. -/
def Stmt.marks (t : Tables) (owner : String) : Stmt → List Mark
  | .cond _ c l1 l2 =>
    c.marks t owner ++ .opens :: (blockMarks t owner l1 ++ .closes :: .opens ::
      (blockMarks t owner l2 ++ [.closes]))
  | .loop _ c l1 => c.marks t owner ++ .opens :: (blockMarks t owner l1 ++ [.closes])
  | .assign _ name value => .uses name :: value.marks t owner
  | .iassign _ base ix value => base.marks t owner ++ ix.marks t owner ++ value.marks t owner
  | .decl _ name value => optMarks t owner value ++ [.declares name]
  | .other _ value => optMarks t owner value
def blockMarks (t : Tables) (owner : String) : List Stmt → List Mark
  | [] => []
  | st :: rest => st.marks t owner ++ blockMarks t owner rest
end

/-- The text of a function: its body, and the clause behind it that sees the body's top level. -/
def Func.marks (t : Tables) (f : Func) : List Mark :=
  blockMarks t f.name f.body ++ optMarks t f.name (f.ret.map Prod.snd)

/-- The uses of a function, each with the names that are in scope there. -/
def Func.uses (t : Tables) (f : Func) : List (String × List String) :=
  usesIn f.params [] (f.marks t)

/-- A use of a name that the function declares where it is not in scope. -/
def Stray (t : Tables) (owner name : String) (scope : List String) : Prop :=
  t.declaredIn name owner ≠ 0 ∧ name ∉ scope

/-! ## Text -/

variable {t : Tables} {owner name : String} {text rest before : List Mark} {params names : List String}

/-- A text that closes no block but its own. -/
def Closed (text : List Mark) : Prop := ∀ depth, stays depth text = true

/-- A text that closes every block it opens, and no other. -/
def Even (text : List Mark) : Prop := ∀ depth rest, stays depth (text ++ rest) = stays depth rest

theorem Even.closed (h : Even text) : Closed text := fun depth => by
  have hend := h depth []
  rwa [List.append_nil] at hend

theorem Even.nil : Even [] := fun _ _ => rfl

theorem Even.append (h : Even text) (h' : Even rest) : Even (text ++ rest) := fun depth r => by
  rw [List.append_assoc, h, h']

theorem Even.uses (names : List String) : Even (names.map .uses) := by
  intro depth rest
  induction names with
  | nil => rfl
  | cons x names ih => cases depth <;> exact ih

theorem Even.declares : Even [.declares name] := fun depth _ => by cases depth <;> rfl

theorem Even.block (h : Even text) : Even (.opens :: (text ++ [.closes])) := fun depth rest => by
  rw [List.cons_append, stays, List.append_assoc, h]
  rfl

theorem stays_append (h : Closed rest) {depth : Nat} :
    stays depth (text ++ rest) = stays depth text := by
  fun_induction stays depth text with
  | case1 depth => exact h depth
  | case2 depth text ih => exact ih
  | case3 text => rfl
  | case4 depth text ih => exact ih
  | case5 depth name text ih => cases depth <;> exact ih
  | case6 depth name text ih => cases depth <;> exact ih

/-- What follows without closing a block hides nothing. -/
theorem visible_append (text : List Mark) (h : Closed rest) : visible (text ++ rest) = visible text ++ visible rest := by
  induction text with
  | nil => rfl
  | cons mark text ih =>
    cases mark with
    | opens => exact ih
    | closes => exact ih
    | uses name => exact ih
    | declares name =>
      rw [List.cons_append, visible, visible, stays_append h, ih]
      split <;> rfl

theorem visible_uses (names : List String) (text : List Mark) :
    visible (names.map .uses ++ text) = visible text := by
  induction names with
  | nil => rfl
  | cons x names ih => exact ih

theorem usesIn_append : usesIn params before (text ++ rest) =
    usesIn params before text ++ usesIn params (before ++ text) rest := by
  induction text generalizing before with
  | nil => rw [List.nil_append, List.append_nil, usesIn, List.nil_append]
  | cons mark text ih =>
    have hassoc : before ++ mark :: text = before ++ [mark] ++ text := by
      rw [List.append_assoc]
      rfl
    rw [hassoc, List.cons_append]
    cases mark with
    | uses name => rw [usesIn, usesIn, ih, List.cons_append]
    | opens => rw [usesIn, usesIn, ih] <;> exact fun _ => Mark.noConfusion
    | closes => rw [usesIn, usesIn, ih] <;> exact fun _ => Mark.noConfusion
    | declares name => rw [usesIn, usesIn, ih] <;> exact fun _ => Mark.noConfusion

/-- Uses alone all see the same names. -/
theorem usesIn_uses : usesIn params before (names.map .uses) =
    names.map fun name => (name, params ++ visible before) := by
  induction names generalizing before with
  | nil => rfl
  | cons x names ih =>
    have hclosed : Closed [.uses x] := fun depth => by cases depth <;> rfl
    have hsame : visible (before ++ [.uses x]) = visible before := by
      rw [visible_append before hclosed]
      exact List.append_nil _
    rw [List.map_cons, usesIn, ih, hsame]
    rfl

mutual
theorem Stmt.even (st : Stmt) : Even (st.marks t owner) := by
  match st with
  | .cond _ c l1 l2 =>
    have hblocks := (Even.block (block_even l1)).append (Even.block (block_even l2))
    rw [List.cons_append, List.append_assoc] at hblocks
    exact (Even.uses _).append hblocks
  | .loop _ c l1 => exact (Even.uses _).append (Even.block (block_even l1))
  | .assign _ name value => exact Even.uses (name :: value.names t owner)
  | .iassign _ base ix value => exact ((Even.uses _).append (Even.uses _)).append (Even.uses _)
  | .decl _ name none => exact Even.declares
  | .decl _ name (some e) => exact (Even.uses _).append Even.declares
  | .other _ none => exact Even.nil
  | .other _ (some e) => exact Even.uses _
theorem block_even (l : List Stmt) : Even (blockMarks t owner l) := by
  match l with
  | [] => exact Even.nil
  | st :: l => exact (Stmt.even st).append (block_even l)
end

theorem visible_optMarks {e : Option Expr} : visible (optMarks t owner e ++ text) = visible text := by
  cases e with
  | none => rfl
  | some e => exact visible_uses _ _

mutual
/-- What is declared in a block is not visible once it is closed. -/
theorem Stmt.visible_hidden (st : Stmt) {tail : List Mark} (h : stays 0 tail = false) :
    visible (st.marks t owner ++ tail) = visible tail := by
  match st with
  | .cond _ c l1 l2 =>
    have hlast := block_hidden l2 (.closes :: tail) rfl
    have hfirst := block_hidden l1 (.closes :: .opens :: (blockMarks t owner l2 ++ .closes :: tail)) rfl
    rw [Stmt.marks, List.append_assoc, Expr.marks, visible_uses, List.cons_append, List.append_assoc,
      List.cons_append, List.cons_append, List.append_assoc]
    exact hfirst.trans hlast
  | .loop _ c l1 =>
    rw [Stmt.marks, List.append_assoc, Expr.marks, visible_uses, List.cons_append, List.append_assoc]
    exact block_hidden l1 (.closes :: tail) rfl
  | .assign _ name value => exact visible_uses (name :: value.names t owner) tail
  | .iassign _ base ix value =>
    rw [Stmt.marks, List.append_assoc, List.append_assoc, Expr.marks, Expr.marks, Args.marks,
      visible_uses, visible_uses, visible_uses]
  | .decl _ name value =>
    rw [Stmt.marks, List.append_assoc, visible_optMarks]
    exact if_neg (Bool.eq_false_iff.mp h)
  | .other _ value => exact visible_optMarks
theorem block_hidden (l : List Stmt) (tail : List Mark) (h : stays 0 tail = false) :
    visible (blockMarks t owner l ++ tail) = visible tail := by
  match l with
  | [] => rfl
  | st :: l =>
    have hrest : stays 0 (blockMarks t owner l ++ tail) = false := by
      rw [block_even, h]
    rw [blockMarks, List.append_assoc, Stmt.visible_hidden st hrest, block_hidden l _ h]
end

/-- A block that is closed leaves what was visible before it. -/
theorem visible_block {l : List Stmt} :
    visible (before ++ .opens :: (blockMarks t owner l ++ [.closes])) = visible before := by
  rw [visible_append _ (Even.block (block_even l)).closed]
  have hidden : visible (.opens :: (blockMarks t owner l ++ [.closes])) = [] :=
    block_hidden l [.closes] rfl
  rw [hidden, List.append_nil]

/-! ## The walk -/

/-- The lookups of a part of the walk, and that its scope reports are those of stray uses. -/
structure Walked (t : Tables) (owner : String) (l : List (String × List String)) (w w' : Walk) : Prop where
  looked : w'.looked = w.looked ++ l
  reports : ∃ r, w'.reports = w.reports ++ r ∧ ∀ x o, (∃ ln, (⟨.scope, x, o, ln⟩ : Report) ∈ r) ↔
    o = owner ∧ ∃ scope, (x, scope) ∈ l ∧ Stray t owner x scope

variable {w w' w'' : Walk} {l l' : List (String × List String)} {ln : Nat}

theorem Walked.refl : Walked t owner [] w w :=
  ⟨(List.append_nil _).symm, [], (List.append_nil _).symm, fun _ _ =>
    ⟨fun ⟨_, h⟩ => absurd h List.not_mem_nil, fun ⟨_, _, h, _⟩ => absurd h List.not_mem_nil⟩⟩

theorem Walked.trans (h : Walked t owner l w w') (h' : Walked t owner l' w' w'') :
    Walked t owner (l ++ l') w w'' := by
  obtain ⟨r, hr, hiff⟩ := h.reports
  obtain ⟨r', hr', hiff'⟩ := h'.reports
  refine ⟨by rw [h'.looked, h.looked, List.append_assoc], r ++ r',
    by rw [hr', hr, List.append_assoc], fun x o => ?_⟩
  simp only [List.mem_append, exists_or, hiff, hiff', or_and_right, ← and_or_left]

theorem Walked.report {kind : Kind} {o : String} (hk : kind ≠ .scope) :
    Walked t owner [] w (w.report kind name o ln) := by
  refine ⟨(List.append_nil _).symm, [⟨kind, name, o, ln⟩], rfl, fun x o => ⟨?_, ?_⟩⟩
  · rintro ⟨ln, h⟩
    exact absurd (congrArg Report.kind (List.mem_singleton.mp h)).symm hk
  · rintro ⟨-, scope, h, -⟩
    exact absurd h List.not_mem_nil

/-- Variables looked up with the names that are visible now. -/
structure Resolved (t : Tables) (owner : String) (names : List String) (w w' : Walk) : Prop where
  scnames : w'.scnames = w.scnames
  walked : ∃ l, Walked t owner l w w' ∧ l.Perm (names.map fun name => (name, w.scnames))

theorem Resolved.refl : Resolved t owner [] w w := ⟨rfl, [], .refl, .nil⟩

theorem Resolved.report {kind : Kind} (name : String) (ln : Nat) (hk : kind ≠ .scope) :
    Resolved t owner [] w (w.report kind name owner ln) := ⟨rfl, [], .report hk, .nil⟩

theorem Resolved.trans {names' : List String} (h : Resolved t owner names w w')
    (h' : Resolved t owner names' w' w'') : Resolved t owner (names ++ names') w w'' := by
  obtain ⟨l, hl, hperm⟩ := h.walked
  obtain ⟨l', hl', hperm'⟩ := h'.walked
  rw [h.scnames] at hperm'
  refine ⟨h'.scnames.trans h.scnames, l ++ l', hl.trans hl', ?_⟩
  rw [List.map_append]
  exact hperm.append hperm'

theorem Resolved.perm {names' : List String} (h : Resolved t owner names w w')
    (hp : names.Perm names') : Resolved t owner names' w w' := by
  obtain ⟨l, hl, hperm⟩ := h.walked
  exact ⟨h.scnames, l, hl, hperm.trans (hp.map _)⟩

theorem accName_resolved (ln : Nat) : Resolved t owner [name] w (accName t name owner ln w) := by
  have hseen : ∀ w' : Walk, w'.scnames = w.scnames → w'.looked = w.looked ++ [(name, w.scnames)] →
      (∃ r, w'.reports = w.reports ++ r ∧ ∀ x o, (∃ ln, (⟨.scope, x, o, ln⟩ : Report) ∈ r) ↔
        o = owner ∧ x = name ∧ Stray t owner name w.scnames) → Resolved t owner [name] w w' := by
    rintro w' hsc hlooked ⟨r, hr, hiff⟩
    refine ⟨hsc, _, ⟨hlooked, r, hr, fun x o => (hiff x o).trans (and_congr_right fun _ => ?_)⟩, .refl _⟩
    constructor
    · rintro ⟨rfl, hstray⟩
      exact ⟨_, List.mem_singleton_self _, hstray⟩
    · rintro ⟨scope, hin, hstray⟩
      obtain ⟨rfl, rfl⟩ := Prod.mk.inj (List.mem_singleton.mp hin)
      exact ⟨rfl, hstray⟩
  have hquiet : ∀ r : List Report, ¬Stray t owner name w.scnames → (∀ p ∈ r, p.kind ≠ .scope) →
      ∀ x o, (∃ ln, (⟨.scope, x, o, ln⟩ : Report) ∈ r) ↔
        o = owner ∧ x = name ∧ Stray t owner name w.scnames := fun r hno hk x o =>
    ⟨fun ⟨ln, h⟩ => absurd rfl (hk _ h), fun h => absurd h.2.2 hno⟩
  have hone : ∀ {kind : Kind}, kind ≠ .scope → ∀ p ∈ [(⟨kind, name, owner, ln⟩ : Report)],
      p.kind ≠ .scope := fun hk p hp => by rw [List.mem_singleton.mp hp]; exact hk
  unfold accName
  dsimp only
  split
  · next hnone =>
    have hno : ¬Stray t owner name w.scnames := fun hs => hs.1 hnone
    unfold reportBadVar
    split
    · exact hseen _ rfl rfl ⟨_, rfl, hquiet _ hno (hone (by decide))⟩
    · split
      · exact hseen _ rfl rfl ⟨_, rfl, hquiet _ hno (hone (by decide))⟩
      · exact hseen _ rfl rfl ⟨_, rfl, hquiet _ hno (hone (by decide))⟩
  · next hdecl =>
    split
    · next hneg =>
      refine hseen _ rfl rfl ⟨_, rfl, fun x o => ⟨?_, ?_⟩⟩
      · rintro ⟨ln', hin⟩
        have hrep := List.mem_singleton.mp hin
        exact ⟨congrArg Report.owner hrep, congrArg Report.name hrep, hdecl, findStr_neg_iff.mp hneg⟩
      · rintro ⟨rfl, rfl, -⟩
        exact ⟨ln, List.mem_singleton_self _⟩
    · next hpos =>
      refine hseen _ rfl rfl ⟨[], (List.append_nil _).symm, hquiet [] (fun hs => ?_) (by simp)⟩
      exact hpos (findStr_neg_iff.mpr hs.2)

theorem accVar_resolved :
    Resolved t owner (if t.IsVar owner name then [name] else []) w (accVar t name owner ln w) := by
  unfold accVar
  by_cases hfn : t.fnNodeOf name < 0
  · by_cases hbuiltin : t.declaredIn name owner = 0 ∧ t.isBuiltin name = true
    · have hno : ¬t.IsVar owner name := fun hvar => hvar.2 hbuiltin
      rw [if_neg hno, if_pos ⟨hfn, hbuiltin⟩]
      exact .report name _ (by decide)
    · have hvar : t.IsVar owner name := ⟨hfn, hbuiltin⟩
      rw [if_pos hvar, if_neg fun hc => hbuiltin hc.2, if_pos hfn]
      exact accName_resolved _
  · have hno : ¬t.IsVar owner name := fun hvar => hfn hvar.1
    rw [if_neg hno, if_neg fun hc => hfn hc.1, if_neg hfn]
    exact .refl

theorem accImport_resolved : Resolved t owner [] w (accImport t name owner ln w) := by
  unfold accImport reportBadImport
  split
  · split
    · exact .report name _ (by decide)
    · exact .report name _ (by decide)
  · exact .refl

theorem accCallee_resolved (name : String) (ln : Nat) : Resolved t owner (if t.IsCallee owner name then [name] else []) w
    (if t.isCallVar name then accCallVar t name owner ln w else w) := by
  unfold accCallVar
  by_cases hvar : t.isCallVar name = true
  · rw [if_pos hvar]
    by_cases hfn : t.isFcall name owner = true
    · have hcallee : t.IsCallee owner name := ⟨hvar, hfn⟩
      rw [if_pos hcallee, if_pos hfn]
      exact accName_resolved _
    · have hno : ¬t.IsCallee owner name := fun hc => hfn hc.2
      rw [if_neg hno, if_neg hfn]
      exact .report name _ (by decide)
  · have hno : ¬t.IsCallee owner name := fun hc => hvar hc.1
    rw [if_neg hno, if_neg hvar]
    exact .refl

mutual
theorem accExpr_resolved (t : Tables) (owner : String) (ln : Nat) (e : Expr) (w : Walk) :
    Resolved t owner (e.names t owner) w (accExpr t owner ln e w) := by
  match e with
  | .var name => exact accVar_resolved
  | .imp name => exact accImport_resolved
  | .pair l r => exact (accExpr_resolved t owner ln l w).trans (accExpr_resolved t owner ln r _)
  | .un e => exact accExpr_resolved t owner ln e w
  | .call name args =>
    have hargs := (accElems_resolved t owner ln args w).trans (accCallee_resolved name ln)
    have hcall := hargs.perm List.perm_append_comm
    rw [accExpr, Expr.names]
    by_cases hun : t.unresolvedFn name = true
    · rw [if_pos hun]
      have hkind : Kind.noSuchFn ≠ .scope := by decide
      have hlast := hcall.trans (.report name ln hkind)
      rw [List.append_nil] at hlast
      exact hlast
    · rw [if_neg hun]
      exact hcall
  | .other args => exact accElems_resolved t owner ln args w
theorem accElems_resolved (t : Tables) (owner : String) (ln : Nat) (args : Args) (w : Walk) :
    Resolved t owner (args.names t owner) w (accElems t owner ln args w) := by
  match args with
  | .nil => exact .refl
  | .cons e rest => exact (accExpr_resolved t owner ln e w).trans (accElems_resolved t owner ln rest _)
end

/-! ## Blocks -/

/-- A part of the walk over a text that follows `before`. -/
structure Scoped (t : Tables) (owner : String) (params : List String) (before text : List Mark)
    (w w' : Walk) : Prop where
  scnames : w'.scnames = params ++ visible (before ++ text)
  walked : ∃ l, Walked t owner l w w' ∧ l.Perm (usesIn params before text)

theorem Resolved.scoped (h : Resolved t owner names w w')
    (hw : w.scnames = params ++ visible before) :
    Scoped t owner params before (names.map .uses) w w' := by
  obtain ⟨l, hl, hperm⟩ := h.walked
  refine ⟨?_, l, hl, ?_⟩
  · have hnone := visible_uses names []
    rw [List.append_nil] at hnone
    rw [h.scnames, hw, visible_append _ (Even.uses names).closed, hnone]
    exact congrArg _ (List.append_nil _).symm
  · rw [usesIn_uses, ← hw]
    exact hperm

theorem Scoped.nil (hw : w.scnames = params ++ visible before) : Scoped t owner params before [] w w :=
  ⟨by rw [List.append_nil]; exact hw, [], .refl, .nil⟩

theorem Scoped.trans (h : Scoped t owner params before text w w')
    (h' : Scoped t owner params (before ++ text) rest w' w'') :
    Scoped t owner params before (text ++ rest) w w'' := by
  obtain ⟨l, hl, hperm⟩ := h.walked
  obtain ⟨l', hl', hperm'⟩ := h'.walked
  refine ⟨by rw [← List.append_assoc]; exact h'.scnames, l ++ l', hl.trans hl', ?_⟩
  rw [usesIn_append]
  exact hperm.append hperm'

theorem accOpt_scoped (t : Tables) (owner : String) (ln : Nat) (e : Option Expr)
    (hw : w.scnames = params ++ visible before) :
    Scoped t owner params before (optMarks t owner e) w (accOpt t owner ln e w) := by
  match e with
  | none => exact .nil hw
  | some e => exact (accExpr_resolved t owner ln e w).scoped hw

theorem scopeAdd_scoped (hw : w.scnames = params ++ visible before) :
    Scoped t owner params before [.declares name] w (scopeAdd name w) := by
  refine ⟨?_, [], ⟨(List.append_nil _).symm, Walked.refl.reports⟩, .nil⟩
  rw [visible_append _ Even.declares.closed]
  show w.scnames ++ [name] = params ++ (visible before ++ [name])
  rw [hw, List.append_assoc]

theorem popTo_eq {keep k : Nat} {l : List String} (hk : l.length ≤ k) : popTo keep k l = l.take keep := by
  induction k generalizing l with
  | zero =>
    rw [List.eq_nil_of_length_eq_zero (Nat.le_zero.mp hk)]
    exact List.take_nil.symm
  | succ k ih =>
    rw [popTo]
    split
    · next hlt =>
      rw [ih (by rw [List.length_dropLast]; omega), List.dropLast_eq_take, List.take_take,
        Nat.min_eq_left (by omega)]
    · next hge => exact (List.take_of_length_le (by omega)).symm

theorem visible_opens : visible (before ++ [.opens]) = visible before := by
  have hclosed : Closed [.opens] := fun _ => rfl
  rw [visible_append _ hclosed]
  exact List.append_nil _

/-- The names that a block added are cut off. -/
theorem Scoped.block {l : List Stmt} (hw : w.scnames = params ++ visible before)
    (h : Scoped t owner params (before ++ [.opens]) (blockMarks t owner l) w w') :
    Scoped t owner params before (.opens :: (blockMarks t owner l ++ [.closes])) w
      (w'.cut w.scnames.length) := by
  obtain ⟨l', hl, hperm⟩ := h.walked
  have hkeep : (w'.cut w.scnames.length).scnames = w.scnames := by
    show popTo w.scnames.length w'.scnames.length w'.scnames = _
    rw [popTo_eq (Nat.le_refl _), h.scnames, visible_append _ (block_even l).closed, visible_opens,
      ← List.append_assoc, ← hw]
    exact List.take_left
  refine ⟨by rw [hkeep, visible_block, hw], l', ⟨hl.looked, hl.reports⟩, ?_⟩
  have huses : usesIn params before (.opens :: (blockMarks t owner l ++ [.closes])) =
      usesIn params (before ++ [.opens]) (blockMarks t owner l) := by
    rw [usesIn, usesIn_append]
    · exact List.append_nil _
    · exact fun _ => Mark.noConfusion
  rw [huses]
  exact hperm

mutual
theorem accStmt_scoped (st : Stmt) {before : List Mark} {w : Walk}
    (hw : w.scnames = params ++ visible before) :
    Scoped t owner params before (st.marks t owner) w (accStmt t owner st w) := by
  match st with
  | .cond line c l1 l2 =>
    have hc := (accExpr_resolved t owner line c w).scoped hw
    have h1 := Scoped.block hc.scnames
      (accList_scoped l1 (hc.scnames.trans (congrArg _ visible_opens.symm)))
    have h2 := Scoped.block h1.scnames
      (accList_scoped l2 (h1.scnames.trans (congrArg _ visible_opens.symm)))
    have hall := hc.trans (h1.trans h2)
    rw [List.cons_append, List.append_assoc] at hall
    exact hall
  | .loop line c l1 =>
    have hc := (accExpr_resolved t owner line c w).scoped hw
    exact hc.trans (Scoped.block hc.scnames
      (accList_scoped l1 (hc.scnames.trans (congrArg _ visible_opens.symm))))
  | .assign line name value =>
    exact ((accName_resolved line).trans (accExpr_resolved t owner line value _)).scoped hw
  | .iassign line base ix value =>
    have hall := (((accExpr_resolved t owner line base w).trans
      (accExpr_resolved t owner line ix _)).trans (accElems_resolved t owner line value _)).scoped hw
    rw [List.map_append, List.map_append] at hall
    exact hall
  | .decl line name value =>
    have hvalue := accOpt_scoped t owner line value hw
    exact hvalue.trans (scopeAdd_scoped hvalue.scnames)
  | .other line value => exact accOpt_scoped t owner line value hw
theorem accList_scoped (l : List Stmt) {before : List Mark} {w : Walk}
    (hw : w.scnames = params ++ visible before) :
    Scoped t owner params before (blockMarks t owner l) w (accList t owner l w) := by
  match l with
  | [] => exact .nil hw
  | st :: l =>
    have hst := accStmt_scoped st hw
    exact hst.trans (accList_scoped l hst.scnames)
end

/-! ## Functions -/

/-- The names visible before a function do not matter to it. -/
theorem scopeFunc_scnames {f : Func} : (scopeFunc f w).scnames = f.params ++ visible [] := by
  show popTo 0 w.scnames.length w.scnames ++ f.params = f.params ++ []
  rw [popTo_eq (Nat.le_refl _), List.take_zero, List.nil_append, List.append_nil]

theorem accFuncBody_walked {f : Func} :
    ∃ l, Walked t f.name l w (accFuncBody t f w) ∧ l.Perm (f.uses t) := by
  have hbody : Scoped t f.name f.params [] (blockMarks t f.name f.body) (scopeFunc f w)
      (accList t f.name f.body (scopeFunc f w)) := accList_scoped f.body scopeFunc_scnames
  have hret : Scoped t f.name f.params [] (f.marks t) (scopeFunc f w) (accFuncBody t f w) := by
    unfold accFuncBody Func.marks
    cases f.ret with
    | none => exact hbody.trans (.nil hbody.scnames)
    | some r => exact hbody.trans (accOpt_scoped t f.name r.1 (some r.2) hbody.scnames)
  obtain ⟨l, hl, hperm⟩ := hret.walked
  exact ⟨l, ⟨hl.looked, hl.reports⟩, hperm⟩

/-- How the access pass treats a program from any state on. -/
structure Lexical (t : Tables) (fs : List Func) (w w' : Walk) : Prop where
  /-- Each use is looked up with the names in scope there, and nothing else is. -/
  looked : ∃ l, w'.looked = w.looked ++ l ∧ l.Perm (fs.flatMap (Func.uses t))
  /-- Reported are exactly the stray uses. -/
  reports : ∃ r, w'.reports = w.reports ++ r ∧ ∀ x o, (∃ ln, (⟨.scope, x, o, ln⟩ : Report) ∈ r) ↔
    ∃ f ∈ fs, o = f.name ∧ ∃ scope, (x, scope) ∈ f.uses t ∧ Stray t f.name x scope

theorem accFuncs_lexical {fs : List Func} : Lexical t fs w (accFuncs t fs w) := by
  induction fs generalizing w with
  | nil =>
    refine ⟨⟨[], (List.append_nil _).symm, .nil⟩, [], (List.append_nil _).symm, fun x o => ⟨?_, ?_⟩⟩
    · exact fun ⟨_, h⟩ => absurd h List.not_mem_nil
    · exact fun ⟨_, h, _⟩ => absurd h List.not_mem_nil
  | cons f fs ih =>
    obtain ⟨l, ⟨hl, r, hr, hiff⟩, hperm⟩ := accFuncBody_walked (t := t) (f := f) (w := w)
    obtain ⟨⟨l', hl', hperm'⟩, r', hr', hiff'⟩ := ih (w := accFuncBody t f w)
    refine ⟨⟨l ++ l', ?_, hperm.append hperm'⟩, r ++ r', ?_, fun x o => ?_⟩
    · rw [accFuncs, hl', hl, List.append_assoc]
    · rw [accFuncs, hr', hr, List.append_assoc]
    · simp only [List.mem_append, exists_or, hiff, hiff', List.exists_mem_cons_iff, hperm.mem_iff]

/-- The access pass is lexical scoping: in any state that other functions left behind, every
block leaves the visible names as they were, and every name is looked up with those in scope. -/
theorem access_lexical (t : Tables) :
    (∀ fs w, Lexical t fs w (accFuncs t fs w)) ∧ (∀ fs, Lexical t fs ⟨[], [], []⟩ (checkAccess t fs)) ∧
      ∀ owner l w, (accBlock t owner l w).scnames = w.scnames := by
  refine ⟨fun fs w => accFuncs_lexical, fun fs => accFuncs_lexical, fun owner l w => ?_⟩
  have hw : w.scnames = w.scnames ++ visible [] := (List.append_nil _).symm
  have hlist : Scoped t owner w.scnames ([] ++ [.opens]) (blockMarks t owner l) w (accList t owner l w) :=
    accList_scoped l hw
  have hblock := hlist.block hw
  rw [show (accBlock t owner l w).scnames = _ from hblock.scnames, visible_block]
  exact List.append_nil _

/-- A name declared in both branches of an `if` is visible in each from its end on. -/
example :
    let t : Tables := ⟨[], [], [], [], [], fun _ => -1, fun _ => "?", fun _ _ => false⟩
    let decl (x : String) (e : Expr) := Stmt.decl 1 x (some e)
    Func.uses t ⟨"f", ["p"], [.cond 1 (.var "p") [decl "a" (.var "a"), .other 2 (some (.var "a"))]
      [decl "a" (.var "p")]], some (3, .var "a")⟩ =
        [("p", ["p"]), ("a", ["p"]), ("a", ["p", "a"]), ("p", ["p"]), ("a", ["p"])] := by decide

end IdCompiler.Names

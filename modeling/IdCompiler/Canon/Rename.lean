import IdCompiler.Canon.Alike

/-!
# Functions under other names

A function with its variables and its callees renamed is walked as the function
is: the names are met in the same order, and the texts are equal exactly if each
callee is written alike.
-/

namespace IdCompiler.Canon

open IdCompiler.Core IdCompiler.Core.Writer IdCompiler.Source

/-! ## Renaming -/

mutual
def Expr.rename (ρ callee : String → String) : Expr → Expr
  | .var name => .var (ρ name)
  | .bin op l r => .bin op (l.rename ρ callee) (r.rename ρ callee)
  | .un op e => .un op (e.rename ρ callee)
  | .index base key => .index (base.rename ρ callee) (key.rename ρ callee)
  | .call name args => .call (callee name) (renameArgs ρ callee args)
  | .arr elems => .arr (renameArgs ρ callee elems)
  | .int spell value wide => .int spell value wide
  | .float spell => .float spell
  | .str spell => .str spell
  | .imp name => .imp name
  | .fld name => .fld name
  | .other kind id => .other kind id
def renameArgs (ρ callee : String → String) : List Expr → List Expr
  | [] => []
  | e :: es => e.rename ρ callee :: renameArgs ρ callee es
end

mutual
def Stmt.rename (ρ callee : String → String) : Stmt → Stmt
  | .decl type name exported value =>
    .decl type (if exported then name else ρ name) exported (value.rename ρ callee)
  | .assign name value => .assign (ρ name) (value.rename ρ callee)
  | .iassign base key value =>
    .iassign (base.rename ρ callee) (key.rename ρ callee) (value.rename ρ callee)
  | .exprstmt e => .exprstmt (e.rename ρ callee)
  | .cond c thenl elsel elif =>
    .cond (c.rename ρ callee) (renameStmts ρ callee thenl) (renameStmts ρ callee elsel) elif
  | .loop c body => .loop (c.rename ρ callee) (renameStmts ρ callee body)
  | .ret value => .ret (value.map (Expr.rename ρ callee))
  | .chain => .chain
  | .blank => .blank
  | .brk => .brk
  | .other kind id => .other kind id
def renameStmts (ρ callee : String → String) : List Stmt → List Stmt
  | [] => []
  | stmt :: rest => stmt.rename ρ callee :: renameStmts ρ callee rest
end

def Func.rename (ρ callee : String → String) (f : Func) : Func where
  name := ρ f.name
  params := f.params.map fun p => ⟨p.type, ρ p.name⟩
  type := f.type
  body := renameStmts ρ callee f.body
  ret := f.ret.map (Expr.rename ρ callee)

variable {k k' : Ctx} {ρ callee : String → String} {D : String → Prop} {op name : String} {e l r : Expr}
  {args : List Expr} {wl wr v : Writer Pos} {s : Pos} {n : BitVec 32}

theorem litIs_rename : litIs (e.rename ρ callee) n = litIs e n := by
  cases e <;> rfl

theorem binFold2_rename : binFold2 op (l.rename ρ callee) (r.rename ρ callee) = binFold2 op l r := by
  have hnarrow (e : Expr) : narrow (e.rename ρ callee) = narrow e := by
    cases e <;> rfl
  rw [binFold2, binFold2, hnarrow l, hnarrow r]

theorem identSide_rename : identSide op (l.rename ρ callee) (r.rename ρ callee) = identSide op l r := by
  simp only [identSide, litIs_rename]

theorem dropsCall_rename (h : callee name = "ushr" ↔ name = "ushr") :
    dropsCall (callee name) (renameArgs ρ callee args) = dropsCall name args := by
  match args with
  | [] => rfl
  | [_] => rfl
  | [_, y] =>
    change (decide (callee name = "ushr") && litIs (y.rename ρ callee) 0) = (decide (name = "ushr") && litIs y 0)
    rw [litIs_rename, decide_eq_decide.mpr h]
  | _ :: _ :: _ :: _ => rfl

/-! ## Constant operands -/

theorem identZeroSym_eq (hlit : ∀ n, litIs l n = true → ∀ s, (wl s).2 = s) :
    identZeroSym op l r wl wr s =
      if (op = "+" ∨ op = "|" ∨ op = "^") ∧ litIs l 0 then wr s
      else if (op = "+" ∨ op = "|" ∨ op = "^") ∧ litIs r 0 then wl s else ("", s) := by
  rw [identZeroSym]
  by_cases hl : (op = "+" ∨ op = "|" ∨ op = "^") ∧ litIs l 0
  · rw [if_pos hl, if_pos hl]
    split
    · rw [hlit 0 hl.2]
    · rfl
  · rw [if_neg hl, if_neg hl]

theorem identOne_eq (hlit : ∀ n, litIs l n = true → ∀ s, (wl s).2 = s) :
    identOne op l r wl wr s =
      if op = "*" ∧ litIs l 1 then wr s
      else if (op = "*" ∨ op = "/") ∧ litIs r 1 then wl s else ("", s) := by
  rw [identOne]
  by_cases hl : op = "*" ∧ litIs l 1
  · rw [if_pos hl, if_pos hl]
    split
    · rw [hlit 1 hl.2]
    · rfl
  · rw [if_neg hl, if_neg hl]

theorem ifEmpty_stop (h : wl s = v s) (hv : (v s).1 ≠ "") (wr : Writer Pos) : ifEmpty wl wr s = v s := by
  rw [ifEmpty, h]
  exact if_neg hv

theorem ifEmpty_go (h : wl s = ("", s)) (wr : Writer Pos) : ifEmpty wl wr s = wr s := by
  rw [ifEmpty, h]
  exact if_pos rfl

/-- A constant leaves an operand of an operator, or nothing. -/
theorem binIdentity_eq (hl : ∀ s, (wl s).1 ≠ "") (hr : ∀ s, (wr s).1 ≠ "")
    (hlit : ∀ n, litIs l n = true → ∀ s, (wl s).2 = s) :
    binIdentity op l r wl wr s =
      match identSide op l r with
      | none => ("", s)
      | some true => wl s
      | some false => wr s := by
  have hsym : identZeroSym op l r wl wr s = _ := identZeroSym_eq hlit
  have hone : identOne op l r wl wr s = _ := identOne_eq hlit
  rw [binIdentity, identSide]
  by_cases h1 : (op = "+" ∨ op = "|" ∨ op = "^") ∧ litIs l 0
  · rw [if_pos h1] at hsym ⊢
    exact ifEmpty_stop (ifEmpty_stop hsym (hr s) _) (hr s) _
  rw [if_neg h1] at hsym ⊢
  by_cases h2 : (op = "+" ∨ op = "|" ∨ op = "^") ∧ litIs r 0
  · rw [if_pos h2] at hsym ⊢
    exact ifEmpty_stop (ifEmpty_stop hsym (hl s) _) (hl s) _
  rw [if_neg h2] at hsym ⊢
  have hsub := ifEmpty_go hsym (identZeroRight op r wl)
  unfold identZeroRight at hsub ⊢
  by_cases h3 : (op = "-" ∨ op = "<<" ∨ op = ">>") ∧ litIs r 0
  · rw [if_pos h3] at hsub ⊢
    rw [if_pos h3]
    exact ifEmpty_stop hsub (hl s) _
  rw [if_neg h3] at hsub ⊢
  rw [if_neg h3, ifEmpty_go hsub, hone]
  by_cases h4 : op = "*" ∧ litIs l 1
  · rw [if_pos h4, if_pos h4]
  rw [if_neg h4, if_neg h4]
  by_cases h5 : (op = "*" ∨ op = "/") ∧ litIs r 1
  · rw [if_pos h5, if_pos h5]
  · rw [if_neg h5, if_neg h5]

/-- What becomes of an operator: a constant, an operand, or the pair of both. -/
theorem canonBin_eq (hl : ∀ s, (wl s).1 ≠ "") (hr : ∀ s, (wr s).1 ≠ "")
    (hlit : ∀ n, litIs l n = true → ∀ s, (wl s).2 = s) :
    canonBin k op l r wl wr =
      if k.cloose then text ("b" ++ binOp op) ++ canonPair wl wr
      else if binFold2 (binOp op) l r ≠ "" then text (binFold2 (binOp op) l r)
      else
        match identSide (binOp op) l r with
        | none => text ("b" ++ binOp op) ++ canonPair wl wr
        | some true => wl
        | some false => wr := by
  funext s
  unfold canonBin binSimplify
  by_cases hloose : k.cloose = true
  · rw [if_pos hloose, if_pos hloose]
    exact ifEmpty_go rfl _
  rw [if_neg hloose, if_neg hloose]
  by_cases hfold : binFold2 (binOp op) l r = ""
  · have hgo : ifEmpty (text (binFold2 (binOp op) l r)) (binIdentity (binOp op) l r wl wr) s = _ :=
      (ifEmpty_go (by rw [hfold]; rfl) _).trans (binIdentity_eq hl hr hlit)
    rw [if_neg fun h => h hfold]
    cases hside : identSide (binOp op) l r with
    | none =>
      rw [hside] at hgo
      exact ifEmpty_go hgo _
    | some left =>
      rw [hside] at hgo
      cases left with
      | true => exact ifEmpty_stop hgo (hl s) _
      | false => exact ifEmpty_stop hgo (hr s) _
  · rw [if_pos hfold]
    exact ifEmpty_stop (ifEmpty_stop rfl hfold _) hfold _

theorem append_left_ne {t u : String} (ht : t ≠ "") : t ++ u ≠ "" :=
  fun h => ht (String.append_eq_empty_iff.mp h).1

theorem append_ne (h : (wl s).1 ≠ "") : ((wl ++ wr : Writer Pos) s).1 ≠ "" := append_left_ne h

theorem litVal_ne {tag : String} (htag : tag ≠ "") (spell : String) : litVal k tag spell ≠ "" := by
  unfold litVal
  split
  · exact htag
  · exact append_left_ne htag

theorem canonExpr_lit (h : litIs e n = true) (s : Pos) : (canonExpr k e s).2 = s := by
  cases e with
  | int spell value wide => rfl
  | _ => cases h

mutual
/-- No expression has an empty text, so that an empty one tells that no rule was applied. -/
theorem canonExpr_ne (k : Ctx) (e : Expr) (s : Pos) : (canonExpr k e s).1 ≠ "" := by
  match e with
  | .int _ _ _ => exact litVal_ne (by decide) _
  | .float _ => exact litVal_ne (by decide) _
  | .str _ => exact litVal_ne (by decide) _
  | .fld _ => exact append_left_ne (by decide)
  | .var name =>
    rw [canonExpr, canonVar]
    split
    · exact append_ne (append_ne (show "fv(" ≠ "" by decide))
    · exact append_ne (show "v" ≠ "" by decide)
  | .imp _ =>
    rw [canonExpr, impFp]
    exact append_ne (append_ne (show "g(" ≠ "" by decide))
  | .un op e =>
    have htag : "u" ++ op ++ "(" ≠ "" := append_left_ne (append_left_ne (by decide))
    rw [canonExpr]
    exact append_ne (append_ne htag)
  | .index base key =>
    rw [canonExpr]
    exact append_ne (show "ix" ≠ "" by decide)
  | .bin op l r =>
    have htag : "b" ++ binOp op ≠ "" := append_left_ne (by decide)
    rw [canonExpr, canonBin_eq (canonExpr_ne k l) (canonExpr_ne k r) fun n h => canonExpr_lit h]
    split
    · exact append_ne htag
    · split
      · next hfold => exact hfold
      · cases identSide (binOp op) l r with
        | none => exact append_ne htag
        | some left =>
          cases left with
          | true => exact canonExpr_ne k l s
          | false => exact canonExpr_ne k r s
  | .call name args =>
    rw [canonExpr]
    by_cases hdrop : dropsCall name args = true
    · rw [if_pos hdrop]
      refine canonHead_ne k args (fun hnil => ?_) _
      rw [hnil] at hdrop
      cases hdrop
    · rw [if_neg hdrop]
      exact append_ne (append_ne (append_ne (append_ne (show "c(" ≠ "" by decide))))
  | .arr elems =>
    rw [canonExpr]
    exact append_ne (append_ne (show "ar(" ≠ "" by decide))
  | .other _ _ => exact append_left_ne (append_left_ne (append_left_ne (by decide)))
theorem canonHead_ne (k : Ctx) (es : List Expr) (hes : es ≠ []) (s : Pos) : (canonHead k es s).1 ≠ "" := by
  match es with
  | [] => exact absurd rfl hes
  | e :: _ => exact canonExpr_ne k e s
end

/-! ## Renamed walks -/

/-- What is asked of the names of an event. -/
def Fit (k k' : Ctx) (ρ callee : String → String) (D : String → Prop) : Event → Prop
  | .read name => D name ∧ k'.fnNodeOf (ρ name) < 0
  | .call name => isIdent name ∧ isIdent (callee name) ∧
      (0 ≤ k.fnNodeOf name → 0 ≤ k'.fnNodeOf (ρ name) ∧ callee name = ρ name)

/-- What is asked of a renaming as a whole. -/
structure Setting (k k' : Ctx) (ρ callee : String → String) (D : String → Prop) : Prop where
  inj : ∀ m n, D m → D n → ρ m = ρ n → m = n
  shift : ∀ n, callee n = "ushr" ↔ n = "ushr"
  loose : k'.cloose = k.cloose

theorem canonPair_alike {es fs : List Event} {wl' wr' : Writer Pos} (hl : Alike k k' ρ callee D wl wl' es)
    (hr : Alike k k' ρ callee D wr wr' fs) :
    Alike k k' ρ callee D (canonPair wl wr) (canonPair wl' wr') (es ++ fs) :=
  (((hl.pre "(").post ",").append hr).post ")"

theorem argsOrder_of_drops (h : dropsCall name args = true) : argsOrder k args = headOrder k args := by
  match args with
  | [] => cases h
  | [_] => cases h
  | [x, y] =>
    have hlit : litIs y 0 = true := (Bool.and_eq_true_iff.mp h).2
    have hnone : y.order k = [] := by
      cases y with
      | int spell value wide => rfl
      | _ => cases hlit
    rw [argsOrder, argsOrder, argsOrder, hnone, List.append_nil, List.append_nil, headOrder]
  | _ :: _ :: _ :: _ => cases h

theorem canonVar_alike (hk : Setting k k' ρ callee D)
    (h : ∀ ev ∈ (Expr.var name).order k, Fit k k' ρ callee D ev) :
    Alike k k' ρ callee D (canonVar k name) (canonVar k' (ρ name)) ((Expr.var name).order k) := by
  rw [Expr.order] at h ⊢
  rw [canonVar, canonVar]
  by_cases hfn : 0 ≤ k.fnNodeOf name
  · rw [if_pos hfn] at h ⊢
    obtain ⟨hname, hcallee, hval⟩ := h _ List.mem_cons_self
    obtain ⟨hfn', heq⟩ := hval hfn
    rw [if_pos hfn, if_pos hfn', ← heq, Writer.append_assoc, Writer.append_assoc]
    exact (Alike.fixed "fv(").append (Alike.callee_upto (c := ')') hname hcallee (by decide))
  · rw [if_neg hfn] at h ⊢
    obtain ⟨hdom, hfn'⟩ := h _ List.mem_cons_self
    rw [if_neg hfn, if_neg (by omega)]
    exact (Alike.fixed "v").append (Alike.cn hk.inj hdom)

mutual
theorem canonExpr_alike (hk : Setting k k' ρ callee D) (e : Expr)
    (h : ∀ ev ∈ e.order k, Fit k k' ρ callee D ev) :
    Alike k k' ρ callee D (canonExpr k e) (canonExpr k' (e.rename ρ callee)) (e.order k) := by
  match e with
  | .int _ _ _ | .float _ | .str _ =>
    rw [Expr.rename, canonExpr, canonExpr, litVal, litVal, hk.loose]
    exact .fixed _
  | .fld _ => exact .fixed _
  | .other _ _ => exact .fixed _
  | .imp _ => exact .impFp _
  | .var name => exact canonVar_alike hk h
  | .un op e =>
    rw [Expr.rename, canonExpr, canonExpr]
    exact ((canonExpr_alike hk e h).pre _).post ")"
  | .index base key =>
    have hbase := canonExpr_alike hk base fun ev hev => h ev (List.mem_append_left _ hev)
    have hkey := canonExpr_alike hk key fun ev hev => h ev (List.mem_append_right _ hev)
    rw [Expr.rename, canonExpr, canonExpr]
    exact (canonPair_alike hbase hkey).pre "ix"
  | .bin op l r =>
    rw [Expr.order, binOrder] at h ⊢
    rw [Expr.rename, canonExpr, canonExpr,
      canonBin_eq (canonExpr_ne k l) (canonExpr_ne k r) fun n h => canonExpr_lit h,
      canonBin_eq (canonExpr_ne k' _) (canonExpr_ne k' _) fun n h => canonExpr_lit h,
      binFold2_rename, identSide_rename, hk.loose]
    have hpair (h : ∀ ev ∈ l.order k ++ r.order k, Fit k k' ρ callee D ev) :
        Alike k k' ρ callee D (text ("b" ++ binOp op) ++ canonPair (canonExpr k l) (canonExpr k r))
          (text ("b" ++ binOp op) ++ canonPair (canonExpr k' (l.rename ρ callee))
            (canonExpr k' (r.rename ρ callee))) (l.order k ++ r.order k) :=
      (canonPair_alike (canonExpr_alike hk l fun ev hev => h ev (List.mem_append_left _ hev))
        (canonExpr_alike hk r fun ev hev => h ev (List.mem_append_right _ hev))).pre _
    by_cases hloose : k.cloose = true
    · rw [if_pos hloose] at h ⊢
      rw [if_pos hloose, if_pos hloose]
      exact hpair h
    rw [if_neg hloose] at h ⊢
    rw [if_neg hloose, if_neg hloose]
    by_cases hfold : binFold2 (binOp op) l r ≠ ""
    · rw [if_pos hfold, if_pos hfold, if_pos hfold]
      exact .fixed _
    rw [if_neg hfold] at h ⊢
    rw [if_neg hfold, if_neg hfold]
    cases hside : identSide (binOp op) l r with
    | none =>
      rw [hside] at h
      exact hpair h
    | some left =>
      rw [hside] at h
      cases left with
      | true => exact canonExpr_alike hk l h
      | false => exact canonExpr_alike hk r h
  | .call name args =>
    rw [Expr.order] at h ⊢
    rw [Expr.rename, canonExpr, canonExpr, dropsCall_rename (hk.shift name)]
    by_cases hdrop : dropsCall name args = true
    · rw [if_pos hdrop] at h ⊢
      rw [if_pos hdrop, if_pos hdrop]
      have hhead := fun ev hev => h ev (List.mem_append_right _ hev)
      exact (canonArgs_alike hk 0 args (by rwa [argsOrder_of_drops hdrop])).drop (canonHead_alike hk args hhead)
    · rw [if_neg hdrop] at h ⊢
      rw [if_neg hdrop, if_neg hdrop]
      obtain ⟨hname, hcallee, -⟩ := h _ List.mem_cons_self
      have hargs := canonArgs_alike hk 0 args fun ev hev => h ev (List.mem_cons_of_mem _ hev)
      have hcall : Alike k k' ρ callee D (canonCallee k name ++ text ":") (canonCallee k' (callee name) ++ text ":")
          [.call name] := Alike.callee_upto (c := ':') hname hcallee (by decide)
      have hall := ((hcall.pre "c(").append hargs).post ")"
      simp only [Writer.append_assoc] at hall ⊢
      exact hall
  | .arr elems =>
    rw [Expr.rename, canonExpr, canonExpr]
    exact ((canonArgs_alike hk 0 elems h).pre "ar(").post ")"
theorem canonArgs_alike (hk : Setting k k' ρ callee D) (i : Nat) (es : List Expr)
    (h : ∀ ev ∈ argsOrder k es, Fit k k' ρ callee D ev) :
    Alike k k' ρ callee D (canonArgs k i es) (canonArgs k' i (renameArgs ρ callee es)) (argsOrder k es) := by
  match es with
  | [] => exact .fixed _
  | e :: es =>
    have he := canonExpr_alike hk e fun ev hev => h ev (List.mem_append_left _ hev)
    have hes := canonArgs_alike hk (i + 1) es fun ev hev => h ev (List.mem_append_right _ hev)
    exact ((Alike.fixed _).append he).append hes
theorem canonHead_alike (hk : Setting k k' ρ callee D) (es : List Expr)
    (h : ∀ ev ∈ headOrder k es, Fit k k' ρ callee D ev) :
    Alike k k' ρ callee D (canonHead k es) (canonHead k' (renameArgs ρ callee es)) (headOrder k es) := by
  match es with
  | [] => exact .fixed _
  | e :: _ => exact canonExpr_alike hk e h
end

theorem canonRet_alike (hk : Setting k k' ρ callee D) (ret : Option Expr)
    (h : ∀ ev ∈ retOrder k ret, Fit k k' ρ callee D ev) :
    Alike k k' ρ callee D (canonRet k ret) (canonRet k' (ret.map (Expr.rename ρ callee))) (retOrder k ret) := by
  cases ret with
  | none => exact .fixed _
  | some e => exact canonExpr_alike hk e h

theorem canonJoin_cons {stmt : Stmt} {rest : List Stmt} {i : Nat} (h : stmt ≠ .blank) :
    canonJoin k i (stmt :: rest) = text (sepAt ";" i) ++ canonStmt k stmt ++ canonJoin k (i + 1) rest := by
  cases stmt with
  | blank => exact absurd rfl h
  | _ => rfl

theorem rename_ne_blank {stmt : Stmt} (h : stmt ≠ .blank) : stmt.rename ρ callee ≠ .blank := by
  cases stmt with
  | blank => exact absurd rfl h
  | _ =>
    rw [Stmt.rename]
    exact nofun

theorem canonElse3_alike {stmts : List Stmt}
    (h : Alike k k' ρ callee D wl wr (joinOrder k stmts)) :
    Alike k k' ρ callee D (canonElse3 wl stmts) (canonElse3 wr (renameStmts ρ callee stmts))
      (joinOrder k stmts) := by
  cases stmts with
  | nil => exact .fixed _
  | cons stmt rest =>
    rw [renameStmts]
    exact (h.pre "else\x7b").post "\x7d"

mutual
theorem canonStmt_alike (hk : Setting k k' ρ callee D) (stmt : Stmt)
    (h : ∀ ev ∈ stmt.order k, Fit k k' ρ callee D ev) :
    Alike k k' ρ callee D (canonStmt k stmt) (canonStmt k' (stmt.rename ρ callee)) (stmt.order k) := by
  match stmt with
  | .decl type name exported value =>
    rw [Stmt.order] at h ⊢
    have hvalue := canonExpr_alike hk value fun ev hev => h ev (List.mem_append_right _ hev)
    have hname : Alike k k' ρ callee D (declName name exported)
        (declName (if exported then name else ρ name) exported) (if exported then [] else [.read name]) := by
      cases exported with
      | true => exact .fixed name
      | false => exact .cn hk.inj (h (.read name) (List.mem_append_left _ List.mem_cons_self)).1
    rw [Stmt.rename, canonStmt, canonStmt]
    exact ((hname.pre _).post "=").append hvalue
  | .assign name value =>
    have hvalue := canonExpr_alike hk value fun ev hev => h ev (List.mem_cons_of_mem _ hev)
    have hname : Alike k k' ρ callee D (cn name) (cn (ρ name)) [.read name] :=
      .cn hk.inj (h (.read name) List.mem_cons_self).1
    rw [Stmt.rename, canonStmt, canonStmt]
    exact ((hname.pre "a:").post "=").append hvalue
  | .iassign base key value =>
    rw [Stmt.order, List.append_assoc] at h
    have hbase := canonExpr_alike hk base fun ev hev => h ev (List.mem_append_left _ hev)
    have hkey := canonExpr_alike hk key fun ev hev =>
      h ev (List.mem_append_right _ (List.mem_append_left _ hev))
    have hvalue := canonExpr_alike hk value fun ev hev =>
      h ev (List.mem_append_right _ (List.mem_append_right _ hev))
    rw [Stmt.rename, canonStmt, canonStmt]
    exact ((((hbase.pre "ia:").post "[").append hkey).post "]=").append hvalue
  | .exprstmt e => exact (canonExpr_alike hk e h).pre "e:"
  | .cond c thenl elsel elif =>
    rw [Stmt.order, List.append_assoc] at h
    have hc := canonExpr_alike hk c fun ev hev => h ev (List.mem_append_left _ hev)
    have hthen := canonJoin_alike hk 0 thenl fun ev hev =>
      h ev (List.mem_append_right _ (List.mem_append_left _ hev))
    have hrest := fun ev hev => h ev (List.mem_append_right _ (List.mem_append_right _ hev))
    have hfront := (((hc.pre "if(").post ")\x7b").append hthen).post "\x7d"
    rw [Stmt.rename, canonStmt, canonStmt, Stmt.order]
    cases elif with
    | true => exact hfront.append (canonElif_alike hk elsel hrest)
    | false => exact hfront.append (canonElse3_alike (canonJoin_alike hk 0 elsel hrest))
  | .loop c body =>
    have hc := canonExpr_alike hk c fun ev hev => h ev (List.mem_append_left _ hev)
    have hbody := canonJoin_alike hk 0 body fun ev hev => h ev (List.mem_append_right _ hev)
    rw [Stmt.rename, canonStmt, canonStmt]
    exact (((hc.pre "wh(").post ")\x7b").append hbody).post "\x7d"
  | .ret value =>
    rw [Stmt.rename, canonStmt, canonStmt]
    exact ((canonRet_alike hk value h).pre "ret(").post ")"
  | .chain | .blank | .brk | .other _ _ => exact .fixed _
theorem canonJoin_alike (hk : Setting k k' ρ callee D) (i : Nat) (stmts : List Stmt)
    (h : ∀ ev ∈ joinOrder k stmts, Fit k k' ρ callee D ev) :
    Alike k k' ρ callee D (canonJoin k i stmts) (canonJoin k' i (renameStmts ρ callee stmts))
      (joinOrder k stmts) := by
  match stmts with
  | [] => exact .fixed _
  | stmt :: rest =>
    have hrest := fun j => canonJoin_alike hk j rest fun ev hev => h ev (List.mem_append_right _ hev)
    by_cases hblank : stmt = .blank
    · subst hblank
      exact hrest i
    · have hstmt := canonStmt_alike hk stmt fun ev hev => h ev (List.mem_append_left _ hev)
      rw [renameStmts, canonJoin_cons hblank, canonJoin_cons (rename_ne_blank hblank)]
      exact (hstmt.pre _).append (hrest (i + 1))
theorem canonElif_alike (hk : Setting k k' ρ callee D) (stmts : List Stmt)
    (h : ∀ ev ∈ firstOrder k stmts, Fit k k' ρ callee D ev) :
    Alike k k' ρ callee D (canonElif k stmts) (canonElif k' (renameStmts ρ callee stmts))
      (firstOrder k stmts) := by
  match stmts with
  | [] => exact .fixed _
  | stmt :: _ => exact (canonStmt_alike hk stmt h).pre "elif"
end

end IdCompiler.Canon

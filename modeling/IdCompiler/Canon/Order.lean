import IdCompiler.Canon.Text
import Mathlib.Data.List.Nodup

/-!
# The names in the order of the walk

Which names the fingerprint of a function mentions, in the order in which the
walk meets them, and from that the names that were met before each call.
-/

namespace IdCompiler.Canon

open IdCompiler.Core IdCompiler.Core.Writer IdCompiler.Source

/-! ## Events -/

inductive Event
  /-- A variable that is declared, assigned or read. -/
  | read (name : String)
  /-- A callee, or a function that is read as a value. -/
  | call (name : String)
deriving DecidableEq

/-- The names met after an event. -/
def meet (met : List String) : Event → List String
  | .read name => if name ∈ met then met else met ++ [name]
  | .call _ => met

def meetAll (met : List String) (es : List Event) : List String := es.foldl meet met

/-- The callees, each with the names met before. -/
def calls (met : List String) : List Event → List (List String × String)
  | [] => []
  | .read name :: es => calls (meet met (.read name)) es
  | .call name :: es => (met, name) :: calls met es

/-- What is left of events whose text is dropped. -/
def reads (es : List Event) : List Event :=
  es.filter fun
    | .read _ => true
    | .call _ => false

/-! ## Orders -/

/-- The operand that a constant leaves of an operator: `true` for the left one. -/
def identSide (op : String) (l r : Expr) : Option Bool :=
  if (op = "+" ∨ op = "|" ∨ op = "^") ∧ litIs l 0 then some false
  else if (op = "+" ∨ op = "|" ∨ op = "^") ∧ litIs r 0 then some true
  else if (op = "-" ∨ op = "<<" ∨ op = ">>") ∧ litIs r 0 then some true
  else if op = "*" ∧ litIs l 1 then some false
  else if (op = "*" ∨ op = "/") ∧ litIs r 1 then some true
  else none

/-- The names below an operator, from those of its operands. -/
def binOrder (k : Ctx) (op : String) (l r : Expr) (orderL orderR : List Event) : List Event :=
  if k.cloose then orderL ++ orderR
  else if binFold2 op l r ≠ "" then []
  else
    match identSide op l r with
    | none => orderL ++ orderR
    | some true => orderL
    | some false => orderR

mutual
def Expr.order (k : Ctx) : Expr → List Event
  | .var name => if 0 ≤ k.fnNodeOf name then [.call name] else [.read name]
  | .bin op l r => binOrder k (binOp op) l r (l.order k) (r.order k)
  | .un _ e => e.order k
  | .index base key => base.order k ++ key.order k
  | .call name args =>
    if dropsCall name args then reads (argsOrder k args) ++ headOrder k args
    else .call name :: argsOrder k args
  | .arr elems => argsOrder k elems
  | .int _ _ _ | .float _ | .str _ | .imp _ | .fld _ | .other _ _ => []
def argsOrder (k : Ctx) : List Expr → List Event
  | [] => []
  | e :: es => e.order k ++ argsOrder k es
def headOrder (k : Ctx) : List Expr → List Event
  | [] => []
  | e :: _ => e.order k
end

def retOrder (k : Ctx) : Option Expr → List Event
  | none => []
  | some e => e.order k

mutual
def Stmt.order (k : Ctx) : Stmt → List Event
  | .decl _ name exported value => (if exported then [] else [.read name]) ++ value.order k
  | .assign name value => .read name :: value.order k
  | .iassign base key value => base.order k ++ key.order k ++ value.order k
  | .exprstmt e => e.order k
  | .cond c thenl elsel elif =>
    c.order k ++ joinOrder k thenl ++ if elif then firstOrder k elsel else joinOrder k elsel
  | .loop c body => c.order k ++ joinOrder k body
  | .ret value => retOrder k value
  | .chain | .blank | .brk | .other _ _ => []
def joinOrder (k : Ctx) : List Stmt → List Event
  | [] => []
  | stmt :: rest => stmt.order k ++ joinOrder k rest
def firstOrder (k : Ctx) : List Stmt → List Event
  | [] => []
  | stmt :: _ => stmt.order k
end

/-- Parameters first, then the return clause, and the body last. -/
def Func.order (k : Ctx) (f : Func) : List Event :=
  f.params.map (fun p => .read p.name) ++ retOrder k f.ret ++ joinOrder k f.body

/-! ## Names met -/

variable {met : List String} {es fs : List Event} {name m : String} {met' : List String}

theorem meetAll_append : meetAll met (es ++ fs) = meetAll (meetAll met es) fs := List.foldl_append

theorem calls_append : calls met (es ++ fs) = calls met es ++ calls (meetAll met es) fs := by
  induction es generalizing met with
  | nil => rfl
  | cons e es ih =>
    cases e with
    | read name => exact ih
    | call name => exact congrArg (fun rest => (met, name) :: rest) ih

theorem mem_meet {e : Event} (h : m ∈ meet met e) : m ∈ met ∨ e = .read m := by
  cases e with
  | call name => exact .inl h
  | read name =>
    by_cases hin : name ∈ met
    · rw [meet, if_pos hin] at h
      exact .inl h
    · rw [meet, if_neg hin] at h
      cases List.mem_append.mp h with
      | inl h => exact .inl h
      | inr h => exact .inr (by rw [List.mem_singleton.mp h])

theorem mem_meetAll (h : m ∈ meetAll met es) : m ∈ met ∨ .read m ∈ es := by
  induction es generalizing met with
  | nil => exact .inl h
  | cons e es ih =>
    cases ih h with
    | inr h => exact .inr (List.mem_cons_of_mem _ h)
    | inl h =>
      cases mem_meet h with
      | inl h => exact .inl h
      | inr h => exact .inr (by rw [h]; exact List.mem_cons_self)

/-- What was met before a call was read before. -/
theorem mem_of_calls (h : (met', name) ∈ calls met es) :
    .call name ∈ es ∧ ∀ m ∈ met', m ∈ met ∨ .read m ∈ es := by
  induction es generalizing met with
  | nil => cases h
  | cons e es ih =>
    cases e with
    | read n =>
      obtain ⟨hcall, hmet⟩ := ih h
      refine ⟨List.mem_cons_of_mem _ hcall, fun m hm => ?_⟩
      cases hmet m hm with
      | inr h => exact .inr (List.mem_cons_of_mem _ h)
      | inl h =>
        cases mem_meet h with
        | inl h => exact .inl h
        | inr h => exact .inr (by rw [h]; exact List.mem_cons_self)
    | call n =>
      cases h with
      | head => exact ⟨List.mem_cons_self, fun m hm => .inl hm⟩
      | tail _ h =>
        obtain ⟨hcall, hmet⟩ := ih h
        exact ⟨List.mem_cons_of_mem _ hcall, fun m hm => (hmet m hm).imp_right (List.mem_cons_of_mem _)⟩

theorem nodup_meet {e : Event} (h : met.Nodup) : (meet met e).Nodup := by
  cases e with
  | call name => exact h
  | read name =>
    by_cases hin : name ∈ met
    · rw [meet, if_pos hin]
      exact h
    · rw [meet, if_neg hin]
      exact List.Nodup.append h (List.nodup_singleton name) (List.disjoint_singleton.mpr hin)

theorem nodup_of_calls (hmet : met.Nodup) (h : (met', name) ∈ calls met es) : met'.Nodup := by
  induction es generalizing met with
  | nil => cases h
  | cons e es ih =>
    cases e with
    | read n => exact ih (nodup_meet hmet) h
    | call n =>
      cases h with
      | head => exact hmet
      | tail _ h => exact ih hmet h

end IdCompiler.Canon

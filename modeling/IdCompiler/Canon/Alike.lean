import IdCompiler.Canon.Order

/-!
# Walks that differ in the names only

Two walks that start with the same positions under other names end so, and what
they write is equal exactly if each callee is written alike.
-/

namespace IdCompiler.Canon

open IdCompiler.Core IdCompiler.Core.Writer IdCompiler.Source

/-! ## Names as texts -/

/-- The spelling of a name: letters, digits and underscores. -/
def isIdent (s : String) : Bool := s.toList.all fun c => c.isAlphanum || c == '_'

variable {k k' : Ctx} {ρ callee : String → String} {D : String → Prop} {names : List String} {name : String}
  {w w' v v' : Writer Pos} {es fs : List Event} {s s' : Pos}

theorem not_mem_of_isIdent {c : Char} (h : isIdent name) (hc : (c.isAlphanum || c == '_') = false) :
    c ∉ name.toList := by
  intro hin
  have hall := List.all_eq_true.mp h c hin
  rw [hc] at hall
  cases hall

theorem isIdent_append {a b : String} (ha : isIdent a) (hb : isIdent b) : isIdent (a ++ b) := by
  rw [isIdent, String.toList_append, List.all_append]
  exact Bool.and_eq_true_iff.mpr ⟨ha, hb⟩

theorem isIdent_toString (n : Nat) : isIdent (toString n) := by
  rw [isIdent, List.all_eq_true]
  intro c hc
  have hdigit : c.isDigit := by
    rw [Nat.toString_eq_ofList_toDigits, String.toList_ofList] at hc
    exact Nat.isDigit_of_mem_toDigits (by decide) (by decide) hc
  rw [Char.isAlphanum, hdigit, Bool.or_true, Bool.true_or]

theorem isIdent_calleeText (h : isIdent name) : isIdent (calleeText k names name) := by
  unfold calleeText
  split
  · exact isIdent_append (by decide) (isIdent_toString _)
  · split
    · decide
    · exact h

/-! ## Positions under other names -/

theorem findStr_map (hinj : ∀ m ∈ names, ρ m = ρ name → m = name) :
    findStr (names.map ρ) (ρ name) = findStr names name := by
  have hloop (i : Nat) (found : Int) :
      findStrLoop (names.map ρ) (ρ name) i found = findStrLoop names name i found := by
    induction i generalizing found with
    | zero => rfl
    | succ i ih =>
      have hhit : (names.map ρ)[i]? = some (ρ name) ↔ names[i]? = some name := by
        rw [List.getElem?_map]
        constructor
        · intro h
          obtain ⟨m, hm, heq⟩ := Option.map_eq_some_iff.mp h
          rw [hm, hinj m (List.mem_of_getElem? hm) heq]
        · intro h
          rw [h]
          rfl
      have hidx : matchIdx (names.map ρ) i (ρ name) found = matchIdx names i name found := if_congr hhit rfl rfl
      rw [findStrLoop, findStrLoop, hidx, ih]
  rw [findStr, findStr, List.length_map]
  exact hloop names.length (-1)

/-- The same positions, the variables having other names. -/
structure Twin (ρ : String → String) (D : String → Prop) (s s' : Pos) : Prop where
  cnames : s'.cnames = s.cnames.map ρ
  cimps : s'.cimps = s.cimps
  dom : ∀ n ∈ s.cnames, D n

/-- The callee is written alike, before and after. -/
def Same (k k' : Ctx) (ρ callee : String → String) (p : List String × String) : Prop :=
  calleeText k' (p.1.map ρ) (callee p.2) = calleeText k p.1 p.2

/-- Two walks with the given events that differ in the names only. -/
structure Alike (k k' : Ctx) (ρ callee : String → String) (D : String → Prop) (w w' : Writer Pos)
    (es : List Event) : Prop where
  met : ∀ s, (w s).2.cnames = meetAll s.cnames es
  twin : ∀ s s', Twin ρ D s s' → Twin ρ D (w s).2 (w' s').2
  text : ∀ s s', Twin ρ D s s' → Cancels (w s).1 (w' s').1 (∀ p ∈ calls s.cnames es, Same k k' ρ callee p)

theorem no_calls : True ↔ ∀ p ∈ calls names [], Same k k' ρ callee p :=
  ⟨fun _ _ hp => absurd hp List.not_mem_nil, fun _ => trivial⟩

namespace Alike

theorem fixed (t : String) : Alike k k' ρ callee D (Writer.text t) (Writer.text t) [] where
  met _ := rfl
  twin _ _ h := h
  text _ _ _ := (Cancels.refl t).congr no_calls

theorem append (hw : Alike k k' ρ callee D w w' es) (hv : Alike k k' ρ callee D v v' fs) :
    Alike k k' ρ callee D (w ++ v) (w' ++ v') (es ++ fs) where
  met s := by rw [append_snd, hv.met, hw.met, meetAll_append]
  twin s s' h := hv.twin _ _ (hw.twin s s' h)
  text s s' h := by
    refine ((hw.text s s' h).append (hv.text _ _ (hw.twin s s' h))).congr ?_
    rw [hw.met, calls_append, List.forall_mem_append]

/-- A part that is walked for its names only. -/
theorem drop (hw : Alike k k' ρ callee D w w' es) (hv : Alike k k' ρ callee D v v' fs) :
    Alike k k' ρ callee D (dropThen w v) (dropThen w' v') (reads es ++ fs) := by
  have hreads (met : List String) : meetAll met (reads es) = meetAll met es ∧ calls met (reads es) = [] := by
    clear hw
    induction es generalizing met with
    | nil => exact ⟨rfl, rfl⟩
    | cons e es ih =>
      cases e with
      | read n => exact ih _
      | call n => exact ih met
  refine ⟨fun s => ?_, fun s s' h => hv.twin _ _ (hw.twin s s' h), fun s s' h => ?_⟩
  · rw [dropThen, hv.met, hw.met, meetAll_append, (hreads _).1]
  · have htext := hv.text _ _ (hw.twin s s' h)
    rwa [calls_append, (hreads _).2, (hreads _).1, List.nil_append, ← hw.met]

theorem of_eq (h : Alike k k' ρ callee D w w' es) (heq : fs = es) : Alike k k' ρ callee D w w' fs := by
  rw [heq]
  exact h

theorem post (h : Alike k k' ρ callee D w w' es) (t : String) :
    Alike k k' ρ callee D (w ++ Writer.text t) (w' ++ Writer.text t) es :=
  (h.append (fixed t)).of_eq (List.append_nil es).symm

theorem pre (t : String) (h : Alike k k' ρ callee D w w' es) :
    Alike k k' ρ callee D (Writer.text t ++ w) (Writer.text t ++ w') es := (fixed t).append h

theorem cn (hinj : ∀ m n, D m → D n → ρ m = ρ n → m = n) (hn : D name) :
    Alike k k' ρ callee D (Canon.cn name) (Canon.cn (ρ name)) [.read name] := by
  have hfind (s s' : Pos) (h : Twin ρ D s s') : findStr s'.cnames (ρ name) = findStr s.cnames name := by
    rw [h.cnames]
    exact findStr_map fun m hm heq => hinj m name (h.dom m hm) hn heq
  have hlen (s s' : Pos) (h : Twin ρ D s s') : s'.cnames.length = s.cnames.length := by
    rw [h.cnames, List.length_map]
  refine ⟨fun s => ?_, fun s s' h => ?_, fun s s' h => ?_⟩
  · change _ = meet s.cnames (.read name)
    by_cases hin : name ∈ s.cnames
    · rw [Canon.cn, if_neg fun h => findStr_neg_iff.mp h hin, meet, if_pos hin]
    · rw [Canon.cn, if_pos (findStr_neg_iff.mpr hin), meet, if_neg hin]
  · rw [Canon.cn, Canon.cn, hfind s s' h]
    split
    · refine ⟨?_, h.cimps, fun n hmem => ?_⟩
      · change s'.cnames ++ [ρ name] = (s.cnames ++ [name]).map ρ
        rw [h.cnames, List.map_append]
        rfl
      · cases List.mem_append.mp hmem with
        | inl hmem => exact h.dom n hmem
        | inr hmem =>
          rw [List.mem_singleton.mp hmem]
          exact hn
    · exact h
  · have heq : (Canon.cn (ρ name) s').1 = (Canon.cn name s).1 := by
      rw [Canon.cn, Canon.cn, hfind s s' h, hlen s s' h]
      split <;> rfl
    rw [heq]
    have hno : True ↔ ∀ p ∈ calls (meet s.cnames (.read name)) [], Same k k' ρ callee p := no_calls
    exact (Cancels.refl _).congr hno

theorem impFp (name : String) : Alike k k' ρ callee D (Canon.impFp name) (Canon.impFp name) [] := by
  have hpos : Alike k k' ρ callee D (impPos name) (impPos name) [] := by
    refine ⟨fun s => ?_, fun s s' h => ?_, fun s s' h => ?_⟩
    · unfold impPos
      split <;> rfl
    · rw [impPos, impPos, h.cimps]
      split
      · exact ⟨h.cnames, rfl, h.dom⟩
      · exact h
    · have heq : (impPos name s').1 = (impPos name s).1 := by
        rw [impPos, impPos, h.cimps]
        split <;> rfl
      rw [heq]
      exact (Cancels.refl _).congr no_calls
  exact (hpos.pre "g(").post ")"

/-- A callee, up to what delimits it. -/
theorem callee_upto {c : Char} (hname : isIdent name) (hcallee : isIdent (callee name))
    (hc : (c.isAlphanum || c == '_') = false) :
    Alike k k' ρ callee D (canonCallee k name ++ Writer.text (String.singleton c))
      (canonCallee k' (callee name) ++ Writer.text (String.singleton c)) [.call name] := by
  refine ⟨fun s => rfl, fun s s' h => h, fun s s' h => ?_⟩
  have hs : c ∉ (calleeText k s.cnames name).toList := not_mem_of_isIdent (isIdent_calleeText hname) hc
  have ht : c ∉ (calleeText k' s'.cnames (callee name)).toList := not_mem_of_isIdent (isIdent_calleeText hcallee) hc
  refine (Cancels.upto hs ht).congr ?_
  change _ ↔ ∀ p ∈ [(s.cnames, name)], Same k k' ρ callee p
  rw [List.forall_mem_singleton, Same, h.cnames, eq_comm]

end Alike

end IdCompiler.Canon

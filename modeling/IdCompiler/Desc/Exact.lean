import IdCompiler.Desc.Calls
import IdCompiler.Desc.Tree
import Mathlib.Data.Finset.Card

/-!
# Descriptors decode to the type

The builder ends on every type, since a struct is described once inside itself,
and it appends a node for the type that it takes the type for. That is the type
itself unless a list is taken for something else.
-/

namespace IdCompiler.Desc

open IdCompiler.Core IdCompiler.Source

variable {T : Table} {taken : Ty → Bool} {t u : Ty} {name : String} {a s : List Char} {o e : Nat}
  {around : List (String × Nat)} {fuel i : Nat} {r : List Char × Stack}

theorem Table.over_fieldsOf (ht : t ∈ T.fieldsOf name) : t.Over T.names := by
  rw [Table.fieldsOf, List.getD_eq_getElem?_getD] at ht
  cases hfs : T.fields[T.names.idxOf name]? with
  | none =>
    rw [hfs] at ht
    cases ht
  | some fs =>
    rw [hfs] at ht
    exact T.fieldsOver fs (List.mem_of_getElem? hfs) t ht

/-! ## What is appended -/

/-- The two lists, outermost struct first. -/
def stackOf (around : List (String × Nat)) : Stack :=
  (around.reverse.map fun p => p.1, around.reverse.map fun p => p.2)

theorem stackOf_cons : stackOf ((name, o) :: around) =
    ((stackOf around).1 ++ [name], (stackOf around).2 ++ [o]) := by
  simp only [stackOf, List.reverse_cons, List.map_append, List.map_cons, List.map_nil]

theorem mem_of_stackOf (h : (stackOf around).1[i]? = some name) :
    (name, (stackOf around).2.getD i 0) ∈ around := by
  rw [stackOf, List.getElem?_map] at h
  obtain ⟨⟨n, N⟩, hget, rfl⟩ := Option.map_eq_some_iff.mp h
  have hsnd : (stackOf around).2.getD i 0 = N := by
    rw [stackOf, List.getD_eq_getElem?_getD, List.getElem?_map, hget]
    rfl
  rw [hsnd]
  exact List.mem_reverse.mp (List.mem_of_getElem? hget)

/-- The text that is appended to `a` describes the type, whatever follows it. -/
def Appends (T : Table) (around : List (String × Nat)) (t : Ty) (a : List Char) (r : List Char × Stack) :
    Prop :=
  ∃ w, r.1 = a ++ w ∧ ∀ q, Node T Ty.taken (a ++ w ++ q) around t a.length (a ++ w).length

theorem escDscf_appends {ts : List Ty}
    (hdsc : ∀ t ∈ ts, ∀ a r, escDsc T.structs fuel t.spell a (stackOf around) = some r →
      Appends T around t a r)
    (h : escDscf (escDsc T.structs fuel) (ts.map Ty.spell) a (stackOf around) = some r) :
    ∃ w, r.1 = a ++ w ∧ ∀ q, Fields T Ty.taken (a ++ w ++ q) around ts a.length (a ++ w).length := by
  induction ts generalizing a with
  | nil =>
    cases h
    refine ⟨[], (List.append_nil a).symm, fun q => ?_⟩
    rw [List.append_nil]
    exact .nil
  | cons t ts ih =>
    obtain ⟨⟨a', st'⟩, hfst, hrest⟩ := Option.bind_eq_some_iff.mp h
    obtain rfl : st' = stackOf around := escDsc_restores _ _ _ _ _ _ hfst
    obtain ⟨w, rfl, hnode⟩ := hdsc t List.mem_cons_self a _ hfst
    obtain ⟨w', hr, hfields⟩ := ih (fun t ht => hdsc t (List.mem_cons_of_mem _ ht)) hrest
    refine ⟨w ++ w', hr.trans (List.append_assoc a w w'), fun q => ?_⟩
    have hhead := hnode (w' ++ q)
    have htail := hfields q
    rw [← List.append_assoc] at hhead ⊢
    exact .cons hhead htail

/-- A call appends a node for the type, with references to the structs around it. -/
theorem escDsc_appends (ht : t.Over T.names)
    (h : escDsc T.structs fuel t.spell a (stackOf around) = some r) : Appends T around t a r := by
  induction fuel generalizing t a around r with
  | zero => cases h
  | succ fuel ih =>
    have hleaf (hlabel : (T.graphBy Ty.taken).label t = some .none) : Appends T around t a r := by
      rw [escDsc_leaf ht hlabel] at h
      cases h
      refine ⟨['.'], rfl, fun q => ?_⟩
      rw [List.length_append]
      exact .leaf hlabel (At.intro a ['.'] q)
    cases t with
    | str =>
      rw [Ty.spell, escDsc_str] at h
      cases h
      refine ⟨['s'], rfl, fun q => ?_⟩
      rw [List.length_append]
      exact .str (At.intro a ['s'] q)
    | word name => exact hleaf rfl
    | func sig => exact hleaf rfl
    | list u =>
      by_cases htaken : Ty.taken (.list u) = true
      · rw [escDsc_list ht htaken] at h
        obtain ⟨w, hr, hnode⟩ := ih ht.1 h
        have hcons : a ++ 'l' :: w = a ++ ['l'] ++ w := by rw [List.append_assoc]; rfl
        refine ⟨'l' :: w, hr.trans hcons.symm, fun q => ?_⟩
        have hinner := hnode q
        have hone : (a ++ ['l']).length = a.length + 1 := List.length_append
        rw [hone] at hinner
        rw [hcons]
        refine .list htaken ?_ hinner
        rw [List.append_assoc (a ++ ['l'])]
        exact At.intro a ['l'] (w ++ q)
      · exact hleaf (congrArg some (if_neg htaken))
    | struct name =>
      have hin : name ∈ T.names := ht
      by_cases hon : name ∈ (stackOf around).1
      · obtain ⟨k, -, hget, heq⟩ := escDsc_back fuel a hin hon
        rw [Ty.spell, heq] at h
        cases h
        refine ⟨'@' :: natText ((stackOf around).2.getD k 0) ++ [';'], List.append_assoc _ _ _, fun q => ?_⟩
        rw [List.length_append]
        exact .back (mem_of_stackOf hget) (At.intro a _ q)
      · rw [Ty.spell, escDsc_struct hin hon, ← stackOf_cons] at h
        obtain ⟨r', hfields, rfl⟩ := Option.map_eq_some_iff.mp h
        obtain ⟨w, hr, hnodes⟩ := escDscf_appends (fun t ht a r => ih (Table.over_fieldsOf ht)) hfields
        have hcount : a ++ 'S' :: natText (T.fieldsOf name).length ++ w =
            a ++ ('S' :: natText (T.fieldsOf name).length ++ w) := List.append_assoc _ _ _
        refine ⟨'S' :: natText (T.fieldsOf name).length ++ w, hr.trans hcount, fun q => ?_⟩
        have hinner := hnodes q
        have htwo : (a ++ 'S' :: natText (T.fieldsOf name).length).length = a.length + 2 := by
          have hlen := T.length_fieldsOf name
          rw [natText_of_lt (by omega), List.length_append]
          rfl
        rw [htwo, hcount] at hinner
        refine .struct ?_ hinner
        exact (At.intro a ('S' :: natText (T.fieldsOf name).length ++ w) q).left

/-! ## Termination -/

/-- Inside the structs of the given names, every call for the type ends, nested at most so deep. -/
def Ends (T : Table) (names : List String) (t : Ty) : Prop :=
  ∃ f, ∀ k, f ≤ k → ∀ a starts, ∃ r, escDsc T.structs k t.spell a (names, starts) = some r

theorem escDscf_ends {names : List String} {ts : List Ty} (hdsc : ∀ t ∈ ts, Ends T names t) :
    ∃ f, ∀ k, f ≤ k → ∀ a starts, ∃ r,
      escDscf (escDsc T.structs k) (ts.map Ty.spell) a (names, starts) = some r := by
  induction ts with
  | nil => exact ⟨0, fun _ _ a starts => ⟨(a, (names, starts)), rfl⟩⟩
  | cons t ts ih =>
    obtain ⟨f, hf⟩ := hdsc t List.mem_cons_self
    obtain ⟨f', hf'⟩ := ih fun t ht => hdsc t (List.mem_cons_of_mem _ ht)
    refine ⟨max f f', fun k hk a starts => ?_⟩
    obtain ⟨⟨a', st'⟩, hfst⟩ := hf k (le_trans (le_max_left f f') hk) a starts
    obtain rfl : st' = (names, starts) := escDsc_restores _ _ _ _ _ _ hfst
    obtain ⟨r, hrest⟩ := hf' k (le_trans (le_max_right f f') hk) a' starts
    exact ⟨r, Option.bind_eq_some_iff.mpr ⟨_, hfst, hrest⟩⟩

/-- A struct's fields have fewer structs left to be described than the struct. -/
theorem escDsc_ends (ht : t.Over T.names) (names : List String) : Ends T names t := by
  induction hleft : (T.names.toFinset \ names.toFinset).card using Nat.strong_induction_on
    generalizing t names with
  | _ left ih =>
    subst hleft
    have hleaf (t : Ty) (ht : t.Over T.names) (hlabel : (T.graphBy Ty.taken).label t = some .none) :
        Ends T names t := by
      refine ⟨1, fun k hk a starts => ?_⟩
      obtain ⟨k, rfl⟩ := Nat.exists_eq_succ_of_ne_zero (Nat.ne_zero_of_lt hk)
      exact ⟨_, escDsc_leaf ht hlabel⟩
    induction t with
    | str =>
      refine ⟨1, fun k hk a starts => ?_⟩
      obtain ⟨k, rfl⟩ := Nat.exists_eq_succ_of_ne_zero (Nat.ne_zero_of_lt hk)
      exact ⟨_, escDsc_str⟩
    | word name => exact hleaf _ ht rfl
    | func sig => exact hleaf _ ht rfl
    | list u ihu =>
      by_cases htaken : Ty.taken (.list u) = true
      · obtain ⟨f, hf⟩ := ihu ht.1
        refine ⟨f + 1, fun k hk a starts => ?_⟩
        obtain ⟨k, rfl⟩ := Nat.exists_eq_succ_of_ne_zero (Nat.ne_zero_of_lt hk)
        rw [escDsc_list ht htaken]
        exact hf k (Nat.le_of_succ_le_succ hk) _ starts
      · exact hleaf _ ht (congrArg some (if_neg htaken))
    | struct name =>
      have hin : name ∈ T.names := ht
      by_cases hon : name ∈ names
      · refine ⟨1, fun k hk a starts => ?_⟩
        obtain ⟨k, rfl⟩ := Nat.exists_eq_succ_of_ne_zero (Nat.ne_zero_of_lt hk)
        obtain ⟨i, -, -, heq⟩ := escDsc_back k a hin (show name ∈ (names, starts).1 from hon)
        exact ⟨_, heq⟩
      · have hfewer : (T.names.toFinset \ (names ++ [name]).toFinset).card <
            (T.names.toFinset \ names.toFinset).card := by
          apply Finset.card_lt_card
          refine ⟨fun n hn => ?_, fun hsub => ?_⟩
          · simp only [Finset.mem_sdiff, List.mem_toFinset, List.mem_append, not_or] at hn ⊢
            exact ⟨hn.1, hn.2.1⟩
          · have hmem := hsub (Finset.mem_sdiff.mpr
              ⟨List.mem_toFinset.mpr hin, fun h => hon (List.mem_toFinset.mp h)⟩)
            simp only [Finset.mem_sdiff, List.mem_toFinset, List.mem_append, List.mem_singleton, or_true,
              not_true_eq_false, and_false] at hmem
        obtain ⟨f, hf⟩ := escDscf_ends fun t (ht : t ∈ T.fieldsOf name) =>
          ih _ hfewer (Table.over_fieldsOf ht) (names ++ [name]) rfl
        refine ⟨f + 1, fun k hk a starts => ?_⟩
        obtain ⟨k, rfl⟩ := Nat.exists_eq_succ_of_ne_zero (Nat.ne_zero_of_lt hk)
        obtain ⟨r, hr⟩ := hf k (Nat.le_of_succ_le_succ hk)
          (a ++ 'S' :: natText (T.fieldsOf name).length) (starts ++ [a.length])
        rw [Ty.spell, escDsc_struct hin hon, hr]
        exact ⟨_, rfl⟩

/-! ## The tree of the type -/

theorem graphBy_true : (T.graphBy fun _ => true) = T.graph := by
  unfold Table.graphBy
  congr 1
  · funext t
    cases t <;> rfl
  · funext t i
    cases t <;> rfl

/-- Every list type that the type reaches is taken for one. -/
def Reaches (T : Table) (taken : Ty → Bool) (t : Ty) : Prop :=
  ∀ p u, T.graph.walk t p = some (.list u) → taken (.list u) = true

theorem Reaches.child (h : Reaches T taken t) (hu : T.graph.child t i = some u) : Reaches T taken u := by
  intro p v hwalk
  refine h (i :: p) v ?_
  rw [TreeGraph.walk, hu]
  exact hwalk

mutual
/-- If all list types are taken for lists, a node describes the type. -/
theorem Node.exact {around : List (String × Nat)} {t : Ty} {o e : Nat} (h : Node T taken s around t o e)
    (ht : Reaches T taken t) : Node T (fun _ => true) s around t o e := by
  match h with
  | .str hat => exact .str hat
  | .leaf hlabel hat =>
    refine .leaf ?_ hat
    cases t with
    | list u =>
      have htaken := ht [] u rfl
      change some (if taken (.list u) then Label.list else .none) = some .none at hlabel
      rw [if_pos htaken] at hlabel
      cases hlabel
    | str => cases hlabel
    | struct name => cases hlabel
    | word name => rfl
    | func sig => rfl
  | .list _ hat hnode => exact .list rfl hat (hnode.exact (ht.child (i := 0) rfl))
  | .struct hat hfields =>
    refine .struct hat (hfields.exact fun u hu => ?_)
    obtain ⟨i, hi⟩ := List.mem_iff_getElem?.mp hu
    exact ht.child (i := i) hi
  | .back hmem hat => exact .back hmem hat
theorem Fields.exact {around : List (String × Nat)} {ts : List Ty} {o e : Nat}
    (h : Fields T taken s around ts o e) (hts : ∀ t ∈ ts, Reaches T taken t) :
    Fields T (fun _ => true) s around ts o e := by
  match h with
  | .nil => exact .nil
  | .cons hnode hfields =>
    exact .cons (hnode.exact (hts _ List.mem_cons_self))
      (hfields.exact fun t ht => hts t (List.mem_cons_of_mem _ ht))
end

/-- The builder's tree is the type's exactly if it takes the lists that the type reaches for lists. -/
theorem unfold_graphBy_iff :
    (∀ p, (T.graphBy taken).unfold t p = T.graph.unfold t p) ↔ Reaches T taken t := by
  have hiff : (∀ p, (T.graphBy taken).unfold t p = T.graph.unfold t p) ↔
      ∀ p t', T.graph.walk t p = some t' → ∀ u, t' = .list u → taken t' = true :=
    TreeGraph.unfold_eq_iff (fun t hgood => ?_) fun t hbad => ?_
  · rw [hiff]
    refine ⟨fun h p u hwalk => h p _ hwalk u rfl, fun h p t hwalk u hu => ?_⟩
    rw [hu] at hwalk ⊢
    exact h p u hwalk
  · cases t with
    | list u => exact ⟨congrArg some (if_pos (hgood u rfl)), fun i => if_pos (hgood u rfl)⟩
    | str => exact ⟨rfl, fun _ => rfl⟩
    | word name => exact ⟨rfl, fun _ => rfl⟩
    | func sig => exact ⟨rfl, fun _ => rfl⟩
    | struct name => exact ⟨rfl, fun _ => rfl⟩
  · intro heq
    apply hbad
    rintro u rfl
    by_contra hno
    change some (if taken (.list u) then Label.list else .none) = some .list at heq
    rw [if_neg hno] at heq
    cases heq

/-! ## Descriptors -/

/-- The builder ends, and what it builds describes the type, as a string that is read in full, in
which references lead to the nodes of the structs they are for, and which unfolds to the tree of
the type; and every call leaves the lists as they were. -/
structure Described (T : Table) (t : Ty) : Prop where
  ends : ∃ fuel d, escDesc T.structs fuel t.spell = some d
  parses : ∀ fuel d, escDesc T.structs fuel t.spell = some d →
    Node T (fun _ => true) d [] t 0 d.length ∧ fwSkip d (d.length + 1) 0 = some d.length
  decodes : ∀ fuel d, escDesc T.structs fuel t.spell = some d →
    ∀ p, (descGraph d).unfold 0 p = T.graph.unfold t p
  restores : ∀ fuel spelling a st r, escDsc T.structs fuel spelling a st = some r → r.2 = st

theorem escDesc_node {d : List Char} (ht : t.Over T.names) (h : escDesc T.structs fuel t.spell = some d) :
    Node T Ty.taken d [] t 0 d.length := by
  obtain ⟨r, hr, rfl⟩ := Option.map_eq_some_iff.mp h
  obtain ⟨w, hw, hnode⟩ := escDsc_appends ht (show escDsc T.structs fuel t.spell [] (stackOf []) = some r from hr)
  have hall := hnode []
  rw [List.append_nil] at hall
  rw [hw]
  exact hall

theorem taken_list : Ty.taken (.list u) = !stringStartsWith (Ty.list u).spell "func" := by
  rw [Ty.taken, isListTy, Ty.spell, stringEndsWith_list, Bool.true_and]

/-- A type is described exactly if no list type that it reaches is spelled with `func` in front. -/
theorem escDesc_described_iff (ht : t.Over T.names) : Described T t ↔
    ∀ p u, T.graph.walk t p = some (.list u) → stringStartsWith (Ty.list u).spell "func" = false := by
  have hreaches : Reaches T Ty.taken t ↔
      ∀ p u, T.graph.walk t p = some (.list u) → stringStartsWith (Ty.list u).spell "func" = false := by
    simp only [Reaches, taken_list, Bool.not_eq_true']
  obtain ⟨f, hf⟩ := escDsc_ends ht []
  obtain ⟨r, hr⟩ := hf f (Nat.le_refl f) [] []
  have hends : escDesc T.structs f t.spell = some r.1 := by
    rw [escDesc, hr]
    rfl
  rw [← hreaches]
  constructor
  · intro h
    rw [← unfold_graphBy_iff]
    intro p
    rw [← h.decodes f r.1 hends p, (escDesc_node ht hends).unfold]
  · intro h
    refine ⟨⟨f, r.1, hends⟩, fun fuel d hd => ?_, fun fuel d hd p => ?_, escDsc_restores T.structs⟩
    · have hnode := escDesc_node ht hd
      exact ⟨hnode.exact h, (hnode.skip (by omega)).2⟩
    · rw [(escDesc_node ht hd).unfold, unfold_graphBy_iff.mpr h]

/-- A struct that holds a list of itself. -/
def selfTable (name : String) (hplain : name ≠ "string" ∧ stringEndsWith name "[]" = false ∧
    stringStartsWith name "func(" = false) : Table where
  names := [name]
  fields := [[.list (.struct name)]]
  length := rfl
  nodup := List.nodup_singleton name
  plain n hn := by
    rw [List.mem_singleton.mp hn]
    exact hplain
  few fs hfs := by
    rw [List.mem_singleton.mp hfs]
    exact ⟨Nat.le_refl 1, Nat.one_le_ofNat⟩
  fieldsOver fs hfs t ht := by
    rw [List.mem_singleton.mp hfs] at ht
    rw [List.mem_singleton.mp ht]
    exact ⟨List.mem_singleton.mpr rfl, fun sig h => by cases h⟩

/-- A tree is described: below it are trees and lists of trees only. -/
theorem tree_described : Described (selfTable "Tr" (by decide)) (.struct "Tr") := by
  apply (escDesc_described_iff (List.mem_singleton.mpr rfl)).mpr
  intro p u hwalk
  have hclosed : Ty.list u = .struct "Tr" ∨ Ty.list u = .list (.struct "Tr") := by
    refine TreeGraph.walk_closed (P := fun t => t = .struct "Tr" ∨ t = .list (.struct "Tr")) ?_ (.inl rfl) hwalk
    rintro _ i v (rfl | rfl) hchild
    · refine .inr (List.mem_singleton.mp (List.mem_of_getElem? (i := i) ?_))
      exact hchild
    · change (if i = 0 then some (Ty.struct "Tr") else none) = some v at hchild
      split at hchild
      · cases hchild
        exact .inl rfl
      · cases hchild
  rcases hclosed with h | h
  · cases h
  · cases h
    decide

/-- The list of a struct whose name begins with `func` is not taken for one. -/
theorem funcs_undescribed : ¬Described (selfTable "funcs" (by decide)) (.struct "funcs") := by
  intro h
  have hbuilt : escDesc (selfTable "funcs" (by decide)).structs 2 "funcs" = some ['S', '1', '.'] := by decide
  have hfield := h.decodes 2 _ hbuilt [0]
  revert hfield
  decide

end IdCompiler.Desc

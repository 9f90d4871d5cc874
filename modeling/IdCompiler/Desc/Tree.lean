import IdCompiler.Desc.Node

/-!
# The tree of a descriptor

Where a stretch describes a type, and the structs around it stand where the
back references say, the type and the stretch's offset unfold to the same tree.
-/

namespace IdCompiler.Desc

open IdCompiler.Core IdCompiler.Source

variable {T : Table} {taken : Ty → Bool} {s : List Char} {around : List (String × Nat)} {t : Ty} {ts : List Ty} {name : String}
  {o e fuel i N : Nat}

mutual
theorem Node.le_length {around : List (String × Nat)} {t : Ty} {o e : Nat} (h : Node T taken s around t o e) :
    e ≤ s.length := by
  match h with
  | .str hat => exact hat.le
  | .leaf _ hat => exact hat.le
  | .list _ _ hnode => exact hnode.le_length
  | .struct hat hfields =>
    have hlen := T.length_fieldsOf ‹String›
    rw [natText_of_lt (by omega)] at hat
    exact hfields.le_length hat.le
  | .back _ hat => exact hat.le
theorem Fields.le_length {around : List (String × Nat)} {ts : List Ty} {o e : Nat}
    (h : Fields T taken s around ts o e) (ho : o ≤ s.length) : e ≤ s.length := by
  match h with
  | .nil => exact ho
  | .cons hnode hfields => exact hfields.le_length hnode.le_length
end

/-- The runtime finds each of the nodes that stand one after the other. -/
theorem Fields.get (h : Fields T taken s around ts o e) (ho : o ≤ s.length) (hi : ts[i]? = some t) :
    ∃ o' e', fwSkipN (fwSkip s (s.length + 1)) i o = some o' ∧ Node T taken s around t o' e' := by
  induction ts generalizing o i with
  | nil => cases hi
  | cons u ts ih =>
    cases h with
    | cons hnode hfields =>
      cases i with
      | zero =>
        cases hi
        exact ⟨_, _, rfl, hnode⟩
      | succ i =>
        have hle := hnode.le_length
        have hskip := (hnode.skip (show _ ≤ s.length + 1 by omega)).2
        obtain ⟨o', e', hgo, hnode'⟩ := ih hfields hle hi
        refine ⟨o', e', ?_, hnode'⟩
        rw [fwSkipN, hskip]
        exact hgo

/-- The structs that are around stand where they are said to, each inside those after it. -/
def Placed (T : Table) (taken : Ty → Bool) (s : List Char) : List (String × Nat) → Prop
  | [] => True
  | (name, N) :: around => Placed T taken s around ∧ At s N ('S' :: natText (T.fieldsOf name).length) ∧
      ∃ e, Fields T taken s ((name, N) :: around) (T.fieldsOf name) (N + 2) e

theorem Placed.of_mem (h : Placed T taken s around) (hmem : (name, N) ∈ around) :
    ∃ inner e, Placed T taken s inner ∧ At s N ('S' :: natText (T.fieldsOf name).length) ∧
      Fields T taken s inner (T.fieldsOf name) (N + 2) e := by
  induction around with
  | nil => cases hmem
  | cons p around ih =>
    cases hmem with
    | head =>
      obtain ⟨_, hat, e, hfields⟩ := id h
      exact ⟨_, e, h, hat, hfields⟩
    | tail _ hmem => exact ih h.1 hmem

/-- An offset at which a node for the type begins, inside structs that are placed. -/
def Stands (T : Table) (taken : Ty → Bool) (s : List Char) (t : Ty) (o : Nat) : Prop :=
  ∃ around e, Node T taken s around t o e ∧ Placed T taken s around

theorem fwRef_self (ho : ld8 s o ≠ 64) : fwRef s (fuel + 1) o = some o := by
  rw [fwRef, if_neg ho]

/-- A back reference leads to the struct that it names in one step. -/
theorem fwRef_back (hback : At s o ('@' :: natText N ++ [';'])) (hN : ld8 s N = 83) :
    fwRef s (s.length + 1) o = some N := by
  have hle : o + ('@' :: natText N ++ [';']).length ≤ s.length := hback.le
  rw [List.length_append, List.length_cons, natText, List.length_map] at hle
  obtain ⟨k, hk⟩ := Nat.exists_eq_succ_of_ne_zero (show s.length ≠ 0 by omega)
  have hnum : fwNum s (s.length + 1) 0 (o + 1) = some N := by
    rw [fwNum_of_at hback.tail (fun d hd => natDigits_lt hd) (by omega), foldl_natDigits]
  have hcode : ld8 s o = 64 := hback.ld8
  rw [fwRef, if_pos hcode, hnum]
  change fwRef s s.length N = some N
  rw [hk]
  exact fwRef_self (by omega)

theorem label_of_fwRef (hn : fwRef s (s.length + 1) o = some N) : (descGraph s).label o = fwLabel s N :=
  congrArg (fun n => n.bind (fwLabel s)) hn

theorem child_of_fwRef (hn : fwRef s (s.length + 1) o = some N) : (descGraph s).child o i = fwKid s N i :=
  congrArg (fun n => n.bind fun n => fwKid s n i) hn

/-- A struct's node says how many fields it has, and below it are the nodes of the fields. -/
theorem stands_fields (hplaced : Placed T taken s around) (hat : At s N ('S' :: natText (T.fieldsOf name).length))
    (hfields : Fields T taken s around (T.fieldsOf name) (N + 2) e) :
    fwLabel s N = (T.graphBy taken).label (.struct name) ∧
      Option.Rel (Stands T taken s) ((T.graphBy taken).child (.struct name) i) (fwKid s N i) := by
  obtain ⟨hcode, hcount⟩ := count_of_at hat
  have hlabel : fwLabel s N = some (.struct (T.fieldsOf name).length) := by
    rw [fwLabel, hcode, hcount]
    rfl
  refine ⟨hlabel, ?_⟩
  have hin : N + 2 ≤ s.length := by
    have hlen := T.length_fieldsOf name
    rw [natText_of_lt (by omega)] at hat
    exact hat.le
  rw [fwKid, if_pos hcode, hcount]
  change Option.Rel (Stands T taken s) (T.fieldsOf name)[i]? _
  cases hi : (T.fieldsOf name)[i]? with
  | none =>
    rw [if_neg (Nat.not_lt_of_le (List.getElem?_eq_none_iff.mp hi))]
    exact .none
  | some t =>
    obtain ⟨hlt, -⟩ := List.getElem?_eq_some_iff.mp hi
    obtain ⟨o', e', hgo, hnode⟩ := hfields.get hin hi
    rw [if_pos hlt, hgo]
    exact .some ⟨around, e', hnode, hplaced⟩

theorem child_of_leaf (ht : (T.graphBy taken).label t = some .none) : (T.graphBy taken).child t i = none := by
  cases t with
  | list u =>
    change some (if taken (.list u) then Label.list else .none) = some .none at ht
    split at ht
    · cases ht
    · next hno => exact if_neg hno
  | struct name => cases ht
  | str => rfl
  | word name => rfl
  | func sig => rfl

/-- Types and the offsets of their nodes have the same labels and the same children. -/
theorem stands_bisim (T : Table) (taken : Ty → Bool) (s : List Char) :
    TreeGraph.Bisim (T.graphBy taken) (descGraph s) (Stands T taken s) := by
  rintro t o ⟨around, e, hnode, hplaced⟩
  cases hnode with
  | str hat =>
    have hcode : ld8 s o = 115 := hat.ld8
    have hself : fwRef s (s.length + 1) o = some o := fwRef_self (by omega)
    refine ⟨?_, fun i => ?_⟩
    · rw [label_of_fwRef hself, fwLabel, hcode]
      rfl
    · rw [child_of_fwRef hself, fwKid, hcode]
      exact .none
  | leaf ht hat =>
    have hcode : ld8 s o = 46 := hat.ld8
    have hself : fwRef s (s.length + 1) o = some o := fwRef_self (by omega)
    refine ⟨?_, fun i => ?_⟩
    · rw [label_of_fwRef hself, fwLabel, hcode]
      exact ht
    · rw [child_of_fwRef hself, fwKid, hcode, child_of_leaf ht]
      exact .none
  | @list _ u _ _ hlist hat hnode =>
    have hcode : ld8 s o = 108 := hat.ld8
    have hself : fwRef s (s.length + 1) o = some o := fwRef_self (by omega)
    refine ⟨?_, fun i => ?_⟩
    · rw [label_of_fwRef hself, fwLabel, hcode]
      exact congrArg some (if_pos hlist)
    · rw [child_of_fwRef hself, fwKid, if_neg (by omega), if_pos hcode]
      have hchild : (T.graphBy taken).child (.list u) i = if i = 0 then some u else none := if_pos hlist
      rw [hchild]
      by_cases hi : i = 0
      · rw [if_pos hi, if_pos hi]
        exact .some ⟨around, e, hnode, hplaced⟩
      · rw [if_neg hi, if_neg hi]
        exact .none
  | struct hat hfields =>
    have hcode := (count_of_at hat).1
    have hself : fwRef s (s.length + 1) o = some o := fwRef_self (by omega)
    have hinner : Placed T taken s ((_, o) :: around) := ⟨hplaced, hat, e, hfields⟩
    refine ⟨?_, fun i => ?_⟩
    · rw [label_of_fwRef hself]
      exact (stands_fields (i := 0) hinner hat hfields).1.symm
    · rw [child_of_fwRef hself]
      exact (stands_fields hinner hat hfields).2
  | back hmem hback =>
    obtain ⟨inner, e', hinner, hat, hfields⟩ := hplaced.of_mem hmem
    have hgo := fwRef_back hback (count_of_at hat).1
    refine ⟨?_, fun i => ?_⟩
    · rw [label_of_fwRef hgo]
      exact (stands_fields (i := 0) hinner hat hfields).1.symm
    · rw [child_of_fwRef hgo]
      exact (stands_fields hinner hat hfields).2

/-- A node that stands alone unfolds to its type. -/
theorem Node.unfold (h : Node T taken s [] t o e) (p : List Nat) :
    (descGraph s).unfold o p = (T.graphBy taken).unfold t p :=
  (TreeGraph.unfold_eq (stands_bisim T taken s) ⟨[], e, h, trivial⟩ p).symm

end IdCompiler.Desc

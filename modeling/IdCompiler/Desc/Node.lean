import IdCompiler.Desc.Types

/-!
# Descriptors of types

When a stretch of a string describes a type, with the structs around it and
where each began: a back reference names a struct that is around it, by the
offset of its node. Past such a stretch is where `fw_skip` goes.
-/

namespace IdCompiler.Desc

open IdCompiler.Core IdCompiler.Source

/-! ## Text at an offset -/

/-- The text `w` stands at the offset `o`. -/
def At (s : List Char) (o : Nat) (w : List Char) : Prop := w <+: s.drop o

variable {s w w' : List Char} {o o' e fuel n N i : Nat} {c : Char}

theorem At.intro (p w q : List Char) : At (p ++ w ++ q) p.length w := by
  rw [At, List.append_assoc, List.drop_left]
  exact List.prefix_append w q

theorem At.left (h : At s o (w ++ w')) : At s o w := (List.prefix_append w w').trans h

theorem At.ld8 (h : At s o (c :: w)) : ld8 s o = c.toNat := by
  obtain ⟨q, hq⟩ := h
  have hhead : s[o]? = some c := by
    rw [← List.head?_drop, ← hq]
    rfl
  rw [Desc.ld8, hhead]
  rfl

theorem At.tail (h : At s o (c :: w)) : At s (o + 1) w := by
  obtain ⟨q, hq⟩ := h
  refine ⟨q, ?_⟩
  rw [← List.tail_drop, ← hq]
  rfl

theorem At.right (h : At s o (w ++ w')) : At s (o + w.length) w' := by
  induction w generalizing o with
  | nil => exact h
  | cons c w ih =>
    have hrest := ih h.tail
    rwa [List.length_cons, ← Nat.add_assoc, Nat.add_right_comm]

theorem At.le (h : At s o (c :: w)) : o + (c :: w).length ≤ s.length := by
  have hlen := h.length_le
  rw [List.length_drop, List.length_cons] at hlen
  rw [List.length_cons]
  omega

/-! ## Numbers -/

theorem natText_of_lt (hn : n < 10) : natText n = [Nat.digitChar n] := by
  rw [natText, natDigits_of_lt hn]
  rfl

theorem fwSemi_of_at (h : At s o (w ++ ';' :: w')) (hw : ∀ c ∈ w, c.toNat ≠ 59) (hfuel : w.length < fuel) :
    fwSemi s fuel o = some (o + w.length) := by
  induction w generalizing o fuel with
  | nil =>
    obtain ⟨fuel, rfl⟩ := Nat.exists_eq_succ_of_ne_zero (Nat.ne_zero_of_lt hfuel)
    exact if_pos h.ld8
  | cons c w ih =>
    obtain ⟨fuel, rfl⟩ := Nat.exists_eq_succ_of_ne_zero (Nat.ne_zero_of_lt hfuel)
    have hne : ld8 s o ≠ 59 := by
      rw [h.ld8]
      exact hw c List.mem_cons_self
    rw [fwSemi, if_neg hne, ih h.tail (fun c hc => hw c (List.mem_cons_of_mem _ hc))
      (Nat.lt_of_succ_lt_succ hfuel), List.length_cons]
    congr 1
    omega

theorem fwNum_of_at {ds : List Nat} (h : At s o (ds.map Nat.digitChar ++ ';' :: w)) (hds : ∀ d ∈ ds, d < 10)
    (hfuel : ds.length < fuel) : fwNum s fuel n o = some (ds.foldl (fun c d => c * 10 + d) n) := by
  induction ds generalizing o fuel n with
  | nil =>
    obtain ⟨fuel, rfl⟩ := Nat.exists_eq_succ_of_ne_zero (Nat.ne_zero_of_lt hfuel)
    exact if_pos h.ld8
  | cons d ds ih =>
    obtain ⟨fuel, rfl⟩ := Nat.exists_eq_succ_of_ne_zero (Nat.ne_zero_of_lt hfuel)
    have hd := hds d List.mem_cons_self
    have hcode : ld8 s o = 48 + d := by
      rw [At.ld8 h, Nat.toNat_digitChar_of_lt_ten hd]
    have hrest := ih (n := n * 10 + d) (At.tail h) (fun d hd => hds d (List.mem_cons_of_mem _ hd))
      (Nat.lt_of_succ_lt_succ hfuel)
    rw [fwNum, if_neg (by omega), hcode, show n * 10 + (48 + d) - 48 = n * 10 + d by omega, hrest]
    rfl

/-! ## Derivations -/

mutual
/-- The stretch from `o` to `e` describes the type, inside the structs `around`. -/
inductive Node (T : Table) (taken : Ty → Bool) (s : List Char) : List (String × Nat) → Ty → Nat → Nat → Prop
  | str {around o} : At s o ['s'] → Node T taken s around .str o (o + 1)
  | leaf {around t o} : (T.graphBy taken).label t = some .none → At s o ['.'] → Node T taken s around t o (o + 1)
  | list {around u o e} : taken (.list u) = true → At s o ['l'] →
      Node T taken s around u (o + 1) e → Node T taken s around (.list u) o e
  | struct {around name o e} : At s o ('S' :: natText (T.fieldsOf name).length) →
      Fields T taken s ((name, o) :: around) (T.fieldsOf name) (o + 2) e → Node T taken s around (.struct name) o e
  | back {around name o N} : (name, N) ∈ around → At s o ('@' :: natText N ++ [';']) →
      Node T taken s around (.struct name) o (o + ('@' :: natText N ++ [';']).length)
/-- The stretch from `o` to `e` describes the types one after the other. -/
inductive Fields (T : Table) (taken : Ty → Bool) (s : List Char) : List (String × Nat) → List Ty → Nat → Nat → Prop
  | nil {around o} : Fields T taken s around [] o o
  | cons {around t ts o o' e} : Node T taken s around t o o' → Fields T taken s around ts o' e →
      Fields T taken s around (t :: ts) o e
end

variable {T : Table} {taken : Ty → Bool} {name : String}

theorem Table.length_fieldsOf (T : Table) (name : String) : (T.fieldsOf name).length ≤ 3 := by
  unfold Table.fieldsOf
  rw [List.getD_eq_getElem?_getD]
  cases h : T.fields[T.names.idxOf name]? with
  | none => exact Nat.zero_le 3
  | some fs => exact (T.few fs (List.mem_of_getElem? h)).2

/-- A struct's node has one digit for the count. -/
theorem count_of_at (h : At s o ('S' :: natText (T.fieldsOf name).length)) :
    ld8 s o = 83 ∧ ld8 s (o + 1) - 48 = (T.fieldsOf name).length := by
  have hlen := T.length_fieldsOf name
  rw [natText_of_lt (by omega)] at h
  have hcode := Nat.toNat_digitChar_of_lt_ten (n := (T.fieldsOf name).length) (by omega)
  refine ⟨h.ld8, ?_⟩
  rw [h.tail.ld8, hcode]
  omega

theorem fwSemi_of_back (h : At s o ('@' :: natText N ++ [';'])) :
    fwSemi s (s.length + 1) o = some (o + ('@' :: natText N).length) := by
  have hle : o + ('@' :: natText N ++ [';']).length ≤ s.length := h.le
  rw [List.length_append] at hle
  apply fwSemi_of_at h
  · intro c hc
    cases List.mem_cons.mp hc with
    | inl heq =>
      rw [heq]
      decide
    | inr hc =>
      obtain ⟨d, hd, rfl⟩ := List.mem_map.mp hc
      rw [Nat.toNat_digitChar_of_lt_ten (natDigits_lt hd)]
      have hlt := natDigits_lt hd
      omega
  · omega

mutual
/-- Past a node is where the runtime goes. -/
theorem Node.skip {around : List (String × Nat)} {t : Ty} {o e fuel : Nat} (h : Node T taken s around t o e)
    (hfuel : e - o ≤ fuel) : o < e ∧ fwSkip s fuel o = some e := by
  match h with
  | .str hat =>
    obtain ⟨fuel, rfl⟩ := Nat.exists_eq_succ_of_ne_zero (show fuel ≠ 0 by omega)
    have hcode : ld8 s o = 115 := hat.ld8
    rw [fwSkip, hcode]
    exact ⟨Nat.lt_succ_self o, rfl⟩
  | .leaf _ hat =>
    obtain ⟨fuel, rfl⟩ := Nat.exists_eq_succ_of_ne_zero (show fuel ≠ 0 by omega)
    have hcode : ld8 s o = 46 := hat.ld8
    rw [fwSkip, hcode]
    exact ⟨Nat.lt_succ_self o, rfl⟩
  | .list _ hat hnode =>
    have hcode : ld8 s o = 108 := hat.ld8
    obtain ⟨hlt, -⟩ := hnode.skip (Nat.le_refl _)
    obtain ⟨fuel, rfl⟩ := Nat.exists_eq_succ_of_ne_zero (show fuel ≠ 0 by omega)
    rw [fwSkip, if_pos hcode]
    exact ⟨Nat.lt_of_succ_lt hlt, (hnode.skip (by omega)).2⟩
  | .struct hat hfields =>
    obtain ⟨hcode, hcount⟩ := count_of_at hat
    obtain ⟨hle, -⟩ := hfields.skip (Nat.le_refl _)
    obtain ⟨fuel, rfl⟩ := Nat.exists_eq_succ_of_ne_zero (show fuel ≠ 0 by omega)
    rw [fwSkip, if_neg (by omega), if_pos hcode, hcount]
    exact ⟨by omega, (hfields.skip (by omega)).2⟩
  | .back (N := N) _ hat =>
    have hcode : ld8 s o = 64 := hat.ld8
    have hlen : ('@' :: natText N ++ [';']).length = ('@' :: natText N).length + 1 := List.length_append
    rw [hlen] at hfuel ⊢
    obtain ⟨fuel, rfl⟩ := Nat.exists_eq_succ_of_ne_zero (show fuel ≠ 0 by omega)
    rw [fwSkip, if_neg (by omega), if_neg (by omega), if_pos hcode, fwSemi_of_back hat]
    exact ⟨by omega, rfl⟩
theorem Fields.skip {around : List (String × Nat)} {ts : List Ty} {o e fuel : Nat}
    (h : Fields T taken s around ts o e) (hfuel : e - o ≤ fuel) :
    o ≤ e ∧ fwSkipN (fwSkip s fuel) ts.length o = some e := by
  match h with
  | .nil => exact ⟨Nat.le_refl o, rfl⟩
  | .cons hnode hfields =>
    obtain ⟨hlt, -⟩ := hnode.skip (Nat.le_refl _)
    obtain ⟨hle, -⟩ := hfields.skip (Nat.le_refl _)
    rw [List.length_cons, fwSkipN, (hnode.skip (by omega)).2]
    exact ⟨by omega, (hfields.skip (by omega)).2⟩
end

end IdCompiler.Desc

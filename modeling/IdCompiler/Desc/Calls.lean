import IdCompiler.Desc.Node

/-!
# What the builder does

One equation for each kind of type, and what every call does: it leaves the
structs being described as they were, it ends, and what it appends to the string
is a node for the type.
-/

namespace IdCompiler.Desc

open IdCompiler.Core IdCompiler.Source

variable {structs : Structs} {T : Table} {t u : Ty} {name spelling : String} {a : List Char} {st : Stack}
  {fuel : Nat} {r : List Char × Stack} {dsc : String → List Char → Stack → Option (List Char × Stack)}

/-! ## The structs being described -/

theorem escDscf_restores (hdsc : ∀ t a st r, dsc t a st = some r → r.2 = st) {ts : List String}
    (h : escDscf dsc ts a st = some r) : r.2 = st := by
  induction ts generalizing a st with
  | nil =>
    cases h
    rfl
  | cons t ts ih =>
    obtain ⟨r', hfst, hrest⟩ := Option.bind_eq_some_iff.mp h
    rw [ih hrest, hdsc _ _ _ _ hfst]

theorem escDsct2_restores (hdsc : ∀ t a st r, dsc t a st = some r → r.2 = st)
    (h : escDsct2 structs dsc spelling a st = some r) : r.2 = st := by
  unfold escDsct2 at h
  split at h
  · unfold escDsct at h
    split at h
    · obtain ⟨r', hfields, rfl⟩ := Option.map_eq_some_iff.mp h
      -- what was pushed before the fields is what is dropped after them
      rw [escDscf_restores hdsc hfields, List.dropLast_concat, List.dropLast_concat]
    · cases h
      rfl
  · cases h
    rfl

/-- Every call leaves the structs being described and where they began as they were. -/
theorem escDsc_restores (structs : Structs) (fuel : Nat) : ∀ spelling a st r,
    escDsc structs fuel spelling a st = some r → r.2 = st := by
  induction fuel with
  | zero =>
    intro spelling a st r h
    cases h
  | succ fuel ih =>
    intro spelling a st r h
    obtain ⟨r', hinner, hrest⟩ := Option.bind_eq_some_iff.mp h
    have hst := escDsct2_restores ih hinner
    split at hrest
    · cases hrest
      exact hst
    · split at hrest
      · rw [ih _ _ _ _ hrest, hst]
      · cases hrest
        exact hst

/-! ## Spellings -/

theorem stringEndsWith_list (x : String) : stringEndsWith (x ++ "[]") "[]" = true := by
  rw [stringEndsWith, String.toList_append, List.isSuffixOf_iff_suffix]
  exact List.suffix_append _ _

theorem listElem_list (x : String) : listElem (x ++ "[]") = x := by
  rw [listElem, String.toList_append, List.length_append]
  change String.ofList ((x.toList ++ "[]".toList).take (x.toList.length + 2 - 2)) = x
  rw [Nat.add_sub_cancel, List.take_left, String.ofList_toList]

theorem isListTy_of_ends (h : stringEndsWith spelling "[]" = false) : isListTy spelling = false := by
  rw [isListTy, h, Bool.false_and]

/-- A type that is neither a struct nor a string is spelled like none. -/
theorem Ty.Over.plain (ht : t.Over T.names) (hno : ∀ n, t ≠ .struct n) (hstr : t ≠ .str) :
    t.spell ∉ T.names ∧ t.spell ≠ "string" := by
  cases t with
  | str => exact absurd rfl hstr
  | struct n => exact absurd rfl (hno n)
  | word n => exact ⟨ht.2.1, ht.1⟩
  | func sig =>
    have hfunc : stringStartsWith sig "func(" = true := ht
    refine ⟨fun hin => ?_, fun heq => ?_⟩
    · have hplain := (T.plain sig hin).2.2
      rw [hfunc] at hplain
      cases hplain
    · subst heq
      revert hfunc
      decide
  | list u =>
    have hends := stringEndsWith_list u.spell
    refine ⟨fun hin => ?_, fun heq => ?_⟩
    · have hplain := (T.plain _ hin).2.1
      rw [Ty.spell, hends] at hplain
      cases hplain
    · rw [← Ty.spell, heq] at hends
      revert hends
      decide

/-- The builder takes a type for a list by its spelling. -/
def Ty.taken (t : Ty) : Bool := isListTy t.spell

theorem Ty.Over.isListTy_eq (ht : t.Over T.names) (hlabel : (T.graphBy Ty.taken).label t = some .none) :
    isListTy t.spell = false := by
  cases t with
  | str => cases hlabel
  | struct n => cases hlabel
  | word n => exact isListTy_of_ends ht.2.2
  | func sig =>
    have hfunc : "func(".toList <+: sig.toList := List.isPrefixOf_iff_prefix.mp ht
    have hstart : stringStartsWith sig "func" = true :=
      List.isPrefixOf_iff_prefix.mpr ((show "func".toList <+: "func(".toList by decide).trans hfunc)
    rw [Ty.spell, isListTy, hstart, Bool.not_true, Bool.and_false]
  | list u =>
    change some (if Ty.taken (.list u) then Label.list else .none) = some .none at hlabel
    split at hlabel
    · cases hlabel
    · next hno => exact Bool.eq_false_iff.mpr hno

/-! ## Equations -/

theorem escDsct2_of_not_mem (hout : spelling ∉ T.names) :
    escDsct2 T.structs dsc spelling a st = some (a ++ ['.'], st) := by
  have hneg := findStr_neg_iff.mpr hout
  exact if_neg (Int.not_le.mpr hneg)

theorem escDsc_str : escDsc T.structs (fuel + 1) "string" a st = some (a ++ ['s'], st) := by
  have hout : "string" ∉ T.names := fun hin => (T.plain _ hin).1 rfl
  rw [escDsc, escDsct2_of_not_mem hout]
  rfl

theorem escDsc_leaf (ht : t.Over T.names) (hlabel : (T.graphBy Ty.taken).label t = some .none) :
    escDsc T.structs (fuel + 1) t.spell a st = some (a ++ ['.'], st) := by
  obtain ⟨hout, hstr⟩ := ht.plain (fun n hn => by
    rw [hn] at hlabel
    cases hlabel) (fun hn => by
    rw [hn] at hlabel
    cases hlabel)
  rw [escDsc, escDsct2_of_not_mem hout, Option.bind_some, if_neg hstr, ht.isListTy_eq hlabel]
  rfl

theorem escDsc_list (ht : (Ty.list u).Over T.names) (htaken : (Ty.list u).taken = true) :
    escDsc T.structs (fuel + 1) (Ty.list u).spell a st = escDsc T.structs fuel u.spell (a ++ ['l']) st := by
  obtain ⟨hout, hstr⟩ := ht.plain (fun n hn => by cases hn) (fun hn => by cases hn)
  have hlist : isListTy (Ty.list u).spell = true := htaken
  rw [escDsc, escDsct2_of_not_mem hout, Option.bind_some, if_neg hstr, hlist, if_pos rfl, Ty.spell, listElem_list]

/-- A struct's description is that of its node or of a reference to it. -/
theorem escDsc_of_mem (hin : name ∈ T.names) :
    escDsc T.structs (fuel + 1) name a st = escDsct T.structs (escDsc T.structs fuel) name a st := by
  obtain ⟨hstr, hends, -⟩ := T.plain name hin
  have hpos : 0 ≤ findStr T.structs.sdname name :=
    Int.not_lt.mp fun h => findStr_neg_iff.mp h hin
  rw [escDsc, escDsct2, if_pos hpos, isListTy_of_ends hends]
  cases escDsct T.structs (escDsc T.structs fuel) name a st with
  | none => rfl
  | some r =>
    rw [Option.bind_some, if_neg hstr]
    rfl

/-- A struct that is being described is referred to by where it began. -/
theorem escDsc_back (fuel : Nat) (a : List Char) (hin : name ∈ T.names) (hon : name ∈ st.1) :
    ∃ k < st.1.length, st.1[k]? = some name ∧ escDsc T.structs (fuel + 1) name a st =
      some (a ++ '@' :: natText (st.2.getD k 0) ++ [';'], st) := by
  rcases findStr_spec st.1 name with ⟨-, hout⟩ | ⟨k, hk, hfind⟩
  · exact absurd hon hout
  · refine ⟨k, hk, (findStr_eq_nat hfind).1, ?_⟩
    have hback : escDscb name a st = a ++ '@' :: natText (st.2.getD k 0) ++ [';'] := by
      rw [escDscb, hfind, if_pos (Int.natCast_nonneg k), Int.toNat_natCast]
    rw [escDsc_of_mem hin, escDsct, hback, if_neg (by simp)]

theorem Table.sdftype_eq (hin : name ∈ T.names) :
    T.structs.sdftype.getD (findStr T.structs.sdname name).toNat [] = (T.fieldsOf name).map Ty.spell := by
  rcases findStr_spec T.names name with ⟨-, hout⟩ | ⟨k, hk, hfind⟩
  · exact absurd hin hout
  · have hget := (findStr_eq_nat hfind).1
    have hidx : T.names.idxOf name = k := by
      obtain ⟨hk, rfl⟩ := List.getElem?_eq_some_iff.mp hget
      exact List.Nodup.idxOf_getElem T.nodup k hk
    change ((T.fields.map fun fs => fs.map Ty.spell).getD (findStr T.names name).toNat []) = _
    rw [hfind, Int.toNat_natCast, Table.fieldsOf, hidx, List.getD_eq_getElem?_getD, List.getElem?_map,
      List.getD_eq_getElem?_getD]
    cases T.fields[k]? with
    | none => rfl
    | some fs => rfl

/-- Any other struct is put on the lists while its fields are described. -/
theorem escDsc_struct (hin : name ∈ T.names) (hoff : name ∉ st.1) :
    escDsc T.structs (fuel + 1) name a st =
      (escDscf (escDsc T.structs fuel) ((T.fieldsOf name).map Ty.spell)
        (a ++ 'S' :: natText (T.fieldsOf name).length) (st.1 ++ [name], st.2 ++ [a.length])).map
        fun r => (r.1, (r.2.1.dropLast, r.2.2.dropLast)) := by
  have hback : escDscb name a st = [] :=
    if_neg (Int.not_le.mpr (findStr_neg_iff.mpr hoff))
  rw [escDsc_of_mem hin, escDsct, hback, if_pos rfl, escDscs, T.sdftype_eq hin, List.length_map]

end IdCompiler.Desc

import IdCompiler.Symbols.Tables

/-!
# Lookups through the index

What the scans of a bucket find in the tables that calls leave, against the rows
that the calls added.
-/

namespace IdCompiler.Symbols

open IdCompiler.Core IdCompiler.Source

/-! ## Tables of rows -/

/-- A table holds the names of rows, and its index those that it was told of. -/
structure Holds (rows : List (String × Bool)) (names : List String) (idx : List (List Nat)) : Prop where
  names : names = rows.map Prod.fst
  indexes : Indexes nameBucket idxN rows idx

namespace Holds

variable {rows : List (String × Bool)} {names : List String} {idx : List (List Nat)} {name : String} {r : Nat}

theorem empty : Holds [] [] (List.replicate idxN []) := ⟨rfl, .empty⟩

theorem add (h : Holds rows names idx) (name : String) :
    Holds (rows ++ [(name, true)]) (names ++ [name]) (pushRow idx (nameBucket name) names.length) where
  names := by rw [List.map_append, h.names, List.map_singleton]
  indexes := by
    have hlen : names.length = rows.length := by rw [h.names, List.length_map]
    rw [pushRow, hlen]
    exact h.indexes.add name

theorem skip (h : Holds rows names idx) (name : String) : Holds (rows ++ [(name, false)]) (names ++ [name]) idx where
  names := by rw [List.map_append, h.names, List.map_singleton]
  indexes := h.indexes.skip name

theorem name_at (h : Holds rows names idx) : names[r]? = some name ↔ ∃ indexed, rows[r]? = some (name, indexed) := by
  rw [h.names, List.getElem?_map, Option.map_eq_some_iff]
  constructor
  · rintro ⟨⟨key, indexed⟩, hrow, rfl⟩
    exact ⟨indexed, hrow⟩
  · exact fun ⟨indexed, hrow⟩ => ⟨_, hrow, rfl⟩

theorem name_at_of_indexed (h : Holds rows names idx) (hall : ∀ row ∈ rows, row.2 = true) :
    names[r]? = some name ↔ rows[r]? = some (name, true) := by
  rw [h.name_at]
  constructor
  · rintro ⟨indexed, hrow⟩
    obtain rfl : indexed = true := hall _ (List.mem_of_getElem? hrow)
    exact hrow
  · exact fun hrow => ⟨true, hrow⟩

theorem key_eq (h : Holds rows names idx) (hname : names[r]? = some name) (row : String × Bool)
    (hrow : rows[r]? = some row) : row.1 = name := by
  obtain ⟨indexed, hrow'⟩ := h.name_at.mp hname
  rw [Option.some.inj (hrow.symm.trans hrow')]

/-- `find_ix` finds the last row of a name that the index has. -/
theorem findIx_isLast (h : Holds rows names idx) (name : String) :
    IsLast (fun r => rows[r]? = some (name, true)) (findIx names (idx.getD (nameBucket name) []) name) := by
  have hscan := h.indexes.scan (p := fun r => names[r]? = some name) (nameBucket_lt name) (fun r hr => h.key_eq hr)
    fun i found => rfl
  refine hscan.congr fun r => ?_
  exact ⟨fun hr => hr.1, fun hr => ⟨hr, h.name_at.mpr ⟨true, hr⟩⟩⟩

/-- `vx_scan` finds the last row of a name in a unit. -/
theorem vxScan_isLast (h : Holds rows names idx) (hall : ∀ row ∈ rows, row.2 = true) (vunit : List Int)
    (name : String) (unit : Int) :
    IsLast (fun r => names[r]? = some name ∧ vunit[r]? = some unit)
      (vxScan names vunit (idx.getD (nameBucket name) []) name unit (idx.getD (nameBucket name) []).length (-1)) := by
  have hscan := h.indexes.scan (p := fun r => names[r]? = some name ∧ vunit[r]? = some unit) (nameBucket_lt name)
    (fun r hr => h.key_eq hr.1) fun i found => rfl
  refine hscan.congr fun r => ?_
  exact ⟨fun hr => hr.2, fun hr => ⟨(h.name_at_of_indexed hall).mp hr.1, hr⟩⟩

/-- `find_vix` finds the last row of a name in a unit, or of the name alone. -/
theorem findVix_isLast (h : Holds rows names idx) (hall : ∀ row ∈ rows, row.2 = true) (vunit : List Int)
    (name : String) (unit : Int) :
    let found := findVix names vunit (idx.getD (nameBucket name) []) name unit
    ((∃ r : Nat, names[r]? = some name ∧ vunit[r]? = some unit) →
      IsLast (fun r => names[r]? = some name ∧ vunit[r]? = some unit) found) ∧
    ((¬∃ r : Nat, names[r]? = some name ∧ vunit[r]? = some unit) →
      IsLast (fun r => names[r]? = some name) found) := by
  intro found
  have hscan := h.vxScan_isLast hall vunit name unit
  constructor
  · intro hex
    have hfound := mt hscan.neg_iff.mp fun hnone => hex.elim hnone
    have heq : found = vxScan names vunit (idx.getD (nameBucket name) []) name unit
        (idx.getD (nameBucket name) []).length (-1) := if_neg hfound
    exact heq ▸ hscan
  · intro hnone
    have hfound := hscan.neg_iff.mpr fun r hr => hnone ⟨r, hr⟩
    have heq : found = findIx names (idx.getD (nameBucket name) []) name := if_pos hfound
    rw [heq]
    exact (h.findIx_isLast name).congr fun r => (h.name_at_of_indexed hall).symm

/-- `dv_count` counts over the bucket what it would over the table. -/
theorem dvCount_eq (h : Holds rows names idx) (hall : ∀ row ∈ rows, row.2 = true) (dvfunc : List String)
    (name owner : String) :
    dvCount names dvfunc (idx.getD (nameBucket name) []) name owner 0 0 =
      (List.range names.length).countP fun r => decide (names[r]? = some name ∧ dvfunc[r]? = some owner) := by
  have hlen : names.length = rows.length := by rw [h.names, List.length_map]
  rw [dvCount, List.drop_zero, h.indexes.bucket _ (nameBucket_lt name), foldl_bucketOf, hlen]
  · generalize List.range rows.length = rs
    have hsum (ok : Nat) : rs.foldl (fun ok row => ok + dvHit names dvfunc row name owner) ok =
        ok + rs.countP fun r => decide (names[r]? = some name ∧ dvfunc[r]? = some owner) := by
      induction rs generalizing ok with
      | nil => rfl
      | cons r rs ih =>
        rw [List.foldl_cons, ih, List.countP_cons, dvHit]
        by_cases hr : names[r]? = some name ∧ dvfunc[r]? = some owner
        · rw [if_pos hr, if_pos (decide_eq_true hr)]
          omega
        · rw [if_neg hr, if_neg fun h => hr (of_decide_eq_true h)]
          rfl
    rw [hsum, Nat.zero_add]
  · intro ok r hr
    have hmiss : ¬(names[r]? = some name ∧ dvfunc[r]? = some owner) := by
      intro hmatch
      exact hr (mem_bucketOf _ |>.mpr ⟨name, (h.name_at_of_indexed hall).mp hmatch.1, rfl⟩)
    rw [dvHit, if_neg hmiss, Nat.add_zero]

end Holds

theorem findStr_isLast (names : List String) (name : String) :
    IsLast (fun r => names[r]? = some name) (findStr names name) := by
  rcases findStr_spec names name with ⟨heq, hout⟩ | ⟨k, -, heq⟩
  · exact .inl ⟨heq, fun r hr => hout (List.mem_of_getElem? hr)⟩
  · obtain ⟨hk, hlast⟩ := findStr_eq_nat heq
    exact .inr ⟨k, heq, hk, hlast⟩

/-! ## The index of functions -/

/-- Every row of the name that the index does not have is followed by one that it has, or the index
has none of the rows of the name and not the last row of the table. -/
def Settled (rows : List (String × Bool)) (name : String) : Prop :=
  (∀ r : Nat, rows[r]? = some (name, false) → ∃ s, r < s ∧ rows[s]? = some (name, true)) ∨
    (name, true) ∉ rows ∧ ∃ last, rows.getLast? = some (last, false)

section Functions

variable {rows : List (String × Bool)} {t : Tables} {name : String}

/-- `fidx_synced` asks for the last row only. -/
theorem fidxSynced_iff (h : Holds rows t.fnames t.fidx) :
    t.fidxSynced ↔ ∀ row, rows.getLast? = some row → row.2 = true := by
  have hlen : t.fnames.length = rows.length := by rw [h.names, List.length_map]
  rw [Tables.fidxSynced, Tables.fidxRowIs, beq_iff_eq, hlen]
  rcases List.eq_nil_or_concat rows with rfl | ⟨front, ⟨key, indexed⟩, rfl⟩
  · have hnone : findIx t.fnames (t.fbucket (t.fnames.getLast?.getD "")) (t.fnames.getLast?.getD "") = -1 :=
      (h.findIx_isLast _).eq_neg_one fun r hr => absurd (List.mem_of_getElem? hr) List.not_mem_nil
    rw [hnone]
    exact ⟨fun _ row hrow => absurd hrow (Option.some_ne_none row).symm, fun _ => rfl⟩
  · rw [List.concat_eq_append] at h ⊢
    have hlast : t.fnames.getLast?.getD "" = key := by
      rw [h.names, List.map_append, List.map_singleton, List.getLast?_concat, Option.getD_some]
    have hrows : (front ++ [(key, indexed)]).length - 1 = ((front.length : Nat) : Int) := by
      rw [List.length_append, List.length_singleton]
      omega
    have hend : (front ++ [(key, indexed)])[front.length]? = some (key, indexed) := by
      rw [List.getElem?_append_right (Nat.le_refl _), Nat.sub_self]
      rfl
    have hfind : IsLast _ (findIx t.fnames (t.fbucket key) key) := h.findIx_isLast key
    rw [hlast, hrows, hfind.eq_iff, List.getLast?_concat, hend]
    constructor
    · rintro ⟨heq, -⟩ row hrow
      rw [← Option.some.inj hrow, Option.some.inj heq]
    · intro hindexed
      obtain rfl : indexed = true := hindexed _ rfl
      refine ⟨rfl, fun j hj hrow => ?_⟩
      have hlt := (List.getElem?_eq_some_iff.mp hrow).1
      rw [List.length_append, List.length_singleton] at hlt
      omega

/-- `fn_index` is the search of the whole table exactly for the names that are settled. -/
theorem fnIndex_eq_findStr_iff (h : Holds rows t.fnames t.fidx) (name : String) :
    t.fnIndex name = findStr t.fnames name ↔ Settled rows name := by
  have hindex : IsLast _ (findIx t.fnames (t.fbucket name) name) := h.findIx_isLast name
  have htable := findStr_isLast t.fnames name
  rw [Tables.fnIndex]
  rcases hindex with ⟨heq, hmiss⟩ | ⟨k, heq, hk, hlast⟩
  · have hout : (name, true) ∉ rows := fun hin => (List.getElem?_of_mem hin).elim hmiss
    have hneg : findIx t.fnames (t.fbucket name) name < 0 := by omega
    rw [if_pos hneg, Tables.fnMiss]
    by_cases hname : ∃ r : Nat, rows[r]? = some (name, false)
    · obtain ⟨r, hr⟩ := hname
      have hfound := mt htable.neg_iff.mp fun hnone => hnone r (h.name_at.mpr ⟨false, hr⟩)
      by_cases hsynced : t.fidxSynced
      · rw [if_pos hsynced]
        constructor
        · intro hstr
          omega
        · rintro (hall | ⟨-, last, hend⟩)
          · obtain ⟨s, -, hs⟩ := hall r hr
            exact absurd hs (hmiss s)
          · exact absurd ((fidxSynced_iff h).mp hsynced _ hend) Bool.false_ne_true
      · rw [if_neg hsynced]
        refine ⟨fun _ => .inr ⟨hout, ?_⟩, fun _ => rfl⟩
        rw [fidxSynced_iff h] at hsynced
        push Not at hsynced
        obtain ⟨⟨last, indexed⟩, hend, hindexed⟩ := hsynced
        obtain rfl : indexed = false := Bool.eq_false_iff.mpr hindexed
        exact ⟨last, hend⟩
    · have hstr : findStr t.fnames name = -1 := htable.eq_neg_one fun r hr => by
        obtain ⟨indexed, hrow⟩ := h.name_at.mp hr
        cases indexed with
        | true => exact hmiss r hrow
        | false => exact hname ⟨r, hrow⟩
      rw [hstr, ite_self]
      exact ⟨fun _ => .inl fun r hr => absurd ⟨r, hr⟩ hname, fun _ => rfl⟩
  · have hpos : ¬findIx t.fnames (t.fbucket name) name < 0 := by omega
    rw [if_neg hpos, heq, eq_comm, htable.eq_iff]
    constructor
    · rintro ⟨-, hafter⟩
      refine .inl fun r hr => ⟨k, ?_, hk⟩
      by_contra hle
      rcases Nat.lt_or_ge k r with hlt | hge
      · exact hafter r hlt (h.name_at.mpr ⟨false, hr⟩)
      · obtain rfl : r = k := by omega
        exact Bool.false_ne_true (congrArg Prod.snd (Option.some.inj (hr.symm.trans hk)))
    · rintro (hall | ⟨hout, -⟩)
      · refine ⟨h.name_at.mpr ⟨true, hk⟩, fun j hj hname => ?_⟩
        obtain ⟨indexed, hrow⟩ := h.name_at.mp hname
        cases indexed with
        | true => exact hlast j hj hrow
        | false =>
          obtain ⟨s, hjs, hs⟩ := hall j hrow
          exact hlast s (by omega) hs
      · exact absurd (List.mem_of_getElem? hk) hout

/-- A name whose rows the index has all is settled. -/
theorem settled_of_indexed (hall : ∀ row ∈ rows, row.2 = true) : Settled rows name :=
  .inl fun _ hr => absurd (hall _ (List.mem_of_getElem? hr)) Bool.false_ne_true

/-- So is every name of a table without an index. -/
theorem settled_of_plain (hall : ∀ row ∈ rows, row.2 = false) : Settled rows name := by
  rcases List.eq_nil_or_concat rows with rfl | ⟨front, ⟨last, indexed⟩, rfl⟩
  · exact settled_of_indexed fun _ hrow => absurd hrow List.not_mem_nil
  · rw [List.concat_eq_append] at hall ⊢
    obtain rfl : indexed = false := hall _ (List.mem_append_right _ List.mem_cons_self)
    refine .inr ⟨fun hin => ?_, last, List.getLast?_concat⟩
    exact Bool.false_ne_true (hall _ hin).symm

end Functions

/-! ## Runs of calls -/

/-- The tables hold the rows that calls added. -/
structure Kept (calls : List Call) (t : Tables) : Prop where
  vars : Holds (calls.filterMap Call.vrow) t.vnames t.vidx
  fns : Holds (calls.filterMap Call.frow) t.fnames t.fidx
  decls : Holds (calls.filterMap Call.drow) t.dvname t.didx

theorem Holds.same {calls : List Call} {c : Call} {row : Call → Option (String × Bool)} {names : List String}
    {idx : List (List Nat)} (h : Holds (calls.filterMap row) names idx) (hrow : row c = none) :
    Holds ((calls ++ [c]).filterMap row) names idx := by
  rw [List.filterMap_append, List.filterMap_cons_none hrow, List.filterMap_nil, List.append_nil]
  exact h

theorem Kept.call {calls : List Call} {t : Tables} (h : Kept calls t) (c : Call) :
    Kept (calls ++ [c]) (t.call c) := by
  cases c with
  | vidxAdd name =>
    refine ⟨?_, h.fns.same rfl, h.decls.same rfl⟩
    rw [List.filterMap_append]
    exact h.vars.add name
  | fidxAdd name =>
    refine ⟨h.vars.same rfl, ?_, h.decls.same rfl⟩
    rw [List.filterMap_append]
    exact h.fns.add name
  | didxAdd name =>
    refine ⟨h.vars.same rfl, h.fns.same rfl, ?_⟩
    rw [List.filterMap_append]
    exact h.decls.add name
  | pushName name =>
    refine ⟨h.vars.same rfl, ?_, h.decls.same rfl⟩
    rw [List.filterMap_append]
    exact h.fns.skip name

theorem kept_tablesOf (calls : List Call) : Kept calls (tablesOf calls) := by
  induction calls using List.reverseRecOn with
  | nil => exact ⟨.empty, .empty, .empty⟩
  | append_singleton calls c ih =>
    rw [tablesOf, List.foldl_append]
    exact ih.call c

variable (calls : List Call)

theorem vrow_indexed : ∀ row ∈ calls.filterMap Call.vrow, row.2 = true := by
  intro row hrow
  obtain ⟨c, -, hc⟩ := List.mem_filterMap.mp hrow
  cases c with
  | vidxAdd name =>
    rw [← Option.some.inj hc]
  | fidxAdd name | didxAdd name | pushName name => cases hc

theorem drow_indexed : ∀ row ∈ calls.filterMap Call.drow, row.2 = true := by
  intro row hrow
  obtain ⟨c, -, hc⟩ := List.mem_filterMap.mp hrow
  cases c with
  | didxAdd name =>
    rw [← Option.some.inj hc]
  | vidxAdd name | fidxAdd name | pushName name => cases hc

/-- The scans of a bucket answer for the whole table. -/
structure Agrees (t : Tables) (vunit : List Int) (dvfunc : List String) : Prop where
  in_unit : ∀ name unit, (∃ r : Nat, t.vnames[r]? = some name ∧ vunit[r]? = some unit) →
    IsLast (fun r => t.vnames[r]? = some name ∧ vunit[r]? = some unit)
      (findVix t.vnames vunit (t.vbucket name) name unit)
  any_unit : ∀ name unit, (¬∃ r : Nat, t.vnames[r]? = some name ∧ vunit[r]? = some unit) →
    IsLast (fun r => t.vnames[r]? = some name) (findVix t.vnames vunit (t.vbucket name) name unit)
  count : ∀ name owner, dvCount t.dvname dvfunc (t.dbucket name) name owner 0 0 =
    (List.range t.dvname.length).countP fun r => decide (t.dvname[r]? = some name ∧ dvfunc[r]? = some owner)

/-- After any calls, the scans of a bucket answer for the whole table. The search for a function does
so exactly for the names that are settled. -/
theorem tablesOf_lookups (vunit : List Int) (dvfunc : List String) :
    Agrees (tablesOf calls) vunit dvfunc ∧
      ∀ name, (tablesOf calls).fnIndex name = findStr (tablesOf calls).fnames name ↔
        Settled (calls.filterMap Call.frow) name := by
  have h : Kept calls (tablesOf calls) := kept_tablesOf calls
  refine ⟨⟨fun name unit hunit => ?_, fun name unit hnone => ?_, fun name owner => ?_⟩, fun name => ?_⟩
  · exact (h.vars.findVix_isLast (vrow_indexed calls) vunit name unit).1 hunit
  · exact (h.vars.findVix_isLast (vrow_indexed calls) vunit name unit).2 hnone
  · exact h.decls.dvCount_eq (drow_indexed calls) dvfunc name owner
  · exact fnIndex_eq_findStr_iff h.fns name

/-- A name that was pushed is missed once another is added. -/
theorem fnIndex_pushed_missed : ¬∀ calls name,
    (tablesOf calls).fnIndex name = findStr (tablesOf calls).fnames name := by
  intro h
  have heq := h [.pushName "a", .fidxAdd "b"] "a"
  revert heq
  decide

end IdCompiler.Symbols

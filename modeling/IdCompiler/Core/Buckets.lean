import Mathlib.Data.List.Range
import Mathlib.Tactic.Common

/-!
# Indexes over the rows of a table

A table grows at its end, and an index keeps, for every bucket, the numbers of
the rows whose key falls into it. Some rows may be missing from the index. A
search of one bucket is compared with the search of the whole table.
-/

namespace IdCompiler.Core

/-! ## Last rows -/

/-- The last number with a property, -1 if there is none. -/
def IsLast (p : Nat → Prop) (r : Int) : Prop :=
  (r = -1 ∧ ∀ k, ¬p k) ∨ ∃ k : Nat, r = k ∧ p k ∧ ∀ j, k < j → ¬p j

namespace IsLast

variable {p q : Nat → Prop} {r s : Int}

theorem unique (hr : IsLast p r) (hs : IsLast p s) : r = s := by
  rcases hr with ⟨rfl, hnone⟩ | ⟨k, rfl, hk, hlast⟩
  · rcases hs with ⟨rfl, -⟩ | ⟨l, -, hl, -⟩
    · rfl
    · exact absurd hl (hnone l)
  · rcases hs with ⟨-, hnone⟩ | ⟨l, rfl, hl, hlast'⟩
    · exact absurd hk (hnone k)
    · rcases Nat.lt_trichotomy k l with hlt | rfl | hgt
      · exact absurd hl (hlast l hlt)
      · rfl
      · exact absurd hk (hlast' k hgt)

theorem congr (hr : IsLast p r) (hpq : ∀ k, p k ↔ q k) : IsLast q r := by
  have heq : p = q := funext fun k => propext (hpq k)
  exact heq ▸ hr

theorem neg_iff (hr : IsLast p r) : r < 0 ↔ ∀ k, ¬p k := by
  rcases hr with ⟨rfl, hnone⟩ | ⟨k, rfl, hk, -⟩
  · exact ⟨fun _ => hnone, fun _ => by omega⟩
  · exact ⟨fun h => by omega, fun h => absurd hk (h k)⟩

theorem eq_neg_one (hr : IsLast p r) (hnone : ∀ k, ¬p k) : r = -1 := by
  rcases hr with ⟨rfl, -⟩ | ⟨k, -, hk, -⟩
  · rfl
  · exact absurd hk (hnone k)

theorem eq_iff {k : Nat} (hr : IsLast p r) : r = k ↔ p k ∧ ∀ j, k < j → ¬p j := by
  constructor
  · rintro rfl
    rcases hr with ⟨heq, -⟩ | ⟨l, heq, hl, hlast⟩
    · omega
    · obtain rfl : k = l := by omega
      exact ⟨hl, hlast⟩
  · exact fun hk => hr.unique (.inr ⟨k, rfl, hk⟩)

end IsLast

/-! ## Scans -/

/-- The rounds of a scan from the end of a bucket that stops at the row it takes. -/
def scanBack (hit : Nat → Int → Int) (bucket : List Nat) : Nat → Int → Int
  | 0, found => found
  | i + 1, found =>
    let found := hit i found
    if found = bucket.getD i 0 then found else scanBack hit bucket i found

section Scan

variable {hit : Nat → Int → Int} {bucket : List Nat} {p : Nat → Prop} [DecidablePred p]

/-- A scan that takes the rows with a property ends at the last of them. -/
theorem scanBack_take (hhit : ∀ i found, hit i found = if p (bucket.getD i 0) then ↑(bucket.getD i 0) else found)
    (hsorted : bucket.Pairwise (· < ·)) {i : Nat} (hi : i ≤ bucket.length) :
    IsLast (fun r => r ∈ bucket.take i ∧ p r) (scanBack hit bucket i (-1)) := by
  induction i with
  | zero =>
    refine .inl ⟨rfl, fun k hk => ?_⟩
    rw [List.take_zero] at hk
    exact List.not_mem_nil hk.1
  | succ i ih =>
    obtain ⟨row, hrow⟩ : ∃ row, bucket[i]? = some row := ⟨_, List.getElem?_eq_getElem hi⟩
    have hget : bucket.getD i 0 = row := by rw [List.getD_eq_getElem?_getD, hrow, Option.getD_some]
    have htake : bucket.take (i + 1) = bucket.take i ++ [row] := by
      rw [List.take_add_one, hrow, Option.toList_some]
    have hbelow (r : Nat) (hr : r ∈ bucket.take i) : r < row := by
      have hpre : (bucket.take (i + 1)).Pairwise (· < ·) := hsorted.sublist (List.take_sublist _ _)
      rw [htake, List.pairwise_append] at hpre
      exact hpre.2.2 r hr row List.mem_cons_self
    rw [scanBack, hhit, hget]
    by_cases hp : p row
    · rw [if_pos hp, if_pos rfl]
      refine .inr ⟨row, rfl, ⟨?_, hp⟩, fun j hj ⟨hin, _⟩ => ?_⟩
      · rw [htake]
        exact List.mem_append_right _ List.mem_cons_self
      · rw [htake] at hin
        rcases List.mem_append.mp hin with hin | hin
        · exact absurd (hbelow j hin) (by omega)
        · exact absurd (List.mem_singleton.mp hin) (by omega)
    · rw [if_neg hp]
      have hne : (-1 : Int) ≠ row := by omega
      rw [if_neg hne]
      refine (ih (by omega)).congr fun r => ?_
      rw [htake, List.mem_append, List.mem_singleton]
      constructor
      · exact fun ⟨hin, hr⟩ => ⟨.inl hin, hr⟩
      · rintro ⟨hin | rfl, hr⟩
        · exact ⟨hin, hr⟩
        · exact absurd hr hp

theorem scanBack_isLast (hhit : ∀ i found, hit i found = if p (bucket.getD i 0) then ↑(bucket.getD i 0) else found)
    (hsorted : bucket.Pairwise (· < ·)) :
    IsLast (fun r => r ∈ bucket ∧ p r) (scanBack hit bucket bucket.length (-1)) := by
  have h := scanBack_take hhit hsorted (Nat.le_refl bucket.length)
  rw [List.take_length] at h
  exact h

end Scan

/-! ## Buckets -/

section Buckets

variable {κ : Type*} (hash : κ → Nat) {rows : List (κ × Bool)} {b r : Nat} {key : κ}

/-- The row goes into the bucket. -/
def goesInto (b : Nat) (row : κ × Bool) : Bool := row.2 && hash row.1 == b

/-- The rows that the index holds in a bucket, of a table whose rows say if the index has them. -/
def bucketOf (rows : List (κ × Bool)) (b : Nat) : List Nat :=
  (List.range rows.length).filter fun r => rows[r]?.any (goesInto hash b)

theorem mem_bucketOf : r ∈ bucketOf hash rows b ↔ ∃ key, rows[r]? = some (key, true) ∧ hash key = b := by
  rw [bucketOf, List.mem_filter, List.mem_range, Option.any_eq_true]
  constructor
  · rintro ⟨-, ⟨key, indexed⟩, hrow, hgoes⟩
    obtain ⟨hindexed, hhash⟩ := Bool.and_eq_true_iff.mp hgoes
    obtain rfl : indexed = true := hindexed
    exact ⟨key, hrow, beq_iff_eq.mp hhash⟩
  · rintro ⟨key, hrow, hhash⟩
    refine ⟨(List.getElem?_eq_some_iff.mp hrow).1, (key, true), hrow, ?_⟩
    exact Bool.and_eq_true_iff.mpr ⟨rfl, beq_iff_eq.mpr hhash⟩

theorem bucketOf_sorted : (bucketOf hash rows b).Pairwise (· < ·) :=
  List.Pairwise.filter _ List.pairwise_lt_range

theorem bucketOf_nil : bucketOf hash [] b = [] := rfl

theorem bucketOf_append (row : κ × Bool) : bucketOf hash (rows ++ [row]) b =
    bucketOf hash rows b ++ if goesInto hash b row then [rows.length] else [] := by
  have hlen : (rows ++ [row]).length = rows.length + 1 := List.length_append
  have hlast : (rows ++ [row])[rows.length]? = some row := by
    rw [List.getElem?_append_right (Nat.le_refl _), Nat.sub_self]
    rfl
  rw [bucketOf, hlen, List.range_succ, List.filter_append]
  congr 1
  · refine List.filter_congr fun r hr => ?_
    rw [List.getElem?_append_left (List.mem_range.mp hr)]
  · rw [List.filter_cons, hlast, Option.any_some, List.filter_nil]

/-- A fold over a bucket is the fold over the table, where no other row does anything. -/
theorem foldl_bucketOf {α : Type*} (f : α → Nat → α) (a : α)
    (hskip : ∀ a r, r ∉ bucketOf hash rows b → f a r = a) :
    (bucketOf hash rows b).foldl f a = (List.range rows.length).foldl f a := by
  rw [bucketOf, List.foldl_filter]
  refine List.foldl_ext _ _ _ fun a r hr => ?_
  by_cases hany : rows[r]?.any (goesInto hash b)
  · exact if_pos hany
  · rw [if_neg hany, hskip]
    intro hin
    exact hany (List.mem_filter.mp hin).2

/-- The buckets of an index of `size` buckets hold the rows that were indexed. -/
structure Indexes (size : Nat) (rows : List (κ × Bool)) (buckets : List (List Nat)) : Prop where
  length : buckets.length = size
  bucket : ∀ b < size, buckets.getD b [] = bucketOf hash rows b

namespace Indexes

variable {hash} {size : Nat} {buckets : List (List Nat)}

theorem empty : Indexes hash size [] (List.replicate size []) where
  length := List.length_replicate
  bucket b hb := by rw [List.getD_eq_getElem?_getD, List.getElem?_replicate, if_pos hb, Option.getD_some, bucketOf_nil]

/-- Adding a row to the table and its number to the bucket of its key. -/
theorem add (h : Indexes hash size rows buckets) (key : κ) :
    Indexes hash size (rows ++ [(key, true)]) (buckets.modify (hash key) (· ++ [rows.length])) where
  length := (List.length_modify _ _ _).trans h.length
  bucket b hb := by
    have hb' : b < buckets.length := h.length.symm ▸ hb
    have hold := h.bucket b hb
    rw [List.getD_eq_getElem?_getD, List.getElem?_eq_getElem hb', Option.getD_some] at hold
    rw [List.getD_eq_getElem?_getD, List.getElem?_modify, List.getElem?_eq_getElem hb', bucketOf_append, ← hold]
    by_cases hkey : hash key = b
    · have hgoes : goesInto hash b (key, true) := beq_iff_eq.mpr hkey
      rw [if_pos hgoes, Option.map_eq_map, Option.map_some, Option.getD_some, if_pos hkey]
    · have hgoes : ¬goesInto hash b (key, true) := fun h => hkey (beq_iff_eq.mp h)
      rw [if_neg hgoes, Option.map_eq_map, Option.map_some, Option.getD_some, if_neg hkey, List.append_nil]

/-- Adding a row to the table alone. -/
theorem skip (h : Indexes hash size rows buckets) (key : κ) : Indexes hash size (rows ++ [(key, false)]) buckets where
  length := h.length
  bucket b hb := by
    have hgoes : ¬goesInto hash b (key, false) := Bool.false_ne_true
    rw [h.bucket b hb, bucketOf_append, if_neg hgoes, List.append_nil]

/-- The last row with a key and a property, found in the bucket of the key. -/
theorem scan {hit : Nat → Int → Int} {p : Nat → Prop} [DecidablePred p] (h : Indexes hash size rows buckets)
    (hkey : hash key < size) (hp : ∀ r, p r → ∀ row, rows[r]? = some row → row.1 = key)
    (hhit : ∀ i found, hit i found =
      if p ((buckets.getD (hash key) []).getD i 0) then ↑((buckets.getD (hash key) []).getD i 0) else found) :
    IsLast (fun r => rows[r]? = some (key, true) ∧ p r)
      (scanBack hit (buckets.getD (hash key) []) (buckets.getD (hash key) []).length (-1)) := by
  have hbucket := h.bucket (hash key) hkey
  rw [hbucket] at hhit ⊢
  refine (scanBack_isLast hhit (bucketOf_sorted hash)).congr fun r => ?_
  rw [mem_bucketOf]
  constructor
  · rintro ⟨⟨key', hrow, -⟩, hr⟩
    have heq : key' = key := hp r hr _ hrow
    exact ⟨heq ▸ hrow, hr⟩
  · exact fun ⟨hrow, hr⟩ => ⟨⟨key, hrow, rfl⟩, hr⟩

end Indexes

end Buckets

end IdCompiler.Core

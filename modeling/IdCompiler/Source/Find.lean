import Mathlib.Data.List.Basic

/-!
# Names in lists

The search by name that the passes share, from the end of a list of names.
-/

namespace IdCompiler.Source

/-- `match_idx`. -/
def matchIdx (names : List String) (i : Nat) (name : String) (found : Int) : Int :=
  if names[i]? = some name then i else found

/-- The rounds of `find_str` for the entries before `i`. -/
def findStrLoop (names : List String) (name : String) : Nat → Int → Int
  | 0, found => found
  | i + 1, found =>
    let found := matchIdx names i name found
    if found = i then found else findStrLoop names name i found

/-- `find_str`: the last place of a name, or -1. -/
def findStr (names : List String) (name : String) : Int :=
  findStrLoop names name names.length (-1)

variable {names : List String} {name : String}

/-- The loop ends at the last place of the name, if there is one. -/
theorem findStrLoop_spec (names : List String) (name : String) (i : Nat) :
    (findStrLoop names name i (-1) = -1 ∧ ∀ j < i, names[j]? ≠ some name) ∨
      ∃ k < i, findStrLoop names name i (-1) = k ∧ names[k]? = some name ∧
        ∀ j < i, k < j → names[j]? ≠ some name := by
  induction i with
  | zero => exact .inl ⟨rfl, fun j hj => absurd hj (Nat.not_lt_zero j)⟩
  | succ i ih =>
    rw [findStrLoop, matchIdx]
    by_cases hi : names[i]? = some name
    · rw [if_pos hi]
      refine .inr ⟨i, Nat.lt_succ_self i, ?_, hi, fun j hj hij => by omega⟩
      exact if_pos rfl
    · rw [if_neg hi]
      rw [if_neg (by omega)]
      have hlast : ∀ j < i + 1, j < i ∨ names[j]? ≠ some name := fun j hj => by
        rcases Nat.lt_or_ge j i with hlt | hge
        · exact .inl hlt
        · obtain rfl : j = i := by omega
          exact .inr hi
      rcases ih with ⟨hneg, hall⟩ | ⟨k, hk, heq, hname, hall⟩
      · exact .inl ⟨hneg, fun j hj => (hlast j hj).elim (hall j) id⟩
      · exact .inr ⟨k, by omega, heq, hname, fun j hj hkj =>
          (hlast j hj).elim (fun hlt => hall j hlt hkj) id⟩

/-- A name that is found is there, for the last time. -/
theorem findStr_eq_nat {k : Nat} (h : findStr names name = k) :
    names[k]? = some name ∧ ∀ j, k < j → names[j]? ≠ some name := by
  rcases findStrLoop_spec names name names.length with
    ⟨hneg, -⟩ | ⟨k', -, heq, hname, hall⟩
  · rw [findStr, hneg] at h
    omega
  · rw [findStr, heq] at h
    obtain rfl : k' = k := by omega
    refine ⟨hname, fun j hj => ?_⟩
    by_cases hlen : j < names.length
    · exact hall j hlen hj
    · rw [List.getElem?_eq_none (by omega)]
      exact (Option.some_ne_none name).symm

/-- Either the name is not there, or its last place is found. -/
theorem findStr_spec (names : List String) (name : String) :
    (findStr names name = -1 ∧ name ∉ names) ∨
    ∃ k < names.length, findStr names name = (k : Nat) := by
  rcases findStrLoop_spec names name names.length with
    ⟨hneg, hall⟩ | ⟨k, hk, heq, -, -⟩
  · refine .inl ⟨hneg, fun hin => ?_⟩
    obtain ⟨j, hj, hname⟩ := List.getElem_of_mem hin
    exact hall j hj (List.getElem?_eq_some_iff.mpr ⟨hj, hname⟩)
  · exact .inr ⟨k, hk, heq⟩

theorem findStr_neg_iff : findStr names name < 0 ↔ name ∉ names := by
  rcases findStr_spec names name with ⟨hneg, hout⟩ | ⟨k, hk, heq⟩
  · exact ⟨fun _ => hout, fun _ => by omega⟩
  · have hin := List.mem_of_getElem? (findStr_eq_nat heq).1
    exact ⟨fun h => by omega, fun h => absurd hin h⟩

end IdCompiler.Source

import IdCompiler.Digest.Graph
import Mathlib.Algebra.BigOperators.Group.Finset.Basic
import Mathlib.Data.Fintype.Basic

/-!
# Sealing a component

What the marking loop and the sealing loop leave behind, read off the stack:
the members are the rows from the root up, the hash is two sums over them, and
the dirt is the bits of their classes and of the components they reach.
-/

namespace IdCompiler.Digest

open Finset

variable {n : Nat}

/-- Marking from the top of `v :: mid` numbers exactly those rows and answers `v`'s place. -/
theorem dgMark_spec (v : Fin n) (c : Int) (old mid rest : List (Fin n)) (s : Walk n)
    (hstk : s.stk = old ++ v :: (mid ++ rest)) (hv : v ∉ mid) :
    dgMark v c (old.length + mid.length) s =
      ({ s with
          comp := fun u => if u ∈ v :: mid then c else s.comp u
          on := fun u => if u ∈ v :: mid then 0 else s.on u }, old.length) := by
  induction mid using List.reverseRecOn generalizing rest s with
  | nil =>
    have hget : s.stk[old.length]? = some v := by rw [hstk]; simp
    unfold dgMark
    simp only [List.length_nil, Nat.add_zero, hget, ite_true]
    congr 1
    simp only [dgOwnComp, List.mem_singleton, Walk.mk.injEq, true_and, and_true]
    constructor <;> (funext u; by_cases hu : u = v <;> simp [hu])
  | append_singleton mid m ih =>
    have hm : m ≠ v := fun h => hv (by simp [h])
    have hv' : v ∉ mid := fun h => hv (by simp [h])
    have hget : s.stk[old.length + (mid ++ [m]).length]? = some m := by
      rw [hstk, List.getElem?_append_right (by simp)]
      simp
    have hlen : old.length + (mid ++ [m]).length = (old.length + mid.length) + 1 := by
      simp; omega
    unfold dgMark
    rw [hlen] at hget ⊢
    simp only [hget, hm, ite_false]
    rw [ih (m :: rest) (dgOwnComp m c s) (by simp [dgOwnComp, hstk]) hv']
    congr 1
    simp only [dgOwnComp, Walk.mk.injEq, true_and, and_true]
    constructor <;>
      (funext u; by_cases hum : u = m <;> by_cases huv : u = v <;> by_cases hud : u ∈ mid <;>
        simp_all)

/-- What an edge adds to the sum of the components reached. -/
def edgeHash (comp : Fin n → Int) (deep : List Word) (c : Int) (w : Fin n) : Word :=
  if comp w = c then 0 else dgMix (deep.getD (comp w).toNat 0) 13

/-- The hash of component `c`: its members' own hashes and the hashes of the components
its edges leave for. -/
def compHash (g : Rows n) (comp : Fin n → Int) (deep : List Word) (c : Int) : Word :=
  dgMix (∑ u with comp u = c, dgMix (g.own u) 7)
    (∑ u with comp u = c, ((g.out u).map (edgeHash comp deep c)).sum)

/-- One member's edges, when each names a numbered row. -/
theorem dgSealOut_fold (s : Walk n) (ws : List (Fin n)) (a : Acc)
    (hw : ∀ w ∈ ws, 0 ≤ s.comp w ∧ s.comp w ≤ s.deep.length) :
    (ws.foldl (dgSealEdge s) a).own = a.own ∧
    (ws.foldl (dgSealEdge s) a).out =
      a.out + (ws.map (edgeHash s.comp s.deep s.deep.length)).sum ∧
    ∀ b, (ws.foldl (dgSealEdge s) a).bad.testBit b = true ↔ a.bad.testBit b = true ∨
      ∃ w ∈ ws, s.comp w < s.deep.length ∧
        (s.dirty.getD (s.comp w).toNat 0).testBit b = true := by
  induction ws generalizing a with
  | nil => simp
  | cons w ws ih =>
    have hrest := ih (dgSealEdge s a w) fun x hx => hw x (List.mem_cons_of_mem _ hx)
    obtain ⟨h0, hle⟩ := hw w (List.mem_cons_self ..)
    have hneg : ¬ s.comp w < 0 := by omega
    obtain ⟨hown, hout, hbad⟩ := hrest
    simp only [List.foldl_cons, List.map_cons, List.sum_cons]
    by_cases hlt : s.comp w < s.deep.length
    · have hne : s.comp w ≠ s.deep.length := by omega
      simp only [dgSealEdge, hneg, hlt, ite_false, ite_true] at hown hout hbad ⊢
      refine ⟨hown, ?_, fun b => ?_⟩
      · rw [hout, edgeHash, if_neg hne, add_assoc]
      · rw [hbad b, Nat.testBit_or, Bool.or_eq_true]
        constructor
        · rintro ((h | h) | ⟨x, hx, h⟩)
          · exact Or.inl h
          · exact Or.inr ⟨w, List.mem_cons_self .., hlt, h⟩
          · exact Or.inr ⟨x, List.mem_cons_of_mem _ hx, h⟩
        · rintro (h | ⟨x, hx, h⟩)
          · exact Or.inl (Or.inl h)
          · rcases List.mem_cons.mp hx with rfl | hx
            · exact Or.inl (Or.inr h.2)
            · exact Or.inr ⟨x, hx, h⟩
    · have heq : s.comp w = s.deep.length := by omega
      simp only [dgSealEdge, hneg, hlt, ite_false] at hown hout hbad ⊢
      refine ⟨hown, ?_, fun b => ?_⟩
      · rw [hout, edgeHash, if_pos heq, zero_add]
      · rw [hbad b]
        constructor
        · rintro (h | ⟨x, hx, h⟩)
          · exact Or.inl h
          · exact Or.inr ⟨x, List.mem_cons_of_mem _ hx, h⟩
        · rintro (h | ⟨x, hx, h⟩)
          · exact Or.inl h
          · rcases List.mem_cons.mp hx with rfl | hx
            · exact absurd h.1 hlt
            · exact Or.inr ⟨x, hx, h⟩

/-- The members' sums and dirt, when every edge of a member names a numbered row. -/
theorem dgSealOne_fold (g : Rows n) (s : Walk n) (ms : List (Fin n)) (a : Acc)
    (hw : ∀ m ∈ ms, ∀ w ∈ g.out m, 0 ≤ s.comp w ∧ s.comp w ≤ s.deep.length) :
    (ms.foldl (dgSealOne g s) a).own = a.own + (ms.map fun m => dgMix (g.own m) 7).sum ∧
    (ms.foldl (dgSealOne g s) a).out = a.out +
      (ms.map fun m => ((g.out m).map (edgeHash s.comp s.deep s.deep.length)).sum).sum ∧
    ∀ b, (ms.foldl (dgSealOne g s) a).bad.testBit b = true ↔ a.bad.testBit b = true ∨
      ∃ m ∈ ms, (g.nat m).testBit b = true ∨ ∃ w ∈ g.out m, s.comp w < s.deep.length ∧
        (s.dirty.getD (s.comp w).toNat 0).testBit b = true := by
  induction ms generalizing a with
  | nil => simp
  | cons m ms ih =>
    obtain ⟨hown, hout, hbad⟩ :=
      ih (dgSealOne g s a m) fun x hx => hw x (List.mem_cons_of_mem _ hx)
    obtain ⟨eown, eout, ebad⟩ := dgSealOut_fold s (g.out m)
      { a with own := a.own + dgMix (g.own m) 7, bad := a.bad ||| g.nat m }
      (hw m (List.mem_cons_self ..))
    simp only [List.foldl_cons, List.map_cons, List.sum_cons]
    refine ⟨?_, ?_, fun b => ?_⟩
    · rw [hown, dgSealOne, dgSealOut, eown, add_assoc]
    · rw [hout, dgSealOne, dgSealOut, eout, add_assoc]
    · rw [hbad b, dgSealOne, dgSealOut, ebad b, Nat.testBit_or, Bool.or_eq_true]
      constructor
      · rintro (((h | h) | h) | ⟨x, hx, h⟩)
        · exact Or.inl h
        · exact Or.inr ⟨m, List.mem_cons_self .., Or.inl h⟩
        · exact Or.inr ⟨m, List.mem_cons_self .., Or.inr h⟩
        · exact Or.inr ⟨x, List.mem_cons_of_mem _ hx, h⟩
      · rintro (h | ⟨x, hx, h⟩)
        · exact Or.inl (Or.inl (Or.inl h))
        · rcases List.mem_cons.mp hx with rfl | hx
          · rcases h with h | h
            · exact Or.inl (Or.inl (Or.inr h))
            · exact Or.inl (Or.inr h)
          · exact Or.inr ⟨x, hx, h⟩

/-- What completing the component of `v` leaves, its members being `v :: new`. -/
structure Popped (g : Rows n) (v : Fin n) (old new : List (Fin n)) (t t' : Walk n) : Prop where
  ix : t'.ix = t.ix
  low : t'.low = t.low
  next : t'.next = t.next
  stk : t'.stk = old
  ncomp : t'.ncomp = t.ncomp + 1
  comp : ∀ u, t'.comp u = if u ∈ v :: new then t.ncomp else t.comp u
  on : ∀ u, t'.on u = if u ∈ v :: new then 0 else t.on u
  deep : t'.deep = t.deep ++ [compHash g t'.comp t.deep t.deep.length]
  dirty : ∃ d, t'.dirty = t.dirty ++ [d] ∧ ∀ b, d.testBit b = true ↔
    ∃ m ∈ v :: new, (g.nat m).testBit b = true ∨ ∃ w ∈ g.out m, t'.comp w < t.deep.length ∧
      (t.dirty.getD (t'.comp w).toNat 0).testBit b = true

/-- A sum over a repeat-free list of exactly the rows of a component is the sum over it. -/
theorem sum_members {ms : List (Fin n)} (hnd : ms.Nodup) (comp : Fin n → Int) (c : Int)
    (hms : ∀ u, u ∈ ms ↔ comp u = c) (f : Fin n → Word) :
    (ms.map f).sum = ∑ u with comp u = c, f u := by
  rw [← List.sum_toFinset f hnd]
  refine Finset.sum_congr ?_ fun _ _ => rfl
  ext u
  simp [hms]

/-- Completing a component reads its members off the stack. -/
theorem dgPop_spec (g : Rows n) (v : Fin n) (t : Walk n) (old new : List (Fin n))
    (hstk : t.stk = old ++ v :: new) (hnd : (v :: new).Nodup)
    (hlen : t.ncomp = t.deep.length)
    (hcomp : ∀ u, u ∉ v :: new → t.comp u < t.ncomp)
    (hout : ∀ m ∈ v :: new, ∀ w ∈ g.out m, w ∈ v :: new ∨ 0 ≤ t.comp w) :
    Popped g v old new t (dgPop g v t) := by
  have hv : v ∉ new := (List.nodup_cons.mp hnd).1
  have hpos : t.stk.length - 1 = old.length + new.length := by rw [hstk]; simp
  have hmark := dgMark_spec v t.ncomp old new [] { t with ncomp := t.ncomp + 1 }
    (by simp [hstk]) hv
  set s : Walk n :=
    { t with
      ncomp := t.ncomp + 1
      comp := fun u => if u ∈ v :: new then t.ncomp else t.comp u
      on := fun u => if u ∈ v :: new then 0 else t.on u } with hs
  have hdrop : s.stk.drop old.length = v :: new := by simp [hs, hstk]
  have hmem : ∀ u, u ∈ v :: new ↔ s.comp u = s.deep.length := by
    intro u
    by_cases hu : u ∈ v :: new
    · simp only [hs, hu, ite_true, hlen]
    · have := hcomp u hu
      simp only [hs, hu, ite_false, false_iff]
      omega
  have hw : ∀ m ∈ v :: new, ∀ w ∈ g.out m, 0 ≤ s.comp w ∧ s.comp w ≤ s.deep.length := by
    intro m hm w hwm
    by_cases hwn : w ∈ v :: new
    · have := (hmem w).mp hwn
      omega
    · have h0 := (hout m hm w hwm).resolve_left hwn
      have h1 := hcomp w hwn
      simp only [hs, hwn, ite_false]
      omega
  obtain ⟨hown, hsum, hbad⟩ := dgSealOne_fold g s (v :: new) ⟨0, 0, 0⟩ hw
  have hpop : dgPop g v t =
      { s with
        stk := old
        deep := s.deep ++ [dgMix (dgSealRun g s old.length).own (dgSealRun g s old.length).out]
        dirty := s.dirty ++ [(dgSealRun g s old.length).bad] } := by
    simp only [dgPop, hpos]
    rw [hmark]
    simp [dgSeal, hs, hstk]
  rw [hpop]
  refine ⟨rfl, rfl, rfl, rfl, rfl, fun u => rfl, fun u => rfl, ?_, ?_⟩
  · simp only [dgSealRun, hdrop, hown, hsum, zero_add]
    rw [sum_members hnd s.comp s.deep.length hmem, sum_members hnd s.comp s.deep.length hmem]
    rfl
  · refine ⟨_, rfl, fun b => ?_⟩
    simp only [dgSealRun, hdrop]
    rw [hbad b]
    simp [hs]

end IdCompiler.Digest

import Mathlib.Data.List.Basic

/-!
# Dominators

The paths of a graph from its root, and the nodes that every path to a node goes
through. Nothing here names a program.
-/

namespace IdCompiler.Core

variable {α : Type*} {next : α → α → Prop} {root a b c : α} {l l' : List α}

/-- A path from the root: the nodes on it, the last one first. -/
inductive Path (next : α → α → Prop) (root : α) : List α → α → Prop
  | start : Path next root [root] root
  | step {l : List α} {a b : α} (h : Path next root l a) (hab : next a b) : Path next root (b :: l) b

/-- Some path goes there. -/
def Reached (next : α → α → Prop) (root b : α) : Prop := ∃ l, Path next root l b

/-- Every path to `b` goes through `a`. -/
def Dom (next : α → α → Prop) (root a b : α) : Prop := ∀ l, Path next root l b → a ∈ l

namespace Path

theorem head (h : Path next root l b) : l.head? = some b := by
  cases h with
  | start => rfl
  | step _ _ => rfl

/-- The way to a node on the path. -/
theorem before (h : Path next root l b) (ha : a ∈ l) : ∃ l', Path next root l' a ∧ l' <:+ l := by
  induction h with
  | start =>
    obtain rfl := List.mem_singleton.mp ha
    exact ⟨[a], .start, List.suffix_rfl⟩
  | @step l c b hl hcb ih =>
    rcases List.mem_cons.mp ha with rfl | ha
    · exact ⟨a :: l, hl.step hcb, List.suffix_rfl⟩
    · obtain ⟨l', hl', hsuffix⟩ := ih ha
      exact ⟨l', hl', hsuffix.trans (List.suffix_cons b l)⟩

theorem length_lt (h : Path next root l b) (h' : Path next root l' a) (hsuffix : l' <:+ l) (hne : a ≠ b) :
    l'.length < l.length := by
  refine Nat.lt_of_le_of_ne hsuffix.length_le fun heq => hne ?_
  obtain rfl := hsuffix.eq_of_length heq
  exact Option.some.inj (h'.head.symm.trans h.head)

/-- The last edge of the way to where a path is at a node for the first time. -/
theorem arrival (h : Path next root l b) (hb : b ≠ root) :
    ∃ l' q, Path next root l' q ∧ next q b ∧ b ∉ l' ∧ l' ⊆ l := by
  induction hn : l.length using Nat.strongRecOn generalizing l with
  | ind n ih =>
    cases h with
    | start => exact absurd rfl hb
    | @step l q b hl hqb =>
      by_cases hin : b ∈ l
      · obtain ⟨l', hl', hsuffix⟩ := hl.before hin
        have hlt : l'.length < n := by
          rw [← hn, List.length_cons]
          exact Nat.lt_succ_of_le hsuffix.length_le
        obtain ⟨l₁, q₁, hl₁, hq₁, hnot, hsub⟩ := ih l'.length hlt hl' rfl
        exact ⟨l₁, q₁, hl₁, hq₁, hnot, fun x hx => List.mem_cons_of_mem b (hsuffix.subset (hsub hx))⟩
      · exact ⟨l, q, hl, hqb, hin, List.subset_cons_self b l⟩

end Path

theorem Reached.start : Reached next root root := ⟨[root], .start⟩

theorem Reached.step (h : Reached next root a) (hab : next a b) : Reached next root b := by
  obtain ⟨l, hl⟩ := h
  exact ⟨b :: l, hl.step hab⟩

namespace Dom

/-- Every path starts at the root. -/
theorem of_root : Dom next root root b := by
  intro l hl
  induction hl with
  | start => exact List.mem_singleton_self _
  | step _ _ ih => exact List.mem_cons_of_mem _ ih

theorem refl : Dom next root b b := fun _ hl => List.mem_of_mem_head? hl.head

theorem trans (hab : Dom next root a b) (hbc : Dom next root b c) : Dom next root a c := by
  intro l hl
  obtain ⟨l', hl', hsuffix⟩ := hl.before (hbc l hl)
  exact hsuffix.subset (hab l' hl')

/-- What dominates a node that is reached is reached. -/
theorem reached (h : Dom next root a b) (hb : Reached next root b) : Reached next root a := by
  obtain ⟨l, hl⟩ := hb
  obtain ⟨l', hl', -⟩ := hl.before (h l hl)
  exact ⟨l', hl'⟩

theorem antisymm (hab : Dom next root a b) (hba : Dom next root b a) (hb : Reached next root b) : a = b := by
  by_contra hne
  obtain ⟨l, hl⟩ := hb
  induction hn : l.length using Nat.strongRecOn generalizing l with
  | ind n ih =>
    -- The way to `a` goes through `b` once more, and is shorter.
    obtain ⟨l₁, hl₁, hsuffix₁⟩ := hl.before (hab l hl)
    obtain ⟨l₂, hl₂, hsuffix₂⟩ := hl₁.before (hba l₁ hl₁)
    have hlt := hl.length_lt hl₁ hsuffix₁ hne
    have hle := hsuffix₂.length_le
    exact ih l₂.length (by omega) l₂ hl₂ rfl

/-- A dominator of a node dominates the nodes before it, unless it is the node. -/
theorem of_next (hac : Dom next root a c) (hbc : next b c) (hne : a ≠ c) : Dom next root a b := by
  intro l hl
  exact (List.mem_cons.mp (hac (c :: l) (hl.step hbc))).resolve_left hne

/-- What dominates every node before `b` that `b` does not dominate itself dominates `b`. -/
theorem of_entries (hb : b ≠ root)
    (h : ∀ q, next q b → Reached next root q → Dom next root a q ∨ Dom next root b q) : Dom next root a b := by
  intro l hl
  obtain ⟨l', q, hl', hqb, hnot, hsub⟩ := hl.arrival hb
  cases h q hqb ⟨l', hl'⟩ with
  | inl haq => exact hsub (haq l' hl')
  | inr hbq => exact absurd (hbq l' hl') hnot

end Dom

/-- A node that dominates every node before it is not reached. -/
theorem not_reached_of_entries (hb : b ≠ root)
    (h : ∀ q, next q b → Reached next root q → Dom next root b q) : ¬Reached next root b := by
  rintro ⟨l, hl⟩
  obtain ⟨l', q, hl', hqb, hnot, -⟩ := hl.arrival hb
  exact hnot (h q hqb ⟨l', hl'⟩ l' hl')

/-- Nothing but the root itself dominates it. -/
theorem Dom.eq_root (h : Dom next root a root) : a = root := List.mem_singleton.mp (h [root] .start)

end IdCompiler.Core

import Mathlib.Data.List.Basic
import Mathlib.Data.String.Basic

/-!
# Texts written one after the other

A walk over a state that writes a text, and when two texts that are written side
by side are equal: what cancels at the front of two texts cancels whatever
follows, so that the texts are equal exactly if all their parts are. Nothing
here names a program.
-/

namespace IdCompiler.Core

/-- A walk over a state that writes a text. -/
def Writer (σ : Type*) := σ → String × σ

namespace Writer

variable {σ : Type*} {s : σ}

/-- A fixed text. -/
def text (t : String) : Writer σ := fun s => (t, s)

/-- One walk after the other. -/
instance : Append (Writer σ) where
  append w v := fun s => ((w s).1 ++ (v (w s).2).1, (v (w s).2).2)

/-- The second walk after the first one, the text of which is dropped. -/
def dropThen (w v : Writer σ) : Writer σ := fun s => v (w s).2

theorem append_fst (w v : Writer σ) (s : σ) : ((w ++ v) s).1 = (w s).1 ++ (v (w s).2).1 := rfl

theorem append_snd (w v : Writer σ) (s : σ) : ((w ++ v) s).2 = (v (w s).2).2 := rfl

theorem append_assoc (w v u : Writer σ) : w ++ v ++ u = w ++ (v ++ u) := by
  funext s
  exact Prod.ext String.append_assoc rfl

end Writer

/-- Two lists begin alike up to the first place of what neither beginning holds. -/
theorem upto_inj {α : Type*} {c : α} {a b u v : List α} (ha : c ∉ a) (hb : c ∉ b)
    (h : a ++ c :: u = b ++ c :: v) : a = b ∧ u = v := by
  induction a generalizing b with
  | nil =>
    cases b with
    | nil => exact ⟨rfl, (List.cons.inj h).2⟩
    | cons y b => exact absurd (List.mem_cons.mpr (.inl (List.cons.inj h).1)) hb
  | cons x a ih =>
    cases b with
    | nil => exact absurd (List.mem_cons.mpr (.inl (List.cons.inj h).1.symm)) ha
    | cons y b =>
      obtain ⟨hhead, htail⟩ := List.cons.inj h
      obtain ⟨hab, huv⟩ := ih (fun hx => ha (List.mem_cons_of_mem _ hx))
        (fun hy => hb (List.mem_cons_of_mem _ hy)) htail
      exact ⟨by rw [hhead, hab], huv⟩

variable {s t u v : String} {p q : Prop}

/-- Two texts are equal exactly if `q` holds, whatever is behind them. -/
def Cancels (s t : String) (q : Prop) : Prop := (q → s = t) ∧ ∀ u v, s ++ u = t ++ v → q ∧ u = v

namespace Cancels

theorem refl (s : String) : Cancels s s True :=
  ⟨fun _ => rfl, fun _ _ h => ⟨trivial, (String.append_right_inj s).mp h⟩⟩

theorem append (h : Cancels s t p) (h' : Cancels u v q) : Cancels (s ++ u) (t ++ v) (p ∧ q) := by
  refine ⟨fun hpq => by rw [h.1 hpq.1, h'.1 hpq.2], fun x y heq => ?_⟩
  rw [String.append_assoc, String.append_assoc] at heq
  obtain ⟨hp, hrest⟩ := h.2 _ _ heq
  obtain ⟨hq, hxy⟩ := h'.2 _ _ hrest
  exact ⟨⟨hp, hq⟩, hxy⟩

theorem congr (h : Cancels s t p) (hpq : p ↔ q) : Cancels s t q :=
  ⟨fun hq => h.1 (hpq.mpr hq), fun u v heq => ⟨hpq.mp (h.2 u v heq).1, (h.2 u v heq).2⟩⟩

theorem eq_iff (h : Cancels s t p) : s = t ↔ p :=
  ⟨fun heq => (h.2 "" "" (congrArg (fun x => x ++ "") heq)).1, h.1⟩

/-- Texts that end where a delimiter comes that neither holds are equal or tell the two apart. -/
theorem upto {c : Char} (hs : c ∉ s.toList) (ht : c ∉ t.toList) :
    Cancels (s ++ String.singleton c) (t ++ String.singleton c) (s = t) := by
  refine ⟨fun heq => by rw [heq], fun u v heq => ?_⟩
  have hlist := congrArg String.toList heq
  simp only [String.toList_append, String.toList_singleton, List.append_assoc, List.singleton_append] at hlist
  obtain ⟨hst, huv⟩ := upto_inj hs ht hlist
  exact ⟨String.toList_inj.mp hst, String.toList_inj.mp huv⟩

end Cancels

end IdCompiler.Core

import IdCompiler.Literal.Pieces
import IdCompiler.Lexer.Strlit

/-!
# The printed literals

What the loops of both targets print, as the pieces of the literal one after the other.
-/

namespace IdCompiler.Literal

open IdCompiler.Source IdCompiler.Lexer

variable {s t : Text} {i : Nat} {ps : List Piece}

/-- A string literal as the lexer cuts it: from a quote to the quote that `str_end` finds. -/
structure Lexed (s : Text) : Prop where
  opens : characterCodeAt s 0 = 34
  closes : characterCodeAt s (strEnd s 1) = 34
  ends : strEnd s 1 + 1 = s.length
  /-- Bytes that are not NUL. -/
  codes : ∀ c ∈ s, 1 ≤ c ∧ c ≤ 255

/-! ## Falling into pieces -/

/-- The longest piece in front of a text that does not start with a quote and does not end with
its first backslash. -/
theorem first_piece {c : Nat} (hc : c ≠ 34) (hlast : c = 92 → t ≠ []) :
    ∃ (p : Piece) (u : Text), c :: t = p.text ++ u ∧ p.Ok u := by
  by_cases hslash : c = 92
  swap
  · exact ⟨.plain c, t, rfl, hslash, hc⟩
  subst hslash
  obtain ⟨d, t, rfl⟩ := List.exists_cons_of_ne_nil (hlast rfl)
  by_cases hd : IsOctal d
  · match t with
    | [] => exact ⟨.octal [d], [], rfl, by simp, by simp, by simpa using hd, .inr (by simp)⟩
    | e :: t =>
      by_cases he : IsOctal e
      swap
      · exact ⟨.octal [d], e :: t, rfl, by simp, by simp, by simpa using hd, .inr (by simpa using he)⟩
      match t with
      | [] =>
        exact ⟨.octal [d, e], [], rfl, by simp, by simp, by simpa using ⟨hd, he⟩, .inr (by simp)⟩
      | f :: t =>
        by_cases hf : IsOctal f
        · exact ⟨.octal [d, e, f], t, rfl, by simp, by simp, by simpa using ⟨hd, he, hf⟩, .inl rfl⟩
        · exact ⟨.octal [d, e], f :: t, rfl, by simp, by simp, by simpa using ⟨hd, he⟩,
            .inr (by simpa using hf)⟩
  · by_cases hx : d = 120 ∧ TwoHex t
    · obtain ⟨rfl, htwo⟩ := hx
      match t, htwo with
      | h :: l :: t, htwo => exact ⟨.hex h l, t, rfl, htwo⟩
    · exact ⟨.pair d, t, rfl, hd, hx⟩

/-- What the scan of `str_end` goes over: pairs after a backslash, other characters, a quote. -/
inductive Body : Text → Prop
  | close : Body [34]
  | plain {c : Nat} {t : Text} : c ≠ 92 → c ≠ 34 → Body t → Body (c :: t)
  | pair {c : Nat} {t : Text} : Body t → Body (92 :: c :: t)

theorem Body.tail {c : Nat} (h : Body (c :: t)) (hc : c ≠ 92) (hq : c ≠ 34) : Body t := by
  cases h with
  | close => exact absurd rfl hq
  | plain _ _ h => exact h
  | pair h => exact absurd rfl hc

theorem Body.after {c : Nat} (h : Body (92 :: c :: t)) : Body t := by
  cases h with
  | plain hc _ _ => exact absurd rfl hc
  | pair h => exact h

theorem Body.not_nil (h : Body t) : t ≠ [] := by
  cases h <;> simp

/-- What comes after a piece is again what the scan goes over. -/
theorem Body.drop_piece {p : Piece} (h : Body (p.text ++ t)) (hp : p.Ok t) : Body t := by
  have hoct : ∀ c, IsOctal c → c ≠ 92 ∧ c ≠ 34 := fun c hc => by
    unfold IsOctal at hc
    omega
  cases p with
  | plain c => exact h.tail hp.1 hp.2
  | hex a b =>
    have ha := hexDigit_bounds hp.1
    have hb := hexDigit_bounds hp.2
    exact (h.after.tail (by omega) (by omega)).tail (by omega) (by omega)
  | octal ds =>
    obtain ⟨a, rfl, -⟩ | ⟨a, b, rfl, -, hb, -⟩ | ⟨a, b, c, rfl, -, hb, hc⟩ := octal_shape hp
    · exact h.after
    · exact h.after.tail (hoct b hb).1 (hoct b hb).2
    · exact (h.after.tail (hoct b hb).1 (hoct b hb).2).tail (hoct c hc).1 (hoct c hc).2
  | pair c => exact h.after

theorem Piece.text_pos (p : Piece) : 0 < p.text.length := by
  cases p <;> simp [Piece.text]

/-- A scanned text falls into pieces. -/
theorem Body.pieces (h : Body t) : ∃ ps, Pieces ps t := by
  obtain ⟨n, hn⟩ : ∃ n, t.length = n := ⟨_, rfl⟩
  induction n using Nat.strongRecOn generalizing t with
  | ind n ih =>
    match t with
    | [] => exact absurd rfl h.not_nil
    | c :: t =>
      by_cases hq : c = 34
      · subst hq
        cases h with
        | close => exact ⟨[], .nil⟩
        | plain _ hc _ => exact absurd rfl hc
      have hlast : c = 92 → t ≠ [] := by
        rintro rfl rfl
        cases h with
        | plain hc _ _ => exact hc rfl
      obtain ⟨p, u, heq, hp⟩ := first_piece hq hlast
      rw [heq] at h hn ⊢
      have hpos := p.text_pos
      rw [List.length_append] at hn
      obtain ⟨ps, hps⟩ := ih u.length (by omega) (h.drop_piece hp) rfl
      exact ⟨p :: ps, .cons hp hps⟩

/-- The closing quote at the end of the text. -/
theorem body_of_last (hq : characterCodeAt s i = 34) (hend : i + 1 = s.length) : Body (s.drop i) := by
  have hlen : (s.drop i).length = 1 := by rw [List.length_drop]; omega
  obtain ⟨c, hc⟩ := List.length_eq_one_iff.mp hlen
  rw [code_here, hc, characterCodeAt_zero] at hq
  rw [hc, Int.ofNat.inj hq]
  exact .close

/-- The scan went over the text up to its closing quote. -/
theorem body_of_strEnd {fuel : Nat} (hq : characterCodeAt s (strEndLoop s fuel i) = 34)
    (hend : strEndLoop s fuel i + 1 = s.length) : Body (s.drop i) := by
  induction fuel generalizing i with
  | zero =>
    simp only [strEndLoop] at hq hend
    exact body_of_last hq hend
  | succ fuel ih =>
    unfold strEndLoop at hq hend
    split at hq
    · next hgo =>
      rw [if_pos hgo] at hend
      have hrest := ih hq hend
      match hdrop : s.drop i with
      | [] => rw [code_here, hdrop] at hgo; exact absurd rfl hgo.2
      | c :: t =>
        rw [code_here, hdrop, characterCodeAt_zero] at hgo
        have hnext : t = s.drop (i + 1) := by
          rw [← List.drop_drop, hdrop]
          rfl
        by_cases hslash : c = 92
        · subst hslash
          unfold advStr at hrest
          rw [code_here, hdrop, characterCodeAt_zero, if_pos (by rfl), ← List.drop_drop,
            hdrop] at hrest
          match t with
          | [] => exact absurd rfl hrest.not_nil
          | d :: t => exact .pair hrest
        · unfold advStr at hrest
          rw [code_here, hdrop, characterCodeAt_zero,
            if_neg (by omega), ← hnext] at hrest
          exact .plain hslash (fun h => hgo.1 (by rw [h]; rfl)) hrest
    · next hstop =>
      rw [if_neg hstop] at hend
      exact body_of_last hq hend

/-- A literal is a quote and pieces. -/
theorem Lexed.pieces (h : Lexed s) : ∃ t ps, s = 34 :: t ∧ Pieces ps t := by
  match s, h with
  | [], h => exact absurd h.opens (by decide)
  | c :: t, h =>
    have hc : c = 34 := Int.ofNat.inj h.opens
    obtain ⟨ps, hps⟩ := (body_of_strEnd h.closes h.ends).pieces
    exact ⟨t, ps, by rw [hc], hps⟩

end IdCompiler.Literal

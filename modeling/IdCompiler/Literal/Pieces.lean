import IdCompiler.Literal.Escape
import IdCompiler.Literal.CText

/-!
# The pieces of a literal

A literal's text falls into plain characters, hex escapes, octal escapes and other
pairs of a backslash and a character. At each piece the compiler's functions answer
by the piece alone.
-/

namespace IdCompiler.Literal

open IdCompiler.Source

/-- A piece of a literal's text. -/
inductive Piece
  | plain (c : Nat)
  /-- `\xHH`. -/
  | hex (h l : Nat)
  /-- A backslash and up to three octal digits. -/
  | octal (ds : Text)
  /-- Any other character after a backslash. -/
  | pair (c : Nat)
  deriving DecidableEq

/-- Two hex digits come first. -/
def TwoHex : Text → Prop
  | h :: l :: _ => (hexDigit h).isSome ∧ (hexDigit l).isSome
  | _ => False

/-- The value of a hex digit, 0 for anything else. -/
def hexVal (c : Nat) : Nat := (hexDigit c).getD 0

/-- The value of octal digits. -/
def octVal (ds : Text) : Nat := ds.foldl (fun v d => v * 8 + (d - 48)) 0

namespace Piece

def text : Piece → Text
  | plain c => [c]
  | hex h l => [92, 120, h, l]
  | octal ds => 92 :: ds
  | pair c => [92, c]

/-- The piece is the longest of its kind before the rest `t`. -/
def Ok : Piece → Text → Prop
  | plain c, _ => c ≠ 92 ∧ c ≠ 34
  | hex h l, _ => (hexDigit h).isSome ∧ (hexDigit l).isSome
  | octal ds, t => ds ≠ [] ∧ ds.length ≤ 3 ∧ (∀ d ∈ ds, IsOctal d) ∧
      (ds.length = 3 ∨ ∀ c, t.head? = some c → ¬IsOctal c)
  | pair c, t => ¬IsOctal c ∧ ¬(c = 120 ∧ TwoHex t)

/-- The byte the LLVM target prints. -/
def byte : Piece → Nat
  | plain c => c
  | hex h l => hexVal h * 16 + hexVal l
  | octal ds => octVal ds % 256
  | pair c => (llEscbyte c).toNat

/-- What the C target prints. -/
def printed : Piece → Text
  | plain c => if c = 63 then [92, 63] else [c]
  | hex h l => [92, 120, h, l, 34, 34]
  | octal ds => 92 :: ds
  | pair c => [92, c]

end Piece

/-- The pieces of what is left of a literal, its closing quote included. -/
inductive Pieces : List Piece → Text → Prop
  | nil : Pieces [] [34]
  | cons {p : Piece} {ps : List Piece} {t : Text} : p.Ok t → Pieces ps t →
      Pieces (p :: ps) (p.text ++ t)

/-! ## Digits -/

/-- The library's digit value. -/
theorem urlHexValue_eq (c : Nat) : urlHexValue c = ((hexDigit c).map Int.ofNat).getD (-1) := by
  unfold urlHexValue characterLower characterIn hexDigit
  dsimp only
  simp only [Bool.and_eq_true, decide_eq_true_eq]
  split_ifs <;> simp <;> omega

theorem urlHexValue_nonneg (c : Nat) : 0 ≤ urlHexValue c ↔ (hexDigit c).isSome := by
  rw [urlHexValue_eq]
  cases hexDigit c <;> simp

theorem urlHexValue_some {c : Nat} (h : (hexDigit c).isSome) : urlHexValue c = hexVal c := by
  obtain ⟨d, hd⟩ := Option.isSome_iff_exists.mp h
  simp [urlHexValue_eq, hexVal, hd]

theorem urlHexValue_end : urlHexValue (-1) = -1 := by decide

theorem hexDigit_bounds {c : Nat} (h : (hexDigit c).isSome) :
    48 ≤ c ∧ c ≤ 102 ∧ c ≠ 63 ∧ c ≠ 92 ∧ hexVal c < 16 := by
  unfold hexVal
  unfold hexDigit at *
  split_ifs at * <;> simp at * <;> omega

theorem octal_hex {c : Nat} (h : IsOctal c) : (hexDigit c).isSome := by
  unfold IsOctal at h
  unfold hexDigit
  rw [if_pos (by omega)]
  rfl

/-! ## Reads at what is left -/

variable {s t : Text} {i : Nat}

theorem code_here (s : Text) (i : Nat) : characterCodeAt s i = characterCodeAt (s.drop i) 0 :=
  characterCodeAt_drop s i 0

theorem hexEscapeAt_drop (s : Text) (i : Nat) : hexEscapeAt s i = hexEscapeAt (s.drop i) 0 := by
  unfold hexEscapeAt
  simp only [characterCodeAt_drop s i, code_here s i, Nat.zero_add]

theorem hexEscapeByte_drop (s : Text) (i : Nat) :
    hexEscapeByte s i = hexEscapeByte (s.drop i) 0 := by
  unfold hexEscapeByte
  simp only [characterCodeAt_drop s i, Nat.zero_add]

theorem octalCount_drop (s : Text) (i fuel n : Nat) :
    octalCount s i fuel n = octalCount (s.drop i) 0 fuel n := by
  induction fuel generalizing n with
  | zero => rfl
  | succ fuel ih =>
    simp only [octalCount, ih, Nat.add_assoc i 1 n, characterCodeAt_drop s i, code_here s i,
      Nat.zero_add]

theorem octalValue_drop (s : Text) (i n : Nat) : octalValue s i n = octalValue (s.drop i) 0 n := by
  induction n with
  | zero => rfl
  | succ n ih => simp only [octalValue, ih, characterCodeAt_drop s i, Nat.zero_add]

theorem llPiece_drop (s : Text) (i : Nat) : llPiece s i = llPiece (s.drop i) 0 := by
  simp only [llPiece, octalEscapeLength, octalEscapeByte, hexEscapeAt_drop s i,
    hexEscapeByte_drop s i, octalCount_drop s i, octalValue_drop s i, code_here s i,
    characterCodeAt_drop s i, Nat.zero_add]

theorem llStep_drop (s : Text) (i : Nat) : llStep s i = i + llStep (s.drop i) 0 := by
  simp only [llStep, stringAdvancePastEscape, octalEscapeLength, hexEscapeAt_drop s i,
    octalCount_drop s i, code_here s i, Nat.zero_add]
  split_ifs <;> omega

theorem litWidth_drop (s : Text) (i : Nat) : litWidth s i = litWidth (s.drop i) 0 := by
  simp only [litWidth, hexEscapeAt_drop s i, code_here s i]

theorem litPut_drop (s : Text) (i : Nat) : litPut s i = litPut (s.drop i) 0 := by
  simp only [litPut, litCopy, litEmit, hexEscapeAt_drop s i, code_here s i,
    characterCodeAt_drop s i, Nat.zero_add]

/-! ## Each piece -/

theorem octal_int {d : Nat} (h : IsOctal d) : (48 : Int) ≤ d ∧ (d : Int) ≤ 55 :=
  ⟨Int.ofNat_le.mpr h.1, Int.ofNat_le.mpr h.2⟩

/-- One to three digits, and what comes after them. -/
theorem octal_shape {ds : Text} (h : (Piece.octal ds).Ok t) :
    (∃ a, ds = [a] ∧ IsOctal a ∧ ∀ c, t.head? = some c → ¬IsOctal c) ∨
    (∃ a b, ds = [a, b] ∧ IsOctal a ∧ IsOctal b ∧ ∀ c, t.head? = some c → ¬IsOctal c) ∨
    (∃ a b c, ds = [a, b, c] ∧ IsOctal a ∧ IsOctal b ∧ IsOctal c) := by
  obtain ⟨hne, hlen, hall, hend⟩ := h
  match ds with
  | [a] => exact .inl ⟨a, rfl, hall a (by simp), hend.resolve_left (by simp)⟩
  | [a, b] =>
    exact .inr (.inl ⟨a, b, rfl, hall a (by simp), hall b (by simp), hend.resolve_left (by simp)⟩)
  | [a, b, c] =>
    exact .inr (.inr ⟨a, b, c, rfl, hall a (by simp), hall b (by simp), hall c (by simp)⟩)
  | a :: b :: c :: d :: u =>
    simp only [List.length_cons] at hlen
    omega

/-- What does not start with an octal digit stops the count. -/
theorem octal_stop (h : ∀ c, t.head? = some c → ¬IsOctal c) :
    ¬((48 : Int) ≤ characterCodeAt t 0 ∧ characterCodeAt t 0 ≤ 55) := by
  cases t with
  | nil => simp
  | cons c t =>
    have := h c rfl
    unfold IsOctal at this
    simp only [characterCodeAt_zero]
    omega

theorem hexEscapeAt_piece {p : Piece} (h : p.Ok t) :
    hexEscapeAt (p.text ++ t) 0 = match p with | .hex _ _ => true | _ => false := by
  cases p with
  | plain c =>
    have hc : ¬(c : Int) = 92 := fun heq => h.1 (Int.ofNat.inj heq)
    simp [Piece.text, hexEscapeAt, hc]
  | hex a b => simp [Piece.text, hexEscapeAt, urlHexValue_nonneg, h.1, h.2]
  | octal ds =>
    have hx : ∀ d, IsOctal d → ¬(d : Int) = 120 := fun d hd heq => by
      have := octal_int hd
      omega
    obtain ⟨a, rfl, ha, -⟩ | ⟨a, b, rfl, ha, -⟩ | ⟨a, b, c, rfl, ha, -⟩ := octal_shape h <;>
      simp [Piece.text, hexEscapeAt, hx a ha]
  | pair c =>
    by_cases hc : c = 120
    · have htwo : ¬TwoHex t := fun hh => h.2 ⟨hc, hh⟩
      match t, htwo with
      | [], _ => simp [Piece.text, hexEscapeAt, urlHexValue_end]
      | [a], _ => simp [Piece.text, hexEscapeAt, urlHexValue_end]
      | a :: b :: u, htwo =>
        simp only [TwoHex] at htwo
        simp [Piece.text, hexEscapeAt, urlHexValue_nonneg, hc]
        simpa using htwo
    · have hc' : ¬(c : Int) = 120 := fun heq => hc (Int.ofNat.inj heq)
      simp [Piece.text, hexEscapeAt, hc']

theorem octalEscapeLength_piece {p : Piece} (h : p.Ok t) :
    octalEscapeLength (p.text ++ t) 0 = match p with | .octal ds => ds.length | _ => 0 := by
  cases p with
  | plain c =>
    have hc : ¬(c : Int) = 92 := fun heq => h.1 (Int.ofNat.inj heq)
    simp [Piece.text, octalEscapeLength, octalCount, hc]
  | hex a b => simp [Piece.text, octalEscapeLength, octalCount]
  | octal ds =>
    obtain ⟨a, rfl, ha, hend⟩ | ⟨a, b, rfl, ha, hb, hend⟩ | ⟨a, b, c, rfl, ha, hb, hc⟩ :=
      octal_shape h
    · have hstop := octal_stop hend
      simp [Piece.text, octalEscapeLength, octalCount, octal_int ha]
      omega
    · have hstop := octal_stop hend
      simp [Piece.text, octalEscapeLength, octalCount, octal_int ha, octal_int hb]
      simpa using hstop
    · simp [Piece.text, octalEscapeLength, octalCount, octal_int ha, octal_int hb, octal_int hc]
  | pair c =>
    have hc : ¬((48 : Int) ≤ c ∧ (c : Int) ≤ 55) := fun hh =>
      h.1 ⟨Int.ofNat_le.mp hh.1, Int.ofNat_le.mp hh.2⟩
    simp [Piece.text, octalEscapeLength, octalCount]
    omega

theorem octalEscapeByte_piece {ds : Text} (h : (Piece.octal ds).Ok t) :
    octalEscapeByte ((Piece.octal ds).text ++ t) 0 ds.length = (Piece.octal ds).byte := by
  obtain ⟨a, rfl, ha, -⟩ | ⟨a, b, rfl, ha, hb, -⟩ | ⟨a, b, c, rfl, ha, hb, hc⟩ := octal_shape h <;>
    simp only [Piece.text, Piece.byte, octalEscapeByte, octalValue, octVal, List.length_cons,
      List.length_nil, List.cons_append, List.foldl_cons, List.foldl_nil, characterCodeAt_succ,
      characterCodeAt_zero, Nat.zero_add, Nat.reduceAdd] <;>
    unfold IsOctal at * <;> rw [Int.tmod_eq_emod_of_nonneg (by omega)] <;> omega

/-- The piece printed is the piece's byte. -/
theorem llPiece_piece {p : Piece} (h : p.Ok t) : llPiece (p.text ++ t) 0 = llHex p.byte := by
  have hhex := hexEscapeAt_piece h
  have hoct := octalEscapeLength_piece h
  unfold llPiece
  dsimp only
  rw [hhex, hoct]
  cases p with
  | plain c =>
    have hc : ¬(c : Int) = 92 := fun heq => h.1 (Int.ofNat.inj heq)
    simp [Piece.text, Piece.byte, hc]
  | hex a b => simp [Piece.text, Piece.byte, hexEscapeByte, urlHexValue_some h.1, urlHexValue_some h.2]
  | octal ds =>
    have hpos : 0 < ds.length := List.length_pos_iff.mpr h.1
    simp only [hpos, if_true, octalEscapeByte_piece h]
  | pair c =>
    have hesc : ((llEscbyte c).toNat : Int) = llEscbyte c := by
      unfold llEscbyte llEscbyte2
      split_ifs <;> omega
    simp [Piece.text, Piece.byte, hesc]

/-- The next piece starts after it. -/
theorem llStep_piece {p : Piece} (h : p.Ok t) : llStep (p.text ++ t) 0 = p.text.length := by
  have hhex := hexEscapeAt_piece h
  have hoct := octalEscapeLength_piece h
  unfold llStep
  dsimp only
  rw [hhex, hoct]
  cases p with
  | plain c =>
    have hc : ¬(c : Int) = 92 := fun heq => h.1 (Int.ofNat.inj heq)
    simp [Piece.text, stringAdvancePastEscape, hc]
  | hex a b => simp [Piece.text]
  | octal ds =>
    have hpos : 0 < ds.length := List.length_pos_iff.mpr h.1
    simp only [hpos, if_true, Piece.text, List.length_cons]
    omega
  | pair c => simp [Piece.text, stringAdvancePastEscape]

end IdCompiler.Literal

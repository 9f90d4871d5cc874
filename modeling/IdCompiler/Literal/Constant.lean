import IdCompiler.Literal.Loops

/-!
# The constant of the LLVM target

The loop ends at the closing quote; the text read back is the pieces' bytes and a NUL,
and the two counts are those of these bytes.
-/

namespace IdCompiler.Literal

open IdCompiler.Source

variable {s t : Text} {i : Nat} {ps : List Piece}

/-- The bytes a text of `\XX` spells. -/
def decodeBytes : Text → Option (List Nat)
  | [] => some []
  | 92 :: h :: l :: t =>
    match hexDigit h, hexDigit l, decodeBytes t with
    | some x, some y, some bs => some ((x * 16 + y) :: bs)
    | _, _, _ => none
  | _ => none

/-- The bytes before the first NUL. -/
def beforeNul (bs : List Nat) : List Nat := bs.takeWhile (· ≠ 0)

/-- The bytes of a literal, with the NUL at the end. -/
def bytesOf (ps : List Piece) : List Nat := ps.map Piece.byte ++ [0]

/-! ## The loop -/

theorem Pieces.length_pos (h : Pieces ps t) : 0 < t.length := by
  cases h with
  | nil => decide
  | cons hp hps =>
    rw [List.length_append]
    exact Nat.add_pos_left (Piece.text_pos _) _

theorem drop_append {u : Text} (h : s.drop i = u ++ t) : s.drop (i + u.length) = t := by
  rw [← List.drop_drop, h, List.drop_left]

/-- The loop goes over the pieces and ends at the closing quote. -/
theorem llBytesLoop_pieces {fuel : Nat} {out : Text} (h : Pieces ps t) (ht : s.drop i = t)
    (hfuel : t.length ≤ fuel) : llBytesLoop s fuel i out =
      some (out ++ ps.flatMap fun p => llHex p.byte, s.length - 1) := by
  induction h generalizing i fuel out with
  | nil =>
    have hlen := congrArg List.length ht
    rw [List.length_drop, List.length_singleton] at hlen
    obtain ⟨fuel, rfl⟩ : ∃ f, fuel = f + 1 := ⟨fuel - 1, by simp at hfuel; omega⟩
    rw [llBytesLoop, if_neg (by omega)]
    simp only [List.flatMap_nil, List.append_nil, Option.some.injEq, Prod.mk.injEq, true_and]
    omega
  | @cons p ps t hp hps ih =>
    have hpos := hps.length_pos
    have htext := p.text_pos
    have hlen := congrArg List.length ht
    rw [List.length_drop, List.length_append] at hlen
    rw [List.length_append] at hfuel
    obtain ⟨fuel, rfl⟩ : ∃ f, fuel = f + 1 := ⟨fuel - 1, by omega⟩
    rw [llBytesLoop, if_pos (by omega), llStep_drop, llPiece_drop, ht, llStep_piece hp,
      llPiece_piece hp, ih (drop_append ht) (by omega), List.flatMap_cons, List.append_assoc]

theorem llBytes_pieces (h : Pieces ps t) : llBytes (34 :: t) =
    some ((ps.flatMap fun p => llHex p.byte) ++ [92, 48, 48]) := by
  rw [llBytes, llBytesAcc, llBytesLoop_pieces h rfl (by simp)]
  rfl

/-! ## Reading it back -/

theorem hexDigit_llNib {n : Nat} (h : n < 16) :
    ∃ c, llNib n = [c] ∧ hexDigit c = some n ∧ (c = 48 ↔ n = 0) := by
  unfold llNib
  split
  · refine ⟨_, rfl, ?_, by omega⟩
    unfold hexDigit
    split_ifs <;> first | omega | (simp; omega)
  · refine ⟨_, rfl, ?_, by omega⟩
    unfold hexDigit
    split_ifs <;> first | omega | (simp; omega)

/-- One byte printed: three characters that read back as it. -/
theorem llHex_digits {b : Nat} (h : b < 256) : ∃ c d, llHex b = [92, c, d] ∧
    hexDigit c = some (b / 16) ∧ hexDigit d = some (b % 16) ∧ (c = 48 ∧ d = 48 ↔ b = 0) := by
  obtain ⟨c, hc, hcv, hc0⟩ := hexDigit_llNib (n := b / 16) (by omega)
  obtain ⟨d, hd, hdv, hd0⟩ := hexDigit_llNib (n := b % 16) (by omega)
  refine ⟨c, d, ?_, hcv, hdv, by omega⟩
  have hdiv : (b : Int).tdiv 16 = (b / 16 : Nat) := by
    rw [Int.tdiv_eq_ediv_of_nonneg (by omega)]
    rfl
  have hmod : (b : Int).tmod 16 = (b % 16 : Nat) := by
    rw [Int.tmod_eq_emod_of_nonneg (by omega)]
    rfl
  rw [llHex, hdiv, hmod, hc, hd]
  rfl

theorem decodeBytes_llHex {bs : List Nat} (h : ∀ b ∈ bs, b < 256) :
    decodeBytes (bs.flatMap fun b : Nat => llHex b) = some bs := by
  induction bs with
  | nil => rfl
  | cons b bs ih =>
    obtain ⟨c, d, hbyte, hc, hd, -⟩ := llHex_digits (h b (by simp))
    have hrest := ih fun c hc => h c (List.mem_cons_of_mem b hc)
    rw [List.flatMap_cons, hbyte]
    simp only [List.cons_append, List.nil_append, decodeBytes, hc, hd, hrest]
    congr 2
    omega

theorem llHex_length {bs : List Nat} (h : ∀ b ∈ bs, b < 256) :
    (bs.flatMap fun b : Nat => llHex b).length = bs.length * 3 := by
  induction bs with
  | nil => rfl
  | cons b bs ih =>
    obtain ⟨c, d, hbyte, -⟩ := llHex_digits (h b (by simp))
    rw [List.flatMap_cons, hbyte, List.length_append, ih fun c hc => h c (List.mem_cons_of_mem b hc)]
    simp only [List.length_cons, List.length_nil]
    omega

/-- The loop of `ll_zlen` stops at the first NUL. -/
theorem llZlenLoop_eq {z : Text} {bs : List Nat} {fuel : Nat} (h : ∀ b ∈ bs, b < 256)
    (h0 : 0 ∈ bs) (hz : z.drop (i * 3) = bs.flatMap fun b : Nat => llHex b) (hfuel : bs.length ≤ fuel) :
    llZlenLoop z fuel i = some (i + (beforeNul bs).length) := by
  induction bs generalizing i fuel with
  | nil => cases h0
  | cons b bs ih =>
    obtain ⟨c, d, hbyte, -, -, hnul⟩ := llHex_digits (h b (by simp))
    rw [List.flatMap_cons, hbyte] at hz
    obtain ⟨fuel, rfl⟩ : ∃ f, fuel = f + 1 := ⟨fuel - 1, by simp at hfuel; omega⟩
    have hc : characterCodeAt z (i * 3 + 1) = c := by rw [characterCodeAt_drop, hz]; rfl
    have hd : characterCodeAt z (i * 3 + 2) = d := by rw [characterCodeAt_drop, hz]; rfl
    rw [llZlenLoop, hc, hd]
    by_cases hb : b = 0
    · rw [if_neg (by omega), beforeNul, List.takeWhile_cons, if_neg (by simpa using hb)]
      rfl
    · have hmem : 0 ∈ bs := (List.mem_cons.mp h0).resolve_left (Ne.symm hb)
      have hdrop : z.drop ((i + 1) * 3) = bs.flatMap fun b : Nat => llHex b := by
        rw [Nat.succ_mul, ← List.drop_drop, hz]
        rfl
      rw [if_pos (by omega), ih (fun c hc => h c (List.mem_cons_of_mem b hc)) hmem hdrop
        (by simp at hfuel; omega), beforeNul, beforeNul, List.takeWhile_cons,
        if_pos (by simpa using hb), List.length_cons]
      congr 1
      omega

theorem byte_lt {p : Piece} (h : ∀ c ∈ p.text, c ≤ 255) : p.byte < 256 := by
  cases p with
  | plain c => exact Nat.lt_succ_of_le (h c (by simp [Piece.text]))
  | hex a b =>
    have hlt : ∀ c, hexVal c < 16 := fun c => by
      unfold hexVal hexDigit
      split_ifs <;> simp <;> omega
    have ha := hlt a
    have hb := hlt b
    simp only [Piece.byte]
    omega
  | octal ds => exact Nat.mod_lt _ (by decide)
  | pair c =>
    have hc := h c (by simp [Piece.text])
    simp only [Piece.byte, llEscbyte, llEscbyte2]
    split_ifs <;> omega

theorem Pieces.codes (h : Pieces ps t) (hc : ∀ c ∈ t, c ≤ 255) :
    ∀ b ∈ bytesOf ps, b < 256 := by
  induction h with
  | nil => simp [bytesOf]
  | @cons p ps t hp hps ih =>
    intro b hb
    rcases List.mem_cons.mp hb with rfl | hb
    · exact byte_lt fun c hm => hc c (List.mem_append_left _ hm)
    · exact ih (fun c hm => hc c (List.mem_append_right _ hm)) b hb

/-- What is known of the constant of a literal. -/
theorem constant_spec (h : Pieces ps t) (hc : ∀ c ∈ t, c ≤ 255) : ∃ text,
    llBytes (34 :: t) = some text ∧ decodeBytes text = some (bytesOf ps) ∧
    llBlen (34 :: t) = some (bytesOf ps).length ∧
    llZlen (34 :: t) = some (beforeNul (bytesOf ps)).length := by
  have hbytes := llBytes_pieces h
  have hlt := h.codes hc
  have htext : (ps.flatMap fun p => llHex p.byte) ++ [92, 48, 48] =
      (bytesOf ps).flatMap fun b : Nat => llHex b := by
    rw [bytesOf, List.flatMap_append, List.flatMap_map]
    rfl
  rw [htext] at hbytes
  have hlen := llHex_length hlt
  refine ⟨_, hbytes, decodeBytes_llHex hlt, ?_, ?_⟩
  · rw [llBlen, hbytes, Option.map_some, hlen, Nat.mul_div_cancel _ (by decide)]
  · rw [llZlen, hbytes, Option.bind_some, llZlenLoop_eq hlt (by simp [bytesOf]) (by simp) (by omega),
      Nat.zero_add]

end IdCompiler.Literal

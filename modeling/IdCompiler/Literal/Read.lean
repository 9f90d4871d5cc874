import IdCompiler.Literal.Constant
import IdCompiler.Literal.Printed

/-!
# The copies as C reads them

No copy makes a trigraph or a spliced line, and C reads the copies of a literal's
pieces one by one.
-/

namespace IdCompiler.Literal

open IdCompiler.Source IdCompiler.Lexer

variable {s t : Text} {ps : List Piece} {c : Nat}

/-- The copies of pieces, up to the closing quote. -/
def printedText (ps : List Piece) : Text := ps.flatMap Piece.printed ++ [34]

theorem printedText_cons (p : Piece) (ps : List Piece) :
    printedText (p :: ps) = p.printed ++ printedText ps := by
  rw [printedText, List.flatMap_cons, List.append_assoc]
  rfl

/-! ## Before tokens -/

theorem trigraphs_cons (h : c = 63 → t.head? ≠ some 63) : trigraphs (c :: t) = c :: trigraphs t := by
  match t with
  | [] => rfl
  | [d] => rfl
  | d :: e :: t =>
    have hno : ¬(c = 63 ∧ d = 63) := fun hh => h hh.1 (by rw [hh.2]; rfl)
    rw [trigraphs, if_neg hno]

theorem trigraphs_other (h : c ≠ 63) : trigraphs (c :: t) = c :: trigraphs t :=
  trigraphs_cons fun heq => absurd heq h

theorem splice_of_line : ∀ {t : Text}, 10 ∉ t → splice t = t
  | [], _ => rfl
  | [_], _ => rfl
  | c :: d :: t, h => by
    have hd : d ≠ 10 := fun heq => h (by simp [heq])
    rw [splice, if_neg (fun hh => hd hh.2), splice_of_line fun hm => h (List.mem_cons_of_mem c hm)]

/-- A copy starts with its piece's character or with a backslash. -/
theorem printed_head (h : Pieces ps t) (hc : (printedText ps).head? = some c) :
    c = 92 ∨ (t.head? = some c ∧ c ≠ 63) := by
  cases h with
  | nil =>
    obtain rfl := Option.some.inj hc
    exact .inr ⟨rfl, by decide⟩
  | @cons p ps t hp hps =>
    rw [printedText_cons] at hc
    cases p with
    | plain d =>
      simp only [Piece.printed] at hc
      split at hc
      · exact .inl (Option.some.inj hc).symm
      · next hne =>
        obtain rfl := Option.some.inj hc
        exact .inr ⟨rfl, hne⟩
    | hex a b => exact .inl (Option.some.inj hc).symm
    | octal ds => exact .inl (Option.some.inj hc).symm
    | pair d => exact .inl (Option.some.inj hc).symm

theorem printed_head_ne (h : Pieces ps t) : (printedText ps).head? ≠ some 63 := fun hc =>
  (printed_head h hc).elim (by decide) fun hh => hh.2 rfl

/-- No copy makes a trigraph. -/
theorem trigraphs_printed (h : Pieces ps t) : trigraphs (printedText ps) = printedText ps := by
  induction h with
  | nil => rfl
  | @cons p ps t hp hps ih =>
    have hne := printed_head_ne hps
    have hlast : ∀ c, trigraphs (c :: printedText ps) = c :: printedText ps := fun c => by
      rw [trigraphs_cons fun _ => hne, ih]
    rw [printedText_cons]
    cases p with
    | plain d =>
      simp only [Piece.printed]
      split
      · show trigraphs (92 :: 63 :: printedText ps) = 92 :: 63 :: printedText ps
        rw [trigraphs_other (by decide), hlast]
      · exact hlast d
    | hex a b =>
      have ha := (hexDigit_bounds hp.1).2.2.1
      have hb := (hexDigit_bounds hp.2).2.2.1
      show trigraphs (92 :: 120 :: a :: b :: 34 :: 34 :: printedText ps) = _
      rw [trigraphs_other (by decide), trigraphs_other (by decide),
        trigraphs_other ha, trigraphs_other hb,
        trigraphs_other (by decide), hlast]
      rfl
    | octal ds =>
      have hdigit : ∀ d, IsOctal d → d ≠ 63 := fun d hd => by
        unfold IsOctal at hd
        omega
      obtain ⟨a, rfl, ha, -⟩ | ⟨a, b, rfl, ha, hb, -⟩ | ⟨a, b, c, rfl, ha, hb, hc⟩ := octal_shape hp
      · show trigraphs (92 :: a :: printedText ps) = _
        rw [trigraphs_other (by decide), hlast]
        rfl
      · show trigraphs (92 :: a :: b :: printedText ps) = _
        rw [trigraphs_other (by decide), trigraphs_other (hdigit a ha), hlast]
        rfl
      · show trigraphs (92 :: a :: b :: c :: printedText ps) = _
        rw [trigraphs_other (by decide), trigraphs_other (hdigit a ha),
          trigraphs_other (hdigit b hb), hlast]
        rfl
    | pair d =>
      show trigraphs (92 :: d :: printedText ps) = _
      rw [trigraphs_other (by decide), hlast]
      rfl

/-- A copy holds no newline that the piece does not hold. -/
theorem printed_line (h : Pieces ps t) (hline : 10 ∉ t) : 10 ∉ printedText ps := by
  induction h with
  | nil => exact hline
  | @cons p ps t hp hps ih =>
    rw [List.mem_append, not_or] at hline
    rw [printedText_cons, List.mem_append, not_or]
    refine ⟨?_, ih hline.2⟩
    have hp := hline.1
    cases p with
    | plain d =>
      simp only [Piece.printed]
      split
      · decide
      · exact hp
    | hex a b => simpa [Piece.printed, Piece.text] using hp
    | octal ds => exact hp
    | pair d => exact hp

/-! ## Reading one piece -/

theorem cRun_cons (q : CState) (c : Nat) (t : Text) :
    cRun q (c :: t) = (cStep q c).bind fun r => (cRun r.2 t).map (r.1 ++ ·) := rfl

theorem cRun_quiet {q r : CState} (h : cStep q c = some ([], r)) : cRun q (c :: t) = cRun r t := by
  rw [cRun_cons, h]
  simp

theorem cRun_one {q r : CState} {b : Nat} (h : cStep q c = some ([b], r)) :
    cRun q (c :: t) = (cRun r t).map (b :: ·) := by
  rw [cRun_cons, h]
  rfl

/-- A reader that was inside of an escape that ends before `c`. -/
theorem cRun_finish {q : CState} {v : Nat}
    (h : cStep q c = if v ≤ 255 then (insideStep c).map fun r => (v :: r.1, r.2) else none) :
    cRun q (c :: t) = if v ≤ 255 then (cRun .inside (c :: t)).map (v :: ·) else none := by
  rw [cRun_cons, h, cRun_cons]
  split
  · show _ = Option.map _ ((insideStep c).bind _)
    cases insideStep c with
    | none => rfl
    | some r =>
      simp only [Option.map_some, Option.bind_some, Option.map_map]
      rfl
  · rfl

theorem cRun_escape : cRun .inside (92 :: t) = cRun .escape t := cRun_quiet rfl

theorem cRun_plain (hp : (Piece.plain c).Ok t) (hline : c ≠ 10) (u : Text) :
    cRun .inside ((Piece.plain c).printed ++ u) = (cRun .inside u).map (c :: ·) := by
  simp only [Piece.printed]
  split
  · next h63 =>
    subst h63
    show cRun .inside (92 :: 63 :: u) = _
    rw [cRun_escape, cRun_one (r := .inside) (b := 63) rfl]
  · exact cRun_one (by simp [cStep, insideStep, hp.1, hp.2, hline])

theorem cRun_hex {h l : Nat} (hp : (Piece.hex h l).Ok t) (u : Text) :
    cRun .inside ((Piece.hex h l).printed ++ u) =
      (cRun .inside u).map ((Piece.hex h l).byte :: ·) := by
  obtain ⟨x, hx⟩ := Option.isSome_iff_exists.mp hp.1
  obtain ⟨y, hy⟩ := Option.isSome_iff_exists.mp hp.2
  have hbx := (hexDigit_bounds hp.1).2.2.2.2
  have hby := (hexDigit_bounds hp.2).2.2.2.2
  simp only [hexVal, hx, hy, Option.getD_some] at hbx hby
  have hbyte : (Piece.hex h l).byte = x * 16 + y := by simp [Piece.byte, hexVal, hx, hy]
  show cRun .inside (92 :: 120 :: h :: l :: 34 :: 34 :: u) = _
  rw [cRun_escape, cRun_quiet (r := .hex false 0) rfl,
    cRun_quiet (r := .hex true x) (by simp [cStep, hx]),
    cRun_quiet (r := .hex true (x * 16 + y)) (by simp [cStep, hy]),
    cRun_one (r := .outside) (b := x * 16 + y)
      (by
        have hle : x * 16 + y ≤ 255 := by omega
        simp [cStep, show hexDigit 34 = none from rfl, insideStep, hle]),
    cRun_quiet (r := .inside) rfl, hbyte]

/-- The end of an octal escape. -/
theorem cRun_octal_end {n v : Nat} (hne : t ≠ []) (h : n = 3 ∨ ∀ c, t.head? = some c → ¬IsOctal c) :
    cRun (.octal n v) t = if v ≤ 255 then (cRun .inside t).map (v :: ·) else none := by
  match t, hne with
  | c :: t, _ =>
    apply cRun_finish
    have hstop : ¬(n < 3 ∧ IsOctal c) := by
      rcases h with h | h
      · omega
      · exact fun hh => h c rfl hh.2
    rw [cStep, if_neg hstop]

theorem cRun_octal_next {n v : Nat} (hn : n < 3) (hc : IsOctal c) :
    cRun (.octal n v) (c :: t) = cRun (.octal (n + 1) (v * 8 + (c - 48))) t :=
  cRun_quiet (by rw [cStep, if_pos ⟨hn, hc⟩])

theorem cRun_octal_first (hc : IsOctal c) :
    cRun .inside (92 :: c :: t) = cRun (.octal 1 (c - 48)) t := by
  rw [cRun_escape]
  exact cRun_quiet (by rw [cStep, if_pos hc])

theorem cRun_octal {ds u : Text} (hp : (Piece.octal ds).Ok t) (hne : u ≠ [])
    (hu : ∀ c, u.head? = some c → IsOctal c → t.head? = some c) :
    cRun .inside ((Piece.octal ds).printed ++ u) =
      if octVal ds ≤ 255 then (cRun .inside u).map (octVal ds :: ·) else none := by
  have hend : (∀ c, t.head? = some c → ¬IsOctal c) → ∀ c, u.head? = some c → ¬IsOctal c :=
    fun h c hc ho => h c (hu c hc ho) ho
  obtain ⟨a, rfl, ha, hstop⟩ | ⟨a, b, rfl, ha, hb, hstop⟩ | ⟨a, b, c, rfl, ha, hb, hc⟩ :=
    octal_shape hp
  · show cRun .inside (92 :: a :: u) = _
    rw [cRun_octal_first ha, cRun_octal_end hne (.inr (hend hstop))]
    simp [octVal]
  · show cRun .inside (92 :: a :: b :: u) = _
    rw [cRun_octal_first ha, cRun_octal_next (by decide) hb,
      cRun_octal_end hne (.inr (hend hstop))]
    simp [octVal]
  · show cRun .inside (92 :: a :: b :: c :: u) = _
    rw [cRun_octal_first ha, cRun_octal_next (by decide) hb, cRun_octal_next (by decide) hc,
      cRun_octal_end hne (.inl rfl)]
    simp [octVal]

end IdCompiler.Literal

import IdCompiler.Literal.Constant
import IdCompiler.Literal.Read

/-!
# The two readings of a literal

C accepts a literal when each of its escapes is one of C11. Its bytes are then those of
the LLVM constant up to the first NUL exactly when every escape before that NUL is one
that the LLVM target knows.
-/

namespace IdCompiler.Literal

open IdCompiler.Source IdCompiler.Lexer

variable {s t : Text} {ps : List Piece} {c : Nat}

/-! ## The escapes of C11 -/

/-- The universal character name of value `v` that the next `n` characters complete. -/
def ucnAhead : Nat → Nat → List Piece → Option (List Nat)
  | 0, v, _ => ucnBytes v
  | n + 1, v, .plain c :: ps => (hexDigit c).bind fun d => ucnAhead n (v * 16 + d) ps
  | _ + 1, _, _ => none

/-- The hex escape of one digit that the next character completes. -/
def shortAhead : List Piece → Option (List Nat × Nat)
  | .plain d :: _ => (hexDigit d).map fun x => ([x], 1)
  | _ => none

/-- The bytes of the escape `\c` before the pieces `ps`, and how many of them are part of it. -/
def escapeAhead (c : Nat) (ps : List Piece) : Option (List Nat × Nat) :=
  if c = 120 then shortAhead ps
  else if c = 117 then (ucnAhead 4 0 ps).map fun b => (b, 4)
  else if c = 85 then (ucnAhead 8 0 ps).map fun b => (b, 8)
  else (simpleEscape c).map fun b => ([b], 0)

/-- The bytes C gives a piece before the pieces `ps`, and how many of them are part of it. -/
def Piece.cBytes : Piece → List Piece → Option (List Nat × Nat)
  | .octal ds, _ => if octVal ds ≤ 255 then some ([octVal ds], 0) else none
  | .pair c, ps => escapeAhead c ps
  | p, _ => some ([p.byte], 0)

/-- Each escape is valid in C. -/
def Legal : List Piece → Prop
  | [] => True
  | p :: ps => (p.cBytes ps).isSome ∧ Legal ps

/-- Both targets read the piece alike: no `\a`, `\b`, `\f`, `\v`, `\u`, `\U` and no `\x` with
fewer than two digits. -/
def Piece.Same : Piece → Prop
  | .pair c => c ∈ [110, 116, 114, 92, 39, 34, 63]
  | _ => True

/-- The pieces up to the first NUL are read alike. -/
def Common : List Piece → Prop
  | [] => True
  | p :: ps => p.Same ∧ (p.byte = 0 ∨ Common ps)

/-- The bytes up to the first NUL, with it. -/
def throughNul : List Nat → List Nat
  | [] => []
  | b :: bs => if b = 0 then [0] else b :: throughNul bs

/-! ## Digits after an escape -/

/-- A copy starts with a digit only where its first piece is one. -/
theorem printed_digit (h : Pieces ps t) :
    (∃ d x qs u, ps = .plain d :: qs ∧ t = d :: u ∧ hexDigit d = some x ∧ Pieces qs u ∧
      (Piece.plain d).Ok u ∧ printedText ps = d :: printedText qs) ∨
    ((∃ d u, printedText ps = d :: u ∧ hexDigit d = none) ∧
      ∀ d qs, ps = .plain d :: qs → hexDigit d = none) := by
  cases h with
  | nil => exact .inr ⟨⟨34, [], rfl, rfl⟩, by simp⟩
  | @cons p ps t hp hps =>
    rw [printedText_cons]
    cases p with
    | plain d =>
      cases hd : hexDigit d with
      | some x =>
        have hne := (hexDigit_bounds (show (hexDigit d).isSome by rw [hd]; rfl)).2.2.1
        exact .inl ⟨d, x, ps, t, rfl, rfl, hd, hps, hp, by simp [Piece.printed, hne]⟩
      | none =>
        apply Or.inr
        constructor
        · simp only [Piece.printed]
          split
          · exact ⟨92, _, rfl, rfl⟩
          · exact ⟨d, _, rfl, hd⟩
        · intro e qs he
          cases he
          exact hd
    | hex a b => exact .inr ⟨⟨92, _, rfl, rfl⟩, by simp⟩
    | octal ds => exact .inr ⟨⟨92, _, rfl, rfl⟩, by simp⟩
    | pair d => exact .inr ⟨⟨92, _, rfl, rfl⟩, by simp⟩

theorem ucnAhead_none {n v : Nat} (h : ∀ d qs, ps = .plain d :: qs → hexDigit d = none) :
    ucnAhead (n + 1) v ps = none := by
  match ps with
  | [] => rfl
  | .plain d :: qs => rw [ucnAhead, h d qs rfl]; rfl
  | .hex _ _ :: _ => rfl
  | .octal _ :: _ => rfl
  | .pair _ :: _ => rfl

theorem shortAhead_none (h : ∀ d qs, ps = .plain d :: qs → hexDigit d = none) :
    shortAhead ps = none := by
  match ps with
  | [] => rfl
  | .plain d :: qs => rw [shortAhead, h d qs rfl]; rfl
  | .hex _ _ :: _ => rfl
  | .octal _ :: _ => rfl
  | .pair _ :: _ => rfl

theorem cRun_ucn {n v : Nat} (h : Pieces ps t) :
    cRun (.ucn (n + 1) v) (printedText ps) = (ucnAhead (n + 1) v ps).bind fun b =>
      (cRun .inside (printedText (ps.drop (n + 1)))).map (b ++ ·) := by
  induction n generalizing v ps t with
  | zero =>
    obtain ⟨d, x, qs, u, rfl, rfl, hd, hqs, hok, heq⟩ | ⟨⟨d, u, heq, hd⟩, hno⟩ := printed_digit h
    · rw [heq, cRun_cons]
      simp only [cStep, hd, ucnAhead, Option.bind_some, Nat.zero_add, Nat.le_refl, if_true,
        List.drop_one, List.tail_cons]
      cases ucnBytes (v * 16 + x) <;> rfl
    · rw [heq, cRun_cons, ucnAhead_none hno]
      simp [cStep, hd]
  | succ n ih =>
    obtain ⟨d, x, qs, u, rfl, rfl, hd, hqs, hok, heq⟩ | ⟨⟨d, u, heq, hd⟩, hno⟩ := printed_digit h
    · have hstep : cStep (.ucn (n + 1 + 1) v) d = some ([], .ucn (n + 1) (v * 16 + x)) := by
        simp [cStep, hd]
      rw [heq, cRun_quiet hstep, ih hqs, ucnAhead, hd, Option.bind_some, List.drop_succ_cons]
    · rw [heq, cRun_cons, ucnAhead_none hno]
      simp [cStep, hd]

/-- A hex escape of one digit. -/
theorem cRun_short {x : Nat} (h : Pieces ps t) (hx : x < 16)
    (hno : ∀ d u, t = d :: u → hexDigit d = none) :
    cRun (.hex true x) (printedText ps) = (cRun .inside (printedText ps)).map (x :: ·) := by
  obtain ⟨d, y, qs, u, rfl, rfl, hd, -⟩ | ⟨⟨d, u, heq, hd⟩, -⟩ := printed_digit h
  · rw [hno d u rfl] at hd
    cases hd
  · have hle : x ≤ 255 := by omega
    rw [heq, cRun_finish (v := x) (by simp [cStep, hd]), if_pos hle]

/-- C reads a pair with the pieces that are part of its escape. -/
theorem cRun_pair (hp : (Piece.pair c).Ok t) (h : Pieces ps t) :
    cRun .inside (printedText (.pair c :: ps)) = (escapeAhead c ps).bind fun r =>
      (cRun .inside (printedText (ps.drop r.2))).map (r.1 ++ ·) := by
  rw [printedText_cons]
  show cRun .inside (92 :: c :: printedText ps) = _
  rw [cRun_escape]
  unfold escapeAhead
  by_cases hx : c = 120
  · subst hx
    rw [if_pos rfl, cRun_quiet (r := .hex false 0) rfl]
    obtain ⟨d, x, qs, u, rfl, rfl, hd, hqs, hok, heq⟩ | ⟨⟨d, u, heq, hd⟩, hno⟩ := printed_digit h
    · have hbound := (hexDigit_bounds (show (hexDigit d).isSome by rw [hd]; rfl)).2.2.2.2
      rw [hexVal, hd, Option.getD_some] at hbound
      have hend : ∀ e w, u = e :: w → hexDigit e = none := fun e w hew => by
        subst hew
        by_contra hne
        exact hp.2 ⟨rfl, by rw [hd]; rfl, Option.isSome_iff_ne_none.mpr hne⟩
      rw [heq, cRun_quiet (r := .hex true x) (by simp [cStep, hd]), cRun_short hqs hbound hend]
      simp [shortAhead, hd]
    · rw [heq, cRun_cons, shortAhead_none hno]
      simp [cStep, hd]
  · have hoct := hp.1
    rw [if_neg hx]
    by_cases hu : c = 117
    · subst hu
      rw [if_pos rfl, cRun_quiet (r := .ucn 4 0) (by decide), cRun_ucn h, Option.bind_map]
      rfl
    · rw [if_neg hu]
      by_cases hU : c = 85
      · subst hU
        rw [if_pos rfl, cRun_quiet (r := .ucn 8 0) (by decide), cRun_ucn h, Option.bind_map]
        rfl
      · rw [if_neg hU, cRun_cons, cStep, if_neg hoct, if_neg hx, if_neg hu, if_neg hU]
        cases simpleEscape c <;> rfl

/-- C reads the first piece, and goes on after what is part of it. -/
theorem cRun_piece {p : Piece} (hp : p.Ok t) (h : Pieces ps t) (hline : 10 ∉ p.text) :
    cRun .inside (printedText (p :: ps)) = (p.cBytes ps).bind fun r =>
      (cRun .inside (printedText (ps.drop r.2))).map (r.1 ++ ·) := by
  cases p with
  | plain c =>
    have hne : c ≠ 10 := fun heq => hline (by rw [heq]; decide)
    rw [printedText_cons, cRun_plain hp hne]
    rfl
  | hex a b =>
    rw [printedText_cons, cRun_hex hp]
    rfl
  | octal ds =>
    have hnil : printedText ps ≠ [] := by simp [printedText]
    have hhead : ∀ c, (printedText ps).head? = some c → IsOctal c → t.head? = some c :=
      fun c hc ho => (printed_head h hc).elim (fun heq => absurd ho (by rw [heq]; decide)) And.left
    rw [printedText_cons, cRun_octal hp hnil hhead, Piece.cBytes]
    split <;> rfl
  | pair c => exact cRun_pair hp h

/-! ## Where C accepts the literal -/

/-- The digits that are part of an escape are valid on their own. -/
theorem ucnAhead_isSome {n v : Nat} {b : List Nat} (h : Pieces ps t)
    (hb : ucnAhead n v ps = some b) :
    (cRun .inside (printedText (ps.drop n))).isSome = (cRun .inside (printedText ps)).isSome := by
  induction n generalizing v ps t with
  | zero => rfl
  | succ n ih =>
    obtain ⟨d, x, qs, u, rfl, rfl, hd, hqs, hok, -⟩ | ⟨-, hno⟩ := printed_digit h
    · have hne : d ≠ 10 := fun heq => by rw [heq] at hd; cases hd
      rw [ucnAhead, hd, Option.bind_some] at hb
      rw [List.drop_succ_cons, ih hqs hb, printedText_cons, cRun_plain hok hne, Option.isSome_map]
    · rw [ucnAhead_none hno] at hb
      cases hb

theorem cBytes_isSome {p : Piece} {r : List Nat × Nat} (h : Pieces ps t)
    (hr : p.cBytes ps = some r) :
    (cRun .inside (printedText (ps.drop r.2))).isSome = (cRun .inside (printedText ps)).isSome := by
  cases p with
  | plain c => cases hr; rfl
  | hex a b => cases hr; rfl
  | octal ds =>
    rw [Piece.cBytes] at hr
    split at hr <;> cases hr
    rfl
  | pair c =>
    rw [Piece.cBytes, escapeAhead] at hr
    split at hr
    · obtain ⟨d, x, qs, u, rfl, rfl, hd, hqs, hok, -⟩ | ⟨-, hno⟩ := printed_digit h
      · have hne : d ≠ 10 := fun heq => by rw [heq] at hd; cases hd
        rw [shortAhead, hd] at hr
        cases hr
        show (cRun .inside (printedText qs)).isSome = _
        rw [printedText_cons, cRun_plain hok hne, Option.isSome_map]
      · rw [shortAhead_none hno] at hr
        cases hr
    · split at hr
      · obtain ⟨b, hb, rfl⟩ := Option.map_eq_some_iff.mp hr
        exact ucnAhead_isSome h hb
      · split at hr
        · obtain ⟨b, hb, rfl⟩ := Option.map_eq_some_iff.mp hr
          exact ucnAhead_isSome h hb
        · obtain ⟨b, hb, rfl⟩ := Option.map_eq_some_iff.mp hr
          rfl

theorem cRun_isSome (h : Pieces ps t) (hline : 10 ∉ t) :
    (cRun .inside (printedText ps)).isSome ↔ Legal ps := by
  induction h with
  | nil => exact ⟨fun _ => trivial, fun _ => rfl⟩
  | @cons p ps t hp hps ih =>
    rw [List.mem_append, not_or] at hline
    rw [cRun_piece hp hps hline.1, Legal, ← ih hline.2]
    cases hr : p.cBytes ps with
    | none => simp
    | some r =>
      rw [Option.bind_some, Option.isSome_map, cBytes_isSome hps hr]
      simp

/-! ## Where the bytes agree -/

theorem throughNul_head {b d : Nat} {bs ds : List Nat}
    (h : throughNul (b :: bs) = throughNul (d :: ds)) : b = d := by
  simp only [throughNul] at h
  split at h <;> split at h <;> simp_all

theorem throughNul_cons {b : Nat} {bs ds : List Nat} :
    throughNul (b :: bs) = throughNul (b :: ds) ↔ b = 0 ∨ throughNul bs = throughNul ds := by
  simp only [throughNul]
  split <;> simp_all

theorem same_bytes {p : Piece} {r : List Nat × Nat} (h : p.Same) (hr : p.cBytes ps = some r) :
    r = ([p.byte], 0) := by
  cases p with
  | plain c => exact (Option.some.inj hr).symm
  | hex a b => exact (Option.some.inj hr).symm
  | octal ds =>
    rw [Piece.cBytes] at hr
    split at hr
    · next hle =>
      rw [Piece.byte, Nat.mod_eq_of_lt (Nat.lt_succ_of_le hle)]
      exact (Option.some.inj hr).symm
    · cases hr
  | pair c =>
    simp only [Piece.Same, List.mem_cons, List.not_mem_nil, or_false] at h
    rcases h with rfl | rfl | rfl | rfl | rfl | rfl | rfl <;> exact (Option.some.inj hr).symm

theorem ucnBytes_head {v : Nat} {bs : List Nat} (h : ucnBytes v = some bs) :
    ∃ b ds, bs = b :: ds ∧ b ≠ 117 ∧ b ≠ 85 := by
  unfold ucnBytes at h
  split at h
  · split at h
    · cases h
      exact ⟨v, [], rfl, by omega, by omega⟩
    · cases h
  · split at h
    · cases h
      exact ⟨_, _, rfl, by omega, by omega⟩
    · split at h
      · cases h
      · split at h
        · cases h
          exact ⟨_, _, rfl, by omega, by omega⟩
        · cases h
          exact ⟨_, _, rfl, by omega, by omega⟩

theorem ucnAhead_bytes {n v : Nat} {bs : List Nat} (h : ucnAhead n v ps = some bs) :
    ∃ w, ucnBytes w = some bs := by
  induction n generalizing v ps with
  | zero => exact ⟨v, h⟩
  | succ n ih =>
    match ps with
    | .plain d :: qs =>
      obtain ⟨x, -, hx⟩ := Option.bind_eq_some_iff.mp h
      exact ih hx

/-- An escape that only C knows starts with another byte. -/
theorem other_bytes {p : Piece} {r : List Nat × Nat} (h : ¬p.Same) (hr : p.cBytes ps = some r) :
    ∃ b bs, r.1 = b :: bs ∧ b ≠ p.byte := by
  cases p with
  | plain c => exact absurd trivial h
  | hex a b => exact absurd trivial h
  | octal ds => exact absurd trivial h
  | pair c =>
    rw [Piece.cBytes, escapeAhead] at hr
    split at hr
    · next hc =>
      subst hc
      match ps with
      | .plain d :: qs =>
        obtain ⟨x, hx, rfl⟩ := Option.map_eq_some_iff.mp hr
        have hlt := (hexDigit_bounds (show (hexDigit d).isSome by rw [hx]; rfl)).2.2.2.2
        rw [hexVal, hx, Option.getD_some] at hlt
        exact ⟨x, [], rfl, fun heq => by rw [heq] at hlt; exact absurd hlt (by decide)⟩
    · split at hr
      · next hc =>
        obtain ⟨bs, hb, rfl⟩ := Option.map_eq_some_iff.mp hr
        obtain ⟨w, hw⟩ := ucnAhead_bytes hb
        obtain ⟨b, ds, rfl, hb1, -⟩ := ucnBytes_head hw
        exact ⟨b, ds, rfl, by rw [hc]; exact hb1⟩
      · split at hr
        · next hc =>
          obtain ⟨bs, hb, rfl⟩ := Option.map_eq_some_iff.mp hr
          obtain ⟨w, hw⟩ := ucnAhead_bytes hb
          obtain ⟨b, ds, rfl, -, hb2⟩ := ucnBytes_head hw
          exact ⟨b, ds, rfl, by rw [hc]; exact hb2⟩
        · obtain ⟨b, hb, rfl⟩ := Option.map_eq_some_iff.mp hr
          refine ⟨b, [], rfl, ?_⟩
          simp only [Piece.Same, List.mem_cons, List.not_mem_nil, or_false] at h
          unfold simpleEscape at hb
          split at hb <;> first | cases hb; decide | (exfalso; omega) | cases hb

/-- The bytes agree up to the first NUL exactly when its pieces are read alike. -/
theorem throughNul_iff {bs : List Nat} (h : Pieces ps t) (hline : 10 ∉ t)
    (hbs : cRun .inside (printedText ps) = some bs) :
    throughNul bs = throughNul (bytesOf ps) ↔ Common ps := by
  induction h generalizing bs with
  | nil =>
    cases hbs
    exact ⟨fun _ => trivial, fun _ => rfl⟩
  | @cons p ps t hp hps ih =>
    rw [List.mem_append, not_or] at hline
    rw [cRun_piece hp hps hline.1] at hbs
    obtain ⟨r, hr, hrest⟩ := Option.bind_eq_some_iff.mp hbs
    obtain ⟨ds, hds, rfl⟩ := Option.map_eq_some_iff.mp hrest
    show _ = throughNul (p.byte :: bytesOf ps) ↔ _
    by_cases hsame : p.Same
    · obtain rfl := same_bytes hsame hr
      show throughNul (p.byte :: ds) = _ ↔ _
      rw [throughNul_cons, ih hline.2 hds, Common, and_iff_right hsame]
    · obtain ⟨b, bs, hb, hne⟩ := other_bytes hsame hr
      constructor
      · intro heq
        rw [hb] at heq
        exact absurd (throughNul_head heq) hne
      · exact fun hc => absurd hc.1 hsame

/-! ## Literals -/

/-- The constant of the LLVM target and the literal of the C target are the same bytes up to
the first NUL; the loop of the constant ends at the closing quote, and both counts are right. -/
def Agrees (s : Text) : Prop :=
  ∃ text bytes cbytes, llBytes s = some text ∧ decodeBytes text = some bytes ∧
    cLiteral (cLit s) = some cbytes ∧ throughNul bytes = throughNul cbytes ∧
    (∃ out, llBytesLoop s s.length 1 [] = some (out, s.length - 1)) ∧
    llBlen s = some bytes.length ∧ llZlen s = some (beforeNul bytes).length

/-- A literal on one line whose escapes are valid in C, and known to both targets up to the
first NUL. -/
def Alike (s : Text) : Prop :=
  10 ∉ s ∧ ∃ ps, Pieces ps s.tail ∧ Legal ps ∧ Common ps

/-- C reads the printed literal as the copies of its pieces. -/
theorem cLiteral_pieces (h : Pieces ps t) (hc : ∀ c ∈ t, c ≤ 255) (hline : 10 ∉ t) :
    cLiteral (cLit (34 :: t)) = cRun .inside (printedText ps) := by
  have hsplice : 10 ∉ 34 :: printedText ps := fun hm =>
    printed_line h hline ((List.mem_cons.mp hm).resolve_left (by decide))
  show cLiteral _ = _
  rw [cLit_pieces h hc]
  show cRun .outside (splice (trigraphs (34 :: printedText ps))) = _
  rw [trigraphs_other (by decide), trigraphs_printed h, splice_of_line hsplice,
    cRun_quiet (r := .inside) rfl]

end IdCompiler.Literal

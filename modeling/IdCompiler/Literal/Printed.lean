import IdCompiler.Literal.Loops
import Mathlib.Algebra.Order.Ring.Int

/-!
# The literal of the C target

What `c_lit` prints is the pieces in order, a raw `?` behind a backslash and an empty
literal after a hex escape. Nothing in it is a trigraph or a spliced line.
-/

namespace IdCompiler.Literal

open IdCompiler.Source

variable {s t : Text} {i : Nat} {ps : List Piece}

/-! ## Units of the copy -/

/-- What the loop copies as one. -/
structure LitUnit where
  text : Text
  printed : Text
  /-- The bytes the copy is longer by. -/
  gain : Nat

/-- The loop's functions at the unit, before the rest `t`. -/
structure LitUnit.Ok (u : LitUnit) (t : Text) : Prop where
  pos : 0 < u.text.length
  width : litWidth (u.text ++ t) 0 = u.text.length
  put : litPut (u.text ++ t) 0 = u.printed
  count : (if characterCodeAt (u.text ++ t) 0 = 63 then 1 else 0) +
    2 * (hexEscapeAt (u.text ++ t) 0).toNat = u.gain
  same : u.gain = 0 → u.printed = u.text

/-- A text as units. -/
inductive LitUnits : List LitUnit → Text → Prop
  | nil : LitUnits [] []
  | cons {u : LitUnit} {us : List LitUnit} {t : Text} : u.Ok t → LitUnits us t →
      LitUnits (u :: us) (u.text ++ t)

/-- One character. -/
def charUnit (c : Nat) : LitUnit := ⟨[c], if c = 63 then [92, 63] else [c], if c = 63 then 1 else 0⟩

/-- A pair of a backslash and a character. -/
def pairUnit (c : Nat) : LitUnit := ⟨[92, c], [92, c], 0⟩

def hexUnit (h l : Nat) : LitUnit := ⟨[92, 120, h, l], [92, 120, h, l, 34, 34], 2⟩

theorem litByte_of_le {c : Nat} (h : c ≤ 255) : litByte c = c := by
  unfold litByte
  omega

theorem charUnit_ok {c : Nat} (hc : c ≠ 92) (hle : c ≤ 255) : (charUnit c).Ok t := by
  have hslash : ¬(c : Int) = 92 := fun heq => hc (Int.ofNat.inj heq)
  have hmark : ((c : Int) = 63) ↔ c = 63 := ⟨fun heq => Int.ofNat.inj heq, fun heq => by rw [heq]; rfl⟩
  have hhex : hexEscapeAt (c :: t) 0 = false := by simp [hexEscapeAt, hslash]
  constructor
  case pos => exact Nat.one_pos
  case width => simp [charUnit, litWidth, hhex, hslash]
  case put =>
    simp [charUnit, litPut, hhex, litEmit, hslash, hmark, litByte_of_le hle]
  case count => simp [charUnit, hhex, hmark]
  case same =>
    simp only [charUnit]
    split <;> simp

theorem pairUnit_ok {c : Nat} (hhex : hexEscapeAt (92 :: c :: t) 0 = false) (hle : c ≤ 255) :
    (pairUnit c).Ok t := by
  constructor
  case pos => exact Nat.two_pos
  case width => simp [pairUnit, litWidth, hhex]
  case put => simp [pairUnit, litPut, hhex, litEmit, litByte_of_le hle]
  case count => simp [pairUnit, hhex]
  case same => exact fun _ => rfl

theorem hexUnit_ok {h l : Nat} (hh : (hexDigit h).isSome) (hl : (hexDigit l).isSome) :
    (hexUnit h l).Ok t := by
  have hhex : hexEscapeAt (92 :: 120 :: h :: l :: t) 0 = true := by
    have hok : (Piece.hex h l).Ok t := ⟨hh, hl⟩
    exact hexEscapeAt_piece hok
  have hbh := hexDigit_bounds hh
  have hbl := hexDigit_bounds hl
  constructor
  case pos => exact Nat.succ_pos 3
  case width => simp [hexUnit, litWidth, hhex]
  case put =>
    simp [hexUnit, litPut, hhex, litCopy, List.range_succ, litByte_of_le (show h ≤ 255 by omega),
      litByte_of_le (show l ≤ 255 by omega)]
    decide
  case count => simp [hexUnit, hhex]
  case same => simp [hexUnit]

/-! ## The loops -/

variable {us : List LitUnit}

theorem unit_drop {u : Text} (h : s.drop i = u ++ t) : s.drop (i + u.length) = t := by
  rw [← List.drop_drop, h, List.drop_left]

theorem litRunLoop_units {fuel : Nat} {out : Text} (h : LitUnits us t) (ht : s.drop i = t)
    (hfuel : t.length ≤ fuel) : litRunLoop s fuel i out = out ++ us.flatMap LitUnit.printed := by
  induction h generalizing i fuel out with
  | nil =>
    have hlen := congrArg List.length ht
    rw [List.length_drop, List.length_nil] at hlen
    cases fuel with
    | zero => simp [litRunLoop]
    | succ fuel => rw [litRunLoop, if_neg (by omega)]; simp
  | @cons u us t hu hus ih =>
    have hpos := hu.pos
    have hlen := congrArg List.length ht
    rw [List.length_drop, List.length_append] at hlen
    rw [List.length_append] at hfuel
    obtain ⟨fuel, rfl⟩ : ∃ f, fuel = f + 1 := ⟨fuel - 1, by omega⟩
    rw [litRunLoop, if_pos (by omega), litWidth_drop, litPut_drop, ht, hu.width, hu.put,
      ih (unit_drop ht) (by omega), List.flatMap_cons, List.append_assoc]

theorem litQcountLoop_units {fuel n : Nat} (h : LitUnits us t) (ht : s.drop i = t)
    (hfuel : t.length ≤ fuel) : litQcountLoop s fuel i n = n + (us.map LitUnit.gain).sum := by
  induction h generalizing i fuel n with
  | nil =>
    have hlen := congrArg List.length ht
    rw [List.length_drop, List.length_nil] at hlen
    cases fuel with
    | zero => simp [litQcountLoop]
    | succ fuel => rw [litQcountLoop, if_neg (by omega)]; simp
  | @cons u us t hu hus ih =>
    have hpos := hu.pos
    have hcount := hu.count
    have hlen := congrArg List.length ht
    rw [List.length_drop, List.length_append] at hlen
    rw [List.length_append] at hfuel
    obtain ⟨fuel, rfl⟩ : ∃ f, fuel = f + 1 := ⟨fuel - 1, by omega⟩
    rw [litQcountLoop, if_pos (by omega), litWidth_drop, hexEscapeAt_drop, code_here, ht, hu.width,
      ih (unit_drop ht) (by omega), List.map_cons, List.sum_cons, ← hcount]
    split <;> omega

/-- A text that gains nothing is printed as it is. -/
theorem printed_of_gain (h : LitUnits us t) (h0 : (us.map LitUnit.gain).sum = 0) :
    us.flatMap LitUnit.printed = t := by
  induction h with
  | nil => rfl
  | @cons u us t hu hus ih =>
    rw [List.map_cons, List.sum_cons] at h0
    rw [List.flatMap_cons, hu.same (by omega), ih (by omega)]

/-- What is printed is the units' copies. -/
theorem cLit_units (h : LitUnits us s) : cLit s = us.flatMap LitUnit.printed := by
  have hcount : litQcount s = (us.map LitUnit.gain).sum := by
    rw [litQcount, litQcountLoop_units h rfl (Nat.le_refl _), Nat.zero_add]
  unfold cLit
  split
  · rw [litRun, litRunLoop_units h rfl (Nat.le_refl _), List.nil_append]
  · next h0 =>
    rw [hcount] at h0
    exact (printed_of_gain h (by omega)).symm

/-- A piece's copy, in front of the copies of what comes after it. -/
theorem piece_units {p : Piece} (hp : p.Ok t) (hc : ∀ c ∈ p.text, c ≤ 255) (h : LitUnits us t) :
    ∃ vs, LitUnits vs (p.text ++ t) ∧
      vs.flatMap LitUnit.printed = p.printed ++ us.flatMap LitUnit.printed := by
  have hhex := hexEscapeAt_piece hp
  cases p with
  | plain c => exact ⟨charUnit c :: us, .cons (charUnit_ok hp.1 (hc c (by simp [Piece.text]))) h, rfl⟩
  | hex a b => exact ⟨hexUnit a b :: us, .cons (hexUnit_ok hp.1 hp.2) h, rfl⟩
  | pair c => exact ⟨pairUnit c :: us, .cons (pairUnit_ok hhex (hc c (by simp [Piece.text]))) h, rfl⟩
  | octal ds =>
    have hdigit : ∀ d, IsOctal d → d ≠ 92 ∧ d ≤ 255 ∧ d ≠ 63 := fun d hd => by
      unfold IsOctal at hd
      omega
    obtain ⟨a, rfl, ha, -⟩ | ⟨a, b, rfl, ha, hb, -⟩ | ⟨a, b, c, rfl, ha, hb, hc⟩ := octal_shape hp
    · exact ⟨pairUnit a :: us, .cons (pairUnit_ok hhex (hdigit a ha).2.1) h, rfl⟩
    · refine ⟨pairUnit a :: charUnit b :: us, .cons (pairUnit_ok hhex (hdigit a ha).2.1)
        (.cons (charUnit_ok (hdigit b hb).1 (hdigit b hb).2.1) h), ?_⟩
      simp [pairUnit, charUnit, Piece.printed, hdigit b hb]
    · refine ⟨pairUnit a :: charUnit b :: charUnit c :: us,
        .cons (pairUnit_ok hhex (hdigit a ha).2.1)
        (.cons (charUnit_ok (hdigit b hb).1 (hdigit b hb).2.1)
        (.cons (charUnit_ok (hdigit c hc).1 (hdigit c hc).2.1) h)), ?_⟩
      simp [pairUnit, charUnit, Piece.printed, hdigit b hb, hdigit c hc]

/-- The literal printed for C: the pieces between two quotes. -/
theorem cLit_pieces (h : Pieces ps t) (hc : ∀ c ∈ t, c ≤ 255) :
    cLit (34 :: t) = 34 :: (ps.flatMap Piece.printed ++ [34]) := by
  have hunits : ∃ us, LitUnits us t ∧
      us.flatMap LitUnit.printed = ps.flatMap Piece.printed ++ [34] := by
    induction h with
    | nil => exact ⟨[charUnit 34], .cons (charUnit_ok (by decide) (by decide)) .nil, rfl⟩
    | @cons p ps t hp hps ih =>
      obtain ⟨us, hus, hprint⟩ := ih fun c hm => hc c (List.mem_append_right _ hm)
      obtain ⟨vs, hvs, hv⟩ := piece_units hp (fun c hm => hc c (List.mem_append_left _ hm)) hus
      exact ⟨vs, hvs, by rw [hv, hprint, List.flatMap_cons, List.append_assoc]⟩
  obtain ⟨us, hus, hprint⟩ := hunits
  have hall : LitUnits (charUnit 34 :: us) (34 :: t) :=
    .cons (charUnit_ok (by decide) (by decide)) hus
  rw [cLit_units hall, List.flatMap_cons, hprint]
  rfl

end IdCompiler.Literal

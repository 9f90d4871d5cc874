import IdCompiler.Core.Nesting
import IdCompiler.Types.Spell

/-!
# Function types read back

The parts of the spelling of a function type are the spellings that it was made
of. In a spelling every comma stands inside parentheses, and every parenthesis
that closes was opened.
-/

namespace IdCompiler.Types

open IdCompiler.Core IdCompiler.Source IdCompiler.Lexer

/-! ## Depth along spellings -/

/-- The weight of a code. -/
def weight (c : Nat) : Int := fnDepth c

/-- No parenthesis closes that was not opened. -/
def Opened (d : Int) (c : Nat) : Prop := 0 ≤ d + weight c

instance (d : Int) (c : Nat) : Decidable (Opened d c) := inferInstanceAs (Decidable (0 ≤ d + weight c))

/-- Neither does it, and commas stand inside parentheses. -/
def Inside (d : Int) (c : Nat) : Prop := Opened d c ∧ (c = 44 → 0 < d)

/-- A code that is no parenthesis and no comma. -/
def Plain (c : Nat) : Prop := c ≠ 40 ∧ c ≠ 41 ∧ c ≠ 44

instance : DecidablePred Plain := fun c => inferInstanceAs (Decidable (c ≠ 40 ∧ c ≠ 41 ∧ c ≠ 44))

theorem Plain.weight_eq {c : Nat} (h : Plain c) : weight c = 0 := by
  obtain ⟨hopen, hclose, -⟩ := h
  rw [weight, fnDepth, if_neg (by omega), if_neg (by omega)]

theorem nested_of_plain {s : Text} (h : ∀ c ∈ s, Plain c) : Nested weight Inside s := by
  refine .flat (fun c hc => (h c hc).weight_eq) fun c hc => ⟨?_, fun heq => absurd heq (h c hc).2.2⟩
  rw [Opened, (h c hc).weight_eq]
  decide

theorem Name.plain (name : Name) : ∀ c ∈ name.text, Plain c := by
  intro c hc
  have hpart := name.part c hc
  simp only [characterIsNamePart, characterIsNameStart, characterIsAlpha, characterIsDigit, characterIn,
    Bool.or_eq_true, Bool.and_eq_true, decide_eq_true_eq] at hpart
  refine ⟨?_, ?_, ?_⟩ <;> omega

theorem addBrackets_nested {t : Text} (h : Nested weight Inside t) (dims : Nat) :
    Nested weight Inside (addBrackets t dims) := by
  induction dims generalizing t with
  | zero => exact h
  | succ dims ih => exact ih (h.append (nested_of_plain (by decide)))

/-- A text between parentheses. -/
theorem enclosed {s : Text} (h : Nested weight Opened s) : Nested weight Inside (40 :: (s ++ [41])) := by
  refine h.enclose rfl rfl (fun d c hc => ⟨?_, fun heq => ?_⟩) ⟨by decide, by decide⟩ ⟨by decide, by decide⟩
  · rw [Opened] at hc ⊢
    omega
  · rw [Opened, heq] at hc
    have hcomma : weight 44 = 0 := rfl
    omega

mutual
theorem Ty.spelling_nested : ∀ t : Ty, Nested weight Inside t.spelling
  | .base name dims => addBrackets_nested (nested_of_plain name.plain) dims
  | .chanEnd side mtype => by
    have hside : Nested weight Inside side.text := by
      cases side with
      | sender => exact nested_of_plain (by decide)
      | receiver => exact nested_of_plain (by decide)
    have hmsg := enclosed (mtype.spelling_nested.mono fun _ _ h => h.1)
    rw [Ty.spelling, List.append_assoc, List.append_assoc]
    exact hside.append hmsg
  | .func params ret => by
    have hword : Nested weight Inside (spell "func") := nested_of_plain (by decide)
    have hret : Nested weight Inside (spell " return ") := nested_of_plain (by decide)
    have hlist := enclosed (paramsSpelling_nested params)
    have heq : (Ty.func params ret).spelling =
        spell "func" ++ (40 :: (paramsSpelling params ++ [41])) ++ (spell " return " ++ ret.spelling) := by
      rw [Ty.spelling, List.append_assoc, List.append_assoc, List.append_assoc]
      simp [spell]
    rw [heq]
    exact (hword.append hlist).append (hret.append ret.spelling_nested)
theorem paramsSpelling_nested : ∀ params : List Ty, Nested weight Opened (paramsSpelling params)
  | [] => .nil
  | p :: params => (p.spelling_nested.mono fun _ _ h => h.1).append (restSpelling_nested params)
theorem restSpelling_nested : ∀ params : List Ty, Nested weight Opened (restSpelling params)
  | [] => .nil
  | p :: params => by
    have hsep : Nested weight Opened (spell ", ") := .flat (by decide) (by decide)
    exact (hsep.append (p.spelling_nested.mono fun _ _ h => h.1)).append (restSpelling_nested params)
end

/-! ## Where the list ends -/

variable {t s rest p : Text} {i fuel n : Nat} {d : Int} {w : Walk}

theorem code_of_drop {c : Nat} (h : t.drop i = c :: rest) : characterCodeAt t i = c := by
  rw [← Nat.add_zero i, characterCodeAt_drop, h, characterCodeAt_zero]

theorem drop_of_cons {c : Nat} (h : t.drop i = c :: rest) : t.drop (i + 1) = rest := by
  rw [← List.drop_drop, h, List.drop_one, List.tail_cons]

theorem lt_of_drop {c : Nat} (h : t.drop i = c :: rest) : i < t.length := by
  by_contra hge
  rw [List.drop_eq_nil_of_le (by omega)] at h
  cases h

/-- The count never ends inside a text that closes nothing of what is around it. -/
theorem fnCloseLoop_along (h : Along weight Opened d s) (hd : 0 ≤ d) (ht : t.drop i = s ++ rest) :
    fnCloseLoop t (s.length + fuel) (1 + d) i = fnCloseLoop t fuel (1 + (d + depthOf weight s)) (i + s.length) := by
  induction s generalizing d i with
  | nil =>
    rw [List.length_nil, depthOf_nil, add_zero, Nat.zero_add, Nat.add_zero]
  | cons c s ih =>
    have hround : 0 < 1 + d ∧ i < t.length := ⟨by omega, lt_of_drop ht⟩
    have hcode : characterCodeAt t i = c := code_of_drop ht
    have hstep : d + weight c = d + fnDepth (characterCodeAt t i) := by rw [hcode, weight]
    rw [List.length_cons, Nat.add_right_comm, fnCloseLoop, if_pos hround, add_assoc, ← hstep,
      ih h.2 h.1 (drop_of_cons ht), depthOf_cons, add_assoc d, Nat.add_right_comm i]
    rfl

/-- The spelling of a function type around its parameters. -/
theorem func_spelling (params : List Ty) (ret : Ty) : (Ty.func params ret).spelling =
    spell "func(" ++ (paramsSpelling params ++ (41 :: (spell " return " ++ ret.spelling))) := by
  rw [Ty.spelling, List.append_assoc, List.append_assoc]
  rfl

theorem fnClose_func (params : List Ty) (ret : Ty) :
    fnClose (Ty.func params ret).spelling = 5 + (paramsSpelling params).length + 1 := by
  generalize ht : (Ty.func params ret).spelling = t
  rw [func_spelling] at ht
  have hdrop : t.drop 5 = paramsSpelling params ++ (41 :: (spell " return " ++ ret.spelling)) := by
    rw [← ht]
    exact List.drop_left' rfl
  have hlen : t.length = (paramsSpelling params).length + ((14 + ret.spelling.length) : Nat) := by
    rw [← ht]
    simp [spell]
    omega
  have hend : t.drop (5 + (paramsSpelling params).length) = 41 :: (spell " return " ++ ret.spelling) := by
    rw [← List.drop_drop, hdrop, List.drop_left]
  have hround : (0 : Int) < 1 + (0 + depthOf weight (paramsSpelling params)) ∧
      5 + (paramsSpelling params).length < t.length := by
    rw [(paramsSpelling_nested params).depth]
    exact ⟨by decide, lt_of_drop hend⟩
  have hdone : fnDepth ((41 : Nat) : Int) = -1 := rfl
  have hfuel : 14 + ret.spelling.length = (13 + ret.spelling.length) + 1 := by omega
  rw [fnClose, hlen, ← add_zero (1 : Int),
    fnCloseLoop_along (paramsSpelling_nested params).along (le_refl 0) hdrop, hfuel, fnCloseLoop, if_pos hround,
    code_of_drop hend, (paramsSpelling_nested params).depth, hdone]
  cases 13 + ret.spelling.length with
  | zero => rfl
  | succ fuel => exact if_neg fun h => absurd h.1 (by decide)

theorem le_of_drop (hp : p ≠ []) (h : t.drop i = p ++ rest) : i + p.length ≤ t.length := by
  have hlen := congrArg List.length h
  have hpos := List.length_pos_iff.mpr hp
  rw [List.length_drop, List.length_append] at hlen
  omega

/-! ## The walk -/

theorem slice_of_drop (h : t.drop i = p ++ rest) : slice t i (i + p.length) = .ok p := by
  cases p with
  | nil => exact if_neg (by rw [List.length_nil]; omega)
  | cons c p =>
    have hlen := congrArg List.length h
    rw [List.length_drop, List.length_append, List.length_cons] at hlen
    rw [slice, if_pos (by rw [List.length_cons]; omega), strSub, if_neg (by rw [List.length_cons]; omega), h,
      Nat.add_sub_cancel_left, List.take_left]

theorem push_of_drop (h : t.drop w.start = p ++ rest) :
    w.push t (w.start + p.length) =
      .ok { w with pts := w.pts ++ [p], cuts := w.cuts ++ [(w.start, w.start + p.length)] } := by
  rw [Walk.push, slice_of_drop h]
  rfl

/-- The walk goes over a text with no comma outside parentheses without a cut. -/
theorem fnWalkLoop_along (h : Along weight Inside w.depth s) (ht : t.drop i = s ++ rest) :
    fnWalkLoop t (s.length + n) i w =
      fnWalkLoop t n (i + s.length) { w with depth := w.depth + depthOf weight s } := by
  induction s generalizing w i with
  | nil =>
    rw [List.length_nil, depthOf_nil, add_zero w.depth, Nat.zero_add, Nat.add_zero]
  | cons c s ih =>
    have hcode : characterCodeAt t i = c := code_of_drop ht
    have hcomma : ¬(characterCodeAt t i = 44 ∧ w.depth = 0) := by
      rintro ⟨heq, hzero⟩
      have hpos := h.1.2 (by omega)
      omega
    have hstep : fnStep t i w = .ok { w with depth := w.depth + weight c } := by
      rw [fnStep, if_neg hcomma, hcode, weight]
    rw [List.length_cons, Nat.add_right_comm, fnWalkLoop, hstep]
    refine (ih h.2 (drop_of_cons ht)).trans ?_
    rw [depthOf_cons, ← add_assoc w.depth, Nat.add_assoc i, Nat.add_comm 1]

/-- A comma outside parentheses ends a piece, and the next one starts after the blank. -/
theorem fnWalkLoop_sep (hw : w.depth = 0) (hpiece : t.drop w.start = p ++ (spell ", " ++ rest)) :
    fnWalkLoop t (2 + n) (w.start + p.length) w =
      fnWalkLoop t n (w.start + p.length + 2)
        ⟨w.start + p.length + 2, 0, w.pts ++ [p], w.cuts ++ [(w.start, w.start + p.length)]⟩ := by
  have hcomma : t.drop (w.start + p.length) = 44 :: 32 :: rest := by
    rw [← List.drop_drop, hpiece, List.drop_left]
    rfl
  have hcut : characterCodeAt t (w.start + p.length) = 44 ∧ w.depth = 0 := ⟨code_of_drop hcomma, hw⟩
  have hstep : fnStep t (w.start + p.length) w =
      .ok ⟨w.start + p.length + 2, 0, w.pts ++ [p], w.cuts ++ [(w.start, w.start + p.length)]⟩ := by
    rw [fnStep, if_pos hcut, fnCut, push_of_drop hpiece, ← hw]
    rfl
  have hfuel : 2 + n = (1 + n) + 1 := by omega
  have hblank : Along weight Inside 0 [32] := (nested_of_plain (by decide)).along
  have hafter : t.drop (w.start + p.length + 1) = [32] ++ rest := drop_of_cons hcomma
  rw [hfuel, fnWalkLoop, hstep]
  exact fnWalkLoop_along hblank hafter

theorem addBrackets_ne {t : Text} (h : t ≠ []) (dims : Nat) : addBrackets t dims ≠ [] := by
  induction dims generalizing t with
  | zero => exact h
  | succ dims ih => exact ih (List.append_ne_nil_of_left_ne_nil h _)

theorem Ty.spelling_ne (t : Ty) : t.spelling ≠ [] := by
  cases t with
  | base name dims => exact addBrackets_ne name.ne dims
  | chanEnd side mtype => cases side <;> exact List.cons_ne_nil _ _
  | func params ret => exact List.cons_ne_nil _ _

/-- What the walk and the last piece leave of a list of parameters whose first one starts the piece. -/
theorem fnWalk_rest (q : Ty) (params : List Ty) (hw : w.depth = 0)
    (ht : t.drop w.start = q.spelling ++ (restSpelling params ++ rest)) (hfirst : 5 ≤ w.start) :
    ∃ w', (fnWalkLoop t (restSpelling params).length (w.start + q.spelling.length) w >>=
        fnLast t (w.start + q.spelling.length + (restSpelling params).length)) = .ok w' ∧
      w'.pts = w.pts ++ (q :: params).map Ty.spelling ∧
      ∀ c ∈ w'.cuts, c ∈ w.cuts ∨ c.1 ≤ c.2 ∧ c.2 ≤ t.length := by
  induction params generalizing q w with
  | nil =>
    have hbound := le_of_drop q.spelling_ne ht
    have hlast : 5 < w.start + q.spelling.length := by
      have hpos := List.length_pos_iff.mpr q.spelling_ne
      omega
    refine ⟨{ w with pts := w.pts ++ [q.spelling], cuts := w.cuts ++ [(w.start, w.start + q.spelling.length)] },
      ?_, ?_, ?_⟩
    · rw [restSpelling, List.length_nil, fnWalkLoop, Nat.add_zero]
      exact (if_pos hlast).trans (push_of_drop ht)
    · rfl
    · intro c hc
      rcases List.mem_append.mp hc with hc | hc
      · exact .inl hc
      · rw [List.mem_singleton.mp hc]
        exact .inr ⟨Nat.le_add_right _ _, hbound⟩
  | cons q' params ih =>
    rw [restSpelling, List.append_assoc, List.append_assoc] at ht
    have hbound := le_of_drop q.spelling_ne ht
    have hfirst' : 5 ≤ w.start + q.spelling.length + 2 := by omega
    have hnext : t.drop (w.start + q.spelling.length + 2) = q'.spelling ++ (restSpelling params ++ rest) := by
      rw [← List.drop_drop, ← List.drop_drop, ht, List.drop_left]
      rfl
    have hlen : (restSpelling (q' :: params)).length = 2 + (q'.spelling.length + (restSpelling params).length) := by
      rw [restSpelling, List.length_append, List.length_append, Nat.add_assoc]
      rfl
    have hwalk := fnWalkLoop_sep (n := q'.spelling.length + (restSpelling params).length) hw ht
    obtain ⟨w', hw', hpts, hcuts⟩ := ih (w := ⟨w.start + q.spelling.length + 2, 0, w.pts ++ [q.spelling],
      w.cuts ++ [(w.start, w.start + q.spelling.length)]⟩) q' rfl hnext hfirst'
    refine ⟨w', ?_, ?_, ?_⟩
    · rw [hlen, hwalk, fnWalkLoop_along (q'.spelling_nested).along hnext, q'.spelling_nested.depth]
      have hend : w.start + q.spelling.length + (2 + (q'.spelling.length + (restSpelling params).length)) =
          w.start + q.spelling.length + 2 + q'.spelling.length + (restSpelling params).length := by omega
      rw [hend]
      exact hw'
    · rw [hpts, List.append_assoc]
      rfl
    · intro c hc
      rcases hcuts c hc with hc | hc
      · rcases List.mem_append.mp hc with hc | hc
        · exact .inl hc
        · rw [List.mem_singleton.mp hc]
          exact .inr ⟨Nat.le_add_right _ _, hbound⟩
      · exact .inr hc

/-- The walk over the parameters of a function type. -/
theorem fnSplit_func (params : List Ty) (ret : Ty) :
    ∃ w, fnSplit (Ty.func params ret).spelling (fnClose (Ty.func params ret).spelling - 1) = .ok w ∧
      w.pts = params.map Ty.spelling ∧
      ∀ c ∈ w.cuts, c.1 ≤ c.2 ∧ c.2 ≤ (Ty.func params ret).spelling.length := by
  generalize htype : (Ty.func params ret).spelling = t
  have hhi : fnClose t - 1 = 5 + (paramsSpelling params).length := by
    rw [← htype, fnClose_func]
    rfl
  have hdrop : t.drop 5 = paramsSpelling params ++ (41 :: (spell " return " ++ ret.spelling)) := by
    rw [← htype, func_spelling]
    exact List.drop_left' rfl
  rw [fnSplit, fnWalk, hhi, Nat.add_sub_cancel_left]
  cases params with
  | nil =>
    refine ⟨⟨5, 0, [], []⟩, rfl, rfl, fun c hc => ?_⟩
    exact absurd hc List.not_mem_nil
  | cons p params =>
    rw [paramsSpelling, List.append_assoc] at hdrop
    obtain ⟨w, hw, hpts, hcuts⟩ := fnWalk_rest (w := ⟨5, 0, [], []⟩) p params rfl hdrop (le_refl 5)
    refine ⟨w, ?_, hpts, fun c hc => ?_⟩
    · rw [paramsSpelling, List.length_append, fnWalkLoop_along (p.spelling_nested).along hdrop,
        p.spelling_nested.depth, ← Nat.add_assoc]
      exact hw
    · exact (hcuts c hc).resolve_left List.not_mem_nil

/-! ## Types that are no functions -/

theorem addBrackets_plain (hs : ∀ c ∈ s, Plain c) (dims : Nat) : ∀ c ∈ addBrackets s dims, Plain c := by
  induction dims generalizing s with
  | zero => exact hs
  | succ dims ih =>
    refine ih fun c hc => ?_
    have hbrackets : ∀ c ∈ spell "[]", Plain c := by decide
    exact (List.mem_append.mp hc).elim (hs c) (hbrackets c)

theorem tyIsFunc_base (name : Name) (dims : Nat) : tyIsFunc (Ty.base name dims).spelling = 0 := by
  refine if_neg fun h => ?_
  have hcode := h.2
  unfold characterCodeAt at hcode
  split at hcode
  · cases hcode
  · next c hc =>
    have hplain := addBrackets_plain name.plain dims c (List.mem_of_getElem? hc)
    exact hplain.1 (by omega)

theorem tyIsFunc_chanEnd (side : End) (mtype : Ty) : tyIsFunc (Ty.chanEnd side mtype).spelling = 0 := by
  refine if_neg fun h => ?_
  cases side with
  | sender =>
    have hcode : characterCodeAt (Ty.chanEnd .sender mtype).spelling 0 = 115 := rfl
    exact absurd (hcode.symm.trans h.1) (by decide)
  | receiver =>
    have hcode : characterCodeAt (Ty.chanEnd .receiver mtype).spelling 0 = 114 := rfl
    exact absurd (hcode.symm.trans h.1) (by decide)

/-- A text is read as a function type of these parts, and no slice on the way leaves it. -/
structure ReadsBack (t : Text) (params : List Text) (ret : Text) : Prop where
  func : tyIsFunc t = 1
  params : fnParams t = .ok params
  ret : fnRet t = .ok ret
  cuts : ∃ cuts, paramCuts t = .ok cuts ∧ ∀ c ∈ retCut t :: cuts, c.1 ≤ c.2 ∧ c.2 ≤ t.length

/-- The parts of a function type's spelling are those it was made of, and no base type, struct or
list of those reads as a function type. -/
theorem spelling_read_back :
    (∀ params ret, ReadsBack (Ty.func params ret).spelling (params.map Ty.spelling) ret.spelling) ∧
    ∀ name dims, tyIsFunc (Ty.base name dims).spelling = 0 := by
  refine ⟨fun params ret => ?_, tyIsFunc_base⟩
  generalize htype : (Ty.func params ret).spelling = t
  have ht : t = spell "func(" ++ (paramsSpelling params ++ (41 :: (spell " return " ++ ret.spelling))) :=
    htype.symm.trans (func_spelling params ret)
  have hret : t.drop (fnClose t + 8) = ret.spelling ++ [] := by
    have hclose : fnClose t = 5 + (paramsSpelling params).length + 1 := by
      rw [← htype, fnClose_func]
    rw [hclose, List.append_nil, ht]
    have hsplit : spell "func(" ++ (paramsSpelling params ++ (41 :: (spell " return " ++ ret.spelling))) =
        (spell "func(" ++ paramsSpelling params ++ spell ") return ") ++ ret.spelling := by
      rw [← func_spelling, Ty.spelling]
    rw [hsplit]
    refine List.drop_left' ?_
    rw [List.length_append, List.length_append]
    rfl
  have hbound := le_of_drop ret.spelling_ne hret
  have hlen : fnClose t + 8 + ret.spelling.length = t.length := by
    have h := congrArg List.length hret
    rw [List.append_nil, List.length_drop] at h
    omega
  obtain ⟨w, hsplit, hpts, hcuts⟩ := fnSplit_func params ret
  rw [htype] at hsplit hcuts
  refine ⟨?_, ?_, ?_, w.cuts, ?_, ?_⟩
  · rw [ht]
    rfl
  · rw [fnParams, hsplit, ← hpts]
    rfl
  · have hslice := slice_of_drop hret
    rw [hlen] at hslice
    exact hslice
  · rw [paramCuts, hsplit]
    rfl
  · intro c hc
    rcases List.mem_cons.mp hc with rfl | hc
    · exact ⟨by rw [retCut]; omega, le_refl t.length⟩
    · exact hcuts c hc

/-- The list of parameters as the parser joins it. -/
theorem fnTypeParams_eq (params : List Ty) : fnTypeParams [] (params.map Ty.spelling) = paramsSpelling params := by
  have hrest (out : Text) (hout : out ≠ []) (params : List Ty) :
      fnTypeParams out (params.map Ty.spelling) = out ++ restSpelling params := by
    induction params generalizing out with
    | nil => exact (List.append_nil out).symm
    | cons p params ih =>
      have hsep : fnSep out = spell ", " := if_pos hout
      rw [List.map_cons, fnTypeParams, List.foldl_cons, hsep]
      refine (ih _ (List.append_ne_nil_of_right_ne_nil _ p.spelling_ne)).trans ?_
      rw [restSpelling, List.append_assoc, List.append_assoc, List.append_assoc]
  cases params with
  | nil => rfl
  | cons p params => exact hrest p.spelling p.spelling_ne params

end IdCompiler.Types

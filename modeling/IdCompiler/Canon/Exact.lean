import IdCompiler.Canon.Program

/-!
# When the fingerprint does not see names

A renamed function has the fingerprint of the function exactly if every callee
is written alike, and that is so under every renaming exactly if every call is
harmless.
-/

namespace IdCompiler.Canon

open IdCompiler.Core IdCompiler.Core.Writer IdCompiler.Source

variable {P : Program} {f : Func} {ρ callee : String → String} {fnNodeOf' : String → Int} {cloose : Bool}
  {k k' : Ctx} {D : String → Prop} {met : List String} {n : String}

/-! ## Units under other names -/

theorem canonParams_alike (hk : Setting k k' ρ callee D) (i : Nat) (ps : List Param)
    (h : ∀ p ∈ ps, D p.name) :
    Alike k k' ρ callee D (canonParams i ps) (canonParams i (ps.map fun p => ⟨p.type, ρ p.name⟩))
      (ps.map fun p => .read p.name) := by
  induction ps generalizing i with
  | nil => exact .fixed _
  | cons p ps ih =>
    have hname : Alike k k' ρ callee D (cn p.name) (cn (ρ p.name)) [.read p.name] :=
      .cn hk.inj (h p List.mem_cons_self)
    exact (hname.pre _).append (ih (i + 1) fun p hp => h p (List.mem_cons_of_mem _ hp))

theorem segText_alike (hk : Setting k k' ρ callee D) (f : Func)
    (h : ∀ ev ∈ f.order k, Fit k k' ρ callee D ev) :
    Alike k k' ρ callee D (segText k f) (segText k' (f.rename ρ callee)) (f.order k) := by
  have hparams := canonParams_alike hk 0 f.params fun p hp =>
    (h (.read p.name) (List.mem_append_left _ (List.mem_append_left _
      (List.mem_map_of_mem (f := fun p : Param => Event.read p.name) hp)))).1
  have hret := canonRet_alike hk f.ret fun ev hev =>
    h ev (List.mem_append_left _ (List.mem_append_right _ hev))
  have hbody := canonJoin_alike hk 0 f.body fun ev hev => h ev (List.mem_append_right _ hev)
  exact ((((((hparams.pre "(").post _).append hret).post "\x7b").append hbody).post "\x7d")

/-- The fingerprints are equal exactly if every callee is written alike. -/
theorem unitPlain_eq_iff (hk : Setting k k' ρ callee D) (f : Func) (hself : k.cself = f.name)
    (hself' : k'.cself = ρ f.name) (h : ∀ ev ∈ f.order k, Fit k k' ρ callee D ev) :
    unitPlain k'.fnNodeOf k'.cloose (f.rename ρ callee) = unitPlain k.fnNodeOf k.cloose f ↔
      ∀ p ∈ calls [] (f.order k), Same k k' ρ callee p := by
  have hwalk := segText_alike hk f h
  have htwin : Twin ρ D ⟨[], []⟩ ⟨[], []⟩ := ⟨rfl, rfl, fun n hn => absurd hn List.not_mem_nil⟩
  have himps := (hwalk.twin _ _ htwin).cimps
  have htext := (hwalk.text _ _ htwin).eq_iff
  have hctx : (⟨k.fnNodeOf, k.cloose, f.name⟩ : Ctx) = k := by rw [← hself]
  have hctx' : (⟨k'.fnNodeOf, k'.cloose, (f.rename ρ callee).name⟩ : Ctx) = k' := by
    rw [Func.rename, ← hself']
  rw [unitPlain, unitPlain, hctx, hctx', himps, ← htext, eq_comm]
  exact String.append_right_inj _

/-! ## Renamings of a function of a program -/

theorem Accepted.self_fn (hf : Accepted P f) : f.name ∈ P.fnames := hf.node _ hf.self

theorem Accepted.self_not_local (hf : Accepted P f) : f.name ∉ f.locals :=
  fun h => hf.local_fn _ h hf.self_fn

namespace Renames

theorem export_fixed (hρ : Renames P f ρ fnNodeOf') (hf : Accepted P f) (hn : n ∈ P.enames) : ρ n = n := by
  refine hρ.fixed n (fun h => hf.local_export n h hn) fun heq => ?_
  rw [heq] at hn
  exact hf.export_fn _ hn hf.self_fn

/-- Nothing is renamed to a function, a builtin or an export. -/
theorem of_taken (hρ : Renames P f ρ fnNodeOf') (hf : Accepted P f) {x : String}
    (hx : x ∈ f.locals ∨ x ∈ P.enames) (hn : ρ x ∈ P.fnames ∨ ρ x ∈ builtins ∨ ρ x ∈ P.enames) :
    ρ x = x ∧ x ∈ P.enames := by
  cases hx with
  | inr hx => exact ⟨hρ.export_fixed hf hx, hx⟩
  | inl hx =>
    obtain ⟨hfn, hbuiltin, hexport⟩ := hρ.image x hx
    rcases hn with hn | hn | hn
    · exact absurd hn hfn
    · exact absurd hn hbuiltin
    · exact absurd hn hexport

theorem dom_ne_self (hρ : Renames P f ρ fnNodeOf') (hf : Accepted P f) {x : String}
    (hx : x ∈ f.locals ∨ x ∈ P.enames) : ρ x ≠ ρ f.name := by
  cases hx with
  | inl hx => exact hρ.self_ne x hx
  | inr hx =>
    rw [hρ.export_fixed hf hx]
    intro heq
    rcases hρ.self with hself | ⟨-, -, hself, -⟩
    · rw [heq, hself] at hx
      exact hf.export_fn _ hx hf.self_fn
    · exact hself (heq ▸ hx)

theorem setting (hρ : Renames P f ρ fnNodeOf') (hf : Accepted P f) (cloose : Bool) :
    Setting (P.ctx cloose f) ⟨fnNodeOf', cloose, ρ f.name⟩ ρ (P.callee f ρ)
      (fun n => n ∈ f.locals ∨ n ∈ P.enames) where
  inj m n hm hn heq := by
    cases hn with
    | inr hn =>
      rw [hρ.export_fixed hf hn] at heq
      have hfix := hρ.of_taken hf hm (.inr (.inr (by rwa [heq])))
      exact hfix.1.symm.trans heq
    | inl hn =>
      cases hm with
      | inl hm => exact hρ.inj m hm n hn heq
      | inr hm =>
        rw [hρ.export_fixed hf hm] at heq
        exact absurd (heq ▸ hm) (hρ.image n hn).2.2
  shift n := by
    unfold Program.callee
    split
    · rfl
    · next hkept =>
      have hshift : "ushr" ∈ builtins := by decide
      constructor
      · intro heq
        by_cases hlocal : n ∈ f.locals
        · exact absurd (heq ▸ hshift) (hρ.image n hlocal).2.1
        · by_cases hself : n = f.name
          · rcases hρ.self with hsame | ⟨-, hno, -, -⟩
            · rw [hself, hsame] at heq
              exact absurd heq hf.not_reserved
            · rw [hself] at heq
              exact absurd (heq ▸ hshift) hno
          · rwa [hρ.fixed n hlocal hself] at heq
      · rintro rfl
        exact absurd ⟨fun h => hf.not_reserved h.symm, .inl hshift⟩ hkept
  loose := rfl

theorem fit (hρ : Renames P f ρ fnNodeOf') (hf : Accepted P f) (cloose : Bool) :
    ∀ ev ∈ f.order (P.ctx cloose f), Fit (P.ctx cloose f) ⟨fnNodeOf', cloose, ρ f.name⟩ ρ (P.callee f ρ)
      (fun n => n ∈ f.locals ∨ n ∈ P.enames) ev := by
  intro ev hev
  cases ev with
  | read n =>
    have hdom := hf.read cloose n hev
    refine ⟨hdom, Int.not_le.mp fun hfn => ?_⟩
    have hne : ρ n ≠ f.name := by
      intro heq
      have htaken := hρ.of_taken hf hdom (.inl (heq ▸ hf.self_fn))
      rw [htaken.1] at heq
      exact hf.export_fn _ htaken.2 (heq ▸ hf.self_fn)
    have hmem := hf.node _ ((hρ.others (ρ n) hne (hρ.dom_ne_self hf hdom)).mp hfn)
    have htaken := hρ.of_taken hf hdom (.inl hmem)
    rw [htaken.1] at hmem
    exact hf.export_fn _ htaken.2 hmem
  | call n =>
    have hident := hf.ident_call cloose n hev
    refine ⟨hident, ?_, fun hfn => ?_⟩
    · unfold Program.callee
      split
      · exact hident
      · by_cases hlocal : n ∈ f.locals ∨ n = f.name
        · exact hρ.ident n hlocal
        · rw [hρ.fixed n (fun h => hlocal (.inl h)) fun h => hlocal (.inr h)]
          exact hident
    · have hmem := hf.node n hfn
      by_cases hself : n = f.name
      · subst hself
        exact ⟨hρ.found, if_neg fun h => h.1 rfl⟩
      · have hfix := hρ.fixed n (fun h => hf.local_fn n h hmem) hself
        rw [hfix]
        refine ⟨(hρ.others n hself fun heq => ?_).mpr hfn, ?_⟩
        · rcases hρ.self with hsame | ⟨hno, -⟩
          · exact hself (heq.trans hsame)
          · exact hno (heq ▸ hmem)
        · unfold Program.callee
          split
          · rfl
          · exact hfix

end Renames

/-! ## Calls -/

/-- A callee is written as its place among the names met, or by its name. -/
theorem calleeText_cases (k : Ctx) (met : List String) (n : String) :
    (∃ i : Nat, met[i]? = some n ∧ calleeText k met n = "v" ++ toString i) ∨
      n ∉ met ∧ calleeText k met n = if n = k.cself then "self" else n := by
  rcases findStr_spec met n with ⟨hneg, hout⟩ | ⟨i, -, heq⟩
  · refine .inr ⟨hout, ?_⟩
    rw [calleeText, hneg]
    rfl
  · refine .inl ⟨i, (findStr_eq_nat heq).1, ?_⟩
    rw [calleeText, heq, if_pos (Int.natCast_nonneg i), Int.toNat_natCast]

theorem calleeText_of_not_mem (h : n ∉ met) : calleeText k met n = if n = k.cself then "self" else n := by
  rcases calleeText_cases k met n with ⟨i, hi, -⟩ | ⟨-, htext⟩
  · exact absurd (List.mem_of_getElem? hi) h
  · exact htext

namespace Renames

variable (hρ : Renames P f ρ fnNodeOf') (hf : Accepted P f) (hmet : ∀ m ∈ met, m ∈ f.locals ∨ m ∈ P.enames)
include hρ

theorem ne_self (hself : n ≠ f.name)
    (hn : n ∈ P.fnames ∨ n ∈ builtins ∨ n ∈ P.enames ∨ n ∈ P.sdname) : n ≠ ρ f.name := by
  intro heq
  rcases hρ.self with hsame | ⟨hfn, hbuiltin, hexport, hstruct⟩
  · exact hself (heq.trans hsame)
  · rw [heq] at hn
    rcases hn with hn | hn | hn | hn
    · exact hfn hn
    · exact hbuiltin hn
    · exact hexport hn
    · exact hstruct hn

include hf hmet

/-- A variable that was met, or an export, is written alike. -/
theorem same_of_dom (hn : n ∈ f.locals ∨ n ∈ P.enames) (hseen : n ∈ met ∨ n ∈ P.enames) :
    calleeText ⟨fnNodeOf', cloose, ρ f.name⟩ (met.map ρ) (ρ n) = calleeText (P.ctx cloose f) met n := by
  have hfind : findStr (met.map ρ) (ρ n) = findStr met n :=
    findStr_map fun m hm heq => (hρ.setting hf cloose).inj m n (hmet m hm) hn heq
  rw [calleeText, calleeText, hfind]
  by_cases hin : n ∈ met
  · have hpos : 0 ≤ findStr met n := Int.not_lt.mp fun h => findStr_neg_iff.mp h hin
    rw [if_pos hpos, if_pos hpos]
  · have hneg : ¬0 ≤ findStr met n := Int.not_le.mpr (findStr_neg_iff.mpr hin)
    have hexport := hseen.resolve_left hin
    have hself : n ≠ f.name := fun heq => hf.export_fn n hexport (heq ▸ hf.self_fn)
    rw [if_neg hneg, if_neg hneg, if_neg (hρ.dom_ne_self hf hn), hρ.export_fixed hf hexport]
    exact (if_neg hself).symm

/-- Another name than a variable's is not written as a position afterwards, but for a struct's. -/
theorem text_after (hself : n ≠ f.name) (hexport : n ∉ P.enames)
    (hn : n ∈ P.fnames ∨ n ∈ builtins ∨ Harmless P f met n ∧ n ∈ P.sdname) :
    calleeText ⟨fnNodeOf', cloose, ρ f.name⟩ (met.map ρ) n = n := by
  rcases calleeText_cases ⟨fnNodeOf', cloose, ρ f.name⟩ (met.map ρ) n with ⟨i, hi, htext⟩ | ⟨-, htext⟩
  · rw [List.getElem?_map] at hi
    obtain ⟨x, hx, rfl⟩ := Option.map_eq_some_iff.mp hi
    have hdom := hmet x (List.mem_of_getElem? hx)
    have hno : ¬(ρ x ∈ P.fnames ∨ ρ x ∈ builtins ∨ ρ x ∈ P.enames) := by
      intro htaken
      obtain ⟨heq, hin⟩ := hρ.of_taken hf hdom htaken
      rw [heq] at hexport
      exact hexport hin
    rcases hn with hn | hn | ⟨hharm, hn⟩
    · exact absurd (.inl hn) hno
    · exact absurd (.inr (.inl hn)) hno
    · have hlocal : x ∈ f.locals := by
        refine hdom.resolve_right fun hin => ?_
        have heq : ρ x = x := hρ.export_fixed hf hin
        rw [heq] at hexport
        exact hexport hin
      rw [htext, ← hharm.struct hn (fun h => hno (.inl h)) (fun h => hno (.inr (.inl h))) hexport i x hx hlocal]
  · rw [htext]
    refine if_neg (hρ.ne_self hself ?_)
    rcases hn with hn | hn | ⟨-, hn⟩
    · exact .inl hn
    · exact .inr (.inl hn)
    · exact .inr (.inr (.inr hn))

/-- A harmless call is written alike. -/
theorem same_of_harmless (hharm : Harmless P f met n)
    (hcall : n ∈ P.fnames ∨ n ∈ builtins ∨ n ∈ P.sdname ∨ n ∈ f.locals ∨ n ∈ P.enames) :
    Same (P.ctx cloose f) ⟨fnNodeOf', cloose, ρ f.name⟩ ρ (P.callee f ρ) (met, n) := by
  change calleeText _ (met.map ρ) (P.callee f ρ n) = calleeText _ met n
  by_cases hself : n = f.name
  · subst hself
    have hcallee : P.callee f ρ f.name = ρ f.name := if_neg fun h => h.1 rfl
    have hout : f.name ∉ met := fun h => (hmet _ h).elim hf.self_not_local fun h =>
      hf.export_fn _ h hf.self_fn
    have hout' : ρ f.name ∉ met.map ρ := fun h => by
      obtain ⟨x, hx, heq⟩ := List.mem_map.mp h
      exact hρ.dom_ne_self hf (hmet x hx) heq
    rw [hcallee, calleeText_of_not_mem hout, calleeText_of_not_mem hout']
    exact (if_pos rfl).trans (if_pos rfl).symm
  by_cases hexport : n ∈ P.enames
  · have hcallee : P.callee f ρ n = ρ n := by
      unfold Program.callee
      split
      · exact (hρ.export_fixed hf hexport).symm
      · rfl
    rw [hcallee]
    exact hρ.same_of_dom hf hmet (.inr hexport) (.inr hexport)
  by_cases hkept : n ∈ builtins ∨ n ∈ P.sdname
  · have hcallee : P.callee f ρ n = n := if_pos ⟨hself, hkept⟩
    rw [hcallee, hρ.text_after hf hmet hself hexport (.inr (hkept.imp_right fun h => ⟨hharm, h⟩))]
    rcases calleeText_cases (P.ctx cloose f) met n with ⟨i, hi, htext⟩ | ⟨-, htext⟩
    · have hlocal := (hmet n (List.mem_of_getElem? hi)).resolve_right hexport
      rw [htext]
      exact hharm.named hkept hlocal i hi
    · rw [htext]
      exact (if_neg hself).symm
  · have hcallee : P.callee f ρ n = ρ n := if_neg fun h => hkept h.2
    rw [hcallee]
    by_cases hlocal : n ∈ f.locals
    · have hseen := hharm.var hlocal (fun h => hkept (.inl h)) fun h => hkept (.inr h)
      exact hρ.same_of_dom hf hmet (.inl hlocal) (.inl hseen)
    · have hfn : n ∈ P.fnames := by
        rcases hcall with h | h | h | h | h
        · exact h
        · exact absurd (.inl h) hkept
        · exact absurd (.inr h) hkept
        · exact absurd h hlocal
        · exact absurd h hexport
      have hout : n ∉ met := fun h => (hmet n h).elim hlocal hexport
      rw [hρ.fixed n hlocal hself, hρ.text_after hf hmet hself hexport (.inl hfn), calleeText_of_not_mem hout]
      exact (if_neg hself).symm

end Renames

/-! ## Renamings that show a call -/

theorem nodup_getElem?_inj {i j : Nat} (h : met.Nodup) (hi : met[i]? = some n) (hj : met[j]? = some n) :
    i = j := by
  obtain ⟨hlt, -⟩ := List.getElem?_eq_some_iff.mp hi
  exact (List.getElem?_inj hlt h).mp (hi.trans hj.symm)

theorem Accepted.renames (hf : Accepted P f) (hfix : ∀ n, n ∉ f.locals → ρ n = n)
    (hident : ∀ n ∈ f.locals, isIdent (ρ n))
    (hinj : ∀ m ∈ f.locals, ∀ n ∈ f.locals, ρ m = ρ n → m = n)
    (himage : ∀ n ∈ f.locals, ρ n ∉ P.fnames ∧ ρ n ∉ builtins ∧ ρ n ∉ P.enames) :
    Renames P f ρ P.fnNodeOf := by
  have hsame : ρ f.name = f.name := hfix _ hf.self_not_local
  refine ⟨fun n hn _ => hfix n hn, fun n hn => ?_, hinj, himage, .inl hsame, fun n hn heq => ?_,
    fun n _ _ => Iff.rfl, ?_⟩
  · cases hn with
    | inl hn => exact hident n hn
    | inr hn =>
      rw [hn, hsame]
      exact hf.ident _ (.inr rfl)
  · rw [hsame] at heq
    exact (himage n hn).1 (heq ▸ hf.self_fn)
  · rw [hsame]
    exact hf.self

/-- There is a beginning that no name in a list has. -/
theorem exists_fresh (names : List String) : ∃ z, isIdent z ∧ ∀ n ∈ names, ∀ y, z ++ y ≠ n := by
  have hbound : ∃ b, ∀ n ∈ names, n.toList.length ≤ b := by
    induction names with
    | nil => exact ⟨0, fun n hn => absurd hn List.not_mem_nil⟩
    | cons m names ih =>
      obtain ⟨b, hb⟩ := ih
      refine ⟨max m.toList.length b, fun n hn => ?_⟩
      cases List.mem_cons.mp hn with
      | inl heq => exact heq ▸ le_max_left _ _
      | inr hn => exact le_trans (hb n hn) (le_max_right _ _)
  obtain ⟨b, hb⟩ := hbound
  refine ⟨String.ofList (List.replicate (b + 1) 'z'), ?_, fun n hn y heq => ?_⟩
  · rw [isIdent, String.toList_ofList, List.all_replicate]
    rfl
  · have hlen := hb n hn
    rw [← heq, String.toList_append, String.toList_ofList, List.length_append, List.length_replicate] at hlen
    omega

/-- The locals with another beginning. -/
def prefixed (f : Func) (z y : String) : String := if y ∈ f.locals then z ++ y else y

theorem Accepted.renames_prefixed (hf : Accepted P f) {z : String} (hident : isIdent z)
    (hz : ∀ m ∈ P.fnames ++ builtins ++ P.enames, ∀ y, z ++ y ≠ m) :
    Renames P f (prefixed f z) P.fnNodeOf := by
  refine hf.renames (fun n hn => if_neg hn) (fun n hn => ?_) (fun m hm n hn heq => ?_) fun n hn => ?_
  · rw [prefixed, if_pos hn]
    exact isIdent_append hident (hf.ident n (.inl hn))
  · rw [prefixed, prefixed, if_pos hm, if_pos hn] at heq
    exact (String.append_right_inj z).mp heq
  · rw [prefixed, if_pos hn]
    refine ⟨fun h => ?_, fun h => ?_, fun h => ?_⟩
    · exact hz _ (List.mem_append_left _ (List.mem_append_left _ h)) n rfl
    · exact hz _ (List.mem_append_left _ (List.mem_append_right _ h)) n rfl
    · exact hz _ (List.mem_append_right _ h) n rfl

/-- The same but for one local, which gets a name that is not taken. -/
theorem Accepted.renames_update (hf : Accepted P f) {z x t : String} (hident : isIdent z)
    (hz : ∀ m ∈ P.fnames ++ builtins ++ P.enames, ∀ y, z ++ y ≠ m) (hx : x ∈ f.locals) (ht : isIdent t)
    (hzt : ∀ y, z ++ y ≠ t) (htaken : t ∉ P.fnames ∧ t ∉ builtins ∧ t ∉ P.enames) :
    Renames P f (Function.update (prefixed f z) x t) P.fnNodeOf := by
  have hall := hf.renames_prefixed hident hz
  have hne (n : String) (hn : n ∈ f.locals) : prefixed f z n ≠ t := by
    rw [prefixed, if_pos hn]
    exact hzt n
  refine hf.renames (fun n hn => ?_) (fun n hn => ?_) (fun m hm n hn heq => ?_) fun n hn => ?_
  · rw [Function.update_of_ne fun h => hn (by rw [h]; exact hx), prefixed, if_neg hn]
  · by_cases hnx : n = x
    · rw [hnx, Function.update_self]
      exact ht
    · rw [Function.update_of_ne hnx]
      exact hall.ident n (.inl hn)
  · by_cases hmx : m = x
    · by_cases hnx : n = x
      · rw [hmx, hnx]
      · rw [hmx, Function.update_self, Function.update_of_ne hnx] at heq
        exact absurd heq.symm (hne n hn)
    · by_cases hnx : n = x
      · rw [hnx, Function.update_self, Function.update_of_ne hmx] at heq
        exact absurd heq (hne m hm)
      · rw [Function.update_of_ne hnx, Function.update_of_ne hmx] at heq
        exact hall.inj m hm n hn heq
  · by_cases hnx : n = x
    · rw [hnx, Function.update_self]
      exact htaken
    · rw [Function.update_of_ne hnx]
      exact hall.image n hn

/-- A call that every renaming writes alike is harmless. -/
theorem Accepted.harmless_of_same (hf : Accepted P f) (hmet : ∀ m ∈ met, m ∈ f.locals ∨ m ∈ P.enames)
    (hnodup : met.Nodup) (hident : isIdent n)
    (hall : ∀ ρ, Renames P f ρ P.fnNodeOf →
      Same (P.ctx cloose f) ⟨P.fnNodeOf, cloose, ρ f.name⟩ ρ (P.callee f ρ) (met, n)) :
    Harmless P f met n := by
  obtain ⟨z, hz, hfresh⟩ := exists_fresh (P.fnames ++ builtins ++ P.enames ++ (n :: f.locals))
  have hprefixed := hf.renames_prefixed hz fun m hm => hfresh m (List.mem_append_left _ hm)
  have hzn : ∀ y, z ++ y ≠ n := hfresh n (List.mem_append_right _ List.mem_cons_self)
  have hself : prefixed f z f.name = f.name := if_neg hf.self_not_local
  -- with other beginnings, no variable has the name of a callee
  have hafter (hlocal : n ∈ f.locals) : n ∉ met.map (prefixed f z) := by
    intro hin
    obtain ⟨x, hx, heq⟩ := List.mem_map.mp hin
    cases hmet x hx with
    | inl hx =>
      rw [prefixed, if_pos hx] at heq
      exact hzn x heq
    | inr hx =>
      rw [hprefixed.export_fixed hf hx] at heq
      exact hf.local_export n hlocal (heq ▸ hx)
  have hne (hlocal : n ∈ f.locals) : n ≠ f.name := fun heq => hf.self_not_local (heq ▸ hlocal)
  have hnamed : n ∈ builtins ∨ n ∈ P.sdname → n ∈ f.locals → ∀ i : Nat, met[i]? = some n →
      n = "v" ++ toString i := by
    intro hkept hlocal i hi
    have hsame := hall _ hprefixed
    have hcallee : P.callee f (prefixed f z) n = n := if_pos ⟨hne hlocal, hkept⟩
    rw [Same, hcallee, calleeText_of_not_mem (hafter hlocal)] at hsame
    rcases calleeText_cases (P.ctx cloose f) met n with ⟨j, hj, htext⟩ | ⟨hout, -⟩
    · have hij : i = j := nodup_getElem?_inj hnodup hi hj
      rw [htext, hself, if_neg (hne hlocal), ← hij] at hsame
      exact hsame
    · exact absurd (List.mem_of_getElem? hi) hout
  refine ⟨fun hlocal hbuiltin hstruct => ?_, hnamed, fun hstruct hfn hbuiltin hexport i x hi hx => ?_⟩
  · by_contra hout
    have hsame := hall _ hprefixed
    have hcallee : P.callee f (prefixed f z) n = z ++ n := by
      refine (if_neg fun h => h.2.elim hbuiltin hstruct).trans ?_
      exact if_pos hlocal
    have hout' : z ++ n ∉ met.map (prefixed f z) := by
      intro hin
      obtain ⟨x, hx, heq⟩ := List.mem_map.mp hin
      have hxn := (hprefixed.setting hf cloose).inj x n (hmet x hx) (.inl hlocal)
        (heq.trans (if_pos hlocal).symm)
      exact hout (hxn ▸ hx)
    have hzself : z ++ n ≠ f.name := hfresh _ (List.mem_append_left _ (List.mem_append_left _
      (List.mem_append_left _ hf.self_fn))) n
    rw [Same, hcallee, calleeText_of_not_mem hout', calleeText_of_not_mem hout, hself, if_neg hzself] at hsame
    exact hzn n (hsame.trans (if_neg (hne hlocal)))
  · by_cases hnx : n = x
    · exact hnamed (.inr hstruct) (hnx ▸ hx) i (hnx ▸ hi)
    · have hself' : n ≠ f.name := fun heq => hfn (heq ▸ hf.self_fn)
      have hsame := hall _ (hf.renames_update hz (fun m hm => hfresh m (List.mem_append_left _ hm)) hx hident
        hzn ⟨hfn, hbuiltin, hexport⟩)
      have hcallee : P.callee f (Function.update (prefixed f z) x n) n = n := if_pos ⟨hself', .inr hstruct⟩
      have hback (y : String) (hy : y ∈ met) (heq : Function.update (prefixed f z) x n y = n) : y = x := by
        by_contra hyx
        rw [Function.update_of_ne hyx] at heq
        cases hmet y hy with
        | inl hlocal =>
          rw [prefixed, if_pos hlocal] at heq
          exact hzn y heq
        | inr hy =>
          rw [hprefixed.export_fixed hf hy] at heq
          exact hexport (heq ▸ hy)
      have hafter : calleeText ⟨P.fnNodeOf, cloose, Function.update (prefixed f z) x n f.name⟩
          (met.map (Function.update (prefixed f z) x n)) n = "v" ++ toString i := by
        rcases calleeText_cases _ (met.map (Function.update (prefixed f z) x n)) n with
          ⟨j, hj, htext⟩ | ⟨hout, -⟩
        · rw [List.getElem?_map] at hj
          obtain ⟨y, hy, heq⟩ := Option.map_eq_some_iff.mp hj
          have hyx := hback y (List.mem_of_getElem? hy) heq
          rw [htext, nodup_getElem?_inj hnodup hi (hyx ▸ hy)]
        · refine absurd (List.mem_map.mpr ⟨x, List.mem_of_getElem? hi, ?_⟩) hout
          rw [Function.update_self]
      rw [Same, hcallee, hafter] at hsame
      rcases calleeText_cases (P.ctx cloose f) met n with ⟨j, hj, htext⟩ | ⟨-, htext⟩
      · have hlocal := (hmet n (List.mem_of_getElem? hj)).resolve_right hexport
        exact (hnamed (.inr hstruct) hlocal j hj).trans (hsame.trans htext).symm
      · rw [hsame, htext]
        exact (if_neg hself').symm

/-! ## Fingerprints -/

theorem Renames.unitPlain_eq_iff (hρ : Renames P f ρ fnNodeOf') (hf : Accepted P f) :
    unitPlain fnNodeOf' cloose (f.rename ρ (P.callee f ρ)) = unitPlain P.fnNodeOf cloose f ↔
      ∀ p ∈ calls [] (f.order (P.ctx cloose f)),
        Same (P.ctx cloose f) ⟨fnNodeOf', cloose, ρ f.name⟩ ρ (P.callee f ρ) p :=
  Canon.unitPlain_eq_iff (hρ.setting hf cloose) f rfl rfl (hρ.fit hf cloose)

/-- A program of two functions, without structs and exports. -/
def small : Program := ⟨["f", "inc"], findStr ["f", "inc"], [], []⟩

/-- `f(func(int) return int g) { } return int g(3);` -/
def callsParam : Func :=
  ⟨"f", [⟨"func(int) return int", "g"⟩], "int", [], some (.call "g" [.int "3" 3 0])⟩

theorem callsParam_order (cloose : Bool) :
    callsParam.order (small.ctx cloose callsParam) = [.read "g", .call "g"] := by
  cases cloose <;> decide

theorem callsParam_accepted : Accepted small callsParam where
  node n h := by
    by_contra hn
    have hneg : findStr ["f", "inc"] n < 0 := findStr_neg_iff.mpr hn
    exact absurd h (not_le.mpr hneg)
  self := by decide
  not_reserved := by decide
  local_fn := by decide
  export_fn := by decide
  local_export := by decide
  read cloose n h := by
    rw [callsParam_order] at h
    simp at h
    rw [h]
    decide
  call cloose n h := by
    rw [callsParam_order] at h
    simp at h
    rw [h]
    decide
  ident := by
    rintro n (hn | rfl)
    · rw [List.mem_singleton.mp hn]
      decide
    · decide
  ident_call cloose n h := by
    rw [callsParam_order] at h
    simp at h
    rw [h]
    decide

theorem callsParam_harmless :
    ∀ p ∈ calls [] (callsParam.order (small.ctx false callsParam)), Harmless small callsParam p.1 p.2 := by
  rw [callsParam_order]
  intro p hp
  rw [List.mem_singleton.mp hp]
  refine ⟨by decide, fun hnamed => ?_, fun hstruct => absurd hstruct List.not_mem_nil⟩
  cases hnamed with
  | inl hbuiltin => exact absurd hbuiltin (by decide)
  | inr hstruct => exact absurd hstruct List.not_mem_nil

/-- `g` becomes `h`. -/
def gToH (n : String) : String := if n = "g" then "h" else n

theorem renames_gToH {f : Func} (hname : f.name = "f") (hlocals : f.locals = ["g"]) :
    Renames small f gToH small.fnNodeOf where
  fixed n hn _ := by
    have hne : n ≠ "g" := by
      rintro rfl
      rw [hlocals] at hn
      exact hn List.mem_cons_self
    exact if_neg hne
  ident n hn := by
    rw [hlocals, hname] at hn
    rcases hn with hn | rfl
    · rw [List.mem_singleton.mp hn]
      decide
    · decide
  inj := by
    rw [hlocals]
    decide
  image := by
    rw [hlocals]
    decide
  self := by
    rw [hname]
    exact .inl rfl
  self_ne := by
    rw [hlocals, hname]
    decide
  others _ _ _ := Iff.rfl
  found := by
    rw [hname]
    decide

/-- `f() { func(int) return int g = inc; } return int g(3);` -/
def callsLocal : Func :=
  ⟨"f", [], "int", [.decl "func(int) return int" "g" false (.var "inc")], some (.call "g" [.int "3" 3 0])⟩

end IdCompiler.Canon

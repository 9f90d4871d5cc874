import IdCompiler.Fast.Body

/-!
# What a round does to the counters

A condition that lets a round in has every counter below its limit, and a round
whose statements make a step on every path has stepped a counter when it ends.
-/

namespace IdCompiler.Fast

open IdCompiler.Core Behave

variable {p : Prog} {R : Runtime} {c : Ctx} {ok : Event → Prop} {s : State}

/-! ## The condition -/

/-- A limit as the condition reads it; `len` answers an int. -/
def State.limit (s : State) : Expr → Option Int
  | .var _ x => (s.vals x).num
  | .int _ v w => some (litNum v w)
  | e =>
    match lpLenarg e with
    | some (.var _ x) => ((s.vals x).seqLen s.heap).map fun n => (BitVec.ofNat 32 n).toInt
    | _ => none

theorem lpLenarg_eq_some {e a : Expr} (h : lpLenarg e = some a) :
    ∃ id vid x, e = .call id "len" (.cons (.var vid x) .nil) ∧ a = .var vid x := by
  unfold lpLenarg at h
  split at h
  · next id args =>
    split at h
    · next vid x hone =>
      unfold Args.one at hone
      split at hone
      · obtain rfl := Option.some.inj hone
        exact ⟨id, vid, x, rfl, (Option.some.inj h).symm⟩
      · simp at hone
    · simp at h
  · simp at h

/-- Reading a limit changes nothing. -/
theorem evalE_limit {lim : Expr} (h : lpLimit lim = true) :
    Holds ok (· = s) (evalE p R lim) fun v t =>
      t = s ∧ ∀ n, s.limit lim = some n → v.num = some n := by
  cases lim with
  | int id v w =>
    refine Holds.ret fun t ht => ⟨ht, fun n hn => ?_⟩
    obtain rfl := Option.some.inj hn
    cases w <;> rfl
  | var id x => exact Holds.get fun t ht => ⟨ht, fun n hn => by rw [ht]; exact hn⟩
  | call id f args =>
    simp only [lpLimit, Option.isSome_iff_exists] at h
    obtain ⟨a, ha⟩ := h
    obtain ⟨id', vid, x, heq, rfl⟩ := lpLenarg_eq_some ha
    simp only [Expr.call.injEq] at heq
    obtain ⟨-, rfl, rfl⟩ := heq
    simp only [evalE, evalArgs]
    refine Holds.bind (Q := fun vs t => t = s ∧ vs = [s.vals x]) ?_ fun vs =>
      Holds.of_pre fun t ht => ?_
    · refine Holds.bind (Q := fun v t => t = s ∧ v = s.vals x)
        (Holds.get fun t ht => ⟨ht, by rw [ht]⟩) fun v => ?_
      refine Holds.bind (Q := fun vs t => t = s ∧ v = s.vals x ∧ vs = [])
        (Holds.ret fun t ht => ⟨ht.1, ht.2, rfl⟩) fun vs => Holds.ret fun t ht => ⟨ht.1, ?_⟩
      rw [ht.2.1, ht.2.2]
    · obtain ⟨rfl, rfl⟩ := ht
      refine Holds.rel fun u u' v hu hv => ?_
      obtain ⟨rfl, n, hn, rfl⟩ := hv
      obtain rfl := hu
      refine ⟨rfl, fun m hm => ?_⟩
      simp only [State.limit, ha, hn] at hm
      exact hm
  | imp | bin | index | other => simp [lpLimit, lpLenarg] at h

/-- Every counter the condition bounds is below its limit, where both are numbers. -/
def Below (bounds : List (String × Expr)) (s : State) : Prop :=
  ∀ b ∈ bounds, ∀ m n, (s.vals b.1).num = some m → s.limit b.2 = some n → m < n

/-- A condition of bounds changes nothing, and is false unless the counters are below. -/
theorem evalE_cond {e : Expr} (h : (lpCond e).2 = false) :
    Holds ok (· = s) (evalE p R e) fun v t =>
      t = s ∧ (v.truth ≠ some false → Below (lpCond e).1 s) := by
  fun_induction lpCond e with
  | case1 id l r a b ihl ihr =>
    simp only [Bool.or_eq_false_iff] at h
    simp only [evalE]
    refine Holds.bind (ihl h.1) fun va => Holds.of_pre fun t ht => ?_
    obtain ⟨rfl, ha⟩ := ht
    split
    · exact Holds.ret fun t ht => ⟨ht, fun hf => absurd (Val.truth_ofBool false) hf⟩
    · next hne => cases hne
    · next hfalse =>
      refine Holds.bind (ihr h.2) fun vb => ?_
      have hjoin : (vb.truth ≠ some false → Below b.1 t) → vb.truth ≠ some false →
          Below (a.1 ++ b.1) t := fun hb hvb x hx => by
        rcases List.mem_append.mp hx with hx | hx
        · exact ha (fun hc => hfalse rfl hc) x hx
        · exact hb hvb x hx
      simp only [evalBin]
      split
      · next tb htb =>
        refine Holds.ret fun u hu => ⟨hu.1, fun hne => hjoin hu.2 ?_⟩
        rw [htb]
        rw [Val.truth_ofBool] at hne
        exact hne
      · next htb =>
        refine Holds.any fun v => Holds.ret fun u hu => ⟨hu.1, fun _ => hjoin hu.2 ?_⟩
        rw [htb]
        simp
  | case2 id vid j r hlim =>
    simp only [evalE]
    refine Holds.bind (Q := fun v t => t = s ∧ v = s.vals j)
      (Holds.get fun t ht => ⟨ht, by rw [ht]⟩) fun va => Holds.of_pre fun t ht => ?_
    obtain ⟨rfl, rfl⟩ := ht
    refine Holds.bind (evalE_limit hlim) fun vb => ?_
    simp only [evalBin]
    split
    · next m n hm hn =>
      refine Holds.ret fun u hu => ⟨hu.1, fun hne b hb m' n' hm' hn' => ?_⟩
      obtain rfl := List.mem_singleton.mp hb
      have hn'' := hu.2 n' hn'
      rw [hm] at hm'
      rw [hn] at hn''
      simp only [Option.some.injEq] at hm' hn''
      by_contra hc
      rw [Val.truth_ofBool] at hne
      simp [hm', hn'', hc] at hne
    · next hnum =>
      refine Holds.any fun v => Holds.ret fun u hu => ⟨hu.1, fun _ b hb m' n' hm' hn' => ?_⟩
      obtain rfl := List.mem_singleton.mp hb
      exact absurd (hu.2 n' hn') fun h => hnum m' n' hm' h
  | case3 => simp at h
  | case4 => simp at h

/-! ## A step on every path -/

/-- The plan's view of part of the loop. -/
def Ctx.only (c : Ctx) (ns : List Node) : Ctx := { c with ns := ns }

theorem Ctx.Clean.only (hc : c.Clean) {ns : List Node} (h : ns ⊆ c.ns) : (c.only ns).Clean where
  named := hc.named
  clean := List.all_eq_true.mpr fun nd hnd => List.all_eq_true.mp hc.clean nd (h hnd)

theorem Ctx.touched_only {ns : List Node} (h : ns ⊆ c.ns) {x : String}
    (hx : (c.only ns).touched x) : c.touched x := by
  obtain ⟨id, f, args, hmem, hf⟩ := hx
  exact ⟨id, f, args, h hmem, hf⟩

theorem Covered.trivial {T : List Stmt} {D ns : List Node} :
    Covered (fun _ => True) c T s D ns :=
  fun _ _ _ _ _ _ _ => .inl fun _ _ _ => True.intro

theorem Mid.now {D : List Node} {t : State} (h : Mid c D s t) : Now c [] D s t :=
  { h with
    locs := fun _ _ _ _ _ h => by simp at h
    done := by simp [blockNodes] }

/-- A name with room for every step the body can make of it. -/
def Roomy (c : Ctx) (s : State) (x : String) : Prop :=
  ¬c.touched x ∧ lpCntOther c.ns x = 0 ∧
    ∃ m, (s.vals x).num = some m ∧ m + lpCnt c.ns x ≤ (s.vals x).ty.max

/-- A counter of the condition holds more than it did. -/
def Stepped (c : Ctx) (s t : State) : Prop :=
  ∃ b ∈ c.bounds, ∃ m m', (s.vals b.1).num = some m ∧ (t.vals b.1).num = some m' ∧ m + 1 ≤ m'

theorem lpCntOther_le {a b : List Node} (h : a.Subperm b) (x : String) :
    lpCntOther a x ≤ lpCntOther b x :=
  h.countP_le _

/-- The statements after a step leave it made. -/
theorem runB_stepped (hc : c.Clean) (hroom : ∀ b ∈ c.bounds, Roomy c s b.1) (ss : List Stmt)
    (D : List Node) (hsub : (D ++ blockNodes ss).Subperm c.ns) :
    Holds (fun _ => True) (fun t => Stepped c s t ∧ Mid c D s t) (runB c.prog R ss) fun o t =>
      o = .norm → Stepped c s t := by
  refine Holds.of_pre fun u hu => ?_
  obtain ⟨⟨b, hb, m, m', hm, hm', hle⟩, hmid⟩ := hu
  have hin : blockNodes ss ⊆ c.ns := fun _ h => hsub.subset (List.mem_append_right _ h)
  have hsubp : (blockNodes ss).Subperm c.ns :=
    (List.sublist_append_right D (blockNodes ss)).subperm.trans hsub
  have hrun : Holds (fun _ => True) _ (runB c.prog R ss) _ :=
    runB_now (s := u) (T := []) (hc.only hin) ss [] (List.Subperm.refl _) Covered.trivial
  have hstart : ∀ t, t = u → Now (c.only (blockNodes ss)) [] [] u t := fun t ht => by
    rw [ht]
    exact Now.start _ u
  refine (hrun.pre hstart).post fun o t h ho => ?_
  obtain ⟨htouch, hother, m₀, hm₀, hmax⟩ := hroom b hb
  obtain rfl := Option.some.inj (hm.symm.trans hm₀)
  obtain ⟨m₁, hm₁, hty, -, hhi⟩ := hmid.step b.1 m htouch hother hm hmax
  obtain rfl := Option.some.inj (hm'.symm.trans hm₁)
  have htotal := lpCnt_le hsub b.1
  rw [lpCnt_append] at htotal
  have hother' : lpCntOther (blockNodes ss) b.1 = 0 := by
    have := lpCntOther_le hsubp b.1
    omega
  obtain ⟨m₂, hm₂, -, hlo, -⟩ := (h ho).step b.1 m' (fun ht => htouch (Ctx.touched_only hin ht))
    hother' hm' (by rw [hty]; simp only [Ctx.only]; omega)
  exact ⟨b, hb, m, m₂, hm, hm₂, by omega⟩

theorem boundOf_mem {bounds : List (String × Expr)} {j : String} {lim : Expr}
    (h : boundOf bounds j = some lim) : (j, lim) ∈ bounds := by
  obtain ⟨b, hb, rfl⟩ := Option.map_eq_some_iff.mp h
  have hj : b.1 = j := by simpa using List.find?_some hb
  have hmem := List.mem_of_find?_eq_some hb
  rw [← hj]
  exact List.mem_reverse.mp hmem

theorem boundOf_isSome {bounds : List (String × Expr)} {b : String × Expr} (h : b ∈ bounds) :
    ∃ lim, boundOf bounds b.1 = some lim := by
  have hsome : (bounds.reverse.find? fun b' => b'.1 = b.1).isSome :=
    List.find?_isSome.mpr ⟨b, List.mem_reverse.mpr h, by simp⟩
  obtain ⟨b', hb'⟩ := Option.isSome_iff_exists.mp hsome
  exact ⟨b'.2, by simp [boundOf, hb']⟩

mutual
theorem lxPstmt_stepped (hc : c.Clean) (hroom : ∀ b ∈ c.bounds, Roomy c s b.1) (st : Stmt)
    (hst : lxPstmt c.bounds st = true) (D : List Node) (hsub : (D ++ st.nodes).Subperm c.ns) :
    Holds (fun _ => True) (Mid c D s) (runS c.prog R st) fun o t => o = .norm → Stepped c s t := by
  match st with
  | .assign id x rhs =>
    simp only [lxPstmt, Bool.and_eq_true, Option.isSome_iff_exists] at hst
    obtain ⟨hinc, lim, hlim⟩ := hst
    have hb := boundOf_mem hlim
    obtain ⟨htouch, hother, m, hm, hmax⟩ := hroom _ hb
    refine Holds.of_pre fun u hu => ?_
    obtain ⟨e, w, hone, hw, hv⟩ := lpIsinc_assign (t := u) hinc
    simp only [runS]
    refine Holds.bind (evalE_pure hv) fun v => Holds.rel fun t t' o ht ht' _ => ?_
    obtain ⟨rfl, rfl⟩ := ht
    obtain ⟨rfl, -⟩ := ht'
    obtain ⟨m', hm', hty, hlo, hhi⟩ := hu.step x m htouch hother hm hmax
    have htotal := lpCnt_le hsub x
    have hpos : 0 < lpCnt (Stmt.assign id x rhs).nodes x :=
      lpCnt_pos (Stmt.mem_nodes_self _) rfl
    rw [lpCnt_append] at htotal
    have hval := (step_value hone hw hm' (by rw [hty]; simp only at hmax; omega)).1
    exact ⟨(x, lim), hb, m, m' + 1, hm, by simpa using hval, by omega⟩
  | .cond id e thn els =>
    simp only [lxPstmt, Bool.and_eq_true] at hst
    simp only [Stmt.nodes] at hsub
    have hin : e.nodes ⊆ c.ns := fun _ h => hsub.subset (by simp [h])
    have he : Holds (fun _ => True) _ (evalE c.prog R e) _ :=
      evalE_stable hc (Now.stable (T := []) (D := D) (s := s)) e hin
        fun _ _ _ _ => .inl fun _ _ _ => True.intro
    have hthn := lxProg_stepped hc hroom thn hst.1 D (subperm_part hsub (by simp))
    have hels := lxProg_stepped hc hroom els hst.2 D (subperm_part hsub (els_sublist ..))
    simp only [runS]
    refine Holds.bind (he.mono (fun _ h => h.now) fun _ _ h => h.toMid) fun v => ?_
    split
    · exact hthn
    · exact hels
    · exact Holds.choice hthn hels
  | .decl .. | .iassign .. | .loop .. | .brk .. | .ret .. | .other .. => simp [lxPstmt] at hst
theorem lxProg_stepped (hc : c.Clean) (hroom : ∀ b ∈ c.bounds, Roomy c s b.1) (ss : List Stmt)
    (hss : lxProg c.bounds ss = true) (D : List Node)
    (hsub : (D ++ blockNodes ss).Subperm c.ns) :
    Holds (fun _ => True) (Mid c D s) (runB c.prog R ss) fun o t => o = .norm → Stepped c s t := by
  match ss with
  | [] => simp [lxProg] at hss
  | st :: rest =>
    simp only [lxProg, Bool.or_eq_true] at hss
    simp only [blockNodes] at hsub
    have hsubst := subperm_part hsub (List.sublist_append_left ..)
    have hsubrest : ((D ++ st.nodes) ++ blockNodes rest).Subperm c.ns := by simpa using hsub
    have hnow : Holds (fun _ => True) _ (runS c.prog R st) _ :=
      runS_now (s := s) (T := []) hc st D hsubst Covered.trivial
    have hmid := hnow.pre fun _ (h : Mid c D s _) => h.now
    simp only [runB]
    rcases hss with hst | hrest
    · refine Holds.bind (hmid.and (lxPstmt_stepped hc hroom st hst D hsubst)) fun o => ?_
      split
      · next ho =>
        exact (runB_stepped hc hroom rest _ hsubrest).pre fun t ht =>
          ⟨ht.2 ho, (ht.1 ho).toMid⟩
      · next ho => exact Holds.ret fun _ _ h => absurd h ho
    · refine Holds.bind hmid fun o => ?_
      split
      · next ho =>
        exact (lxProg_stepped hc hroom rest hrest _ hsubrest).pre fun t ht =>
          (ht ho).toMid
      · next ho => exact Holds.ret fun _ _ h => absurd h ho
end

end IdCompiler.Fast

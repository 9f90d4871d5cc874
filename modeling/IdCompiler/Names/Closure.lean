import IdCompiler.Names.Reach
import Mathlib.Data.List.Perm.Subperm

/-!
# The sweeps find the closure

What a scan keeps is said once, of the set and of its index. A sweep that adds nothing has
followed every name of the set, so the loop ends with the closure.
-/

namespace IdCompiler.Names

open IdCompiler.Source Relation

variable {b : Build} {s s' : State} {name x y : String} {f nd lo : Nat}

theorem hashMapGet_put {t : HashMap} {v d : Int} : hashMapGet (hashMapPut t name v) name d = v := by
  rw [hashMapGet, hashMapPut, Function.update_self]
  rfl

theorem hashMapPut_of_ne {t : HashMap} {v : Int} (h : x ≠ name) : hashMapPut t name v x = t x :=
  Function.update_of_ne h ..

/-! ## The index -/

/-- The index has the place of each name of the set, and refuses only names of no function. -/
structure Indexed (b : Build) (s : State) : Prop where
  nodup : s.rfn.Nodup
  placed : ∀ (i : Nat) name, s.rfn[i]? = some name → s.rfx name = some (i : Int)
  refused : ∀ name v, s.rfx name = some v → v < 0 → name ∉ b.fnames
  dphase : s.dphase = 0

/-- What the index has is right only where the set has the name. -/
theorem isReach_eq_one (h : Indexed b s) : isReach s name = 1 ↔ name ∈ s.rfn := by
  unfold isReach
  dsimp only
  constructor
  · intro hone
    split at hone
    · next hin => exact List.mem_of_getElem? hin.2.2
    · exact absurd hone (by decide)
  · intro hin
    obtain ⟨i, hi, hname⟩ := List.getElem_of_mem hin
    have hat : s.rfn[i]? = some name := List.getElem?_eq_some_iff.mpr ⟨hi, hname⟩
    rw [hashMapGet, h.placed i name hat]
    exact if_pos ⟨Int.natCast_nonneg i, by simpa using hi, hat⟩

theorem isReach_zero_or_one (s : State) (name : String) : isReach s name = 0 ∨ isReach s name = 1 := by
  unfold isReach
  dsimp only
  split
  · exact .inr rfl
  · exact .inl rfl

theorem isReach_eq_zero (h : Indexed b s) : isReach s name = 0 ↔ name ∉ s.rfn := by
  rw [← isReach_eq_one h]
  rcases isReach_zero_or_one s name with hr | hr <;> rw [hr] <;> decide

theorem isReach_stale {i : Int} (hi : s.rfx name = some i) (hne : s.rfn[i.toNat]? ≠ some name) :
    isReach s name = 0 := by
  rw [isReach, hashMapGet, hi]
  exact if_neg fun hin => hne hin.2.2

theorem rfm_neg : rfm b < 0 := by
  unfold rfm
  omega

/-- The remembered answer is the one that a search would give. -/
theorem rfxFn_eq_one (h : Indexed b s) : (rfxFn b s name).1 = 1 ↔ name ∈ b.fnames := by
  unfold rfxFn
  split
  · unfold rfxScan
    split
    · next hneg => exact ⟨fun he => absurd he Int.zero_ne_one, fun hin => absurd hin (findStr_neg_iff.mp hneg)⟩
    · next hpos => exact ⟨fun _ => not_not.mp fun hout => hpos (findStr_neg_iff.mpr hout), fun _ => rfl⟩
  · next heq =>
    have heq := not_not.mp heq
    refine ⟨fun he => absurd he Int.zero_ne_one, fun hin => absurd hin ?_⟩
    have hneg := rfm_neg (b := b)
    unfold hashMapGet at heq
    cases hv : s.rfx name with
    | none =>
      rw [hv] at heq
      unfold rfm at heq
      simp only [Option.getD_none] at heq
      omega
    | some v =>
      rw [hv] at heq
      exact h.refused name v hv (by rw [← heq] at hneg; exact hneg)

/-- Asking changes the index only where the name is no function. -/
theorem rfxFn_state (b : Build) (s : State) (name : String) : (rfxFn b s name).2 = s ∨
    (name ∉ b.fnames ∧ (rfxFn b s name).2 = { s with rfx := hashMapPut s.rfx name (rfm b) }) := by
  unfold rfxFn
  split
  · unfold rfxScan
    split
    · next hneg => exact .inr ⟨findStr_neg_iff.mp hneg, rfl⟩
    · exact .inl rfl
  · exact .inl rfl

theorem Indexed.refuse (h : Indexed b s) (hnew : name ∉ s.rfn) (hout : name ∉ b.fnames) :
    Indexed b { s with rfx := hashMapPut s.rfx name (rfm b) } := by
  refine ⟨h.nodup, fun i x hx => ?_, fun x v hv hneg => ?_, h.dphase⟩
  · have hne : x ≠ name := fun he => hnew (he ▸ List.mem_of_getElem? hx)
    exact (hashMapPut_of_ne hne).trans (h.placed i x hx)
  · by_cases hxn : x = name
    · rw [hxn]
      exact hout
    · exact h.refused x v ((hashMapPut_of_ne hxn).symm.trans hv) hneg

theorem Indexed.push (h : Indexed b s) (hnew : name ∉ s.rfn) : Indexed b (reachPush s name) := by
  have hlast : (((s.rfn ++ [name]).length : Int) - 1) = (s.rfn.length : Int) := by
    rw [List.length_append, List.length_singleton]
    omega
  constructor
  case nodup =>
    exact List.nodup_append.mpr ⟨h.nodup, List.pairwise_singleton _ name, fun x hx y hy he =>
      hnew (by rw [← List.mem_singleton.mp hy, ← he]; exact hx)⟩
  case placed =>
    intro i x hx
    have hx : (s.rfn ++ [name])[i]? = some x := hx
    show hashMapPut s.rfx name _ x = some (i : Int)
    rw [hlast]
    by_cases hi : i < s.rfn.length
    · rw [List.getElem?_append_left hi] at hx
      have hne : x ≠ name := fun he => hnew (he ▸ List.mem_of_getElem? hx)
      rw [hashMapPut_of_ne hne]
      exact h.placed i x hx
    · obtain ⟨hlt, hget⟩ := List.getElem?_eq_some_iff.mp hx
      rw [List.length_append, List.length_singleton] at hlt
      obtain rfl : i = s.rfn.length := by omega
      rw [List.getElem?_concat_length] at hx
      rw [← Option.some.inj hx, hashMapPut, Function.update_self]
  case refused =>
    intro x v hv hneg
    have hv : hashMapPut s.rfx name _ x = some v := hv
    rw [hlast] at hv
    by_cases hxn : x = name
    · rw [hxn, hashMapPut, Function.update_self] at hv
      have hv := Option.some.inj hv
      omega
    · rw [hashMapPut_of_ne hxn] at hv
      exact h.refused x v hv hneg
  case dphase => exact h.dphase

/-- A name is added where it is a function's and not there yet. -/
theorem reachAdd_spec (h : Indexed b s) (name : String) : Indexed b (reachAdd b s name) ∧
    (reachAdd b s name).rfn = if name ∉ s.rfn ∧ name ∈ b.fnames then s.rfn ++ [name] else s.rfn := by
  unfold reachAdd
  by_cases hin : name ∈ s.rfn
  · rw [if_neg fun hz => (isReach_eq_zero h).mp hz hin, if_neg fun hc => hc.1 hin]
    exact ⟨h, rfl⟩
  · rw [if_pos ((isReach_eq_zero h).mpr hin)]
    by_cases hfn : name ∈ b.fnames
    · have hsame := (rfxFn_state b s name).resolve_right fun hr => hr.1 hfn
      rw [if_pos ((rfxFn_eq_one h).mpr hfn), hsame, if_pos ⟨hin, hfn⟩]
      exact ⟨h.push hin, rfl⟩
    · rw [if_neg fun hone => hfn ((rfxFn_eq_one h).mp hone), if_neg fun hc => hfn hc.2]
      rcases rfxFn_state b s name with hr | ⟨-, hr⟩
      · rw [hr]
        exact ⟨h, rfl⟩
      · rw [hr]
        exact ⟨h.refuse hin hfn, rfl⟩

/-! ## Scans -/

/-- From one state to another by scanning the nodes `ids`. -/
structure Scanned (b : Build) (ids : Nat → Prop) (s s' : State) : Prop where
  indexed : Indexed b s'
  keep : ∀ name ∈ s.rfn, name ∈ s'.rfn
  length : s.rfn.length ≤ s'.rfn.length
  /-- Where nothing is added the set is the same. -/
  same : s'.rfn.length = s.rfn.length → s'.rfn = s.rfn
  new : ∀ name ∈ s'.rfn, name ∈ s.rfn ∨ ∃ id, ids id ∧ Uses b id name
  all : ∀ id name, ids id → Uses b id name → name ∈ s'.rfn

theorem Scanned.refl (h : Indexed b s) : Scanned b (fun _ => False) s s :=
  ⟨h, fun _ => id, Nat.le_refl _, fun _ => rfl, fun _ => .inl, fun _ _ hf => hf.elim⟩

theorem Scanned.trans {s'' : State} {ids ids' all : Nat → Prop} (h : Scanned b ids s s')
    (h' : Scanned b ids' s' s'') (hall : ∀ id, all id ↔ ids id ∨ ids' id) : Scanned b all s s'' where
  indexed := h'.indexed
  keep name hn := h'.keep name (h.keep name hn)
  length := Nat.le_trans h.length h'.length
  same hlen := by
    have hle := h.length
    have hle' := h'.length
    rw [h'.same (by omega), h.same (by omega)]
  new name hn := by
    rcases h'.new name hn with hn | ⟨id, hid, hu⟩
    · rcases h.new name hn with hn | ⟨id, hid, hu⟩
      · exact .inl hn
      · exact .inr ⟨id, (hall id).mpr (.inl hid), hu⟩
    · exact .inr ⟨id, (hall id).mpr (.inr hid), hu⟩
  all id name hid hu := by
    rcases (hall id).mp hid with hid | hid
    · exact h'.keep name (h.all id name hid hu)
    · exact h'.all id name hid hu

theorem scanReach_scanned (h : Indexed b s) (nd : Nat) : Scanned b (· = nd) s (scanReach b s nd) := by
  have hscan : scanReach b s nd =
      if (b.node nd).kind = "call" ∨ (b.node nd).kind = "var" then reachAdd b s (b.node nd).s1 else s := by
    unfold scanReach
    dsimp only
    refine if_neg fun himport => ?_
    have hphase : (if (b.node nd).kind = "call" ∨ (b.node nd).kind = "var" then
        reachAdd b s (b.node nd).s1 else s).dphase = 0 := by
      split
      · exact (reachAdd_spec h _).1.dphase
      · exact h.dphase
    rw [hphase] at himport
    exact absurd himport.2 (by decide)
  rw [hscan]
  split
  · next hkind =>
    obtain ⟨hindexed, hrfn⟩ := reachAdd_spec h (b.node nd).s1
    constructor
    case indexed => exact hindexed
    case keep =>
      intro name hn
      rw [hrfn]
      split
      · exact List.mem_append_left _ hn
      · exact hn
    case length =>
      rw [hrfn]
      split
      · rw [List.length_append]
        omega
      · exact Nat.le_refl _
    case same =>
      intro hlen
      rw [hrfn] at hlen ⊢
      split at hlen
      · rw [List.length_append, List.length_singleton] at hlen
        omega
      · next hc => exact if_neg hc
    case new =>
      intro name hn
      rw [hrfn] at hn
      split at hn
      · next hc =>
        rcases List.mem_append.mp hn with hn | hn
        · exact .inl hn
        · have hname := List.mem_singleton.mp hn
          exact .inr ⟨nd, rfl, hkind, hname.symm, hname ▸ hc.2⟩
      · exact .inl hn
    case all =>
      rintro id name hid ⟨-, hname, hfn⟩
      rw [hrfn]
      rw [hid] at hname
      by_cases hin : (b.node nd).s1 ∈ s.rfn
      · rw [if_neg fun hc => hc.1 hin, ← hname]
        exact hin
      · rw [if_pos ⟨hin, hname ▸ hfn⟩, hname]
        exact List.mem_append_right _ (List.mem_singleton_self name)
  · next hkind =>
    exact ⟨h, fun _ => id, Nat.le_refl _, fun _ => rfl, fun _ => .inl,
      fun _ name hid hu => absurd (hid ▸ hu.1) hkind⟩

theorem reachRangeLoop_scanned (h : Indexed b s) (lo k : Nat) :
    Scanned b (fun id => lo ≤ id ∧ id < lo + k) s (reachRangeLoop b k lo s) := by
  induction k generalizing lo s with
  | zero =>
    rw [reachRangeLoop]
    have href := Scanned.refl h
    exact href.trans href fun id => ⟨fun hc => by omega, fun hc => hc.elim False.elim False.elim⟩
  | succ k ih =>
    rw [reachRangeLoop]
    have hfirst := scanReach_scanned h lo
    exact hfirst.trans (ih hfirst.indexed _) fun id => by omega

/-! ## Sweeps -/

/-- The functions that are left, the first of which has the nodes from `lo` on. -/
structure Left (b : Build) (fs : List Nat) (lo : Nat) : Prop where
  done : ∃ pre, b.prog = pre ++ fs ∧ (∀ f ∈ pre, f < lo) ∧ (lo = 0 ∨ lo - 1 ∈ pre)

theorem Left.start : Left b b.prog 0 :=
  ⟨[], rfl, fun _ hf => absurd hf List.not_mem_nil, .inl rfl⟩

/-- The nodes of the first function that is left. -/
theorem Left.inside {fs : List Nat} (h : Left b (f :: fs) lo) (hord : Ordered b) {id : Nat} :
    Inside b f id ↔ lo ≤ id ∧ id < lo + (f + 1 - lo) := by
  obtain ⟨pre, hprog, hlt, hlo⟩ := h.done
  unfold Ordered at hord
  rw [hprog, List.pairwise_append] at hord
  obtain ⟨-, hfs, hcross⟩ := hord
  have hpre : ∀ f' ∈ pre, f' < f := fun f' hf' => hcross f' hf' f List.mem_cons_self
  constructor
  · rintro ⟨-, hle, hprev⟩
    rcases hlo with rfl | hlo
    · omega
    · have hfirst := hprev (lo - 1) (by rw [hprog]; exact List.mem_append_left _ hlo) (hpre _ hlo)
      omega
  · rintro ⟨hge, hle⟩
    refine ⟨by rw [hprog]; exact List.mem_append_right _ List.mem_cons_self, by omega, fun f' hf' hff => ?_⟩
    rw [hprog] at hf'
    rcases List.mem_append.mp hf' with hf' | hf'
    · exact Nat.lt_of_lt_of_le (hlt f' hf') hge
    · rcases List.mem_cons.mp hf' with rfl | hf'
      · omega
      · have hafter := List.rel_of_pairwise_cons hfs hf'
        omega

theorem Left.next {fs : List Nat} (h : Left b (f :: fs) lo) (hord : Ordered b) :
    Left b fs (f + 1) := by
  obtain ⟨pre, hprog, -, -⟩ := h.done
  unfold Ordered at hord
  rw [hprog, List.pairwise_append] at hord
  refine ⟨pre ++ [f], by rw [hprog, List.append_assoc]; rfl, fun f' hf' => ?_, .inr ?_⟩
  · rcases List.mem_append.mp hf' with hf' | hf'
    · have hlt := hord.2.2 f' hf' f List.mem_cons_self
      omega
    · rw [List.mem_singleton.mp hf']
      omega
  · exact List.mem_append_right _ (List.mem_singleton_self f)

/-- What a sweep over the functions `fs` does to a set of reached names. -/
structure Sweeps (b : Build) (fs : List Nat) (s s' : State) : Prop where
  indexed : Indexed b s'
  keep : ∀ name ∈ s.rfn, name ∈ s'.rfn
  length : s.rfn.length ≤ s'.rfn.length
  same : s'.rfn.length = s.rfn.length → s'.rfn = s.rfn
  reached : ∀ name ∈ s'.rfn, Reached b name
  follow : ∀ f ∈ fs, (b.node f).s1 ∈ s.rfn → ∀ id name, Inside b f id → Uses b id name → name ∈ s'.rfn

theorem Reached.next (h : Reached b x) (hxy : Follows b x y) : Reached b y :=
  h.imp (fun h => h.tail hxy) fun h => h.tail hxy

/-- One function: its nodes are scanned if its name is in the set. -/
theorem reachFunc_sweeps {fs : List Nat} (hord : Ordered b) (hleft : Left b (f :: fs) lo)
    (h : Indexed b s) (hr : ∀ name ∈ s.rfn, Reached b name) :
    Sweeps b [f] s (reachFunc b s f lo).2 := by
  unfold reachFunc
  by_cases hin : (b.node f).s1 ∈ s.rfn
  · rw [if_pos ((isReach_eq_one h).mpr hin)]
    have hscan := reachRangeLoop_scanned h lo (f + 1 - lo)
    refine ⟨hscan.indexed, hscan.keep, hscan.length, hscan.same, fun name hn => ?_,
      fun f' hf' _ id name hid hu => ?_⟩
    · rcases hscan.new name hn with hn | ⟨id, hid, hu⟩
      · exact hr name hn
      · exact (hr _ hin).next ⟨f, id, (hleft.inside hord).mpr hid, rfl, hu⟩
    · rw [List.mem_singleton.mp hf'] at hid
      exact hscan.all id name ((hleft.inside hord).mp hid) hu
  · rw [if_neg fun hone => hin ((isReach_eq_one h).mp hone)]
    refine ⟨h, fun _ hn => hn, Nat.le_refl _, fun _ => rfl, hr, fun f' hf' hin' => ?_⟩
    rw [List.mem_singleton.mp hf'] at hin'
    exact absurd hin' hin

theorem reachFuncs_sweeps {fs : List Nat} (hord : Ordered b) (hleft : Left b fs lo)
    (h : Indexed b s) (hr : ∀ name ∈ s.rfn, Reached b name) : Sweeps b fs s (reachFuncs b fs lo s) := by
  induction fs generalizing lo s with
  | nil =>
    exact ⟨h, fun _ hn => hn, Nat.le_refl _, fun _ => rfl, hr, fun f hf => absurd hf List.not_mem_nil⟩
  | cons f fs ih =>
    rw [reachFuncs, show (reachFunc b s f lo).1 = f + 1 from rfl]
    have hone := reachFunc_sweeps hord hleft h hr
    have hrest := ih (hleft.next hord) hone.indexed hone.reached
    have hle := hone.length
    have hle' := hrest.length
    refine ⟨hrest.indexed, fun name hn => hrest.keep name (hone.keep name hn), Nat.le_trans hle hle',
      fun hlen => ?_, hrest.reached, fun f' hf' hin id name hid hu => ?_⟩
    · have hlast := hrest.same (by omega)
      have hfirst := hone.same (by omega)
      exact hlast.trans hfirst
    · rcases List.mem_cons.mp hf' with rfl | hf'
      · exact hrest.keep name (hone.follow f' (List.mem_singleton_self f') hin id name hid hu)
      · exact hrest.follow f' hf' (hone.keep _ hin) id name hid hu

/-! ## The loop -/

/-- What holds between sweeps. -/
structure Between (b : Build) (s : State) : Prop where
  indexed : Indexed b s
  main : "main" ∈ s.rfn
  conf : "conf.id" ∈ s.rfn
  reached : ∀ name ∈ s.rfn, Reached b name

/-- The names that the set has use only names that it has. -/
def Followed (b : Build) (s : State) : Prop := ∀ x ∈ s.rfn, ∀ y, Follows b x y → y ∈ s.rfn

theorem initReach_indexed : Indexed b initReach := by
  have hrfx : initReach.rfx = hashMapPut (hashMapPut (fun _ => none) "main" 0) "conf.id" 1 := rfl
  refine ⟨by decide, fun i name hi => ?_, fun name v hv hneg => ?_, rfl⟩
  · rw [hrfx]
    match i, hi with
    | 0, hi =>
      obtain rfl : "main" = name := Option.some.inj hi
      rw [hashMapPut_of_ne (by decide), hashMapPut, Function.update_self]
      rfl
    | 1, hi =>
      obtain rfl : "conf.id" = name := Option.some.inj hi
      rw [hashMapPut, Function.update_self]
      rfl
    | i + 2, hi => exact absurd hi (by simp [initReach])
  · rw [hrfx] at hv
    by_cases hconf : name = "conf.id"
    · rw [hconf, hashMapPut, Function.update_self] at hv
      have hv := Option.some.inj hv
      omega
    · rw [hashMapPut_of_ne hconf] at hv
      by_cases hmain : name = "main"
      · rw [hmain, hashMapPut, Function.update_self] at hv
        have hv := Option.some.inj hv
        omega
      · rw [hashMapPut_of_ne hmain] at hv
        exact absurd hv.symm (Option.some_ne_none v)

theorem initReach_between : Between b initReach := by
  refine ⟨initReach_indexed, by decide, by decide, fun name hn => ?_⟩
  rcases List.mem_pair.mp hn with rfl | rfl
  · exact .inl .refl
  · exact .inr .refl

/-- Reached names are functions, but for the two that the sweeps start from. -/
theorem Reached.mem (h : Reached b name) : name ∈ "main" :: "conf.id" :: b.fnames := by
  have hend : ∀ {x}, ReflTransGen (Follows b) x name → name = x ∨ name ∈ b.fnames := by
    intro x hx
    rcases hx.cases_tail with rfl | ⟨y, -, f, id, -, -, hu⟩
    · exact .inl rfl
    · exact .inr hu.2.2
  rcases h with h | h
  · rcases hend h with rfl | hn
    · exact List.mem_cons_self
    · exact List.mem_cons_of_mem _ (List.mem_cons_of_mem _ hn)
  · rcases hend h with rfl | hn
    · exact List.mem_cons_of_mem _ List.mem_cons_self
    · exact List.mem_cons_of_mem _ (List.mem_cons_of_mem _ hn)

theorem Between.length_le (h : Between b s) : s.rfn.length ≤ b.fnames.length + 2 :=
  (List.subperm_of_subset h.indexed.nodup fun name hn => (h.reached name hn).mem).length_le

/-- A sweep leads from between sweeps to between sweeps, and adds a name or has followed all. -/
theorem Between.pass (h : Between b s) (hord : Ordered b) :
    Between b (reachPass b s).2 ∧ s.rfn.length ≤ (reachPass b s).2.rfn.length ∧
      ((reachPass b s).2.rfn.length = s.rfn.length → Followed b (reachPass b s).2) := by
  have hsweep := reachFuncs_sweeps hord Left.start h.indexed h.reached
  refine ⟨⟨hsweep.indexed, hsweep.keep _ h.main, hsweep.keep _ h.conf, hsweep.reached⟩,
    hsweep.length, fun hlen x hx y ⟨f, id, hin, hname, hu⟩ => ?_⟩
  have hx' : x ∈ s.rfn := by
    rw [← hsweep.same hlen]
    exact hx
  exact hsweep.follow f hin.1 (by rw [hname]; exact hx') id y hin hu

/-- The loop ends, for every sweep before the last adds a name. -/
theorem reachMarkLoop_some {n : Int} (fuel : Nat) (hord : Ordered b) (h : Between b s)
    (hn : n = s.rfn.length → Followed b s)
    (hfuel : b.fnames.length + 2 - s.rfn.length + 2 ≤ fuel) :
    ∃ s', reachMarkLoop b fuel n s = some s' ∧ Between b s' ∧ Followed b s' := by
  induction fuel generalizing n s with
  | zero => omega
  | succ fuel ih =>
    rw [reachMarkLoop]
    by_cases hend : n = s.rfn.length
    · rw [if_neg (not_not.mpr hend)]
      exact ⟨s, rfl, h, hn hend⟩
    · rw [if_pos hend]
      obtain ⟨hnext, hle, hlast⟩ := h.pass hord
      have hmax := hnext.length_le
      by_cases hsame : (reachPass b s).2.rfn.length = s.rfn.length
      · obtain ⟨fuel, rfl⟩ : ∃ f, fuel = f + 1 := ⟨fuel - 1, by omega⟩
        have hfirst : (reachPass b s).1 = ((reachPass b s).2.rfn.length : Int) := by
          rw [hsame]
          rfl
        rw [reachMarkLoop, if_neg (not_not.mpr hfirst)]
        exact ⟨_, rfl, hnext, hlast hsame⟩
      · refine ih hnext (fun heq => absurd (show (s.rfn.length : Int) = _ from heq) (by omega)) (by omega)

/-! ## The closure -/

/-- Any scans in any order keep the index in order. -/
theorem Swept.indexed (h : Swept b s) : Indexed b s := by
  induction h with
  | refl => exact initReach_indexed
  | tail _ hstep ih =>
    obtain ⟨id, rfl⟩ := hstep
    exact (scanReach_scanned ih _).indexed

theorem swept_reachRangeLoop {k : Nat} (h : Swept b s) : Swept b (reachRangeLoop b k lo s) := by
  induction k generalizing lo s with
  | zero => exact h
  | succ k ih => exact ih (h.tail ⟨lo, rfl⟩)

theorem swept_reachFuncs {fs : List Nat} (h : Swept b s) : Swept b (reachFuncs b fs lo s) := by
  induction fs generalizing lo s with
  | nil => exact h
  | cons f fs ih =>
    refine ih ?_
    unfold reachFunc
    split
    · exact swept_reachRangeLoop h
    · exact h

theorem swept_reachMarkLoop {fuel : Nat} {n : Int} (h : Swept b s)
    (hs : reachMarkLoop b fuel n s = some s') : Swept b s' := by
  induction fuel generalizing n s with
  | zero => exact absurd hs (by simp [reachMarkLoop])
  | succ fuel ih =>
    rw [reachMarkLoop] at hs
    split at hs
    · exact ih (swept_reachFuncs h) hs
    · rw [← Option.some.inj hs]
      exact h

/-- What is in the set once it has followed all its names is what is reached. -/
theorem Between.mem_iff (h : Between b s) (hall : Followed b s) : name ∈ s.rfn ↔ Reached b name := by
  have hclosed : ∀ {x}, x ∈ s.rfn → ReflTransGen (Follows b) x name → name ∈ s.rfn := by
    intro x hx hpath
    induction hpath with
    | refl => exact hx
    | tail _ hstep ih => exact hall _ ih _ hstep
  exact ⟨h.reached name, fun hr => hr.elim (hclosed h.main) (hclosed h.conf)⟩

/-- The set of a state is the closure, and each of its names is there once. -/
structure Closure (b : Build) (s : State) : Prop where
  nodup : s.rfn.Nodup
  isReach : ∀ name, isReach s name = 1 ↔ Reached b name

/-- No remembered answer hides a function. -/
def Honest (b : Build) (s : State) : Prop := ∀ name, (rfxFn b s name).1 = 1 ↔ name ∈ b.fnames

/-- A place that holds another name is not believed. -/
def Wary (s : State) : Prop :=
  ∀ name i, s.rfx name = some i → s.rfn[i.toNat]? ≠ some name → isReach s name = 0

/-- The loop ends with the closure, and every answer on the way to it was right. -/
theorem reachMark_closure (hord : Ordered b) :
    (∃ s, reachMark b initReach = some s ∧ Swept b s ∧ Closure b s) ∧
      (∀ s, Swept b s → Honest b s) ∧ ∀ s, Wary s := by
  refine ⟨?_, fun s hs _ => rfxFn_eq_one hs.indexed, fun s _ _ => isReach_stale⟩
  obtain ⟨s, hs, hbetween, hall⟩ := reachMarkLoop_some (n := 0 - 1) (b.fnames.length + 2) hord
    initReach_between (fun heq => absurd heq (by decide)) (by
      have hlen : initReach.rfn.length = 2 := rfl
      omega)
  refine ⟨s, hs, swept_reachMarkLoop .refl hs, hbetween.indexed.nodup, fun name => ?_⟩
  rw [isReach_eq_one hbetween.indexed]
  exact hbetween.mem_iff hall

/-- Two functions that call each other, one of them of the same name as a third, and one that
nothing calls. -/
def cyclic : Build where
  node i := [⟨"call", "f"⟩, ⟨"func", "main"⟩, ⟨"var", "g"⟩, ⟨"func", "f"⟩, ⟨"call", "f"⟩, ⟨"func", "g"⟩,
    ⟨"call", "puts"⟩, ⟨"func", "f"⟩, ⟨"call", "g"⟩, ⟨"func", "h"⟩].getD i ⟨"", ""⟩
  prog := [1, 3, 5, 7, 9]
  fnames := ["main", "f", "g", "f", "h"]
  enames := []
  exportOwner _ := ""

example : (reachMark cyclic initReach).map State.rfn = some ["main", "conf.id", "f", "g"] := by
  decide +kernel

theorem reachMark_closure_cyclic :
    (∃ s, reachMark cyclic initReach = some s ∧ Swept cyclic s ∧ Closure cyclic s) ∧
      (∀ s, Swept cyclic s → Honest cyclic s) ∧ ∀ s, Wary s :=
  reachMark_closure (by unfold Ordered; decide)

end IdCompiler.Names

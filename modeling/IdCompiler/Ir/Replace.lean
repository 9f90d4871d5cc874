import IdCompiler.Ir.Scoped
import IdCompiler.Ir.Walk

/-!
# An instruction and a value that stands in for it

An instruction goes and every use of it becomes a use of a value that is
computed before it. A run keeps the two equal wherever the instruction may be
used, if they are equal where it stands; why they are may need more of the runs
than that, which is an invariant of its own.
-/

namespace IdCompiler.Ir

open IdCompiler.Core

variable {ir ir' : Rows} {next : Nat → Nat → Prop} {root : Nat} {f a b c p x id : Nat} {v w : Int}
  {l rest : List Nat}

theorem swap_ne (h : swap id v w ≠ w) : w = id := by
  by_contra hne
  exact h (swap_of_ne hne)

theorem swap_fresh : swap id v v = v := by
  unfold swap
  exact ite_self _

/-- To replace a value by itself changes nothing. -/
theorem swap_same : swap v v w = w := by
  unfold swap
  split
  · next h => exact h.symm
  · rfl

/-- An instruction that ends no block, and a value that is computed before it. -/
structure Replaces (ir : Rows) (f : Nat) (next : Nat → Nat → Prop) (root b id : Nat) (v : Int) : Prop where
  blk : b ∈ ir.fnblk f
  mem : id ∈ ir.binsn b
  ends : ¬(ir.row id).Ends
  before : Reached next root b → Before ir f next root b (place ir b (id : Nat)) v

theorem Replaces.home (hr : Replaces ir f next root b id v) : Home ir f (id : Nat) b := ⟨hr.blk, id, hr.mem, rfl⟩

/-- What an instruction names is computed before it. -/
theorem Scoped.origin (h : Scoped ir f next root) (hlive : ir.iop id ≠ "nop") :
    Origin ir f next root id (ir.ia id) := by
  intro a ha hreached
  obtain ⟨x, hx, heq⟩ := ha.2
  obtain rfl := Int.natCast_inj.mp heq
  exact (h.used a ha.1 hreached id hx hlive).1

theorem Replaces.renames (h : Scoped ir f next root) (hr : Replaces ir f next root b id v) :
    Renames ir f next root (swap id v) fun _ => True := by
  intro w _ hw
  obtain rfl := swap_ne hw
  refine ⟨id, rfl, mem_insns.mpr ⟨b, hr.blk, hr.mem⟩, fun a ha hreached => ?_⟩
  obtain rfl := ha.unique h.nodup hr.home
  rw [swap_self]
  exact hr.before hreached

/-! ## The function without the instruction -/

theorem Scoped.dropped (h : Scoped ir f next root) (hτ : Renames ir f next root (swap id v) fun _ => True)
    (hends : ¬(ir.row id).Ends) : Scoped (dropped ir f id v) f next root := by
  have hbefore : Before (Ir.dropped ir f id v) f next root = Before ir f next root :=
    before_congr dropped_fnblk dropped_binsn
  have hplace : place (Ir.dropped ir f id v) = place ir := place_congr dropped_binsn
  have hkept : ∀ {x}, (Ir.dropped ir f id v).iop x ≠ "nop" → (Ir.dropped ir f id v).iop x = ir.iop x := by
    intro x hx
    rw [dropped_iop] at hx ⊢
    exact irKill_iop_of_ne fun heq => hx (by rw [heq, irKill_iop_self])
  have hinsns : ∀ {b x}, b ∈ ir.fnblk f → x ∈ ir.binsn b → x ∈ insns ir f := fun hb hx => mem_insns.mpr ⟨_, hb, hx⟩
  have hlist : ∀ {b x}, b ∈ ir.fnblk f → x ∈ ir.binsn b →
      (Ir.dropped ir f id v).ilist x = (ir.ilist x).map (swap id v) := fun hb hx => opRauw_ilist (hinsns hb hx)
  constructor
  case nodup =>
    rw [insns_dropped]
    exact h.nodup
  case edges =>
    intro p q
    rw [h.edges, Goes, Goes, targets, targets, dropped_fnblk, dropped_binsn, dropped_iblk]
  case entry => exact h.entry
  case ends =>
    intro b hb
    rw [dropped_fnblk] at hb
    rw [dropped_binsn]
    obtain ⟨l, t, hlt, ht, hno⟩ := h.ends b hb
    have hterm : t ≠ id := fun heq => hends (heq ▸ ht)
    refine ⟨l, t, hlt, ?_, fun x hx hlast => hno x hx ?_⟩
    · show (Ir.dropped ir f id v).iop t = _ ∨ (Ir.dropped ir f id v).iop t = _ ∨ (Ir.dropped ir f id v).iop t = _
      rw [dropped_iop, irKill_iop_of_ne hterm]
      exact ht
    · have hlast : (Ir.dropped ir f id v).iop x = "ret" ∨ (Ir.dropped ir f id v).iop x = "br" ∨
          (Ir.dropped ir f id v).iop x = "cbr" := hlast
      have hlive : (Ir.dropped ir f id v).iop x ≠ "nop" := by
        intro hnop
        rw [hnop] at hlast
        exact absurd hlast (by decide)
      rw [hkept hlive] at hlast
      exact hlast
  case preds =>
    intro b hb p
    rw [dropped_fnblk] at hb
    rw [dropped_bpred]
    exact h.preds b hb p
  case filled =>
    intro b hb x hx hop
    rw [dropped_fnblk] at hb
    rw [dropped_binsn] at hx
    have hlive : (Ir.dropped ir f id v).iop x ≠ "nop" := by
      rw [hop]
      decide
    obtain ⟨hblk, hlen⟩ := h.filled b hb x hx ((hkept hlive).symm.trans hop)
    rw [dropped_iblk, dropped_bpred, hlist hb hx, List.length_map]
    exact ⟨hblk, hlen⟩
  case used =>
    intro b hb hreached x hx hlive
    rw [dropped_fnblk] at hb
    rw [dropped_binsn] at hx
    have hia : (Ir.dropped ir f id v).ia x = swap id v (ir.ia x) := opRauw_ia (hinsns hb hx)
    have hib : (Ir.dropped ir f id v).ib x = swap id v (ir.ib x) := opRauw_ib (hinsns hb hx)
    have hop := hkept hlive
    obtain ⟨ha, hb', hvalues⟩ := h.used b hb hreached x hx (hop ▸ hlive)
    rw [hbefore, hplace, hia, hib, hop, hlist hb hx]
    refine ⟨hτ.before hreached trivial ha, hτ.before hreached trivial hb', fun hphi w hw => ?_⟩
    obtain ⟨u, hu, rfl⟩ := List.mem_map.mp hw
    exact hτ.before hreached trivial (hvalues hphi u hu)
  case incoming =>
    intro b hb x hx hop p hp hreached w hw
    rw [dropped_fnblk] at hb
    rw [dropped_binsn] at hx
    have hlive : (Ir.dropped ir f id v).iop x ≠ "nop" := by
      rw [hop]
      decide
    rw [hlist hb hx, dropped_bpred, List.getElem?_map] at hw
    obtain ⟨u, hu, rfl⟩ := Option.map_eq_some_iff.mp hw
    rw [atEnd_congr dropped_fnblk dropped_binsn]
    have hend := h.incoming b hb x hx ((hkept hlive).symm.trans hop) p hp hreached u hu
    exact hτ.atEnd hreached trivial hend

/-- What is left of the other instructions: their operands are renamed. -/
theorem row_dropped (hx : x ∈ insns ir f) (hne : x ≠ id) :
    (dropped ir f id v).row x = (ir.row x).rename (swap id v) := by
  have hia : (dropped ir f id v).ia x = swap id v (ir.ia x) := opRauw_ia hx
  have hib : (dropped ir f id v).ib x = swap id v (ir.ib x) := opRauw_ib hx
  have hlist : (dropped ir f id v).ilist x = (ir.ilist x).map (swap id v) := opRauw_ilist hx
  have hop : (dropped ir f id v).iop x = ir.iop x := by
    rw [dropped_iop, irKill_iop_of_ne hne]
  have hty : (dropped ir f id v).ity x = ir.ity x := by
    rw [dropped_eq]
    exact Function.update_of_ne hne ..
  have hstr : (dropped ir f id v).istr = ir.istr := by
    rw [dropped_eq]
    rfl
  rw [Rows.row, hia, hib, hlist, hop, hty, hstr, dropped_iblk]
  rfl

/-! ## What a run keeps -/

section

variable {V W : Type*} {o : Opcodes V W} {e e' : Entry V} {s s' : Now V W} {K : Nat → Nat → Now V W → Prop}

/-- What holds of the values at every place of a run: every instruction keeps it, and so does an edge. -/
structure Carried (o : Opcodes V W) (ir : Rows) (f : Nat) (next : Nat → Nat → Prop) (root : Nat)
    (K : Nat → Nat → Now V W → Prop) : Prop where
  act : ∀ (e : Entry V) l x rest s, e.blk ∈ ir.fnblk f → Reached next root e.blk →
    ir.binsn e.blk = l ++ x :: rest → ¬(ir.row x).Ends → K e.blk l.length s →
    K e.blk (l.length + 1) (act o [] e (ir.row x) s).2
  leave : ∀ b c l t s, b ∈ ir.fnblk f → Reached next root b → next b c → ir.binsn b = l ++ [t] →
    (ir.row t).Ends → K b l.length s → K c 0 s

theorem Carried.trivial : Carried o ir f next root fun _ _ _ => True :=
  ⟨fun _ _ _ _ _ _ _ _ _ _ => True.intro, fun _ _ _ _ _ _ _ _ _ _ _ => True.intro⟩

variable (h : Scoped ir f next root) (hr : Replaces ir f next root b id v) (hK : Carried o ir f next root K)
  (hvalue : ∀ (e e' : Entry V) (s s' : Now V W), Arrived ir f next root (swap id v) (fun _ => True) e e' →
    e.blk = b → Inside ir f next root (swap id v) (fun _ => True) b (place ir b (id : Nat)) e' s s' →
    K b (place ir b (id : Nat)) s → act o [] e (ir.row id) s = ([], s.assign id (s'.env v) s.world))
include h hr hK hvalue

theorem Replaces.steps (harr : Arrived ir f next root (swap id v) (fun _ => True) e e')
    (hblk : e.blk ∈ ir.fnblk f) (hx : ir.binsn e.blk = l ++ x :: rest)
    (hin : Inside ir f next root (swap id v) (fun _ => True) e.blk l.length e' s s') (hk : K e.blk l.length s) :
    Steps o [] [] e e' (ir.row x) ((dropped ir f id v).row x)
      (fun s s' => Inside ir f next root (swap id v) (fun _ => True) e.blk (l.length + 1) e' s s' ∧
        K e.blk (l.length + 1) s)
      (fun t t' => Level ir f next root (swap id v) (fun _ => True) ⟨t.1, some e.blk, t.2⟩ ⟨t'.1, some e.blk, t'.2⟩ ∧
        K t.1 0 t.2) s s' := by
  have hτ := hr.renames h
  have hreached := harr.reached
  have hmem : x ∈ ir.binsn e.blk := hx ▸ List.mem_append_right l List.mem_cons_self
  have hkept : ¬(ir.row x).Ends → K e.blk (l.length + 1) (act o [] e (ir.row x) s).2 :=
    fun hends => hK.act e l x rest s hblk hreached hx hends hk
  by_cases hxid : x = id
  · subst hxid
    have hop' : ((dropped ir f x v).row x).op = "nop" := by
      show (dropped ir f x v).iop x = "nop"
      rw [dropped_iop, irKill_iop_self]
    have hends' := not_ends hop' (by decide)
    have hb : e.blk = b := Home.unique h.nodup ⟨hblk, x, hmem, rfl⟩ hr.home
    refine ⟨iff_of_false hends' hr.ends, fun _ => ?_, fun he => absurd he hr.ends⟩
    have hplace := place_eq h.nodup hblk hx
    have hact : act o [] e (ir.row x) s = ([], s.assign x (s'.env v) s.world) := by
      rw [hb] at hin hk hplace
      rw [← hplace] at hin hk
      exact hvalue e e' s s' harr hb hin hk
    have hafter := hkept hr.ends
    rw [hact] at hafter ⊢
    rw [act_nop hop']
    refine ⟨rfl, hin.drop hτ h.nodup hblk hreached hx ?_, hafter⟩
    rw [swap_self]
  have hsame : swap id v x = x := swap_of_ne fun heq => hxid (Int.natCast_inj.mp heq)
  have hrow : (dropped ir f id v).row x = (ir.row x).rename (swap id v) :=
    row_dropped (mem_insns.mpr ⟨_, hblk, hmem⟩) hxid
  rw [hrow]
  by_cases hop : ir.iop x = "nop"
  · have hends := not_ends (r := ir.row x) hop (by decide)
    have hafter := hkept hends
    refine ⟨Iff.rfl, fun _ => ?_, fun he => absurd he hends⟩
    rw [act_nop (r := ir.row x) hop] at hafter ⊢
    rw [act_nop (r := (ir.row x).rename (swap id v)) hop]
    exact ⟨rfl, hin.idle hτ h.nodup hblk hreached hx hsame, hafter⟩
  obtain ⟨ha, hb, hlist⟩ := h.used e.blk hblk hreached x hmem hop
  rw [place_eq h.nodup hblk hx] at ha hb hlist
  have halike : Alike o e e' (ir.row x) ((ir.row x).rename (swap id v)) s s' := by
    refine .rename hin.world harr.blk (hin.tracks _ trivial (.inr ha)) (hin.tracks _ trivial (.inr hb))
      (fun hphi w hw => hin.tracks w trivial (.inr (hlist hphi w hw))) fun hphi => ?_
    refine incomingOf_rename harr.prev fun p u hp hu => ?_
    obtain ⟨hnext, hfrom, htracks⟩ := harr.edge p hp
    have hblks : (ir.row x).blk = ir.bpred e.blk := (h.filled e.blk hblk x hmem hphi).1
    rw [hblks] at hu
    exact htracks u trivial (.inr (h.incoming e.blk hblk x hmem hphi p hnext hfrom u hu))
  refine ⟨halike.ends, fun hends => ?_, fun hends => halike.finish fun c hcb => ?_⟩
  · have hno : ∀ r : Row, ¬r.OnSlot [] := fun _ => not_onSlot_nil
    obtain ⟨hout, hafter⟩ := halike.act (hno _) (hno _)
    refine ⟨hout, ?_, hkept hends⟩
    rcases hafter with ⟨heq, heq'⟩ | ⟨z, u, heq, heq'⟩
    · rw [heq, heq']
      exact hin.idle hτ h.nodup hblk hreached hx hsame
    · rw [heq, heq']
      exact hin.keep hτ h.nodup hblk hreached hx hsame z u
  · have hnext := h.goes hblk hx hends hcb
    have hafter := hin.idle hτ h.nodup hblk hreached hx hsame
    obtain rfl := (h.last hblk hx hends).1
    have hlen : (ir.binsn e.blk).length = l.length + 1 := by
      rw [hx, List.length_append]
      rfl
    rw [← hlen] at hafter
    exact ⟨hafter.leave hreached hnext, hK.leave e.blk c l x s hblk hreached hnext hx hends hk⟩

/-- One block. -/
theorem Replaces.stepBlock {c c' : Stand V W}
    (hlevel : Level ir f next root (swap id v) (fun _ => True) c c' ∧ K c.blk 0 c.now) :
    Matches (fun c c' => Level ir f next root (swap id v) (fun _ => True) c c' ∧ K c.blk 0 c.now)
      (stepBlock o ir f [] c) (stepBlock o (dropped ir f id v) f [] c') := by
  obtain ⟨hlevel, hk⟩ := hlevel
  have hblk : c'.blk = c.blk := hlevel.arrived.blk
  apply stepBlock_matches
  · rw [dropped_fnblk, hblk]
  intro hin
  rw [hblk, dropped_binsn]
  have hstart : Inside ir f next root (swap id v) (fun _ => True) c.blk 0 c'.entry c.now c'.now :=
    ⟨hlevel.world, hlevel.arrived.tracks (hr.renames h), fun _ _ => rfl⟩
  exact runBlock_matches
    (R := fun l s s' => Inside ir f next root (swap id v) (fun _ => True) c.blk l.length c'.entry s s' ∧
      K c.blk l.length s)
    (fun l x rest hx s s' hs => by
      rw [List.length_append]
      exact hr.steps h hK hvalue hlevel.arrived hin hx hs.1 hs.2) ⟨hstart, hk⟩

/-- The function without the instruction does the same. -/
theorem Replaces.observed {c : Stand V W} (n : Nat) (hroot : c.blk = root) (hfirst : c.prev = none)
    (hstart : K root 0 c.now) : observed (Ir.stepBlock o ir f []) Stand.seen n c =
      observed (Ir.stepBlock o (dropped ir f id v) f []) Stand.seen n c := by
  refine observed_eq (fun c c' hlevel => hr.stepBlock h hK hvalue hlevel) (fun c c' hlevel => hlevel.1.seen) n
    ⟨⟨rfl, rfl, rfl, fun _ => ⟨hroot, fun w _ hw => ?_⟩, fun p hp => ?_⟩, hroot ▸ hstart⟩
  · rw [hw.resolve_right fun h => h]
  · exact absurd (hfirst.symm.trans hp) (Option.some_ne_none p).symm

end

end IdCompiler.Ir

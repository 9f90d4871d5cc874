import IdCompiler.Channel.Overrun
import IdCompiler.Core.Monitor

/-!
# The condition variables of a channel

A full queue sends its sender to sleep on `nf`, an empty one its receiver on
`ne`. A send signals `ne`, a take signals `nf`, and a close broadcasts to the
other end. The regions of `State.step` run whenever they can; here they run as
the mutex and the two conditions let them, and nothing is lost by it.
-/

namespace IdCompiler.Channel

open IdCompiler.Core Relation

/-- The conditions: not empty, not full. -/
inductive Cond
  | ne
  | nf
  deriving DecidableEq

/-- The condition a region goes to sleep on. -/
def Pc.waits : Pc → Cond
  | .send _ => .nf
  | _ => .ne

/-- The conditions signalled by a region that goes through, given the channel it finds. -/
def Pc.signals (p : Party) (c : IdChan) : Pc → List Cond
  | .send _ => if c.ropen then [.ne] else []
  | .take => if c.count = 0 then [] else [.nf]
  | .close =>
    match p with
    | .sender => [.ne]
    | .receiver => [.nf]
  | _ => []

@[simp]
theorem Pc.signals_send (p : Party) (c : IdChan) (v : CInt) :
    (Pc.send v).signals p c = if c.ropen then [.ne] else [] := rfl

@[simp]
theorem Pc.signals_take (p : Party) (c : IdChan) :
    Pc.take.signals p c = if c.count = 0 then [] else [.nf] := rfl

@[simp]
theorem Pc.signals_close_sender (c : IdChan) : Pc.close.signals .sender c = [.ne] := rfl

@[simp]
theorem Pc.signals_close_receiver (c : IdChan) : Pc.close.signals .receiver c = [.nf] := rfl

/-- What a party does once it has the mutex. -/
def State.turn (p : Party) (s : State) : Turn State Cond :=
  if s.pc p = .idle then .away
  else
    match s.region p with
    | none => .waits (s.pc p).waits
    | some s' => .goes s' ((s.pc p).signals p s.chan)

/-- The channel with its mutex, between parties whose calls are allowed by `D`. -/
def chanMonitor (D : State → Action → Prop) : Monitor Party State Cond where
  live s := s.trap = none
  outside s s' := ∃ a, (∀ p, a ≠ .region p) ∧ D s a ∧ s.step a = some s'
  turn := State.turn

/-- The runs of a channel of capacity `cap` whose parties sleep. -/
def Dozes (D : State → Action → Prop) (cap : CInt) (s : State) (z : Party → Option Cond) : Prop :=
  ∃ q c c', idChanNew q cap = .ok c ∧ idChanSender c = .ok c' ∧
    ReflTransGen (chanMonitor D).Doze (.start c', fun _ => none) (s, z)

/-- A call that cannot go on: a send into a full queue, or a wait at an empty one. -/
inductive IdChan.Stuck (c : IdChan) : Pc → Cond → Prop
  | full {v : CInt} : c.count = c.cap → c.ropen = true → c.Stuck (.send v) .nf
  | empty : c.count = 0 → c.sopen = true → c.Stuck .wait .ne

/-- Regions are for the mutex to allow, calls for `D`. -/
def ByCall (D : State → Action → Prop) (s : State) (a : Action) : Prop :=
  (∃ p, a = .region p) ∨ D s a

/-- Only the sender sends and only the receiver waits. -/
structure State.Manned (s : State) : Prop where
  receiver : ∀ v, s.pc .receiver ≠ .send v
  sender : s.pc .sender ≠ .wait

variable {D : State → Action → Prop} {cap : CInt} {s s' : State} {z : Party → Option Cond}
  {p r : Party} {a : Action} {l : Pc} {k : Cond} {ks : List Cond}

/-! ## What stops a call, and what ends it -/

namespace IdChan

variable {c c' : IdChan} {v : CInt} {ok : Bool}

/-- A send that queued its value ends a wait and signals `ne`. -/
theorem Stuck.send (h : c.Stuck l k) (hsend : idChanSend v c = some (c', ok)) :
    c'.Stuck l k ∨ k ∈ (Pc.send v).signals p c := by
  obtain ⟨-, rfl, -⟩ | ⟨hopen, hroom, -, rfl⟩ := send_cases hsend
  · exact .inl h
  cases h with
  | full hfull _ => exact absurd hfull hroom
  | empty => exact .inr (by simp [hopen])

theorem Stuck.waits (h : c.Stuck l k) : k = l.waits := by
  cases h <;> rfl

/-- A take ends a send and signals `nf`. -/
theorem Stuck.take (h : c.Stuck l k) (htake : idChanTake c = .ok (c', v)) :
    k ∈ Pc.take.signals p c := by
  have hsome : c.count ≠ 0 := by
    intro heq
    have := (take_cases htake).1
    simp [heq] at this
  cases h with
  | full =>
    rw [Pc.signals_take, if_neg hsome]
    exact List.mem_singleton_self _
  | empty hempty _ => exact absurd hempty hsome

/-- A close ends the other end's call and broadcasts to it. -/
theorem Stuck.close (h : c.Stuck l k) :
    (idChanClose p c).1.Stuck l k ∨ k ∈ Pc.close.signals p c := by
  cases p with
  | sender =>
    cases h with
    | full hfull hopen => exact .inl (.full hfull hopen)
    | empty => exact .inr (by simp)
  | receiver =>
    cases h with
    | full => exact .inr (by simp)
    | empty hempty hopen => exact .inl (.empty hempty hopen)

theorem Stuck.drop (h : c.Stuck l k) : (idChanDrop c).Stuck l k := by
  cases h with
  | full hfull hopen => exact .full hfull hopen
  | empty hempty hopen => exact .empty hempty hopen

end IdChan

/-- A send waits for room while the receiver is there. -/
theorem send_none_iff {v : CInt} {c : IdChan} :
    idChanSend v c = none ↔ c.Stuck (.send v) .nf := by
  constructor
  · intro h
    unfold idChanSend at h
    split at h
    · next hfull => exact .full hfull.1 hfull.2
    · split at h <;> cases h
  · rintro (_ | _)
    simp_all [idChanSend]

/-- A wait waits for a value while the sender is there. -/
theorem wait_none_iff {c : IdChan} : idChanWait c = none ↔ c.Stuck .wait .ne := by
  constructor
  · intro h
    have hempty : c.count = 0 ∧ c.sopen = true := by simpa [idChanWait] using h
    exact .empty hempty.1 hempty.2
  · rintro (_ | _)
    simp_all [idChanWait]

namespace State

/-! ## Turns -/

/-- A call that has begun does not go through where it is stuck. -/
theorem region_none_iff (hpc : s.pc p ≠ .idle) :
    s.region p = none ↔ s.chan.Stuck (s.pc p) (s.pc p).waits := by
  unfold region
  cases hl : s.pc p with
  | idle => exact absurd hl hpc
  | close | drop => exact iff_of_false (by simp) (by rintro ⟨⟩)
  | take => exact iff_of_false (by cases idChanTake s.chan <;> simp) (by rintro ⟨⟩)
  | wait => exact Option.map_eq_none_iff.trans wait_none_iff
  | send v => exact Option.map_eq_none_iff.trans send_none_iff

/-- A party has to wait where its call is stuck. -/
theorem turn_waits_iff : s.turn p = .waits k ↔ s.chan.Stuck (s.pc p) k := by
  unfold turn
  split
  · next hpc =>
    rw [hpc]
    exact iff_of_false (by simp) (by rintro ⟨⟩)
  next hpc =>
  have hnone := region_none_iff hpc
  cases hregion : s.region p with
  | none =>
    have hstuck := hnone.mp hregion
    constructor
    · rintro ⟨⟩
      exact hstuck
    · exact fun hk => by rw [hk.waits]
  | some s' =>
    refine iff_of_false (by simp) fun hk => ?_
    rw [hk.waits] at hk
    exact absurd (hnone.mpr hk) (by simp [hregion])

/-- A party that goes on runs its region. -/
theorem turn_goes_iff : s.turn p = .goes s' ks ↔
    s.region p = some s' ∧ ks = (s.pc p).signals p s.chan := by
  unfold turn
  split
  · next hpc => simp [region, hpc]
  · cases s.region p <;> simp [eq_comm]

/-- A party's region leaves the other party where it is. -/
theorem region_pc (h : s.region p = some s') (hr : r ≠ p) : s'.pc r = s.pc r := by
  unfold region at h
  split at h
  case h_1 => cases h
  case h_2 | h_3 =>
    obtain ⟨x, -, rfl⟩ := Option.map_eq_some_iff.mp h
    simp [goto, hr]
  case h_4 =>
    split at h <;> cases h <;> simp [goto, hr]
  case h_5 | h_6 =>
    cases h
    simp [goto, hr]

/-- After its region a party is outside, about to drop the channel, or at its trap. -/
theorem region_pc_self (h : s.region p = some s') :
    s'.pc p = .idle ∨ s'.pc p = .drop ∨ s'.pc p = s.pc p := by
  unfold region at h
  split at h
  case h_1 => cases h
  case h_2 | h_3 =>
    obtain ⟨x, -, rfl⟩ := Option.map_eq_some_iff.mp h
    simp [goto]
  case h_4 =>
    split at h <;> cases h <;> simp [goto]
  case h_5 =>
    cases h
    cases (idChanClose p s.chan).2 <;> simp [goto]
  case h_6 =>
    cases h
    simp [goto]

/-- A call moves one party from outside and nothing else, or stops at a trap. -/
theorem call_cases (h : s.call p l = some s') :
    s.pc p = .idle ∧ s' = s.goto p l ∨ ∃ m, s' = { s with trap := some m } := by
  unfold call at h
  split at h
  · next hidle =>
    split at h <;> cases h
    · exact .inl ⟨hidle, rfl⟩
    · exact .inr ⟨_, rfl⟩
  · cases h

/-- What the calls of the two parties do. -/
theorem step_call (h : s.step a = some s') (ha : ∀ p, a ≠ .region p) :
    (∃ p l, s.pc p = .idle ∧ s' = s.goto p l ∧ (p = .sender → l ≠ .wait) ∧
      (p = .receiver → ∀ v, l ≠ .send v)) ∨ ∃ m, s' = { s with trap := some m } := by
  unfold step at h
  split at h
  · cases h
  cases a with
  | region p => exact absurd rfl (ha p)
  | send v | wait | take | close p =>
    obtain ⟨hidle, hs'⟩ | hs' := call_cases h
    · exact .inl ⟨_, _, hidle, hs', by simp, by simp⟩
    · exact .inr hs'

/-! ## The laws -/

theorem Manned.call (hs : s.Manned) (h : s.step a = some s') (ha : ∀ p, a ≠ .region p) :
    s'.Manned := by
  obtain ⟨p, l, -, rfl, hsend, hrecv⟩ | ⟨m, rfl⟩ := step_call h ha
  · constructor
    case receiver =>
      intro v
      cases p with
      | receiver => simpa [goto] using hrecv rfl v
      | sender => simpa [goto] using hs.receiver v
    case sender =>
      cases p with
      | sender => simpa [goto] using hsend rfl
      | receiver => simpa [goto] using hs.sender
  · exact ⟨hs.receiver, hs.sender⟩

theorem Manned.region (hs : s.Manned) (h : s.region p = some s') : s'.Manned := by
  constructor
  case receiver =>
    intro v hv
    by_cases hp : .receiver = p
    · subst hp
      obtain h' | h' | h' := region_pc_self h
      · exact absurd (h'.symm.trans hv) (by simp)
      · exact absurd (h'.symm.trans hv) (by simp)
      · exact hs.receiver v (h' ▸ hv)
    · exact hs.receiver v (region_pc h hp ▸ hv)
  case sender =>
    intro hv
    by_cases hp : .sender = p
    · subst hp
      obtain h' | h' | h' := region_pc_self h
      · exact absurd (h'.symm.trans hv) (by simp)
      · exact absurd (h'.symm.trans hv) (by simp)
      · exact hs.sender (h' ▸ hv)
    · exact hs.sender (region_pc h hp ▸ hv)

/-- Of two parties that wait for one condition there is one. -/
theorem Manned.alone (hs : s.Manned) (hp : s.turn p = .waits k) (hr : s.turn r = .waits k) :
    p = r := by
  have hend : ∀ q, s.turn q = .waits k → (q = .sender ↔ k = .nf) := by
    intro q hq
    have hstuck := turn_waits_iff.mp hq
    generalize hl : s.pc q = l at hstuck
    cases hstuck with
    | full => cases q with
      | sender => simp
      | receiver => exact absurd hl (hs.receiver _)
    | empty => cases q with
      | sender => exact absurd hl hs.sender
      | receiver => simp
  have heq := (hend p hp).trans (hend r hr).symm
  cases p <;> cases r <;> simp at heq ⊢

/-- Nothing a party does outside the mutex lets the other go on. -/
theorem turn_call (h : s.step a = some s') (ha : ∀ p, a ≠ .region p)
    (hr : s.turn r = .waits k) : s'.turn r = .waits k := by
  rw [turn_waits_iff] at hr ⊢
  obtain ⟨p, l, hidle, rfl, -⟩ | ⟨m, rfl⟩ := step_call h ha
  · have hne : r ≠ p := by
      rintro rfl
      rw [hidle] at hr
      cases hr
    simpa [goto, hne] using hr
  · exact hr

/-- A region that ends a wait signals what is waited for. -/
theorem turn_region (h : s.turn p = .goes s' ks) (hr : s.turn r = .waits k) :
    s'.turn r = .waits k ∨ k ∈ ks := by
  have hne : r ≠ p := by
    rintro rfl
    exact absurd (hr.symm.trans h) (by simp)
  obtain ⟨hregion, rfl⟩ := turn_goes_iff.mp h
  clear h
  rw [turn_waits_iff] at hr ⊢
  rw [region_pc hregion hne]
  unfold region at hregion
  split at hregion
  case h_1 => cases hregion
  case h_2 v hpc =>
    obtain ⟨⟨c, ok⟩, hsend, rfl⟩ := Option.map_eq_some_iff.mp hregion
    rw [hpc]
    exact hr.send hsend
  case h_3 hpc =>
    obtain ⟨ok, -, rfl⟩ := Option.map_eq_some_iff.mp hregion
    exact .inl hr
  case h_4 hpc =>
    split at hregion
    · cases hregion
      exact .inl hr
    · next c v htake =>
      rw [hpc]
      exact .inr (hr.take htake)
  case h_5 hpc =>
    cases hregion
    rw [hpc]
    exact hr.close
  case h_6 hpc =>
    cases hregion
    exact .inl hr.drop

end State

/-! ## Runs -/

theorem chanMonitor_step_iff : (chanMonitor D).Step s s' ↔ ∃ a, ByCall D s a ∧ s.step a = some s' := by
  constructor
  · rintro (⟨-, a, -, hd, h⟩ | @⟨p, ks, hl, h⟩)
    · exact ⟨a, .inr hd, h⟩
    · refine ⟨.region p, .inl ⟨p, rfl⟩, ?_⟩
      have hlive : s.trap = none := hl
      rw [State.step, hlive]
      exact (State.turn_goes_iff.mp h).1
  · rintro ⟨a, hd, h⟩
    have hlive : s.trap = none := by
      cases ht : s.trap with
      | none => rfl
      | some m => simp [State.step, ht] at h
    by_cases ha : ∃ p, a = .region p
    · obtain ⟨p, rfl⟩ := ha
      rw [State.step, hlive] at h
      exact .region (i := p) hlive (State.turn_goes_iff.mpr ⟨h, rfl⟩)
    · exact .outside hlive ⟨a, fun p hp => ha ⟨p, hp⟩, hd.resolve_left ha, h⟩

/-- The channel's regions signal whoever they let go on. -/
theorem chanMonitor_lawful : (chanMonitor D).Lawful State.Manned := by
  constructor
  case keeps =>
    rintro s s' hs (⟨-, a, ha, -, h⟩ | ⟨-, h⟩)
    · exact hs.call h ha
    · exact hs.region (State.turn_goes_iff.mp h).1
  case outside =>
    rintro s s' p k - ⟨a, ha, -, h⟩ hp
    exact State.turn_call h ha hp
  case signals => exact fun _ h hp => State.turn_region h hp
  case alone => exact fun hs hp hr => hs.alone hp hr

/-- The parties of a new channel are outside. -/
theorem start_manned (c : IdChan) : (State.start c).Manned :=
  ⟨by simp [State.start], by simp [State.start]⟩

/-- Without sleep the channel takes the runs of its regions. -/
theorem runs_iff : Runs (ByCall D) cap s ↔ ∃ q c c', idChanNew q cap = .ok c ∧
    idChanSender c = .ok c' ∧ ReflTransGen (chanMonitor D).Step (.start c') s := by
  constructor
  · intro h
    induction h with
    | start hnew hsender => exact ⟨_, _, _, hnew, hsender, .refl⟩
    | step _ hd h ih =>
      obtain ⟨q, c, c', hnew, hsender, hrun⟩ := ih
      exact ⟨q, c, c', hnew, hsender, hrun.tail (chanMonitor_step_iff.mpr ⟨_, hd, h⟩)⟩
  · rintro ⟨q, c, c', hnew, hsender, hrun⟩
    induction hrun with
    | refl => exact .start hnew hsender
    | tail _ h ih =>
      obtain ⟨a, hd, hstep⟩ := chanMonitor_step_iff.mp h
      exact ih.step hd hstep

/-- With sleep the channel takes the same runs, and whoever sleeps cannot go on. -/
theorem Dozes.sound (h : Dozes D cap s z) :
    Runs (ByCall D) cap s ∧ s.Manned ∧ (chanMonitor D).Drowsy (s, z) := by
  obtain ⟨q, c, c', hnew, hsender, hrun⟩ := h
  obtain ⟨hplain, hs, hdrowsy⟩ := chanMonitor_lawful.doze_run (start_manned c') hrun
  exact ⟨runs_iff.mpr ⟨q, c, c', hnew, hsender, hplain⟩, hs, hdrowsy⟩

theorem Runs.dozes (h : Runs (ByCall D) cap s) : ∃ z, Dozes D cap s z := by
  obtain ⟨q, c, c', hnew, hsender, hrun⟩ := runs_iff.mp h
  obtain ⟨z, hdoze⟩ := chanMonitor_lawful.run_doze (start_manned c') hrun
  exact ⟨z, q, c, c', hnew, hsender, hdoze⟩

/-- A channel has room for a value. -/
theorem Runs.cap_ne (h : Runs D cap s) : s.chan.cap ≠ 0 := by
  rw [h.cap_eq]
  induction h with
  | start hnew hsender =>
    obtain ⟨hs, hcap⟩ := start_sound hnew hsender
    have hlt : _ < BitVec.toNat (State.start _).chan.cap := hs.chan.head_lt
    intro heq
    simp [State.start, hcap, heq] at hlt
  | step _ _ _ ih => exact ih

/-- A full queue is not empty, so of two parties in a call one goes on. -/
theorem Runs.one_goes (h : Runs D cap s) (hm : s.Manned) (hp : ∀ p, s.pc p ≠ .idle) :
    ∃ p s', s.region p = some s' := by
  by_contra hnone
  have hstuck : ∀ p, s.chan.Stuck (s.pc p) (s.pc p).waits := by
    intro p
    refine (State.region_none_iff (hp p)).mp ?_
    rw [Option.eq_none_iff_forall_ne_some]
    exact fun s' hs' => hnone ⟨p, s', hs'⟩
  have hfull : s.chan.count = s.chan.cap := by
    have := hstuck .sender
    generalize hl : s.pc .sender = l at this
    cases this with
    | full hfull _ => exact hfull
    | empty => exact absurd hl hm.sender
  have hempty : s.chan.count = 0 := by
    have := hstuck .receiver
    generalize hl : s.pc .receiver = l at this
    cases this with
    | full => exact absurd hl (hm.receiver _)
    | empty hempty _ => exact hempty
  exact h.cap_ne (hfull.symm.trans hempty)

/-- The mutex and the two conditions cost a channel nothing: it comes to the states that regions
run whenever they can come to. No party sleeps while its call could go on, two parties in a call
never both sleep, and what could happen without sleep can happen. -/
theorem dozes_exact (D : State → Action → Prop) (cap : CInt) :
    (∀ s, Runs (ByCall D) cap s ↔ ∃ z, Dozes D cap s z) ∧
    ∀ s z, Dozes D cap s z →
      (∀ p, z p ≠ none → s.pc p ≠ .idle ∧ s.region p = none) ∧
      ((∀ p, s.pc p ≠ .idle) → ∃ p s', z p = none ∧ s.region p = some s') ∧
      ∀ a s', ByCall D s a → s.step a = some s' → ∃ z', (chanMonitor D).Doze (s, z) (s', z') := by
  constructor
  · exact fun s => ⟨Runs.dozes, fun ⟨z, h⟩ => h.sound.1⟩
  intro s z h
  obtain ⟨hrun, hmanned, hdrowsy⟩ := h.sound
  have hasleep : ∀ p, z p ≠ none → s.pc p ≠ .idle ∧ s.region p = none := by
    intro p hz
    obtain ⟨k, hk⟩ := Option.ne_none_iff_exists'.mp hz
    have hturn : s.turn p = .waits k := hdrowsy p k hk
    have hstuck := State.turn_waits_iff.mp hturn
    have hpc : s.pc p ≠ .idle := by
      intro hidle
      rw [hidle] at hstuck
      cases hstuck
    exact ⟨hpc, (State.region_none_iff hpc).mpr (hstuck.waits ▸ hstuck)⟩
  refine ⟨hasleep, fun hp => ?_, fun a s' hd hstep => ?_⟩
  · obtain ⟨p, s', hregion⟩ := hrun.one_goes hmanned hp
    refine ⟨p, s', by_contra fun hz => ?_, hregion⟩
    simp [(hasleep p hz).2] at hregion
  · exact hdrowsy.follows (chanMonitor_step_iff.mpr ⟨a, hd, hstep⟩)

/-- With at most `2 ^ 30` cells nothing is lost between parties that sleep. -/
theorem dozing_lossless (hcap : cap.toNat ≤ 2 ^ 30) (h : Dozes (fun s a => s.UsesOpen a) cap s z) :
    s.Lossless := by
  refine small_run_lossless hcap ?_
  have hrun := h.sound.1
  clear h
  induction hrun with
  | start hnew hsender => exact .start hnew hsender
  | step _ hd hstep ih =>
    refine ih.step ?_ hstep
    obtain ⟨p, rfl⟩ | hd := hd
    · trivial
    · exact hd

end IdCompiler.Channel

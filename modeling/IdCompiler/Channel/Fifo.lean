import IdCompiler.Channel.Chan

/-!
# What a channel keeps

While the receiving end is open, what was sent is what was received followed by
the cells queued in the ring. Every step keeps that as long as the place of a
new value fits an `int` and the receiver uses its end only while it is open.
-/

namespace IdCompiler.Channel

open IdCompiler.Core

/-! ## Words as numbers -/

theorem CInt.toInt_of_lt {x : CInt} (h : x.toNat < 2 ^ 31) : x.toInt = x.toNat :=
  BitVec.toInt_eq_toNat_of_lt (by omega)

/-- The remainder of two words that are not negative. -/
theorem CInt.srem_toInt {x y : CInt} (hx : x.toNat < 2 ^ 31) (hy : y.toNat < 2 ^ 31) :
    (x.srem y).toInt = (x.toNat % y.toNat : Nat) := by
  rw [BitVec.toInt_srem, toInt_of_lt hx, toInt_of_lt hy]
  rfl

theorem CInt.srem_toNat {x y : CInt} (hx : x.toNat < 2 ^ 31) (hy : y.toNat < 2 ^ 31)
    (hpos : 0 < y.toNat) : (x.srem y).toNat = x.toNat % y.toNat := by
  have hlt := Nat.mod_lt x.toNat hpos
  have hint := srem_toInt hx hy
  rw [BitVec.toInt_eq_toNat_cond] at hint
  have := (x.srem y).isLt
  split at hint <;> omega

/-! ## One channel -/

/-- The indices are inside the block, which is there while the receiving end is open. -/
structure IdChan.Sound (c : IdChan) : Prop where
  /-- A capacity is a positive `int`. -/
  cap_lt : c.cap.toNat < 2 ^ 31
  /-- The next value to take is in the block. -/
  head_lt : c.head.toNat < c.cap.toNat
  /-- No more values are queued than there are cells. -/
  count_le : c.count.toNat ≤ c.cap.toNat
  /-- Only the last close frees the entry. -/
  used_of_open : c.ropen = true → c.used = true
  /-- Only the last close frees the block. -/
  block_of_open : c.ropen = true → c.q.isSome = true

/-- The place of a new value, as a sum, is an `int`. -/
def IdChan.Exact (c : IdChan) : Prop := c.head.toNat + c.count.toNat < 2 ^ 31

/-- The values in the block. -/
def IdChan.cells (c : IdChan) (k : Nat) : CInt :=
  match c.q with
  | none => 0
  | some cells => (cells k).setWidth 32

/-- The values queued, the next to take first. -/
def IdChan.queued (c : IdChan) : List CInt :=
  window c.cells c.cap.toNat c.head.toNat c.count.toNat

namespace IdChan

variable {c c' : IdChan} {v : CInt} {ok : Bool} {k : Nat}

theorem queued_length : c.queued.length = c.count.toNat := Ring.window_length

/-- An exact sum leads to the cell after the last one queued. -/
theorem slot_eq (hs : c.Sound) (hfit : c.Exact) :
    c.slot = (ringCell c.cap.toNat c.head.toNat c.count.toNat : Nat) := by
  have hsum : (c.head + c.count).toNat = c.head.toNat + c.count.toNat := by
    rw [BitVec.toNat_add]
    unfold Exact at hfit
    exact Nat.mod_eq_of_lt (by omega)
  unfold slot ringCell
  rw [CInt.srem_toInt (by rw [hsum]; exact hfit) hs.cap_lt, hsum]

/-- A value widened to a cell and read back. -/
theorem setWidth_signExtend (v : CInt) : (v.signExtend 64).setWidth 32 = v := by
  apply BitVec.eq_of_getLsbD_eq
  intro i hi
  rw [BitVec.getLsbD_setWidth, BitVec.getLsbD_signExtend]
  simp [hi, show i < 64 by omega]

theorem cells_write {cells : Int → BitVec 64} (hq : c'.q =
    some (Function.update cells (k : Nat) (v.signExtend 64))) (hc : c.q = some cells) :
    c'.cells = Function.update c.cells k v := by
  funext j
  simp only [IdChan.cells, hq, hc, Function.update_apply, Int.natCast_inj]
  split
  · exact setWidth_signExtend v
  · rfl

/-- What a send does: queues the value in the free cell, or finds the receiver gone. -/
theorem send_cases (h : idChanSend v c = some (c', ok)) :
    (c.ropen = false ∧ c' = c ∧ ok = false) ∨
    (c.ropen = true ∧ c.count ≠ c.cap ∧ ok = true ∧ c' = { c with
      q := c.q.map fun cells => Function.update cells c.slot (v.signExtend 64)
      count := c.count + 1 }) := by
  unfold idChanSend at h
  cases hr : c.ropen with
  | false =>
    left
    simpa [hr, eq_comm] using h
  | true =>
    right
    simp only [hr, and_true, if_true, Option.ite_none_left_eq_some, Option.some.injEq,
      Prod.mk.injEq] at h
    obtain ⟨hfull, rfl, rfl⟩ := h
    exact ⟨rfl, hfull, rfl, by rw [← hr]⟩

/-- A sent value comes after the ones queued; a send to a closed end changes nothing. -/
theorem send_spec (hs : c.Sound) (hfit : c.ropen = true → c.count ≠ c.cap → c.Exact)
    (h : idChanSend v c = some (c', ok)) :
    c'.Sound ∧ ok = c.ropen ∧ c'.ropen = c.ropen ∧ c.count.toNat ≤ c'.count.toNat ∧
      c'.queued = if c.ropen then c.queued ++ [v] else c.queued := by
  obtain ⟨hr, rfl, rfl⟩ | ⟨hr, hfull, rfl, rfl⟩ := send_cases h
  · simp [hs, hr]
  have hroom : c.count.toNat < c.cap.toNat :=
    lt_of_le_of_ne hs.count_le (mt BitVec.eq_of_toNat_eq hfull)
  have hcount : (c.count + 1).toNat = c.count.toNat + 1 := by
    have := hs.cap_lt
    rw [BitVec.toNat_add]
    exact Nat.mod_eq_of_lt (by simp; omega)
  obtain ⟨cells, hq⟩ := Option.isSome_iff_exists.mp (hs.block_of_open hr)
  have hslot := slot_eq hs (hfit hr hfull)
  constructor
  · exact {
      cap_lt := hs.cap_lt
      head_lt := hs.head_lt
      count_le := by simp only [hcount]; omega
      used_of_open := hs.used_of_open
      block_of_open := by simp [hq] }
  refine ⟨hr.symm, rfl, by simp only [hcount]; omega, ?_⟩
  simp only [hr, if_true, queued, hcount]
  rw [cells_write (by rw [hq, hslot]; rfl) hq]
  exact Ring.window_push hroom

/-- What a take does. -/
theorem take_cases (h : idChanTake c = .ok (c', v)) : 0 < c.count.toNat ∧
    ∃ cells, c.q = some cells ∧ v = (cells c.head.toInt).setWidth 32 ∧ c' = { c with
      head := (c.head + 1).srem c.cap
      count := c.count - 1 } := by
  unfold idChanTake at h
  split at h
  · cases h
  next hne =>
  split at h
  · cases h
  next cells hq =>
  constructor
  · exact Nat.pos_of_ne_zero fun h0 => hne (BitVec.eq_of_toNat_eq h0)
  · cases h
    exact ⟨cells, hq, rfl, rfl⟩

/-- The value taken is the first one queued. -/
theorem take_spec (hs : c.Sound) (h : idChanTake c = .ok (c', v)) :
    c'.Sound ∧ c'.ropen = c.ropen ∧ c.queued = v :: c'.queued := by
  obtain ⟨hpos, cells, hq, rfl, rfl⟩ := take_cases h
  have hcap := hs.cap_lt
  have hhead := hs.head_lt
  have hcount := hs.count_le
  have hnext : (c.head + 1).toNat = c.head.toNat + 1 := by
    rw [BitVec.toNat_add]
    exact Nat.mod_eq_of_lt (by simp; omega)
  have hless : (c.count - 1).toNat = c.count.toNat - 1 := by
    rw [BitVec.toNat_sub_of_le (by simp [BitVec.le_def]; omega)]
    rfl
  have hcell : ((c.head + 1).srem c.cap).toNat = ringCell c.cap.toNat c.head.toNat 1 := by
    rw [CInt.srem_toNat (by omega) hcap (by omega), hnext]
    rfl
  constructor
  · exact {
      cap_lt := hcap
      head_lt := by
        simp only [hcell]
        exact Ring.ringCell_lt (by omega)
      count_le := by
        simp only [hless]
        omega
      used_of_open := hs.used_of_open
      block_of_open := hs.block_of_open }
  have hvalue : c.cells c.head.toNat = (cells c.head.toInt).setWidth 32 := by
    rw [CInt.toInt_of_lt (by omega)]
    simp only [IdChan.cells, hq]
  refine ⟨rfl, ?_⟩
  simp only [queued, hcell, hless]
  rw [← hvalue, ← Nat.sub_add_cancel hpos, Nat.add_sub_cancel, Ring.window_first hhead]
  rfl

/-- An answer of 1 means a value is queued. -/
theorem wait_spec (hs : c.Sound) (h : idChanWait c = some true) : 0 < c.count.toNat := by
  have hcap := hs.cap_lt
  have hcount := hs.count_le
  simp only [idChanWait, Option.ite_none_left_eq_some, Option.some.injEq, decide_eq_true_eq] at h
  rw [CInt.toInt_of_lt (by omega)] at h
  omega

/-- A take of a queued value from an open end gives one. -/
theorem take_ok (hs : c.Sound) (hr : c.ropen = true) (hpos : 0 < c.count.toNat) :
    idChanOf c = .ok c ∧ ∃ r, idChanTake c = .ok r := by
  obtain ⟨cells, hq⟩ := Option.isSome_iff_exists.mp (hs.block_of_open hr)
  have hne : c.count ≠ 0 := by
    intro h
    rw [h] at hpos
    exact absurd hpos (by decide)
  constructor
  · rw [idChanOf, if_pos (hs.used_of_open hr)]
  · rw [idChanTake, if_neg hne, hq]
    exact ⟨_, rfl⟩

end IdChan

/-! ## Runs -/

/-- What a run without loss shows in every state. -/
structure State.Lossless (s : State) : Prop where
  /-- The next value to take lies in the block. -/
  head_bounds : 0 ≤ s.chan.head.toInt ∧ s.chan.head.toInt < s.chan.cap.toInt
  /-- The queue is never fuller than the block. -/
  count_bounds : 0 ≤ s.chan.count.toInt ∧ s.chan.count.toInt ≤ s.chan.cap.toInt
  /-- Nothing was lost, doubled or moved on the way. -/
  received_prefix : s.received <+: s.sent
  /-- What is still to come is what is queued. -/
  queued_rest : s.chan.ropen = true →
    s.sent = s.received ++ s.chan.queued ∧ (s.chan.queued.length : Int) = s.chan.count.toInt
  /-- The take after a wait that answered 1 gets a value. -/
  take_ok : s.ready = true → idChanOf s.chan = .ok s.chan ∧ ∃ r, idChanTake s.chan = .ok r

/-- The receiver uses its end only while it is open. -/
def State.UsesOpen (s : State) : Action → Prop
  | .wait | .take => s.chan.ropen = true
  | _ => True

/-- A send that queues a value computes its place exactly. -/
def State.Places (s : State) : Action → Prop
  | .region p => ∀ v, s.pc p = .send v → s.chan.ropen = true → s.chan.count ≠ s.chan.cap →
    s.chan.Exact
  | _ => True

/-- The invariant behind `Lossless`. -/
structure State.Sound (s : State) : Prop where
  chan : s.chan.Sound
  /-- What came out is the first part of what went in. -/
  received_prefix : s.received <+: s.sent
  /-- The rest is in the ring. -/
  queued : s.chan.ropen = true → s.sent = s.received ++ s.chan.queued
  /-- A value is there for a receiver that was told so. -/
  ready : s.ready = true → s.chan.ropen = true ∧ 0 < s.chan.count.toNat
  /-- Only the receiver waits and takes, and nobody closes its end meanwhile. -/
  receiving : ∀ p, s.pc p = .wait ∨ s.pc p = .take → p = .receiver ∧ s.chan.ropen = true
  /-- The entry is freed after both ends are closed. -/
  drop : ∀ p, s.pc p = .drop → s.chan.ropen = false

namespace State

variable {s s' : State} {a : Action} {p : Party} {l : Pc}

theorem Sound.lossless (hs : s.Sound) : s.Lossless := by
  have hcap := hs.chan.cap_lt
  have hhead := hs.chan.head_lt
  have hcount := hs.chan.count_le
  have hi := CInt.toInt_of_lt hcap
  have hh : s.chan.head.toInt = s.chan.head.toNat := CInt.toInt_of_lt (by omega)
  have hc : s.chan.count.toInt = s.chan.count.toNat := CInt.toInt_of_lt (by omega)
  exact {
    head_bounds := by omega
    count_bounds := by omega
    received_prefix := hs.received_prefix
    queued_rest := fun hr => ⟨hs.queued hr, by rw [IdChan.queued_length, hc]⟩
    take_ok := fun hr => IdChan.take_ok hs.chan (hs.ready hr).1 (hs.ready hr).2 }

/-- A party that only moves on keeps the invariant. -/
theorem Sound.goto (hs : s.Sound)
    (huse : l = .wait ∨ l = .take → p = .receiver ∧ s.chan.ropen = true)
    (hdrop : l = .drop → s.chan.ropen = false) : (s.goto p l).Sound where
  chan := hs.chan
  received_prefix := hs.received_prefix
  queued := hs.queued
  ready := hs.ready
  receiving := by
    intro r hr
    simp only [State.goto, Function.update_apply] at hr
    split at hr
    · next heq =>
      rw [heq]
      exact huse hr
    · exact hs.receiving r hr
  drop := by
    intro r hr
    simp only [State.goto, Function.update_apply] at hr
    split at hr
    · exact hdrop hr
    · exact hs.drop r hr

theorem Sound.leave (hs : s.Sound) (p : Party) : (s.goto p .idle).Sound :=
  hs.goto (by simp) (by simp)

/-- A call's start keeps the invariant. -/
theorem Sound.call (hs : s.Sound)
    (huse : l = .wait ∨ l = .take → p = .receiver ∧ s.chan.ropen = true)
    (hdrop : l ≠ .drop) (h : s.call p l = some s') : s'.Sound := by
  unfold State.call at h
  split at h
  swap
  · cases h
  split at h
  · cases h
    exact hs.goto huse fun hl => absurd hl hdrop
  · cases h
    exact ⟨hs.chan, hs.received_prefix, hs.queued, hs.ready, hs.receiving, hs.drop⟩

/-- A send's region keeps the invariant. -/
theorem Sound.send {v : CInt} {c : IdChan} {ok : Bool} (hs : s.Sound)
    (hfit : s.chan.ropen = true → s.chan.count ≠ s.chan.cap → s.chan.Exact)
    (h : idChanSend v s.chan = some (c, ok)) :
    State.Sound { s with chan := c, sent := if ok then s.sent ++ [v] else s.sent } := by
  obtain ⟨hchan, rfl, hr, hle, hq⟩ := IdChan.send_spec hs.chan hfit h
  constructor
  case chan => exact hchan
  case received_prefix =>
    split
    · exact hs.received_prefix.trans (List.prefix_append _ _)
    · exact hs.received_prefix
  case queued =>
    intro hopen
    rw [hr] at hopen
    simp only [hopen, if_true] at hq ⊢
    rw [hq, ← List.append_assoc, ← hs.queued hopen]
  case ready =>
    intro hready
    rw [hr]
    exact ⟨(hs.ready hready).1, lt_of_lt_of_le (hs.ready hready).2 hle⟩
  case receiving => simpa only [hr] using hs.receiving
  case drop => simpa only [hr] using hs.drop

/-- A take's region keeps the invariant. -/
theorem Sound.take {v : CInt} {c : IdChan} (hs : s.Sound) (hr : s.chan.ropen = true)
    (h : idChanTake s.chan = .ok (c, v)) :
    State.Sound { s with chan := c, received := s.received ++ [v], ready := false } := by
  obtain ⟨hchan, hropen, hq⟩ := IdChan.take_spec hs.chan h
  have hsent : s.sent = s.received ++ [v] ++ c.queued := by
    rw [hs.queued hr, hq, List.append_assoc, List.singleton_append]
  constructor
  case chan => exact hchan
  case received_prefix =>
    rw [hsent]
    exact List.prefix_append _ _
  case queued => exact fun _ => hsent
  case ready => simp
  case receiving => simpa only [hropen] using hs.receiving
  case drop => simpa only [hropen] using hs.drop

/-- A close's region keeps the invariant: it only shuts an end. -/
theorem Sound.close (hs : s.Sound) (p : Party) : State.Sound { s.goto p
    (if (idChanClose p s.chan).2 then .drop else .idle) with
      chan := (idChanClose p s.chan).1
      ready := s.ready && p == .sender } := by
  have hgone : ∀ r, (s.goto p (if (idChanClose p s.chan).2 then .drop else .idle)).pc r = .drop →
      r = p ∧ (idChanClose p s.chan).2 = true ∨ s.pc r = .drop := by
    intro r hr
    simp only [State.goto, Function.update_apply] at hr
    split at hr
    · next heq =>
      split at hr
      · next hlast => exact .inl ⟨heq, hlast⟩
      · cases hr
    · exact .inr hr
  have hbusy : ∀ r l, l = .wait ∨ l = .take →
      (s.goto p (if (idChanClose p s.chan).2 then .drop else .idle)).pc r = l →
      r ≠ p ∧ s.pc r = l := by
    intro r l hl hr
    simp only [State.goto, Function.update_apply] at hr
    split at hr
    · split at hr <;> simp [← hr] at hl
    · next hne => exact ⟨hne, hr⟩
  have hc := hs.chan
  cases p with
  | sender =>
    constructor
    case chan => exact ⟨hc.cap_lt, hc.head_lt, hc.count_le, hc.used_of_open, hc.block_of_open⟩
    case received_prefix => exact hs.received_prefix
    case queued => exact hs.queued
    case ready => simpa [idChanClose] using hs.ready
    case receiving =>
      rintro r (hr | hr)
      · exact hs.receiving r (.inl (hbusy r .wait (.inl rfl) hr).2)
      · exact hs.receiving r (.inr (hbusy r .take (.inr rfl) hr).2)
    case drop =>
      intro r hr
      obtain ⟨-, hlast⟩ | hold := hgone r hr
      · simpa [idChanClose] using hlast
      · exact hs.drop r hold
  | receiver =>
    constructor
    case chan => exact ⟨hc.cap_lt, hc.head_lt, hc.count_le, by simp [idChanClose],
      by simp [idChanClose]⟩
    case received_prefix => exact hs.received_prefix
    case queued => simp [idChanClose]
    case ready => simp
    case receiving =>
      -- nobody but the closing receiver could have been waiting or taking
      rintro r (hr | hr)
      · obtain ⟨hne, hold⟩ := hbusy r .wait (.inl rfl) hr
        exact absurd (hs.receiving r (.inl hold)).1 hne
      · obtain ⟨hne, hold⟩ := hbusy r .take (.inr rfl) hr
        exact absurd (hs.receiving r (.inr hold)).1 hne
    case drop => exact fun r hr => rfl

/-- The last close's second region keeps the invariant: the receiving end is closed by then. -/
theorem Sound.free (hs : s.Sound) (hr : s.chan.ropen = false) :
    State.Sound { s with chan := idChanDrop s.chan } := by
  have hc := hs.chan
  constructor
  case chan => exact ⟨hc.cap_lt, hc.head_lt, hc.count_le, by simp [idChanDrop, hr],
    by simp [idChanDrop, hr]⟩
  case received_prefix => exact hs.received_prefix
  case queued => simp [idChanDrop, hr]
  case ready => exact fun hready => absurd (hs.ready hready).1 (by simp [hr])
  case receiving => exact hs.receiving
  case drop => exact hs.drop

/-- A region keeps the invariant. -/
theorem Sound.region (hs : s.Sound) (hplace : s.Places (.region p)) (h : s.region p = some s') :
    s'.Sound := by
  unfold State.region at h
  split at h
  case h_1 => cases h
  case h_2 v hpc =>
    obtain ⟨⟨c, ok⟩, hsend, rfl⟩ := Option.map_eq_some_iff.mp h
    exact (hs.send (hplace v hpc) hsend).leave p
  case h_3 hpc =>
    obtain ⟨ok, hwait, rfl⟩ := Option.map_eq_some_iff.mp h
    have hleft := hs.leave p
    refine ⟨hleft.chan, hleft.received_prefix, hleft.queued, fun hok => ?_, hleft.receiving,
      hleft.drop⟩
    exact ⟨(hs.receiving p (.inl hpc)).2, IdChan.wait_spec hs.chan (hok ▸ hwait)⟩
  case h_4 hpc =>
    split at h
    · cases h
      exact ⟨hs.chan, hs.received_prefix, hs.queued, hs.ready, hs.receiving, hs.drop⟩
    · next c v htake =>
      cases h
      exact (hs.take (hs.receiving p (.inr hpc)).2 htake).leave p
  case h_5 hpc =>
    cases h
    exact hs.close p
  case h_6 hpc =>
    cases h
    exact (hs.free (hs.drop p hpc)).leave p

/-- A step keeps the invariant. -/
theorem Sound.step (hs : s.Sound) (huse : s.UsesOpen a) (hplace : s.Places a)
    (h : s.step a = some s') : s'.Sound := by
  unfold State.step at h
  split at h
  · cases h
  cases a with
  | send v => exact hs.call (by simp) (by simp) h
  | wait => exact hs.call (fun _ => ⟨rfl, huse⟩) (by simp) h
  | take => exact hs.call (fun _ => ⟨rfl, huse⟩) (by simp) h
  | close p => exact hs.call (by simp) (by simp) h
  | region p => exact hs.region hplace h

end State

/-- The state after `id_chan_new` and `id_chan_sender`. -/
theorem start_sound {q : Int → BitVec 64} {cap : CInt} {c c' : IdChan}
    (hnew : idChanNew q cap = .ok c) (hsender : idChanSender c = .ok c') :
    (State.start c').Sound ∧ c'.cap = cap := by
  unfold idChanNew at hnew
  split at hnew
  · cases hnew
  next hcap =>
  cases hnew
  cases hsender
  have hpos : 0 < cap.toNat ∧ cap.toNat < 2 ^ 31 := by
    rw [BitVec.slt_iff_toInt_lt] at hcap
    have hone : (1 : CInt).toInt = 1 := rfl
    rw [hone, BitVec.toInt_eq_toNat_cond] at hcap
    have := cap.isLt
    split at hcap <;> omega
  refine ⟨?_, rfl⟩
  constructor
  case chan => exact ⟨hpos.2, hpos.1, Nat.zero_le _, fun _ => rfl, fun _ => rfl⟩
  case received_prefix => exact List.prefix_refl _
  case queued => exact fun _ => rfl
  case ready => simp [State.start]
  case receiving => simp [State.start]
  case drop => simp [State.start]

/-- A run whose steps use open ends and place their values exactly keeps the invariant. -/
theorem Runs.sound {cap : CInt} {s : State}
    (h : Runs (fun s a => s.UsesOpen a ∧ s.Places a) cap s) : s.Sound := by
  induction h with
  | start hnew hsender => exact (start_sound hnew hsender).1
  | step _ hd hstep ih => exact ih.step hd.1 hd.2 hstep

end IdCompiler.Channel

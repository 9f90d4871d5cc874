import IdCompiler.Channel.Fifo

/-!
# The capacities a channel is safe for

Up to `2 ^ 30` cells every place is exact. One more, and a full queue whose head
is the last cell puts its next value outside the block.
-/

namespace IdCompiler.Channel

open IdCompiler.Core

variable {s s' : State} {a : Action} {cap : CInt}

/-! ## Small capacities -/

theorem region_cap {p : Party} (h : s.region p = some s') : s'.chan.cap = s.chan.cap := by
  unfold State.region at h
  split at h
  case h_1 => cases h
  case h_2 v hpc =>
    obtain ⟨⟨c, ok⟩, hsend, rfl⟩ := Option.map_eq_some_iff.mp h
    obtain ⟨-, rfl, -⟩ | ⟨-, -, -, rfl⟩ := IdChan.send_cases hsend <;> rfl
  case h_3 hpc =>
    obtain ⟨ok, -, rfl⟩ := Option.map_eq_some_iff.mp h
    rfl
  case h_4 hpc =>
    split at h
    · cases h
      rfl
    · next c v htake =>
      obtain ⟨-, cells, -, -, rfl⟩ := IdChan.take_cases htake
      cases h
      rfl
  case h_5 hpc =>
    cases h
    cases p <;> rfl
  case h_6 hpc =>
    cases h
    rfl

theorem call_cap {p : Party} {l : Pc} (h : s.call p l = some s') :
    s'.chan.cap = s.chan.cap := by
  unfold State.call at h
  split at h
  · split at h <;> cases h <;> rfl
  · cases h

/-- No step changes the capacity. -/
theorem step_cap (h : s.step a = some s') : s'.chan.cap = s.chan.cap := by
  unfold State.step at h
  split at h
  · cases h
  cases a with
  | region p => exact region_cap h
  | send | wait | take | close => exact call_cap h

theorem Runs.cap_eq {D : State → Action → Prop} (h : Runs D cap s) : s.chan.cap = cap := by
  induction h with
  | start hnew hsender => exact (start_sound hnew hsender).2
  | step _ _ hstep ih => rw [step_cap hstep, ih]

/-- With at most `2 ^ 30` cells the place of a value is always an `int`. -/
theorem State.Sound.places (hs : s.Sound) (hcap : s.chan.cap.toNat ≤ 2 ^ 30) : s.Places a := by
  have hhead := hs.chan.head_lt
  have hcount := hs.chan.count_le
  cases a with
  | region p =>
    intro v _ _ _
    unfold IdChan.Exact
    omega
  | send | wait | take | close => trivial

/-- With at most `2 ^ 30` cells, open ends are all a run needs. -/
theorem small_run_lossless (hcap : cap.toNat ≤ 2 ^ 30) (h : Runs (fun s a => s.UsesOpen a) cap s) :
    s.Lossless := by
  apply State.Sound.lossless
  induction h with
  | start hnew hsender => exact (start_sound hnew hsender).1
  | step hrun huse hstep ih => exact ih.step huse (ih.places (by rwa [hrun.cap_eq])) hstep

/-! ## One cell more -/

/-- Both parties outside, both ends open. -/
def quiet (cells : Int → BitVec 64) (cap head count : CInt) (sent received : List CInt) : State :=
  ⟨⟨some cells, head, count, cap, true, true, true, true⟩, fun _ => .idle, sent, received, false,
    none⟩

variable {cells : Int → BitVec 64} {head count : CInt} {sent received : List CInt}

/-- A whole send while there is room. -/
theorem send_round (v : CInt) (hroom : count ≠ cap)
    (h : Runs (fun s a => s.UsesOpen a) cap (quiet cells cap head count sent received)) :
    Runs (fun s a => s.UsesOpen a) cap
      (quiet (Function.update cells ((head + count).srem cap).toInt (v.signExtend 64)) cap head
        (count + 1) (sent ++ [v]) received) := by
  have hcall := h.step (a := .send v) trivial rfl
  refine hcall.step (a := .region .sender) trivial ?_
  simp [State.step, State.region, quiet, State.goto, idChanSend, hroom, IdChan.slot]

/-- A whole take while a value is queued. -/
theorem take_round (hne : count ≠ 0)
    (h : Runs (fun s a => s.UsesOpen a) cap (quiet cells cap head count sent received)) :
    Runs (fun s a => s.UsesOpen a) cap
      (quiet cells cap ((head + 1).srem cap) (count - 1) sent
        (received ++ [(cells head.toInt).setWidth 32])) := by
  have hcall := h.step (a := .take) rfl rfl
  refine hcall.step (a := .region .receiver) trivial ?_
  have htake : idChanTake (quiet cells cap head count sent received).chan =
      .ok (⟨some cells, (head + 1).srem cap, count - 1, cap, true, true, true, true⟩,
        (cells head.toInt).setWidth 32) := if_neg hne
  show ((quiet cells cap head count sent received).goto .receiver .take).region .receiver = _
  simp only [State.region, State.goto, Function.update_self, Function.update_idem]
  rw [htake]
  simp [quiet]

theorem ofNat_succ (n : Nat) : (BitVec.ofNat 32 n : CInt) + 1 = BitVec.ofNat 32 (n + 1) := by
  apply BitVec.eq_of_toNat_eq
  simp

theorem ofNat_inj {n m : Nat} (hn : n < 2 ^ 32) (hm : m < 2 ^ 32)
    (h : (BitVec.ofNat 32 n : CInt) = BitVec.ofNat 32 m) : n = m := by
  have := congrArg BitVec.toNat h
  rwa [BitVec.toNat_ofNat, BitVec.toNat_ofNat, Nat.mod_eq_of_lt hn, Nat.mod_eq_of_lt hm] at this

/-- Any number of zeros sent while there is room for them. -/
theorem send_zeros {k c : Nat} (n : Nat) (hk : k < 2 ^ 31) (hroom : c + n ≤ k)
    (h : Runs (fun s a => s.UsesOpen a) (BitVec.ofNat 32 k)
      (quiet (fun _ => 0) (BitVec.ofNat 32 k) head (BitVec.ofNat 32 c) sent received)) :
    Runs (fun s a => s.UsesOpen a) (BitVec.ofNat 32 k)
      (quiet (fun _ => 0) (BitVec.ofNat 32 k) head (BitVec.ofNat 32 (c + n))
        (sent ++ List.replicate n 0) received) := by
  induction n with
  | zero => simpa using h
  | succ n ih =>
    have hfree : (BitVec.ofNat 32 (c + n) : CInt) ≠ BitVec.ofNat 32 k := fun heq => by
      have := ofNat_inj (by omega) (by omega) heq
      omega
    have hnext := send_round 0 hfree (ih (by omega))
    have hsame : ∀ i : Int, Function.update (fun _ : Int => (0 : BitVec 64)) i
        ((0 : CInt).signExtend 64) = fun _ => 0 := fun i => Function.update_eq_self i _
    rw [hsame, ofNat_succ, List.append_assoc, ← List.replicate_succ'] at hnext
    exact hnext

/-- Any number of values taken from a ring of zeros. -/
theorem take_zeros {k p c : Nat} (n : Nat) (hk : k < 2 ^ 31) (hp : p < k) (hc : n ≤ c) (hck : c ≤ k)
    (hcells : ∀ i : Nat, cells i = 0)
    (h : Runs (fun s a => s.UsesOpen a) (BitVec.ofNat 32 k)
      (quiet cells (BitVec.ofNat 32 k) (BitVec.ofNat 32 p) (BitVec.ofNat 32 c) sent received)) :
    Runs (fun s a => s.UsesOpen a) (BitVec.ofNat 32 k)
      (quiet cells (BitVec.ofNat 32 k) (BitVec.ofNat 32 ((p + n) % k)) (BitVec.ofNat 32 (c - n))
        sent (received ++ List.replicate n 0)) := by
  induction n with
  | zero => simpa [Nat.mod_eq_of_lt hp] using h
  | succ n ih =>
    have hlt := Nat.mod_lt (p + n) (show 0 < k by omega)
    have hsome : (BitVec.ofNat 32 (c - n) : CInt) ≠ 0 := fun heq => by
      have := ofNat_inj (m := 0) (by omega) (by omega) heq
      omega
    have hnext := take_round hsome (ih (by omega))
    have hhead : (BitVec.ofNat 32 ((p + n) % k) : CInt).toInt = ((p + n) % k : Nat) := by
      rw [CInt.toInt_of_lt (by rw [BitVec.toNat_ofNat, Nat.mod_eq_of_lt] <;> omega),
        BitVec.toNat_ofNat, Nat.mod_eq_of_lt (by omega)]
    have hstep : ((BitVec.ofNat 32 ((p + n) % k) : CInt) + 1).srem (BitVec.ofNat 32 k) =
        BitVec.ofNat 32 ((p + (n + 1)) % k) := by
      apply BitVec.eq_of_toNat_eq
      have hmod := Nat.mod_lt (p + (n + 1)) (show 0 < k by omega)
      have htop : ∀ m, m ≤ k → (BitVec.ofNat 32 m : CInt).toNat = m := fun m hm => by
        rw [BitVec.toNat_ofNat, Nat.mod_eq_of_lt (by omega)]
      rw [ofNat_succ, CInt.srem_toNat (by rw [htop _ (by omega)]; omega)
        (by rw [htop k (by omega)]; omega) (by rw [htop k (by omega)]; omega),
        htop _ (by omega), htop k (by omega), htop _ (by omega), Nat.mod_add_mod, Nat.add_assoc]
    have hless : (BitVec.ofNat 32 (c - n) : CInt) - 1 = BitVec.ofNat 32 (c - (n + 1)) := by
      rw [BitVec.sub_eq_iff_eq_add, ofNat_succ]
      congr 1
      omega
    rw [hhead, hcells, hstep, hless, List.append_assoc] at hnext
    rw [List.replicate_succ']
    exact hnext

end IdCompiler.Channel

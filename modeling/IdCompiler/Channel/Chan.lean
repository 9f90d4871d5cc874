import IdCompiler.Core.Ring

/-!
# Channels of the hosted runtime

A bounded queue between one sender and one receiver. Each region under the
channel's mutex is one step; a call first looks its handle up, outside the
mutex. The `int` fields are words of 32 bits.
-/

namespace IdCompiler.Channel

open IdCompiler.Core

/-- The C `int`. -/
abbrev CInt := BitVec 32

/-- One entry of the table of channels. -/
structure IdChan where
  /-- The block of cells, with the memory around it; `none` once it is freed. -/
  q : Option (Int → BitVec 64)
  head : CInt
  count : CInt
  cap : CInt
  sopen : Bool
  ropen : Bool
  taken : Bool
  used : Bool

/-- The two parties: each holds one end of the channel. -/
inductive Party
  | sender
  | receiver
  deriving DecidableEq

/-! ## Calls -/

/-- The handle's channel, or a trap once the entry is free again. -/
def idChanOf (c : IdChan) : Except String IdChan :=
  if c.used then .ok c else .error "chan: not an open channel end"

/-- A new channel over a block of `cap` cells, of any content. -/
def idChanNew (q : Int → BitVec 64) (cap : CInt) : Except String IdChan :=
  if cap.slt 1 then .error "chan_new: capacity must be at least 1"
  else .ok ⟨some q, 0, 0, cap, true, true, false, true⟩

/-- The sending end, given out once. -/
def idChanSender (c : IdChan) : Except String IdChan :=
  if c.taken then .error "this channel already has a sender (a channel has one sender; make a second channel)"
  else .ok { c with taken := true }

/-- The cell a value is queued in, as C computes it: the sum wraps and the remainder has the sign
of the sum. -/
def IdChan.slot (c : IdChan) : Int := ((c.head + c.count).srem c.cap).toInt

/-- `id_chan_send` under the mutex: `none` while the queue is full and the receiver is there. -/
def idChanSend (v : CInt) (c : IdChan) : Option (IdChan × Bool) :=
  if c.count = c.cap ∧ c.ropen then none
  else if c.ropen then
    some ({ c with
      q := c.q.map fun cells => Function.update cells c.slot (v.signExtend 64)
      count := c.count + 1 }, true)
  else some (c, false)

/-- `id_chan_wait` under the mutex: `none` while the queue is empty and the sender is there. -/
def idChanWait (c : IdChan) : Option Bool :=
  if c.count = 0 ∧ c.sopen then none else some (decide (0 < c.count.toInt))

/-- `id_chan_take` under the mutex. -/
def idChanTake (c : IdChan) : Except String (IdChan × CInt) :=
  if c.count = 0 then
    .error "chan_take on an empty channel: call chan_wait first and take only when it returns 1"
  else
    match c.q with
    | none => .error "null pointer"
    | some cells =>
      .ok ({ c with
        head := (c.head + 1).srem c.cap
        count := c.count - 1 }, (cells c.head.toInt).setWidth 32)

/-- `id_chan_close` under the mutex, and whether the other end was closed before. -/
def idChanClose : Party → IdChan → IdChan × Bool
  | .sender, c => ({ c with sopen := false }, !c.ropen)
  | .receiver, c => ({ c with ropen := false }, !c.sopen)

/-- What the last `id_chan_close` does under the table's mutex. -/
def idChanDrop (c : IdChan) : IdChan := { c with q := none, used := false }

/-! ## Two parties -/

/-- Where a party is: outside, or in a call that waits for the mutex. -/
inductive Pc
  | idle
  | send (v : CInt)
  | wait
  | take
  | close
  | drop
  deriving DecidableEq

/-- The channel, where its parties are, and what has happened on it. -/
structure State where
  chan : IdChan
  pc : Party → Pc
  /-- The values whose `id_chan_send` returned 1, in order. -/
  sent : List CInt
  /-- The values `id_chan_take` returned, in order. -/
  received : List CInt
  /-- The receiver's last call was an `id_chan_wait` that returned 1. -/
  ready : Bool
  /-- The message the process stopped with. -/
  trap : Option String

/-- The state after `id_chan_new` and `id_chan_sender`. -/
def State.start (c : IdChan) : State := ⟨c, fun _ => .idle, [], [], false, none⟩

/-- A party moves on. -/
def State.goto (s : State) (p : Party) (l : Pc) : State :=
  { s with pc := Function.update s.pc p l }

/-- One step of one party. -/
inductive Action
  | send (v : CInt)
  | wait
  | take
  | close (p : Party)
  /-- A party gets the mutex and runs its region. -/
  | region (p : Party)

/-- A call starts: the handle is looked up. -/
def State.call (s : State) (p : Party) (l : Pc) : Option State :=
  if s.pc p = .idle then
    match idChanOf s.chan with
    | .ok _ => some (s.goto p l)
    | .error m => some { s with trap := some m }
  else none

/-- A party's region; `none` where it goes back to waiting. -/
def State.region (s : State) (p : Party) : Option State :=
  match s.pc p with
  | .idle => none
  | .send v =>
    (idChanSend v s.chan).map fun r =>
      { s.goto p .idle with
        chan := r.1
        sent := if r.2 then s.sent ++ [v] else s.sent }
  | .wait => (idChanWait s.chan).map fun ok => { s.goto p .idle with ready := ok }
  | .take =>
    match idChanTake s.chan with
    | .error m => some { s with trap := some m }
    | .ok (c, v) =>
      some { s.goto p .idle with
        chan := c
        received := s.received ++ [v]
        ready := false }
  | .close =>
    some { s.goto p (if (idChanClose p s.chan).2 then .drop else .idle) with
      chan := (idChanClose p s.chan).1
      ready := s.ready && p == .sender }
  | .drop => some { s.goto p .idle with chan := idChanDrop s.chan }

/-- One step; none is left after a trap. -/
def State.step (s : State) (a : Action) : Option State :=
  if s.trap.isSome then none
  else
    match a with
    | .send v => s.call .sender (.send v)
    | .wait => s.call .receiver .wait
    | .take => s.call .receiver .take
    | .close p => s.call p .close
    | .region p => s.region p

/-- The states that runs of a channel of capacity `cap` lead to, each step allowed by `D`. -/
inductive Runs (D : State → Action → Prop) (cap : CInt) : State → Prop
  | start {q : Int → BitVec 64} {c c' : IdChan} : idChanNew q cap = .ok c →
      idChanSender c = .ok c' → Runs D cap (.start c')
  | step {s s' : State} {a : Action} : Runs D cap s → D s a → s.step a = some s' → Runs D cap s'

end IdCompiler.Channel

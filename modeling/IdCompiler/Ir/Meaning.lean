import IdCompiler.Core.Lockstep
import IdCompiler.Ir.Rows

/-!
# What a function of the store does

The instructions of a block run in order, each on the values its operands have
by then. What an opcode computes and what a store or a call does to the world
is the machine's matter; that a phi takes the value that its incoming edge had
where the block was entered, that terminators go to one of their targets and
that everything else only computes is the store's.
-/

namespace IdCompiler.Ir

open IdCompiler.Core

variable {V W : Type*}

/-- The meaning of the opcodes, over values `V` and worlds `W`. -/
structure Machine (V W : Type*) where
  /-- What an instruction without an effect computes; it may read the world. -/
  value : Row → V → V → List V → W → V
  /-- What a store or a call computes, and the world it leaves. -/
  effect : Row → V → V → List V → W → V × W
  /-- Whether a conditional branch takes its first target. -/
  test : V → Bool
  /-- The value of a phi that has none for the edge taken. -/
  undef : V

/-- Where a run of a function is. -/
structure Cfg (V W : Type*) where
  blk : Nat
  pos : Nat
  /-- The block it came from. -/
  prev : Option Nat
  /-- The values by now. -/
  env : Int → V
  /-- The values where the block was entered. -/
  entry : Int → V
  world : W

/-- What can be seen of a run. -/
inductive Event (V : Type*)
  | effect (r : Row) (a b : V) (list : List V)
  | goes (before after : Nat)
  | returns (v : V)

/-- On to the next instruction. -/
def Cfg.next (c : Cfg V W) : Cfg V W := { c with pos := c.pos + 1 }

/-- On to the next instruction, with the value of this one. -/
def Cfg.assign (c : Cfg V W) (id : Nat) (v : V) (w : W) : Cfg V W :=
  { c with pos := c.pos + 1, env := Function.update c.env id v, world := w }

/-- Into a block from its first instruction on. -/
def Cfg.enter (c : Cfg V W) (b : Nat) : Cfg V W :=
  { c with blk := b, pos := 0, prev := some c.blk, entry := c.env }

/-- The incoming value of the edge that was taken. -/
def incoming (m : Machine V W) (r : Row) (c : Cfg V W) : V :=
  match c.prev.bind fun p => r.list[r.blk.idxOf p]? with
  | some v => c.entry v
  | none => m.undef

/-- A branch to a target, if there is one. -/
def goes (c : Cfg V W) (target : Option Nat) : List (Event V) × Option (Cfg V W) :=
  match target with
  | some b => ([.goes c.blk b], some (c.enter b))
  | none => ([], none)

/-- One instruction. -/
def exec (m : Machine V W) (r : Row) (c : Cfg V W) : List (Event V) × Option (Cfg V W) :=
  if r.op = "nop" ∨ r.op = "param" then ([], some c.next)
  else if r.op = "store" ∨ r.op = "call" then
    let out := m.effect r (c.env r.a) (c.env r.b) (r.list.map c.env) c.world
    ([.effect r (c.env r.a) (c.env r.b) (r.list.map c.env)], some (c.assign r.id out.1 out.2))
  else if r.op = "ret" then ([.returns (c.env r.a)], none)
  else if r.op = "br" then goes c r.blk[0]?
  else if r.op = "cbr" then goes c (if m.test (c.env r.a) then r.blk[0]? else r.blk[1]?)
  else if r.op = "phi" then ([], some (c.assign r.id (incoming m r c) c.world))
  else ([], some (c.assign r.id (m.value r (c.env r.a) (c.env r.b) (r.list.map c.env) c.world) c.world))

/-- One step of a function; a run that leaves its blocks or the end of one is over. -/
def step (m : Machine V W) (ir : Rows) (f : Nat) (c : Cfg V W) : List (Event V) × Option (Cfg V W) :=
  if c.blk ∈ ir.fnblk f then
    match (ir.binsn c.blk)[c.pos]? with
    | some id => exec m (ir.row id) c
    | none => ([], none)
  else ([], none)

/-- Where a run is and what it did to the world. -/
def Cfg.seen (c : Cfg V W) : Nat × Nat × Option Nat × W := (c.blk, c.pos, c.prev, c.world)

/-- Two stores in which a function does the same from everywhere: however long it runs, on
whatever machine and values, it has the same effects, takes the same branches, returns the same
value and has come to the same place and world. -/
def Same (f : Nat) (ir ir' : Rows) : Prop :=
  ∀ (V W : Type) (m : Machine V W) (c : Cfg V W) (n : Nat),
    observed (step m ir f) Cfg.seen n c = observed (step m ir' f) Cfg.seen n c

variable {f : Nat} {ir ir' ir'' : Rows}

theorem Same.refl : Same f ir ir := fun _ _ _ _ _ => rfl

theorem Same.trans (h : Same f ir ir') (h' : Same f ir' ir'') : Same f ir ir'' :=
  fun V W m c n => (h V W m c n).trans (h' V W m c n)

/-! ## Runs that differ in one value -/

/-- Two runs at the same place whose values differ at most at `d`. -/
structure Agree (d : Nat) (c c' : Cfg V W) : Prop where
  seen : c.seen = c'.seen
  env : ∀ i : Int, i ≠ d → c.env i = c'.env i
  entry : ∀ i : Int, i ≠ d → c.entry i = c'.entry i

theorem Agree.refl {d : Nat} {c : Cfg V W} : Agree d c c := ⟨rfl, fun _ _ => rfl, fun _ _ => rfl⟩

/-- An instruction none of whose operands is `d`. -/
def Row.Avoids (r : Row) (d : Nat) : Prop := r.a ≠ d ∧ r.b ≠ d ∧ (d : Int) ∉ r.list

variable {d : Nat} {c c' : Cfg V W} {m : Machine V W} {r : Row}

theorem Agree.blk (h : Agree d c c') : c.blk = c'.blk := congrArg (·.1) h.seen

theorem Agree.pos (h : Agree d c c') : c.pos = c'.pos := congrArg (·.2.1) h.seen

theorem Agree.prev (h : Agree d c c') : c.prev = c'.prev := congrArg (·.2.2.1) h.seen

theorem Agree.world (h : Agree d c c') : c.world = c'.world := congrArg (·.2.2.2) h.seen

theorem Agree.next (h : Agree d c c') : Agree d c.next c'.next := by
  refine ⟨?_, h.env, h.entry⟩
  show (c.blk, c.pos + 1, c.prev, c.world) = (c'.blk, c'.pos + 1, c'.prev, c'.world)
  rw [h.blk, h.pos, h.prev, h.world]

theorem Agree.assign (h : Agree d c c') (id : Nat) (v : V) (w : W) :
    Agree d (c.assign id v w) (c'.assign id v w) := by
  refine ⟨?_, fun i hi => ?_, h.entry⟩
  · show (c.blk, c.pos + 1, c.prev, w) = (c'.blk, c'.pos + 1, c'.prev, w)
    rw [h.blk, h.pos, h.prev]
  · show Function.update c.env id v i = Function.update c'.env id v i
    by_cases hid : i = id
    · rw [hid, Function.update_self, Function.update_self]
    · rw [Function.update_of_ne hid, Function.update_of_ne hid, h.env i hi]

/-- Only one of the two gives `d` a value. -/
theorem Agree.assign_next (h : Agree d c c') (v : V) : Agree d (c.assign d v c.world) c'.next := by
  refine ⟨?_, fun i hi => ?_, h.entry⟩
  · show (c.blk, c.pos + 1, c.prev, c.world) = (c'.blk, c'.pos + 1, c'.prev, c'.world)
    rw [h.blk, h.pos, h.prev, h.world]
  · exact (Function.update_of_ne hi ..).trans (h.env i hi)

theorem Agree.enter (h : Agree d c c') (b : Nat) : Agree d (c.enter b) (c'.enter b) := by
  refine ⟨?_, h.env, h.env⟩
  show (b, 0, some c.blk, c.world) = (b, 0, some c'.blk, c'.world)
  rw [h.blk, h.world]

theorem Agree.list (h : Agree d c c') (hr : r.Avoids d) : r.list.map c.env = r.list.map c'.env := by
  apply List.map_congr_left
  intro i hi
  exact h.env i fun heq => hr.2.2 (heq ▸ hi)

theorem Agree.incoming (h : Agree d c c') (hr : r.Avoids d) : incoming m r c = incoming m r c' := by
  unfold Ir.incoming
  rw [h.prev]
  cases hv : c'.prev.bind fun p => r.list[r.blk.idxOf p]? with
  | none => rfl
  | some v =>
    obtain ⟨p, -, hp⟩ := Option.bind_eq_some_iff.mp hv
    exact h.entry v fun heq => hr.2.2 (heq ▸ List.mem_of_getElem? hp)

theorem Agree.goes (h : Agree d c c') (target : Option Nat) :
    Matches (Agree d) (goes c target) (goes c' target) := by
  cases target with
  | none => exact ⟨rfl, .none⟩
  | some b =>
    refine ⟨?_, .some (h.enter b)⟩
    show [Event.goes c.blk b] = [Event.goes c'.blk b]
    rw [h.blk]

/-- An instruction that does not read `d` does the same in both. -/
theorem Agree.exec (h : Agree d c c') (hr : r.Avoids d) :
    Matches (Agree d) (exec m r c) (exec m r c') := by
  unfold Ir.exec
  rw [h.env r.a hr.1, h.env r.b hr.2.1, h.list hr, h.incoming hr, h.world]
  by_cases hnop : r.op = "nop" ∨ r.op = "param"
  · rw [if_pos hnop, if_pos hnop]
    exact ⟨rfl, .some h.next⟩
  rw [if_neg hnop, if_neg hnop]
  by_cases heffect : r.op = "store" ∨ r.op = "call"
  · rw [if_pos heffect, if_pos heffect]
    exact ⟨rfl, .some (h.assign ..)⟩
  rw [if_neg heffect, if_neg heffect]
  by_cases hret : r.op = "ret"
  · rw [if_pos hret, if_pos hret]
    exact ⟨rfl, .none⟩
  rw [if_neg hret, if_neg hret]
  by_cases hbr : r.op = "br"
  · rw [if_pos hbr, if_pos hbr]
    exact h.goes _
  rw [if_neg hbr, if_neg hbr]
  by_cases hcbr : r.op = "cbr"
  · rw [if_pos hcbr, if_pos hcbr]
    exact h.goes _
  rw [if_neg hcbr, if_neg hcbr]
  by_cases hphi : r.op = "phi"
  · rw [if_pos hphi, if_pos hphi]
    exact ⟨rfl, .some (h.assign ..)⟩
  · rw [if_neg hphi, if_neg hphi]
    exact ⟨rfl, .some (h.assign ..)⟩

/-- An instruction without an effect only gives its id a value. -/
theorem exec_of_notMem_irnoeff (hop : r.op ∉ irnoeff) :
    ∃ v, exec m r c = ([], some (c.assign r.id v c.world)) := by
  simp only [irnoeff, List.mem_cons, List.not_mem_nil, or_false, not_or] at hop
  obtain ⟨hstore, hcall, hret, hbr, hcbr, hnop, hparam⟩ := hop
  unfold exec
  rw [if_neg (not_or.mpr ⟨hnop, hparam⟩), if_neg (not_or.mpr ⟨hstore, hcall⟩), if_neg hret, if_neg hbr,
    if_neg hcbr]
  split
  · exact ⟨_, rfl⟩
  · exact ⟨_, rfl⟩

theorem exec_nop (hop : r.op = "nop") : exec m r c = ([], some c.next) := if_pos (.inl hop)

end IdCompiler.Ir

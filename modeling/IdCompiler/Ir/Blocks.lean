import IdCompiler.Core.Lockstep
import IdCompiler.Ir.Rows

/-!
# Runs block by block

A run of a function goes from block to block. In a block the instructions run in
order up to the terminator, each on the values its operands have by then, and a
slot is a cell that only the loads and stores which name it read and write. What
can be seen does not depend on ids, which a pass may change: the calls and the
values they are made with, the blocks that are gone to, and the value that is
returned.
-/

namespace IdCompiler.Ir

open IdCompiler.Core

variable {V W : Type*}

/-- What an instruction is, apart from its id and the values it names. -/
structure Kind where
  op : String
  ty : String
  str : String

def Row.kind (r : Row) : Kind := ⟨r.op, r.ty, r.str⟩

/-- The meaning of the opcodes, over values `V` and worlds `W`. -/
structure Opcodes (V W : Type*) where
  /-- What an instruction without an effect computes; it may read the world. -/
  value : Kind → V → V → List V → W → V
  /-- What a call, or a store to no slot, computes and the world it leaves. -/
  effect : Kind → V → V → List V → W → V × W
  /-- Whether a conditional branch takes its first target. -/
  test : V → Bool
  /-- The value of a phi that has none for the edge taken. -/
  undef : V

/-- What can be seen of a run. -/
inductive Seen (V : Type*)
  | effect (k : Kind) (a b : V) (list : List V)
  | goes (before after : Nat)
  | returns (v : V)

/-- The values, the slots by their addresses, and the world. -/
structure Now (V W : Type*) where
  env : Int → V
  cells : Int → V
  world : W

def Now.assign (s : Now V W) (id : Nat) (v : V) (w : W) : Now V W :=
  { s with env := Function.update s.env id v, world := w }

/-- A block that was entered, where from, and the values there. -/
structure Entry (V : Type*) where
  blk : Nat
  prev : Option Nat
  env : Int → V

/-- The value a phi has for the edge that was taken. -/
def incomingOf (o : Opcodes V W) (e : Entry V) (r : Row) : V :=
  match e.prev.bind fun p => r.list[r.blk.idxOf p]? with
  | some v => e.env v
  | none => o.undef

/-- An access to one of the slots. -/
def Row.OnSlot (slots : List Nat) (r : Row) : Prop :=
  (r.op = "load" ∨ r.op = "store") ∧ r.a ∈ slots.map Int.ofNat

/-- An instruction that ends a block. -/
def Row.Ends (r : Row) : Prop := r.op = "ret" ∨ r.op = "br" ∨ r.op = "cbr"

instance (slots : List Nat) (r : Row) : Decidable (r.OnSlot slots) := inferInstanceAs (Decidable (_ ∧ _))

instance (r : Row) : Decidable r.Ends := inferInstanceAs (Decidable (_ ∨ _))

/-- One access to a slot. -/
def access (r : Row) (s : Now V W) : Now V W :=
  if r.op = "load" then s.assign r.id (s.cells r.a) s.world
  else { s with cells := Function.update s.cells r.a (s.env r.b) }

/-- One instruction that ends no block. -/
def act (o : Opcodes V W) (slots : List Nat) (e : Entry V) (r : Row) (s : Now V W) :
    List (Seen V) × Now V W :=
  if r.op = "nop" ∨ r.op = "param" ∨ r.op = "alloca" then ([], s)
  else if r.OnSlot slots then ([], access r s)
  else if r.op = "store" ∨ r.op = "call" then
    let out := o.effect r.kind (s.env r.a) (s.env r.b) (r.list.map s.env) s.world
    ([.effect r.kind (s.env r.a) (s.env r.b) (r.list.map s.env)], s.assign r.id out.1 out.2)
  else if r.op = "phi" then ([], s.assign r.id (incomingOf o e r) s.world)
  else ([], s.assign r.id (o.value r.kind (s.env r.a) (s.env r.b) (r.list.map s.env) s.world) s.world)

/-- A branch to a target, if there is one. -/
def leave (e : Entry V) (s : Now V W) (target : Option Nat) : List (Seen V) × Option (Nat × Now V W) :=
  match target with
  | some b => ([.goes e.blk b], some (b, s))
  | none => ([], none)

/-- The instruction that ends a block. -/
def finish (o : Opcodes V W) (e : Entry V) (r : Row) (s : Now V W) :
    List (Seen V) × Option (Nat × Now V W) :=
  if r.op = "ret" then ([.returns (s.env r.a)], none)
  else if r.op = "br" then leave e s r.blk[0]?
  else leave e s (if o.test (s.env r.a) then r.blk[0]? else r.blk[1]?)

/-- The instructions of a block. -/
def runBlock (o : Opcodes V W) (slots : List Nat) (e : Entry V) :
    List Row → Now V W → List (Seen V) × Option (Nat × Now V W)
  | [], _ => ([], none)
  | r :: rs, s =>
    if r.Ends then finish o e r s
    else
      let out := act o slots e r s
      (out.1 ++ (runBlock o slots e rs out.2).1, (runBlock o slots e rs out.2).2)

/-- Where a run is between two blocks. -/
structure Stand (V W : Type*) where
  blk : Nat
  prev : Option Nat
  now : Now V W

def Stand.entry (c : Stand V W) : Entry V := ⟨c.blk, c.prev, c.now.env⟩

/-- One block of a function. -/
def stepBlock (o : Opcodes V W) (ir : Rows) (f : Nat) (slots : List Nat) (c : Stand V W) :
    List (Seen V) × Option (Stand V W) :=
  if c.blk ∈ ir.fnblk f then
    let out := runBlock o slots c.entry ((ir.binsn c.blk).map ir.row) c.now
    (out.1, out.2.map fun t => ⟨t.1, some c.blk, t.2⟩)
  else ([], none)

/-- Where a run is and what it did to the world. -/
def Stand.seen (c : Stand V W) : Nat × Option Nat × W := (c.blk, c.prev, c.now.world)

/-- Two functions whose runs from the first block look the same: however long they run, on whatever
values and opcodes, they make the same calls, go to the same blocks and return the same value. -/
def SameRuns (f root : Nat) (slots slots' : List Nat) (ir ir' : Rows) : Prop :=
  ∀ (V W : Type) (o : Opcodes V W) (c : Stand V W) (n : Nat), c.blk = root → c.prev = none →
    observed (stepBlock o ir f slots) Stand.seen n c = observed (stepBlock o ir' f slots') Stand.seen n c

variable {o : Opcodes V W} {slots slots' : List Nat} {e e' : Entry V} {r r' : Row} {s s' : Now V W}
  {rs : List Row}

/-! ## Instructions that do the same -/

/-- The same instruction on the same values, whatever they are called. -/
structure Alike (o : Opcodes V W) (e e' : Entry V) (r r' : Row) (s s' : Now V W) : Prop where
  id : r'.id = r.id
  kind : r'.kind = r.kind
  blk : r'.blk = r.blk
  a : s'.env r'.a = s.env r.a
  b : s'.env r'.b = s.env r.b
  list : r.op ≠ "phi" → r'.list.map s'.env = r.list.map s.env
  world : s'.world = s.world
  here : e'.blk = e.blk
  incoming : r.op = "phi" → incomingOf o e' r' = incomingOf o e r

theorem Alike.op (h : Alike o e e' r r' s s') : r'.op = r.op := congrArg Kind.op h.kind

theorem Alike.ends (h : Alike o e e' r r' s s') : r'.Ends ↔ r.Ends := by
  rw [Row.Ends, Row.Ends, h.op]

/-- Away from the slots it does the same to both. -/
theorem Alike.act (h : Alike o e e' r r' s s') (hr : ¬r.OnSlot slots) (hr' : ¬r'.OnSlot slots') :
    (act o slots e r s).1 = (act o slots' e' r' s').1 ∧
      ((act o slots e r s).2 = s ∧ (act o slots' e' r' s').2 = s' ∨
        ∃ v w, (act o slots e r s).2 = s.assign r.id v w ∧ (act o slots' e' r' s').2 = s'.assign r.id v w) := by
  unfold Ir.act
  rw [if_neg hr, if_neg hr', h.op, h.kind, h.a, h.b, h.world, h.id]
  by_cases hidle : r.op = "nop" ∨ r.op = "param" ∨ r.op = "alloca"
  · rw [if_pos hidle, if_pos hidle]
    exact ⟨rfl, .inl ⟨rfl, rfl⟩⟩
  rw [if_neg hidle, if_neg hidle]
  by_cases hphi : r.op = "phi"
  · have heffect : ¬(r.op = "store" ∨ r.op = "call") := by
      rw [hphi]
      decide
    rw [if_neg heffect, if_neg heffect, if_pos hphi, if_pos hphi, h.incoming hphi]
    exact ⟨rfl, .inr ⟨_, _, rfl, rfl⟩⟩
  rw [if_neg hphi, if_neg hphi, h.list hphi]
  by_cases heffect : r.op = "store" ∨ r.op = "call"
  · rw [if_pos heffect, if_pos heffect]
    exact ⟨rfl, .inr ⟨_, _, rfl, rfl⟩⟩
  · rw [if_neg heffect, if_neg heffect]
    exact ⟨rfl, .inr ⟨_, _, rfl, rfl⟩⟩

theorem Alike.finish (h : Alike o e e' r r' s s') {T : Nat × Now V W → Nat × Now V W → Prop}
    (hT : ∀ b ∈ r.blk, T (b, s) (b, s')) : Matches T (finish o e r s) (finish o e' r' s') := by
  have hleave : ∀ i : Nat, Matches T (leave e s r.blk[i]?) (leave e' s' r.blk[i]?) := by
    intro i
    cases hb : r.blk[i]? with
    | none => exact ⟨rfl, .none⟩
    | some b =>
      refine ⟨?_, .some (hT b (List.mem_of_getElem? hb))⟩
      show [Seen.goes e.blk b] = [Seen.goes e'.blk b]
      rw [h.here]
  unfold Ir.finish
  rw [h.op, h.blk, h.a]
  by_cases hret : r.op = "ret"
  · rw [if_pos hret, if_pos hret]
    exact ⟨rfl, .none⟩
  rw [if_neg hret, if_neg hret]
  by_cases hbr : r.op = "br"
  · rw [if_pos hbr, if_pos hbr]
    exact hleave 0
  rw [if_neg hbr, if_neg hbr]
  split
  · exact hleave 0
  · exact hleave 1

theorem act_nop (hop : r.op = "nop") : act o slots e r s = ([], s) := if_pos (.inl hop)

theorem act_phi (hop : r.op = "phi") : act o slots e r s = ([], s.assign r.id (incomingOf o e r) s.world) := by
  have hslot : ¬r.OnSlot slots := by
    rintro ⟨hacc, -⟩
    rw [hop] at hacc
    exact absurd hacc (by decide)
  unfold act
  rw [if_neg hslot, hop, if_neg (by decide), if_neg (by decide), if_pos rfl]

theorem act_load (hop : r.op = "load") (hslot : r.OnSlot slots) :
    act o slots e r s = ([], s.assign r.id (s.cells r.a) s.world) := by
  unfold act access
  rw [if_pos hslot, hop, if_neg (by decide), if_pos rfl]

theorem act_store (hop : r.op = "store") (hslot : r.OnSlot slots) :
    act o slots e r s = ([], { s with cells := Function.update s.cells r.a (s.env r.b) }) := by
  unfold act access
  rw [if_pos hslot, hop, if_neg (by decide), if_neg (by decide)]

/-- An instruction of another opcode than those ends no block. -/
theorem not_ends {op : String} (hop : r.op = op) (hno : ¬(op = "ret" ∨ op = "br" ∨ op = "cbr")) : ¬r.Ends :=
  fun h => hno (hop ▸ h)

theorem not_onSlot_nil : ¬r.OnSlot [] := fun h => absurd h.2 List.not_mem_nil

/-- An instruction whose operands are given other names. -/
def Row.rename (τ : Int → Int) (r : Row) : Row := { r with a := τ r.a, b := τ r.b, list := r.list.map τ }

variable {τ : Int → Int}

theorem incomingOf_some {p : Nat} {u : Int} (hprev : e.prev = some p) (hu : r.list[r.blk.idxOf p]? = some u) :
    incomingOf o e r = e.env u := by
  unfold incomingOf
  rw [hprev, Option.bind_some, hu]

theorem incomingOf_rename (hprev : e'.prev = e.prev)
    (h : ∀ p u, e.prev = some p → r.list[r.blk.idxOf p]? = some u → e.env u = e'.env (τ u)) :
    incomingOf o e' (r.rename τ) = incomingOf o e r := by
  unfold incomingOf
  rw [hprev]
  cases hp : e.prev with
  | none => rfl
  | some p =>
    show (match (r.list.map τ)[r.blk.idxOf p]? with | some v => e'.env v | none => o.undef) =
      match r.list[r.blk.idxOf p]? with | some v => e.env v | none => o.undef
    rw [List.getElem?_map]
    cases hu : r.list[r.blk.idxOf p]? with
    | none => rfl
    | some u => exact (h p u hp hu).symm

/-- An instruction on values that have other names. -/
theorem Alike.rename (hworld : s'.world = s.world) (hhere : e'.blk = e.blk) (ha : s.env r.a = s'.env (τ r.a))
    (hb : s.env r.b = s'.env (τ r.b)) (hlist : r.op ≠ "phi" → ∀ v ∈ r.list, s.env v = s'.env (τ v))
    (hphi : r.op = "phi" → incomingOf o e' (r.rename τ) = incomingOf o e r) :
    Alike o e e' r (r.rename τ) s s' := by
  refine ⟨rfl, rfl, rfl, ha.symm, hb.symm, fun hop => ?_, hworld, hhere, hphi⟩
  show (r.list.map τ).map s'.env = r.list.map s.env
  rw [List.map_map]
  exact List.map_congr_left fun v hv => (hlist hop v hv).symm

/-! ## Blocks -/

theorem runBlock_act (hr : ¬r.Ends) : runBlock o slots e (r :: rs) s =
    ((act o slots e r s).1 ++ (runBlock o slots e rs (act o slots e r s).2).1,
      (runBlock o slots e rs (act o slots e r s).2).2) := if_neg hr

theorem runBlock_finish (hr : r.Ends) : runBlock o slots e (r :: rs) s = finish o e r s := if_pos hr

/-- An instruction that shows nothing. -/
theorem runBlock_quiet {t : Now V W} (hr : ¬r.Ends) (h : act o slots e r s = ([], t)) :
    runBlock o slots e (r :: rs) s = runBlock o slots e rs t := by
  rw [runBlock_act hr, h]
  rfl

/-- The phis in front of a block take the values of the edge, and nothing else changes. -/
theorem runBlock_phis {ids : List Nat} {ir : Rows} (hop : ∀ x ∈ ids, ir.iop x = "phi") :
    ∃ t : Now V W, runBlock o slots e (ids.map ir.row ++ rs) s = runBlock o slots e rs t ∧
      t.world = s.world ∧ (∀ x ∈ ids, t.env x = incomingOf o e (ir.row x)) ∧
      ∀ w : Int, (∀ x ∈ ids, w ≠ x) → t.env w = s.env w := by
  induction ids generalizing s with
  | nil => exact ⟨s, rfl, rfl, fun x hx => absurd hx List.not_mem_nil, fun _ _ => rfl⟩
  | cons x ids ih =>
    have hx := hop x List.mem_cons_self
    obtain ⟨t, hrun, hworld, hvalues, hothers⟩ := ih (s := s.assign x (incomingOf o e (ir.row x)) s.world)
      fun y hy => hop y (List.mem_cons_of_mem x hy)
    refine ⟨t, ?_, hworld, fun y hy => ?_, fun w hw => ?_⟩
    · rw [List.map_cons, List.cons_append, runBlock_quiet (not_ends hx (by decide)) (act_phi hx)]
      exact hrun
    · by_cases hin : y ∈ ids
      · exact hvalues y hin
      · obtain rfl := (List.mem_cons.mp hy).resolve_right hin
        rw [hothers y fun z hz heq => hin (Int.natCast_inj.mp heq ▸ hz)]
        exact Function.update_self ..
    · rw [hothers w fun z hz => hw z (List.mem_cons_of_mem x hz)]
      exact Function.update_of_ne (hw x List.mem_cons_self) ..

/-- One instruction in two runs of a block: a step in both, after which they are related as `R`
says, or the end of both. -/
structure Steps (o : Opcodes V W) (slots slots' : List Nat) (e e' : Entry V) (r r' : Row)
    (R : Now V W → Now V W → Prop) (T : Nat × Now V W → Nat × Now V W → Prop) (s s' : Now V W) : Prop where
  ends : r'.Ends ↔ r.Ends
  act : ¬r.Ends → (act o slots e r s).1 = (act o slots' e' r' s').1 ∧
    R (act o slots e r s).2 (act o slots' e' r' s').2
  finish : r.Ends → Matches T (finish o e r s) (finish o e' r' s')

/-- Two runs of a block that are related at every place, `R` being about the instructions before it. -/
theorem runBlock_matches {ids : List Nat} {row row' : Nat → Row} {R : List Nat → Now V W → Now V W → Prop}
    {T : Nat × Now V W → Nat × Now V W → Prop}
    (hstep : ∀ l x rest, ids = l ++ x :: rest → ∀ s s', R l s s' →
      Steps o slots slots' e e' (row x) (row' x) (R (l ++ [x])) T s s')
    (h : R [] s s') :
    Matches T (runBlock o slots e (ids.map row) s) (runBlock o slots' e' (ids.map row') s') := by
  have hall : ∀ rest l s s', ids = l ++ rest → R l s s' →
      Matches T (runBlock o slots e (rest.map row) s) (runBlock o slots' e' (rest.map row') s') := by
    intro rest
    induction rest with
    | nil => exact fun l s s' _ _ => ⟨rfl, .none⟩
    | cons x rest ih =>
      intro l s s' hids hR
      obtain ⟨hends, hact, hfinish⟩ := hstep l x rest hids s s' hR
      rw [List.map_cons, List.map_cons]
      by_cases hx : (row x).Ends
      · rw [runBlock_finish hx, runBlock_finish (hends.mpr hx)]
        exact hfinish hx
      · obtain ⟨hout, hnext⟩ := hact hx
        have hrest := ih (l ++ [x]) _ _ (by rw [hids, List.append_assoc, List.singleton_append]) hnext
        rw [runBlock_act hx, runBlock_act fun hx' => hx (hends.mp hx'), hout]
        exact ⟨congrArg₂ _ rfl hrest.1, hrest.2⟩
  exact hall ids [] s s' rfl h

/-- A block of two functions: from what the runs of its instructions keep to what a step does. -/
theorem stepBlock_matches {ir ir' : Rows} {f : Nat} {c c' : Stand V W} {R : Stand V W → Stand V W → Prop}
    (hin : c'.blk ∈ ir'.fnblk f ↔ c.blk ∈ ir.fnblk f)
    (hrun : c.blk ∈ ir.fnblk f → Matches
      (fun t t' : Nat × Now V W => R ⟨t.1, some c.blk, t.2⟩ ⟨t'.1, some c'.blk, t'.2⟩)
      (runBlock o slots c.entry ((ir.binsn c.blk).map ir.row) c.now)
      (runBlock o slots' c'.entry ((ir'.binsn c'.blk).map ir'.row) c'.now)) :
    Matches R (stepBlock o ir f slots c) (stepBlock o ir' f slots' c') := by
  unfold stepBlock
  by_cases hblk : c.blk ∈ ir.fnblk f
  · rw [if_pos hblk, if_pos (hin.mpr hblk)]
    obtain ⟨hout, hnext⟩ := hrun hblk
    refine ⟨hout, ?_⟩
    show Option.Rel R (Option.map _ _) (Option.map _ _)
    generalize (runBlock o slots c.entry ((ir.binsn c.blk).map ir.row) c.now).2 = t at hnext
    generalize (runBlock o slots' c'.entry ((ir'.binsn c'.blk).map ir'.row) c'.now).2 = t' at hnext
    cases hnext with
    | none => exact .none
    | some h => exact .some h
  · rw [if_neg hblk, if_neg fun h => hblk (hin.mp h)]
    exact ⟨rfl, .none⟩

end IdCompiler.Ir

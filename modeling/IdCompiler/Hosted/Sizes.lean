import IdCompiler.Hosted.Lists

/-!
# The sizes blocks go back with

What a value's header says of its blocks, kept by every operation: the size of the
block of its cells, and the size its own block was made with.
-/

namespace IdCompiler.Hosted

open IdCompiler.Core

/-- The least capacity: the cells after a header can hold the capacity it was made with. -/
def Kind.least : Kind → Nat
  | .list => 1
  | .bytes => 8

namespace Runtime

/-- The blocks of a value. -/
def Holds (r : Runtime) (b c : Block) : Prop := c = b ∨ (r.head b).data = some c

/-- The blocks of the values that are live. -/
def Out (r : Runtime) (c : Block) : Prop := ∃ b, (r.live b).isSome ∧ r.Holds b c

/-- The header of a live value fits its blocks. -/
structure Handle (r : Runtime) (k : Kind) (b : Block) : Prop where
  len_nonneg : 0 ≤ (r.head b).len
  /-- The cells below the length are cells of the block. -/
  len_le : (r.head b).len ≤ (r.head b).cap.natAbs
  least_le : k.least ≤ (r.head b).cap.natAbs
  cap_le : ((r.head b).cap.natAbs : Int) ≤ intMax
  /-- A block with its own cells was made for the capacity. -/
  own : (r.head b).data = none → r.pool.held b = k.blockBytes (r.head b).cap.natAbs
  /-- A block of cells has the capacity's size, and the header's block the size its first bytes
  tell. -/
  apart : ∀ d, (r.head b).data = some d → r.pool.held d = k.unit * (r.head b).cap.natAbs ∧
    r.pool.held b = k.blockBytes ((r.pool.mem b).load 16 8)

/-- The invariant of the runtime. -/
structure Sound (r : Runtime) : Prop where
  pool : r.pool.Sound r.Out
  /-- A block belongs to one live value. -/
  one : ∀ b b' c, (r.live b).isSome → (r.live b').isSome → r.Holds b c → r.Holds b' c → b = b'
  /-- Its cells, once apart, are not in the header's block. -/
  cells_ne : ∀ b, (r.live b).isSome → (r.head b).data ≠ some b
  handle : ∀ b k, r.live b = some k → r.Handle k b

variable {r r' : Runtime} {k : Kind} {b c d : Block} {h : Head}

theorem holds_self : r.Holds b b := .inl rfl

theorem holds_cells : r.Holds b (r.cells b).1 := by
  unfold cells Holds
  split
  · exact .inl rfl
  · next d hd => exact .inr hd

theorem some_of_live (hb : r.live b = some k) : (r.live b).isSome := by simp [hb]

/-- A value's own block is not among those of another. -/
theorem Sound.ne_of_holds (hs : r.Sound) (hb : (r.live b).isSome) (hc : (r.live c).isSome)
    (hne : c ≠ b) (hd : r.Holds b d) : c ≠ d :=
  fun heq => hne (hs.one c b d hc hb (.inl heq.symm) hd)

/-- The handle of a value whose header, sizes and own bytes stay the same. -/
theorem Handle.congr (hb : r.Handle k b) (hhead : r'.head b = r.head b)
    (hheld : ∀ c, r.Holds b c → r'.pool.held c = r.pool.held c)
    (hmem : r'.pool.mem b = r.pool.mem b) : r'.Handle k b := by
  constructor <;> rw [hhead]
  case len_nonneg => exact hb.len_nonneg
  case len_le => exact hb.len_le
  case least_le => exact hb.least_le
  case cap_le => exact hb.cap_le
  case own =>
    intro hd
    rw [hheld b holds_self]
    exact hb.own hd
  case apart =>
    intro d hd
    rw [hheld b holds_self, hheld d (.inr hd), hmem]
    exact hb.apart d hd

/-! ## Steps on one value -/

/-- A step on one value keeps the invariant when it leaves the others' headers, blocks and first
bytes alone and keeps the value's own blocks apart from theirs. -/
theorem Sound.update (hs : r.Sound) (hlive : ∀ c, c ≠ b → r'.live c = r.live c)
    (hhead : ∀ c, c ≠ b → r'.head c = r.head c)
    (hheld : ∀ c e, c ≠ b → (r.live c).isSome → r.Holds c e → r'.pool.held e = r.pool.held e)
    (hmem : ∀ c, c ≠ b → (r.live c).isSome → r'.pool.mem c = r.pool.mem c)
    (hpool : r'.pool.Sound r'.Out)
    (hb : ∀ j, r'.live b = some j → r'.Handle j b ∧ (r'.head b).data ≠ some b ∧
      ∀ c e, c ≠ b → (r.live c).isSome → r'.Holds b e → ¬r.Holds c e) : r'.Sound := by
  have hholds : ∀ c e, c ≠ b → (r'.Holds c e ↔ r.Holds c e) := fun c e hc => by
    rw [Holds, Holds, hhead c hc]
  have hown : ∀ c e, c ≠ b → (r'.live b).isSome → (r'.live c).isSome → r'.Holds b e →
      ¬r'.Holds c e := by
    intro c e hc hsb hsc he he'
    obtain ⟨j, hj⟩ := Option.isSome_iff_exists.mp hsb
    rw [hlive c hc] at hsc
    exact (hb j hj).2.2 c e hc hsc he ((hholds c e hc).mp he')
  constructor
  case pool => exact hpool
  case one =>
    intro c c' e hc hc' he he'
    by_cases hcb : c = b <;> by_cases hcb' : c' = b
    · rw [hcb, hcb']
    · exact absurd he' (hown c' e hcb' (hcb ▸ hc) hc' (hcb ▸ he))
    · exact absurd he (hown c e hcb (hcb' ▸ hc') hc (hcb' ▸ he'))
    · rw [hlive c hcb] at hc
      rw [hlive c' hcb'] at hc'
      exact hs.one c c' e hc hc' ((hholds c e hcb).mp he) ((hholds c' e hcb').mp he')
  case cells_ne =>
    intro c hc
    by_cases hcb : c = b
    · subst hcb
      obtain ⟨j, hj⟩ := Option.isSome_iff_exists.mp hc
      exact (hb j hj).2.1
    · rw [hlive c hcb] at hc
      rw [hhead c hcb]
      exact hs.cells_ne c hc
  case handle =>
    intro c j hc
    by_cases hcb : c = b
    · subst hcb
      exact (hb j hc).1
    · rw [hlive c hcb] at hc
      have hsome := some_of_live hc
      exact (hs.handle c j hc).congr (hhead c hcb) (fun e he => hheld c e hcb hsome he)
        (hmem c hcb hsome)

/-- Writing cells and changing the length, or the sign of the capacity, keeps the invariant. -/
theorem Sound.touch (hs : r.Sound) (hb : r.live b = some k)
    (hpool : ∃ m, r'.pool = { r.pool with mem := m })
    (hlive : r'.live = r.live) (hhead : r'.head = Function.update r.head b h)
    (hmem : ∀ c, c ≠ (r.cells b).1 → r'.pool.mem c = r.pool.mem c)
    (hdata : h.data = (r.head b).data) (hcap : h.cap.natAbs = (r.head b).cap.natAbs)
    (h0 : 0 ≤ h.len) (hlen : h.len ≤ h.cap.natAbs) : r'.Sound := by
  obtain ⟨m, hpool⟩ := hpool
  have hsome := some_of_live hb
  have hsame : r'.head b = h := by rw [hhead, Function.update_self]
  have hother : ∀ c, c ≠ b → r'.head c = r.head c := fun c hc => by
    rw [hhead, Function.update_of_ne hc]
  have hheld : r'.pool.held = r.pool.held := by rw [hpool]
  have hholds : ∀ c e, r'.Holds c e ↔ r.Holds c e := by
    intro c e
    by_cases hcb : c = b
    · rw [hcb, Holds, Holds, hsame, hdata]
    · rw [Holds, Holds, hother c hcb]
  refine hs.update (b := b) (fun c _ => by rw [hlive]) hother (fun c e _ _ _ => by rw [hheld])
    (fun c hc hcs => hmem c (hs.ne_of_holds hsome hcs hc holds_cells)) ?_ ?_
  · have hout : ∀ e, r'.Out e ↔ r.Out e := fun e => by
      simp only [Out, hlive, hholds]
    have hp := hs.pool.congr hout
    rw [hpool]
    exact ⟨hp.taken_lt, hp.held_le, hp.small_room, hp.free_lt, hp.free_room, hp.free_apart,
      hp.free_once, hp.free_class, hp.given_fits⟩
  intro j hj
  rw [hlive] at hj
  have hold := hs.handle b j hj
  refine ⟨?_, ?_, fun c e hc hcs he he' => hc (hs.one c b e hcs hsome he' ((hholds b e).mp he))⟩
  · constructor <;> rw [hsame]
    case len_nonneg => exact h0
    case len_le => exact hlen
    case least_le => rw [hcap]; exact hold.least_le
    case cap_le => rw [hcap]; exact hold.cap_le
    case own => rw [hcap, hdata, hheld]; exact hold.own
    case apart =>
      rw [hcap, hdata, hheld]
      intro d hd
      -- the first bytes of the header's block are not among the cells
      have hne : b ≠ (r.cells b).1 := by
        simp only [cells, hd]
        exact fun heq => hs.cells_ne b hsome (hd.trans (congrArg some heq.symm))
      rw [hmem b hne]
      exact hold.apart d hd
  · rw [hsame, hdata]
    exact hs.cells_ne b hsome

theorem sizeT_of_nonneg {x : Int} (h0 : 0 ≤ x) (hx : x ≤ intMax) : sizeT x = x.natAbs := by
  unfold sizeT intMax at *
  rw [Int.emod_eq_of_lt h0 (by omega)]
  omega

/-- A new value. -/
theorem Sound.make {len cap : Int} (hs : r.Sound) (h0 : 0 ≤ len) (hlen : len ≤ cap)
    (hleast : k.least ≤ cap) (hcap : cap ≤ intMax) (hm : make k len cap r = (b, r')) :
    r'.Sound ∧ r'.live b = some k ∧ r'.head b = ⟨len, cap, none⟩ := by
  obtain ⟨d, p, hget⟩ : ∃ d p, r.pool.get (k.blockBytes (sizeT cap)) = (d, p) := ⟨_, _, rfl⟩
  obtain ⟨hnot, hpool, hheld, hkeep, hmem⟩ := Pool.get_spec hs.pool hget
  simp only [Hosted.make, hget, Prod.mk.injEq] at hm
  obtain ⟨rfl, rfl⟩ := hm
  have hdead : r.live d = none := by
    by_contra hne
    exact hnot ⟨_, Option.isSome_iff_ne_none.mpr hne, holds_self⟩
  refine ⟨?_, Function.update_self .., Function.update_self ..⟩
  refine hs.update (b := d) (fun c hc => Function.update_of_ne hc ..)
    (fun c hc => Function.update_of_ne hc .. ) (fun c e _ hc he => hkeep e ⟨c, hc, he⟩)
    (fun c _ _ => by rw [hmem]) ?_ ?_
  · refine hpool.congr fun e => ?_
    constructor
    · rintro ⟨c, hc, he⟩
      by_cases hcb : c = d
      · subst hcb
        simp only [Holds, Function.update_self, reduceCtorEq, or_false] at he
        exact .inr he
      · simp only [Holds, Function.update_of_ne hcb] at hc he
        exact .inl ⟨c, hc, he⟩
    · rintro (⟨c, hc, he⟩ | rfl)
      · have hcb : c ≠ d := by
          rintro rfl
          simp [hdead] at hc
        refine ⟨c, ?_, ?_⟩
        · simpa only [Function.update_of_ne hcb] using hc
        · simpa only [Holds, Function.update_of_ne hcb] using he
      · exact ⟨e, by simp, holds_self⟩
  · intro j hj
    simp only [Function.update_self, Option.some.injEq] at hj
    subst hj
    refine ⟨?_, by simp, ?_⟩
    · constructor <;> simp only [Function.update_self]
      case len_nonneg => exact h0
      case len_le => omega
      case least_le => omega
      case cap_le => omega
      case own =>
        rw [hheld, sizeT_of_nonneg (by omega) hcap]
        exact fun _ => rfl
      case apart => simp
    · intro c e hc hcs he he'
      simp only [Holds, Function.update_self, reduceCtorEq, or_false] at he
      subst he
      exact hnot ⟨c, hcs, he'⟩

theorem Given.fits_self (n : Nat) : Given.Fits ⟨n, n⟩ := ⟨Iff.rfl, fun _ => rfl⟩

theorem natAbs_lt {x : Int} (h : (x.natAbs : Int) ≤ intMax) : x.natAbs < 256 ^ 8 := by
  unfold intMax at h
  omega

/-- A value whose cells now lie in the block `d`, in place of the blocks `gone`. -/
theorem Sound.moved {ncap : Nat} (gone : Block → Prop) (hs : r.Sound) (hb : r.live b = some k)
    (hcap : 0 ≤ (r.head b).cap) (hmore : (r.head b).cap ≤ ncap) (hmax : (ncap : Int) ≤ intMax)
    (hlive : r'.live = r.live)
    (hhead : r'.head = Function.update r.head b ⟨(r.head b).len, ncap, some d⟩)
    (hgone : ∀ e, r.Holds b e ↔ e = b ∨ gone e) (hbgone : ¬gone b)
    (hd : gone d ∨ ¬r.Out d)
    (hpool : r'.pool.Sound fun e => (r.Out e ∧ ¬gone e) ∨ e = d)
    (hheldd : r'.pool.held d = k.unit * ncap)
    (hheld : ∀ e, r.Out e → ¬gone e → r'.pool.held e = r.pool.held e)
    (hmem : ∀ e, e ≠ b → e ≠ d → r'.pool.mem e = r.pool.mem e)
    (hsize : r.pool.held b = k.blockBytes ((r'.pool.mem b).load 16 8)) : r'.Sound := by
  have hsome := some_of_live hb
  have hold := hs.handle b k hb
  have hsame : r'.head b = ⟨(r.head b).len, ncap, some d⟩ := by rw [hhead, Function.update_self]
  have hother : ∀ c, c ≠ b → r'.head c = r.head c := fun c hc => by
    rw [hhead, Function.update_of_ne hc]
  -- what another value holds is neither gone nor the new block
  have hapart : ∀ c e, c ≠ b → (r.live c).isSome → r.Holds c e → ¬gone e ∧ e ≠ d := by
    intro c e hc hcs he
    have hnot : ¬gone e := fun hg => hc (hs.one c b e hcs hsome he ((hgone e).mpr (.inr hg)))
    refine ⟨hnot, ?_⟩
    rintro rfl
    exact hd.elim hnot fun h => h ⟨c, hcs, he⟩
  have hbd : b ≠ d := by
    rintro rfl
    exact hd.elim hbgone fun h => h ⟨b, hsome, holds_self⟩
  refine hs.update (b := b) (fun c _ => by rw [hlive]) hother
    (fun c e hc hcs he => hheld e ⟨c, hcs, he⟩ (hapart c e hc hcs he).1)
    (fun c hc hcs => hmem c hc (hapart c c hc hcs holds_self).2) ?_ ?_
  · refine hpool.congr fun e => ?_
    constructor
    · rintro ⟨c, hc, he⟩
      rw [hlive] at hc
      by_cases hcb : c = b
      · subst hcb
        rw [Holds, hsame] at he
        rcases he with rfl | he
        · exact .inl ⟨⟨e, hc, holds_self⟩, hbgone⟩
        · exact .inr (Option.some.inj he).symm
      · rw [Holds, hother c hcb] at he
        exact .inl ⟨⟨c, hc, he⟩, (hapart c e hcb hc he).1⟩
    · rintro (⟨⟨c, hc, he⟩, hng⟩ | rfl)
      · refine ⟨c, by rwa [hlive], ?_⟩
        by_cases hcb : c = b
        · subst hcb
          exact .inl (((hgone e).mp he).resolve_right hng)
        · rwa [Holds, hother c hcb]
      · exact ⟨b, by rwa [hlive], .inr (by rw [hsame])⟩
  · intro j hj
    rw [hlive, hb] at hj
    obtain rfl := Option.some.inj hj
    refine ⟨?_, ?_, ?_⟩
    · have hlen := hold.len_le
      have hleast := hold.least_le
      constructor <;> rw [hsame]
      case len_nonneg => exact hold.len_nonneg
      case len_le => dsimp only; omega
      case least_le => dsimp only; omega
      case cap_le => dsimp only; omega
      case own => simp
      case apart =>
        intro e he
        obtain rfl := Option.some.inj he
        exact ⟨hheldd, (hheld b ⟨b, hsome, holds_self⟩ hbgone).trans hsize⟩
    · rw [hsame]
      exact fun heq => hbd (Option.some.inj heq).symm
    · intro c e hc hcs he he'
      rw [Holds, hsame] at he
      rcases he with rfl | he
      · exact hc (hs.one c e e hcs hsome he' holds_self)
      · exact (hapart c e hc hcs he').2 (Option.some.inj he).symm

/-- The cells moved to a block for more of them. -/
theorem Sound.enlarge {ncap : Nat} (hs : r.Sound) (hb : r.live b = some k)
    (hcap : 0 ≤ (r.head b).cap) (hmore : (r.head b).cap ≤ ncap) (hmax : (ncap : Int) ≤ intMax) :
    (enlarge k b ncap r).Sound ∧ (enlarge k b ncap r).live = r.live ∧
      ∃ d, (enlarge k b ncap r).head = Function.update r.head b ⟨(r.head b).len, ncap, some d⟩ := by
  have hsome := some_of_live hb
  have hold := hs.handle b k hb
  have hcells := hold.cap_le
  have hsize : sizeT (r.head b).cap = (r.head b).cap.natAbs := sizeT_of_nonneg hcap (by omega)
  unfold Hosted.enlarge
  dsimp only
  split
  · next hdata =>
    obtain ⟨d, p, hget⟩ : ∃ d p, r.pool.get (k.unit * ncap) = (d, p) := ⟨_, _, rfl⟩
    obtain ⟨hnot, hpool, hheld, hkeep, hmem⟩ := Pool.get_spec hs.pool hget
    have hbd : b ≠ d := by
      rintro rfl
      exact hnot ⟨b, hsome, holds_self⟩
    simp only [hget]
    refine ⟨hs.moved (fun _ => False) hb hcap hmore hmax rfl rfl (by simp [Holds, hdata])
      id (.inr hnot) ?_ hheld (fun e he _ => hkeep e he) ?_ ?_, rfl, d, rfl⟩
    · simp only [not_false_eq_true, and_true]
      exact ⟨hpool.taken_lt, hpool.held_le, hpool.small_room, hpool.free_lt, hpool.free_room,
        hpool.free_apart, hpool.free_once, hpool.free_class, hpool.given_fits⟩
    · intro e heb hed
      rw [setHead_pool]
      dsimp only
      rw [Function.update_of_ne heb, Pool.copyTo_mem hed, hmem]
    · rw [setHead_pool]
      dsimp only
      rw [Function.update_self, Bytes.load_store, hsize, Nat.mod_eq_of_lt (natAbs_lt hcells),
        hold.own hdata]
  · next e hdata =>
    obtain ⟨d, p, hre⟩ : ∃ d p, r.pool.realloc e (k.unit * sizeT (r.head b).cap) (k.unit * ncap) =
      (d, p) := ⟨_, _, rfl⟩
    have hout : r.Out e := ⟨b, hsome, .inr hdata⟩
    have heb : e ≠ b := fun heq => hs.cells_ne b hsome (heq ▸ hdata)
    obtain ⟨hheldcells, hheldown⟩ := hold.apart e hdata
    have hfit : Given.Fits ⟨k.unit * sizeT (r.head b).cap, r.pool.held e⟩ := by
      rw [hheldcells, hsize]
      exact Given.fits_self _
    obtain ⟨hd, hpool, hheld, hkeep, hmem⟩ := Pool.realloc_spec hs.pool hout hfit hre
    have hbd : b ≠ d := by
      rintro rfl
      exact hd.elim (fun h => heb h.symm) fun h => h ⟨b, hsome, holds_self⟩
    simp only [hre]
    refine ⟨hs.moved (fun c => c = e) hb hcap hmore hmax rfl rfl ?_ (Ne.symm heb) hd hpool
      hheld hkeep (fun c _ hc => hmem c hc) ?_, rfl, d, rfl⟩
    · intro c
      rw [Holds, hdata, Option.some.injEq, eq_comm (a := e)]
    · show r.pool.held b = k.blockBytes ((p.mem b).load 16 8)
      rw [hmem b hbd]
      exact hheldown

/-- A value gone, with its blocks out or free. -/
theorem Sound.removed {taken : Block → Prop} (hs : r.Sound) (hb : r.live b = some k)
    (hlive : r'.live = Function.update r.live b none)
    (hhead : ∀ c, c ≠ b → r'.head c = r.head c) (hheld : r'.pool.held = r.pool.held)
    (hmem : ∀ c, c ≠ (r.cells b).1 → r'.pool.mem c = r.pool.mem c)
    (hpool : r'.pool.Sound taken) (htaken : ∀ e, r.Out e → ¬r.Holds b e → taken e) :
    r'.Sound := by
  have hsome := some_of_live hb
  refine hs.update (b := b) (fun c hc => by rw [hlive, Function.update_of_ne hc]) hhead
    (fun _ _ _ _ _ => by rw [hheld])
    (fun c hc hcs => hmem c (hs.ne_of_holds hsome hcs hc holds_cells)) (hpool.shrink ?_) ?_
  · -- only the other values are left
    rintro e ⟨c, hc, he⟩
    rw [hlive, Function.update_apply] at hc
    split at hc
    · cases hc
    next hcb =>
    rw [Holds, hhead c hcb] at he
    exact htaken e ⟨c, hc, he⟩ fun heb => hcb (hs.one c b e hc hsome he heb)
  · intro j hj
    rw [hlive, Function.update_self] at hj
    cases hj

/-- A value is freed with the sizes of its blocks. -/
theorem Sound.giveBack {guard : Bool} (hs : r.Sound) (hb : r.live b = some k)
    (h : giveBack k guard b r = .ok r') : r'.Sound := by
  have hsome := some_of_live hb
  have hold := hs.handle b k hb
  have hcells := hold.cap_le
  have hsize : sizeT (if (r.head b).cap < 0 then -(r.head b).cap else (r.head b).cap) =
      (r.head b).cap.natAbs := by
    rw [sizeT_of_nonneg] <;> split <;> omega
  unfold Hosted.giveBack at h
  dsimp only at h
  rw [hsize] at h
  split at h
  · split at h
    · cases h
    obtain rfl := Except.ok.inj h
    have hp := hs.pool
    exact hs.removed hb rfl (fun c hc => Function.update_of_ne hc ..) rfl
      (fun c hc => Function.update_of_ne hc ..)
      ⟨hp.taken_lt, hp.held_le, hp.small_room, hp.free_lt, hp.free_room, hp.free_apart,
        hp.free_once, hp.free_class, hp.given_fits⟩ fun e he _ => he
  split at h
  · next hdata =>
    obtain rfl := Except.ok.inj h
    have hfit : Given.Fits ⟨k.blockBytes (r.head b).cap.natAbs, r.pool.held b⟩ := by
      rw [hold.own hdata]
      exact Given.fits_self _
    have hpool := Pool.free_sound hs.pool ⟨b, hsome, holds_self⟩ hfit
    exact hs.removed hb rfl (fun _ _ => rfl) rfl (fun _ _ => rfl) hpool
      fun e he hnot => ⟨he, fun heq => hnot (.inl heq)⟩
  · next d hdata =>
    obtain rfl := Except.ok.inj h
    obtain ⟨hheldd, hheldb⟩ := hold.apart d hdata
    have hfit : Given.Fits ⟨k.unit * (r.head b).cap.natAbs, r.pool.held d⟩ := by
      rw [hheldd]
      exact Given.fits_self _
    have hfit' : Given.Fits ⟨k.blockBytes ((r.pool.mem b).load 16 8), r.pool.held b⟩ := by
      rw [hheldb]
      exact Given.fits_self _
    have hbd : b ≠ d := fun heq => hs.cells_ne b hsome (heq ▸ hdata)
    have hcellsfree := Pool.free_sound hs.pool ⟨b, hsome, .inr hdata⟩ hfit
    have hpool := Pool.free_sound hcellsfree ⟨⟨b, hsome, holds_self⟩, hbd⟩ hfit'
    exact hs.removed hb rfl (fun _ _ => rfl) (by simp) (fun _ _ => by simp) hpool
      fun e he hnot => ⟨⟨he, fun heq => hnot (.inr (heq ▸ hdata))⟩, fun heq => hnot (.inl heq)⟩

end Runtime

end IdCompiler.Hosted

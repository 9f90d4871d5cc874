import IdCompiler.Ir.Drop
import IdCompiler.Ir.Promoted

/-!
# What the walk makes of loads and stores

As far as the walk has come, an operand is what stands for it in the function
from before, a load of a slot and a store to one are gone, and the table of
outgoing values has what the slots hold.
-/

namespace IdCompiler.Ir

variable {P : Rows} {m : Mem} {f b i n x : Nat} {v w : Int} {l r rest : List Nat} {τ τ' : Int → Int}
  {st : Nat → Int → Int} {Q : Nat → Nat → Prop}

/-- An access to one of the slots of a function. -/
abbrev Slotted (P : Rows) (f x : Nat) : Prop := (P.row x).OnSlot (m2rCollect P f)

/-! ## Rows -/

/-- The rows when the walk has come as far as `rest`, `τ` being what stands for the old values. -/
structure Traced (P : Rows) (f : Nat) (m : Mem) (τ : Int → Int) (rest : List Nat) : Prop where
  pra : m.pra = m2rCollect P f
  insns : insns P f ⊆ insns m.ir f
  moved : ∀ w, τ w ≠ w → ∃ x ∈ Ir.insns P f, x ∉ rest ∧ w = x ∧ P.iop x = "load" ∧ Slotted P f x
  ready : ∀ x ∈ Ir.insns P f, x ∉ rest → P.iop x = "load" → Slotted P f x → Ready m.ir rest (τ x)
  stored : ∀ x ∈ Ir.insns P f, x ∉ rest → (P.row x).StoresSlot (m2rCollect P f) → Ready m.ir rest (τ (P.ib x))
  row : ∀ x ∈ Ir.insns P f, ¬(x ∉ rest ∧ Slotted P f x) → m.ir.row x = (P.row x).rename τ
  gone : ∀ x ∈ Ir.insns P f, x ∉ rest → Slotted P f x → m.ir.iop x = "nop"

theorem mem_m2rCollect (h : x ∈ m2rCollect P f) : x ∈ insns P f ∧ P.iop x = "alloca" := by
  unfold m2rCollect at h
  cases hblk : P.fnblk f with
  | nil =>
    rw [hblk] at h
    exact absurd h List.not_mem_nil
  | cons b bs =>
    rw [hblk] at h
    obtain ⟨hx, hop⟩ := List.mem_filter.mp h
    exact ⟨mem_insns.mpr ⟨b, hblk ▸ List.mem_cons_self, hx⟩, of_decide_eq_true hop⟩

theorem not_slotted (hop : P.iop x = "alloca") : ¬Slotted P f x := by
  rintro ⟨hload | hstore, -⟩
  · exact absurd (hop.symm.trans hload) (by decide)
  · exact absurd (hop.symm.trans hstore) (by decide)

theorem stores_of_slotted (h : Slotted P f x) (hop : P.iop x ≠ "load") :
    (P.row x).StoresSlot (m2rCollect P f) := ⟨h.1.resolve_left hop, h⟩

/-- A slot keeps its name, and no other value gets it. -/
theorem Traced.address (h : Traced P f m τ rest) :
    τ w ∈ (m2rCollect P f).map Int.ofNat ↔ w ∈ (m2rCollect P f).map Int.ofNat := by
  by_cases hsame : τ w = w
  · rw [hsame]
  obtain ⟨x, hx, hout, rfl, hop, hslot⟩ := h.moved w hsame
  refine iff_of_false (fun hin => ?_) fun hin => ?_
  · obtain ⟨y, hyr, -, hvalue, -⟩ := h.ready x hx hout hop hslot
    obtain ⟨s, hs, heq⟩ := List.mem_map.mp hin
    rw [hyr] at heq
    obtain rfl : s = y := Int.natCast_inj.mp heq
    obtain ⟨hs, halloca⟩ := mem_m2rCollect hs
    have hrow := h.row s hs fun hc => not_slotted halloca hc.2
    have hiop : m.ir.iop s = "alloca" := (congrArg Row.op hrow).trans halloca
    rw [hiop] at hvalue
    exact hvalue (by decide)
  · obtain ⟨s, hs, heq⟩ := List.mem_map.mp hin
    obtain rfl : s = x := Int.natCast_inj.mp heq
    exact absurd ((mem_m2rCollect hs).2.symm.trans hop) (by decide)

/-- The place of a slot in the tables. -/
def slotIdx (P : Rows) (f : Nat) (a : Int) : Nat := ((m2rCollect P f).map Int.ofNat).idxOf a

theorem slotIdx_lt (h : v ∈ (m2rCollect P f).map Int.ofNat) : slotIdx P f v < (m2rCollect P f).length := by
  have hlt := List.idxOf_lt_length_of_mem h
  rw [List.length_map] at hlt
  exact hlt

theorem slotIdx_inj (h : v ∈ (m2rCollect P f).map Int.ofNat) : slotIdx P f v = slotIdx P f w ↔ v = w :=
  List.idxOf_inj h

/-- What the walk does with an instruction it comes to. -/
theorem Traced.step_eq (h : Traced P f m τ (x :: rest)) (hx : x ∈ Ir.insns P f) :
    (P.iop x = "load" → Slotted P f x →
      m2rStep f i m x = m2rDrop m f x (m.outv i (slotIdx P f (P.ia x)))) ∧
    ((P.row x).StoresSlot (m2rCollect P f) → m2rStep f i m x = m2rKept m x i (slotIdx P f (P.ia x))) ∧
    (¬Slotted P f x → m2rStep f i m x = m) := by
  have hrow := h.row x hx fun hc => hc.1 List.mem_cons_self
  have hop : m.ir.iop x = P.iop x := congrArg Row.op hrow
  have hia : m.ir.ia x = τ (P.ia x) := congrArg Row.a hrow
  have hin : 0 ≤ m.slotOf (m.ir.ia x) ↔ P.ia x ∈ (m2rCollect P f).map Int.ofNat := by
    rw [slotOf_nonneg, h.pra, hia, h.address]
  have hidx : P.ia x ∈ (m2rCollect P f).map Int.ofNat →
      (m.slotOf (m.ir.ia x)).toNat = slotIdx P f (P.ia x) := by
    intro hmem
    have hsame : τ (P.ia x) = P.ia x := by
      by_contra hne
      obtain ⟨y, -, -, heq, hload, -⟩ := h.moved _ hne
      rw [heq] at hmem
      obtain ⟨s, hs, hsy⟩ := List.mem_map.mp hmem
      obtain rfl : s = y := Int.natCast_inj.mp hsy
      exact absurd ((mem_m2rCollect hs).2.symm.trans hload) (by decide)
    rw [hia, hsame, Mem.slotOf, h.pra, (listIndexOf_eq hmem).1, Int.toNat_natCast]
    rfl
  unfold m2rStep m2rLoad m2rStore
  rw [hop]
  refine ⟨fun hload hslot => ?_, fun hstore => ?_, fun hno => ?_⟩
  · rw [if_pos hload, if_pos (hin.mpr hslot.2), hidx hslot.2]
  · have hop : P.iop x = "store" := hstore.1
    rw [hop, if_neg (by decide), if_pos rfl, if_pos (hin.mpr hstore.2.2), hidx hstore.2.2]
  · by_cases hload : P.iop x = "load"
    · rw [if_pos hload, if_neg fun h0 => hno ⟨.inl hload, hin.mp h0⟩]
    · rw [if_neg hload]
      by_cases hstore : P.iop x = "store"
      · rw [if_pos hstore, if_neg fun h0 => hno ⟨.inr hstore, hin.mp h0⟩]
      · rw [if_neg hstore]

theorem notMem_cons {y : Nat} (h : y ∉ rest) (hne : y ≠ x) : y ∉ x :: rest :=
  fun hin => (List.mem_cons.mp hin).elim hne h

/-- An instruction that is no access to a slot stays. -/
theorem Traced.skip (h : Traced P f m τ (x :: rest)) (hno : ¬Slotted P f x) : Traced P f m τ rest := by
  have hsub : rest ⊆ x :: rest := List.subset_cons_self x rest
  have hback : ∀ {y}, y ∉ rest → Slotted P f y → y ∉ x :: rest :=
    fun hout hslot => notMem_cons hout fun heq => hno (heq ▸ hslot)
  constructor
  case pra => exact h.pra
  case insns => exact h.insns
  case moved =>
    intro w hw
    obtain ⟨y, hy, hout, heq, hop, hslot⟩ := h.moved w hw
    exact ⟨y, hy, fun hin => hout (hsub hin), heq, hop, hslot⟩
  case ready => exact fun y hy hout hop hslot => (h.ready y hy (hback hout hslot) hop hslot).mono hsub
  case stored => exact fun y hy hout hstore => (h.stored y hy (hback hout hstore.2) hstore).mono hsub
  case row => exact fun y hy hno' => h.row y hy fun hc => hno' ⟨fun hin => hc.1 (hsub hin), hc.2⟩
  case gone => exact fun y hy hout hslot => h.gone y hy (hback hout hslot) hslot

section

variable (h : Traced P f m τ (x :: rest)) (hx : x ∈ Ir.insns P f) (hout : x ∉ rest)
include h hx hout

omit hx hout in
theorem Traced.fixed : τ x = x := by
  by_contra hne
  obtain ⟨y, -, hnot, heq, -⟩ := h.moved x hne
  rw [← Int.natCast_inj.mp heq] at hnot
  exact hnot List.mem_cons_self

/-- A load of a slot goes. -/
theorem Traced.drop (hop : P.iop x = "load") (hslot : Slotted P f x) (hv : Ready m.ir (x :: rest) v) :
    Traced P f (m2rDrop m f x v) (fun w => swap x v (τ w)) rest := by
  have hsub : rest ⊆ x :: rest := List.subset_cons_self x rest
  have hxop : m.ir.iop x = "load" := (congrArg Row.op (h.row x hx fun hc => hc.1 List.mem_cons_self)).trans hop
  have hne : v ≠ x := hv.ne_load hxop
  have hready : ∀ {w}, Ready m.ir (x :: rest) w → Ready (m2rDrop m f x v).ir rest (swap x v w) :=
    fun hw => (hw.swap hv hne).mono hsub
  constructor
  case pra => exact h.pra
  case insns =>
    show _ ⊆ Ir.insns (dropped m.ir f x v) f
    rw [insns_dropped]
    exact h.insns
  case moved =>
    intro w hw
    by_cases hwx : w = x
    · exact ⟨x, hx, hout, hwx, hop, hslot⟩
    · have hmoved : τ w ≠ w := fun hsame => hw (by rw [hsame, swap_of_ne hwx])
      obtain ⟨y, hy, hnot, heq, hload, hslot⟩ := h.moved w hmoved
      exact ⟨y, hy, fun hin => hnot (hsub hin), heq, hload, hslot⟩
  case ready =>
    intro y hy hnot hload hslot
    by_cases hyx : y = x
    · rw [hyx, h.fixed, swap_self]
      exact (hv.dropped hne).mono hsub
    · exact hready (h.ready y hy (notMem_cons hnot hyx) hload hslot)
  case stored =>
    intro y hy hnot hstore
    have hyx : y ≠ x := by
      rintro rfl
      exact absurd (hop.symm.trans hstore.1) (by decide)
    exact hready (h.stored y hy (notMem_cons hnot hyx) hstore)
  case row =>
    intro y hy hno
    have hyx : y ≠ x := fun heq => hno ⟨heq ▸ hout, heq ▸ hslot⟩
    have hrow := h.row y hy fun hc => hno ⟨fun hin => hc.1 (hsub hin), hc.2⟩
    show (dropped m.ir f x v).row y = _
    rw [row_dropped (h.insns hy) hyx, hrow]
    show Row.mk _ _ _ _ _ _ (((P.ilist y).map τ).map (swap x v)) _ = _
    rw [List.map_map]
    rfl
  case gone =>
    intro y hy hnot hslot
    show (dropped m.ir f x v).iop y = "nop"
    rw [dropped_iop]
    by_cases hyx : y = x
    · rw [hyx, irKill_iop_self]
    · rw [irKill_iop_of_ne hyx]
      exact h.gone y hy (notMem_cons hnot hyx) hslot

/-- A store to a slot goes. -/
theorem Traced.keep {i j : Nat} (hstore : (P.row x).StoresSlot (m2rCollect P f))
    (hv : Ready m.ir (x :: rest) (τ (P.ib x))) : Traced P f (m2rKept m x i j) τ rest := by
  have hsub : rest ⊆ x :: rest := List.subset_cons_self x rest
  have hxop : m.ir.iop x = "store" :=
    (congrArg Row.op (h.row x hx fun hc => hc.1 List.mem_cons_self)).trans hstore.1
  have hready : ∀ {w}, Ready m.ir (x :: rest) w → Ready (m2rKept m x i j).ir rest w :=
    fun hw => (hw.kill (hw.ne_store hxop)).mono hsub
  have hload : ∀ {y}, P.iop y = "load" → y ≠ x := by
    rintro y hop rfl
    exact absurd (hop.symm.trans hstore.1) (by decide)
  constructor
  case pra => exact h.pra
  case insns => exact h.insns
  case moved =>
    intro w hw
    obtain ⟨y, hy, hnot, heq, hop, hslot⟩ := h.moved w hw
    exact ⟨y, hy, fun hin => hnot (hsub hin), heq, hop, hslot⟩
  case ready => exact fun y hy hnot hop hslot => hready (h.ready y hy (notMem_cons hnot (hload hop)) hop hslot)
  case stored =>
    intro y hy hnot hst
    by_cases hyx : y = x
    · rw [hyx]
      exact hready hv
    · exact hready (h.stored y hy (notMem_cons hnot hyx) hst)
  case row =>
    intro y hy hno
    have hyx : y ≠ x := fun heq => hno ⟨heq ▸ hout, heq ▸ hstore.2⟩
    rw [← h.row y hy fun hc => hno ⟨fun hin => hc.1 (hsub hin), hc.2⟩]
    exact irKill_row_of_ne hyx
  case gone =>
    intro y hy hnot hslot
    show (irKill m.ir x).iop y = "nop"
    by_cases hyx : y = x
    · rw [hyx, irKill_iop_self]
    · rw [irKill_iop_of_ne hyx]
      exact h.gone y hy (notMem_cons hnot hyx) hslot

end

/-! ## The tables -/

/-- The tables when the walk has left the blocks of the places before `i`, and `rest` is to come: what
the slots hold at each load and where each block is left. -/
structure Behind (P : Rows) (f : Nat) (st : Nat → Int → Int) (m : Mem) (τ : Int → Int) (i : Nat)
    (rest : List Nat) : Prop where
  loads : ∀ k b l' x r, (P.fnblk f)[k]? = some b → P.binsn b = l' ++ x :: r → x ∉ rest → P.iop x = "load" →
    Slotted P f x → (∀ y ∈ l', y ∉ rest) ∧ τ x = held P (m2rCollect P f) τ (st k) l' (P.ia x)
  past : ∀ k < i, ∀ b, (P.fnblk f)[k]? = some b → (∀ y ∈ P.binsn b, y ∉ rest) ∧
    ∀ a ∈ (m2rCollect P f).map Int.ofNat,
      m.outv k (slotIdx P f a) = held P (m2rCollect P f) τ (st k) (P.binsn b) a

/-- The tables when the walk is in the block of place `i`, behind its instructions `l`. -/
structure Tabled (P : Rows) (f : Nat) (st : Nat → Int → Int) (m : Mem) (τ : Int → Int) (i : Nat)
    (l rest : List Nat) : Prop extends Behind P f st m τ i rest where
  done : ∀ y ∈ l, y ∉ rest
  now : ∀ a ∈ (m2rCollect P f).map Int.ofNat,
    m.outv i (slotIdx P f a) = held P (m2rCollect P f) τ (st i) l a

/-- Places of one block are one. -/
theorem place_unique (hn : (P.fnblk f).Nodup) {k k' : Nat} (h : (P.fnblk f)[k]? = some b)
    (h' : (P.fnblk f)[k']? = some b) : k = k' := by
  obtain ⟨hk, heq⟩ := List.getElem?_eq_some_iff.mp h
  obtain ⟨hk', heq'⟩ := List.getElem?_eq_some_iff.mp h'
  exact (hn.getElem_inj_iff).mp (heq.trans heq'.symm)

/-- One more instruction. -/
theorem Tabled.step {m' : Mem} (h : Tabled P f st m τ i l (x :: rest)) (hn : (insns P f).Nodup)
    (hnb : (P.fnblk f).Nodup) (hb : (P.fnblk f)[i]? = some b) (hx : P.binsn b = l ++ x :: r) (hout : x ∉ rest)
    (hstores : ∀ y ∈ insns P f, y ∉ x :: rest → (P.row y).StoresSlot (m2rCollect P f) →
      τ' (P.ib y) = τ (P.ib y))
    (hloads : ∀ y ∈ insns P f, y ∉ x :: rest → P.iop y = "load" → Slotted P f y → τ' y = τ y)
    (hload : P.iop x = "load" → Slotted P f x → τ' x = held P (m2rCollect P f) τ (st i) l (P.ia x))
    (hpast : ∀ k < i, m'.outv k = m.outv k)
    (hnow : ∀ a ∈ (m2rCollect P f).map Int.ofNat,
      m'.outv i (slotIdx P f a) = held P (m2rCollect P f) τ' (st i) (l ++ [x]) a) :
    Tabled P f st m' τ' i (l ++ [x]) rest := by
  have hsub : rest ⊆ x :: rest := List.subset_cons_self x rest
  have hmem : ∀ {k b y}, (P.fnblk f)[k]? = some b → y ∈ P.binsn b → y ∈ insns P f :=
    fun hk hy => mem_insns.mpr ⟨_, List.mem_of_getElem? hk, hy⟩
  have hsame : ∀ {k b l' c}, (P.fnblk f)[k]? = some b → (∀ y ∈ l', y ∈ P.binsn b) → (∀ y ∈ l', y ∉ x :: rest) →
      held P (m2rCollect P f) τ' c l' = held P (m2rCollect P f) τ c l' := fun hk hl hdone =>
    held_congr fun y hy hstore => hstores y (hmem hk (hl y hy)) (hdone y hy) hstore
  have hl : ∀ y ∈ l, y ∈ P.binsn b := fun y hy => hx ▸ List.mem_append_left _ hy
  refine ⟨⟨?loads, ?past⟩, ?done, ?now⟩
  case loads =>
    intro k b' l' y r' hk hy hnot hop hslot
    by_cases hyx : y = x
    · subst hyx
      have hin : y ∈ P.binsn b := hx ▸ List.mem_append_right l List.mem_cons_self
      have hin' : y ∈ P.binsn b' := hy ▸ List.mem_append_right l' List.mem_cons_self
      have hblk := List.mem_of_getElem? hb
      obtain rfl : b' = b :=
        Home.unique hn (w := (y : Nat)) ⟨List.mem_of_getElem? hk, y, hin', rfl⟩ ⟨hblk, y, hin, rfl⟩
      obtain rfl := place_unique hnb hk hb
      obtain ⟨hlen, hbefore⟩ := idxOf_split (nodup_binsn hn hblk) hx
      obtain ⟨hlen', -⟩ := idxOf_split (nodup_binsn hn hblk) hy
      obtain ⟨rfl, -⟩ := List.append_inj (hy.symm.trans hx) (by omega)
      refine ⟨fun z hz hin => h.done z hz (hsub hin), ?_⟩
      rw [hload hop hslot, hsame hb hl h.done]
    · obtain ⟨hdone, heq⟩ := h.loads k b' l' y r' hk hy (notMem_cons hnot hyx) hop hslot
      have hin : ∀ z ∈ l', z ∈ P.binsn b' := fun z hz => hy ▸ List.mem_append_left _ hz
      have hy' : y ∈ P.binsn b' := hy ▸ List.mem_append_right l' List.mem_cons_self
      refine ⟨fun z hz hin => hdone z hz (hsub hin), ?_⟩
      rw [hloads y (hmem hk hy') (notMem_cons hnot hyx) hop hslot, heq, hsame hk hin hdone]
  case past =>
    intro k hki b' hk
    obtain ⟨hdone, heq⟩ := h.past k hki b' hk
    refine ⟨fun y hy hin => hdone y hy (hsub hin), fun a ha => ?_⟩
    rw [hpast k hki, heq a ha, hsame hk (fun _ hy => hy) hdone]
  case done =>
    intro y hy hin
    cases List.mem_append.mp hy with
    | inl hy => exact h.done y hy (hsub hin)
    | inr hy => exact hout (List.mem_singleton.mp hy ▸ hin)
  case now => exact hnow

end IdCompiler.Ir

import Mathlib.Order.Basic

/-!
# Behaviours that may be cut short

A behaviour relates the state it starts from to a state it has come to, the
value it ended with (none when it was cut there, by a trap or by the observer)
and the events so far. Every prefix of a run is itself a run, so what holds of
the events of all runs holds of those that trap or never end. The rules below
establish that every event is acceptable. Nothing here names a program.
-/

namespace IdCompiler.Core

variable {S E α β : Type*}

/-- What a computation over states `S` with events `E` and results `α` may do. -/
def Behave (S E α : Type*) := S → S → Option α → List E → Prop

namespace Behave

/-- Ends at once, with a value. -/
def ret (a : α) : Behave S E α :=
  fun s s' r tr => s' = s ∧ tr = [] ∧ (r = some a ∨ r = none)

/-- One after the other. -/
def bind (m : Behave S E α) (k : α → Behave S E β) : Behave S E β :=
  fun s s' r tr => (m s s' none tr ∧ r = none) ∨
    ∃ t a tr₁ tr₂, m s t (some a) tr₁ ∧ k a t s' r tr₂ ∧ tr = tr₁ ++ tr₂

/-- Either one. -/
def choice (m m' : Behave S E α) : Behave S E α :=
  fun s s' r tr => m s s' r tr ∨ m' s s' r tr

/-- Any one of a family. -/
def any (m : β → Behave S E α) : Behave S E α :=
  fun s s' r tr => ∃ b, m b s s' r tr

/-- One atomic step with a value, and no event. -/
def rel (R : S → S → α → Prop) : Behave S E α :=
  fun s s' r tr => tr = [] ∧ ((r = none ∧ s' = s) ∨ ∃ a, r = some a ∧ R s s' a)

/-- The state as it is. -/
def get (f : S → α) : Behave S E α :=
  rel fun s s' a => s' = s ∧ a = f s

/-- One event read off the state. -/
def emit (f : S → E) : Behave S E Unit :=
  fun s s' r tr => s' = s ∧ ((r = none ∧ tr = []) ∨ tr = [f s])

/-- Runs `m` as long as it answers so; `some b` ends with `b`. -/
inductive loop (m : Behave S E (Option α)) : Behave S E α
  | cut {s s' tr} : m s s' none tr → loop m s s' none tr
  | done {s s' a tr} : m s s' (some (some a)) tr → loop m s s' (some a) tr
  | again {s t s' r tr tr'} : m s t (some none) tr → loop m t s' r tr' →
      loop m s s' r (tr ++ tr')

theorem ret_run (a : α) (s : S) : (ret a : Behave S E α) s s (some a) [] :=
  ⟨rfl, rfl, .inl rfl⟩

theorem bind_run {m : Behave S E α} {k : α → Behave S E β} {s t s' : S} {a : α} {r : Option β}
    {tr₁ tr₂ : List E} (h : m s t (some a) tr₁) (h' : k a t s' r tr₂) :
    bind m k s s' r (tr₁ ++ tr₂) :=
  .inr ⟨t, a, tr₁, tr₂, h, h', rfl⟩

theorem get_run (f : S → α) (s : S) : (get f : Behave S E α) s s (some (f s)) [] :=
  ⟨rfl, .inr ⟨_, rfl, rfl, rfl⟩⟩

theorem emit_run (f : S → E) (s : S) : emit f s s (some ()) [f s] :=
  ⟨rfl, .inr rfl⟩

/-- From every state with `P`, every event of `m` is acceptable and every value it ends with
comes with `Q`. -/
def Holds (ok : E → Prop) (P : S → Prop) (m : Behave S E α) (Q : α → S → Prop) : Prop :=
  ∀ s s' r tr, P s → m s s' r tr → (∀ e ∈ tr, ok e) ∧ ∀ a, r = some a → Q a s'

variable {ok : E → Prop} {P : S → Prop} {Q Q' : α → S → Prop}

theorem Holds.mono {m : Behave S E α} {P' : S → Prop} (h : Holds ok P m Q)
    (hP : ∀ s, P' s → P s) (hQ : ∀ a s, Q a s → Q' a s) : Holds ok P' m Q' := by
  intro s s' r tr hs hm
  obtain ⟨hok, hq⟩ := h s s' r tr (hP s hs) hm
  exact ⟨hok, fun a ha => hQ a s' (hq a ha)⟩

theorem Holds.pre {m : Behave S E α} {P' : S → Prop} (h : Holds ok P m Q)
    (hP : ∀ s, P' s → P s) : Holds ok P' m Q :=
  h.mono hP fun _ _ => id

theorem Holds.post {m : Behave S E α} (h : Holds ok P m Q)
    (hQ : ∀ a s, Q a s → Q' a s) : Holds ok P m Q' :=
  h.mono (fun _ => id) hQ

/-- A fact about the start that does not speak of the state comes out of the precondition. -/
theorem Holds.of_pre {m : Behave S E α} (h : ∀ s, P s → Holds ok (· = s) m Q) :
    Holds ok P m Q :=
  fun s s' r tr hs hm => h s hs s s' r tr rfl hm

/-- What two proofs say of one computation, its events as the first has them. -/
theorem Holds.and {m : Behave S E α} {ok' : E → Prop} (h : Holds ok P m Q)
    (h' : Holds ok' P m Q') : Holds ok P m fun a s => Q a s ∧ Q' a s :=
  fun s s' r tr hs hm =>
    ⟨(h s s' r tr hs hm).1, fun a ha => ⟨(h s s' r tr hs hm).2 a ha, (h' s s' r tr hs hm).2 a ha⟩⟩

theorem Holds.ret {a : α} (h : ∀ s, P s → Q a s) : Holds ok P (ret a : Behave S E α) Q := by
  rintro s s' r tr hs ⟨rfl, rfl, hr⟩
  refine ⟨by simp, fun b hb => ?_⟩
  rcases hr with rfl | rfl
  · obtain rfl := Option.some.inj hb
    exact h s' hs
  · simp at hb

theorem Holds.bind {m : Behave S E α} {k : α → Behave S E β} {R : β → S → Prop}
    (hm : Holds ok P m Q) (hk : ∀ a, Holds ok (Q a) (k a) R) : Holds ok P (bind m k) R := by
  rintro s s' r tr hs (⟨h, rfl⟩ | ⟨t, a, tr₁, tr₂, h₁, h₂, rfl⟩)
  · exact ⟨(hm s s' none tr hs h).1, fun b hb => by simp at hb⟩
  · obtain ⟨hok₁, hq⟩ := hm s t (some a) tr₁ hs h₁
    obtain ⟨hok₂, hr⟩ := hk a t s' r tr₂ (hq a rfl) h₂
    refine ⟨fun e he => ?_, hr⟩
    rcases List.mem_append.mp he with he | he
    · exact hok₁ e he
    · exact hok₂ e he

theorem Holds.choice {m m' : Behave S E α} (h : Holds ok P m Q) (h' : Holds ok P m' Q) :
    Holds ok P (choice m m') Q := by
  rintro s s' r tr hs (hm | hm)
  · exact h s s' r tr hs hm
  · exact h' s s' r tr hs hm

theorem Holds.any {m : β → Behave S E α} (h : ∀ b, Holds ok P (m b) Q) :
    Holds ok P (any m) Q := by
  rintro s s' r tr hs ⟨b, hm⟩
  exact h b s s' r tr hs hm

theorem Holds.rel {R : S → S → α → Prop} (h : ∀ s s' a, P s → R s s' a → Q a s') :
    Holds ok P (rel R : Behave S E α) Q := by
  rintro s s' r tr hs ⟨rfl, hr⟩
  refine ⟨by simp, fun a ha => ?_⟩
  rcases hr with ⟨rfl, _⟩ | ⟨b, rfl, hR⟩
  · simp at ha
  · obtain rfl := Option.some.inj ha
    exact h s s' b hs hR

theorem Holds.get {f : S → α} (h : ∀ s, P s → Q (f s) s) :
    Holds ok P (get f : Behave S E α) Q :=
  Holds.rel fun s s' a hs hR => by
    obtain ⟨rfl, rfl⟩ := hR
    exact h s' hs

theorem Holds.emit {f : S → E} {R : Unit → S → Prop} (hok : ∀ s, P s → ok (f s))
    (h : ∀ s, P s → R () s) : Holds ok P (emit f) R := by
  rintro s s' r tr hs ⟨rfl, hr⟩
  refine ⟨fun e he => ?_, fun _ _ => h s' hs⟩
  rcases hr with ⟨_, rfl⟩ | rfl
  · simp at he
  · rw [List.mem_singleton.mp he]
    exact hok s' hs

/-- The loop rule: an invariant that each round restores. -/
theorem Holds.loop {m : Behave S E (Option α)}
    (h : Holds ok P m fun b s => match b with
      | none => P s
      | some a => Q a s) : Holds ok P (loop m) Q := by
  intro s s' r tr hs hm
  induction hm with
  | cut hm => exact ⟨(h _ _ _ _ hs hm).1, fun a ha => by simp at ha⟩
  | done hm =>
    obtain ⟨hok, hq⟩ := h _ _ _ _ hs hm
    refine ⟨hok, fun b hb => ?_⟩
    obtain rfl := Option.some.inj hb
    exact hq _ rfl
  | again hm _ ih =>
    obtain ⟨hok, hq⟩ := h _ _ _ _ hs hm
    obtain ⟨hok', hq'⟩ := ih (hq _ rfl)
    refine ⟨fun e he => ?_, hq'⟩
    rcases List.mem_append.mp he with he | he
    · exact hok e he
    · exact hok' e he

end Behave

end IdCompiler.Core

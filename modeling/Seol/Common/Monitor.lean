import Seol.Common.Transition

/-!
# Condition variables

A state is changed in critical sections only, and its users wait on one condition variable. A waiter
that finds its condition false sleeps, and looks again only after a broadcast. The eager system leaves
the sleeping out: a waiter leaves whenever its condition holds. Where no critical section makes a
condition true without a broadcast, the two systems have the same runs, apart from waiters that are
woken and go back to sleep. So what is proved of eager runs holds with the sleeping too.
-/

namespace Seol.Common

variable {σ ε ι : Type*}

/-- A state with a condition variable. `move s e b s'` is a critical section that ends with a broadcast
if `b`; `ready s x` is the condition that `x` waits for, and `leave s x e s'` what `x` does on finding
it true. -/
structure Monitor (σ ε ι : Type*) where
  move : σ → ε → Bool → σ → Prop
  waits : σ → ι → Prop
  ready : σ → ι → Prop
  leave : σ → ι → ε → σ → Prop

namespace Monitor

/-- Waiters leave whenever their condition holds. -/
inductive Eager (m : Monitor σ ε ι) : σ → ε → σ → Prop
  | move {s s' : σ} {e : ε} {b : Bool} (h : m.move s e b s') : m.Eager s e s'
  | leave {s s' : σ} {e : ε} {x : ι} (hx : m.waits s x) (hready : m.ready s x)
      (h : m.leave s x e s') : m.Eager s e s'

/-- The sleeping waiters after a critical section: a broadcast wakes those from before, and one that
started to wait in the section sleeps. -/
def sleepers (m : Monitor σ ε ι) (s : σ) (asleep : Set ι) (b : Bool) (s' : σ) : Set ι :=
  { x | (b = false ∧ x ∈ asleep) ∨ (m.waits s' x ∧ ¬ m.waits s x) }

/-- The steps of the state with its sleeping waiters. A waiter that is awake looks at its condition; to
go back to sleep is a step without a label. -/
inductive Step (m : Monitor σ ε ι) : σ × Set ι → Option ε → σ × Set ι → Prop
  | move {s s' : σ} {asleep : Set ι} {e : ε} {b : Bool} (h : m.move s e b s') :
      m.Step (s, asleep) (some e) (s', m.sleepers s asleep b s')
  | leave {s s' : σ} {asleep : Set ι} {e : ε} {x : ι} (hx : m.waits s x) (hawake : x ∉ asleep)
      (hready : m.ready s x) (h : m.leave s x e s') : m.Step (s, asleep) (some e) (s', asleep)
  | sleepAgain {s : σ} {asleep : Set ι} {x : ι} (hx : m.waits s x) (hawake : x ∉ asleep)
      (hready : ¬ m.ready s x) : m.Step (s, asleep) none (s, insert x asleep)

/-- What a program has to see to: a condition becomes true only in a critical section with a broadcast,
and one who starts to wait has found its condition false. -/
structure Announces (m : Monitor σ ε ι) : Prop where
  quiet : ∀ {s e s'}, m.move s e false s' → ∀ x, m.ready s' x → m.ready s x
  arrive : ∀ {s e b s'}, m.move s e b s' → ∀ x, m.waits s' x → ¬ m.waits s x → ¬ m.ready s' x
  leave : ∀ {s y e s'}, m.leave s y e s' → ∀ x, m.ready s' x → m.ready s x

/-- No sleeping waiter could leave. -/
def NoneMissed (m : Monitor σ ε ι) (s : σ × Set ι) : Prop := ∀ x ∈ s.2, ¬ m.ready s.1 x

variable {m : Monitor σ ε ι} {s s' : σ × Set ι} {l : Option ε}

/-- **No wake-up is lost** in a step. -/
theorem NoneMissed.step (hm : m.Announces) (h : m.NoneMissed s) (hstep : m.Step s l s') :
    m.NoneMissed s' := by
  cases hstep with
  | move hmove =>
    rintro x (⟨rfl, hx⟩ | ⟨hwaits, hnew⟩)
    · exact fun hready => h x hx (hm.quiet hmove x hready)
    · exact hm.arrive hmove x hwaits hnew
  | leave hx hawake hready hleave => exact fun y hy hy' => h y hy (hm.leave hleave y hy')
  | sleepAgain hx hawake hready =>
    rintro y (rfl | hy)
    · exact hready
    · exact h y hy

/-- Without the sleeping, a step is an eager one, or none at all. -/
theorem Step.eager (h : m.Step s l s') :
    (∃ e, l = some e ∧ m.Eager s.1 e s'.1) ∨ (l = none ∧ s'.1 = s.1) := by
  cases h with
  | move hmove => exact .inl ⟨_, rfl, .move hmove⟩
  | leave hx hawake hready hleave => exact .inl ⟨_, rfl, .leave hx hready hleave⟩
  | sleepAgain => exact .inr ⟨rfl, rfl⟩

/-- **Every eager step is possible** beside sleeping waiters none of whom missed a broadcast. -/
theorem NoneMissed.exists_step {t : σ} {e : ε} (h : m.NoneMissed s) (heager : m.Eager s.1 e t) :
    ∃ asleep, m.Step s (some e) (t, asleep) := by
  cases heager with
  | move hmove => exact ⟨_, .move hmove⟩
  | leave hx hready hleave => exact ⟨_, .leave hx (fun hsleeps => h _ hsleeps hready) hready hleave⟩

/-- **No wake-up is lost** in a run. -/
theorem NoneMissed.run (hm : m.Announces) {ls : List (Option ε)} (h : m.NoneMissed s)
    (hrun : Run m.Step s ls s') : m.NoneMissed s' :=
  hrun.invariant (fun _ _ _ hs hstep => hs.step hm hstep) h

/-- **A run without its sleeping** is an eager run. -/
theorem run_eager {ls : List (Option ε)} (h : Run m.Step s ls s') :
    Run m.Eager s.1 ls.reduceOption s'.1 := h.reduceOption fun _ _ _ => Step.eager

end Monitor

end Seol.Common

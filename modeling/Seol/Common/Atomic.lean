import Seol.Common.Transition

/-!
# Atomic objects

A sequential object that callers use concurrently: a call is invoked, takes effect at one instant and
returns. A history of invocations and returns is linearizable if such instants can be put between them
so that every answer is the one of the sequential object. An implementation is shown linearizable by a
simulation that says of each of its steps which call, if any, takes effect in it.
-/

namespace Seol.Common

variable {ι Op Res σ τ ε α γ : Type*}

/-- What callers see. -/
inductive ClientEvent (ι Op Res : Type*) where
  | invoke (caller : ι) (op : Op)
  | ret (caller : ι) (res : Res)
  deriving DecidableEq

/-- What happens to an atomic object: an event that callers see, or a call that takes effect. -/
inductive AtomicEvent (ι Op Res : Type*) where
  | client (e : ClientEvent ι Op Res)
  | commit (caller : ι)

/-- The event a caller sees of it, if any. -/
def AtomicEvent.seen : AtomicEvent ι Op Res → List (ClientEvent ι Op Res)
  | .client e => [e]
  | .commit _ => []

/-- Where the call of a caller stands. -/
inductive Phase (Op Res : Type*) where
  | idle
  | pending (op : Op)
  | done (res : Res)

/-- The value of the object and the phase of each caller. -/
structure AtomicState (ι Op Res σ : Type*) where
  value : σ
  phase : ι → Phase Op Res

/-- Nobody has called. -/
def AtomicState.start (init : σ) : AtomicState ι Op Res σ := ⟨init, fun _ => .idle⟩

/-- The steps of an atomic object with the sequential meaning `apply`. -/
inductive AtomicStep [DecidableEq ι] (apply : Op → σ → Res × σ) :
    AtomicState ι Op Res σ → AtomicEvent ι Op Res → AtomicState ι Op Res σ → Prop
  | invoke {a : AtomicState ι Op Res σ} (i : ι) (op : Op) (h : a.phase i = .idle) :
    AtomicStep apply a (.client (.invoke i op))
      { a with phase := Function.update a.phase i (.pending op) }
  | commit {a : AtomicState ι Op Res σ} (i : ι) (op : Op) (h : a.phase i = .pending op) :
    AtomicStep apply a (.commit i)
      ⟨(apply op a.value).2, Function.update a.phase i (.done (apply op a.value).1)⟩
  | ret {a : AtomicState ι Op Res σ} (i : ι) (res : Res) (h : a.phase i = .done res) :
    AtomicStep apply a (.client (.ret i res)) { a with phase := Function.update a.phase i .idle }

/-- **Linearizable histories**: each call can be given an instant between its invocation and its
return at which it takes effect. -/
def Linearizable [DecidableEq ι] (apply : Op → σ → Res × σ) (init : σ)
    (history : List (ClientEvent ι Op Res)) : Prop :=
  ∃ es a, Run (AtomicStep apply) (AtomicState.start init) es a ∧ es.flatMap AtomicEvent.seen = history

/-- **Simulation up to what is seen.** If every step is matched by steps of the abstract system that
show the same, then every run is. -/
theorem Run.simulate_seen {step : σ → ε → σ → Prop} {astep : τ → α → τ → Prop} {R : σ → τ → Prop}
    {seen : ε → List γ} {aseen : α → List γ}
    (hsim : ∀ s a e t, R s a → step s e t →
      ∃ bs b, Run astep a bs b ∧ bs.flatMap aseen = seen e ∧ R t b)
    {s t : σ} {es : List ε} (h : Run step s es t) {a : τ} (hs : R s a) :
    ∃ bs b, Run astep a bs b ∧ bs.flatMap aseen = es.flatMap seen ∧ R t b := by
  induction h with
  | refl => exact ⟨[], a, .refl a, rfl, hs⟩
  | tail _ hu ih =>
    obtain ⟨bs, b, hrun, hseen, hb⟩ := ih
    obtain ⟨cs, c, hrun', hseen', hc⟩ := hsim _ _ _ _ hb hu
    refine ⟨bs ++ cs, c, hrun.trans hrun', ?_, hc⟩
    rw [List.flatMap_append, List.flatMap_append, hseen, hseen', List.flatMap_singleton]

end Seol.Common

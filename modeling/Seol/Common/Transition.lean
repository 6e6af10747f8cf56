import Mathlib

/-!
# Labelled runs

Runs of a labelled step relation, the invariant rule for them, and forward simulation by an abstract
relation over the same labels.
-/

namespace Seol.Common

variable {σ τ ε : Type*}

/-- `Run step s es s'`: the labels `es` lead from `s` to `s'`. -/
inductive Run (step : σ → ε → σ → Prop) : σ → List ε → σ → Prop
  | refl (s : σ) : Run step s [] s
  | tail {s t u : σ} {es : List ε} {e : ε} : Run step s es t → step t e u → Run step s (es ++ [e]) u

namespace Run

variable {step : σ → ε → σ → Prop}

theorem single {s t : σ} {e : ε} (h : step s e t) : Run step s [e] t := (Run.refl s).tail h

theorem trans {s t u : σ} {as bs : List ε} (h : Run step s as t) (h' : Run step t bs u) :
    Run step s (as ++ bs) u := by
  induction h' with
  | refl => simpa using h
  | tail _ hstep ih => simpa [List.append_assoc] using ih.tail hstep

theorem head {s t u : σ} {e : ε} {es : List ε} (h : step s e t) (h' : Run step t es u) :
    Run step s (e :: es) u := (single h).trans h'

theorem mono {step' : σ → ε → σ → Prop} (hstep : ∀ s e t, step s e t → step' s e t) {s t : σ}
    {es : List ε} (h : Run step s es t) : Run step' s es t := by
  induction h with
  | refl => exact .refl _
  | tail _ hu ih => exact ih.tail (hstep _ _ _ hu)

/-- The last step of a run. -/
theorem of_concat {s u : σ} {es : List ε} {e : ε} (h : Run step s (es ++ [e]) u) :
    ∃ t, Run step s es t ∧ step t e u := by
  generalize hl : es ++ [e] = l at h
  cases h with
  | refl => simp at hl
  | tail hrun hstep =>
    obtain ⟨rfl, heq⟩ := List.append_inj' hl rfl
    obtain rfl := List.singleton_inj.mp heq
    exact ⟨_, hrun, hstep⟩

/-- **Invariant rule.** What the start satisfies and every step preserves holds at the end. -/
theorem invariant {Inv : σ → Prop} (hstep : ∀ s e t, Inv s → step s e t → Inv t) {s t : σ}
    {es : List ε} (h : Run step s es t) (hs : Inv s) : Inv t := by
  induction h with
  | refl => exact hs
  | tail _ hu ih => exact hstep _ _ _ ih hu

/-- **Forward simulation.** A relation that every concrete step carries to an abstract step with the
same label carries every concrete run to an abstract run. -/
theorem simulate {astep : τ → ε → τ → Prop} {R : σ → τ → Prop}
    (hsim : ∀ s a e t, R s a → step s e t → ∃ b, astep a e b ∧ R t b) {s t : σ} {es : List ε}
    (h : Run step s es t) {a : τ} (hs : R s a) : ∃ b, Run astep a es b ∧ R t b := by
  induction h with
  | refl => exact ⟨a, .refl a, hs⟩
  | tail _ hu ih =>
    obtain ⟨b, hrun, hb⟩ := ih
    obtain ⟨c, hc, hR⟩ := hsim _ _ _ _ hb hu
    exact ⟨c, hrun.tail hc, hR⟩

/-- **Silent steps.** If every step is one of an abstract system, or has no label and changes nothing
there, a run is one of that system once its silent steps are dropped. -/
theorem reduceOption {step : σ → Option ε → σ → Prop} {astep : τ → ε → τ → Prop} {f : σ → τ}
    (hstep : ∀ s l t, step s l t →
      (∃ e, l = some e ∧ astep (f s) e (f t)) ∨ (l = none ∧ f t = f s)) {s t : σ}
    {ls : List (Option ε)} (h : Run step s ls t) : Run astep (f s) ls.reduceOption (f t) := by
  induction h with
  | refl => exact .refl _
  | tail _ hu ih =>
    rw [List.reduceOption_append]
    rcases hstep _ _ _ hu with ⟨e, rfl, he⟩ | ⟨rfl, heq⟩
    · exact ih.tail he
    · rw [heq]
      exact (List.append_nil _).symm ▸ ih

/-- What every step says of its label holds of every label of a run. -/
theorem forall_label {P : ε → Prop} (hstep : ∀ s e t, step s e t → P e) {s t : σ} {es : List ε}
    (h : Run step s es t) : ∀ e ∈ es, P e := by
  induction h with
  | refl => exact List.forall_mem_nil P
  | tail _ hu ih =>
    exact List.forall_mem_append.mpr ⟨ih, List.forall_mem_singleton.mpr (hstep _ _ _ hu)⟩

/-- **Ranking rule.** If every step lowers the rank, a run is no longer than the rank at its start. -/
theorem length_le_rank {Ranked : σ → ℕ → Prop}
    (hstep : ∀ s e t n, Ranked s n → step s e t → ∃ n' < n, Ranked t n') {s t : σ} {es : List ε}
    (h : Run step s es t) {n : ℕ} (hs : Ranked s n) : ∃ n', Ranked t n' ∧ es.length + n' ≤ n := by
  induction h with
  | refl => exact ⟨n, hs, by simp⟩
  | tail _ hu ih =>
    obtain ⟨n', hn', hle⟩ := ih
    obtain ⟨n'', hlt, hn''⟩ := hstep _ _ _ _ hn' hu
    refine ⟨n'', hn'', ?_⟩
    rw [List.length_append, List.length_singleton]
    omega

/-- If every step lowers the rank, some run goes on until no step is left. -/
theorem exists_final {Ranked : σ → ℕ → Prop}
    (hstep : ∀ s e t n, Ranked s n → step s e t → ∃ n' < n, Ranked t n') {s : σ} {n : ℕ}
    (hs : Ranked s n) : ∃ es t, Run step s es t ∧ ∀ e u, ¬ step t e u := by
  induction n using Nat.strong_induction_on generalizing s with
  | _ n ih =>
    by_cases hfinal : ∀ e u, ¬ step s e u
    · exact ⟨[], s, .refl s, hfinal⟩
    · push Not at hfinal
      obtain ⟨e, u, hu⟩ := hfinal
      obtain ⟨n', hlt, hn'⟩ := hstep s e u n hs hu
      obtain ⟨es, t, hrun, ht⟩ := ih n' hlt hn'
      exact ⟨e :: es, t, hrun.head hu, ht⟩

end Run

/-! ## Runs of a step function -/

/-- What holds of every event of a run together with the state it meets. -/
def AtEvery (step : σ → ε → σ) (P : σ → ε → Prop) (s : σ) (es : List ε) : Prop :=
  ∀ pre e post, es = pre ++ e :: post → P (pre.foldl step s) e

theorem atEvery_cons {step : σ → ε → σ} {P : σ → ε → Prop} {s : σ} {e : ε} {es : List ε} :
    AtEvery step P s (e :: es) ↔ P s e ∧ AtEvery step P (step s e) es := by
  constructor
  · intro h
    exact ⟨h [] e es rfl, fun pre e' post heq => h (e :: pre) e' post (by rw [heq]; rfl)⟩
  · rintro ⟨he, hes⟩ pre e' post heq
    cases pre with
    | nil =>
      obtain ⟨rfl, rfl⟩ := List.cons.inj heq
      exact he
    | cons a pre =>
      obtain ⟨rfl, rfl⟩ := List.cons.inj heq
      exact hes pre e' post rfl

theorem atEvery_nil {step : σ → ε → σ} {P : σ → ε → Prop} {s : σ} : AtEvery step P s [] := by
  intro pre e post heq
  simp at heq

theorem atEvery_append {step : σ → ε → σ} {P : σ → ε → Prop} {s : σ} {as bs : List ε} :
    AtEvery step P s (as ++ bs) ↔ AtEvery step P s as ∧ AtEvery step P (as.foldl step s) bs := by
  induction as generalizing s with
  | nil => simp [atEvery_nil]
  | cons a as ih => rw [List.cons_append, atEvery_cons, atEvery_cons, ih, List.foldl_cons, and_assoc]

/-- **Invariant rule for step functions.** What the start satisfies, and what every event keeps that
meets its condition, holds at the end. -/
theorem AtEvery.invariant {step : σ → ε → σ} {P : σ → ε → Prop} {Inv : σ → Prop}
    (hstep : ∀ s e, Inv s → P s e → Inv (step s e)) {s : σ} {es : List ε} (h : AtEvery step P s es)
    (hs : Inv s) : Inv (es.foldl step s) := by
  induction es generalizing s with
  | nil => exact hs
  | cons e es ih =>
    obtain ⟨he, hes⟩ := atEvery_cons.mp h
    exact ih hes (hstep s e hs he)

/-- **Equivalence along a run.** Two conditions that say the same wherever an invariant holds, one of
which keeps the invariant, say the same of whole runs. -/
theorem atEvery_congr {step : σ → ε → σ} {P Q : σ → ε → Prop} (Inv : σ → Prop)
    (hiff : ∀ s e, Inv s → (P s e ↔ Q s e)) (hstep : ∀ s e, Inv s → Q s e → Inv (step s e)) {s : σ}
    (hs : Inv s) (es : List ε) : AtEvery step P s es ↔ AtEvery step Q s es := by
  induction es generalizing s with
  | nil => exact ⟨fun _ => atEvery_nil, fun _ => atEvery_nil⟩
  | cons e es ih =>
    rw [atEvery_cons, atEvery_cons, hiff s e hs]
    exact and_congr_right fun hq => ih (hstep s e hs hq)

end Seol.Common

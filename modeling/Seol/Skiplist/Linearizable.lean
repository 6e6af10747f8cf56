import Seol.Skiplist.Threads

/-!
# Calls on a skiplist are linearizable

Reference: `skiplist/skiplist.go`. Any number of threads run `Put`, `Get` and seeks in any order of
steps, as long as what they allocate fits in the arena. The list simulates an atomic ordered map, step
by step: no thread reaches a fault or a `panic` of the source, the levels stay sorted and nested, and
every history of calls and returns is linearizable.
-/

namespace Seol

open Common

namespace Concurrent

/-! ## Matching the atomic map -/

section System

variable {ι : Type*} [DecidableEq ι]

/-- The list, whose levels link `L`, and its threads stand as the atomic map and its callers do. Two
threads never own the same node. -/
structure Matches (s : Sys ι) (L : ℕ → List ℕ) (a : AtomicState ι Call Answer (OrdMap Bytes Bytes)) :
    Prop where
  shared : Shared s.mem L a.value
  ok : ∀ i, (s.pcs i).OK s.mem L (a.phase i)
  own_inj : ∀ i j y, (s.pcs i).own = some y → (s.pcs j).own = some y → i = j

/-- A step with a legal call and with room in the arena. -/
def FitStep (step : Sys ι → Event ι → Sys ι → Prop) (s : Sys ι) (e : Event ι) (s' : Sys ι) : Prop :=
  step s e s' ∧ e.Legal ∧ Fits s.mem e.reserved

omit [DecidableEq ι] in
theorem matches_new (size : ℕ) :
    Matches (Sys.new ι size) (fun _ => []) (AtomicState.start OrdMap.empty) := by
  refine ⟨⟨?_, ?_⟩, fun i => rfl, fun i j y hy => by cases hy⟩
  · exact Skiplist.sim_new size
  · exact Towers.represents_new size

theorem Call.start_own (c : Call) : c.start.own = none := by
  cases c <;> rfl

omit [DecidableEq ι] in
theorem Call.start_ok {t : Towers} {L : ℕ → List ℕ} {c : Call} {i : ι}
    (hlegal : (Event.invoke i c).Legal) : c.start.OK t L (.pending c) := by
  cases c with
  | put key value => exact ⟨rfl, hlegal⟩
  | get key => exact ⟨rfl, fun _ => ⟨rfl, rfl⟩⟩
  | near key less allowEqual => exact ⟨rfl, fun hvalue => (Bool.false_ne_true hvalue).elim⟩

namespace Matches

variable {s s' : Sys ι} {L : ℕ → List ℕ} {a : AtomicState ι Call Answer (OrdMap Bytes Bytes)}
  (hm : Matches s L a)

include hm

/-- A thread that owns nothing is put elsewhere; shared memory stays as it is. -/
theorem update {i : ι} {pc : Pc} {ph : Phase Call Answer} (hown : pc.own = none)
    (hok : pc.OK s.mem L ph) :
    Matches { s with pcs := Function.update s.pcs i pc } L
      { a with phase := Function.update a.phase i ph } := by
  -- the thread that moves owns no node, so no two threads own one
  refine ⟨hm.shared, fun j => ?_, fun j l y hj hl => ?_⟩
  · by_cases hji : j = i
    · subst hji
      simp only [Function.update_self]
      exact hok
    · simp only [Function.update_of_ne hji]
      exact hm.ok j
  · by_cases hji : j = i
    · subst hji
      simp only [Function.update_self, hown] at hj
      cases hj
    · by_cases hli : l = i
      · subst hli
        simp only [Function.update_self, hown] at hl
        cases hl
      · simp only [Function.update_of_ne hji] at hj
        simp only [Function.update_of_ne hli] at hl
        exact hm.own_inj j l y hj hl

omit [DecidableEq ι] in
/-- What a step of thread `i` may touch is owned by no other thread. -/
theorem own_ne {i j : ι} (hji : j ≠ i) : (s.pcs j).own ≠ some ((s.pcs i).own.getD 0) := by
  intro hown
  cases hi : (s.pcs i).own with
  | none =>
    rw [hi] at hown
    exact ((hm.ok j).own_spec hown).1 rfl
  | some y =>
    rw [hi] at hown
    exact hji (hm.own_inj j i y hown hi)

/-- **A step of a thread** is matched by the instant at which its call takes effect, or by nothing. -/
theorem thread_step {i : ι} {draw : ℕ} (hpos : 0 < draw) (hle : draw ≤ maxHeight)
    (hfits : Fits s.mem ((s.pcs i).reserved draw)) :
    ∃ b L', (b = a ∨ AtomicStep apply a (.commit i) b) ∧
      Matches ⟨((s.pcs i).step draw s.mem).1,
        Function.update s.pcs i ((s.pcs i).step draw s.mem).2⟩ L' b := by
  obtain ⟨L', m', ph', hstep⟩ := (hm.ok i).advances hm.shared hpos hle hfits
  have hmatch : Matches ⟨((s.pcs i).step draw s.mem).1,
      Function.update s.pcs i ((s.pcs i).step draw s.mem).2⟩ L'
      ⟨m', Function.update a.phase i ph'⟩ := by
    -- a node that the thread has just allocated lies beyond those that others own
    have hfresh : ∀ j y, j ≠ i → (s.pcs j).own = some y →
        ((s.pcs i).step draw s.mem).2.own ≠ some y := by
      intro j y hji hj hi
      rcases hstep.own y hi with hold | hnew
      · exact hji (hm.own_inj j i y hj hold)
      · exact absurd ((hm.ok j).own_spec hj).2.2 (not_lt.mpr hnew)
    refine ⟨hstep.shared, fun j => ?_, fun j l y hj hl => ?_⟩
    · by_cases hji : j = i
      · subst hji
        simp only [Function.update_self]
        exact hstep.ok
      · simp only [Function.update_of_ne hji]
        exact (hm.ok j).stable hstep.rely hm.shared (hm.own_ne hji)
    · by_cases hji : j = i
      · by_cases hli : l = i
        · exact hji.trans hli.symm
        · simp only [hji, Function.update_self] at hj
          simp only [Function.update_of_ne hli] at hl
          exact absurd hj (hfresh l y hli hl)
      · simp only [Function.update_of_ne hji] at hj
        by_cases hli : l = i
        · simp only [hli, Function.update_self] at hl
          exact absurd hl (hfresh j y hji hj)
        · simp only [Function.update_of_ne hli] at hl
          exact hm.own_inj j l y hj hl
  rcases hstep.effect with ⟨rfl, rfl⟩ | ⟨c, hc, rfl, rfl⟩
  · rw [Function.update_eq_self] at hmatch
    exact ⟨a, L', Or.inl rfl, hmatch⟩
  · exact ⟨_, L', Or.inr (.commit i c hc), hmatch⟩

/-- **Every step is matched** by steps of the atomic map that show the same. -/
theorem step {e : Event ι} (hstep : FitStep Step s e s') :
    ∃ bs b, Run (AtomicStep apply) a bs b ∧ bs.flatMap AtomicEvent.seen = e.seen ∧
      ∃ L', Matches s' L' b := by
  obtain ⟨hstep, hlegal, hfits⟩ := hstep
  cases hstep with
  | invoke i c hidle =>
    -- the thread is idle in both systems
    have hphase : a.phase i = .idle := by
      have hok := hm.ok i
      rw [hidle] at hok
      exact hok
    exact ⟨[.client (.invoke i c)], _, .single (.invoke i c hphase), rfl, L,
      hm.update c.start_own (Call.start_ok hlegal)⟩
  | ret i r hret =>
    have hphase : a.phase i = .done r := by
      have hok := hm.ok i
      rw [hret] at hok
      exact hok
    exact ⟨[.client (.ret i r)], _, .single (.ret i r hphase), rfl, L, hm.update rfl rfl⟩
  | step i draw hpos hle =>
    obtain ⟨b, L', hb, hm'⟩ := hm.thread_step hpos hle hfits
    -- a step takes effect on the map at its commit, and is invisible otherwise
    rcases hb with rfl | hcommit
    · exact ⟨[], b, .refl b, rfl, L', hm'⟩
    · exact ⟨[.commit i], b, .single hcommit, rfl, L', hm'⟩

end Matches

/-! ## Room in the arena -/

theorem store_arena {t t' : Towers} {o level next : ℕ} (h : t.store o level next = .ok t') :
    t'.arena = t.arena := by
  obtain ⟨-, -, hset⟩ := bind_eq_ok.mp h
  cases hset
  rfl

theorem casNextOffset_arena {t t' : Towers} {o level old next : ℕ}
    (h : t.casNextOffset o level old next = .ok (some t')) : t'.arena = t.arena := by
  obtain ⟨n, -, hcas⟩ := bind_eq_ok.mp h
  split_ifs at hcas with hn
  · obtain ⟨t₁, hstore, hsome⟩ := bind_eq_ok.mp hcas
    cases hsome
    exact store_arena hstore
  · cases hcas

theorem orFault_arena {α : Type} {t : Towers} {r : Except SkipFault α} {k : α → Towers × Pc}
    (hk : ∀ a, r = .ok a → (k a).1.arena = t.arena) : (orFault t r k).1.arena = t.arena := by
  cases r with
  | error => rfl
  | ok a => exact hk a rfl

/-- A step takes from the arena the bytes it reserves. -/
theorem Pc.step_arena (pc : Pc) (draw : ℕ) {t : Towers}
    (hwrap : t.arena.n + pc.reserved draw < 2 ^ 32) :
    (pc.step draw t).1.arena.n = t.arena.n + pc.reserved draw ∧
      (pc.step draw t).1.arena.size = t.arena.size := by
  have hsame : (pc.step draw t).1.arena = t.arena → pc.reserved draw = 0 →
      (pc.step draw t).1.arena.n = t.arena.n + pc.reserved draw ∧
        (pc.step draw t).1.arena.size = t.arena.size := by
    intro harena hzero
    rw [harena, hzero]
    exact ⟨rfl, rfl⟩
  -- four steps reserve bytes; the others leave the arena as it is
  cases pc with
  | putNode f => exact ⟨Arena.bump_of_lt hwrap, rfl⟩
  | putKey f => exact ⟨Arena.bump_of_lt hwrap, rfl⟩
  | putVal f keyOffset => exact ⟨Arena.bump_of_lt hwrap, rfl⟩
  | copyValue o value => exact ⟨Arena.bump_of_lt hwrap, rfl⟩
  | descend f i before =>
    refine hsame (orFault_arena fun a _ => ?_) rfl
    rcases a with next | ⟨p, n⟩
    · rfl
    · dsimp only
      split_ifs <;> rfl
  | missing f i before =>
    refine hsame (orFault_arena fun a _ => ?_) rfl
    rcases a with next | ⟨p, n⟩
    · rfl
    · dsimp only
      split_ifs <;> rfl
  | retry f i before =>
    refine hsame (orFault_arena fun a _ => ?_) rfl
    rcases a with next | ⟨p, n⟩
    · rfl
    · dsimp only
      split_ifs <;> rfl
  | store f i => exact hsame (orFault_arena fun t' ht' => store_arena ht') rfl
  | cas f i =>
    refine hsame (orFault_arena fun r hr => ?_) rfl
    cases r with
    | none => rfl
    | some t' => exact casNextOffset_arena hr
  | getHeight f =>
    refine hsame ?_ rfl
    rw [Pc.step]
    split_ifs <;> rfl
  | casHeight f listHeight =>
    refine hsame ?_ rfl
    rw [Pc.step]
    split_ifs <;> rfl
  | find q x level => exact hsame (orFault_arena fun next _ => rfl) rfl
  | findNext q o => exact hsame (orFault_arena fun next _ => rfl) rfl
  | _ => exact hsame rfl rfl

/-- **A run that fits in the arena** has room at each of its steps. -/
theorem run_fits {step : Sys ι → Event ι → Sys ι → Prop} (hsub : ∀ s e s', step s e s' → Step s e s')
    {es : List (Event ι)} {s s' : Sys ι} (hrun : Run step s es s') (hlegal : ∀ e ∈ es, e.Legal)
    (hin : s.mem.arena.n + allocated es ≤ s.mem.arena.size)
    (hwrap : s.mem.arena.n + allocated es < 2 ^ 32) :
    Run (FitStep step) s es s' ∧ s'.mem.arena.n = s.mem.arena.n + allocated es ∧
      s'.mem.arena.size = s.mem.arena.size := by
  induction hrun with
  | refl => exact ⟨.refl _, rfl, rfl⟩
  | @tail u w es e hrun hstep ih =>
    have hsum : allocated (es ++ [e]) = allocated es + e.reserved := by simp [allocated]
    rw [hsum, ← Nat.add_assoc] at hin hwrap
    rw [List.forall_mem_append, List.forall_mem_singleton] at hlegal
    -- the bytes reserved before this step are those of the events before it
    obtain ⟨hfit, hn, hsize⟩ := ih hlegal.1 (by omega) (by omega)
    have hfits : Fits u.mem e.reserved := ⟨by rw [hn, hsize]; exact hin, by rw [hn]; exact hwrap⟩
    refine ⟨hfit.tail ⟨hstep, hlegal.2, hfits⟩, ?_⟩
    rw [hsum, ← Nat.add_assoc, ← hn]
    cases hsub _ _ _ hstep with
    | invoke i c => exact ⟨rfl, hsize⟩
    | ret i a => exact ⟨rfl, hsize⟩
    | step i draw =>
      obtain ⟨hn', hsize'⟩ := (u.pcs i).step_arena draw hfits.no_wrap
      exact ⟨hn', hsize'.trans hsize⟩

/-- A run that fits matches a run of the atomic map that shows the same. -/
theorem run_matches {size : ℕ} {es : List (Event ι)} {s : Sys ι}
    (hrun : Run Step (Sys.new ι size) es s) (hlegal : ∀ e ∈ es, e.Legal)
    (hin : (Towers.new size).arena.n + allocated es ≤ size)
    (hwrap : (Towers.new size).arena.n + allocated es < 2 ^ 32) :
    ∃ bs a, Run (AtomicStep apply) (AtomicState.start OrdMap.empty) bs a ∧
      bs.flatMap AtomicEvent.seen = es.flatMap Event.seen ∧ ∃ L, Matches s L a := by
  obtain ⟨hfit, -⟩ := run_fits (fun _ _ _ hstep => hstep) hrun hlegal hin hwrap
  refine hfit.simulate_seen (R := fun s a => ∃ L, Matches s L a) ?_ ⟨_, matches_new size⟩
  rintro s a e s' ⟨L, hm⟩ hstep
  exact hm.step hstep

/-- **No interleaving reaches a fault.** Let the keys fit the 16-bit size field and all allocations the
arena, below `2 ^ 32`. Then whatever the order of the steps of any number of threads, no thread follows
a nil node, touches a slot beyond a tower or panics, and the slots link sorted and nested levels. -/
theorem interleaving_safe {size : ℕ} {es : List (Event ι)} {s : Sys ι}
    (hrun : Run Step (Sys.new ι size) es s) (hlegal : ∀ e ∈ es, e.Legal)
    (hin : (Towers.new size).arena.n + allocated es ≤ size)
    (hwrap : (Towers.new size).arena.n + allocated es < 2 ^ 32) :
    (∀ i f, s.pcs i ≠ .fault f) ∧ ∃ levels, s.mem.Ordered levels := by
  obtain ⟨bs, a, -, -, L, hm⟩ := run_matches hrun hlegal hin hwrap
  refine ⟨fun i f hfault => ?_, L, hm.shared.rep.ordered hm.shared.sim.toLinked⟩
  have hok := hm.ok i
  rw [hfault] at hok
  exact hok

/-- **The skiplist is linearizable.** Under the same conditions, whatever the order of the steps of any
number of threads, each call of `Put`, `Get` and the seeks can be given an instant between its start
and its return at which an ordered map would have given the same answer. -/
theorem skiplist_linearizable {size : ℕ} {es : List (Event ι)} {s : Sys ι}
    (hrun : Run Step (Sys.new ι size) es s) (hlegal : ∀ e ∈ es, e.Legal)
    (hin : (Towers.new size).arena.n + allocated es ≤ size)
    (hwrap : (Towers.new size).arena.n + allocated es < 2 ^ 32) :
    Linearizable apply OrdMap.empty (es.flatMap Event.seen) := by
  obtain ⟨bs, a, hrun', hseen, -⟩ := run_matches hrun hlegal hin hwrap
  exact ⟨bs, a, hrun', hseen⟩

/-! ## A schedule -/

theorem Sys.step_of_move {s s' : Sys ι} {e : Event ι} {mv : Move ι}
    (h : s.move mv = some (e, s')) : Step s e s' := by
  cases mv with
  | call i c =>
    cases hpc : s.pcs i <;> simp only [Sys.move, hpc] at h <;> cases h
    exact .invoke i c hpc
  | ret i =>
    cases hpc : s.pcs i <;> simp only [Sys.move, hpc] at h <;> cases h
    exact .ret i _ hpc
  -- the moves are the steps that `decide` can run
  | step i draw =>
    rw [Sys.move] at h
    split_ifs at h with hdraw
    cases h
    exact .step i draw hdraw.1 hdraw.2

/-- What a scheduler does is a run. -/
theorem Sys.run_of_play {s s' : Sys ι} {mvs : List (Move ι)} {es : List (Event ι)}
    (h : s.play mvs = some (es, s')) : Run Step s es s' := by
  induction mvs generalizing s es with
  | nil =>
    cases h
    exact .refl _
  | cons mv mvs ih =>
    obtain ⟨⟨e, s₁⟩, hmove, h⟩ := Option.bind_eq_some_iff.mp h
    obtain ⟨⟨es₁, s₂⟩, hplay, h⟩ := Option.bind_eq_some_iff.mp h
    cases h
    exact .head (Sys.step_of_move hmove) (ih hplay)

end System

/-- Two threads put the same key at the same time: both find no such key, the first one links its
node, the swap of the second fails, and it overwrites the value. -/
def twoPuts : List (Move Bool) :=
  List.flatten [[.call false (.put [1] [2]), .call true (.put [1] [3])],
    (List.replicate 7 [.step false 1, .step true 1]).flatten, [.step false 1, .ret false],
    List.replicate 4 (.step true 1), [.ret true, .call false (.get [1])],
    List.replicate 3 (.step false 1), [.ret false]]

/-- What their callers see. -/
def twoPutsHistory : List (ClientEvent Bool Call Answer) :=
  [.invoke false (.put [1] [2]), .invoke true (.put [1] [3]), .ret false .done, .ret true .done,
    .invoke false (.get [1]), .ret false (.value (some [3]))]

theorem twoPuts_run :
    ∃ es s, Run Step (Sys.new Bool 1024) es s ∧ es.flatMap Event.seen = twoPutsHistory ∧
      allocated es = 59 ∧ ∀ e ∈ es, e.Legal := by
  have hplay : ((Sys.new Bool 1024).play twoPuts).map (fun r =>
      decide (r.1.flatMap Event.seen = twoPutsHistory ∧ allocated r.1 = 59 ∧ ∀ e ∈ r.1, e.Legal)) =
      some true := by
    decide +kernel
  obtain ⟨⟨es, s⟩, hes, hdec⟩ := Option.map_eq_some_iff.mp hplay
  exact ⟨es, s, Sys.run_of_play hes, of_decide_eq_true hdec⟩

theorem interleaving_safe_twoPuts :
    ∃ es s, Run Step (Sys.new Bool 1024) es s ∧ es.flatMap Event.seen = twoPutsHistory ∧
      (∀ i f, s.pcs i ≠ .fault f) ∧ ∃ levels, s.mem.Ordered levels := by
  obtain ⟨es, s, hrun, hseen, hlen, hlegal⟩ := twoPuts_run
  exact ⟨es, s, hrun, hseen,
    interleaving_safe hrun hlegal (by rw [hlen]; decide) (by rw [hlen]; decide)⟩

theorem skiplist_linearizable_twoPuts : Linearizable apply OrdMap.empty twoPutsHistory := by
  obtain ⟨es, s, hrun, hseen, hlen, hlegal⟩ := twoPuts_run
  rw [← hseen]
  exact skiplist_linearizable hrun hlegal (by rw [hlen]; decide) (by rw [hlen]; decide)

end Concurrent

end Seol

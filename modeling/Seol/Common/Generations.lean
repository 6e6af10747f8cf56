import Seol.Common.PartialMap

/-!
# Generations of writes over a table

A store keeps its recent writes in generations, each with its own log, over a map of the older ones
(the table). A generation is moved into the table by reading it over the table; its log is dropped
afterwards, record by record from the front. `Generations.view` is what the store answers and
`Generations.recovered` what is rebuilt from the logs that are still there. The two agree as long as
what is left of a dropped log says nothing new (`Generations.Safe`).
-/

namespace Seol.Common

variable {K E : Type*} [DecidableEq K]

variable (K E) in
/-- The layers of a store, oldest generation first: generations that could not be moved into the table,
what is left of the log of one that was, the ones still waiting, and the one being written. -/
structure Generations where
  stuck : List (K × E)
  leftover : List (K × E)
  waiting : List (List (K × E))
  current : List (K × E)
  table : K → Option E

namespace Generations

/-- What the store answers. -/
def view (g : Generations K E) : K → Option E :=
  overlay (lastOf (g.stuck ++ (g.waiting.flatten ++ g.current))) g.table

/-- What is rebuilt from the logs. -/
def recovered (g : Generations K E) : K → Option E :=
  overlay (lastOf (g.stuck ++ (g.leftover ++ (g.waiting.flatten ++ g.current)))) g.table

/-- What is left of a dropped log is in the table, and nothing older is bound to the same keys. -/
structure Safe (g : Generations K E) : Prop where
  absorbed : Absorbs g.table (lastOf g.leftover)
  apart : DisjointMaps (lastOf g.stuck) (lastOf g.leftover)

variable {g : Generations K E}

/-- **Recovery rebuilds the view.** -/
theorem Safe.recovered_eq (h : g.Safe) : g.recovered = g.view := by
  unfold recovered view
  simp only [lastOf_append, overlay_assoc]
  -- the leftover records commute with the stuck ones and are absorbed by the table
  rw [← overlay_assoc (lastOf g.leftover), ← overlay_comm_of_disjoint h.apart, overlay_assoc,
    h.absorbed.overlay_eq]

/-- A write goes over the view. -/
theorem view_write (ws : List (K × E)) :
    { g with current := g.current ++ ws }.view = overlay (lastOf ws) g.view := by
  unfold view
  rw [← List.append_assoc, ← List.append_assoc, lastOf_append, overlay_assoc, List.append_assoc]

/-- What the store answers below the generation being written. -/
def below (g : Generations K E) : K → Option E := { g with current := [] }.view

theorem view_eq_overlay_below (g : Generations K E) : g.view = overlay (lastOf g.current) g.below :=
  view_write (g := { g with current := [] }) g.current

/-- Closing the current generation changes nothing. -/
theorem view_rotate :
    { g with waiting := g.waiting ++ [g.current], current := [] }.view = g.view := by
  simp [view]

/-- A generation that cannot be moved stays where it is in the order. -/
theorem view_stick {ws : List (K × E)} {rest : List (List (K × E))} (hw : g.waiting = ws :: rest) :
    { g with stuck := g.stuck ++ ws, waiting := rest }.view = g.view := by
  simp [view, hw]

theorem Safe.stick (hleft : g.leftover = []) (ws : List (K × E)) (rest : List (List (K × E))) :
    { g with stuck := g.stuck ++ ws, waiting := rest }.Safe := by
  refine ⟨?_, ?_⟩
  · simpa [hleft] using absorbs_none g.table
  · intro k
    simp [hleft]

/-- **Moving the oldest waiting generation into the table keeps the view** if no stuck generation has
one of its keys. -/
theorem view_install {ws : List (K × E)} {rest : List (List (K × E))} (hw : g.waiting = ws :: rest)
    (hapart : DisjointMaps (lastOf g.stuck) (lastOf ws)) :
    { g with leftover := ws, waiting := rest, table := overlay (lastOf ws) g.table }.view =
      g.view := by
  unfold view
  simp only [hw, List.flatten_cons, lastOf_append, overlay_assoc]
  rw [← overlay_assoc (lastOf ws), ← overlay_assoc (lastOf g.stuck),
    overlay_comm_of_disjoint hapart]

theorem Safe.install {ws : List (K × E)} (hapart : DisjointMaps (lastOf g.stuck) (lastOf ws))
    (rest : List (List (K × E))) :
    { g with leftover := ws, waiting := rest, table := overlay (lastOf ws) g.table }.Safe :=
  ⟨absorbs_overlay_self _ _, hapart⟩

/-- Dropping records from the front of the leftover log keeps it safe. -/
theorem Safe.drop {as bs : List (K × E)} (h : g.Safe) (hleft : g.leftover = as ++ bs) :
    { g with leftover := bs }.Safe := by
  have habsorbed := h.absorbed
  have hapart := h.apart
  rw [hleft] at habsorbed hapart
  refine ⟨habsorbed.suffix, fun k => ?_⟩
  rcases hapart k with hk | hk
  · exact Or.inl hk
  · rw [lastOf_append, overlay_apply, Option.or_eq_none_iff] at hk
    exact Or.inr hk.1

end Generations

end Seol.Common

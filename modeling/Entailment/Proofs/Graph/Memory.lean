import Entailment.Proofs.Graph.Membership

/-!
# Memory graphs and what is visible

A memory graph that was built up from nothing holds ground triples only, and its
operations fail for no reason but a triple that is not ground.  Seen together with a
graph of deductions it shows every triple of either graph once.
-/

namespace Entailment

namespace MemoryGraph

/-- What comes from the empty graph by adding and deleting triples. -/
inductive Reachable : MemoryGraph → Prop where
  | empty : Reachable .empty
  | add {g g' : MemoryGraph} {t : Triple} {added : Bool} :
      Reachable g → g.add t = .ok (added, g') → Reachable g'
  | delete {g g' : MemoryGraph} {t : Triple} {removed : Bool} :
      Reachable g → g.delete t = .ok (removed, g') → Reachable g'

structure Sound (g : MemoryGraph) : Prop where
  index : g.index.Sound
  isGround : ∀ t, g.contains t = true → t.isGround = true

/-- The graph after an addition; one that is refused changes nothing. -/
def plus (g : MemoryGraph) (t : Triple) : MemoryGraph :=
  match g.add t with
  | .ok (_, g) => g
  | .error _ => g

def minus (g : MemoryGraph) (t : Triple) : MemoryGraph :=
  match g.delete t with
  | .ok (_, g) => g
  | .error _ => g

theorem contains_congr (g : MemoryGraph) {t u : Triple} (h : (t == u) = true) :
    g.contains t = g.contains u :=
  g.index.contains_congr h

theorem contains_empty (t : Triple) : MemoryGraph.empty.contains t = false := rfl

theorem sound_empty : MemoryGraph.empty.Sound :=
  ⟨TripleIndex.sound_empty, fun _ h => by cases h⟩

theorem add_of_not_ground {g : MemoryGraph} {t : Triple} (h : t.isGround = false) :
    g.add t = .error (.invalidTriple t) := by
  rw [add, h]
  rfl

theorem isGround_of_add {g g' : MemoryGraph} {t : Triple} {added : Bool}
    (h : g.add t = .ok (added, g')) : t.isGround = true := by
  cases hground : t.isGround with
  | true => rfl
  | false =>
    rw [add_of_not_ground hground] at h
    cases h

theorem add_of_insert {g : MemoryGraph} {t : Triple} {added : Bool} {index : TripleIndex}
    (hground : t.isGround = true) (h : g.index.insert t = .ok (added, index)) :
    g.add t = .ok (added, ⟨index⟩) := by
  rw [add, hground, h]
  rfl

theorem delete_of_remove {g : MemoryGraph} {t : Triple} {removed : Bool} {index : TripleIndex}
    (h : g.index.remove t = .ok (removed, index)) : g.delete t = .ok (removed, ⟨index⟩) := by
  rw [delete, h]
  rfl

namespace Sound

variable {g : MemoryGraph}

theorem add_eq (hg : g.Sound) {t : Triple} (hground : t.isGround = true) :
    g.add t = .ok (!g.contains t, g.plus t) := by
  obtain ⟨index, hinsert, _⟩ := hg.index.insert_eq t
  rw [plus, add_of_insert hground hinsert]
  rfl

theorem delete_eq (hg : g.Sound) (t : Triple) :
    g.delete t = .ok (g.contains t, g.minus t) := by
  obtain ⟨index, hremove, _⟩ := hg.index.remove_eq t
  rw [minus, delete_of_remove hremove]
  rfl

theorem contains_plus (hg : g.Sound) {t : Triple} (hground : t.isGround = true) (u : Triple) :
    (g.plus t).contains u = (g.contains u || t == u) := by
  obtain ⟨index, hinsert, _, hcontains⟩ := hg.index.insert_eq t
  rw [plus, add_of_insert hground hinsert]
  exact hcontains u

theorem contains_minus (hg : g.Sound) (t u : Triple) :
    (g.minus t).contains u = (g.contains u && !(t == u)) := by
  obtain ⟨index, hremove, _, hcontains⟩ := hg.index.remove_eq t
  rw [minus, delete_of_remove hremove]
  exact hcontains u

theorem plus (hg : g.Sound) {t : Triple} (hground : t.isGround = true) : (g.plus t).Sound := by
  refine ⟨?_, ?_⟩
  · obtain ⟨index, hinsert, hindex, _⟩ := hg.index.insert_eq t
    rw [MemoryGraph.plus, add_of_insert hground hinsert]
    exact hindex
  · intro u hu
    rw [hg.contains_plus hground, Bool.or_eq_true] at hu
    rcases hu with hu | same
    · exact hg.isGround u hu
    · rw [← Triple.isGround_congr same]
      exact hground

theorem minus (hg : g.Sound) (t : Triple) : (g.minus t).Sound := by
  refine ⟨?_, ?_⟩
  · obtain ⟨index, hremove, hindex, _⟩ := hg.index.remove_eq t
    rw [MemoryGraph.minus, delete_of_remove hremove]
    exact hindex
  · intro u hu
    rw [hg.contains_minus, Bool.and_eq_true] at hu
    exact hg.isGround u hu.1

theorem any_triples (hg : g.Sound) (t : Triple) : g.triples.any (· == t) = g.contains t :=
  hg.index.agreeing.any_find_any t

/-- A graph holds at least as many triples as a list of different ones that it holds. -/
theorem length_le_size (hg : g.Sound) {ts : List Triple} (hdistinct : Distinct ts)
    (hheld : ∀ t ∈ ts, g.contains t = true) : ts.length ≤ g.size := by
  rw [size, hg.index.size_eq]
  apply length_le_of_covered hdistinct
  intro t ht
  rw [hg.index.agreeing.any_find_any]
  exact hheld t ht

theorem size_minus_lt (hg : g.Sound) {t : Triple} (held : g.contains t = true) :
    (g.minus t).size < g.size := by
  have hdistinct := TripleIndex.distinct_find (g.minus t).index .any
  have hsize := (hg.minus t).index.size_eq
  have habsent : ((g.minus t).triples).any (· == t) = false := by
    rw [(hg.minus t).any_triples, hg.contains_minus, BEq.rfl]
    simp
  have hle := hg.length_le_size (hdistinct.push habsent) (fun u hu => by
    rcases List.mem_append.1 hu with hu | hu
    · have heldU := ((hg.minus t).index.agreeing.mem_find hu).1
      change (g.minus t).contains u = true at heldU
      rw [hg.contains_minus, Bool.and_eq_true] at heldU
      exact heldU.1
    · rw [List.mem_singleton.1 hu]
      exact held)
  rw [List.length_append, ← hsize] at hle
  exact hle

theorem size_minus_le (hg : g.Sound) (t : Triple) : (g.minus t).size ≤ g.size := by
  have hdistinct := TripleIndex.distinct_find (g.minus t).index .any
  have hsize := (hg.minus t).index.size_eq
  have hle := hg.length_le_size hdistinct (fun u hu => by
    have heldU := ((hg.minus t).index.agreeing.mem_find hu).1
    change (g.minus t).contains u = true at heldU
    rw [hg.contains_minus, Bool.and_eq_true] at heldU
    exact heldU.1)
  rw [← hsize] at hle
  exact hle

end Sound

theorem Reachable.sound {g : MemoryGraph} (hg : g.Reachable) : g.Sound := by
  induction hg with
  | empty => exact sound_empty
  | @add g g' t added _ hadd ih =>
    have hground := isGround_of_add hadd
    rw [ih.add_eq hground] at hadd
    cases hadd
    exact ih.plus hground
  | @delete g g' t removed _ hdelete ih =>
    rw [ih.delete_eq] at hdelete
    cases hdelete
    exact ih.minus t

end MemoryGraph

namespace View

/-- Both graphs of the view are sound. -/
structure Sound (v : View MemoryGraph) : Prop where
  base : v.base.Sound
  deductions : v.deductions.Sound

def sees (v : View MemoryGraph) (t : Triple) : Bool := v.base.contains t || v.deductions.contains t

/-- What the view shows of a pattern. -/
def visible (v : View MemoryGraph) (p : TriplePattern) : List Triple :=
  (OrderedSet.ofList (v.base.find p ++ v.deductions.find p)).members

theorem contains_eq (v : View MemoryGraph) (t : Triple) : v.contains t = .ok (v.sees t) := by
  unfold contains sees
  change (if v.base.contains t = true then (.ok true : Except GraphError Bool) else
    .ok (v.deductions.contains t)) = _
  cases v.base.contains t <;> rfl

theorem find_eq (v : View MemoryGraph) (p : TriplePattern) : v.find p = .ok (v.visible p) := rfl

theorem sees_congr (v : View MemoryGraph) {t u : Triple} (h : (t == u) = true) :
    v.sees t = v.sees u := by
  rw [sees, sees, v.base.contains_congr h, v.deductions.contains_congr h]

variable {v : View MemoryGraph}

theorem Sound.isGround (hv : v.Sound) {t : Triple} (h : v.sees t = true) : t.isGround = true := by
  rw [sees, Bool.or_eq_true] at h
  rcases h with h | h
  · exact hv.base.isGround t h
  · exact hv.deductions.isGround t h

theorem Sound.mem_visible (hv : v.Sound) {p : TriplePattern} {t : Triple}
    (h : t ∈ v.visible p) : v.sees t = true ∧ p.accepts t = true := by
  rw [sees, Bool.or_eq_true]
  rcases List.mem_append.1 (OrderedSet.mem_ofList h) with h | h
  · obtain ⟨held, haccepts⟩ := hv.base.index.agreeing.mem_find h
    exact ⟨Or.inl held, haccepts⟩
  · obtain ⟨held, haccepts⟩ := hv.deductions.index.agreeing.mem_find h
    exact ⟨Or.inr held, haccepts⟩

theorem Sound.exists_mem_visible (hv : v.Sound) {p : TriplePattern} {t : Triple}
    (h : v.sees t = true) (haccepts : p.accepts t = true) :
    ∃ u ∈ v.visible p, (u == t) = true := by
  apply OrderedSet.contains_iff.1
  rw [OrderedSet.contains_ofList, List.any_append]
  have hbase := hv.base.index.agreeing.any_find p t
  have hdeductions := hv.deductions.index.agreeing.any_find p t
  rw [haccepts, Bool.and_true] at hbase hdeductions
  exact (congrArg₂ (· || ·) hbase hdeductions).trans h

end View

end Entailment

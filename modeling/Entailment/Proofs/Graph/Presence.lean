import Entailment.Proofs.Graph.Memory
import Entailment.Proofs.Graph.Refinement

/-!
# Two tests for presence

A graph can be asked whether it stores a triple, and it can be searched with the triple's
own pattern.  The first answer is exact after every history of additions, deletions and
clearings.  The second one is that of the ground nodes of the triple alone: the two agree
on ground triples, and on another one exactly when no stored triple has its ground nodes.
-/

namespace Entailment

theorem TriplePattern.allows_fixing_of_ground {n : Node} (h : n.isGround = true) (m : Node) :
    allows (fixing n) m = (n == m) := by
  rw [fixing, if_pos h]
  rfl

/-- The pattern of a ground triple accepts that triple only. -/
theorem TriplePattern.accepts_ofTriple_of_ground {t : Triple} (h : t.isGround = true)
    (u : Triple) : (ofTriple t).accepts u = (t == u) := by
  rw [Triple.isGround, Bool.and_eq_true, Bool.and_eq_true] at h
  obtain ⟨⟨hs, hp⟩, ho⟩ := h
  rw [accepts, ofTriple, allows_fixing_of_ground hs, allows_fixing_of_ground hp,
    allows_fixing_of_ground ho]
  rfl

/-- A search comes back empty if and only if the pattern accepts nothing that is stored. -/
theorem TripleIndex.Describes.isEmpty_find {index : TripleIndex} {stored : OrderedSet Triple}
    (h : index.Describes stored) (p : TriplePattern) :
    (!(index.find p).isEmpty) = stored.members.any p.accepts := by
  rw [Bool.eq_iff_iff, Bool.not_eq_true', List.any_eq_true]
  constructor
  · intro hfilled
    obtain ⟨t, rest, hfind⟩ := List.exists_cons_of_ne_nil
      (List.isEmpty_eq_false_iff.1 hfilled)
    have hany := h.any_find p t
    rw [hfind, List.any_cons, BEq.rfl, Bool.true_or, eq_comm, Bool.and_eq_true] at hany
    obtain ⟨u, hu, hsame⟩ := OrderedSet.contains_iff.1 hany.1
    exact ⟨u, hu, (p.accepts_congr hsame).trans hany.2⟩
  · rintro ⟨u, hu, haccepts⟩
    have hany := h.any_find p u
    rw [OrderedSet.contains_of_mem hu, haccepts, Bool.and_true] at hany
    cases hfind : index.find p with
    | nil =>
      rw [hfind] at hany
      cases hany
    | cons t rest => rfl

/-! ## Histories -/

/-- A graph takes in ground triples only. -/
def IndexRequest.isHeeded : IndexRequest → Bool
  | .insert t => t.isGround
  | .remove _ | .clear => true

/-- The set to which the same was done as to a graph. -/
def IndexRequest.storedAfter (rs : List IndexRequest) : OrderedSet Triple :=
  (rs.filter isHeeded).foldl effect .empty

namespace MemoryGraph

/-- The graph after what it is asked to do; an addition that is refused changes nothing. -/
def after (g : MemoryGraph) : IndexRequest → MemoryGraph
  | .insert t => g.plus t
  | .remove t => g.minus t
  | .clear => .empty

def ofRequests (rs : List IndexRequest) : MemoryGraph := rs.foldl after .empty

/-- A graph does what is asked of it as its index would, but for what it refuses. -/
theorem mirrors_after {g : MemoryGraph} {stored : OrderedSet Triple}
    (h : IndexRequest.Mirrors g.index stored) (r : IndexRequest) :
    IndexRequest.Mirrors (g.after r).index
      (if r.isHeeded then r.effect stored else stored) := by
  obtain ⟨index, hperform, hmirrors⟩ := h.perform r
  cases r with
  | insert t =>
    cases hground : t.isGround with
    | false =>
      rw [after, plus, add_of_not_ground hground, IndexRequest.isHeeded, hground]
      exact h
    | true =>
      obtain ⟨index', hinsert, _⟩ := h.sound.insert_eq t
      rw [IndexRequest.perform, hinsert] at hperform
      obtain rfl : index' = index := congrArg Prod.snd (Except.ok.inj hperform)
      rw [after, plus, add_of_insert hground hinsert, IndexRequest.isHeeded, hground]
      exact hmirrors
  | remove t =>
    obtain ⟨index', hremove, _⟩ := h.sound.remove_eq t
    rw [IndexRequest.perform, hremove] at hperform
    obtain rfl : index' = index := congrArg Prod.snd (Except.ok.inj hperform)
    rw [after, minus, delete_of_remove hremove]
    exact hmirrors
  | clear => exact IndexRequest.mirrors_empty

theorem mirrors_foldl_after {g : MemoryGraph} {stored : OrderedSet Triple}
    (h : IndexRequest.Mirrors g.index stored) (rs : List IndexRequest) :
    IndexRequest.Mirrors (rs.foldl after g).index
      ((rs.filter IndexRequest.isHeeded).foldl IndexRequest.effect stored) := by
  induction rs generalizing g stored with
  | nil => exact h
  | cons r rs ih =>
    have hstep := mirrors_after h r
    rw [List.foldl_cons, List.filter_cons]
    cases hheeded : r.isHeeded with
    | true =>
      rw [hheeded] at hstep
      exact ih hstep
    | false =>
      rw [hheeded] at hstep
      exact ih hstep

theorem describes_ofRequests (rs : List IndexRequest) :
    (ofRequests rs).index.Describes (IndexRequest.storedAfter rs) := by
  have hmirrors := mirrors_foldl_after (g := .empty) IndexRequest.mirrors_empty rs
  exact hmirrors.sound.describes hmirrors.filled hmirrors.contains_eq

theorem Sound.after {g : MemoryGraph} (hg : g.Sound) (r : IndexRequest) : (g.after r).Sound := by
  cases r with
  | insert t =>
    cases hground : t.isGround with
    | false =>
      rw [MemoryGraph.after, MemoryGraph.plus, add_of_not_ground hground]
      exact hg
    | true => exact hg.plus hground
  | remove t => exact hg.minus t
  | clear => exact sound_empty

theorem sound_ofRequests (rs : List IndexRequest) : (ofRequests rs).Sound := by
  suffices h : ∀ g : MemoryGraph, g.Sound → (rs.foldl MemoryGraph.after g).Sound from
    h _ sound_empty
  induction rs with
  | nil => exact fun _ hg => hg
  | cons r rs ih => exact fun _ hg => ih _ (hg.after r)

theorem contains_ofRequests (rs : List IndexRequest) (t : Triple) :
    (ofRequests rs).contains t = (IndexRequest.storedAfter rs).contains t :=
  (describes_ofRequests rs).spo t

/-- The search answers for the ground nodes of the triple. -/
theorem containsByFind_ofRequests (rs : List IndexRequest) (t : Triple) :
    Graph.containsByFind (ofRequests rs) t =
      .ok ((IndexRequest.storedAfter rs).members.any (TriplePattern.ofTriple t).accepts) := by
  change (.ok (!((ofRequests rs).index.find (.ofTriple t)).isEmpty) : Except GraphError Bool) = _
  rw [(describes_ofRequests rs).isEmpty_find]

/-- After every history the graph's own test is exact, the test by a search answers whether
a stored triple has the ground nodes of the one asked for, and the two agree exactly if that
triple is ground or no stored triple has its ground nodes. -/
theorem containsByFind_eq_contains_iff (rs : List IndexRequest) (t : Triple) :
    Graph.contains (ofRequests rs) t = .ok ((IndexRequest.storedAfter rs).contains t) ∧
    Graph.containsByFind (ofRequests rs) t =
      .ok ((IndexRequest.storedAfter rs).members.any (TriplePattern.ofTriple t).accepts) ∧
    (Graph.containsByFind (ofRequests rs) t = Graph.contains (ofRequests rs) t ↔
      t.isGround = true ∨
        ∀ u ∈ (IndexRequest.storedAfter rs).members,
          (TriplePattern.ofTriple t).accepts u = false) := by
  have hcontains : Graph.contains (ofRequests rs) t =
      .ok ((IndexRequest.storedAfter rs).contains t) :=
    congrArg Except.ok (contains_ofRequests rs t)
  refine ⟨hcontains, containsByFind_ofRequests rs t, ?_⟩
  rw [hcontains, containsByFind_ofRequests, Except.ok.injEq]
  cases hground : t.isGround with
  | true =>
    have haccepts : (TriplePattern.ofTriple t).accepts = fun u => u == t := by
      funext u
      rw [TriplePattern.accepts_ofTriple_of_ground hground, BEq.comm]
    rw [haccepts]
    exact iff_of_true rfl (Or.inl rfl)
  | false =>
    have habsent : (IndexRequest.storedAfter rs).contains t = false := by
      rw [← contains_ofRequests, Bool.eq_false_iff]
      intro held
      rw [(sound_ofRequests rs).isGround t held] at hground
      cases hground
    rw [habsent, List.any_eq_false]
    simp

/-- The search with `(?x p b)` finds the one stored triple, which is not that triple. -/
theorem not_containsByFind_eq_contains_open :
    let fact : Triple := ⟨.uri "a", .uri "p", .uri "b"⟩
    let asked : Triple := ⟨.var ⟨"x", 0⟩, .uri "p", .uri "b"⟩
    Graph.contains (ofRequests [.insert fact]) asked = .ok false ∧
      (IndexRequest.storedAfter [.insert fact]).contains asked = false ∧
      Graph.containsByFind (ofRequests [.insert fact]) asked = .ok true :=
  ⟨rfl, rfl, rfl⟩

end MemoryGraph

end Entailment

import Entailment.Graph.View
import Entailment.Proofs.Graph.Memory
import Entailment.Proofs.Graph.Refinement
import Entailment.Proofs.Term.Delay

/-!
# Graphs later

A graph whose triples have been moved up by a delay answers every question that has been
moved up too with the answer of the given graph, moved up, and in the same order.  What a
rule engine asks of its base is described by a relation of graphs that every access keeps; for
graphs in memory it is to be the image under the delay.
-/

namespace Entailment

/-- None of the maps inside the indexes of a graph is empty. -/
theorem MemoryGraph.Reachable.filled {g : MemoryGraph} (hg : g.Reachable) :
    g.index.spo.Filled ∧ g.index.pos.Filled ∧ g.index.osp.Filled := by
  induction hg with
  | empty => exact ⟨Level.filled_empty, Level.filled_empty, Level.filled_empty⟩
  | @add g g' t added hg hadd ih =>
      obtain ⟨index, hinsert, _⟩ := hg.sound.index.insert_eq t
      rw [add_of_insert (isGround_of_add hadd) hinsert] at hadd
      cases hadd
      exact IndexRequest.filled_insert ih hinsert
  | @delete g g' t removed hg hdelete ih =>
      obtain ⟨index, hremove, _⟩ := hg.sound.index.remove_eq t
      rw [delete_of_remove hremove] at hdelete
      cases hdelete
      exact IndexRequest.filled_remove ih hremove

namespace Delay

variable (δ : Delay)

/-! ## Levels -/

def third (s : OrderedSet Node) : OrderedSet Node := s.recode δ.nodeCode

def second (m : OrderedMap Node (OrderedSet Node)) : OrderedMap Node (OrderedSet Node) :=
  m.recode δ.nodeCode δ.third

def level (l : Level) : Level := OrderedMap.recode δ.nodeCode δ.second l

theorem second_level (l : Level) (a : Node) :
    (δ.level l).second (δ.node a) = δ.second (l.second a) := by
  rw [Level.second, level]
  have hget := OrderedMap.get?_recode δ.nodeCode δ.second l a
  refine (congrArg (Option.getD · default) hget).trans ?_
  rw [Level.second]
  cases OrderedMap.get? l a <;> rfl

theorem third_level (l : Level) (a b : Node) :
    (δ.level l).third (δ.node a) (δ.node b) = δ.third (l.third a b) := by
  rw [Level.third, second_level, second]
  refine (congrArg (Option.getD · default)
    (OrderedMap.get?_recode δ.nodeCode δ.third (l.second a) b)).trans ?_
  rw [Level.third]
  cases (l.second a).get? b <;> rfl

theorem holds_level (l : Level) (a b c : Node) :
    (δ.level l).holds (δ.node a) (δ.node b) (δ.node c) = l.holds a b c := by
  rw [Level.holds, third_level]
  exact OrderedSet.contains_recode δ.nodeCode _ c

theorem level_add (l : Level) (a b c : Node) :
    δ.level (l.add a b c) = (δ.level l).add (δ.node a) (δ.node b) (δ.node c) :=
  OrderedMap.recode_alter δ.nodeCode _ l a rfl fun m =>
    OrderedMap.recode_alter δ.nodeCode _ m b rfl fun s => OrderedSet.recode_insert δ.nodeCode s c

theorem level_remove (l : Level) (a b c : Node) :
    δ.level (l.remove a b c) = (δ.level l).remove (δ.node a) (δ.node b) (δ.node c) := by
  have hthird : δ.third ((l.third a b).erase c) =
      ((δ.level l).third (δ.node a) (δ.node b)).erase (δ.node c) := by
    rw [third_level]
    exact OrderedSet.recode_erase δ.nodeCode _ c
  have hsecond : δ.second ((l.second a).store OrderedSet.isEmpty b ((l.third a b).erase c)) =
      ((δ.level l).second (δ.node a)).store OrderedSet.isEmpty (δ.node b)
        (((δ.level l).third (δ.node a) (δ.node b)).erase (δ.node c)) := by
    rw [second_level, ← hthird]
    exact OrderedMap.recode_store δ.nodeCode _ _ b _ (OrderedSet.isEmpty_recode δ.nodeCode _)
  rw [Level.remove, Level.remove, ← hsecond]
  exact OrderedMap.recode_store δ.nodeCode _ l a _ (OrderedMap.isEmpty_recode δ.nodeCode _ _)

theorem select_recode {υ ω : Type} (f : υ → ω) (m : OrderedMap Node υ) (key : Option Node) :
    Level.select (m.recode δ.nodeCode f) (key.map δ.node) =
      (Level.select m key).map fun e => (δ.node e.1, f e.2) := by
  cases key with
  | none => rfl
  | some k =>
      change (OrderedMap.entry? (m.recode δ.nodeCode f) (δ.nodeCode.code k)).toList = _
      rw [OrderedMap.entry?_recode, Level.select]
      cases m.entry? k <;> rfl

theorem selectMembers_third (s : OrderedSet Node) (key : Option Node) :
    Level.selectMembers (δ.third s) (key.map δ.node) = (Level.selectMembers s key).map δ.node := by
  cases key with
  | none => rfl
  | some k =>
      change (if (s.recode δ.nodeCode).contains (δ.nodeCode.code k) then [δ.node k] else []) = _
      rw [OrderedSet.contains_recode, Level.selectMembers]
      split <;> rfl

theorem scan_level (l : Level) (a b c : Option Node) {build : Node → Node → Node → Triple}
    (hbuild : ∀ x y z, build (δ.node x) (δ.node y) (δ.node z) = δ.triple (build x y z)) :
    (δ.level l).scan (a.map δ.node) (b.map δ.node) (c.map δ.node) build =
      (l.scan a b c build).map δ.triple := by
  simp only [Level.scan, level, second, select_recode, selectMembers_third, List.flatMap_map,
    List.map_flatMap, List.map_map, Function.comp_def, hbuild]

/-! ## Indexes -/

def index (i : TripleIndex) : TripleIndex where
  spo := δ.level i.spo
  pos := δ.level i.pos
  osp := δ.level i.osp
  size := i.size

@[simp]
theorem contains_index (i : TripleIndex) (t : Triple) :
    (δ.index i).contains (δ.triple t) = i.contains t := δ.holds_level _ _ _ _

theorem agrees_index (i : TripleIndex) (t : Triple) :
    (δ.index i).agrees (δ.triple t) = i.agrees t := by
  rw [TripleIndex.agrees, TripleIndex.agrees, contains_index, index]
  exact congrArg₂ (fun x y => i.contains t == x && i.contains t == y)
    (δ.holds_level _ _ _ _) (δ.holds_level _ _ _ _)

theorem ofPattern_pattern (p : TriplePattern) :
    IndexOrder.ofPattern (δ.pattern p) = IndexOrder.ofPattern p := by
  obtain ⟨s, q, o⟩ := p
  cases s <;> cases q <;> cases o <;> rfl

theorem find_index (i : TripleIndex) (p : TriplePattern) :
    (δ.index i).find (δ.pattern p) = (i.find p).map δ.triple := by
  rw [TripleIndex.find, TripleIndex.find, ofPattern_pattern]
  cases IndexOrder.ofPattern p with
  | spo => exact δ.scan_level i.spo _ _ _ fun _ _ _ => rfl
  | pos => exact δ.scan_level i.pos _ _ _ fun _ _ _ => rfl
  | osp => exact δ.scan_level i.osp _ _ _ fun _ _ _ => rfl

def changed {α : Type} (f : α → α) (result : Bool × α) : Bool × α := (result.1, f result.2)

theorem insert_index {i : TripleIndex} {t : Triple} (h : i.agrees t = true) :
    (δ.index i).insert (δ.triple t) = (i.insert t).map (changed δ.index) := by
  rw [TripleIndex.insert, TripleIndex.insert, agrees_index, h, contains_index]
  cases i.contains t with
  | true => rfl
  | false =>
      simp only [Bool.not_true, Bool.false_eq_true, if_false, Except.map, changed, index,
        level_add, subject_triple, predicate_triple, object_triple]

theorem remove_index {i : TripleIndex} {t : Triple} (h : i.agrees t = true) :
    (δ.index i).remove (δ.triple t) = (i.remove t).map (changed δ.index) := by
  rw [TripleIndex.remove, TripleIndex.remove, agrees_index, h, contains_index]
  cases i.contains t with
  | false => rfl
  | true =>
      simp only [Bool.not_true, Bool.false_eq_true, if_false, Except.map, changed, index,
        level_remove, subject_triple, predicate_triple, object_triple]

/-! ## Graphs in memory -/

def graphError : GraphError → GraphError
  | .invalidTriple t => .invalidTriple (δ.triple t)
  | .index detail => .index detail

/-- The result of an access, moved up. -/
def access {α β : Type} (f : α → β) (result : Except GraphError α) : Except GraphError β :=
  (result.map f).mapError δ.graphError

def graph (g : MemoryGraph) : MemoryGraph := ⟨δ.index g.index⟩

@[simp]
theorem contains_graph (g : MemoryGraph) (t : Triple) :
    (δ.graph g).contains (δ.triple t) = g.contains t := δ.contains_index g.index t

theorem find_graph (g : MemoryGraph) (p : TriplePattern) :
    (δ.graph g).find (δ.pattern p) = (g.find p).map δ.triple := δ.find_index g.index p

theorem triples_graph (g : MemoryGraph) : (δ.graph g).triples = g.triples.map δ.triple :=
  δ.find_graph g .any

theorem add_graph {g : MemoryGraph} (hg : g.Reachable) (t : Triple) :
    (δ.graph g).add (δ.triple t) = δ.access (changed δ.graph) (g.add t) := by
  rw [MemoryGraph.add, MemoryGraph.add, isGround_triple]
  cases t.isGround with
  | false => rfl
  | true =>
      change ((δ.index g.index).insert (δ.triple t) >>= _) = _
      rw [δ.insert_index (hg.sound.index.agreeing.agrees t)]
      obtain ⟨index, hinsert, _⟩ := hg.sound.index.insert_eq t
      rw [hinsert]
      rfl

theorem delete_graph {g : MemoryGraph} (hg : g.Reachable) (t : Triple) :
    (δ.graph g).delete (δ.triple t) = δ.access (changed δ.graph) (g.delete t) := by
  rw [MemoryGraph.delete, MemoryGraph.delete]
  change ((δ.index g.index).remove (δ.triple t) >>= _) = _
  rw [δ.remove_index (hg.sound.index.agreeing.agrees t)]
  obtain ⟨index, hremove, _⟩ := hg.sound.index.remove_eq t
  rw [hremove]
  rfl

/-! ### Graphs that stay -/

variable {δ}

theorem level_eq_self {l : Level} (hl : l.Filled) (h : ∀ a b c, l.holds a b c = true →
    δ.node a = a ∧ δ.node b = b ∧ δ.node c = c) : δ.level l = l := by
  refine OrderedMap.recode_eq_self fun e he => ?_
  obtain ⟨hsecond, hthird⟩ := hl e.2 (List.mem_map_of_mem he)
  have hheld : ∀ f ∈ e.2.entries, ∀ c ∈ f.2.members, l.holds e.1 f.1 c = true := fun f hf c hc =>
    Level.holds_iff.2 ⟨e, he, BEq.rfl, f, hf, BEq.rfl, OrderedSet.contains_of_mem hc⟩
  have hsome : ∀ f ∈ e.2.entries, ∃ c, c ∈ f.2.members := by
    intro f hf
    have hnonempty := hthird f.2 (List.mem_map_of_mem hf)
    exact List.exists_mem_of_ne_nil _ (by simpa [OrderedSet.isEmpty] using hnonempty)
  constructor
  · obtain ⟨f, hf⟩ := List.exists_mem_of_ne_nil e.2.entries
      (by simpa [OrderedMap.isEmpty] using hsecond)
    obtain ⟨c, hc⟩ := hsome f hf
    exact (h _ _ _ (hheld f hf c hc)).1
  · refine OrderedMap.recode_eq_self fun f hf => ?_
    obtain ⟨c, hc⟩ := hsome f hf
    refine ⟨(h _ _ _ (hheld f hf c hc)).2.1, OrderedSet.recode_eq_self fun c hc => ?_⟩
    exact (h _ _ _ (hheld f hf c hc)).2.2

/-- A graph whose triples stay stays as a whole. -/
theorem graph_eq_self {g : MemoryGraph} (hg : g.Reachable)
    (h : ∀ t ∈ g.triples, δ.triple t = t) : δ.graph g = g := by
  have hheld : ∀ s p o, g.index.spo.holds s p o = true →
      δ.node s = s ∧ δ.node p = p ∧ δ.node o = o := by
    intro s p o hheld
    obtain ⟨t, ht, hsame⟩ := hg.sound.index.agreeing.exists_mem_find (t := ⟨s, p, o⟩)
      (p := .any) hheld rfl
    have hstays := δ.triple_eq_self_congr hsame (h t ht)
    rwa [triple_mk, Triple.mk.injEq] at hstays
  obtain ⟨hspo, hpos, hosp⟩ := hg.filled
  obtain ⟨index⟩ := g
  have hposStays : δ.level index.pos = index.pos := by
    refine level_eq_self hpos fun p o s hpos => ?_
    obtain ⟨hs, hp, ho⟩ := hheld s p o ((hg.sound.index.agreeing s p o).1 ▸ hpos)
    exact ⟨hp, ho, hs⟩
  have hospStays : δ.level index.osp = index.osp := by
    refine level_eq_self hosp fun o s p hosp => ?_
    obtain ⟨hs, hp, ho⟩ := hheld s p o ((hg.sound.index.agreeing s p o).2 ▸ hosp)
    exact ⟨ho, hs, hp⟩
  rw [graph, Delay.index, level_eq_self hspo hheld, hposStays, hospStays]

/-! ## What is asked of a graph -/

/-- What two changes have come to is the same up to the delay, with graphs that are related. -/
inductive Changes (δ : Delay) {γ : Type} (Rel : γ → γ → Prop) :
    Except GraphError (Bool × γ) → Except GraphError (Bool × γ) → Prop where
  | ok {done : Bool} {g g' : γ} : Rel g g' → Changes δ Rel (.ok (done, g)) (.ok (done, g'))
  | error {cause : GraphError} : Changes δ Rel (.error cause) (.error (δ.graphError cause))

/-- Related graphs give the same answers up to the delay, and stay related. -/
structure Bisimulates (δ : Delay) {γ : Type} [Graph γ] (Rel : γ → γ → Prop) : Prop where
  find : ∀ {g g'}, Rel g g' → ∀ p,
    Graph.find g' (δ.pattern p) = δ.access (List.map δ.triple) (Graph.find g p)
  contains : ∀ {g g'}, Rel g g' → ∀ t,
    Graph.contains g' (δ.triple t) = δ.access id (Graph.contains g t)
  add : ∀ {g g'}, Rel g g' → ∀ t,
    δ.Changes Rel (Graph.add g t) (Graph.add g' (δ.triple t))
  delete : ∀ {g g'}, Rel g g' → ∀ t,
    δ.Changes Rel (Graph.delete g t) (Graph.delete g' (δ.triple t))

theorem graphError_eq_self (h : δ.blanks = 0) (cause : GraphError) :
    δ.graphError cause = cause := by
  cases cause with
  | invalidTriple t => rw [graphError, δ.triple_eq_self h]
  | index detail => rfl

/-- A delay without blank nodes makes no difference to any graph. -/
theorem bisimulates_eq {γ : Type} [Graph γ] (h : δ.blanks = 0) :
    δ.Bisimulates (Eq : γ → γ → Prop) := by
  have htriple : δ.triple = id := funext (δ.triple_eq_self h)
  have hchanges : ∀ result : Except GraphError (Bool × γ), δ.Changes Eq result result := by
    intro result
    cases result with
    | ok answer => exact .ok rfl
    | error cause =>
        have hsame : δ.Changes (Eq : γ → γ → Prop) (.error cause)
            (.error (δ.graphError cause)) := .error
        rwa [graphError_eq_self h] at hsame
  have haccess : ∀ {α : Type} (result : Except GraphError α), δ.access id result = result := by
    intro α result
    cases result with
    | ok a => rfl
    | error cause => exact congrArg Except.error (graphError_eq_self h cause)
  refine ⟨?_, ?_, ?_, ?_⟩
  · rintro g _ rfl p
    rw [δ.pattern_eq_self h, htriple, List.map_id_fun, haccess]
  · rintro g _ rfl t
    rw [htriple, haccess, id]
  · rintro g _ rfl t
    rw [htriple]
    exact hchanges _
  · rintro g _ rfl t
    rw [htriple]
    exact hchanges _

variable (δ)

/-- The graph comes from additions and deletions, and the other is its image. -/
def Moves (g g' : MemoryGraph) : Prop := g.Reachable ∧ g' = δ.graph g

theorem changes_add {g : MemoryGraph} (hg : g.Reachable) (t : Triple) :
    δ.Changes δ.Moves (g.add t) ((δ.graph g).add (δ.triple t)) := by
  rw [δ.add_graph hg]
  cases hadd : g.add t with
  | ok result => exact .ok ⟨hg.add hadd, rfl⟩
  | error cause => exact .error

theorem changes_delete {g : MemoryGraph} (hg : g.Reachable) (t : Triple) :
    δ.Changes δ.Moves (g.delete t) ((δ.graph g).delete (δ.triple t)) := by
  rw [δ.delete_graph hg]
  cases hdelete : g.delete t with
  | ok result => exact .ok ⟨hg.delete hdelete, rfl⟩
  | error cause => exact .error

theorem bisimulates_moves : δ.Bisimulates δ.Moves := by
  refine ⟨?_, ?_, ?_, ?_⟩
  · rintro g _ ⟨hg, rfl⟩ p
    exact congrArg Except.ok (δ.find_graph g p)
  · rintro g _ ⟨hg, rfl⟩ t
    exact congrArg Except.ok (δ.contains_graph g t)
  · rintro g _ ⟨hg, rfl⟩ t
    exact δ.changes_add hg t
  · rintro g _ ⟨hg, rfl⟩ t
    exact δ.changes_delete hg t

/-! ## Views -/

section Views

variable {δ} {γ : Type} [Graph γ] {Rel : γ → γ → Prop} {base base' : γ}

theorem Bisimulates.view_find (h : δ.Bisimulates Rel) (hbase : Rel base base') (g : MemoryGraph)
    (p : TriplePattern) :
    View.find ⟨base', δ.graph g⟩ (δ.pattern p) =
      δ.access (List.map δ.triple) (View.find ⟨base, g⟩ p) := by
  unfold View.find
  simp only [h.find hbase, find_graph]
  cases Graph.find base p with
  | error cause => rfl
  | ok stored =>
      refine congrArg Except.ok ?_
      rw [← List.map_append]
      exact congrArg OrderedSet.members (OrderedSet.recode_ofList δ.tripleCode _).symm

theorem Bisimulates.view_contains (h : δ.Bisimulates Rel) (hbase : Rel base base')
    (g : MemoryGraph) (t : Triple) :
    View.contains ⟨base', δ.graph g⟩ (δ.triple t) =
      δ.access id (View.contains ⟨base, g⟩ t) := by
  unfold View.contains
  simp only [h.contains hbase, contains_graph]
  cases Graph.contains base t with
  | error cause => rfl
  | ok stored => cases stored <;> rfl

end Views

end Delay

end Entailment

import Entailment.Proofs.Graph.Membership

/-!
# An index is a set of triples

Whatever has been inserted, removed and cleared, the three maps of an index hold the same
triples, without an empty map inside another, and they cannot be told from one flat set
of triples to which the same was done.  The answers of the index are those of the set, its
size and its counts are the set's, and a search finds the members that the pattern
accepts, each once.
-/

namespace Entailment

/-! ## Maps without empty maps in them -/

namespace OrderedMap

variable {κ υ : Type} [BEq κ]

theorem mem_values_iff [EquivBEq κ] {m : OrderedMap κ υ} {v : υ} :
    v ∈ m.values ↔ ∃ k, m.get? k = some v := by
  simp only [get?_eq_some_iff, values, List.mem_map]
  constructor
  · rintro ⟨e, he, rfl⟩
    exact ⟨e.1, e, he, BEq.rfl, rfl⟩
  · rintro ⟨_, e, he, _, rfl⟩
    exact ⟨e, he, rfl⟩

theorem isEmpty_insert (m : OrderedMap κ υ) (k : κ) (v : υ) : (m.insert k v).isEmpty = false := by
  have hkeys := congrArg List.isEmpty (m.keys_insert k v)
  rw [keys, List.isEmpty_map] at hkeys
  rw [isEmpty, hkeys]
  split
  next hcontains =>
    obtain ⟨e, he, _⟩ := List.any_eq_true.1 hcontains
    simpa [keys] using List.ne_nil_of_mem he
  next => simp

theorem exists_get?_of_isEmpty [EquivBEq κ] {m : OrderedMap κ υ} (h : m.isEmpty = false) :
    ∃ k v, m.get? k = some v := by
  cases hentries : m.entries with
  | nil => simp [isEmpty, hentries] at h
  | cons e rest =>
      exact ⟨e.1, e.2, get?_eq_some_iff.2 ⟨e, by simp [hentries], BEq.rfl, rfl⟩⟩

end OrderedMap

theorem OrderedSet.isEmpty_insert {α : Type} [BEq α] [EquivBEq α] (s : OrderedSet α) (a : α) :
    (s.insert a).isEmpty = false := by
  cases hempty : (s.insert a).isEmpty with
  | false => rfl
  | true =>
      have habsent := contains_of_isEmpty hempty a
      rw [contains_insert, BEq.rfl, Bool.or_true] at habsent
      cases habsent

namespace Level

/-- None of the maps and sets inside the map is empty. -/
def Filled (level : Level) : Prop :=
  ∀ second ∈ level.values, second.isEmpty = false ∧
    ∀ third ∈ second.values, third.isEmpty = false

theorem filled_iff {level : Level} : level.Filled ↔
    ∀ x second, level.get? x = some second → second.isEmpty = false ∧
      ∀ y third, second.get? y = some third → third.isEmpty = false := by
  constructor
  · intro h x second hx
    obtain ⟨hsecond, hthird⟩ := h second (OrderedMap.mem_values_iff.2 ⟨x, hx⟩)
    exact ⟨hsecond, fun y third hy => hthird third (OrderedMap.mem_values_iff.2 ⟨y, hy⟩)⟩
  · intro h second hmem
    obtain ⟨x, hx⟩ := OrderedMap.mem_values_iff.1 hmem
    obtain ⟨hsecond, hthird⟩ := h x second hx
    refine ⟨hsecond, fun third hmem => ?_⟩
    obtain ⟨y, hy⟩ := OrderedMap.mem_values_iff.1 hmem
    exact hthird y third hy

theorem filled_empty : Filled .empty := fun _ h => nomatch h

/-- What is under a first component has no empty set in it. -/
theorem Filled.second {level : Level} (h : level.Filled) (x : Node) {y : Node}
    {third : OrderedSet Node} (hy : (level.second x).get? y = some third) :
    third.isEmpty = false := by
  unfold Level.second at hy
  cases hx : level.get? x with
  | none =>
      rw [hx] at hy
      cases hy
  | some second =>
      rw [hx] at hy
      exact (filled_iff.1 h x second hx).2 y third hy

theorem Filled.add {level : Level} (h : level.Filled) (a b c : Node) :
    (level.add a b c).Filled := by
  refine filled_iff.2 fun x second hx => ?_
  rw [Level.add, OrderedMap.get?_alter] at hx
  split at hx
  · cases hx
    refine ⟨OrderedMap.isEmpty_insert .., fun y third hy => ?_⟩
    rw [OrderedMap.get?_alter] at hy
    split at hy
    · cases hy
      exact OrderedSet.isEmpty_insert ..
    · exact h.second x hy
  · exact filled_iff.1 h x second hx

theorem Filled.remove {level : Level} (h : level.Filled) (a b c : Node) :
    (level.remove a b c).Filled := by
  refine filled_iff.2 fun x second hx => ?_
  rw [Level.remove, OrderedMap.get?_store] at hx
  split at hx
  · split at hx
    · cases hx
    · rename_i hfilled
      cases hx
      refine ⟨Bool.eq_false_iff.2 hfilled, fun y third hy => ?_⟩
      rw [OrderedMap.get?_store] at hy
      split at hy
      · split at hy
        · cases hy
        · rename_i hthird
          cases hy
          exact Bool.eq_false_iff.2 hthird
      · exact h.second a hy
  · exact filled_iff.1 h x second hx

/-- The keys of a map without empty maps in it are the first components of what it holds. -/
theorem Filled.contains_iff {level : Level} (h : level.Filled) {x : Node} :
    level.contains x = true ↔ ∃ y z, level.holds x y z = true := by
  rw [OrderedMap.contains_eq_isSome_get?]
  constructor
  · intro hx
    obtain ⟨second, hx⟩ := Option.isSome_iff_exists.1 hx
    obtain ⟨hsecond, hthird⟩ := filled_iff.1 h x second hx
    obtain ⟨y, third, hy⟩ := OrderedMap.exists_get?_of_isEmpty hsecond
    have hmembers : third.members ≠ [] := by simpa [OrderedSet.isEmpty] using hthird y third hy
    obtain ⟨z, hz⟩ := List.exists_mem_of_ne_nil _ hmembers
    refine ⟨y, z, ?_⟩
    rw [holds, Level.third, Level.second, hx, Option.getD_some, hy, Option.getD_some]
    exact OrderedSet.contains_of_mem hz
  · rintro ⟨y, z, hheld⟩
    obtain ⟨e, he, hsame, _⟩ := holds_iff.1 hheld
    exact OrderedMap.isSome_get?_iff.2 ⟨e, he, hsame⟩

end Level

/-! ## Describing a set -/

namespace TripleIndex

/-- The index and the flat set cannot be told apart. -/
structure Describes (index : TripleIndex) (stored : OrderedSet Triple) : Prop where
  spo : ∀ t : Triple, index.spo.holds t.subject t.predicate t.object = stored.contains t
  pos : ∀ t : Triple, index.pos.holds t.predicate t.object t.subject = stored.contains t
  osp : ∀ t : Triple, index.osp.holds t.object t.subject t.predicate = stored.contains t
  filled : index.spo.Filled ∧ index.pos.Filled ∧ index.osp.Filled
  size_eq : index.size = stored.size
  subjectCount_eq :
    index.subjectCount = (OrderedSet.ofList (stored.members.map Triple.subject)).size
  predicateCount_eq :
    index.predicateCount = (OrderedSet.ofList (stored.members.map Triple.predicate)).size
  objectCount_eq :
    index.objectCount = (OrderedSet.ofList (stored.members.map Triple.object)).size
  distinct_find : ∀ p, Distinct (index.find p)
  any_find : ∀ p t, (index.find p).any (· == t) = (stored.contains t && p.accepts t)

variable {index : TripleIndex} {stored : OrderedSet Triple}

/-- A map has as many keys as there are different parts of triples in a set, if these are
the first components of what it holds. -/
theorem size_eq_of_parts {level : Level} {part : Triple → Node} (hlevel : level.Filled)
    (hpart : ∀ t u : Triple, (t == u) = true → (part t == part u) = true)
    (hholds : ∀ x, (∃ y z, level.holds x y z = true) ↔
      ∃ t, stored.contains t = true ∧ (part t == x) = true) :
    level.size = (OrderedSet.ofList (stored.members.map part)).size := by
  have hlength : level.keys.length =
      (OrderedSet.ofList (stored.members.map part)).members.length := by
    refine length_eq_of_same_members level.distinct (OrderedSet.distinct _) fun x => ?_
    have hcontains := OrderedSet.contains_ofList (stored.members.map part) x
    rw [OrderedSet.contains] at hcontains
    rw [hcontains, OrderedMap.keys, List.any_map, List.any_map, Bool.eq_iff_iff]
    change level.contains x = true ↔ _
    rw [hlevel.contains_iff, hholds, List.any_eq_true]
    constructor
    · rintro ⟨t, ht, hx⟩
      obtain ⟨u, hu, hsame⟩ := OrderedSet.contains_iff.1 ht
      exact ⟨u, hu, BEq.trans (hpart u t hsame) hx⟩
    · rintro ⟨t, ht, hx⟩
      exact ⟨t, OrderedSet.contains_of_mem ht, hx⟩
  rw [OrderedSet.size, ← hlength, OrderedMap.keys, List.length_map]
  rfl

theorem Sound.describes (hindex : index.Sound)
    (hfilled : index.spo.Filled ∧ index.pos.Filled ∧ index.osp.Filled)
    (hstored : ∀ t, index.contains t = stored.contains t) : index.Describes stored where
  spo := hstored
  pos t := (hindex.agreeing t.subject t.predicate t.object).1.trans (hstored t)
  osp t := (hindex.agreeing t.subject t.predicate t.object).2.trans (hstored t)
  filled := hfilled
  size_eq := by
    rw [hindex.size_eq]
    refine length_eq_of_same_members (distinct_find index .any) stored.distinct fun t => ?_
    rw [hindex.agreeing.any_find_any, hstored]
    rfl
  subjectCount_eq := by
    refine size_eq_of_parts hfilled.1 (fun t u h => (Triple.beq_iff.1 h).1) fun x => ⟨?_, ?_⟩
    · rintro ⟨y, z, h⟩
      exact ⟨⟨x, y, z⟩, (hstored _).symm.trans h, BEq.rfl⟩
    · rintro ⟨t, ht, hx⟩
      rw [← hstored, contains, Level.holds_congr _ hx BEq.rfl BEq.rfl] at ht
      exact ⟨_, _, ht⟩
  predicateCount_eq := by
    refine size_eq_of_parts hfilled.2.1 (fun t u h => (Triple.beq_iff.1 h).2.1) fun x => ⟨?_, ?_⟩
    · rintro ⟨y, z, h⟩
      exact ⟨⟨z, x, y⟩, (hstored _).symm.trans ((hindex.agreeing z x y).1.symm.trans h), BEq.rfl⟩
    · rintro ⟨t, ht, hx⟩
      rw [← hstored, contains, ← (hindex.agreeing _ _ _).1,
        Level.holds_congr _ hx BEq.rfl BEq.rfl] at ht
      exact ⟨_, _, ht⟩
  objectCount_eq := by
    refine size_eq_of_parts hfilled.2.2 (fun t u h => (Triple.beq_iff.1 h).2.2) fun x => ⟨?_, ?_⟩
    · rintro ⟨y, z, h⟩
      exact ⟨⟨y, z, x⟩, (hstored _).symm.trans ((hindex.agreeing y z x).2.symm.trans h), BEq.rfl⟩
    · rintro ⟨t, ht, hx⟩
      rw [← hstored, contains, ← (hindex.agreeing _ _ _).2,
        Level.holds_congr _ hx BEq.rfl BEq.rfl] at ht
      exact ⟨_, _, ht⟩
  distinct_find := distinct_find index
  any_find p t := by rw [hindex.agreeing.any_find, hstored]

end TripleIndex

/-! ## Histories -/

/-- What an index is asked to do. -/
inductive IndexRequest where
  | insert (t : Triple)
  | remove (t : Triple)
  | clear

namespace IndexRequest

/-- What the request makes of an index, with its answer; to clear an index has none. -/
def perform (index : TripleIndex) : IndexRequest → Except GraphError (Option Bool × TripleIndex)
  | .insert t => do
    let (added, index) ← index.insert t
    return (some added, index)
  | .remove t => do
    let (removed, index) ← index.remove t
    return (some removed, index)
  | .clear => return (none, .empty)

/-- What a flat set answers. -/
def answer (stored : OrderedSet Triple) : IndexRequest → Option Bool
  | .insert t => some !stored.contains t
  | .remove t => some (stored.contains t)
  | .clear => none

/-- What becomes of a flat set. -/
def effect (stored : OrderedSet Triple) : IndexRequest → OrderedSet Triple
  | .insert t => stored.insert t
  | .remove t => stored.erase t
  | .clear => .empty

/-- The answers of an index to requests in order, and the index after them. -/
def performAll : List IndexRequest → TripleIndex →
    Except GraphError (List (Option Bool) × TripleIndex)
  | [], index => return ([], index)
  | r :: rest, index => do
    let (answer, index) ← r.perform index
    let (answers, index) ← performAll rest index
    return (answer :: answers, index)

/-- The answers of a flat set to requests in order. -/
def answers : List IndexRequest → OrderedSet Triple → List (Option Bool)
  | [], _ => []
  | r :: rest, stored => r.answer stored :: answers rest (r.effect stored)

/-- What every request keeps. -/
structure Mirrors (index : TripleIndex) (stored : OrderedSet Triple) : Prop where
  sound : index.Sound
  filled : index.spo.Filled ∧ index.pos.Filled ∧ index.osp.Filled
  contains_eq : ∀ t, index.contains t = stored.contains t

theorem mirrors_empty : Mirrors .empty .empty :=
  ⟨TripleIndex.sound_empty, ⟨Level.filled_empty, Level.filled_empty, Level.filled_empty⟩,
    fun _ => rfl⟩

variable {index : TripleIndex} {stored : OrderedSet Triple}

theorem filled_insert (hfilled : index.spo.Filled ∧ index.pos.Filled ∧ index.osp.Filled)
    {t : Triple} {added : Bool} {index' : TripleIndex} (h : index.insert t = .ok (added, index')) :
    index'.spo.Filled ∧ index'.pos.Filled ∧ index'.osp.Filled := by
  unfold TripleIndex.insert at h
  split at h
  · cases h
  · split at h
    · cases h
      exact hfilled
    · cases h
      exact ⟨hfilled.1.add _ _ _, hfilled.2.1.add _ _ _, hfilled.2.2.add _ _ _⟩

theorem filled_remove (hfilled : index.spo.Filled ∧ index.pos.Filled ∧ index.osp.Filled)
    {t : Triple} {removed : Bool} {index' : TripleIndex}
    (h : index.remove t = .ok (removed, index')) :
    index'.spo.Filled ∧ index'.pos.Filled ∧ index'.osp.Filled := by
  unfold TripleIndex.remove at h
  split at h
  · cases h
  · split at h
    · cases h
      exact hfilled
    · cases h
      exact ⟨hfilled.1.remove _ _ _, hfilled.2.1.remove _ _ _, hfilled.2.2.remove _ _ _⟩

/-- A request does to an index what it does to the set that the index mirrors. -/
theorem Mirrors.perform (h : Mirrors index stored) (r : IndexRequest) :
    ∃ index', r.perform index = .ok (r.answer stored, index') ∧
      Mirrors index' (r.effect stored) := by
  cases r with
  | insert t =>
      obtain ⟨index', hinsert, hsound, hcontains⟩ := h.sound.insert_eq t
      refine ⟨index', ?_, hsound, filled_insert h.filled hinsert, fun u => ?_⟩
      · rw [IndexRequest.perform, hinsert, h.contains_eq]
        rfl
      · rw [hcontains, h.contains_eq]
        exact (stored.contains_insert t u).symm
  | remove t =>
      obtain ⟨index', hremove, hsound, hcontains⟩ := h.sound.remove_eq t
      refine ⟨index', ?_, hsound, filled_remove h.filled hremove, fun u => ?_⟩
      · rw [IndexRequest.perform, hremove, h.contains_eq]
        rfl
      · rw [hcontains, h.contains_eq]
        exact (stored.contains_erase t u).symm
  | clear => exact ⟨.empty, rfl, mirrors_empty⟩

theorem Mirrors.performAll (h : Mirrors index stored) (rs : List IndexRequest) :
    ∃ index', IndexRequest.performAll rs index = .ok (answers rs stored, index') ∧
      Mirrors index' (rs.foldl effect stored) := by
  induction rs generalizing index stored with
  | nil => exact ⟨index, rfl, h⟩
  | cons r rs ih =>
      obtain ⟨index₁, hfirst, h₁⟩ := h.perform r
      obtain ⟨index₂, hrest, h₂⟩ := ih h₁
      refine ⟨index₂, ?_, h₂⟩
      rw [IndexRequest.performAll, hfirst]
      change (IndexRequest.performAll rs index₁ >>= _) = _
      rw [hrest]
      rfl

/-- Nothing that is asked of an index fails, its answers are those of a flat set, and what
it is then is described by what the set is then. -/
theorem performAll_describes (rs : List IndexRequest) :
    ∃ index, performAll rs .empty = .ok (answers rs .empty, index) ∧
      index.Describes (rs.foldl effect .empty) := by
  obtain ⟨index, hperform, hmirrors⟩ := mirrors_empty.performAll rs
  exact ⟨index, hperform, hmirrors.sound.describes hmirrors.filled hmirrors.contains_eq⟩

end IndexRequest

end Entailment

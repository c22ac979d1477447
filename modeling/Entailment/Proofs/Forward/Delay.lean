import Entailment.Forward.Run
import Entailment.Proofs.Rule.Delay

/-!
# Engines later

An engine that has been moved up by a delay has the same tokens, firings and conclusions with
higher numbers, in the same order.  Its base may be any graph that answers alike, and what has
been written and the time may be different.
-/

namespace Entailment

namespace Delay

variable (δ : Delay)

/-! ## Token memories -/

def tokenRecord (t : Token) : Token where
  parent := t.parent.map δ.token
  triple := δ.triple t.triple
  level := t.level
  bindings := δ.bindings t.bindings
  key := t.key.map δ.node
  children := t.children.map δ.token

def firing : Firing → Firing
  | .fired conclusions hidden committed =>
    .fired (conclusions.map δ.triple) (hidden.map δ.node) committed
  | f => f

def edgeCode : Recoding (Option TokenId × Triple) (Option TokenId × Triple) :=
  δ.tokenCode.option.prod δ.tripleCode

def keyCode : Recoding (Nat × List Node) (Nat × List Node) := Recoding.id.prod δ.nodeCode.list

def memory (m : TokenMemory) : TokenMemory where
  tokens := m.tokens.recode δ.tokenCode δ.tokenRecord
  edges := m.edges.recode δ.edgeCode δ.token
  byKey := TokenIndex.recode δ.keyCode δ.tokenCode m.byKey
  byTriple := TokenIndex.recode δ.tripleCode δ.tokenCode m.byTriple
  firings := m.firings.recode δ.tokenCode δ.firing

@[simp] theorem size_memory (m : TokenMemory) : (δ.memory m).size = m.size :=
  OrderedMap.size_recode _ _ _

theorem token?_memory (m : TokenMemory) (id : TokenId) :
    (δ.memory m).token? (δ.token id) = (m.token? id).map δ.tokenRecord :=
  OrderedMap.get?_recode δ.tokenCode _ _ id

theorem children_memory (m : TokenMemory) (id : TokenId) :
    (δ.memory m).children (δ.token id) = (m.children id).map δ.token := by
  rw [TokenMemory.children, TokenMemory.children, token?_memory]
  cases m.token? id <;> rfl

theorem firing?_memory (m : TokenMemory) (id : TokenId) :
    (δ.memory m).firings.get? (δ.token id) = (m.firings.get? id).map δ.firing :=
  OrderedMap.get?_recode δ.tokenCode _ _ id

theorem memory_adopt (m : TokenMemory) (parent : Option TokenId) (id : TokenId) :
    δ.memory (m.adopt parent id) = (δ.memory m).adopt (parent.map δ.token) (δ.token id) := by
  cases parent with
  | none => rfl
  | some p =>
      have htokens : (m.tokens.modify p fun t => { t with children := t.children ++ [id] }).recode
            δ.tokenCode δ.tokenRecord =
          (m.tokens.recode δ.tokenCode δ.tokenRecord).modify (δ.token p) fun t =>
            { t with children := t.children ++ [δ.token id] } :=
        OrderedMap.recode_modify δ.tokenCode _ m.tokens p fun t => by
          simp only [tokenRecord, List.map_append, List.map_singleton]
      simp only [TokenMemory.adopt, memory, Option.map_some, htokens]

theorem memory_disown (m : TokenMemory) (parent : Option TokenId) (id : TokenId) :
    δ.memory (m.disown parent id) = (δ.memory m).disown (parent.map δ.token) (δ.token id) := by
  cases parent with
  | none => rfl
  | some p =>
      have hchildren : ∀ ids : List TokenId, (ids.filter (· != id)).map δ.token =
          (ids.map δ.token).filter (· != δ.token id) := by
        intro ids
        rw [List.filter_map]
        refine congrArg (fun p => (ids.filter p).map δ.token) (funext fun other => ?_)
        exact congrArg (!·) (δ.tokenCode.beq_code other id).symm
      have htokens : (m.tokens.modify p fun t =>
              { t with children := t.children.filter (· != id) }).recode
            δ.tokenCode δ.tokenRecord =
          (m.tokens.recode δ.tokenCode δ.tokenRecord).modify (δ.token p) fun t =>
            { t with children := t.children.filter (· != δ.token id) } :=
        OrderedMap.recode_modify δ.tokenCode _ m.tokens p fun t => by
          simp only [tokenRecord, hchildren]
      simp only [TokenMemory.disown, memory, Option.map_some, htokens]

theorem insert_memory (m : TokenMemory) (id : TokenId) (t : Token) :
    (δ.memory m).insert (δ.token id) (δ.tokenRecord t) = (m.insert id t).map δ.memory := by
  have hedge : (δ.memory m).edges.contains ((δ.tokenRecord t).parent, (δ.tokenRecord t).triple) =
      m.edges.contains (t.parent, t.triple) :=
    OrderedMap.contains_recode δ.edgeCode _ _ (t.parent, t.triple)
  have hadopt := δ.memory_adopt m t.parent id
  rw [TokenMemory.insert, TokenMemory.insert]
  simp only [hedge]
  split
  · rfl
  · refine congrArg some ?_
    rw [show (δ.tokenRecord t).parent = t.parent.map δ.token from rfl, ← hadopt]
    generalize m.adopt t.parent id = adopted
    obtain ⟨tokens, edges, byKey, byTriple, firings⟩ := adopted
    simp only [memory]
    congr 1
    · exact (OrderedMap.recode_insert δ.tokenCode _ tokens id t).symm
    · exact (OrderedMap.recode_insert δ.edgeCode _ edges (t.parent, t.triple) id).symm
    · exact (TokenIndex.recode_add δ.keyCode δ.tokenCode byKey (t.level, t.key) id).symm
    · exact (TokenIndex.recode_add δ.tripleCode δ.tokenCode byTriple t.triple id).symm

theorem joining_memory (m : TokenMemory) (level : Nat) (key : List Node) :
    (δ.memory m).joining level (key.map δ.node) = (m.joining level key).map δ.token :=
  TokenIndex.ids_recode δ.keyCode δ.tokenCode m.byKey (level, key)

theorem ascend_memory (m : TokenMemory) (steps : Nat) (id : TokenId) :
    (δ.memory m).ascend steps (δ.token id) = (m.ascend steps id).map δ.triple := by
  induction steps generalizing id with
  | zero => rfl
  | succ steps ih =>
      rw [TokenMemory.ascend, TokenMemory.ascend, token?_memory]
      cases m.token? id with
      | none => rfl
      | some t =>
          obtain ⟨parent, _⟩ := t
          cases parent with
          | none => rfl
          | some p => exact congrArg _ (ih p)

theorem triples_memory (m : TokenMemory) (id : TokenId) :
    (δ.memory m).triples (δ.token id) = (m.triples id).map δ.triple := by
  rw [TokenMemory.triples, size_memory, ascend_memory, TokenMemory.triples, List.map_reverse]

theorem memory_remove (m : TokenMemory) (id : TokenId) :
    δ.memory (m.remove id) = (δ.memory m).remove (δ.token id) := by
  rw [TokenMemory.remove, TokenMemory.remove, token?_memory]
  cases m.token? id with
  | none => rfl
  | some t =>
      simp only [Option.map_some, memory_disown]
      refine congrArg (TokenMemory.disown · (t.parent.map δ.token) (δ.token id)) ?_
      simp only [memory]
      congr 1
      · exact OrderedMap.recode_erase δ.tokenCode _ _ id
      · exact OrderedMap.recode_erase δ.edgeCode _ _ (t.parent, t.triple)
      · exact TokenIndex.recode_remove δ.keyCode δ.tokenCode _ (t.level, t.key) id
      · exact TokenIndex.recode_remove δ.tripleCode δ.tokenCode _ t.triple id

theorem holding_memory (m : TokenMemory) (t : Triple) :
    (δ.memory m).holding (δ.triple t) = (m.holding t).map δ.token := by
  have hkeys : (δ.memory m).tokens.keys = m.tokens.keys.map δ.token :=
    OrderedMap.keys_recode δ.tokenCode _ _
  have hids : (δ.memory m).byTriple.ids (δ.triple t) = (m.byTriple.ids t).map δ.token :=
    TokenIndex.ids_recode δ.tripleCode δ.tokenCode m.byTriple t
  rw [TokenMemory.holding, hkeys, hids, TokenMemory.holding]
  exact descend_map δ.token_injective (δ.children_memory m) _ _

def broken (b : BrokenToken) : BrokenToken :=
  ⟨δ.token b.id, b.triples.map δ.triple, δ.firing b.firing⟩

theorem broken?_memory (m : TokenMemory) (id : TokenId) :
    (δ.memory m).broken? (δ.token id) = (m.broken? id).map δ.broken := by
  rw [TokenMemory.broken?, TokenMemory.broken?, firing?_memory, triples_memory]
  cases m.firings.get? id <;> rfl

theorem removeHolding_memory (m : TokenMemory) (t : Triple) :
    (δ.memory m).removeHolding (δ.triple t) =
      ((m.removeHolding t).1.map δ.broken, δ.memory (m.removeHolding t).2) := by
  have hremove : ∀ (ids : List TokenId) (m : TokenMemory),
      δ.memory (ids.foldl TokenMemory.remove m) =
        (ids.map δ.token).foldl TokenMemory.remove (δ.memory m) := by
    intro ids
    induction ids with
    | nil => exact fun _ => rfl
    | cons id ids ih =>
        intro m
        rw [List.foldl_cons, ih, memory_remove, List.map_cons, List.foldl_cons]
  have hfirings := OrderedMap.recode_foldl_erase δ.tokenCode δ.firing (m.holding t) m.firings
  have hbroken : ((m.holding t).map δ.token).filterMap (δ.memory m).broken? =
      ((m.holding t).filterMap m.broken?).map δ.broken := by
    rw [List.filterMap_map, List.map_filterMap]
    exact congrArg (fun f => (m.holding t).filterMap f) (funext (δ.broken?_memory m))
  unfold TokenMemory.removeHolding
  simp only [holding_memory, hbroken, hremove]
  refine congrArg (Prod.mk _) ?_
  refine congrArg (((m.holding t).map δ.token).foldl TokenMemory.remove ·) ?_
  simp only [memory, hfirings]
  rfl

theorem memory_setFiring (m : TokenMemory) (id : TokenId) (f : Firing) :
    δ.memory (m.setFiring id f) = (δ.memory m).setFiring (δ.token id) (δ.firing f) := by
  simp only [TokenMemory.setFiring, memory, OrderedMap.recode_insert]
  rfl

theorem revisable?_firing (f : Firing) : (δ.firing f).revisable? = f.revisable? := by
  cases f with
  | fired conclusions hidden committed => cases committed <;> rfl
  | _ => rfl

theorem revisable_memory (m : TokenMemory) :
    (δ.memory m).revisable = m.revisable.map fun entry => (δ.token entry.1, entry.2) := by
  rw [TokenMemory.revisable, TokenMemory.revisable, memory, OrderedMap.entries_recode,
    List.filterMap_map, List.map_filterMap]
  refine congrArg (fun f => m.firings.entries.filterMap f) (funext fun entry => ?_)
  obtain ⟨id, f⟩ := entry
  simp only [Function.comp_apply, revisable?_firing, Option.map_map]
  rfl

/-! ## Derivations and hidden predicates -/

def derivation (d : Derivation) : Derivation :=
  ⟨δ.triple d.conclusion, d.rule, d.antecedents.map (Option.map δ.triple)⟩

@[simp]
theorem derivation_beq (d e : Derivation) : (δ.derivation d == δ.derivation e) = (d == e) := by
  have hantecedents := δ.tripleCode.option.list.beq_code d.antecedents e.antecedents
  change (δ.triple d.conclusion == δ.triple e.conclusion && d.rule == e.rule &&
    _ == _) = (d.conclusion == e.conclusion && d.rule == e.rule && d.antecedents == e.antecedents)
  rw [← hantecedents, δ.triple_beq]
  rfl

def derivationCode : Recoding Derivation Derivation := ⟨δ.derivation, δ.derivation_beq⟩

def log (l : DerivationLog) : DerivationLog :=
  ⟨l.entries.recode δ.tripleCode (List.map δ.derivation)⟩

theorem get_log (l : DerivationLog) (t : Triple) :
    (δ.log l).get (δ.triple t) = (l.get t).map δ.derivation := by
  have hget := OrderedMap.get?_recode δ.tripleCode (List.map δ.derivation) l.entries t
  refine (congrArg (Option.getD · []) hget).trans ?_
  rw [DerivationLog.get]
  cases l.entries.get? t <;> rfl

theorem log_record (l : DerivationLog) (d : Derivation) :
    δ.log (l.record d).2 = ((δ.log l).record (δ.derivation d)).2 := by
  have hcontains := contains_map_code δ.derivationCode (l.get d.conclusion) d
  unfold DerivationLog.record
  rw [show (δ.derivation d).conclusion = δ.triple d.conclusion from rfl, get_log]
  change _ = (if ((l.get d.conclusion).map δ.derivationCode.code).contains
    (δ.derivationCode.code d) then _ else _ : Bool × DerivationLog).2
  rw [hcontains]
  split
  · rfl
  · refine congrArg DerivationLog.mk ?_
    exact OrderedMap.recode_alter δ.tripleCode _ l.entries d.conclusion rfl fun list => by
      rw [List.map_append, List.map_singleton]

theorem log_remove (l : DerivationLog) (d : Derivation) :
    δ.log (l.remove d).2 = ((δ.log l).remove (δ.derivation d)).2 := by
  have hget := OrderedMap.get?_recode δ.tripleCode (List.map δ.derivation) l.entries d.conclusion
  unfold DerivationLog.remove
  rw [show (δ.log l).entries.get? (δ.derivation d).conclusion = _ from hget]
  cases l.entries.get? d.conclusion with
  | none => rfl
  | some list =>
      have hfilter : (list.map δ.derivation).filter (fun e => !(e == δ.derivation d)) =
          (list.filter fun e => !(e == d)).map δ.derivation := by
        rw [List.filter_map]
        refine congrArg (fun p => (list.filter p).map δ.derivation) (funext fun e => ?_)
        rw [Function.comp_apply, derivation_beq]
      simp only [Option.map_some, hfilter]
      exact congrArg DerivationLog.mk
        (OrderedMap.recode_store δ.tripleCode _ l.entries d.conclusion _ List.isEmpty_map)

def hidden (h : OrderedMap Node Nat) : OrderedMap Node Nat := h.recode δ.nodeCode id

theorem hidden_unhide (h : OrderedMap Node Nat) (predicate : Node) :
    δ.hidden (unhide h predicate) = unhide (δ.hidden h) (δ.node predicate) := by
  have hget := OrderedMap.get?_recode δ.nodeCode (id : Nat → Nat) h predicate
  unfold unhide
  rw [show (δ.hidden h).get? (δ.node predicate) = _ from hget]
  cases h.get? predicate with
  | none => rfl
  | some n =>
      simp only [Option.map_some, id]
      split
      · exact OrderedMap.recode_erase δ.nodeCode _ h predicate
      · exact OrderedMap.recode_insert δ.nodeCode _ h predicate (n - 1)

theorem hidden_hideOnce (h : OrderedMap Node Nat) (predicate : Node) :
    δ.hidden (hideOnce h predicate) = hideOnce (δ.hidden h) (δ.node predicate) :=
  OrderedMap.recode_alter δ.nodeCode id h predicate rfl fun _ => rfl

theorem hidden_foldl {change : OrderedMap Node Nat → Node → OrderedMap Node Nat}
    (hchange : ∀ h n, δ.hidden (change h n) = change (δ.hidden h) (δ.node n)) (ns : List Node)
    (h : OrderedMap Node Nat) :
    δ.hidden (ns.foldl change h) = (ns.map δ.node).foldl change (δ.hidden h) := by
  induction ns generalizing h with
  | nil => rfl
  | cons n ns ih => rw [List.foldl_cons, ih, hchange, List.map_cons, List.foldl_cons]

/-! ## Engines -/

def activation (a : Activation) : Activation := ⟨a.rule, δ.token a.token⟩

def activationCode : Recoding Activation Activation where
  code := δ.activation
  beq_code a b := by
    obtain ⟨rule, token⟩ := a
    obtain ⟨rule', token'⟩ := b
    rw [Bool.eq_iff_iff, beq_iff_eq, beq_iff_eq, activation, activation, Activation.mk.injEq,
      Activation.mk.injEq, δ.token_injective.eq_iff]

def event : Event → Event
  | .added t => .added (δ.triple t)
  | .deleted t => .deleted (δ.triple t)

def triples (s : OrderedSet Triple) : OrderedSet Triple := s.recode δ.tripleCode

def supporters (s : OrderedSet Activation) : OrderedSet Activation := s.recode δ.activationCode

def support (s : OrderedMap Triple (OrderedSet Activation)) :
    OrderedMap Triple (OrderedSet Activation) := s.recode δ.tripleCode δ.supporters

/-- The engine with all that it keeps moved up, over another base and in another world. -/
def engine {γ : Type} (e : Engine γ) (base : γ) (world : World) : Engine γ where
  network := e.network
  base
  memories := e.memories.map δ.memory
  nextToken := δ.token e.nextToken
  events := e.events.map δ.event
  agenda := e.agenda.map δ.activation
  support := δ.support e.support
  committed := δ.triples e.committed
  suspects := δ.triples e.suspects
  deductions := δ.graph e.deductions
  derivations := δ.log e.derivations
  hidden := δ.hidden e.hidden
  logging := e.logging
  traceFirings := e.traceFirings
  maxRechecks := e.maxRechecks
  state := e.state
  stats := e.stats
  world

section Engines

variable {γ : Type} (e : Engine γ) (base : γ) (world : World)

theorem memory_engine (rule : Nat) :
    (δ.engine e base world).memory rule = δ.memory (e.memory rule) := by
  rw [Engine.memory, Engine.memory, engine, List.getElem?_map]
  cases e.memories[rule]? <;> rfl

theorem engine_setMemory (rule : Nat) (m : TokenMemory) :
    δ.engine (e.setMemory rule m) base world =
      (δ.engine e base world).setMemory rule (δ.memory m) := by
  simp only [engine, Engine.setMemory, List.map_set]

theorem matchedBy_engine (a : Activation) :
    (δ.engine e base world).matchedBy (δ.activation a) = (e.matchedBy a).map δ.triple := by
  rw [Engine.matchedBy, activation, memory_engine, triples_memory, Engine.matchedBy]

theorem firing?_engine (a : Activation) :
    (δ.engine e base world).firing? (δ.activation a) = (e.firing? a).map δ.firing := by
  rw [Engine.firing?, activation, memory_engine, firing?_memory, Engine.firing?]

theorem engine_setFiring (a : Activation) (f : Firing) :
    δ.engine (e.setFiring a f) base world =
      (δ.engine e base world).setFiring (δ.activation a) (δ.firing f) := by
  rw [Engine.setFiring, engine_setMemory, memory_setFiring, Engine.setFiring, activation,
    memory_engine]

theorem engine_schedule (a : Activation) :
    δ.engine (e.schedule a) base world = (δ.engine e base world).schedule (δ.activation a) := by
  have hset := δ.engine_setFiring e base world a .pending
  have hagenda : (e.agenda ++ [a]).map δ.activation =
      (δ.engine e base world).agenda ++ [δ.activation a] := List.map_append
  unfold Engine.schedule
  rw [← hagenda, show Firing.pending = δ.firing .pending from rfl, ← hset]
  rfl

theorem engine_queue (event : Event) :
    δ.engine (e.queue event) base world = (δ.engine e base world).queue (δ.event event) := by
  simp only [engine, Engine.queue, List.map_append, List.map_singleton]

theorem supporters_engine (t : Triple) :
    (δ.engine e base world).supporters (δ.triple t) = (e.supporters t).map δ.activation := by
  have hget := OrderedMap.get?_recode δ.tripleCode δ.supporters e.support t
  unfold Engine.supporters
  rw [show (δ.engine e base world).support.get? (δ.triple t) = _ from hget]
  cases e.support.get? t <;> rfl

theorem tokenCount_engine : (δ.engine e base world).tokenCount = e.tokenCount := by
  rw [Engine.tokenCount, Engine.tokenCount, engine, List.map_map]
  exact congrArg (fun f => (e.memories.map f).foldr (· + ·) 0) (funext δ.size_memory)

theorem reset_engine :
    (δ.engine e base world).reset = δ.engine e.reset base world := by
  have hmemories : (e.network.rules.map fun _ => TokenMemory.empty).map δ.memory =
      e.network.rules.map fun _ => .empty := List.map_map
  simp only [Engine.reset, Engine.start, engine, hmemories]
  rfl

theorem close_engine :
    (δ.engine e base world).close = δ.engine e.close base world := by
  rw [Engine.close, reset_engine]
  rfl

def partialMatch (m : PartialMatch) : PartialMatch :=
  ⟨m.parent.map δ.token, δ.triple m.triple, δ.bindings m.bindings⟩

variable {δ}

theorem joins_engine (c : CompiledRule) (s : Subscriber) {pattern : Triple}
    (hpattern : δ.triple pattern = pattern) (t : Triple) :
    (δ.engine e base world).joins c s pattern (δ.triple t) =
      (e.joins c s pattern t).map δ.partialMatch := by
  have hmatching : ∀ b : Bindings, (δ.bindings b).matching? pattern (δ.triple t) =
      (b.matching? pattern t).map δ.bindings := by
    intro b
    have h := δ.matching?_bindings b pattern t
    rwa [hpattern] at h
  have halone := hmatching (.empty c.rule.numVars)
  rw [δ.bindings_empty] at halone
  unfold Engine.joins
  rw [halone]
  cases (Bindings.empty c.rule.numVars).matching? pattern t with
  | none => rfl
  | some alone =>
      simp only [Option.map_some]
      cases s.level with
      | zero => rfl
      | succ level =>
          simp only [memory_engine, CompiledRule.joinKey_bindings, joining_memory,
            List.filterMap_map, List.map_filterMap]
          refine congrArg (fun f => ((e.memory s.rule).joining level
            (c.joinKey (level + 1) alone)).filterMap f) (funext fun id => ?_)
          simp only [Function.comp_apply, token?_memory]
          cases (e.memory s.rule).token? id with
          | none => rfl
          | some token =>
              simp only [Option.map_some, Option.bind_eq_bind, Option.bind_some]
              rw [show (δ.tokenRecord token).bindings = δ.bindings token.bindings from rfl,
                hmatching]
              cases token.bindings.matching? pattern t <;> rfl

theorem extensions_partialMatch (m : PartialMatch) (id : TokenId) {next : Triple}
    (hnext : δ.triple next = next) (facts : List Triple) :
    (δ.partialMatch m).extensions (δ.token id) next (facts.map δ.triple) =
      (m.extensions id next facts).map δ.partialMatch := by
  rw [PartialMatch.extensions, PartialMatch.extensions, List.filterMap_map, List.map_filterMap]
  refine congrArg (fun f => facts.filterMap f) (funext fun fact => ?_)
  have hmatching := δ.matching?_bindings m.bindings next fact
  rw [hnext] at hmatching
  rw [Function.comp_apply, show (δ.partialMatch m).bindings = δ.bindings m.bindings from rfl,
    hmatching]
  cases m.bindings.matching? next fact <;> rfl

end Engines

end Delay

end Entailment

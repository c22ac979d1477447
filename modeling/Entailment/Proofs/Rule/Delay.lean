import Entailment.Forward.Firing
import Entailment.Proofs.Builtin.Delay
import Entailment.Proofs.Forward.Subscription
import Entailment.Proofs.Graph.Delay

/-!
# Rules later

A rule is timeless if it names no blank node that is moved up, and calls timeless builtins
only.  Then it does to triples that have been moved up what it does to the given ones: it
binds its variables alike, its calls hold alike, and it draws the same conclusions, moved up.
A network of such rules has the same patterns activated.
-/

namespace Entailment

namespace Delay

variable (δ : Delay)

def violation : Violation → Violation
  | .tokenMismatch fact pattern label => .tokenMismatch (δ.triple fact) pattern label
  | .noSupport t => .noSupport (δ.triple t)
  | .notSupporting label t => .notSupporting label (δ.triple t)
  | v => v

def failure : Failure → Failure
  | .invariant v => .invariant (δ.violation v)
  | .graph cause => .graph (δ.graphError cause)
  | cause => cause

/-- The result of work that may fail, moved up. -/
def result {α β : Type} (f : α → β) (r : Except Failure α) : Except Failure β :=
  (r.map f).mapError δ.failure

theorem ofGraph_access {α β : Type} (f : α → β) (r : Except GraphError α) :
    Failure.ofGraph (δ.access f r) = δ.result f (Failure.ofGraph r) := by
  cases r <;> rfl

theorem contexts_ofView {γ : Type} [Graph γ] {Rel : γ → γ → Prop} (h : δ.Bisimulates Rel)
    {base base' : γ} (hbase : Rel base base') (g : MemoryGraph) (label : String)
    (matched : List (Option Triple)) (speculative : Bool) :
    δ.Contexts (.ofView ⟨base, g⟩ label matched speculative)
      (.ofView ⟨base', δ.graph g⟩ label (matched.map (Option.map δ.triple)) speculative) where
  find p := by
    simp only [CallContext.ofView, h.view_find hbase]
    cases View.find ⟨base, g⟩ p <;> rfl
  contains t := by
    simp only [CallContext.ofView, h.view_contains hbase]
    cases View.contains ⟨base, g⟩ t <;> rfl
  matched := rfl
  label := rfl
  speculative := rfl
  keepsEffects := rfl

end Delay

/-! ## Calls -/

/-- The call names no blank node that is moved, and what it calls is timeless. -/
structure Call.Timeless (δ : Delay) (r : Registry) (c : Call) : Prop where
  args : ∀ a ∈ c.args, δ.node a = a
  builtin : ∀ b, r.get? c.name = some b → b.Timeless δ

namespace Call

variable {δ : Delay} {r : Registry} {c : Call} {ctx ctx' : CallContext} {st st' : CallState}

theorem Timeless.resolvedArgs (hc : c.Timeless δ r) (b : Bindings) :
    c.resolvedArgs (δ.bindings b) = (c.resolvedArgs b).map δ.node := by
  rw [Call.resolvedArgs, Call.resolvedArgs, List.map_map]
  refine List.map_congr_left fun a ha => ?_
  have hresolve := δ.resolve_node b a
  rw [hc.args a ha] at hresolve
  rw [hresolve, Function.comp_apply]
  cases b.resolve a with
  | none => exact (hc.args a ha).symm
  | some n => rfl

theorem Timeless.holds (hc : c.Timeless δ r) (hctx : δ.Contexts ctx ctx') (hst : δ.States st st') :
    δ.Answers (c.holds r ctx st) (c.holds r ctx' st') := by
  unfold Call.holds
  cases hb : r.get? c.name with
  | none => exact ⟨rfl, hst⟩
  | some b =>
      simp only
      rw [hst.bindings, hc.resolvedArgs]
      exact (hc.builtin b hb).body _ _ _ _ _ hctx hst

theorem Timeless.act (hc : c.Timeless δ r) (hctx : δ.Contexts ctx ctx') (hst : δ.States st st') :
    δ.States (c.act r ctx st) (c.act r ctx' st') := by
  unfold Call.act
  cases hb : r.get? c.name with
  | none => exact hst
  | some b =>
      simp only
      rw [hst.bindings, hc.resolvedArgs]
      exact ((hc.builtin b hb).head _ _ _ _ _ hctx hst).2

theorem Timeless.holdsSpeculatively (hc : c.Timeless δ r) (hctx : δ.Contexts ctx ctx')
    (hst : δ.States st st') :
    δ.Answers (c.holdsSpeculatively r ctx st) (c.holdsSpeculatively r ctx' st') := by
  unfold Call.holdsSpeculatively
  cases r.get? c.name with
  | none => exact ⟨rfl, hst⟩
  | some b =>
      simp only
      split
      · exact hc.holds hctx hst
      · exact ⟨rfl, hst⟩

end Call

theorem answers_allHold {δ : Delay} {ask ask' : Call → CallState → Bool × CallState}
    {calls : List Call} (hask : ∀ c ∈ calls, ∀ st st', δ.States st st' →
      δ.Answers (ask c st) (ask' c st')) {st st' : CallState} (hst : δ.States st st') :
    δ.Answers (allHold ask calls st) (allHold ask' calls st') := by
  induction calls generalizing st st' with
  | nil => exact ⟨rfl, hst⟩
  | cons c calls ih =>
      have hfirst := hask c List.mem_cons_self st st' hst
      unfold allHold
      generalize ask c st = result at hfirst ⊢
      generalize ask' c st' = result' at hfirst ⊢
      obtain ⟨answer, st₁⟩ := result
      obtain ⟨answer', st₁'⟩ := result'
      obtain ⟨hanswer, hstates⟩ := hfirst
      obtain rfl : answer' = answer := hanswer
      cases answer' with
      | false => exact ⟨rfl, hstates⟩
      | true => exact ih (fun c hc => hask c (List.mem_cons_of_mem _ hc)) hstates

/-! ## Conclusions -/

def Clause.Timeless (δ : Delay) (r : Registry) : Clause → Prop
  | .pattern t => δ.triple t = t
  | .call c => c.Timeless δ r

section Conclusions

variable {δ : Delay} {r : Registry} {ctx ctx' : CallContext} {st st' : CallState}

theorem Clause.Timeless.carryOut {c : Clause} (hc : c.Timeless δ r) (hctx : δ.Contexts ctx ctx')
    (hst : δ.States st st') (drawn : OrderedSet Triple) :
    (c.carryOut r ctx' (drawn.recode δ.tripleCode, st')).1 =
        (c.carryOut r ctx (drawn, st)).1.recode δ.tripleCode ∧
      δ.States (c.carryOut r ctx (drawn, st)).2
        (c.carryOut r ctx' (drawn.recode δ.tripleCode, st')).2 := by
  cases c with
  | call c => exact ⟨rfl, Call.Timeless.act hc hctx hst⟩
  | pattern t =>
      have ht : δ.triple t = t := hc
      obtain ⟨hinstance, hstates⟩ := hst.instantiate t
      rw [ht] at hinstance hstates
      simp only [Clause.carryOut]
      rw [hinstance]
      exact ⟨(OrderedSet.recode_insert δ.tripleCode drawn _).symm, hstates⟩

theorem conclude_timeless {rule : Rule} (hhead : ∀ c ∈ rule.head, c.Timeless δ r)
    (hctx : δ.Contexts ctx ctx') (hst : δ.States st st') :
    (rule.conclude r ctx' st').1 = (rule.conclude r ctx st).1.map δ.triple ∧
      δ.States (rule.conclude r ctx st).2 (rule.conclude r ctx' st').2 := by
  have hfold : ∀ (clauses : List Clause), (∀ c ∈ clauses, c.Timeless δ r) →
      ∀ (drawn : OrderedSet Triple) (st st' : CallState), δ.States st st' →
      (clauses.foldl (Clause.carryOut r ctx') (drawn.recode δ.tripleCode, st')).1 =
          (clauses.foldl (Clause.carryOut r ctx) (drawn, st)).1.recode δ.tripleCode ∧
        δ.States (clauses.foldl (Clause.carryOut r ctx) (drawn, st)).2
          (clauses.foldl (Clause.carryOut r ctx') (drawn.recode δ.tripleCode, st')).2 := by
    intro clauses hclauses
    induction clauses with
    | nil => exact fun drawn st st' hst => ⟨rfl, hst⟩
    | cons c clauses ih =>
        intro drawn st st' hst
        obtain ⟨hdrawn, hstates⟩ :=
          (hclauses c List.mem_cons_self).carryOut hctx hst drawn
        simp only [List.foldl_cons]
        have hrest := ih (fun c hc => hclauses c (List.mem_cons_of_mem _ hc))
          (c.carryOut r ctx (drawn, st)).1 _ _ hstates
        rwa [← hdrawn] at hrest
  obtain ⟨hdrawn, hstates⟩ := hfold rule.head hhead .empty st st' hst
  exact ⟨congrArg OrderedSet.members hdrawn, hstates⟩

end Conclusions

/-! ## Compiled rules -/

/-- Neither the body nor the head of the rule names a blank node that is moved, and what they
call is timeless. -/
structure CompiledRule.Timeless (δ : Delay) (r : Registry) (c : CompiledRule) : Prop where
  patterns : ∀ p ∈ c.patterns, δ.triple p.2 = p.2
  calls : ∀ call ∈ c.calls, call.Timeless δ r
  head : ∀ clause ∈ c.rule.head, clause.Timeless δ r

namespace CompiledRule

variable {δ : Delay} {r : Registry} {c : CompiledRule}

theorem matched_map (c : CompiledRule) (token : List Triple) :
    c.matched (token.map δ.triple) = (c.matched token).map (Option.map δ.triple) := by
  have hfold : ∀ (pairs : List ((Nat × Triple) × Triple)) (found : List (Option Triple)),
      (pairs.map (Prod.map id δ.triple)).foldl
          (fun found pair => found.set pair.1.1 (some pair.2))
          (found.map (Option.map δ.triple)) =
        (pairs.foldl (fun found pair => found.set pair.1.1 (some pair.2)) found).map
          (Option.map δ.triple) := by
    intro pairs
    induction pairs with
    | nil => exact fun _ => rfl
    | cons pair pairs ih =>
        intro found
        rw [List.map_cons, List.foldl_cons, List.foldl_cons, ← ih, List.map_set]
        rfl
  rw [matched, matched, List.zip_map_right, ← hfold, List.map_replicate]
  rfl

theorem Timeless.unifyToken (hc : c.Timeless δ r) {pairs : List ((Nat × Triple) × Triple)}
    (hpairs : ∀ pair ∈ pairs, pair.1 ∈ c.patterns) (b : Bindings) :
    c.unifyToken (pairs.map (Prod.map id δ.triple)) (δ.bindings b) =
      δ.result δ.bindings (c.unifyToken pairs b) := by
  induction pairs generalizing b with
  | nil => rfl
  | cons pair pairs ih =>
      obtain ⟨⟨place, pattern⟩, fact⟩ := pair
      have hpattern := hc.patterns _ (hpairs _ List.mem_cons_self)
      have hmatching := δ.matching?_bindings b pattern fact
      rw [hpattern] at hmatching
      rw [List.map_cons]
      simp only [Prod.map, CompiledRule.unifyToken, id]
      rw [hmatching]
      cases b.matching? pattern fact with
      | none => rfl
      | some b₁ => exact ih (fun pair hpair => hpairs pair (List.mem_cons_of_mem _ hpair)) b₁

theorem Timeless.bindings (hc : c.Timeless δ r) (token : List Triple) :
    c.bindings (token.map δ.triple) = δ.result δ.bindings (c.bindings token) := by
  rw [CompiledRule.bindings, CompiledRule.bindings, List.length_map]
  split
  · have hpairs : ∀ pair ∈ c.patterns.zip token, pair.1 ∈ c.patterns :=
      fun pair hpair => (List.of_mem_zip hpair).1
    have hunify := hc.unifyToken hpairs (.empty c.rule.numVars)
    rwa [δ.bindings_empty, ← List.zip_map_right] at hunify
  · rfl

theorem joinKey_bindings (c : CompiledRule) (level : Nat) (b : Bindings) :
    c.joinKey level (δ.bindings b) = (c.joinKey level b).map δ.node := by
  rw [joinKey, joinKey, List.map_map]
  refine List.map_congr_left fun i _ => ?_
  rw [δ.value_bindings, Function.comp_apply]
  cases b.value i <;> rfl

theorem Timeless.evaluate (hc : c.Timeless δ r) {ctx ctx' : CallContext}
    (hctx : δ.Contexts ctx ctx') {st st' : CallState} (hst : δ.States st st') :
    (c.evaluate r ctx' st').1 = (c.evaluate r ctx st).1.map (List.map δ.triple) ∧
      δ.States (c.evaluate r ctx st).2 (c.evaluate r ctx' st').2 := by
  have hcalls : δ.Answers (allHold (fun call st => call.holds r ctx st) c.calls st)
      (allHold (fun call st => call.holds r ctx' st) c.calls st') :=
    answers_allHold (fun call hcall _ _ hst => (hc.calls call hcall).holds hctx hst) hst
  unfold CompiledRule.evaluate
  generalize allHold (fun call st => call.holds r ctx st) c.calls st = result at hcalls ⊢
  generalize allHold (fun call st => call.holds r ctx' st) c.calls st' = result' at hcalls ⊢
  obtain ⟨answer, st₁⟩ := result
  obtain ⟨answer', st₁'⟩ := result'
  obtain ⟨hanswer, hstates⟩ := hcalls
  obtain rfl : answer' = answer := hanswer
  cases answer' with
  | false => exact ⟨rfl, hstates⟩
  | true =>
      obtain ⟨hconclusions, hstates⟩ := conclude_timeless hc.head hctx hstates
      exact ⟨congrArg some hconclusions, hstates⟩

theorem Timeless.heldSpeculatively (hc : c.Timeless δ r) {ctx ctx' : CallContext}
    (hctx : δ.Contexts ctx ctx') {st st' : CallState} (hst : δ.States st st') :
    δ.Answers (allHold (fun call st => call.holdsSpeculatively r ctx st) c.calls st)
      (allHold (fun call st => call.holdsSpeculatively r ctx' st) c.calls st') :=
  answers_allHold (fun call hcall _ _ hst => (hc.calls call hcall).holdsSpeculatively hctx hst) hst

/-- A rule whose clauses are timeless is so once it is compiled. -/
theorem timeless_ofRule {rule : Rule} (h : ∀ clause ∈ rule.clauses, clause.Timeless δ r)
    (registry : Registry) : (ofRule registry rule).Timeless δ r where
  patterns p hp := by
    obtain ⟨⟨clause, i⟩, hmem, hp⟩ := List.mem_filterMap.1 hp
    obtain ⟨t, ht, rfl⟩ := Option.map_eq_some_iff.1 hp
    have hclause := h clause (List.mem_append_left _ (List.fst_mem_of_mem_zipIdx hmem))
    cases clause with
    | pattern u =>
        cases ht
        exact hclause
    | call c => cases ht
  calls call hcall := by
    obtain ⟨⟨i, c⟩, hc, rfl⟩ := List.mem_map.1 hcall
    obtain ⟨⟨clause, j⟩, hmem, hc⟩ := List.mem_filterMap.1 hc
    obtain ⟨d, hd, hcall⟩ := Option.map_eq_some_iff.1 hc
    cases hcall
    have hclause := h clause (List.mem_append_left _ (List.fst_mem_of_mem_zipIdx hmem))
    cases clause with
    | pattern u => cases hd
    | call d =>
        cases hd
        exact hclause
  head clause hclause := h clause (List.mem_append_right _ hclause)

end CompiledRule

/-! ## Networks -/

/-- All rules of the network are timeless. -/
structure Network.Timeless (δ : Delay) (n : Network) : Prop where
  wired : n.Wired
  rule : ∀ i c, n.rule? i = some c → c.Timeless δ n.registry

namespace Network

variable {δ : Delay} {n : Network}

theorem timeless_of_compile {rules : List Rule} {registry : Registry}
    (h : compile rules registry = .ok n)
    (hrules : ∀ rule ∈ rules, ∀ clause ∈ rule.clauses, clause.Timeless δ registry) :
    n.Timeless δ := by
  obtain ⟨hwired, rfl, hcompiled⟩ := compile_eq_ok h
  refine ⟨hwired, fun i c hc => ?_⟩
  rw [rule?, hcompiled] at hc
  obtain ⟨rule, hrule, rfl⟩ := List.mem_map.1 (List.mem_of_getElem? hc)
  exact CompiledRule.timeless_ofRule (hrules rule hrule) _

theorem Timeless.shape (hn : n.Timeless δ) {q : SharedPattern} (hq : q ∈ n.patterns)
    {s : Subscriber} (hs : s ∈ q.subscribers) : δ.triple q.shape = q.shape := by
  obtain ⟨p, hshape, _⟩ := hn.wired.filed.shaped q hq
  obtain ⟨c, p', hc, hp', hsame⟩ := hn.wired.origin p s ⟨q, hq, by rw [hshape]; exact BEq.rfl, hs⟩
  have hfixed := (hn.rule s.rule c hc).patterns p' (List.mem_of_getElem? hp')
  have hshapeFixed : δ.triple p'.2.shape = p'.2.shape := by rw [← δ.shape_triple, hfixed]
  rw [hshape]
  exact δ.triple_eq_self_congr (BEq.symm hsame) hshapeFixed

theorem Timeless.accepts (hn : n.Timeless δ) {q : SharedPattern} (hq : q ∈ n.patterns)
    {s : Subscriber} (hs : s ∈ q.subscribers) (t : Triple) :
    q.accepts (δ.triple t) = q.accepts t := by
  have hmatching := δ.matching?_bindings (.empty q.varCount) q.shape t
  rw [hn.shape hq hs, δ.bindings_empty] at hmatching
  rw [SharedPattern.accepts, hmatching, Option.isSome_map, SharedPattern.accepts]

/-- The subscribers of those of the patterns that accept a triple. -/
def listeners (n : Network) (t : Triple) (places : List Nat) : List Subscriber :=
  ((places.filterMap fun place => n.patterns[place]?).filter (·.accepts t)).flatMap
    SharedPattern.subscribers

theorem listeners_eq_nil {t : Triple} {places : List Nat} (h : ∀ place ∈ places, ∀ q,
    n.patterns[place]? = some q → q.subscribers = []) : n.listeners t places = [] := by
  refine List.flatMap_eq_nil_iff.2 fun q hq => ?_
  obtain ⟨place, hplace, hget⟩ := List.mem_filterMap.1 (List.mem_filter.1 hq).1
  exact h place hplace q hget

theorem Timeless.listeners (hn : n.Timeless δ) (t : Triple) (places : List Nat) :
    n.listeners (δ.triple t) places = n.listeners t places := by
  have hall : ∀ qs : List SharedPattern, (∀ q ∈ qs, q ∈ n.patterns) →
      (qs.filter (·.accepts (δ.triple t))).flatMap SharedPattern.subscribers =
        (qs.filter (·.accepts t)).flatMap SharedPattern.subscribers := by
    intro qs hqs
    induction qs with
    | nil => rfl
    | cons q qs ih =>
        have hrest := ih fun q hq => hqs q (List.mem_cons_of_mem _ hq)
        cases hsubscribers : q.subscribers with
        | nil =>
            rw [List.filter_cons, List.filter_cons]
            split <;> split <;> simp [hsubscribers, hrest]
        | cons s _ =>
            have haccepts := hn.accepts (hqs q List.mem_cons_self) (s := s)
              (by rw [hsubscribers]; exact List.mem_cons_self) t
            rw [List.filter_cons, List.filter_cons, haccepts]
            split
            · rw [List.flatMap_cons, List.flatMap_cons, hrest]
            · exact hrest
  refine hall _ fun q hq => ?_
  obtain ⟨place, _, hget⟩ := List.mem_filterMap.1 hq
  exact List.mem_of_getElem? hget

/-- Patterns that are filed under a predicate that is moved have no subscriber. -/
theorem Timeless.listeners_keyed (hn : n.Timeless δ) (t : Triple) (predicate : Node) :
    n.listeners t ((n.byPredicate.get? (δ.node predicate)).getD []) =
      n.listeners t ((n.byPredicate.get? predicate).getD []) := by
  have hstays : ∀ (place : Nat) (q : SharedPattern), n.patterns[place]? = some q →
      q.subscribers ≠ [] →
      δ.node q.shape.predicate = q.shape.predicate := by
    intro place q hget hsome
    obtain ⟨s, hs⟩ := List.exists_mem_of_ne_nil _ hsome
    have hshape := hn.shape (List.mem_of_getElem? hget) hs
    exact congrArg Triple.predicate hshape
  cases hsame : predicate == δ.node predicate with
  | true => rw [OrderedMap.get?_congr _ hsame]
  | false =>
      have hnone : ∀ key, (key = predicate ∨ key = δ.node predicate) →
          n.listeners t ((n.byPredicate.get? key).getD []) = [] := by
        intro key hkey
        refine listeners_eq_nil fun place hplace q hget => ?_
        obtain ⟨q', hq', _, hpredicate⟩ := (hn.wired.filed.keyed_iff key place).1 hplace
        obtain rfl := Option.some.inj (hget.symm.trans hq')
        by_contra hsome
        have hfixed := hstays place q hget hsome
        rcases hkey with rfl | rfl
        · have hmoved : (δ.node q.shape.predicate == δ.node key) = true := by
            rwa [δ.node_beq]
          rw [hfixed] at hmoved
          rw [BEq.trans (BEq.symm hpredicate) hmoved] at hsame
          cases hsame
        · have hback : (q.shape.predicate == predicate) = true := by
            rwa [← hfixed, δ.node_beq] at hpredicate
          rw [BEq.trans (BEq.symm hback) hpredicate] at hsame
          cases hsame
      rw [hnone _ (Or.inr rfl), hnone _ (Or.inl rfl)]

theorem Timeless.activations (hn : n.Timeless δ) (t : Triple) :
    n.activations (δ.triple t) = n.activations t := by
  have happend : ∀ u places places', n.listeners u (places ++ places') =
      n.listeners u places ++ n.listeners u places' := by
    intro u places places'
    simp only [Network.listeners, List.filterMap_append, List.filter_append, List.flatMap_append]
  have hcandidates : n.listeners (δ.triple t) (n.candidates (δ.triple t).predicate) =
      n.listeners t (n.candidates t.predicate) := by
    rw [hn.listeners, candidates, candidates, happend, happend]
    exact congrArg (· ++ _) (hn.listeners_keyed t t.predicate)
  exact congrArg (fun subscribers => (subscribers.mergeSort Subscriber.precedes).eraseDups)
    hcandidates

end Network

end Entailment

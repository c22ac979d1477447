import Entailment.Builtin.Standard
import Entailment.Proofs.Matching.Delay

/-!
# Builtins later

A builtin is timeless for a delay if, with context, arguments and bindings moved up, it gives
the same answer and leaves the same moved up, whatever has been written and whatever the time
is.  So a builtin that is timeless for delays without blank nodes is deterministic.  All
standard builtins are timeless but two.  `now` reads the clock.  `makeSkolem` names a node by
a hash of its arguments, and the hash of a blank node that has been moved up is another one;
where no blank node is moved it is timeless too.
-/

namespace Entailment

namespace Delay

variable (δ : Delay)

def effects (e : Effects) : Effects where
  removed := e.removed.map δ.triple
  dropped := e.dropped.map δ.triple
  hidden := e.hidden.map δ.node

/-- A context that has seen the same triples, moved up. -/
structure Contexts (ctx ctx' : CallContext) : Prop where
  find : ∀ p, ctx'.find (δ.pattern p) = (ctx.find p).map δ.triple
  contains : ∀ t, ctx'.contains (δ.triple t) = ctx.contains t
  matched : ctx'.matched = ctx.matched.map (Option.map δ.triple)
  label : ctx'.label = ctx.label
  speculative : ctx'.speculative = ctx.speculative
  keepsEffects : ctx'.keepsEffects = ctx.keepsEffects

/-- The same state, moved up; what has been written and the time may be different. -/
structure States (st st' : CallState) : Prop where
  bindings : st'.bindings = δ.bindings st.bindings
  effects : st'.effects = δ.effects st.effects
  supply : st'.world.supply = δ.supply st.world.supply
  ready : δ.Ready st.world.supply

/-- The same answer, with the same state moved up. -/
def Answers (result result' : Bool × CallState) : Prop :=
  result'.1 = result.1 ∧ δ.States result.2 result'.2

end Delay

def Procedure.Timeless (δ : Delay) (procedure : Procedure) : Prop :=
  ∀ ctx ctx' args st st', δ.Contexts ctx ctx' → δ.States st st' →
    δ.Answers (procedure ctx args st) (procedure ctx' (args.map δ.node) st')

structure Builtin.Timeless (δ : Delay) (b : Builtin) : Prop where
  body : Procedure.Timeless δ b.body
  head : Procedure.Timeless δ b.head

namespace Delay

variable {δ : Delay}

/-! ## Values -/

@[simp]
theorem numeric_node (n : Node) : Numeric.ofNode (δ.node n) = Numeric.ofNode n := by
  cases n <;> simp [Numeric.ofNode]

@[simp]
theorem node_toNode (value : Numeric) : δ.node value.toNode = value.toNode := by
  cases value <;> rfl

@[simp]
theorem lexical?_node (n : Node) : (δ.node n).lexical? = n.lexical? := by
  cases n <;> simp [Node.lexical?]

@[simp]
theorem position?_node (n : Node) : (δ.node n).position? = n.position? := by
  cases n <;> simp [Node.position?]

@[simp]
theorem sameValue_node (m n : Node) : (δ.node m).sameValue (δ.node n) = m.sameValue n := by
  simp [Node.sameValue]

@[simp]
theorem compareValues?_node (m n : Node) :
    (δ.node m).compareValues? (δ.node n) = m.compareValues? n := by
  cases m <;> cases n <;> rfl

/-! ## States -/

variable {st st' : CallState}

theorem States.bind (h : δ.States st st') (target value : Node) :
    δ.Answers (st.bind target value) (st'.bind (δ.node target) (δ.node value)) := by
  have hbind := δ.bind_bindings st.bindings target value
  rw [← h.bindings] at hbind
  simp only [CallState.bind, hbind]
  exact ⟨rfl, rfl, h.effects, h.supply, h.ready⟩

theorem States.bindNumber (h : δ.States st st') (target : Node) (value : Numeric) :
    δ.Answers (st.bindNumber target value) (st'.bindNumber (δ.node target) value) := by
  rw [CallState.bindNumber, CallState.bindNumber, numeric_node]
  cases Numeric.ofNode target with
  | some existing => exact ⟨rfl, h⟩
  | none => simpa using h.bind target value.toNode

theorem States.bindNumber? (h : δ.States st st') (target : Node) (value : Option Numeric) :
    δ.Answers (st.bindNumber? target value) (st'.bindNumber? (δ.node target) value) := by
  cases value with
  | none => exact ⟨rfl, h⟩
  | some value => exact h.bindNumber target value

theorem States.overflow (h : δ.States st st') : δ.States st.overflow st'.overflow :=
  ⟨h.bindings, h.effects, h.supply, h.ready⟩

theorem States.print (h : δ.States st st') (line line' : String) :
    δ.States (st.print line) (st'.print line') :=
  ⟨h.bindings, h.effects, h.supply, h.ready⟩

theorem States.effect (h : δ.States st st') {ctx ctx' : CallContext} (hctx : δ.Contexts ctx ctx')
    {change change' : Effects → Effects}
    (hchange : ∀ e, change' (δ.effects e) = δ.effects (change e)) :
    δ.States (st.effect ctx change) (st'.effect ctx' change') := by
  unfold CallState.effect
  rw [hctx.keepsEffects]
  split
  · exact ⟨h.bindings, by rw [h.effects, hchange], h.supply, h.ready⟩
  · exact h

theorem States.remove (h : δ.States st st') {ctx ctx' : CallContext} (hctx : δ.Contexts ctx ctx')
    (t : Triple) : δ.States (st.remove ctx t) (st'.remove ctx' (δ.triple t)) := by
  refine h.effect hctx fun e => ?_
  simp [Delay.effects]

theorem States.drop (h : δ.States st st') {ctx ctx' : CallContext} (hctx : δ.Contexts ctx ctx')
    (t : Triple) : δ.States (st.drop ctx t) (st'.drop ctx' (δ.triple t)) := by
  refine h.effect hctx fun e => ?_
  simp [Delay.effects]

theorem States.hide (h : δ.States st st') {ctx ctx' : CallContext} (hctx : δ.Contexts ctx ctx')
    (predicate : Node) : δ.States (st.hide ctx predicate) (st'.hide ctx' (δ.node predicate)) := by
  refine h.effect hctx fun e => ?_
  simp [Delay.effects]

theorem States.freshBlank (h : δ.States st st') :
    st'.freshBlank.1 = δ.node st.freshBlank.1 ∧ δ.States st.freshBlank.2 st'.freshBlank.2 := by
  have hfresh := h.ready.fresh
  rw [← h.supply] at hfresh
  simp only [CallState.freshBlank, hfresh]
  exact ⟨trivial, h.bindings, h.effects, rfl, h.ready.after_fresh⟩

theorem States.instantiate (h : δ.States st st') (pattern : Triple) :
    (st'.instantiate (δ.triple pattern)).1 = δ.triple (st.instantiate pattern).1 ∧
      δ.States (st.instantiate pattern).2 (st'.instantiate (δ.triple pattern)).2 := by
  obtain ⟨hinstance, hready⟩ := h.ready.instantiate (b := st.bindings) pattern
  rw [← h.supply, ← h.bindings] at hinstance
  simp only [CallState.instantiate, hinstance]
  exact ⟨trivial, rfl, h.effects, rfl, hready⟩

end Delay

/-! ## Comparing, classifying and computing -/

namespace Builtin

open Delay

variable {δ : Delay}

/-- A builtin without a head of its own. -/
theorem timeless_of_body {b : Builtin} (hhead : b.head = b.body)
    (hbody : Procedure.Timeless δ b.body) : b.Timeless δ := ⟨hbody, by rwa [hhead]⟩

theorem timeless_ofTest (name : String) (arity : Nat) {test : List Node → Bool}
    (htest : ∀ args, test (args.map δ.node) = test args) : (ofTest name arity test).Timeless δ :=
  timeless_of_body rfl fun _ _ args _ _ _ hst => ⟨htest args, hst⟩

theorem timeless_comparison (name : String) {test : Node → Node → Bool}
    (htest : ∀ m n, test (δ.node m) (δ.node n) = test m n) :
    (comparison name test).Timeless δ := by
  refine timeless_ofTest _ _ fun args => ?_
  match args with
  | [] | [_] | _ :: _ :: _ :: _ => rfl
  | [m, n] => simp [htest]

theorem timeless_kindTest (name : String) {test : Node → Bool}
    (htest : ∀ n, test (δ.node n) = test n) : (kindTest name test).Timeless δ := by
  refine timeless_ofTest _ _ fun args => ?_
  cases args with
  | nil => rfl
  | cons n _ => exact htest n

theorem timeless_datatypeTest : datatypeTest.Timeless δ := by
  refine timeless_ofTest _ _ fun args => ?_
  match args with
  | [] => rfl
  | [m] => cases m <;> rfl
  | [m, n] | m :: n :: _ :: _ => cases m <;> cases n <;> rfl

theorem timeless_arithmetic (name : String) (whole : Int64 → Int64 → WholeResult)
    (real : Double → Double → Option Double) : (arithmetic name whole real).Timeless δ := by
  refine timeless_of_body rfl fun ctx ctx' args st st' _ hst => ?_
  match args with
  | [] | [_] | [_, _] | _ :: _ :: _ :: _ :: _ => exact ⟨rfl, hst⟩
  | [a, b, target] =>
      simp only [arithmetic, List.map_cons, List.map_nil, numeric_node]
      split
      · split
        · split
          · exact hst.bindNumber target _
          · exact hst.bindNumber? target _
          · exact ⟨rfl, hst.overflow⟩
        · exact hst.bindNumber? target _
      · exact ⟨rfl, hst⟩

theorem timeless_extremum (name : String) (takesFirst : Ordering → Bool) :
    (extremum name takesFirst).Timeless δ := by
  refine timeless_of_body rfl fun ctx ctx' args st st' _ hst => ?_
  match args with
  | [] | [_] | [_, _] | _ :: _ :: _ :: _ :: _ => exact ⟨rfl, hst⟩
  | [a, b, target] =>
      simp only [extremum, List.map_cons, List.map_nil, numeric_node]
      split
      · split
        · rename_i order _
          cases takesFirst order with
          | true => exact hst.bind target a
          | false => exact hst.bind target b
        · exact ⟨rfl, hst⟩
      · exact ⟨rfl, hst⟩

theorem timeless_successor : successor.Timeless δ := by
  refine timeless_of_body rfl fun ctx ctx' args st st' _ hst => ?_
  match args with
  | [] | [_] | _ :: _ :: _ :: _ => exact ⟨rfl, hst⟩
  | [a, target] =>
      simp only [successor, List.map_cons, List.map_nil, numeric_node]
      split
      · exact hst.bindNumber? target _
      · exact hst.bindNumber target _
      · exact ⟨rfl, hst⟩

/-! ## Texts -/

theorem mapM_lexical? (ns : List Node) :
    (ns.map δ.node).mapM Node.lexical? = ns.mapM Node.lexical? := by
  rw [mapM_map_of_map (h := id) (f := Node.lexical?) fun n => by
    rw [lexical?_node, Option.map_id, id]]
  simp

theorem timeless_concatenation (name : String) {make : String → Node}
    (hmake : ∀ s, δ.node (make s) = make s) : (concatenation name make).Timeless δ := by
  refine timeless_of_body rfl fun ctx ctx' args st st' _ hst => ?_
  simp only [concatenation, List.getLast?_map, ← List.map_dropLast, mapM_lexical?]
  cases args.getLast? with
  | none => exact ⟨rfl, hst⟩
  | some target =>
      simp only [Option.map_some]
      split
      · rename_i parts _
        have hbind := hst.bind target (make (String.join parts))
        rwa [hmake] at hbind
      · exact ⟨rfl, hst⟩

theorem answers_bindEach {st st' : CallState} (h : δ.States st st') {pairs : List (Node × Node)}
    (hvalues : ∀ pair ∈ pairs, δ.node pair.2 = pair.2) :
    δ.Answers (bindEach pairs st) (bindEach (pairs.map fun p => (δ.node p.1, p.2)) st') := by
  induction pairs generalizing st st' with
  | nil => exact ⟨rfl, h⟩
  | cons pair pairs ih =>
      obtain ⟨target, value⟩ := pair
      have hbind := h.bind target value
      rw [hvalues _ List.mem_cons_self] at hbind
      simp only [List.map_cons, bindEach]
      generalize st.bind target value = result at hbind ⊢
      generalize st'.bind (δ.node target) value = result' at hbind ⊢
      obtain ⟨answer, st₁⟩ := result
      obtain ⟨answer', st₁'⟩ := result'
      obtain ⟨hanswer, hstates⟩ := hbind
      obtain rfl : answer' = answer := hanswer
      cases answer' with
      | false => exact ⟨rfl, hstates⟩
      | true => exact ih hstates fun pair hpair => hvalues pair (List.mem_cons_of_mem _ hpair)

theorem timeless_regexMatch : regexMatch.Timeless δ := by
  refine timeless_of_body rfl fun ctx ctx' args st st' _ hst => ?_
  match args with
  | [] | [_] => exact ⟨rfl, hst⟩
  | text :: pattern :: targets =>
      simp only [regexMatch, List.map_cons, lexical?_node, List.length_map]
      split
      · split
        · rw [List.zip_map_left]
          exact answers_bindEach hst fun pair hpair => by
            obtain ⟨i, _, hvalue⟩ := List.mem_map.1 (List.of_mem_zip hpair).2
            rw [← hvalue]
            rfl
        · exact ⟨rfl, hst⟩
      · exact ⟨rfl, hst⟩

theorem timeless_textLength : textLength.Timeless δ := by
  refine timeless_of_body rfl fun ctx ctx' args st st' _ hst => ?_
  match args with
  | [] | [_] | _ :: _ :: _ :: _ => exact ⟨rfl, hst⟩
  | [text, target] =>
      simp only [textLength, List.map_cons, List.map_nil, lexical?_node]
      split
      · exact hst.bind target _
      · exact ⟨rfl, hst⟩

/-! ## Lists in the graph -/

theorem isEnd_node (cell : Node) : Chain.isEnd (δ.node cell) = Chain.isEnd cell := by
  rw [Chain.isEnd, uri?_node, Chain.isEnd]

section Chains

variable {ctx ctx' : CallContext}

theorem valueOf_node (h : δ.Contexts ctx ctx') (cell : Node) (predicate : String) :
    Chain.valueOf ctx' (δ.node cell) predicate = (Chain.valueOf ctx cell predicate).map δ.node := by
  have hfind := h.find { subject := some cell, predicate := some (.uri predicate) }
  simp only [pattern, Option.map_some, node_uri, Option.map_none] at hfind
  rw [Chain.valueOf, hfind, Chain.valueOf, List.head?_map, Option.map_map, Option.map_map]
  rfl

theorem follow_node (h : δ.Contexts ctx ctx') (steps : Nat) (seen : List Node) (cell : Node) :
    Chain.follow ctx' steps (seen.map δ.node) (δ.node cell) =
      (Chain.follow ctx steps seen cell).map (List.map δ.node) := by
  induction steps generalizing seen cell with
  | zero => rfl
  | succ steps ih =>
      have hseen := contains_map_code δ.nodeCode seen cell
      simp only [nodeCode] at hseen
      rw [Chain.follow, Chain.follow, isEnd_node, hseen, valueOf_node h, valueOf_node h]
      split
      · rfl
      · split
        · rfl
        · cases Chain.valueOf ctx cell Vocabulary.first with
          | none => rfl
          | some value =>
              cases Chain.valueOf ctx cell Vocabulary.rest with
              | none => rfl
              | some next =>
                  simp only [Option.map_some, Option.bind_eq_bind, Option.bind_some]
                  rw [← List.map_cons, ih]
                  cases Chain.follow ctx steps (cell :: seen) next <;> rfl

theorem elements_node (h : δ.Contexts ctx ctx') (list : Node) :
    Chain.elements ctx' (δ.node list) = (Chain.elements ctx list).map (List.map δ.node) := by
  have hbound : Chain.stepBound ctx' = Chain.stepBound ctx := by
    have hfind := h.find { predicate := some (.uri Vocabulary.rest) }
    simp only [pattern, Option.map_some, node_uri, Option.map_none] at hfind
    rw [Chain.stepBound, Chain.stepBound, hfind, List.length_map]
  rw [Chain.elements, Chain.elements, hbound]
  exact follow_node h _ [] list

end Chains

theorem timeless_membership (name : String) (expected : Bool) :
    (membership name expected).Timeless δ := by
  refine timeless_of_body rfl fun ctx ctx' args st st' hctx hst => ?_
  match args with
  | [] | [_] | _ :: _ :: _ :: _ => exact ⟨rfl, hst⟩
  | [list, value] =>
      refine ⟨?_, hst⟩
      simp only [membership, List.map_cons, List.map_nil, elements_node hctx, isGround_node]
      cases Chain.elements ctx list with
      | none => rfl
      | some items => simp [List.any_map, Function.comp_def]

theorem timeless_chainLength : chainLength.Timeless δ := by
  refine timeless_of_body rfl fun ctx ctx' args st st' hctx hst => ?_
  match args with
  | [] | [_] | _ :: _ :: _ :: _ => exact ⟨rfl, hst⟩
  | [list, target] =>
      simp only [chainLength, List.map_cons, List.map_nil, elements_node hctx]
      cases Chain.elements ctx list with
      | none => exact ⟨rfl, hst⟩
      | some items =>
          simp only [Option.map_some, List.length_map]
          exact hst.bind target _

theorem timeless_chainEntry : chainEntry.Timeless δ := by
  refine timeless_of_body rfl fun ctx ctx' args st st' hctx hst => ?_
  match args with
  | [] | [_] | [_, _] | _ :: _ :: _ :: _ :: _ => exact ⟨rfl, hst⟩
  | [list, position, target] =>
      have hentry : ((δ.node position).position?.bind fun i =>
            (Chain.elements ctx' (δ.node list)).bind fun xs => xs[i]?) =
          (position.position?.bind fun i =>
            (Chain.elements ctx list).bind fun xs => xs[i]?).map δ.node := by
        rw [position?_node, elements_node hctx]
        cases position.position? with
        | none => rfl
        | some i =>
            cases Chain.elements ctx list with
            | none => rfl
            | some items => exact List.getElem?_map
      simp only [chainEntry, List.map_cons, List.map_nil, hentry]
      cases position.position?.bind fun i => (Chain.elements ctx list).bind fun xs => xs[i]? with
      | none => exact ⟨rfl, hst⟩
      | some item => exact hst.bind target item

/-! ## Negation, effects and new nodes -/

theorem negatedPattern_map (args : List Node) :
    negatedPattern (args.map δ.node) = (negatedPattern args).map δ.pattern := by
  match args with
  | [] | [_] | _ :: _ :: _ :: _ :: _ => rfl
  | [s, p] | [s, p, o] => simp [negatedPattern, fixing_node, pattern]

theorem timeless_noValue : noValue.Timeless δ := by
  refine timeless_of_body rfl fun ctx ctx' args st st' hctx hst => ?_
  simp only [noValue, negatedPattern_map]
  cases negatedPattern args with
  | none => exact ⟨rfl, hst⟩
  | some p =>
      refine ⟨?_, hst⟩
      simp only [Option.map_some, hctx.find, List.isEmpty_map]

theorem targets_map {ctx ctx' : CallContext} (h : δ.Contexts ctx ctx') (args : List Node) :
    targets ctx' (args.map δ.node) = (targets ctx args).map δ.triple := by
  have hmatched : ∀ i, ctx'.matched? i = (ctx.matched? i).map δ.triple := by
    intro i
    rw [CallContext.matched?, CallContext.matched?, h.matched, List.getElem?_map]
    cases ctx.matched[i]? with
    | none => rfl
    | some entry => cases entry <;> rfl
  rw [targets, targets, List.filterMap_map, List.map_filterMap]
  refine congrArg (fun f => args.filterMap f) (funext fun a => ?_)
  rw [Function.comp_apply, position?_node]
  cases a.position? with
  | none => rfl
  | some i => exact hmatched i

theorem timeless_removal (name : String) {remove : CallState → CallContext → Triple → CallState}
    (hremove : ∀ ctx ctx' st st' t, δ.Contexts ctx ctx' → δ.States st st' →
      δ.States (remove st ctx t) (remove st' ctx' (δ.triple t))) :
    (removal name remove).Timeless δ where
  body _ _ _ _ _ _ hst := ⟨rfl, hst⟩
  head := by
    intro ctx ctx' args st st' hctx hst
    refine ⟨rfl, ?_⟩
    simp only [removal, targets_map hctx]
    generalize targets ctx args = ts
    induction ts generalizing st st' with
    | nil => exact hst
    | cons t ts ih => exact ih _ _ (hremove _ _ _ _ t hctx hst)

theorem timeless_remove : (removal "remove" CallState.remove).Timeless δ :=
  timeless_removal _ fun _ _ _ _ t hctx hst => hst.remove hctx t

theorem timeless_drop : (removal "drop" CallState.drop).Timeless δ :=
  timeless_removal _ fun _ _ _ _ t hctx hst => hst.drop hctx t

theorem timeless_hidePredicate : hidePredicate.Timeless δ := by
  refine timeless_of_body rfl fun ctx ctx' args st st' hctx hst => ?_
  cases args with
  | nil => exact ⟨rfl, hst⟩
  | cons predicate _ =>
      simp only [hidePredicate, List.map_cons, isGround_node, hctx.speculative]
      cases predicate.isGround with
      | false => exact ⟨rfl, hst⟩
      | true =>
          cases ctx.speculative with
          | true => exact ⟨rfl, hst⟩
          | false => exact ⟨rfl, hst.hide hctx predicate⟩

theorem timeless_printLine : printLine.Timeless δ := by
  refine timeless_of_body rfl fun ctx ctx' args st st' hctx hst => ⟨rfl, ?_⟩
  simp only [printLine, hctx.speculative]
  cases ctx.speculative with
  | true => exact hst
  | false => exact hst.print _ _

theorem timeless_makeTemp : makeTemp.Timeless δ := by
  refine timeless_of_body rfl fun ctx ctx' args st st' _ hst => ?_
  cases args with
  | nil => exact ⟨rfl, hst⟩
  | cons target _ =>
      obtain ⟨hblank, hstates⟩ := hst.freshBlank
      simp only [makeTemp, List.map_cons, hblank]
      exact hstates.bind target _

theorem timeless_makeSkolem (h : δ.blanks = 0) : makeSkolem.Timeless δ := by
  refine timeless_of_body rfl fun ctx ctx' args st st' _ hst => ?_
  have hnode : δ.node = id := funext (δ.node_eq_self h)
  rw [hnode, List.map_id]
  cases args with
  | nil => exact ⟨rfl, hst⟩
  | cons target values =>
      simp only [makeSkolem]
      split
      · simpa [hnode] using hst.bind target (.skolem values)
      · exact ⟨rfl, hst⟩

/-! ## The standard builtins -/

theorem timeless_of_mem_comparisons : ∀ b ∈ comparisons, b.Timeless δ := by
  simp only [comparisons, List.forall_mem_cons, List.not_mem_nil, false_imp_iff, implies_true,
    and_true]
  have hordering : ∀ name accept, (ordering name accept).Timeless δ := fun name accept =>
    timeless_comparison name fun m n => by rw [compareValues?_node]
  exact ⟨timeless_comparison _ sameValue_node,
    timeless_comparison _ fun m n => by rw [sameValue_node],
    hordering _ _, hordering _ _, hordering _ _, hordering _ _⟩

theorem timeless_of_mem_arithmetics : ∀ b ∈ arithmetics, b.Timeless δ := by
  simp only [arithmetics, List.forall_mem_cons, List.not_mem_nil, false_imp_iff, implies_true,
    and_true]
  exact ⟨timeless_arithmetic _ _ _, timeless_arithmetic _ _ _, timeless_arithmetic _ _ _,
    timeless_arithmetic _ _ _, timeless_extremum _ _, timeless_extremum _ _, timeless_successor⟩

theorem timeless_of_mem_kindTests : ∀ b ∈ kindTests, b.Timeless δ := by
  simp only [kindTests, List.forall_mem_cons, List.not_mem_nil, false_imp_iff, implies_true,
    and_true]
  refine ⟨?_, ?_, ?_, ?_, ?_, ?_, ?_, ?_, timeless_datatypeTest⟩
  all_goals exact timeless_kindTest _ fun n => by simp

theorem timeless_of_mem_texts : ∀ b ∈ texts, b.Timeless δ := by
  simp only [texts, List.forall_mem_cons, List.not_mem_nil, false_imp_iff, implies_true, and_true]
  exact ⟨timeless_concatenation _ fun _ => rfl, timeless_concatenation _ fun _ => rfl,
    timeless_regexMatch, timeless_textLength⟩

theorem timeless_of_mem_chains : ∀ b ∈ chains, b.Timeless δ := by
  simp only [chains, List.forall_mem_cons, List.not_mem_nil, false_imp_iff, implies_true, and_true]
  exact ⟨timeless_membership _ _, timeless_membership _ _, timeless_chainLength,
    timeless_chainEntry⟩

/-- A standard builtin is timeless, unless it reads the clock or names a node by a hash of
blank nodes that have been moved. -/
theorem timeless_of_mem_standard {b : Builtin} (hb : b ∈ standard) (hnow : b.name ≠ "now")
    (hskolem : δ.blanks = 0 ∨ b.name ≠ "makeSkolem") : b.Timeless δ := by
  simp only [standard, List.mem_append] at hb
  rcases hb with ((((hb | hb) | hb) | hb) | hb) | hb
  · exact timeless_of_mem_comparisons b hb
  · exact timeless_of_mem_arithmetics b hb
  · exact timeless_of_mem_kindTests b hb
  · exact timeless_of_mem_texts b hb
  · exact timeless_of_mem_chains b hb
  · simp only [actions, List.mem_cons, List.not_mem_nil, or_false] at hb
    rcases hb with rfl | rfl | rfl | rfl | rfl | rfl | rfl | rfl
    · exact timeless_noValue
    · exact timeless_remove
    · exact timeless_drop
    · exact timeless_hidePredicate
    · exact timeless_printLine
    · exact timeless_makeTemp
    · exact timeless_makeSkolem (hskolem.resolve_right fun h => h rfl)
    · exact absurd rfl hnow

end Builtin

/-! ## Determinism -/

/-- What the procedure answers and leaves does not depend on the time, nor on what has been
written. -/
def Procedure.Deterministic (procedure : Procedure) : Prop :=
  ∀ ctx args (st st' : CallState), st'.bindings = st.bindings → st'.effects = st.effects →
    st'.world.supply = st.world.supply →
    (procedure ctx args st').1 = (procedure ctx args st).1 ∧
      (procedure ctx args st').2.bindings = (procedure ctx args st).2.bindings ∧
      (procedure ctx args st').2.effects = (procedure ctx args st).2.effects ∧
      (procedure ctx args st').2.world.supply = (procedure ctx args st).2.world.supply

structure Builtin.Deterministic (b : Builtin) : Prop where
  body : Procedure.Deterministic b.body
  head : Procedure.Deterministic b.head

namespace Delay

variable {δ : Delay}

theorem bindings_eq_self (h : δ.blanks = 0) (b : Bindings) : δ.bindings b = b := by
  have hslot : δ.slot = id := by
    funext s
    cases s with
    | ground n => exact congrArg Slot.ground (δ.node_eq_self h n)
    | unbound => rfl
    | aliasOf i => rfl
  rw [bindings, hslot, List.map_id]

theorem effects_eq_self (h : δ.blanks = 0) (e : Effects) : δ.effects e = e := by
  have htriple : δ.triple = id := funext (δ.triple_eq_self h)
  have hnode : δ.node = id := funext (δ.node_eq_self h)
  simp only [effects, htriple, hnode, List.map_id]

theorem contexts_iff (h : δ.blanks = 0) {ctx ctx' : CallContext} :
    δ.Contexts ctx ctx' ↔ ctx' = ctx := by
  have htriple : δ.triple = id := funext (δ.triple_eq_self h)
  constructor
  · intro hctx
    obtain ⟨hfind, hcontains, hmatched, hlabel, hspeculative, hkeeps⟩ := hctx
    simp only [δ.pattern_eq_self h, htriple, List.map_id, id, Option.map_id_fun]
      at hfind hcontains hmatched
    obtain ⟨find, contains, matched, label, speculative, keepsEffects⟩ := ctx
    obtain ⟨find', contains', matched', label', speculative', keepsEffects'⟩ := ctx'
    rw [CallContext.mk.injEq]
    exact ⟨funext hfind, funext hcontains, hmatched, hlabel, hspeculative, hkeeps⟩
  · rintro rfl
    exact ⟨fun p => by rw [δ.pattern_eq_self h, htriple, List.map_id],
      fun t => by rw [htriple, id], by simp [htriple], rfl, rfl, rfl⟩

theorem states_iff (hfirst : δ.first = 0) (hblanks : δ.blanks = 0) {st st' : CallState} :
    δ.States st st' ↔ st'.bindings = st.bindings ∧ st'.effects = st.effects ∧
      st'.world.supply = st.world.supply := by
  have hsupply : ∀ s : BlankSupply, δ.supply s = s := by
    intro s
    rw [supply, hblanks]
    rfl
  have hready : δ.Ready st.world.supply := by
    rw [Ready, hfirst]
    exact Nat.zero_le _
  constructor
  · rintro ⟨hbindings, heffects, hsame, _⟩
    rw [bindings_eq_self hblanks] at hbindings
    rw [effects_eq_self hblanks] at heffects
    exact ⟨hbindings, heffects, hsame.trans (hsupply _)⟩
  · rintro ⟨hbindings, heffects, hsame⟩
    exact ⟨hbindings.trans (bindings_eq_self hblanks _).symm,
      heffects.trans (effects_eq_self hblanks _).symm, hsame.trans (hsupply _).symm, hready⟩

end Delay

/-- To be deterministic is to be timeless for a delay that moves nothing. -/
theorem Procedure.deterministic_iff {δ : Delay} (hfirst : δ.first = 0) (hblanks : δ.blanks = 0)
    {procedure : Procedure} : procedure.Deterministic ↔ procedure.Timeless δ := by
  have hargs : ∀ args : List Node, args.map δ.node = args := by
    intro args
    rw [show δ.node = id from funext (δ.node_eq_self hblanks), List.map_id]
  constructor
  · intro h ctx ctx' args st st' hctx hst
    obtain rfl := (Delay.contexts_iff hblanks).1 hctx
    obtain ⟨hbindings, heffects, hsupply⟩ := (Delay.states_iff hfirst hblanks).1 hst
    obtain ⟨hanswer, hrest⟩ := h ctx' args st st' hbindings heffects hsupply
    rw [hargs]
    exact ⟨hanswer, (Delay.states_iff hfirst hblanks).2 hrest⟩
  · intro h ctx args st st' hbindings heffects hsupply
    obtain ⟨hanswer, hstates⟩ := h ctx ctx args st st' ((Delay.contexts_iff hblanks).2 rfl)
      ((Delay.states_iff hfirst hblanks).2 ⟨hbindings, heffects, hsupply⟩)
    rw [hargs] at hanswer hstates
    exact ⟨hanswer, (Delay.states_iff hfirst hblanks).1 hstates⟩

namespace Builtin

theorem Deterministic.timeless {δ : Delay} (hfirst : δ.first = 0) (hblanks : δ.blanks = 0)
    {b : Builtin} (h : b.Deterministic) : b.Timeless δ :=
  ⟨(Procedure.deterministic_iff hfirst hblanks).1 h.body,
    (Procedure.deterministic_iff hfirst hblanks).1 h.head⟩

theorem Timeless.deterministic {b : Builtin} (h : b.Timeless ⟨0, 0, 0⟩) : b.Deterministic :=
  ⟨(Procedure.deterministic_iff rfl rfl).2 h.body, (Procedure.deterministic_iff rfl rfl).2 h.head⟩

theorem deterministic_of_mem_standard {b : Builtin} (hb : b ∈ standard) (hnow : b.name ≠ "now") :
    b.Deterministic :=
  (timeless_of_mem_standard hb hnow (Or.inl rfl)).deterministic

end Builtin

end Entailment

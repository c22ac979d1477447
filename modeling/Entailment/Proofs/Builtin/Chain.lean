import Entailment.Proofs.Builtin.Calling
import Entailment.Proofs.Graph.Memory

/-!
# Reading of linked lists

The cells of a list are read one after another, up to the end, to a cell that lacks a
property, or to one that has been read before.  In a graph that shows finitely many
triples one of these comes about, within as many steps as there are rests.  The values
that are read are those along the chain, and the calls on lists answer accordingly.
-/

namespace Entailment

theorem MemoryGraph.Sound.foldl_plus {g : MemoryGraph} (hg : g.Sound) {ts : List Triple}
    (h : ∀ t ∈ ts, t.isGround = true) : (ts.foldl MemoryGraph.plus g).Sound := by
  induction ts generalizing g with
  | nil => exact hg
  | cons t ts ih =>
      obtain ⟨ht, hts⟩ := List.forall_mem_cons.1 h
      exact ih (hg.plus ht) hts

namespace CallContext

/-- A lookup shows ground triples that fit it, and they show as well where the predicate
alone is asked for. -/
structure Truthful (ctx : CallContext) : Prop where
  sound : ctx.Sound
  accepts : ∀ p, ∀ t ∈ ctx.find p, p.accepts t = true
  widens : ∀ p, ∀ t ∈ ctx.find p, ∃ u ∈ ctx.find { predicate := p.predicate }, (u == t) = true

theorem truthful_memory {v : View MemoryGraph} (hv : v.Sound) (label : String)
    (matched : List (Option Triple)) (speculative : Bool) :
    (ofView v label matched speculative).Truthful where
  sound p t ht := hv.isGround (hv.mem_visible ht).1
  accepts p t ht := (hv.mem_visible ht).2
  widens p t ht := by
    obtain ⟨hsees, haccepts⟩ := hv.mem_visible ht
    refine hv.exists_mem_visible hsees ?_
    rw [TriplePattern.accepts, Bool.and_eq_true, Bool.and_eq_true] at haccepts
    rw [TriplePattern.accepts, Bool.and_eq_true, Bool.and_eq_true]
    exact ⟨⟨rfl, haccepts.1.2⟩, rfl⟩

/-- A guarded graph shows what the graph shows, or nothing by the forbidden predicate. -/
theorem find_guarded (v : View GuardedGraph) (label : String) (matched : List (Option Triple))
    (speculative : Bool) (p : TriplePattern) :
    (ofView v label matched speculative).find p =
      if v.base.forbids p.predicate then [] else
        (View.mk v.base.graph v.deductions).visible p := by
  simp only [ofView, View.find, Graph.find, GuardedGraph.guarded]
  cases v.base.forbids p.predicate <;> rfl

theorem truthful_guarded {v : View GuardedGraph}
    (hv : (View.mk v.base.graph v.deductions).Sound) (label : String)
    (matched : List (Option Triple)) (speculative : Bool) :
    (ofView v label matched speculative).Truthful := by
  have hmemory := truthful_memory hv label matched speculative
  have hshown : ∀ p, ∀ t ∈ (ofView v label matched speculative).find p,
      v.base.forbids p.predicate = false ∧ t ∈ (View.mk v.base.graph v.deductions).visible p := by
    intro p t ht
    rw [find_guarded] at ht
    split at ht
    · cases ht
    · rename_i hallowed
      exact ⟨Bool.eq_false_iff.2 hallowed, ht⟩
  refine ⟨fun p t ht => hmemory.sound p t (hshown p t ht).2,
    fun p t ht => hmemory.accepts p t (hshown p t ht).2, fun p t ht => ?_⟩
  obtain ⟨hallowed, hvisible⟩ := hshown p t ht
  rw [find_guarded, hallowed]
  exact hmemory.widens p t hvisible

end CallContext

namespace Chain

variable {ctx : CallContext} {seen cells items : List Node} {cell next : Node}

/-! ## The loop over the cells -/

/-- What is read from a cell on, when the cells before it have been seen. -/
inductive Reads (ctx : CallContext) : List Node → Node → Option (List Node) → Prop where
  | finish {seen : List Node} {cell : Node} :
      isEnd cell = true → Reads ctx seen cell (some [])
  | back {seen : List Node} {cell : Node} :
      isEnd cell = false → seen.contains cell = true → Reads ctx seen cell none
  | noFirst {seen : List Node} {cell : Node} :
      isEnd cell = false → seen.contains cell = false →
      valueOf ctx cell Vocabulary.first = none → Reads ctx seen cell none
  | noRest {seen : List Node} {cell value : Node} :
      isEnd cell = false → seen.contains cell = false →
      valueOf ctx cell Vocabulary.first = some value →
      valueOf ctx cell Vocabulary.rest = none → Reads ctx seen cell none
  | link {seen : List Node} {cell value next : Node} {result : Option (List Node)} :
      isEnd cell = false → seen.contains cell = false →
      valueOf ctx cell Vocabulary.first = some value →
      valueOf ctx cell Vocabulary.rest = some next →
      Reads ctx (cell :: seen) next result → Reads ctx seen cell (result.map (value :: ·))

/-- Cells that have been passed: no two are the same, and each has a rest. -/
structure Trail (ctx : CallContext) (seen : List Node) : Prop where
  distinct : Distinct seen
  linked : ∀ cell ∈ seen, (valueOf ctx cell Vocabulary.rest).isSome = true

theorem trail_nil : Trail ctx [] := ⟨.nil, fun _ h => nomatch h⟩

theorem Trail.cons (h : Trail ctx seen) (hnew : seen.contains cell = false)
    (hrest : valueOf ctx cell Vocabulary.rest = some next) : Trail ctx (cell :: seen) := by
  refine ⟨List.pairwise_cons.2 ⟨fun c hc => ?_, h.distinct⟩, ?_⟩
  · rw [List.contains_eq_any_beq, List.any_eq_false] at hnew
    exact Bool.eq_false_iff.2 (hnew c hc)
  · intro c hc
    rcases List.mem_cons.1 hc with rfl | hc
    · rw [hrest]
      rfl
    · exact h.linked c hc

/-- There are no more passed cells than rests. -/
theorem Trail.length_le (hctx : ctx.Truthful) (h : Trail ctx seen) :
    seen.length ≤ (ctx.find { predicate := some (.uri Vocabulary.rest) }).length := by
  let rests := ctx.find { predicate := some (.uri Vocabulary.rest) }
  have hcovered : ∀ c ∈ seen, (rests.map Triple.subject).any (· == c) = true := by
    intro c hc
    have hlinked := h.linked c hc
    rw [valueOf, Option.isSome_map, Option.isSome_iff_exists] at hlinked
    obtain ⟨t, ht⟩ := hlinked
    have hmem := List.mem_of_head? ht
    have haccepts := hctx.accepts _ t hmem
    rw [TriplePattern.accepts, Bool.and_eq_true, Bool.and_eq_true] at haccepts
    have hsubject : (c == t.subject) = true := haccepts.1.1
    obtain ⟨u, hu, hut⟩ := hctx.widens _ t hmem
    refine List.any_eq_true.2 ⟨u.subject, List.mem_map_of_mem hu, ?_⟩
    exact BEq.trans (Triple.beq_iff.1 hut).1 (BEq.symm hsubject)
  have hlength := length_le_of_covered h.distinct hcovered
  rwa [List.length_map] at hlength

/-- The steps that are allowed are enough, so the loop ends with what `follow` gives. -/
theorem reads_follow (hctx : ctx.Truthful) {steps : Nat} (h : Trail ctx seen)
    (hsteps : stepBound ctx ≤ seen.length + steps) :
    Reads ctx seen cell (follow ctx steps seen cell) := by
  induction steps generalizing seen cell with
  | zero =>
      have hlength := h.length_le hctx
      rw [stepBound] at hsteps
      omega
  | succ steps ih =>
      rw [follow]
      cases hend : isEnd cell with
      | true => exact .finish hend
      | false =>
          cases hseen : seen.contains cell with
          | true => exact .back hend hseen
          | false =>
              cases hfirst : valueOf ctx cell Vocabulary.first with
              | none => exact .noFirst hend hseen hfirst
              | some value =>
                  cases hrest : valueOf ctx cell Vocabulary.rest with
                  | none => exact .noRest hend hseen hfirst hrest
                  | some next =>
                      have hlonger : stepBound ctx ≤ (cell :: seen).length + steps := by
                        rw [List.length_cons]
                        omega
                      have hlink := Reads.link hend hseen hfirst hrest
                        (ih (h.cons hseen hrest) hlonger)
                      rwa [Option.map_eq_bind] at hlink

theorem reads_elements (hctx : ctx.Truthful) (start : Node) :
    Reads ctx [] start (elements ctx start) :=
  reads_follow hctx trail_nil (Nat.le_add_left _ _)

/-- The loop comes to one result at most. -/
theorem Reads.det {result result' : Option (List Node)} (h : Reads ctx seen cell result)
    (h' : Reads ctx seen cell result') : result = result' := by
  induction h generalizing result' with
  | link hend hseen hfirst hrest _ ih =>
      cases h' with
      | link _ _ hfirst' hrest' hread =>
          cases hfirst.symm.trans hfirst'
          cases hrest.symm.trans hrest'
          rw [ih hread]
      | _ => simp_all
  | _ => cases h' <;> simp_all

/-! ## Chains -/

/-- The cells from a cell on, up to the end. -/
inductive Runs (ctx : CallContext) : Node → List Node → Prop where
  | finish {cell : Node} : isEnd cell = true → Runs ctx cell []
  | link {cell next : Node} {cells : List Node} : isEnd cell = false →
      valueOf ctx cell Vocabulary.rest = some next → Runs ctx next cells →
      Runs ctx cell (cell :: cells)

/-- The chain runs to its end without repetition, and the items are the first values of its
cells. -/
def Spells (ctx : CallContext) (start : Node) (items : List Node) : Prop :=
  ∃ cells, Runs ctx start cells ∧ Distinct cells ∧
    List.Forall₂ (fun cell item => valueOf ctx cell Vocabulary.first = some item) cells items

theorem apart_cons_iff : (∀ c ∈ cells, (cell :: seen).contains c = false) ↔
    (∀ c ∈ cells, (cell == c) = false) ∧ ∀ c ∈ cells, seen.contains c = false := by
  rw [← forall₂_and]
  refine forall₂_congr fun c _ => ?_
  rw [List.contains_cons, Bool.or_eq_false_iff, BEq.comm]

theorem reads_some_iff : Reads ctx seen cell (some items) ↔
    ∃ cells, Runs ctx cell cells ∧ Distinct cells ∧
      (∀ c ∈ cells, seen.contains c = false) ∧
      List.Forall₂ (fun c item => valueOf ctx c Vocabulary.first = some item) cells items := by
  constructor
  · intro h
    generalize hresult : some items = result at h
    induction h generalizing items with
    | finish hend =>
        cases hresult
        exact ⟨[], .finish hend, .nil, List.forall_mem_nil _, .nil⟩
    | back | noFirst | noRest => cases hresult
    | @link seen cell value next result hend hseen hfirst hrest _ ih =>
        obtain ⟨values, rfl, rfl⟩ := Option.map_eq_some_iff.1 hresult.symm
        obtain ⟨cells, hruns, hdistinct, hnew, hvalues⟩ := ih rfl
        obtain ⟨hapart, hnew⟩ := apart_cons_iff.1 hnew
        exact ⟨cell :: cells, .link hend hrest hruns, List.pairwise_cons.2 ⟨hapart, hdistinct⟩,
          List.forall_mem_cons.2 ⟨hseen, hnew⟩, .cons hfirst hvalues⟩
  · rintro ⟨cells, hruns, hdistinct, hnew, hvalues⟩
    induction hruns generalizing seen items with
    | finish hend =>
        cases hvalues
        exact .finish hend
    | @link cell next cells hend hrest _ ih =>
        cases hvalues with
        | @cons _ value _ values hfirst hvalues =>
            obtain ⟨hapart, hdistinct⟩ := List.pairwise_cons.1 hdistinct
            obtain ⟨hseen, hnew⟩ := List.forall_mem_cons.1 hnew
            exact .link hend hseen hfirst hrest
              (ih hdistinct (apart_cons_iff.2 ⟨hapart, hnew⟩) hvalues)

theorem elements_eq_some_iff (hctx : ctx.Truthful) (items : List Node) (start : Node) :
    elements ctx start = some items ↔ Spells ctx start items := by
  have hread : elements ctx start = some items ↔ Reads ctx [] start (some items) := by
    refine ⟨fun h => ?_, (reads_elements hctx start).det⟩
    rw [← h]
    exact reads_elements hctx start
  rw [hread, reads_some_iff]
  simp only [List.contains_nil, implies_true, true_and]
  rfl

/-! ## Calls on lists -/

section Calls

variable {st : CallState} {list : Node}

/-- A call of the name on the list. -/
def asked (ctx : CallContext) (st : CallState) (list : Node) (name : String) (args : List Node) :
    Bool × CallState :=
  (Call.mk name (list :: args)).holds Registry.standard ctx st

theorem asked_eq {b : Builtin} (hb : b ∈ Builtin.chains) (args : List Node) :
    asked ctx st list b.name args =
      b.body ctx (st.bindings.valueOr list :: args.map st.bindings.valueOr) st := by
  refine Call.holds_standard ?_ (list :: args) ctx st
  simp only [Builtin.standard, List.mem_append]
  tauto

/-- The answers of the calls on a list with the items. -/
structure Answers (ctx : CallContext) (st : CallState) (list : Node) (items : List Node) :
    Prop where
  contains_iff : ∀ value, (st.bindings.valueOr value).isGround = true →
    ((asked ctx st list "listContains" [value]).1 = true ↔
      ∃ item ∈ items, item.sameValue (st.bindings.valueOr value) = true)
  notContains_iff : ∀ value, (st.bindings.valueOr value).isGround = true →
    ((asked ctx st list "listNotContains" [value]).1 = true ↔
      ¬ (asked ctx st list "listContains" [value]).1 = true)
  length_eq : ∀ v last, st.bindings.deref v.index = some (.unbound last) →
    asked ctx st list "listLength" [.var v] =
      (true, { st with
        bindings := st.bindings.set last (.ground (.integer (Int64.ofNat items.length))) })
  entry_iff : ∀ position i v last, (st.bindings.valueOr position).whole? = some i →
    st.bindings.deref v.index = some (.unbound last) →
    ((asked ctx st list "listEntry" [position, .var v]).1 = true ↔
      0 ≤ i.toInt ∧ i.toInt < items.length)
  entry_eq : ∀ position i v last (k : Nat) item,
    (st.bindings.valueOr position).whole? = some i → i.toInt = k → items[k]? = some item →
    st.bindings.deref v.index = some (.unbound last) →
    asked ctx st list "listEntry" [position, .var v] =
      (true, { st with bindings := st.bindings.set last (.ground item) })

theorem position?_of_whole? {n : Node} {i : Int64} (h : n.whole? = some i) :
    n.position? = if 0 ≤ i.toInt then some i.toInt.toNat else none := by
  obtain ⟨l, rfl⟩ := Node.literal_of_whole? h
  rw [Node.position?, show l.integer? = some i from h]
  rfl

/-- A call that tests whether the value is among the items. -/
theorem asked_membership {name : String} {expected : Bool}
    (hmem : Builtin.membership name expected ∈ Builtin.chains)
    (h : elements ctx (st.bindings.valueOr list) = some items) {value : Node}
    (hground : (st.bindings.valueOr value).isGround = true) :
    (asked ctx st list name [value]).1 =
      (items.any (fun item => item.sameValue (st.bindings.valueOr value)) == expected) := by
  have hcall : asked ctx st list name [value] = _ := asked_eq hmem [value]
  rw [hcall]
  simp only [Builtin.membership, List.map_cons, List.map_nil, h, hground, Bool.true_and]

theorem bind_of_unbound {v : Var} {last : Nat} (hfree : st.bindings.deref v.index =
    some (.unbound last)) {n : Node} (hn : n.isGround = true) :
    st.bind (.var v) n = (true, { st with bindings := st.bindings.set last (.ground n) }) := by
  rw [CallState.bind, Bindings.bind_of_unbound hfree hn]

theorem asked_length (h : elements ctx (st.bindings.valueOr list) = some items) {v : Var}
    {last : Nat} (hfree : st.bindings.deref v.index = some (.unbound last)) :
    asked ctx st list "listLength" [.var v] =
      (true, { st with
        bindings := st.bindings.set last (.ground (.integer (Int64.ofNat items.length))) }) := by
  have hcall : asked ctx st list "listLength" [.var v] = _ :=
    asked_eq (b := Builtin.chainLength) (by simp [Builtin.chains]) [.var v]
  rw [hcall]
  simp only [Builtin.chainLength, List.map_cons, List.map_nil, h,
    Bindings.valueOr_of_unbound hfree]
  exact bind_of_unbound hfree rfl

theorem asked_entry (hsound : ctx.Sound)
    (h : elements ctx (st.bindings.valueOr list) = some items) {position : Node} {i : Int64}
    (hi : (st.bindings.valueOr position).whole? = some i) {v : Var} {last : Nat}
    (hfree : st.bindings.deref v.index = some (.unbound last)) :
    asked ctx st list "listEntry" [position, .var v] =
      match if 0 ≤ i.toInt then items[i.toInt.toNat]? else none with
      | some item => (true, { st with bindings := st.bindings.set last (.ground item) })
      | none => (false, st) := by
  have hcall : asked ctx st list "listEntry" [position, .var v] = _ :=
    asked_eq (b := Builtin.chainEntry) (by simp [Builtin.chains]) [position, .var v]
  rw [hcall]
  simp only [Builtin.chainEntry, List.map_cons, List.map_nil, h,
    Bindings.valueOr_of_unbound hfree, position?_of_whole? hi]
  by_cases hnonneg : 0 ≤ i.toInt
  · simp only [if_pos hnonneg, Option.bind_some]
    cases hitem : items[i.toInt.toNat]? with
    | some item =>
        exact bind_of_unbound hfree
          (isGround_of_follow hsound _ h item (List.mem_of_getElem? hitem))
    | none => rfl
  · simp only [if_neg hnonneg, Option.bind_none]

theorem answers (hsound : ctx.Sound)
    (h : elements ctx (st.bindings.valueOr list) = some items) : Answers ctx st list items where
  contains_iff value hground := by
    rw [asked_membership (.head _) h hground, beq_true, List.any_eq_true]
  notContains_iff value hground := by
    rw [asked_membership (.head _) h hground, asked_membership (.tail _ (.head _)) h hground,
      beq_true, beq_iff_eq, Bool.not_eq_true]
  length_eq v last hfree := asked_length h hfree
  entry_iff position i v last hi hfree := by
    rw [asked_entry hsound h hi hfree]
    by_cases hnonneg : 0 ≤ i.toInt
    · rw [if_pos hnonneg]
      cases hitem : items[i.toInt.toNat]? with
      | some item =>
          have hlt := (List.getElem?_eq_some_iff.1 hitem).1
          exact iff_of_true rfl ⟨hnonneg, by omega⟩
      | none =>
          rw [List.getElem?_eq_none_iff] at hitem
          exact iff_of_false Bool.false_ne_true (by omega)
    · rw [if_neg hnonneg]
      exact iff_of_false Bool.false_ne_true (fun h => hnonneg h.1)
  entry_eq position i v last k item hi hk hitem hfree := by
    rw [asked_entry hsound h hi hfree, hk, if_pos (Int.natCast_nonneg k), Int.toNat_natCast,
      hitem]

theorem membership_of_broken {name : String} {expected : Bool} {node : Node}
    (h : elements ctx node = none) (args : List Node) :
    (Builtin.membership name expected).body ctx (node :: args) st = (false, st) := by
  match args with
  | [] | _ :: _ :: _ => rfl
  | [value] => simp only [Builtin.membership, h, Bool.and_false]

theorem chainLength_of_broken {node : Node} (h : elements ctx node = none) (args : List Node) :
    Builtin.chainLength.body ctx (node :: args) st = (false, st) := by
  match args with
  | [] | _ :: _ :: _ => rfl
  | [target] => simp only [Builtin.chainLength, h]

theorem chainEntry_of_broken {node : Node} (h : elements ctx node = none) (args : List Node) :
    Builtin.chainEntry.body ctx (node :: args) st = (false, st) := by
  match args with
  | [] | [_] | _ :: _ :: _ :: _ => rfl
  | [position, target] =>
      simp only [Builtin.chainEntry, h, Option.bind_none, Option.bind_fun_none]

/-- On a chain that is broken or comes back to a cell every call fails and changes nothing. -/
theorem asked_of_broken (h : elements ctx (st.bindings.valueOr list) = none) {b : Builtin}
    (hb : b ∈ Builtin.chains) (args : List Node) :
    asked ctx st list b.name args = (false, st) := by
  rw [asked_eq hb]
  simp only [Builtin.chains, List.mem_cons, List.not_mem_nil, or_false] at hb
  rcases hb with rfl | rfl | rfl | rfl
  · exact membership_of_broken h _
  · exact membership_of_broken h _
  · exact chainLength_of_broken h _
  · exact chainEntry_of_broken h _

/-- The loop over the cells ends, with the first values along the chain if that runs to its
end without repetition.  The four calls agree on such a list, and all of them fail on any
other chain. -/
theorem elements_exact (hctx : ctx.Truthful) (st : CallState) (list : Node) :
    (∀ result, Reads ctx [] (st.bindings.valueOr list) result ↔
      result = elements ctx (st.bindings.valueOr list)) ∧
    (∀ items, elements ctx (st.bindings.valueOr list) = some items ↔
      Spells ctx (st.bindings.valueOr list) items) ∧
    (∀ items, Spells ctx (st.bindings.valueOr list) items → Answers ctx st list items) ∧
    ((∀ items, ¬ Spells ctx (st.bindings.valueOr list) items) →
      ∀ name ∈ ["listContains", "listNotContains", "listLength", "listEntry"],
        ∀ args, asked ctx st list name args = (false, st)) := by
  have hspells := fun items =>
    elements_eq_some_iff hctx items (st.bindings.valueOr list)
  refine ⟨fun result => ⟨fun h => h.det (reads_elements hctx _), ?_⟩, hspells, ?_, ?_⟩
  · rintro rfl
    exact reads_elements hctx _
  · intro items h
    exact answers hctx.sound ((hspells items).2 h)
  · intro hbroken name hname args
    have hnone : elements ctx (st.bindings.valueOr list) = none :=
      Option.eq_none_iff_forall_ne_some.2 fun items h => hbroken items ((hspells items).1 h)
    have hnames : ["listContains", "listNotContains", "listLength", "listEntry"] =
        Builtin.chains.map Builtin.name := rfl
    rw [hnames] at hname
    obtain ⟨b, hb, rfl⟩ := List.mem_map.1 hname
    exact asked_of_broken hnone hb args

/-- A list of two cells, and a cell that is its own rest. -/
def pairAndLoop : List Triple :=
  [ ⟨.uri "l", .uri Vocabulary.first, .integer 3⟩,
    ⟨.uri "l", .uri Vocabulary.rest, .blank 1⟩,
    ⟨.blank 1, .uri Vocabulary.first, .uri "a"⟩,
    ⟨.blank 1, .uri Vocabulary.rest, .uri Vocabulary.nil⟩,
    ⟨.uri "m", .uri Vocabulary.first, .uri "a"⟩,
    ⟨.uri "m", .uri Vocabulary.rest, .uri "m"⟩ ]

def pairContext : CallContext :=
  .ofView ⟨pairAndLoop.foldl MemoryGraph.plus .empty, .empty⟩ "" [] false

set_option maxRecDepth 4000 in
theorem elements_exact_pair :
    pairContext.Truthful ∧
      Answers pairContext ⟨.empty 1, {}, {}⟩ (.uri "l") [.integer 3, .uri "a"] ∧
      asked pairContext ⟨.empty 1, {}, {}⟩ (.uri "m") "listNotContains" [.uri "b"] =
        (false, ⟨.empty 1, {}, {}⟩) := by
  have hground : ∀ t ∈ pairAndLoop, t.isGround = true := by decide +kernel
  have hctx : pairContext.Truthful := CallContext.truthful_memory
    ⟨MemoryGraph.sound_empty.foldl_plus hground, MemoryGraph.sound_empty⟩ "" [] false
  refine ⟨hctx, ?_, ?_⟩
  · obtain ⟨-, hspells, hanswers, -⟩ := elements_exact hctx ⟨.empty 1, {}, {}⟩ (.uri "l")
    refine hanswers _ ((hspells _).1 ?_)
    rfl
  · obtain ⟨-, hspells, -, hbroken⟩ := elements_exact hctx ⟨.empty 1, {}, {}⟩ (.uri "m")
    refine hbroken (fun items h => ?_) _ (by simp) _
    exact nomatch (hspells items).2 h

end Calls

end Chain

end Entailment

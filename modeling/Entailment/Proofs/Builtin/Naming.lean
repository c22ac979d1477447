import Entailment.Builtin.Standard
import Entailment.Proofs.Builtin.Independence
import Entailment.Proofs.Matching.Unification
import Entailment.Proofs.Rule.Renaming

/-!
# Names of variables

Environments keep the values of variables by their numbers.  A builtin that is free of
the graph, and negation too, reads from its arguments what is ground, and binds
variables by their numbers, so that it answers and binds the same whatever the variables
in its arguments are called.
-/

namespace Entailment

namespace Node

/-- The node with the names of its variables taken away. -/
def unnamed (n : Node) : Node := n.subst fun v => .var ⟨"", v.index⟩

def unnamedAll (ns : List Node) : List Node := substAll (fun v => .var ⟨"", v.index⟩) ns

theorem unnamedAll_eq_map (ns : List Node) : unnamedAll ns = ns.map unnamed := by
  induction ns with
  | nil => rfl
  | cons n ns ih => exact congrArg (n.unnamed :: ·) ih

theorem unnamed_of_ground {n : Node} (h : n.isGround = true) : n.unnamed = n :=
  subst_of_ground h _

mutual
theorem isGround_unnamed (n : Node) : n.unnamed.isGround = n.isGround := by
  match n with
  | .functor f args => exact allGround_unnamedAll args
  | .uri _ | .literal _ | .blank _ | .var _ | .any => rfl

theorem allGround_unnamedAll (ns : List Node) : allGround (unnamedAll ns) = allGround ns := by
  match ns with
  | [] => rfl
  | n :: ns =>
      change (n.unnamed.isGround && allGround (unnamedAll ns)) = _
      rw [isGround_unnamed n, allGround_unnamedAll ns, allGround]
end

mutual
theorem size_unnamed (n : Node) : n.unnamed.size = n.size := by
  match n with
  | .functor f args => exact congrArg (1 + ·) (sizeAll_unnamedAll args)
  | .uri _ | .literal _ | .blank _ | .var _ | .any => rfl

theorem sizeAll_unnamedAll (ns : List Node) : sizeAll (unnamedAll ns) = sizeAll ns := by
  match ns with
  | [] => rfl
  | n :: ns =>
      change n.unnamed.size + sizeAll (unnamedAll ns) = _
      rw [size_unnamed n, sizeAll_unnamedAll ns, sizeAll]
end

theorem isLiteral_unnamed (n : Node) : n.unnamed.isLiteral = n.isLiteral := by cases n <;> rfl

theorem isBlank_unnamed (n : Node) : n.unnamed.isBlank = n.isBlank := by cases n <;> rfl

theorem isFunctor_unnamed (n : Node) : n.unnamed.isFunctor = n.isFunctor := by cases n <;> rfl

theorem uri?_unnamed (n : Node) : n.unnamed.uri? = n.uri? := by cases n <;> rfl

theorem datatype?_unnamed (n : Node) : n.unnamed.datatype? = n.datatype? := by cases n <;> rfl

theorem lexical?_unnamed (n : Node) : n.unnamed.lexical? = n.lexical? := by cases n <;> rfl

theorem ofNode_unnamed (n : Node) : Numeric.ofNode n.unnamed = Numeric.ofNode n := by
  cases n <;> rfl

theorem fixing_unnamed (n : Node) : TriplePattern.fixing n.unnamed = TriplePattern.fixing n := by
  unfold TriplePattern.fixing
  rw [isGround_unnamed]
  split
  · rename_i h
    rw [unnamed_of_ground h]
  · rfl

end Node

/-! ## Binding -/

namespace Bindings

theorem compareAll_unnamedAll {compare : Comparison}
    (h : ∀ (b : Bindings) (m n : Node), n.isGround = true → compare b m.unnamed n = compare b m n)
    {b : Bindings} {ms ns : List Node} (hns : Node.allGround ns = true) :
    compareAll compare b ((Node.unnamedAll ms).zip ns) = compareAll compare b (ms.zip ns) := by
  induction ms generalizing b ns with
  | nil => rfl
  | cons m ms ih =>
      cases ns with
      | nil => rfl
      | cons n ns =>
          rw [Node.allGround, Bool.and_eq_true] at hns
          change compareAll compare b ((m.unnamed, n) :: (Node.unnamedAll ms).zip ns) = _
          rw [List.zip_cons_cons, compareAll, compareAll, h b m n hns.1]
          split
          · exact ih hns.2
          · rfl

theorem unifyWithin_unnamed (depth : Nat) {b : Bindings} {m n : Node} (hn : n.isGround = true) :
    unifyWithin depth b m.unnamed n = unifyWithin depth b m n := by
  induction depth generalizing b m n with
  | zero => rfl
  | succ depth ih =>
      cases m with
      | functor f ms =>
          cases n with
          | functor g ns =>
              have hlength : (Node.unnamedAll ms).length = ms.length := by
                rw [Node.unnamedAll_eq_map, List.length_map]
              change (if f = g ∧ (Node.unnamedAll ms).length = ns.length then
                compareAll (unifyWithin depth) b ((Node.unnamedAll ms).zip ns) else (false, b)) =
                if f = g ∧ ms.length = ns.length then
                  compareAll (unifyWithin depth) b (ms.zip ns) else (false, b)
              rw [hlength, compareAll_unnamedAll (fun b m n hn => ih hn) hn]
          | var v => cases hn
          | any => cases hn
          | _ => rfl
      | var v => cases n <;> rfl
      | _ => rfl

theorem bind_unnamed {b : Bindings} {target value : Node} (h : value.isGround = true) :
    b.bind target.unnamed value = b.bind target value := by
  have hunify : b.unify target.unnamed value = b.unify target value := by
    unfold unify depthBound
    rw [Node.size_unnamed]
    exact unifyWithin_unnamed _ h
  cases target with
  | var v => rfl
  | _ => exact hunify

mutual
/-- What a node stands for does not depend on names. -/
theorem resolveTerm_unnamed (b : Bindings) (n : Node) : b.resolveTerm n.unnamed = b.resolveTerm n := by
  match n with
  | .functor f args => exact congrArg (Option.map (Node.functor f)) (mapM_resolveArg_unnamed b args)
  | .uri _ | .literal _ | .blank _ | .var _ | .any => rfl

theorem mapM_resolveArg_unnamed (b : Bindings) (ns : List Node) :
    (Node.unnamedAll ns).mapM b.resolveArg = ns.mapM b.resolveArg := by
  match ns with
  | [] => rfl
  | n :: ns =>
      have hone : b.resolveArg n.unnamed = b.resolveArg n := by cases n <;> rfl
      change (n.unnamed :: Node.unnamedAll ns).mapM b.resolveArg = _
      rw [List.mapM_cons, List.mapM_cons, hone, mapM_resolveArg_unnamed b ns]
end

theorem resolve_unnamed (b : Bindings) (n : Node) : b.resolve n.unnamed = b.resolve n := by
  cases n with
  | functor f args => exact resolveTerm_unnamed b (.functor f args)
  | _ => rfl

end Bindings

theorem CallState.bind_unnamed {st : CallState} {target value : Node} (h : value.isGround = true) :
    st.bind target.unnamed value = st.bind target value := by
  unfold bind
  rw [Bindings.bind_unnamed h]

theorem CallState.bindNumber_unnamed {st : CallState} {target : Node} (value : Numeric) :
    st.bindNumber target.unnamed value = st.bindNumber target value := by
  unfold bindNumber
  rw [Node.ofNode_unnamed]
  split
  · rfl
  · exact bind_unnamed value.isGround_toNode

theorem CallState.bindNumber?_unnamed {st : CallState} {target : Node} (value : Option Numeric) :
    st.bindNumber? target.unnamed value = st.bindNumber? target value := by
  cases value with
  | none => rfl
  | some value => exact bindNumber_unnamed value

/-! ## Builtins -/

/-- The builtin does the same whatever the variables in its arguments are called. -/
def Builtin.IgnoresNames (b : Builtin) : Prop :=
  ∀ ctx args st, b.body ctx (args.map Node.unnamed) st = b.body ctx args st

namespace Builtin

open CallState

theorem ignoresNames_comparison (name : String) (test : Node → Node → Bool) :
    (comparison name test).IgnoresNames := by
  intro ctx args st
  match args with
  | [] => rfl
  | [_] => rfl
  | [m, n] =>
      refine congrArg (·, st) ?_
      change (m.unnamed.isGround && n.unnamed.isGround && test m.unnamed n.unnamed) =
        (m.isGround && n.isGround && test m n)
      rw [Node.isGround_unnamed, Node.isGround_unnamed]
      cases hground : m.isGround && n.isGround with
      | false => rfl
      | true =>
          rw [Bool.and_eq_true] at hground
          rw [Node.unnamed_of_ground hground.1, Node.unnamed_of_ground hground.2]
  | _ :: _ :: _ :: _ => rfl

theorem ignoresNames_kindTest (name : String) {test : Node → Bool}
    (htest : ∀ n : Node, test n.unnamed = test n) : (kindTest name test).IgnoresNames := by
  intro ctx args st
  match args with
  | [] => rfl
  | n :: _ => exact congrArg (·, st) (htest n)

theorem ignoresNames_datatypeTest : datatypeTest.IgnoresNames := by
  intro ctx args st
  by_cases hlength : args.length = 2
  · match args, hlength with
    | [m, n], _ =>
        change datatypeTest.body ctx [m.unnamed, n.unnamed] st = _
        rw [datatypeTest_body, datatypeTest_body, Node.datatype?_unnamed, Node.uri?_unnamed]
  · rw [datatypeTest_body_of_length ctx hlength,
      datatypeTest_body_of_length ctx (by rwa [List.length_map])]

theorem ignoresNames_arithmetic (name : String) (whole : Int64 → Int64 → WholeResult)
    (real : Double → Double → Option Double) : (arithmetic name whole real).IgnoresNames := by
  intro ctx args st
  match args with
  | [a, b, target] =>
      simp only [arithmetic, List.map_cons, List.map_nil, Node.ofNode_unnamed, bindNumber_unnamed,
        bindNumber?_unnamed]
  | [] => rfl
  | [_] => rfl
  | [_, _] => rfl
  | _ :: _ :: _ :: _ :: _ => rfl

theorem ignoresNames_successor : successor.IgnoresNames := by
  intro ctx args st
  match args with
  | [a, target] =>
      simp only [successor, List.map_cons, List.map_nil, Node.ofNode_unnamed, bindNumber_unnamed,
        bindNumber?_unnamed]
  | [] => rfl
  | [_] => rfl
  | _ :: _ :: _ :: _ => rfl

theorem ignoresNames_extremum (name : String) (takesFirst : Ordering → Bool) :
    (extremum name takesFirst).IgnoresNames := by
  intro ctx args st
  match args with
  | [a, b, target] =>
      simp only [extremum, List.map_cons, List.map_nil, Node.ofNode_unnamed]
      cases hx : Numeric.ofNode a with
      | none => rfl
      | some x =>
          cases hy : Numeric.ofNode b with
          | none => rfl
          | some y =>
              have ha := Numeric.isGround_of_ofNode hx
              have hb := Numeric.isGround_of_ofNode hy
              simp only [Node.unnamed_of_ground ha, Node.unnamed_of_ground hb]
              split
              · exact bind_unnamed (by split <;> assumption)
              · rfl
  | [] => rfl
  | [_] => rfl
  | [_, _] => rfl
  | _ :: _ :: _ :: _ :: _ => rfl

theorem ignoresNames_textLength : textLength.IgnoresNames := by
  intro ctx args st
  match args with
  | [text, target] =>
      simp only [textLength, List.map_cons, List.map_nil, Node.lexical?_unnamed]
      split
      · exact bind_unnamed rfl
      · rfl
  | [] => rfl
  | [_] => rfl
  | _ :: _ :: _ :: _ => rfl

theorem ignoresNames_concatenation (name : String) {make : String → Node}
    (hmake : ∀ s, (make s).isGround = true) : (concatenation name make).IgnoresNames := by
  intro ctx args st
  have hlexical : ∀ ns : List Node, (ns.map Node.unnamed).mapM Node.lexical? = ns.mapM Node.lexical? := by
    intro ns
    induction ns with
    | nil => rfl
    | cons n ns ih => rw [List.map_cons, List.mapM_cons, List.mapM_cons, ih, Node.lexical?_unnamed]
  simp only [concatenation, List.getLast?_map, ← List.map_dropLast, hlexical]
  cases args.getLast? with
  | none => rfl
  | some target =>
      simp only [Option.map_some]
      split
      · exact bind_unnamed (hmake _)
      · rfl

theorem ignoresNames_noValue : noValue.IgnoresNames := by
  intro ctx args st
  have hpattern : negatedPattern (args.map Node.unnamed) = negatedPattern args := by
    match args with
    | [] => rfl
    | [_] => rfl
    | [s, p] => simp only [negatedPattern, List.map_cons, List.map_nil, Node.fixing_unnamed]
    | [s, p, o] => simp only [negatedPattern, List.map_cons, List.map_nil, Node.fixing_unnamed]
    | _ :: _ :: _ :: _ :: _ => rfl
  simp only [noValue, hpattern]

theorem ignoresNames_of_mem_standard {b : Builtin} (hb : b ∈ standard)
    (hname : b.name ∈ graphFree ∨ b.name = noValue.name) : b.IgnoresNames := by
  rcases hname with hname | hname
  · simp only [standard, List.mem_append] at hb
    rcases hb with ((((hb | hb) | hb) | hb) | hb) | hb
    · simp only [comparisons, List.mem_cons, List.not_mem_nil, or_false] at hb
      rcases hb with rfl | rfl | rfl | rfl | rfl | rfl <;> exact ignoresNames_comparison _ _
    · simp only [arithmetics, List.mem_cons, List.not_mem_nil, or_false] at hb
      rcases hb with rfl | rfl | rfl | rfl | rfl | rfl | rfl
      · exact ignoresNames_arithmetic _ _ _
      · exact ignoresNames_arithmetic _ _ _
      · exact ignoresNames_arithmetic _ _ _
      · exact ignoresNames_arithmetic _ _ _
      · exact ignoresNames_extremum _ _
      · exact ignoresNames_extremum _ _
      · exact ignoresNames_successor
    · simp only [kindTests, List.mem_cons, List.not_mem_nil, or_false] at hb
      rcases hb with rfl | rfl | rfl | rfl | rfl | rfl | rfl | rfl | rfl
      · exact ignoresNames_kindTest _ Node.isGround_unnamed
      · exact ignoresNames_kindTest _ fun n => by rw [n.isGround_unnamed]
      · exact ignoresNames_kindTest _ Node.isLiteral_unnamed
      · exact ignoresNames_kindTest _ fun n => by rw [n.isGround_unnamed, n.isLiteral_unnamed]
      · exact ignoresNames_kindTest _ Node.isBlank_unnamed
      · exact ignoresNames_kindTest _ fun n => by rw [n.isGround_unnamed, n.isBlank_unnamed]
      · exact ignoresNames_kindTest _ Node.isFunctor_unnamed
      · exact ignoresNames_kindTest _ fun n => by rw [n.isGround_unnamed, n.isFunctor_unnamed]
      · exact ignoresNames_datatypeTest
    · simp only [texts, List.mem_cons, List.not_mem_nil, or_false] at hb
      rcases hb with rfl | rfl | rfl | rfl
      · exact ignoresNames_concatenation _ fun _ => rfl
      · exact ignoresNames_concatenation _ fun _ => rfl
      · exact absurd hname (by decide)
      · exact ignoresNames_textLength
    · simp only [chains, List.mem_cons, List.not_mem_nil, or_false] at hb
      rcases hb with rfl | rfl | rfl | rfl <;> exact absurd hname (by decide)
    · simp only [actions, List.mem_cons, List.not_mem_nil, or_false] at hb
      rcases hb with rfl | rfl | rfl | rfl | rfl | rfl | rfl | rfl <;> exact absurd hname (by decide)
  · rw [eq_noValue hb hname]
    exact ignoresNames_noValue

end Builtin

/-! ## Calls -/

mutual
theorem Node.unnamed_renamed {f : Var → Var} {n : Node} (h : ∀ v ∈ n.vars, (f v).index = v.index) :
    (n.subst fun v => .var (f v)).unnamed = n.unnamed := by
  match n with
  | .var v => exact congrArg (fun i => Node.var ⟨"", i⟩) (h v (List.mem_singleton.2 rfl))
  | .functor g args => exact congrArg (Node.functor g) (Node.unnamedAll_renamed h)
  | .uri _ | .literal _ | .blank _ | .any => rfl

theorem Node.unnamedAll_renamed {f : Var → Var} {ns : List Node}
    (h : ∀ v ∈ Node.varsAll ns, (f v).index = v.index) :
    Node.unnamedAll (Node.substAll (fun v => .var (f v)) ns) = Node.unnamedAll ns := by
  match ns with
  | [] => rfl
  | n :: ns =>
      rw [Node.varsAll] at h
      exact congrArg₂ List.cons (Node.unnamed_renamed fun v hv => h v (List.mem_append_left _ hv))
        (Node.unnamedAll_renamed fun v hv => h v (List.mem_append_right _ hv))
end

namespace Call

variable {registry : Registry} {c : Call} {f : Var → Var}

theorem unnamed_resolvedArgs_renamed (h : ∀ v ∈ Node.varsAll c.args, (f v).index = v.index)
    (b : Bindings) :
    ((c.renamed f).resolvedArgs b).map Node.unnamed = (c.resolvedArgs b).map Node.unnamed := by
  obtain ⟨name, args⟩ := c
  change ((Node.substAll _ args).map fun a => (b.resolve a).getD a).map Node.unnamed =
    (args.map fun a => (b.resolve a).getD a).map Node.unnamed
  induction args with
  | nil => rfl
  | cons a args ih =>
      have hvars : ∀ v ∈ a.vars ++ Node.varsAll args, (f v).index = v.index := h
      have ha := Node.unnamed_renamed fun v hv => hvars v (List.mem_append_left _ hv)
      have hresolve : b.resolve (a.subst fun v => .var (f v)) = b.resolve a := by
        rw [← b.resolve_unnamed, ha, b.resolve_unnamed]
      rw [Node.substAll]
      simp only [List.map_cons]
      rw [ih fun v hv => hvars v (List.mem_append_right _ hv), hresolve]
      cases b.resolve a with
      | none => exact congrArg (· :: _) ha
      | some value => rfl

/-- A call with other names for its variables does the same. -/
theorem holds_renamed (hnames : ∀ b, registry.get? c.name = some b → b.IgnoresNames)
    (hindex : ∀ v ∈ Node.varsAll c.args, (f v).index = v.index) (ctx : CallContext)
    (st : CallState) : (c.renamed f).holds registry ctx st = c.holds registry ctx st := by
  have hname : (c.renamed f).name = c.name := rfl
  unfold holds
  rw [hname]
  cases hb : registry.get? c.name with
  | none => rfl
  | some b =>
      simp only
      rw [← hnames b hb, unnamed_resolvedArgs_renamed hindex, hnames b hb]

end Call

end Entailment

import Entailment.Proofs.Builtin.Keeping
import Entailment.Proofs.Matching.Likeness

/-!
# What an answer depends on

A builtin that compares, classifies, joins texts or computes looks at nothing but its
arguments and the bindings, and equal arguments in like environments make no
difference.  Negation looks at the graph as well, but only asks whether anything there
matches, so like views make no difference either.  Neither asks for anything to be
removed.
-/

namespace Entailment

/-! ## Values of equal nodes -/

namespace Literal

theorem lexicalForm_folded (l : Literal) : l.folded.lexicalForm = l.lexicalForm := by
  cases l <;> rfl

theorem datatype_folded (l : Literal) : l.folded.datatype = l.datatype := by
  cases l <;> rfl

theorem string?_folded (l : Literal) : l.folded.string? = l.string? := by
  cases l <;> rfl

end Literal

theorem Numeric.ofNode_folded (n : Node) : Numeric.ofNode n.folded = Numeric.ofNode n := by
  cases n with
  | literal l => cases l <;> rfl
  | _ => rfl

namespace Node

variable {m n m' n' : Node}

theorem ofNode_congr (h : (m == n) = true) : Numeric.ofNode m = Numeric.ofNode n := by
  rw [← Numeric.ofNode_folded m, beq_iff_folded.1 h, Numeric.ofNode_folded]

theorem lexical?_folded (n : Node) : n.folded.lexical? = n.lexical? := by
  cases n with
  | literal l =>
      change some l.folded.lexicalForm = some l.lexicalForm
      rw [l.lexicalForm_folded]
  | _ => rfl

theorem lexical?_congr (h : (m == n) = true) : m.lexical? = n.lexical? := by
  rw [← lexical?_folded m, beq_iff_folded.1 h, lexical?_folded]

theorem beq_congr (h : (m == m') = true) (k : (n == n') = true) : (m == n) = (m' == n') := by
  rw [Bool.eq_iff_iff]
  exact ⟨fun hmn => BEq.trans (BEq.symm h) (BEq.trans hmn k),
    fun hmn => BEq.trans h (BEq.trans hmn (BEq.symm k))⟩

theorem sameValue_congr (h : (m == m') = true) (k : (n == n') = true) :
    m.sameValue n = m'.sameValue n' := by
  unfold sameValue
  rw [ofNode_congr h, ofNode_congr k, beq_congr h k]

theorem compareLiterals_folded (x y : Literal) :
    compareLiterals x.folded y.folded = compareLiterals x y := by
  unfold compareLiterals
  rw [x.string?_folded, y.string?_folded, x.datatype_folded, y.datatype_folded,
    x.lexicalForm_folded, y.lexicalForm_folded]

theorem compareValues?_folded (m n : Node) :
    m.folded.compareValues? n.folded = m.compareValues? n := by
  unfold compareValues?
  rw [Numeric.ofNode_folded, Numeric.ofNode_folded]
  split
  · rfl
  · cases m with
    | literal x =>
        cases n with
        | literal y => exact compareLiterals_folded x y
        | _ => rfl
    | _ => rfl

theorem compareValues?_congr (h : (m == m') = true) (k : (n == n') = true) :
    m.compareValues? n = m'.compareValues? n' := by
  rw [← compareValues?_folded m, beq_iff_folded.1 h, beq_iff_folded.1 k, compareValues?_folded]

theorem isLiteral_congr (h : (m == n) = true) : m.isLiteral = n.isLiteral := by
  have hfolded : ∀ n : Node, n.folded.isLiteral = n.isLiteral := fun n => by cases n <;> rfl
  rw [← hfolded m, beq_iff_folded.1 h, hfolded]

theorem isBlank_congr (h : (m == n) = true) : m.isBlank = n.isBlank := by
  have hfolded : ∀ n : Node, n.folded.isBlank = n.isBlank := fun n => by cases n <;> rfl
  rw [← hfolded m, beq_iff_folded.1 h, hfolded]

theorem uri?_congr (h : (m == n) = true) : m.uri? = n.uri? := by
  have hfolded : ∀ n : Node, n.folded.uri? = n.uri? := fun n => by cases n <;> rfl
  rw [← hfolded m, beq_iff_folded.1 h, hfolded]

/-- The datatype of a literal. -/
def datatype? (n : Node) : Option String := n.literal?.map Literal.datatype

theorem datatype?_congr (h : (m == n) = true) : m.datatype? = n.datatype? := by
  have hfolded : ∀ n : Node, n.folded.datatype? = n.datatype? := by
    intro n
    cases n with
    | literal l => exact congrArg some l.datatype_folded
    | _ => rfl
  rw [← hfolded m, beq_iff_folded.1 h, hfolded]

theorem mapM_lexical?_congr {ms ns : List Node} (h : (ms == ns) = true) :
    ms.mapM lexical? = ns.mapM lexical? := by
  have hall := list_beq_iff_forall₂.1 h
  clear h
  induction hall with
  | nil => rfl
  | cons hsame _ ih => rw [List.mapM_cons, List.mapM_cons, ih, lexical?_congr hsame]

end Node

/-! ## Procedures that respect likeness -/

/-- Searches for equal patterns find something in both contexts or in neither. -/
def CallContext.Like (ctx ctx' : CallContext) : Prop :=
  ∀ p p' : TriplePattern, (p == p') = true → (ctx.find p).isEmpty = (ctx'.find p').isEmpty

/-- The results have the same answer, and like bindings if that is yes. -/
def CallState.Agree (result result' : Bool × CallState) : Prop :=
  result.1 = result'.1 ∧ (result.1 = true → result.2.bindings.Alike result'.2.bindings)

/-- Called with equal arguments in like contexts and environments, the procedure gives
agreeing results, and it asks for nothing to be removed. -/
def Procedure.Respects (procedure : Procedure) (like : CallContext → CallContext → Prop) : Prop :=
  ∀ (ctx ctx' : CallContext) (args args' : List Node) (st st' : CallState), like ctx ctx' →
    (args == args') = true → st.bindings.Alike st'.bindings →
    CallState.Agree (procedure ctx args st) (procedure ctx' args' st') ∧
      (procedure ctx args st).2.effects.removed = st.effects.removed

variable {like : CallContext → CallContext → Prop} {st st' : CallState}

namespace CallState

theorem agree_false : Agree (false, st) (false, st') := ⟨rfl, (fun h => nomatch h)⟩

theorem agree_test (hlike : st.bindings.Alike st'.bindings) {answer answer' : Bool}
    (h : answer = answer') : Agree (answer, st) (answer', st') := ⟨h, fun _ => hlike⟩

/-- Binding equal nodes to equal ground values agrees. -/
theorem agree_bind (hlike : st.bindings.Alike st'.bindings) {target target' value value' : Node}
    (htarget : (target == target') = true) (hsame : (value == value') = true)
    (hvalue : value.isGround = true) :
    Agree (st.bind target value) (st'.bind target' value') := by
  have hvalue' : value'.isGround = true := Node.isGround_congr hsame ▸ hvalue
  have hindexes : target'.indexes = target.indexes := by
    rw [Node.indexes, Node.indexes, Node.vars_of_beq htarget]
  have hother := Bindings.solves_bind hlike.other target' hvalue'
  rw [hindexes] at hother
  refine Bindings.Solves.alike hlike (Bindings.solves_bind hlike.ground target hvalue) hother ?_
  intro σ
  constructor
  · intro hfits
    exact Node.fits_of_beq htarget (hfits.congr (fun _ _ => BEq.rfl) hsame)
  · intro hfits
    exact Node.fits_of_beq (BEq.symm htarget) (hfits.congr (fun _ _ => BEq.rfl) (BEq.symm hsame))

theorem removed_bind (target value : Node) :
    (st.bind target value).2.effects.removed = st.effects.removed := rfl

theorem agree_bindNumber (hlike : st.bindings.Alike st'.bindings) {target target' : Node}
    (htarget : (target == target') = true) (value : Numeric) :
    Agree (st.bindNumber target value) (st'.bindNumber target' value) := by
  unfold bindNumber
  rw [Node.ofNode_congr htarget]
  cases Numeric.ofNode target' with
  | some existing => exact agree_test hlike rfl
  | none => exact agree_bind hlike htarget BEq.rfl value.isGround_toNode

theorem removed_bindNumber (target : Node) (value : Numeric) :
    (st.bindNumber target value).2.effects.removed = st.effects.removed := by
  unfold bindNumber
  split
  · rfl
  · exact removed_bind _ _

theorem agree_bindNumber? (hlike : st.bindings.Alike st'.bindings) {target target' : Node}
    (htarget : (target == target') = true) (value : Option Numeric) :
    Agree (st.bindNumber? target value) (st'.bindNumber? target' value) := by
  cases value with
  | none => exact agree_false
  | some value => exact agree_bindNumber hlike htarget value

theorem removed_bindNumber? (target : Node) (value : Option Numeric) :
    (st.bindNumber? target value).2.effects.removed = st.effects.removed := by
  cases value with
  | none => rfl
  | some value => exact removed_bindNumber target value

end CallState

namespace Builtin

open CallState

theorem respects_ofTest (name : String) (arity : Nat) {test : List Node → Bool}
    (htest : ∀ args args', (args == args') = true → test args = test args') :
    Procedure.Respects (ofTest name arity test).body like :=
  fun _ _ args args' _ _ _ hargs hlike => ⟨agree_test hlike (htest args args' hargs), rfl⟩

theorem respects_comparison (name : String) {test : Node → Node → Bool}
    (htest : ∀ m m' n n', (m == m') = true → (n == n') = true → test m n = test m' n') :
    Procedure.Respects (comparison name test).body like := by
  refine respects_ofTest name 2 fun args args' hargs => ?_
  have hall := list_beq_iff_forall₂.1 hargs
  match args, args', hall with
  | [], [], _ => rfl
  | [_], [_], _ => rfl
  | [m, n], [m', n'], .cons hm (.cons hn .nil) =>
      change (m.isGround && n.isGround && test m n) = (m'.isGround && n'.isGround && test m' n')
      rw [Node.isGround_congr hm, Node.isGround_congr hn, htest m m' n n' hm hn]
  | _ :: _ :: _ :: _, _ :: _ :: _ :: _, _ => rfl

theorem respects_kindTest (name : String) {test : Node → Bool}
    (htest : ∀ n n', (n == n') = true → test n = test n') :
    Procedure.Respects (kindTest name test).body like := by
  refine respects_ofTest name 1 fun args args' hargs => ?_
  have hall := list_beq_iff_forall₂.1 hargs
  match args, args', hall with
  | [], [], _ => rfl
  | n :: _, n' :: _, .cons hn _ => exact htest n n' hn

/-- The test reads the datatype of a literal and the text of an identifier. -/
theorem datatypeTest_body (ctx : CallContext) (m n : Node) (st : CallState) :
    datatypeTest.body ctx [m, n] st =
      (m.datatype?.any fun datatype => n.uri? == some datatype, st) := by
  cases m with
  | literal l =>
      cases n with
      | uri u =>
          refine congrArg (·, st) (Bool.eq_iff_iff.2 ?_)
          change (l.datatype == u) = true ↔ (some u == some l.datatype) = true
          rw [beq_iff_eq, beq_iff_eq, Option.some.injEq, eq_comm]
      | _ => rfl
  | _ => rfl

theorem datatypeTest_body_of_length (ctx : CallContext) {args : List Node}
    (h : args.length ≠ 2) (st : CallState) : datatypeTest.body ctx args st = (false, st) := by
  match args with
  | [] => rfl
  | [m] => cases m <;> rfl
  | [_, _] => exact absurd rfl h
  | m :: n :: _ :: _ => cases m <;> cases n <;> rfl

theorem respects_datatypeTest : Procedure.Respects datatypeTest.body like := by
  intro ctx ctx' args args' st st' _ hargs hlike
  have hall := list_beq_iff_forall₂.1 hargs
  match args, args', hall with
  | [m, n], [m', n'], .cons hm (.cons hn .nil) =>
      rw [datatypeTest_body, datatypeTest_body, Node.datatype?_congr hm, Node.uri?_congr hn]
      exact ⟨agree_test hlike rfl, rfl⟩
  | [], [], _ => exact ⟨agree_false, rfl⟩
  | [_], [_], _ =>
      rw [datatypeTest_body_of_length _ (by simp), datatypeTest_body_of_length _ (by simp)]
      exact ⟨agree_false, rfl⟩
  | _ :: _ :: _ :: _, _ :: _ :: _ :: _, _ =>
      rw [datatypeTest_body_of_length _ (by simp), datatypeTest_body_of_length _ (by simp)]
      exact ⟨agree_false, rfl⟩

/-! ## Arithmetic and texts -/

theorem respects_arithmetic (name : String) (whole : Int64 → Int64 → WholeResult)
    (real : Double → Double → Option Double) :
    Procedure.Respects (arithmetic name whole real).body like := by
  intro ctx ctx' args args' st st' _ hargs hlike
  have hall := list_beq_iff_forall₂.1 hargs
  match args, args', hall with
  | [a, b, target], [a', b', target'], .cons ha (.cons hb (.cons htarget .nil)) =>
      simp only [arithmetic]
      rw [Node.ofNode_congr ha, Node.ofNode_congr hb]
      split
      · split
        · split
          · exact ⟨agree_bindNumber hlike htarget _, removed_bindNumber _ _⟩
          · exact ⟨agree_bindNumber? hlike htarget _, removed_bindNumber? _ _⟩
          · exact ⟨agree_false, rfl⟩
        · exact ⟨agree_bindNumber? hlike htarget _, removed_bindNumber? _ _⟩
      · exact ⟨agree_false, rfl⟩
  | [], [], _ => exact ⟨agree_false, rfl⟩
  | [_], [_], _ => exact ⟨agree_false, rfl⟩
  | [_, _], [_, _], _ => exact ⟨agree_false, rfl⟩
  | _ :: _ :: _ :: _ :: _, _ :: _ :: _ :: _ :: _, _ => exact ⟨agree_false, rfl⟩

theorem respects_successor : Procedure.Respects successor.body like := by
  intro ctx ctx' args args' st st' _ hargs hlike
  have hall := list_beq_iff_forall₂.1 hargs
  match args, args', hall with
  | [a, target], [a', target'], .cons ha (.cons htarget .nil) =>
      simp only [successor]
      rw [Node.ofNode_congr ha]
      split
      · exact ⟨agree_bindNumber? hlike htarget _, removed_bindNumber? _ _⟩
      · exact ⟨agree_bindNumber hlike htarget _, removed_bindNumber _ _⟩
      · exact ⟨agree_false, rfl⟩
  | [], [], _ => exact ⟨agree_false, rfl⟩
  | [_], [_], _ => exact ⟨agree_false, rfl⟩
  | _ :: _ :: _ :: _, _ :: _ :: _ :: _, _ => exact ⟨agree_false, rfl⟩

theorem respects_extremum (name : String) (takesFirst : Ordering → Bool) :
    Procedure.Respects (extremum name takesFirst).body like := by
  intro ctx ctx' args args' st st' _ hargs hlike
  have hall := list_beq_iff_forall₂.1 hargs
  match args, args', hall with
  | [a, b, target], [a', b', target'], .cons ha (.cons hb (.cons htarget .nil)) =>
      simp only [extremum]
      rw [← Node.ofNode_congr ha, ← Node.ofNode_congr hb]
      cases hx : Numeric.ofNode a with
      | none => exact ⟨agree_false, rfl⟩
      | some x =>
          cases hy : Numeric.ofNode b with
          | none => exact ⟨agree_false, rfl⟩
          | some y =>
              simp only
              split
              · rename_i order _
                cases takesFirst order with
                | true =>
                    exact ⟨agree_bind hlike htarget ha (Numeric.isGround_of_ofNode hx),
                      removed_bind _ _⟩
                | false =>
                    exact ⟨agree_bind hlike htarget hb (Numeric.isGround_of_ofNode hy),
                      removed_bind _ _⟩
              · exact ⟨agree_false, rfl⟩
  | [], [], _ => exact ⟨agree_false, rfl⟩
  | [_], [_], _ => exact ⟨agree_false, rfl⟩
  | [_, _], [_, _], _ => exact ⟨agree_false, rfl⟩
  | _ :: _ :: _ :: _ :: _, _ :: _ :: _ :: _ :: _, _ => exact ⟨agree_false, rfl⟩

theorem respects_textLength : Procedure.Respects textLength.body like := by
  intro ctx ctx' args args' st st' _ hargs hlike
  have hall := list_beq_iff_forall₂.1 hargs
  match args, args', hall with
  | [text, target], [text', target'], .cons htext (.cons htarget .nil) =>
      simp only [textLength]
      rw [Node.lexical?_congr htext]
      split
      · exact ⟨agree_bind hlike htarget BEq.rfl rfl, removed_bind _ _⟩
      · exact ⟨agree_false, rfl⟩
  | [], [], _ => exact ⟨agree_false, rfl⟩
  | [_], [_], _ => exact ⟨agree_false, rfl⟩
  | _ :: _ :: _ :: _, _ :: _ :: _ :: _, _ => exact ⟨agree_false, rfl⟩

theorem respects_concatenation (name : String) {make : String → Node}
    (hmake : ∀ s, (make s).isGround = true) :
    Procedure.Respects (concatenation name make).body like := by
  intro ctx ctx' args args' st st' _ hargs hlike
  -- The last argument and those before it are equal one by one.
  have hsplit : ∀ {as bs : List Node}, (as == bs) = true →
      (as.getLast? == bs.getLast?) = true ∧ (as.dropLast == bs.dropLast) = true := by
    intro as bs h
    have hall := list_beq_iff_forall₂.1 h
    clear h
    induction hall with
    | nil => exact ⟨rfl, rfl⟩
    | @cons a b as bs hab hrest ih =>
        cases hrest with
        | nil => exact ⟨hab, rfl⟩
        | @cons a' b' as bs hab' hrest =>
            refine ⟨?_, ?_⟩
            · rw [List.getLast?_cons_cons, List.getLast?_cons_cons]
              exact ih.1
            · rw [List.dropLast_cons_cons, List.dropLast_cons_cons, list_beq_cons, hab, ih.2]
              rfl
  obtain ⟨hlast, hbefore⟩ := hsplit hargs
  simp only [concatenation]
  rcases Bindings.option_beq_iff.1 hlast with ⟨hn, hm⟩ | ⟨target, target', hn, hm, htarget⟩
  · rw [hn, hm]
    exact ⟨agree_false, rfl⟩
  · rw [hn, hm, Node.mapM_lexical?_congr hbefore]
    simp only
    split
    · exact ⟨agree_bind hlike htarget BEq.rfl (hmake _), removed_bind _ _⟩
    · exact ⟨agree_false, rfl⟩

/-! ## Negation -/

theorem fixing_congr {m n : Node} (h : (m == n) = true) :
    (TriplePattern.fixing m == TriplePattern.fixing n) = true := by
  unfold TriplePattern.fixing
  rw [Node.isGround_congr h]
  split
  · exact h
  · rfl

theorem negatedPattern_congr {args args' : List Node} (h : (args == args') = true) :
    (negatedPattern args == negatedPattern args') = true := by
  have hall := list_beq_iff_forall₂.1 h
  match args, args', hall with
  | [s, p], [s', p'], .cons hs (.cons hp .nil) =>
      change (_ && _ && _) = true
      rw [fixing_congr hs, fixing_congr hp]
      rfl
  | [s, p, o], [s', p', o'], .cons hs (.cons hp (.cons ho .nil)) =>
      change (_ && _ && _) = true
      rw [fixing_congr hs, fixing_congr hp, fixing_congr ho]
      rfl
  | [], [], _ => rfl
  | [_], [_], _ => rfl
  | _ :: _ :: _ :: _ :: _, _ :: _ :: _ :: _ :: _, _ => rfl

theorem respects_noValue : Procedure.Respects noValue.body CallContext.Like := by
  intro ctx ctx' args args' st st' hctx hargs hlike
  simp only [noValue]
  rcases Bindings.option_beq_iff.1 (negatedPattern_congr hargs) with
    ⟨hn, hm⟩ | ⟨p, p', hn, hm, hsame⟩
  · rw [hn, hm]
    exact ⟨agree_false, rfl⟩
  · rw [hn, hm]
    exact ⟨agree_test hlike (hctx p p' hsame), rfl⟩

/-! ## The standard builtins -/

/-- The names of the builtins that look at their arguments and bindings alone. -/
def graphFree : List String :=
  [ "equal", "notEqual", "lessThan", "greaterThan", "le", "ge", "bound", "unbound", "isLiteral",
    "notLiteral", "isBNode", "notBNode", "isFunctor", "notFunctor", "isDType", "strConcat",
    "uriConcat", "strlen", "sum", "difference", "product", "min", "max", "addOne" ]

/-- The builtin may be asked anywhere, and respects likeness. -/
structure Impartial (like : CallContext → CallContext → Prop) (b : Builtin) : Prop where
  safe : b.safe = true
  respects : Procedure.Respects b.body like

theorem impartial_comparisons : ∀ b ∈ comparisons, b.Impartial like ∧ b.monotonic = true := by
  intro b hb
  have hordering : ∀ name accept, (ordering name accept).Impartial like := fun name accept =>
    ⟨rfl, respects_comparison name fun _ _ _ _ hm hn => by rw [Node.compareValues?_congr hm hn]⟩
  simp only [comparisons, List.mem_cons, List.not_mem_nil, or_false] at hb
  rcases hb with rfl | rfl | rfl | rfl | rfl | rfl
  · exact ⟨⟨rfl, respects_comparison _ fun _ _ _ _ hm hn => Node.sameValue_congr hm hn⟩, rfl⟩
  · exact ⟨⟨rfl, respects_comparison _ fun _ _ _ _ hm hn => by
      rw [Node.sameValue_congr hm hn]⟩, rfl⟩
  all_goals exact ⟨hordering _ _, rfl⟩

theorem impartial_kindTests : ∀ b ∈ kindTests, b.Impartial like ∧ b.monotonic = true := by
  intro b hb
  simp only [kindTests, List.mem_cons, List.not_mem_nil, or_false] at hb
  rcases hb with rfl | rfl | rfl | rfl | rfl | rfl | rfl | rfl | rfl
  · exact ⟨⟨rfl, respects_kindTest _ fun _ _ h => Node.isGround_congr h⟩, rfl⟩
  · exact ⟨⟨rfl, respects_kindTest _ fun _ _ h => by rw [Node.isGround_congr h]⟩, rfl⟩
  · exact ⟨⟨rfl, respects_kindTest _ fun _ _ h => Node.isLiteral_congr h⟩, rfl⟩
  · exact ⟨⟨rfl, respects_kindTest _ fun _ _ h => by
      rw [Node.isGround_congr h, Node.isLiteral_congr h]⟩, rfl⟩
  · exact ⟨⟨rfl, respects_kindTest _ fun _ _ h => Node.isBlank_congr h⟩, rfl⟩
  · exact ⟨⟨rfl, respects_kindTest _ fun _ _ h => by
      rw [Node.isGround_congr h, Node.isBlank_congr h]⟩, rfl⟩
  · exact ⟨⟨rfl, respects_kindTest _ fun _ _ h => Node.isFunctor_congr h⟩, rfl⟩
  · exact ⟨⟨rfl, respects_kindTest _ fun _ _ h => by
      rw [Node.isGround_congr h, Node.isFunctor_congr h]⟩, rfl⟩
  · exact ⟨⟨rfl, respects_datatypeTest⟩, rfl⟩

theorem impartial_arithmetics : ∀ b ∈ arithmetics, b.Impartial like ∧ b.monotonic = true := by
  intro b hb
  simp only [arithmetics, List.mem_cons, List.not_mem_nil, or_false] at hb
  rcases hb with rfl | rfl | rfl | rfl | rfl | rfl | rfl
  · exact ⟨⟨rfl, respects_arithmetic _ _ _⟩, rfl⟩
  · exact ⟨⟨rfl, respects_arithmetic _ _ _⟩, rfl⟩
  · exact ⟨⟨rfl, respects_arithmetic _ _ _⟩, rfl⟩
  · exact ⟨⟨rfl, respects_arithmetic _ _ _⟩, rfl⟩
  · exact ⟨⟨rfl, respects_extremum _ _⟩, rfl⟩
  · exact ⟨⟨rfl, respects_extremum _ _⟩, rfl⟩
  · exact ⟨⟨rfl, respects_successor⟩, rfl⟩

/-- A standard builtin that is free of the graph is impartial, whatever it sees. -/
theorem impartial_of_graphFree (like : CallContext → CallContext → Prop) {b : Builtin}
    (hb : b ∈ standard) (hname : b.name ∈ graphFree) :
    b.Impartial like ∧ b.monotonic = true := by
  simp only [standard, List.mem_append] at hb
  rcases hb with ((((hb | hb) | hb) | hb) | hb) | hb
  · exact impartial_comparisons b hb
  · exact impartial_arithmetics b hb
  · exact impartial_kindTests b hb
  · simp only [texts, List.mem_cons, List.not_mem_nil, or_false] at hb
    rcases hb with rfl | rfl | rfl | rfl
    · exact ⟨⟨rfl, respects_concatenation _ fun _ => rfl⟩, rfl⟩
    · exact ⟨⟨rfl, respects_concatenation _ fun _ => rfl⟩, rfl⟩
    · exact absurd hname (by decide)
    · exact ⟨⟨rfl, respects_textLength⟩, rfl⟩
  · simp only [chains, List.mem_cons, List.not_mem_nil, or_false] at hb
    rcases hb with rfl | rfl | rfl | rfl
    all_goals exact absurd hname (by decide)
  · simp only [actions, List.mem_cons, List.not_mem_nil, or_false] at hb
    rcases hb with rfl | rfl | rfl | rfl | rfl | rfl | rfl | rfl
    all_goals exact absurd hname (by decide)

theorem eq_noValue {b : Builtin} (hb : b ∈ standard) (hname : b.name = noValue.name) :
    b = noValue := by
  simp only [standard, comparisons, arithmetics, kindTests, texts, chains, actions,
    List.mem_append, List.mem_cons, List.not_mem_nil, or_false] at hb
  rcases hb with ((((hb | hb) | hb) | hb) | hb) | hb
  · rcases hb with rfl | rfl | rfl | rfl | rfl | rfl
    all_goals exact absurd hname (by decide)
  · rcases hb with rfl | rfl | rfl | rfl | rfl | rfl | rfl
    all_goals exact absurd hname (by decide)
  · rcases hb with rfl | rfl | rfl | rfl | rfl | rfl | rfl | rfl | rfl
    all_goals exact absurd hname (by decide)
  · rcases hb with rfl | rfl | rfl | rfl
    all_goals exact absurd hname (by decide)
  · rcases hb with rfl | rfl | rfl | rfl
    all_goals exact absurd hname (by decide)
  · rcases hb with rfl | rfl | rfl | rfl | rfl | rfl | rfl | rfl
    · rfl
    all_goals exact absurd hname (by decide)

/-- The builtin keeps what is bound and respects likeness where the views are alike; if
its answer never changes when triples are added, it does so wherever it is asked. -/
structure Fair (b : Builtin) : Prop where
  keeps : b.body.Keeps
  alike : b.body.Respects CallContext.Like
  anywhere : b.monotonic = true → b.body.Respects fun _ _ => True

theorem fair_of_mem_standard {b : Builtin} (hb : b ∈ standard)
    (hname : b.name ∈ graphFree ∨ b.name = noValue.name) : b.Fair := by
  have hkeeps := keeps_body_of_mem_standard b hb
  rcases hname with hname | hname
  · exact ⟨hkeeps, (impartial_of_graphFree _ hb hname).1.respects,
      fun _ => (impartial_of_graphFree _ hb hname).1.respects⟩
  · rw [eq_noValue hb hname] at hkeeps ⊢
    exact ⟨hkeeps, respects_noValue, (fun h => nomatch h)⟩

theorem safe_of_mem_standard {b : Builtin} (hb : b ∈ standard)
    (hname : b.name ∈ graphFree ∨ b.name = noValue.name) : b.safe = true := by
  rcases hname with hname | hname
  · exact (impartial_of_graphFree CallContext.Like hb hname).1.safe
  · rw [eq_noValue hb hname]
    rfl

end Builtin

/-! ## Bodies -/

variable {ctx ctx' : CallContext} {registry : Registry}

/-- Calls asked in order agree if each of them does. -/
theorem agree_allHold {ask ask' : Call → CallState → Bool × CallState} {calls : List Call}
    (hask : ∀ c ∈ calls, ∀ st st' : CallState, st.bindings.Alike st'.bindings →
      CallState.Agree (ask c st) (ask' c st') ∧
        (ask c st).2.effects.removed = st.effects.removed)
    (hlike : st.bindings.Alike st'.bindings) :
    CallState.Agree (allHold ask calls st) (allHold ask' calls st') ∧
      (allHold ask calls st).2.effects.removed = st.effects.removed := by
  induction calls generalizing st st' with
  | nil => exact ⟨⟨rfl, fun _ => hlike⟩, rfl⟩
  | cons c calls ih =>
      have hfirst := hask c List.mem_cons_self st st' hlike
      rw [allHold, allHold]
      generalize ask c st = result at hfirst ⊢
      generalize ask' c st' = result' at hfirst ⊢
      obtain ⟨answer, st₁⟩ := result
      obtain ⟨answer', st₁'⟩ := result'
      obtain ⟨⟨hanswer, hbindings⟩, heffects⟩ := hfirst
      obtain rfl : answer = answer' := hanswer
      cases answer with
      | false => exact ⟨⟨rfl, (fun h => nomatch h)⟩, heffects⟩
      | true =>
          obtain ⟨hagree, hsame⟩ := ih (fun c hc => hask c (List.mem_cons_of_mem _ hc))
            (hbindings rfl)
          exact ⟨hagree, hsame.trans heffects⟩

/-- A call that respects likeness agrees in like contexts and environments. -/
theorem Call.agree_holds {call : Call}
    (hrespects : ∀ b, registry.get? call.name = some b → b.body.Respects like)
    (hctx : like ctx ctx') (hlike : st.bindings.Alike st'.bindings) :
    CallState.Agree (call.holds registry ctx st) (call.holds registry ctx' st') ∧
      (call.holds registry ctx st).2.effects.removed = st.effects.removed := by
  unfold holds
  cases hb : registry.get? call.name with
  | none => exact ⟨CallState.agree_false, rfl⟩
  | some b =>
      exact hrespects b hb ctx ctx' _ _ st st' hctx (call.resolvedArgs_congr hlike) hlike

/-- What is safe is asked in the same way where nothing is decided yet. -/
theorem Call.holdsSpeculatively_eq {call : Call}
    (hsafe : ∀ b, registry.get? call.name = some b → b.safe = true) :
    call.holdsSpeculatively registry ctx st = call.holds registry ctx st := by
  unfold holdsSpeculatively
  cases hb : registry.get? call.name with
  | none => rw [holds, hb]
  | some b =>
      simp only
      rw [if_pos (hsafe b hb)]

end Entailment

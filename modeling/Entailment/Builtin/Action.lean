import Entailment.Builtin.Basic
import Entailment.Builtin.Value
import Entailment.Term.Hashing

/-!
# Negation, effects and new nodes

`noValue` asks whether nothing matches.  `remove` and `drop` act in heads on the
triples that the body matched, `hide` and `print` also in bodies.  `makeTemp`
makes a fresh blank node, `makeSkolem` the blank node that its arguments name.
-/

namespace Entailment

namespace Node

/-- The blank node named by a list of terms. -/
def skolem (values : List Node) : Node :=
  .blank (BlankSupply.firstNamed + Digest.number (Digest.ofNodes values))

end Node

namespace Builtin

/-- The pattern of two or three arguments, open where one is not ground. -/
def negatedPattern : List Node → Option TriplePattern
  | [s, p] => some ⟨TriplePattern.fixing s, TriplePattern.fixing p, none⟩
  | [s, p, o] => some ⟨TriplePattern.fixing s, TriplePattern.fixing p, TriplePattern.fixing o⟩
  | _ => none

def noValue : Builtin :=
  { name := "noValue"
    monotonic := false
    body := fun ctx args st =>
      match negatedPattern args with
      | some pattern => ((ctx.find pattern).isEmpty, st)
      | none => (false, st) }

/-- The matched triples at the positions that the arguments give. -/
def targets (ctx : CallContext) (args : List Node) : List Triple :=
  args.filterMap fun a => a.position?.bind ctx.matched?

/-- Acts on matched triples in a head, and fails in a body. -/
def removal (name : String) (remove : CallState → CallContext → Triple → CallState) : Builtin :=
  { name
    safe := false
    monotonic := false
    body := fun _ _ st => (false, st)
    head := fun ctx args st => (true, (targets ctx args).foldl (fun st t => remove st ctx t) st) }

def hidePredicate : Builtin :=
  { name := "hide"
    arity := some 1
    safe := false
    body := fun ctx args st =>
      match args with
      | predicate :: _ =>
        if predicate.isGround then
          (true, if ctx.speculative then st else st.hide ctx predicate)
        else (false, st)
      | [] => (false, st) }

def printLine : Builtin :=
  { name := "print"
    body := fun ctx args st =>
      (true, if ctx.speculative then st else st.print (" ".intercalate (args.map Node.text))) }

def makeTemp : Builtin :=
  { name := "makeTemp"
    arity := some 1
    safe := false
    body := fun _ args st =>
      match args with
      | target :: _ =>
        let (blank, st) := st.freshBlank
        st.bind target blank
      | [] => (false, st) }

def makeSkolem : Builtin :=
  { name := "makeSkolem"
    body := fun _ args st =>
      match args with
      | target :: values =>
        if values.all Node.isGround then st.bind target (.skolem values) else (false, st)
      | [] => (false, st) }

def now : Builtin :=
  { name := "now"
    arity := some 1
    body := fun _ args st =>
      match args with
      | target :: _ =>
        st.bind target (.literal (.typed st.world.time (Vocabulary.schema ++ "dateTime")))
      | [] => (false, st) }

def actions : List Builtin :=
  [ noValue,
    removal "remove" CallState.remove,
    removal "drop" CallState.drop,
    hidePredicate,
    printLine,
    makeTemp,
    makeSkolem,
    now ]

end Builtin

end Entailment

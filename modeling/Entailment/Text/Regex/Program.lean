import Entailment.Text.Regex.Reader

/-!
# Regular expressions as programs

A pattern becomes a table of instructions.  A choice lists where to go on in order
of preference, which decides between matches: the leftmost alternative first, more
repetitions first unless they are lazy.
-/

namespace Entailment

namespace Regex

inductive Instruction where
  | accept
  | char (s : CharSet) (next : Nat)
  | choice (nexts : List Nat)
  | assertion (a : Assertion) (next : Nat)
  /-- Records the place as the bound of a group. -/
  | mark (slot next : Nat)
deriving Inhabited

namespace Instruction

/-- The number of instructions that may be next. -/
def ways : Instruction → Nat
  | accept => 0
  | choice nexts => nexts.length
  | _ => 1

end Instruction

/-- Instructions by number, and the first. -/
structure Program where
  code : Array Instruction
  start : Nat
  groups : Nat
  /-- All ways from one instruction to another. -/
  ways : Nat := code.foldl (fun n i => n + i.ways) 0

namespace Program

/-- Adds an instruction; it gets the next number. -/
def emit (code : Array Instruction) (i : Instruction) : Nat × Array Instruction :=
  (code.size, code.push i)

/-- Two ways on, the first preferred if the choice is greedy. -/
def fork (greedy : Bool) (inside outside : Nat) : Instruction :=
  .choice (if greedy then [inside, outside] else [outside, inside])

/-- A step that puts instructions in front of the given one. -/
abbrev Prepend := Nat → Array Instruction → Nat × Array Instruction

/-- The step, a number of times. -/
def repeated (step : Prepend) : Nat → Prepend
  | 0, next, code => (next, code)
  | n + 1, next, code =>
    let (next, code) := step next code
    repeated step n next code

/-- The step, up to a number of times, each optional after the one before. -/
def optional (step : Prepend) (greedy : Bool) (outside : Nat) : Nat → Prepend
  | 0, next, code => (next, code)
  | n + 1, next, code =>
    let (inside, code) := step next code
    let (choice, code) := emit code (fork greedy inside outside)
    optional step greedy outside n choice code

/-- The step at least once and any number of times. -/
def plus (step : Prepend) (greedy : Bool) : Prepend := fun next code =>
  let (loop, code) := emit code (.choice [])
  let (inside, code) := step loop code
  (inside, code.set! loop (fork greedy inside next))

/-- The step any number of times.  If it may take up no character, entering the loop is
a choice of its own, which keeps the order of preference. -/
def star (step : Prepend) (consuming greedy : Bool) : Prepend := fun next code =>
  if consuming then
    let (loop, code) := emit code (.choice [])
    let (inside, code) := step loop code
    (loop, code.set! loop (fork greedy inside next))
  else
    let (inside, code) := plus step greedy next code
    emit code (fork greedy inside next)

def repetition (step : Prepend) (consuming greedy : Bool) (least : Nat) (most : Option Nat) :
    Prepend := fun next code =>
  match most with
  | some most =>
    let (next, code) := optional step greedy next (most - least) next code
    repeated step least next code
  | none =>
    if least = 0 then star step consuming greedy next code
    else
      let (next, code) := plus step greedy next code
      repeated step (least - 1) next code

/-- Puts one instruction for each character in front of the given one. -/
def text (cs : List Char) : Prepend := fun next code =>
  cs.reverse.foldl (fun (next, code) c => emit code (.char (.single c.toNat) next)) (next, code)

mutual
/-- Puts the instructions of a pattern in front of the given one. -/
def prepend : Pattern → Prepend
  | .empty => fun next code => (next, code)
  | .text cs => text cs
  | .set s => fun next code => emit code (.char s next)
  | .assertion a => fun next code => emit code (.assertion a next)
  | .seq ps => prependSeq ps
  | .alt ps => fun next code =>
    let (starts, code) := prependBranches ps next code
    emit code (.choice starts)
  | .repetition p least most greedy =>
    repetition (prepend p) p.isConsuming greedy least most
  | .group i p => fun next code =>
    let (finish, code) := emit code (.mark (2 * i + 1) next)
    let (inside, code) := prepend p finish code
    emit code (.mark (2 * i) inside)

def prependSeq : List Pattern → Prepend
  | [], next, code => (next, code)
  | p :: rest, next, code =>
    let (next, code) := prependSeq rest next code
    prepend p next code

/-- The branches of a choice, which all go on at the given instruction. -/
def prependBranches : List Pattern → Nat → Array Instruction → List Nat × Array Instruction
  | [], _, code => ([], code)
  | p :: rest, next, code =>
    let (start, code) := prepend p next code
    let (starts, code) := prependBranches rest next code
    (start :: starts, code)
end

def ofPattern (p : Pattern) (groups : Nat) : Program :=
  let (last, code) := emit #[] .accept
  let (start, code) := prepend p last code
  { code, start, groups }

/-- The program of a text, unless it is no pattern. -/
def read? (text : String) : Option Program :=
  (Pattern.read? text).map fun (p, groups) => ofPattern p groups

end Program

end Regex

end Entailment

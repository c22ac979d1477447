import Entailment.Text.Regex.Program

/-!
# Matching

A program is run over a text by threads, one for each instruction that waits for a
character, in order of preference.  No instruction is reached twice at one place,
so that a run takes time in proportion to program and text.  The match is the
leftmost one, and among those the one preferred first.
-/

namespace Entailment

namespace Regex

/-- The places of group bounds, by slot. -/
abbrev Marks := List (Nat × Nat)

namespace Marks

def set (m : Marks) (slot place : Nat) : Marks := (slot, place) :: m.filter fun e => e.1 != slot

def get? (m : Marks) (slot : Nat) : Option Nat := (m.find? fun e => e.1 == slot).map Prod.snd

end Marks

/-- A place in a text: its number and the characters on both sides. -/
structure Place where
  index : Nat
  before : Option Nat
  after : Option Nat

namespace Assertion

def lineFeed : Nat := 0xa

def carriageReturn : Nat := 0xd

/-- Words are of Unicode or of ASCII. -/
def inWord (unicode : Bool) (c : Option Nat) : Bool :=
  c.any (if unicode then CharSet.word else CharSet.asciiWord).contains

def holds (a : Assertion) (p : Place) : Bool :=
  match a with
  | .textStart => p.before.isNone
  | .textEnd => p.after.isNone
  | .lineStart => p.before.isNone || p.before == some lineFeed
  | .lineEnd => p.after.isNone || p.after == some lineFeed
  | .crlfStart =>
    p.before.isNone || p.before == some lineFeed ||
      (p.before == some carriageReturn && p.after != some lineFeed)
  | .crlfEnd =>
    p.after.isNone || p.after == some carriageReturn ||
      (p.after == some lineFeed && p.before != some carriageReturn)
  | .boundary unicode => inWord unicode p.before != inWord unicode p.after
  | .notBoundary unicode => inWord unicode p.before == inWord unicode p.after
  | .wordStart unicode => !inWord unicode p.before && inWord unicode p.after
  | .wordEnd unicode => inWord unicode p.before && !inWord unicode p.after
  | .wordStartHalf unicode => !inWord unicode p.before
  | .wordEndHalf unicode => !inWord unicode p.after

end Assertion

/-- An instruction that a run has come to, with the bounds recorded on the way. -/
structure Thread where
  index : Nat
  marks : Marks

/-- Threads in reverse order of preference.  Each instruction is marked with the last
visit that came to it, and a visit comes to one place of the text. -/
structure Frontier where
  threads : List Thread := []
  visit : Nat
  visits : Array Nat

namespace Frontier

/-- The instruction has been reached at this place. -/
def hasSeen (f : Frontier) (i : Nat) : Bool := f.visits.getD i f.visit == f.visit

def see (f : Frontier) (i : Nat) : Frontier := { f with visits := f.visits.set! i f.visit }

def add (f : Frontier) (t : Thread) : Frontier := { f with threads := t :: f.threads }

/-- Nothing has been reached at the next place. -/
def next (f : Frontier) : Frontier := { f with threads := [], visit := f.visit + 1 }

end Frontier

namespace Program

variable (program : Program)

/-- Follows the instructions that need no character, in order of preference.  Each is
followed once, so no more are waiting than the program has ways on. -/
def reach (place : Place) : Nat → List Thread → Frontier → Frontier
  | 0, _, frontier => frontier
  | _ + 1, [], frontier => frontier
  | fuel + 1, t :: waiting, frontier =>
    if frontier.hasSeen t.index then reach place fuel waiting frontier
    else
      let frontier := frontier.see t.index
      match program.code[t.index]? with
      | none => reach place fuel waiting frontier
      | some (.choice nexts) =>
        reach place fuel (nexts.map (fun next => ⟨next, t.marks⟩) ++ waiting) frontier
      | some (.assertion a next) =>
        let waiting := if a.holds place then ⟨next, t.marks⟩ :: waiting else waiting
        reach place fuel waiting frontier
      | some (.mark slot next) =>
        reach place fuel (⟨next, t.marks.set slot place.index⟩ :: waiting) frontier
      | some _ => reach place fuel waiting (frontier.add t)

def newFrontier : Frontier := { visit := 1, visits := Array.replicate program.code.size 0 }

def enter (place : Place) (i : Nat) (marks : Marks) (frontier : Frontier) : Frontier :=
  program.reach place (program.ways + 2) [⟨i, marks⟩] frontier

def isAccepting (t : Thread) : Bool :=
  match program.code[t.index]? with
  | some .accept => true
  | _ => false

/-- The threads preferred to the first that accepts, and its bounds. -/
def accepted (threads : List Thread) : List Thread × Option Marks :=
  (threads.takeWhile fun t => !program.isAccepting t,
    (threads.find? program.isAccepting).map Thread.marks)

/-- Moves the threads past one character. -/
def advance (c : Nat) (place : Place) (threads : List Thread) (frontier : Frontier) : Frontier :=
  let step (frontier : Frontier) (t : Thread) : Frontier :=
    match program.code[t.index]? with
    | some (.char s next) =>
      if s.contains c then program.enter place next t.marks frontier else frontier
    | _ => frontier
  threads.foldl step frontier.next

/-- Lets a new thread start as long as nothing has matched. -/
def start? (best : Option Marks) (place : Place) (frontier : Frontier) : Frontier :=
  if best.isNone then program.enter place program.start [(0, place.index)] frontier else frontier

/-- The best match after one more place. -/
def improved (best found : Option Marks) (place : Place) : Option Marks :=
  (found.map fun m => m.set 1 place.index).or best

/-- Runs over the rest of a text. -/
def run : List Nat → Option Marks → Nat → Option Nat → Frontier → Option Marks
  | [], best, index, before, frontier =>
    let place : Place := ⟨index, before, none⟩
    let (_, found) := program.accepted (program.start? best place frontier).threads.reverse
    improved best found place
  | c :: rest, best, index, before, frontier =>
    let place : Place := ⟨index, before, some c⟩
    let frontier := program.start? best place frontier
    let (threads, found) := program.accepted frontier.threads.reverse
    let next : Place := ⟨index + 1, some c, rest.head?⟩
    run rest (improved best found place) next.index next.before
      (program.advance c next threads frontier)

/-- The text of every group of the first match, none for one that took no part. -/
def captures? (text : String) : Option (List (Option String)) :=
  let cs := text.toList
  (program.run (cs.map Char.toNat) none 0 none program.newFrontier).map fun marks =>
    (List.range (program.groups + 1)).map fun g =>
      match marks.get? (2 * g), marks.get? (2 * g + 1) with
      | some a, some b => some (String.ofList ((cs.drop a).take (b - a)))
      | _, _ => none

end Program

end Regex

end Entailment

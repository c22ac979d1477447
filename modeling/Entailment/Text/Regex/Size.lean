import Std.Data.HashMap
import Entailment.Text.Utf8
import Entailment.Text.Regex.Pattern
import Entailment.Text.Unicode.Table

/-!
# The size of a pattern

A pattern stands for two automata over the bytes of UTF-8, one that reads forwards
and records groups, and one that reads backwards and does not.  A pattern is too
large when one of them takes up more memory than the limit.  Only the room for
states and links is counted here; nothing is run.

A repetition that is counted writes its part out again and again.  A set becomes a
net of states for its ranges of bytes, in which equal ends are shared as far as a
small table of recent states remembers them.
-/

namespace Entailment

namespace Regex

/-- The room that a state takes up, in bytes. -/
def stateRoom : Nat := 32

/-- The room for one way on from a choice. -/
def branchRoom : Nat := 4

/-- The room for one range of bytes of a state that has several. -/
def transitionRoom : Nat := 8

/-- An automaton may not take up more bytes than this. -/
def sizeLimit : Nat := 10485760

/-- The states of an automaton so far, and the room for what leads on from them. -/
structure Blueprint where
  states : Nat := 0
  links : Nat := 0

namespace Blueprint

def room (b : Blueprint) : Nat := stateRoom * b.states + b.links

/-- Adds states and room for links, within the limit. -/
def extend? (b : Blueprint) (states links : Nat) : Option Blueprint :=
  let b : Blueprint := ⟨b.states + states, b.links + links⟩
  if b.room ≤ sizeLimit then some b else none

end Blueprint

/-- A step that draws a part of an automaton and fails when there is no room left. -/
abbrev Draft := StateT Blueprint Option

namespace Draft

/-- A new state with room for links; its number is the count of those before it. -/
def state (links : Nat) : Draft Nat := do
  let b ← get
  set (← b.extend? 1 links)
  return b.states

def states (n : Nat) (links : Nat) : Draft Unit := do set (← (← get).extend? n links)

/-- Leads on from the last state of a part: a choice needs room for one way more. -/
def leadOn (fromChoice : Bool) : Draft Unit := if fromChoice then states 0 branchRoom else pure ()

end Draft

/-- States by what leads on from them.  Each slot remembers one state, the last that
was put there. -/
abbrev Recent (κ : Type) := Std.HashMap Nat (κ × Nat)

namespace Recent

/-- The FNV-1a hash of numbers. -/
def hash (words : List Nat) : Nat :=
  (words.foldl (fun h w => (h ^^^ w.toUInt64) * 1099511628211)
    (14695981039346656037 : UInt64)).toNat

/-- The state remembered for the key. -/
def find? {κ : Type} [BEq κ] (recent : Recent κ) (slot : Nat) (key : κ) : Option Nat :=
  match recent[slot]? with
  | some (known, state) => if known == key then some state else none
  | none => none

/-- The state remembered for the key, or else a new one. -/
def share {κ : Type} [BEq κ] (slots : Nat) (key : κ) (words : List Nat) (links : Nat)
    (recent : Recent κ) : Draft (Nat × Recent κ) :=
  let slot := hash words % slots
  match recent.find? slot key with
  | some state => pure (state, recent)
  | none => do
    let state ← Draft.state links
    return (state, recent.insert slot (key, state))

end Recent

/-- A range of bytes and the state that it leads to. -/
structure Transition where
  bytes : Utf8.ByteRange
  next : Nat
deriving BEq

namespace Transition

def words (t : Transition) : List Nat := [t.bytes.1.toNat, t.bytes.2.toNat, t.next]

end Transition

/-- Sequences grouped by their first range, where equal ones are neighbours. -/
def groupByFirst (seqs : List (List Utf8.ByteRange)) :
    List (Utf8.ByteRange × List (List Utf8.ByteRange)) :=
  (seqs.splitBy fun s t => s.head? == t.head?).filterMap fun group =>
    group.head?.bind fun s => s.head?.map fun first => (first, group.map List.tail)

mutual
/-- The state from which the sequences lead to the target.  The ends are drawn first;
states with the same transitions are shared. -/
def netState (target : Nat) :
    Nat → List (List Utf8.ByteRange) → Recent (List Transition) →
      Draft (Nat × Recent (List Transition))
  | 0, _, recent => pure (target, recent)
  | depth + 1, seqs, recent =>
    if seqs.all List.isEmpty then pure (target, recent)
    else do
      let (transitions, recent) ← netTransitions target depth (groupByFirst seqs) recent
      Recent.share 10000 transitions (transitions.flatMap Transition.words)
        (transitionRoom * transitions.length) recent

/-- The transitions into the states of each group. -/
def netTransitions (target : Nat) (depth : Nat) :
    List (Utf8.ByteRange × List (List Utf8.ByteRange)) → Recent (List Transition) →
      Draft (List Transition × Recent (List Transition))
  | [], recent => pure ([], recent)
  | (bytes, tails) :: rest, recent => do
    let (next, recent) ← netState target depth tails recent
    let (transitions, recent) ← netTransitions target depth rest recent
    return (⟨bytes, next⟩ :: transitions, recent)
end

/-- A set read forwards. -/
def draftSet (s : CharSet) : Draft Unit := do
  let target ← Draft.state 0
  if s.isAscii then Draft.states 1 (transitionRoom * s.ranges.length)
  else
    let _ ← netState target 5 (Utf8.sequencesOf s) ∅

/-- A chain of states for one sequence, which is read from its end; its beginning is
shared. -/
def draftChain (sequence : List Utf8.ByteRange) (finish : Nat) (recent : Recent Transition) :
    Draft (Nat × Recent Transition) :=
  sequence.foldlM
    (fun (next, recent) bytes =>
      Recent.share 1000 (⟨bytes, next⟩ : Transition) [next, bytes.1.toNat, bytes.2.toNat] 0 recent)
    (finish, recent)

/-- A set read backwards: a choice between chains. -/
def draftSetBackwards (s : CharSet) : Draft Unit := do
  if s.isAscii then Draft.states 2 (transitionRoom * s.ranges.length)
  else
    let _ ← Draft.state 0
    let finish ← Draft.state 0
    let _ ← (Utf8.sequencesOf s).foldlM
      (fun recent sequence => do
        let (_, recent) ← draftChain sequence finish recent
        Draft.states 0 branchRoom
        return recent)
      (∅ : Recent Transition)

/-- Words by their first byte, in order of its first appearance. -/
def wordsByFirst (words : List (List UInt8)) : List (List (List UInt8)) :=
  let firsts := (words.filterMap List.head?).eraseDups
  firsts.map fun b => (words.filter fun w => w.head? == some b).map List.tail

/-- Draws the tree of words up to a length.  Where a word ends, shorter words before it
keep their preference over longer ones after it. -/
def draftWords : Nat → List (List UInt8) → Draft Unit
  | 0, _ => pure ()
  | depth + 1, words => do
    let chunks := Unicode.splitAt List.isEmpty words
    let ends := chunks.length - 1
    let leading := (chunks.takeWhile List.isEmpty).length
    for chunk in chunks do
      let followers := wordsByFirst chunk
      for follower in followers do
        if !follower.all List.isEmpty then draftWords depth follower
      if followers.length = 1 then Draft.states 1 0
      else if 1 < followers.length then Draft.states 1 (transitionRoom * followers.length)
    let full := (chunks.filter fun chunk => !chunk.isEmpty).length
    Draft.states 1 (branchRoom * (full + (ends - (leading - 1))))

/-- The bytes of characters. -/
def utf8Bytes (cs : List Char) : List UInt8 := cs.flatMap String.utf8EncodeChar

def asWord? (p : Pattern) : Option (List UInt8) :=
  match p with
  | .text cs => some (utf8Bytes cs)
  | _ => none

/-- A choice between words. -/
def draftTree (backwards : Bool) (words : List (List UInt8)) : Draft Unit := do
  Draft.states 1 0
  let words := if backwards then words.map List.reverse else words
  draftWords ((words.map List.length).foldl max 0) words

/-- More copies of a part, each after the one before, which ends in a choice or not. -/
def draftMore (part : Draft Bool) : Nat → Bool → Draft Bool
  | 0, fromChoice => pure fromChoice
  | n + 1, fromChoice => do
    let next ← part
    Draft.leadOn fromChoice
    draftMore part n next

/-- A part a number of times. -/
def draftCopies (part : Draft Bool) : Nat → Draft Bool
  | 0 => do
    Draft.states 1 0
    return false
  | n + 1 => do draftMore part n (← part)

/-- More copies that may each be left out together with those after it. -/
def draftOptional (part : Draft Bool) : Nat → Bool → Draft Bool
  | 0, fromChoice => pure fromChoice
  | n + 1, fromChoice => do
    Draft.states 1 (2 * branchRoom)
    let next ← part
    Draft.leadOn fromChoice
    draftOptional part n next

/-- A part any number of times. -/
def draftStar (part : Draft Bool) (consuming : Bool) : Draft Bool := do
  if consuming then
    Draft.states 1 branchRoom
    Draft.leadOn (← part)
    return true
  else
    Draft.leadOn (← part)
    Draft.states 3 (4 * branchRoom)
    return false

/-- A repetition of a part; the answer tells whether it ends in a choice. -/
def draftRepetition (part : Draft Bool) (consuming : Bool) (least : Nat) :
    Option Nat → Draft Bool
  | none =>
    if least = 0 then draftStar part consuming
    else do
      if least = 1 then Draft.leadOn (← part)
      else
        Draft.leadOn (← draftCopies part (least - 1))
        Draft.leadOn (← part)
      Draft.states 1 branchRoom
      return true
  | some most => do
    if least = 0 ∧ most = 1 then
      Draft.states 1 (2 * branchRoom)
      Draft.leadOn (← part)
      Draft.states 1 0
      return false
    else
      let before ← draftCopies part least
      if least = most then return before
      else
        Draft.states 1 0
        Draft.leadOn (← draftOptional part (most - least) before)
        return false

mutual
/-- Draws a pattern; the answer tells whether it ends in a choice. -/
def draft (backwards : Bool) : Pattern → Draft Bool
  | .empty => do
    Draft.states 1 0
    return false
  | .text cs => do
    Draft.states (utf8Bytes cs).length 0
    return false
  | .set s => do
    if backwards then draftSetBackwards s else draftSet s
    return false
  | .assertion _ => do
    Draft.states 1 0
    return false
  | .seq ps =>
    if backwards then do return (← draftSeqBackwards ps).getD false
    else draftSeq none ps
  | .alt ps =>
    match ps.mapM asWord? with
    | some words => do
      draftTree backwards words
      return false
    | none => do
      draftBranches backwards 0 ps
      return false
  | .repetition p least most _ =>
    draftRepetition (draft backwards p) p.isConsuming least most
  | .group _ p =>
    if backwards then draft backwards p
    else do
      Draft.states 1 0
      let inside ← draft backwards p
      Draft.states 1 0
      Draft.leadOn inside
      return false

/-- Parts from the first on; the part before them ends in a choice or not. -/
def draftSeq : Option Bool → List Pattern → Draft Bool
  | fromChoice, [] => pure (fromChoice.getD false)
  | fromChoice, p :: rest => do
    let next ← draft false p
    Draft.leadOn (fromChoice.getD false)
    draftSeq (some next) rest

/-- Parts from the last on. -/
def draftSeqBackwards : List Pattern → Draft (Option Bool)
  | [] => pure none
  | p :: rest => do
    let fromChoice ← draftSeqBackwards rest
    let next ← draft true p
    Draft.leadOn (fromChoice.getD false)
    return some next

/-- The branches of a choice, the first with the given number.  The choice itself and
the state where its branches meet come after the second. -/
def draftBranches (backwards : Bool) : Nat → List Pattern → Draft Unit
  | _, [] => pure ()
  | i, p :: rest => do
    Draft.leadOn (← draft backwards p)
    Draft.states (if i = 1 then 2 else 0) branchRoom
    draftBranches backwards (i + 1) rest
end

/-- Draws what lets a match begin anywhere, unless it can do so in one place only. -/
def draftSearch (anchored : Bool) : Draft Unit :=
  if anchored then Draft.states 1 0 else Draft.states 3 (transitionRoom + 2 * branchRoom)

/-- The automaton that reads forwards, with the bounds of the whole match. -/
def draftForwards (p : Pattern) : Draft Unit := do
  draftSearch p.startsAtTextStart
  let _ ← draft false (.group 0 p)
  Draft.states 1 0

/-- The automaton that reads backwards. -/
def draftBackwards (p : Pattern) : Draft Unit := do
  draftSearch p.endsAtTextEnd
  let fromChoice ← draft true p
  Draft.states 1 0
  Draft.leadOn fromChoice

/-- Both automata are within the limit. -/
def Pattern.fits (p : Pattern) : Bool :=
  (draftForwards p {}).isSome && (draftBackwards p {}).isSome

end Regex

end Entailment

import Entailment.Text.CharSet

/-!
# Regular expressions

The syntax tree of a pattern, in which every flag has been applied to the parts
that it governs, and what can be told of its matches without a text.
-/

namespace Entailment

namespace Regex

/-- A condition on the place between two characters; those on words ask whether words
are of Unicode or of ASCII. -/
inductive Assertion where
  | textStart
  | textEnd
  | lineStart
  | lineEnd
  | crlfStart
  | crlfEnd
  | boundary (unicode : Bool)
  | notBoundary (unicode : Bool)
  | wordStart (unicode : Bool)
  | wordEnd (unicode : Bool)
  | wordStartHalf (unicode : Bool)
  | wordEndHalf (unicode : Bool)
deriving DecidableEq

inductive Pattern where
  | empty
  /-- Characters one after the other. -/
  | text (cs : List Char)
  /-- One character of a set; without members, nothing matches. -/
  | set (s : CharSet)
  | assertion (a : Assertion)
  | seq (ps : List Pattern)
  | alt (ps : List Pattern)
  | repetition (p : Pattern) (least : Nat) (most : Option Nat) (greedy : Bool)
  | group (index : Nat) (p : Pattern)
deriving BEq, Inhabited

namespace Pattern

mutual
/-- The number of parts. -/
def size : Pattern → Nat
  | seq ps => sizeAll ps + 1
  | alt ps => sizeAll ps + 1
  | repetition p _ _ _ => p.size + 1
  | group _ p => p.size + 1
  | _ => 1

def sizeAll : List Pattern → Nat
  | [] => 0
  | p :: rest => p.size + sizeAll rest
end

mutual
/-- The fewest characters of a match, none if a part of it can never match. -/
def leastLength : Pattern → Option Nat
  | empty => some 0
  | text cs => some cs.length
  | set s => if s.isEmpty then none else some 1
  | assertion _ => some 0
  | seq ps => leastLengthOfSeq ps
  | alt ps => leastLengthOfAlt ps
  | repetition p least _ _ => p.leastLength.map (least * ·)
  | group _ p => p.leastLength

def leastLengthOfSeq : List Pattern → Option Nat
  | [] => some 0
  | p :: rest => do return (← p.leastLength) + (← leastLengthOfSeq rest)

def leastLengthOfAlt : List Pattern → Option Nat
  | [] => none
  | [p] => p.leastLength
  | p :: rest => do return min (← p.leastLength) (← leastLengthOfAlt rest)
end

/-- Every match takes up a character. -/
def isConsuming (p : Pattern) : Bool := p.leastLength.any fun n => decide (0 < n)

mutual
/-- The pattern can match the empty text alone. -/
def isOnlyEmpty : Pattern → Bool
  | empty => true
  | text _ => false
  | set _ => false
  | assertion _ => true
  | seq ps => areOnlyEmpty ps
  | alt ps => areOnlyEmpty ps
  | repetition p _ _ _ => p.isOnlyEmpty
  | group _ p => p.isOnlyEmpty

def areOnlyEmpty : List Pattern → Bool
  | [] => true
  | p :: rest => p.isOnlyEmpty && areOnlyEmpty rest
end

mutual
/-- Every match begins where the text does. -/
def startsAtTextStart : Pattern → Bool
  | assertion a => a == .textStart
  | seq ps => someStartsAtTextStart ps
  | alt ps => allStartAtTextStart ps
  | repetition p least _ _ => 0 < least && p.startsAtTextStart
  | group _ p => p.startsAtTextStart
  | _ => false

/-- One of the parts that stand at the beginning of a match asks for it. -/
def someStartsAtTextStart : List Pattern → Bool
  | [] => false
  | p :: rest => p.startsAtTextStart || (p.isOnlyEmpty && someStartsAtTextStart rest)

def allStartAtTextStart : List Pattern → Bool
  | [] => true
  | p :: rest => p.startsAtTextStart && allStartAtTextStart rest
end

mutual
/-- Every match ends where the text does. -/
def endsAtTextEnd : Pattern → Bool
  | assertion a => a == .textEnd
  | seq ps => someEndsAtTextEnd ps
  | alt ps => allEndAtTextEnd ps
  | repetition p least _ _ => 0 < least && p.endsAtTextEnd
  | group _ p => p.endsAtTextEnd
  | _ => false

/-- One of the parts that stand at the end of a match asks for it. -/
def someEndsAtTextEnd : List Pattern → Bool
  | [] => false
  | p :: rest => someEndsAtTextEnd rest || (areOnlyEmpty rest && p.endsAtTextEnd)

def allEndAtTextEnd : List Pattern → Bool
  | [] => true
  | p :: rest => p.endsAtTextEnd && allEndAtTextEnd rest
end

end Pattern

end Regex

end Entailment

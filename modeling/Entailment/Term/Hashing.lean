import Entailment.Term.Triple

/-!
# What terms give a hasher

A hasher is given a term as a sequence of values: the number of its kind, and then its
parts in order.  The arguments of a functor come after their number.  A double is given by
its bits and a language tag in lower case, so that literals that are the same term give
the same values.

A digest spells these values out as words, so that equal terms have equal digests and
different terms different ones: texts are preceded by their length.  Blank nodes that are
named by terms take their number from a hash of it.
-/

namespace Entailment

/-- A value as a hasher takes it. -/
inductive HashValue where
  /-- Which kind of term comes next. -/
  | kind (number : Nat)
  | text (s : String)
  | integer (n : Int64)
  | bits (word : UInt64)
  | truth (b : Bool)
  | number (n : Nat)
  /-- How many items come next. -/
  | length (n : Nat)
deriving DecidableEq

namespace Literal

def feed : Literal → List HashValue
  | .string s => [.kind 0, .text s]
  | .integer n => [.kind 1, .integer n]
  | .double d => [.kind 2, .bits d.bits]
  | .boolean b => [.kind 3, .truth b]
  | .typed value datatype => [.kind 4, .text value, .text datatype]
  | .tagged value tag => [.kind 5, .text value, .text (tag.map Char.toLower)]

end Literal

namespace Node

mutual
def feed : Node → List HashValue
  | .uri u => [.kind 0, .text u]
  | .literal l => .kind 1 :: l.feed
  | .blank id => [.kind 2, .number id]
  | .var v => [.kind 3, .text v.name, .number v.index]
  | .any => [.kind 4]
  | .functor name args => .kind 5 :: .text name :: .length args.length :: feedAll args

def feedAll : List Node → List HashValue
  | [] => []
  | n :: rest => n.feed ++ feedAll rest
end

end Node

def Triple.feed (t : Triple) : List HashValue :=
  t.subject.feed ++ t.predicate.feed ++ t.object.feed

/-! ## Digests -/

namespace HashValue

def wordsOfText (s : String) : List Nat := s.length :: s.toList.map Char.toNat

def words : HashValue → List Nat
  | .kind k => [k]
  | .text s => wordsOfText s
  | .integer n => [n.toUInt64.toNat]
  | .bits word => [word.toNat]
  | .truth b => [if b then 1 else 0]
  | .number n => wordsOfText (toString n)
  | .length n => [n]

end HashValue

namespace Digest

def ofNodes (values : List Node) : List Nat :=
  (HashValue.length values.length :: Node.feedAll values).flatMap HashValue.words

/-- The bytes of a word, the least first. -/
def bytesOf (word : Nat) : List UInt64 :=
  (List.range 8).map fun i => (word / Nat.pow 256 i % 256).toUInt64

/-- The 64-bit FNV-1a hash of bytes. -/
def hash (bytes : List UInt64) : UInt64 :=
  bytes.foldl (fun h b => (h ^^^ b) * 1099511628211) 14695981039346656037

/-- A number below `2 ^ 63` that stands for the words. -/
def number (words : List Nat) : Nat := (hash (words.flatMap bytesOf)).toNat % Nat.pow 2 63

end Digest

end Entailment

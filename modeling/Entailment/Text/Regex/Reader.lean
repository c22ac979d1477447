import Entailment.Text.Regex.Normal
import Entailment.Text.Regex.Size
import Entailment.Text.Unicode.Case
import Entailment.Text.Unicode.Name

/-!
# Reading regular expressions

The concrete syntax: groups with names and flags, alternatives, greedy and lazy
repetitions, escapes, bracketed classes with set operations, and Unicode classes.
Flags are applied while the text is read.  Look-around and back-references are
refused, and so is whatever else is not a pattern.
-/

namespace Entailment

namespace Regex

structure Flags where
  caseInsensitive : Bool := false
  multiLine : Bool := false
  dotMatchesNewline : Bool := false
  swapGreed : Bool := false
  unicode : Bool := true
  crlf : Bool := false
  ignoreWhitespace : Bool := false
deriving Inhabited

namespace Reader

def isSpace (c : Char) : Bool := CharSet.whiteSpace.contains c.toNat

/-- Skips blanks, and comments up to the end of their line. -/
def skipBlanks : Bool → List Char → List Char
  | _, [] => []
  | true, c :: rest => skipBlanks (c != '\n') rest
  | false, c :: rest =>
    if isSpace c then skipBlanks false rest
    else if c == '#' then skipBlanks true rest
    else c :: rest

/-- Skips what the flags let stand between two tokens. -/
def skip (f : Flags) (cs : List Char) : List Char :=
  if f.ignoreWhitespace then skipBlanks false cs else cs

/-- The characters that satisfy `p`, up to the first that does not, and the rest from it
on.  What may be skipped counts for neither; the flag tells that a comment goes on. -/
def takeWhile (f : Flags) (p : Char → Bool) : Bool → List Char → List Char × List Char
  | _, [] => ([], [])
  | true, c :: rest => takeWhile f p (c != '\n') rest
  | false, c :: rest =>
    if f.ignoreWhitespace && isSpace c then takeWhile f p false rest
    else if f.ignoreWhitespace && c == '#' then takeWhile f p true rest
    else if p c then
      let (taken, rest) := takeWhile f p false rest
      (c :: taken, rest)
    else ([], c :: rest)

/-- The text up to a closing brace, without what may be skipped. -/
def braced (f : Flags) (cs : List Char) : Option (List Char × List Char) :=
  match takeWhile f (· != '\x7d') false cs with
  | (name, _ :: rest) => some (name, rest)
  | (_, []) => none

/-- Closes a set under case where the flags ask for it. -/
def fold (f : Flags) (s : CharSet) : CharSet :=
  if f.caseInsensitive then (if f.unicode then s.folded else s.asciiFolded) else s

def negate (negated : Bool) (s : CharSet) : CharSet := if negated then s.compl else s

/-- Outside Unicode mode a set may hold ASCII alone. -/
def admitted? (f : Flags) (s : CharSet) : Option CharSet :=
  if f.unicode || s.isAscii then some s else none

/-- What an escape stands for. -/
inductive Escape where
  /-- A character, and whether it was written as a byte. -/
  | char (c : Nat) (asByte : Bool)
  | set (s : CharSet)
  | assertion (a : Assertion)

def isMeta (c : Char) : Bool := "\\.+*?()|[]\x7b\x7d^$#&-~".toList.contains c

def isScalar (n : Nat) : Bool := decide (n < 0xd800 ∨ (0xdfff < n ∧ n ≤ 0x10ffff))

/-- Hexadecimal digits, as many as are asked for, with skips between them. -/
def hexDigits (f : Flags) : Nat → Nat → List Char → Option (Nat × List Char)
  | 0, value, cs => some (value, cs)
  | count + 1, value, c :: rest => do
    let d ← Unicode.hexDigit? c
    hexDigits f count (16 * value + d) (skip f rest)
  | _ + 1, _, [] => none

/-- The value of hexadecimal digits, unless there are none or it is too large. -/
def codePoint? (ds : List Char) : Option Nat :=
  if ds.isEmpty then none
  else ds.foldlM (fun n d => do
    let n := 16 * n + (← Unicode.hexDigit? d)
    if n ≤ 0x10ffff then some n else none) 0

/-- The code point after `x`, `u` or `U`. -/
def hexEscape (f : Flags) (kind : Char) (cs : List Char) : Option (Escape × List Char) := do
  let width := if kind == 'x' then 2 else if kind == 'u' then 4 else 8
  match skip f cs with
  | [] => none
  | '\x7b' :: rest =>
    let (digits, rest) ← braced f rest
    let n ← codePoint? digits
    if isScalar n then return (.char n false, rest) else none
  | cs =>
    let (n, rest) ← hexDigits f width 0 cs
    if isScalar n then return (.char n (kind == 'x'), rest) else none

/-- Splits a text at the first occurrence of a separator. -/
def splitOnFirst (separator : List Char) : List Char → Option (List Char × List Char)
  | [] => none
  | c :: rest =>
    if separator.isPrefixOf (c :: rest) then some ([], (c :: rest).drop separator.length)
    else (splitOnFirst separator rest).map fun (before, after) => (c :: before, after)

/-- The set of a class name, which may give a property and its value; the flag tells
whether the value is excluded. -/
def namedClass? (name : List Char) : Option (CharSet × Bool) :=
  let byValue (parts : List Char × List Char) (excluded : Bool) : Option (CharSet × Bool) :=
    (CharSet.ofProperty? (String.ofList parts.1) (String.ofList parts.2)).map fun s => (s, excluded)
  match splitOnFirst "!=".toList name with
  | some parts => byValue parts true
  | none =>
    match splitOnFirst [':'] name with
    | some parts => byValue parts false
    | none =>
      match splitOnFirst ['='] name with
      | some parts => byValue parts false
      | none => (CharSet.ofName? (String.ofList name)).map fun s => (s, false)

/-- The class after `p` or `P`. -/
def unicodeClass (f : Flags) (negated : Bool) (cs : List Char) : Option (Escape × List Char) := do
  if !f.unicode then none
  match skip f cs with
  | [] => none
  | c :: rest =>
    let (name, rest) ←
      if c == '\x7b' then braced f rest
      else if c == '\\' then none
      else some ([c], rest)
    let (s, excluded) ← namedClass? name
    return (.set (negate (negated != excluded) (fold f s)), rest)

/-- The class of a letter such as `d`, `s` or `w`; its upper case excludes it. -/
def letterClass (f : Flags) (c : Char) : Option Escape :=
  let base :=
    match c.toLower with
    | 'd' => if f.unicode then CharSet.decimalDigit else .asciiDigit
    | 's' => if f.unicode then CharSet.whiteSpace else .asciiSpace
    | _ => if f.unicode then .word else .asciiWord
  (admitted? f (negate c.isUpper base)).map .set

/-- The special boundary in braces after a boundary escape, if there is one. -/
def specialBoundary (f : Flags) (cs : List Char) : Option (Option Assertion × List Char) :=
  let isNameChar (c : Char) : Bool := c.isAlpha || c == '-'
  match cs with
  | '\x7b' :: rest =>
    match takeWhile f isNameChar false rest with
    | (_, []) => none
    | (name, c :: rest) =>
      if name.isEmpty then some (none, cs)
      else if c != '\x7d' then none
      else
        match String.ofList name with
        | "start" => some (some (.wordStart f.unicode), rest)
        | "end" => some (some (.wordEnd f.unicode), rest)
        | "start-half" => some (some (.wordStartHalf f.unicode), rest)
        | "end-half" => some (some (.wordEndHalf f.unicode), rest)
        | _ => none
  | _ => some (none, cs)

/-- An escape, from the character after the backslash on. -/
def escape (f : Flags) : List Char → Option (Escape × List Char)
  | [] => none
  | c :: rest =>
    if c.isDigit then none
    else if c == 'x' || c == 'u' || c == 'U' then hexEscape f c rest
    else if c == 'p' || c == 'P' then unicodeClass f (c == 'P') rest
    else if "dswDSW".toList.contains c then (letterClass f c).map fun e => (e, rest)
    else if isMeta c then some (.char c.toNat false, rest)
    else
      match c with
      | 'a' => some (.char 0x7 false, rest)
      | 'f' => some (.char 0xc false, rest)
      | 't' => some (.char 0x9 false, rest)
      | 'n' => some (.char 0xa false, rest)
      | 'r' => some (.char 0xd false, rest)
      | 'v' => some (.char 0xb false, rest)
      | 'A' => some (.assertion .textStart, rest)
      | 'z' => some (.assertion .textEnd, rest)
      | 'b' => do
        let (special, rest) ← specialBoundary f rest
        return (.assertion (special.getD (.boundary f.unicode)), rest)
      | 'B' => some (.assertion (.notBoundary f.unicode), rest)
      | '<' => some (.assertion (.wordStart f.unicode), rest)
      | '>' => some (.assertion (.wordEnd f.unicode), rest)
      | _ => if c.toNat < 128 && !c.isAlphanum then some (.char c.toNat false, rest) else none

/-- The operations between the parts of a bracketed class. -/
inductive SetOperation where
  | inter
  | diff
  | symmDiff

namespace SetOperation

def apply (f : Flags) (op : SetOperation) (s t : CharSet) : CharSet :=
  match op with
  | .inter => (fold f s).inter (fold f t)
  | .diff => (fold f s).diff (fold f t)
  | .symmDiff => (fold f s).symmDiff (fold f t)

end SetOperation

/-- A part of a bracketed class: the sets read so far, and how deep they nest. -/
structure ClassPart where
  items : List CharSet := []
  depth : Nat := 0

namespace ClassPart

def add (part : ClassPart) (s : CharSet) (depth : Nat) : ClassPart :=
  ⟨s :: part.items, max part.depth depth⟩

def set (part : ClassPart) : CharSet := CharSet.unionOf part.items

def height (part : ClassPart) : Nat :=
  if 2 ≤ part.items.length then part.depth + 1 else part.depth

/-- The part joined with what stands left of it. -/
def joined (f : Flags) (left : Option (ClassPart × SetOperation)) (part : ClassPart) : ClassPart :=
  match left with
  | none => part
  | some (l, op) => ⟨[op.apply f l.set part.set], max l.height part.height + 1⟩

end ClassPart

/-- A character or set in a bracketed class. -/
inductive ClassItem where
  | char (c : Nat)
  | set (s : CharSet)

/-- A character of a class, which outside Unicode mode is an ASCII one. -/
def classChar? (f : Flags) (c : Nat) : Option ClassItem :=
  if f.unicode || c < 128 then some (.char c) else none

def classItem (f : Flags) : List Char → Option (ClassItem × List Char)
  | [] => none
  | '\\' :: rest => do
    match ← escape f rest with
    | (.char c _, rest) => return (← classChar? f c, rest)
    | (.set s, rest) => return (.set s, rest)
    | (.assertion _, _) => none
  | c :: rest => do return (← classChar? f c.toNat, rest)

/-- The character that a hyphen is followed by, to tell whether it makes a range.  With
blanks ignored, the sign of a comment is passed over once, but its text is not. -/
def peek? (f : Flags) (cs : List Char) : Option Char :=
  if f.ignoreWhitespace then
    match cs.dropWhile isSpace with
    | '#' :: rest => ((rest.dropWhile isSpace).head?).or cs.head?
    | rest => rest.head?.or cs.head?
  else cs.head?

/-- One character, set or range of a class. -/
def classRange (f : Flags) (cs : List Char) : Option (CharSet × List Char) := do
  let (first, rest) ← classItem f cs
  let whole : CharSet :=
    match first with
    | .char c => .single c
    | .set s => s
  match skip f rest with
  | [] => none
  | '-' :: afterDash =>
    if [some ']', some '-'].contains (peek? f afterDash) then
      return (whole, '-' :: afterDash)
    else
      let (last, rest) ← classItem f (skip f afterDash)
      match first, last with
      | .char a, .char b => if a ≤ b then return (.ofRanges [(a, b)], rest) else none
      | _, _ => none
  | rest => return (whole, rest)

/-- A class name between colons, from the opening bracket on. -/
def asciiClass? (f : Flags) (cs : List Char) : Option (CharSet × List Char) :=
  match cs with
  | '[' :: ':' :: rest =>
    let (negated, rest) :=
      match rest with
      | '^' :: after => (true, after)
      | _ => (false, rest)
    let name := rest.takeWhile (· != ':')
    match rest.drop name.length with
    | ':' :: ']' :: after =>
      (CharSet.ofAsciiClass? (String.ofList name)).map fun s =>
        (negate negated (fold f s), after)
    | _ => none
  | _ => none

/-- The opening of a class after its bracket: a caret, hyphens and a closing bracket
that stands for itself. -/
def classOpening (f : Flags) (cs : List Char) : Bool × ClassPart × List Char :=
  let cs := skip f cs
  let (negated, cs) :=
    match cs with
    | '^' :: rest => (true, skip f rest)
    | _ => (false, cs)
  let (hyphens, cs) := takeWhile f (· == '-') false cs
  let part : ClassPart := hyphens.foldl (fun part _ => part.add (.single 0x2d) 0) {}
  match cs with
  | ']' :: rest =>
    if part.items.isEmpty then (negated, part.add (.single 0x5d) 0, skip f rest)
    else (negated, part, cs)
  | _ => (negated, part, cs)

/-- The rest of a class, from inside its brackets on, with the nesting depth. -/
def classRest (f : Flags) :
    Nat → Bool → Option (ClassPart × SetOperation) → ClassPart → List Char →
      Option ((CharSet × Nat) × List Char)
  | 0, _, _, _, _ => none
  | fuel + 1, negated, left, part, cs =>
    let continueWith (op : SetOperation) (rest : List Char) : Option ((CharSet × Nat) × List Char) :=
      classRest f fuel negated (some (ClassPart.joined f left part, op)) {} rest
    match skip f cs with
    | [] => none
    | ']' :: rest => do
      let whole := ClassPart.joined f left part
      let s ← admitted? f (negate negated (fold f whole.set))
      return ((s, whole.height + 1), rest)
    | '&' :: '&' :: rest => continueWith .inter rest
    | '-' :: '-' :: rest => continueWith .diff rest
    | '~' :: '~' :: rest => continueWith .symmDiff rest
    | '[' :: rest =>
      match asciiClass? f ('[' :: rest) with
      | some (s, rest) => do
        let s ← admitted? f s
        classRest f fuel negated left (part.add s 0) rest
      | none => do
        let (nestedNegated, nestedPart, inside) := classOpening f rest
        let ((s, depth), rest) ← classRest f fuel nestedNegated none nestedPart inside
        classRest f fuel negated left (part.add s depth) rest
    | c :: rest => do
      let (s, rest) ← classRange f (c :: rest)
      classRest f fuel negated left (part.add s 0) rest

/-- A part of a pattern, how deep it nests, and whether it may be repeated. -/
structure Piece where
  pattern : Pattern
  depth : Nat := 0
  repeatable : Bool := true

namespace Piece

def deepest (pieces : List Piece) : Nat := (pieces.map Piece.depth).foldl max 0

/-- Pieces one after the other; they come last first. -/
def concatenation (pieces : List Piece) : Piece :=
  { pattern := Pattern.sequence (pieces.reverse.map Piece.pattern)
    depth := if 2 ≤ pieces.length then deepest pieces + 1 else deepest pieces }

/-- Pieces to choose from; they come last first. -/
def alternation (pieces : List Piece) : Piece :=
  { pattern := Pattern.choice (pieces.reverse.map Piece.pattern)
    depth := if 2 ≤ pieces.length then deepest pieces + 1 else deepest pieces }

end Piece

/-- A group that has been opened, and what it interrupted. -/
structure OpenGroup where
  index : Option Nat
  flags : Flags
  branches : List Piece
  pieces : List Piece

/-- What has been read: the groups open, the branches and pieces of the innermost,
the flags in force, and the groups counted and named. -/
structure State where
  flags : Flags := {}
  groups : List OpenGroup := []
  branches : List Piece := []
  pieces : List Piece := []
  count : Nat := 0
  names : List String := []

namespace State

def push (st : State) (p : Piece) : State := { st with pieces := p :: st.pieces }

def nextBranch (st : State) : State :=
  { st with branches := Piece.concatenation st.pieces :: st.branches, pieces := [] }

/-- All that stands in the innermost group. -/
def content (st : State) : Piece := Piece.alternation st.nextBranch.branches

def openGroup (st : State) (index : Option Nat) (flags : Flags) : State :=
  { st with
    groups := ⟨index, st.flags, st.branches, st.pieces⟩ :: st.groups
    branches := []
    pieces := []
    flags }

def closeGroup? (st : State) : Option State :=
  match st.groups with
  | [] => none
  | g :: groups =>
    let inner := st.content
    let pattern :=
      match g.index with
      | some i => .group i inner.pattern
      | none => inner.pattern
    some
      { st with
        groups
        flags := g.flags
        branches := g.branches
        pieces := { pattern, depth := inner.depth + 1 } :: g.pieces }

/-- Repeats the last piece. -/
def repeat? (st : State) (least : Nat) (most : Option Nat) (greedy : Bool) : Option State :=
  match st.pieces with
  | p :: rest =>
    if p.repeatable then
      let repeated := p.pattern.repeated least most (greedy != st.flags.swapGreed)
      some { st with pieces := { pattern := repeated, depth := p.depth + 1 } :: rest }
    else none
  | [] => none

end State

/-- A flag's letter sets one flag. -/
def setFlag? (f : Flags) (value : Bool) : Char → Option Flags
  | 'i' => some { f with caseInsensitive := value }
  | 'm' => some { f with multiLine := value }
  | 's' => some { f with dotMatchesNewline := value }
  | 'U' => some { f with swapGreed := value }
  | 'u' => some { f with unicode := value }
  | 'R' => some { f with crlf := value }
  | 'x' => some { f with ignoreWhitespace := value }
  | _ => none

/-- Flag letters up to a colon or closing parenthesis, each at most once and with at
most one hyphen, which is not the last; `seen` are those before. -/
def flagItems : List Char → Bool → Flags → List Char → Option ((Flags × List Char) × List Char)
  | _, _, _, [] => none
  | seen, negated, f, c :: rest =>
    if c == ':' || c == ')' then
      if seen.head? == some '-' then none else some ((f, seen), c :: rest)
    else if seen.contains c then none
    else if c == '-' then flagItems (c :: seen) true f rest
    else do flagItems (c :: seen) negated (← setFlag? f (!negated) c) rest

def isNameChar (isFirst : Bool) (c : Char) : Bool :=
  if isFirst then c == '_' || CharSet.alphabetic.contains c.toNat
  else "_.[]".toList.contains c || CharSet.alphanumeric.contains c.toNat

/-- A group's name up to the closing angle. -/
def groupName (cs : List Char) : Option (String × List Char) := do
  let name := cs.takeWhile (· != '>')
  match name, cs.drop name.length with
  | first :: others, '>' :: rest =>
    if isNameChar true first && others.all (isNameChar false) then
      return (String.ofList name, rest)
    else none
  | _, _ => none

def namedGroup (st : State) (cs : List Char) : Option (State × List Char) := do
  let (name, rest) ← groupName cs
  if st.names.contains name then none
  else
    let index := st.count + 1
    let st := { st with count := index, names := name :: st.names }
    return (st.openGroup (some index) st.flags, rest)

/-- What follows an opening parenthesis. -/
def groupOpening (st : State) (cs : List Char) : Option (State × List Char) :=
  match skip st.flags cs with
  | '?' :: 'P' :: '<' :: rest => namedGroup st rest
  | '?' :: '<' :: '=' :: _ => none
  | '?' :: '<' :: '!' :: _ => none
  | '?' :: '<' :: rest => namedGroup st rest
  | '?' :: rest => do
    let ((flags, items), rest) ← flagItems [] false st.flags rest
    match rest with
    | ':' :: rest => return (st.openGroup none flags, rest)
    | _ :: rest =>
      if items.isEmpty then none
      else
        let st := { st with flags }
        return (st.push { pattern := .empty, repeatable := false }, rest)
    | [] => none
  | rest =>
    let st := { st with count := st.count + 1 }
    some (st.openGroup (some st.count) st.flags, rest)

def dropSpaces (cs : List Char) : List Char := cs.dropWhile isSpace

/-- A count of a repetition, with blanks around it; no digits give none. -/
def countNumber (f : Flags) (cs : List Char) : Option (Option Nat × List Char) :=
  let (ds, rest) := takeWhile f Char.isDigit false (dropSpaces cs)
  let rest := dropSpaces rest
  if ds.isEmpty then some (none, rest)
  else
    let n := ds.foldl (fun n c => 10 * n + (c.toNat - '0'.toNat)) 0
    if n < Nat.pow 2 32 then some (some n, rest) else none

/-- The bounds of a counted repetition, after its brace. -/
def repetitionBounds (f : Flags) (cs : List Char) : Option ((Nat × Option Nat) × List Char) := do
  let (least, rest) ← countNumber f (skip f cs)
  let least ← least
  match rest with
  | '\x7d' :: rest => return ((least, some least), rest)
  | ',' :: rest =>
    match skip f rest with
    | '\x7d' :: rest => return ((least, none), rest)
    | rest =>
      let (most, rest) ← countNumber f rest
      let most ← most
      match rest with
      | '\x7d' :: rest => if least ≤ most then return ((least, some most), rest) else none
      | _ => none
  | _ => none

/-- A question mark that makes a repetition lazy. -/
def laziness (cs : List Char) : Bool × List Char :=
  match cs with
  | '?' :: rest => (false, rest)
  | _ => (true, cs)

def repetitionOf (st : State) (least : Nat) (most : Option Nat) (cs : List Char) :
    Option (State × List Char) := do
  let (greedy, rest) := laziness cs
  return (← st.repeat? least most greedy, rest)

/-- A character as a piece, closed under case if the flags ask for it. -/
def literal (f : Flags) (c : Nat) : Piece :=
  { pattern := if f.caseInsensitive then .ofSet (fold f (.single c)) else .text [Char.ofNat c] }

def dot? (f : Flags) : Option Piece :=
  if !f.unicode then none
  else
    let excluded : List (Nat × Nat) :=
      if f.dotMatchesNewline then []
      else if f.crlf then [(0xa, 0xa), (0xd, 0xd)]
      else [(0xa, 0xa)]
    some { pattern := .ofSet (CharSet.ofRanges excluded).compl }

def lineStart (f : Flags) : Assertion :=
  if f.multiLine then (if f.crlf then .crlfStart else .lineStart) else .textStart

def lineEnd (f : Flags) : Assertion :=
  if f.multiLine then (if f.crlf then .crlfEnd else .lineEnd) else .textEnd

def escapedPiece (f : Flags) (cs : List Char) : Option (Piece × List Char) := do
  match ← escape f cs with
  | (.char c asByte, rest) =>
    if asByte && !f.unicode && 128 ≤ c then none else return (literal f c, rest)
  | (.set s, rest) => return ({ pattern := .ofSet s }, rest)
  | (.assertion a, rest) => return ({ pattern := .assertion a }, rest)

/-- Reads one token, with fuel for those in it. -/
def step (fuel : Nat) (st : State) : List Char → Option (State × List Char)
  | [] => none
  | '(' :: rest => groupOpening st rest
  | ')' :: rest => do return (← st.closeGroup?, rest)
  | '|' :: rest => some (st.nextBranch, rest)
  | '[' :: rest => do
    let (negated, part, inside) := classOpening st.flags rest
    let ((s, depth), rest) ← classRest st.flags fuel negated none part inside
    return (st.push { pattern := .ofSet s, depth }, rest)
  | '?' :: rest => repetitionOf st 0 (some 1) rest
  | '*' :: rest => repetitionOf st 0 none rest
  | '+' :: rest => repetitionOf st 1 none rest
  | '\x7b' :: rest => do
    let ((least, most), rest) ← repetitionBounds st.flags rest
    repetitionOf st least most (skip st.flags rest)
  | '\\' :: rest => do
    let (p, rest) ← escapedPiece st.flags rest
    return (st.push p, rest)
  | '.' :: rest => do return (st.push (← dot? st.flags), rest)
  | '^' :: rest => some (st.push { pattern := .assertion (lineStart st.flags) }, rest)
  | '$' :: rest => some (st.push { pattern := .assertion (lineEnd st.flags) }, rest)
  | c :: rest => some (st.push (literal st.flags c.toNat), rest)

def run : Nat → State → List Char → Option State
  | 0, _, _ => none
  | fuel + 1, st, cs =>
    match skip st.flags cs with
    | [] => some st
    | cs => do
      let (st, rest) ← step fuel st cs
      run fuel st rest

end Reader

/-- Parts may not nest deeper than this. -/
def nestLimit : Nat := 250

/-- The pattern that a text spells, and the number of its groups. -/
def Pattern.read? (text : String) : Option (Pattern × Nat) := do
  let st ← Reader.run (text.length + 1) {} text.toList
  let whole := st.content
  if st.groups.isEmpty && decide (whole.depth ≤ nestLimit) && whole.pattern.fits then
    return (whole.pattern, st.count)
  else none

end Regex

end Entailment

import Entailment.Number.Layout
import Entailment.Number.Reading

/-!
# JSON values

A value keeps the literal of a number as it was written, so that a number is only
judged where it is used.  The content of a string is missing when an escape names
half of a surrogate pair; such a string can be skipped but not used.
-/

namespace Entailment

inductive Json where
  | null
  | bool (value : Bool)
  | number (literal : String)
  | string (content : Option String)
  | array (items : List Json)
  | object (members : List (Option String × Json))
deriving Inhabited

namespace Json

def ofText (s : String) : Json := .string (some s)

def ofNat (n : Nat) : Json := .number (toString n)

def ofInt (n : Int) : Json := .number (toString n)

/-- A number, or null for one that has no literal. -/
def ofDouble (d : Double) : Json :=
  if d.isNaN || d.isInfinite then .null else .number (FloatLayout.document.render d)

/-- An object with the given members. -/
def record (members : List (String × Json)) : Json :=
  .object (members.map fun (k, v) => (some k, v))

/-- An object with one member, whose key says what the value is. -/
def variant (tag : String) (value : Json) : Json := record [(tag, value)]

def ofOption {α : Type} (f : α → Json) : Option α → Json
  | some a => f a
  | none => .null

/-! ## Reading -/

namespace Reader

def isBlank (c : Char) : Bool := c == ' ' || c == '\n' || c == '\t' || c == '\r'

def skipBlanks (cs : List Char) : List Char := cs.dropWhile isBlank

def hexDigit? (c : Char) : Option Nat :=
  if '0' ≤ c ∧ c ≤ '9' then some (c.toNat - '0'.toNat)
  else if 'a' ≤ c ∧ c ≤ 'f' then some (c.toNat - 'a'.toNat + 10)
  else if 'A' ≤ c ∧ c ≤ 'F' then some (c.toNat - 'A'.toNat + 10)
  else none

def hexUnit? (a b c d : Char) : Option Nat := do
  return ((16 * (← hexDigit? a) + (← hexDigit? b)) * 16 + (← hexDigit? c)) * 16 + (← hexDigit? d)

def plainEscape? : Char → Option Char
  | '"' => some '"'
  | '\\' => some '\\'
  | '/' => some '/'
  | 'b' => some '\x08'
  | 'f' => some '\x0c'
  | 'n' => some '\n'
  | 'r' => some '\r'
  | 't' => some '\t'
  | _ => none

/-- A unit of a string: a character, or half of a surrogate pair. -/
inductive Unit16 where
  | char (c : Char)
  | half (n : Nat)

/-- The units of a string after its opening quote, and what follows the closing one. -/
def units : List Char → Option (List Unit16 × List Char)
  | [] => none
  | '"' :: rest => some ([], rest)
  | '\\' :: 'u' :: a :: b :: c :: d :: rest => do
    let n ← hexUnit? a b c d
    let (us, rest) ← units rest
    let u := if 0xd800 ≤ n ∧ n ≤ 0xdfff then Unit16.half n else .char (Char.ofNat n)
    return (u :: us, rest)
  | '\\' :: e :: rest => do
    let c ← plainEscape? e
    let (us, rest) ← units rest
    return (.char c :: us, rest)
  | c :: rest =>
    if c.toNat < 0x20 then none
    else do
      let (us, rest) ← units rest
      return (.char c :: us, rest)

/-- The characters of units in which every high half is followed by a low one. -/
def joinHalves : List Unit16 → Option (List Char)
  | [] => some []
  | .char c :: rest => (joinHalves rest).map (c :: ·)
  | .half high :: .half low :: rest =>
    if high < 0xdc00 ∧ 0xdc00 ≤ low then
      (joinHalves rest).map (Char.ofNat ((high - 0xd800) * 0x400 + (low - 0xdc00) + 0x10000) :: ·)
    else none
  | .half _ :: _ => none

/-- A string's content, after its opening quote. -/
def stringBody (cs : List Char) : Option (Option String × List Char) := do
  let (us, rest) ← units cs
  return ((joinHalves us).map String.ofList, rest)

/-- At least one digit. -/
def someDigits (cs : List Char) : Option (List Char × List Char) :=
  match Reading.digits cs with
  | ([], _) => none
  | parts => some parts

/-- Digits of a whole number, which do not begin with a superfluous zero. -/
def wholeDigits (cs : List Char) : Option (List Char × List Char) := do
  let (ds, rest) ← someDigits cs
  if ds.head? == some '0' && ds.length != 1 then none else some (ds, rest)

def fractionPart (cs : List Char) : Option (List Char × List Char) :=
  match cs with
  | '.' :: rest => do
    let (ds, rest) ← someDigits rest
    return ('.' :: ds, rest)
  | _ => some ([], cs)

def exponentPart (cs : List Char) : Option (List Char × List Char) :=
  match cs with
  | e :: rest =>
    if e == 'e' || e == 'E' then
      let (sign, rest) :=
        match rest with
        | '+' :: rest => (['+'], rest)
        | '-' :: rest => (['-'], rest)
        | _ => ([], rest)
      do
        let (ds, rest) ← someDigits rest
        return (e :: sign ++ ds, rest)
    else some ([], cs)
  | [] => some ([], [])

def numberLiteral (cs : List Char) : Option (List Char × List Char) := do
  let (sign, cs) :=
    match cs with
    | '-' :: rest => (['-'], rest)
    | _ => ([], cs)
  let (whole, cs) ← wholeDigits cs
  let (fraction, cs) ← fractionPart cs
  let (exponent, cs) ← exponentPart cs
  return (sign ++ whole ++ fraction ++ exponent, cs)

def word (name : String) (value : Json) (cs : List Char) : Option (Json × List Char) :=
  if name.toList.isPrefixOf cs then some (value, cs.drop name.length) else none

mutual
/-- A value at the beginning of a text; every step of nesting or repetition takes a
character. -/
def value : Nat → List Char → Option (Json × List Char)
  | 0, _ => none
  | fuel + 1, cs =>
    match skipBlanks cs with
    | [] => none
    | '"' :: rest => do
      let (content, rest) ← stringBody rest
      return (.string content, rest)
    | '[' :: rest =>
      match skipBlanks rest with
      | ']' :: rest => some (.array [], rest)
      | rest => do
        let (items, rest) ← itemsFrom fuel rest
        return (.array items, rest)
    | '\x7b' :: rest =>
      match skipBlanks rest with
      | '\x7d' :: rest => some (.object [], rest)
      | rest => do
        let (members, rest) ← membersFrom fuel rest
        return (.object members, rest)
    | 'n' :: rest => word "null" .null ('n' :: rest)
    | 't' :: rest => word "true" (.bool true) ('t' :: rest)
    | 'f' :: rest => word "false" (.bool false) ('f' :: rest)
    | c :: rest => do
      let (literal, rest) ← numberLiteral (c :: rest)
      return (.number (String.ofList literal), rest)

/-- The items of an array from the next one on, through the closing bracket. -/
def itemsFrom : Nat → List Char → Option (List Json × List Char)
  | 0, _ => none
  | fuel + 1, cs => do
    let (item, rest) ← value fuel cs
    match skipBlanks rest with
    | ']' :: rest => return ([item], rest)
    | ',' :: rest =>
      let (items, rest) ← itemsFrom fuel rest
      return (item :: items, rest)
    | _ => none

/-- The members of an object from the next one on, through the closing brace. -/
def membersFrom : Nat → List Char → Option (List (Option String × Json) × List Char)
  | 0, _ => none
  | fuel + 1, cs =>
    match skipBlanks cs with
    | '"' :: rest => do
      let (key, rest) ← stringBody rest
      match skipBlanks rest with
      | ':' :: rest =>
        let (item, rest) ← value fuel rest
        match skipBlanks rest with
        | '\x7d' :: rest => return ([(key, item)], rest)
        | ',' :: rest =>
          let (members, rest) ← membersFrom fuel rest
          return ((key, item) :: members, rest)
        | _ => none
      | _ => none
    | _ => none
end

end Reader

/-- The value that a text spells. -/
def read? (text : String) : Option Json := do
  let (v, rest) ← Reader.value (text.length + 1) text.toList
  if (Reader.skipBlanks rest).isEmpty then some v else none

/-! ## Writing -/

def hexChar (n : Nat) : Char := Nat.digitChar n

def escapeChar (c : Char) : List Char :=
  if c == '"' then ['\\', '"']
  else if c == '\\' then ['\\', '\\']
  else if c == '\n' then ['\\', 'n']
  else if c == '\r' then ['\\', 'r']
  else if c == '\t' then ['\\', 't']
  else if c == '\x08' then ['\\', 'b']
  else if c == '\x0c' then ['\\', 'f']
  else if c.toNat < 0x20 then ['\\', 'u', '0', '0', hexChar (c.toNat / 16), hexChar (c.toNat % 16)]
  else [c]

def quote (s : String) : String := String.ofList ('"' :: s.toList.flatMap escapeChar ++ ['"'])

mutual
/-- The text without blanks. -/
def compact : Json → String
  | null => "null"
  | bool b => if b then "true" else "false"
  | number literal => literal
  | string content => quote (content.getD "")
  | array items => "[" ++ ",".intercalate (compactItems items) ++ "]"
  | object members => "\x7b" ++ ",".intercalate (compactMembers members) ++ "\x7d"

def compactItems : List Json → List String
  | [] => []
  | v :: rest => v.compact :: compactItems rest

def compactMembers : List (Option String × Json) → List String
  | [] => []
  | (k, v) :: rest => (quote (k.getD "") ++ ":" ++ v.compact) :: compactMembers rest
end

def indentation (depth : Nat) : String := String.ofList (List.replicate (2 * depth) ' ')

/-- Items on lines of their own between two brackets. -/
def block (depth : Nat) (opening closing : String) (items : List String) : String :=
  if items.isEmpty then opening ++ closing
  else
    opening ++ "\n" ++
      ",\n".intercalate (items.map fun item => indentation (depth + 1) ++ item) ++
      "\n" ++ indentation depth ++ closing

mutual
/-- The text with one item a line, indented by two blanks a level. -/
def pretty (depth : Nat) : Json → String
  | array items => block depth "[" "]" (prettyItems (depth + 1) items)
  | object members => block depth "\x7b" "\x7d" (prettyMembers (depth + 1) members)
  | null => "null"
  | bool b => if b then "true" else "false"
  | number literal => literal
  | string content => quote (content.getD "")

def prettyItems (depth : Nat) : List Json → List String
  | [] => []
  | v :: rest => v.pretty depth :: prettyItems depth rest

def prettyMembers (depth : Nat) : List (Option String × Json) → List String
  | [] => []
  | (k, v) :: rest => (quote (k.getD "") ++ ": " ++ v.pretty depth) :: prettyMembers depth rest
end

end Json

end Entailment

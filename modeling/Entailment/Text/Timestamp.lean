import Entailment.Text.Unicode.Derived

/-!
# Timestamps

`Timestamp.isValid` accepts a date, a time of day and an offset from universal time
that name an instant, such as `2024-01-02T03:04:05Z`.  Blanks may stand between the
parts, fields may be shorter than usual, and a year may have a sign.
-/

namespace Entailment

namespace Timestamp

def isSpace (c : Char) : Bool := CharSet.whiteSpace.contains c.toNat

def trim (cs : List Char) : List Char := cs.dropWhile isSpace

/-- A number of at least one and at most `width` digits. -/
def number? (width : Nat) (cs : List Char) : Option (Nat × List Char) :=
  let ds := (cs.take width).takeWhile Char.isDigit
  if ds.isEmpty then none
  else some (ds.foldl (fun n c => 10 * n + (c.toNat - '0'.toNat)) 0, cs.drop ds.length)

/-- A number in a range, after blanks. -/
def field? (width low high : Nat) (cs : List Char) : Option (Nat × List Char) := do
  let (n, rest) ← number? width (trim cs)
  if low ≤ n ∧ n ≤ high then some (n, rest) else none

/-- A character between two fields, with blanks around it. -/
def separator? (c : Char) (cs : List Char) : Option (List Char) :=
  match trim cs with
  | d :: rest => if d == c then some (trim rest) else none
  | [] => none

structure Date where
  year : Int
  month : Nat
  day : Nat
deriving DecidableEq

/-- The first day of the calendar. -/
def firstDate : Date := ⟨-262143, 1, 1⟩

/-- The last day of the calendar. -/
def lastDate : Date := ⟨262142, 12, 31⟩

def year? (cs : List Char) : Option (Int × List Char) := do
  let (n, rest) ←
    match trim cs with
    | '-' :: rest => (number? rest.length rest).map fun (n, rest) => (-(n : Int), rest)
    | '+' :: rest => (number? rest.length rest).map fun (n, rest) => ((n : Int), rest)
    | cs => (number? 4 cs).map fun (n, rest) => ((n : Int), rest)
  if firstDate.year ≤ n ∧ n ≤ lastDate.year then some (n, rest) else none

def isLeapYear (y : Int) : Bool := (y % 4 == 0 && y % 100 != 0) || y % 400 == 0

def daysIn (y : Int) (month : Nat) : Nat :=
  if month = 2 then (if isLeapYear y then 29 else 28)
  else if month = 4 ∨ month = 6 ∨ month = 9 ∨ month = 11 then 30
  else 31

def date? (cs : List Char) : Option (Date × List Char) := do
  let (y, rest) ← year? cs
  let (m, rest) ← field? 2 1 12 (← separator? '-' rest)
  let (d, rest) ← field? 2 1 31 (← separator? '-' rest)
  if d ≤ daysIn y m then some (⟨y, m, d⟩, rest) else none

/-- Digits after a point, if there is one. -/
def fraction? (cs : List Char) : Option (List Char) :=
  match cs with
  | '.' :: rest => do
    let (_, _) ← number? 9 rest
    return rest.dropWhile Char.isDigit
  | _ => some cs

/-- The seconds since midnight.  A leap second counts with the second before it. -/
def time? (cs : List Char) : Option (Nat × List Char) := do
  let (h, rest) ← field? 2 0 23 cs
  let (m, rest) ← field? 2 0 59 (← separator? ':' rest)
  let (s, rest) ← field? 2 0 60 (← separator? ':' rest)
  return (3600 * h + 60 * m + min s 59, ← fraction? rest)

/-- The number that two digits stand for. -/
def twoDigits? (a b : Char) : Option Nat :=
  if a.isDigit && b.isDigit then
    some (10 * (a.toNat - '0'.toNat) + (b.toNat - '0'.toNat))
  else none

/-- The seconds of an offset: hours and minutes, with colons or blanks between them. -/
def clockOffset? (cs : List Char) : Option (Nat × List Char) :=
  match cs with
  | a :: b :: rest => do
    let hours ← twoDigits? a b
    match rest.dropWhile fun c => c == ':' || isSpace c with
    | c :: d :: rest =>
      let minutes ← twoDigits? c d
      if hours < 24 ∧ minutes < 60 then some (3600 * hours + 60 * minutes, rest) else none
    | _ => none
  | _ => none

/-- The seconds by which the time of day is ahead of universal time. -/
def offset? (cs : List Char) : Option (Int × List Char) :=
  let ahead (r : Nat × List Char) : Int × List Char := (r.1, r.2)
  let behind (r : Nat × List Char) : Int × List Char := (-r.1, r.2)
  match cs with
  | 'Z' :: rest => some (0, rest)
  | 'z' :: rest => some (0, rest)
  | '+' :: rest => (clockOffset? rest).map ahead
  | '-' :: rest => (clockOffset? rest).map behind
  | '\u2212' :: rest => (clockOffset? rest).map behind
  | _ =>
    if (cs.take 3).map Char.toUpper == "UTC".toList then some (0, cs.drop 3) else none

/-- In universal time the instant lies in the calendar, too. -/
def isInCalendar (date : Date) (seconds : Nat) (offset : Int) : Bool :=
  let universal := (seconds : Int) - offset
  !(decide (universal < 0) && date == firstDate) &&
    !(decide (86400 ≤ universal) && date == lastDate)

def isValid (text : String) : Bool :=
  let valid? : Option Bool := do
    match ← date? text.toList with
    | (date, c :: rest) =>
      if c == 'T' || c == 't' || c == ' ' then
        let (seconds, rest) ← time? rest
        let (offset, rest) ← offset? (trim rest)
        return (trim rest).isEmpty && isInCalendar date seconds offset
      else none
    | (_, []) => none
  valid?.getD false

end Timestamp

end Entailment

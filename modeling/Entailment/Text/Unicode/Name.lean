import Entailment.Text.Unicode.Age
import Entailment.Text.Unicode.ScriptExtension
import Entailment.Text.Unicode.Segmentation

/-!
# Names of sets of characters

A name alone stands for a property, a category or a script; a property with a value
stands for the characters that have it.  Case, spaces, hyphens and underscores in
names do not matter.
-/

namespace Entailment

namespace CharSet

open Unicode

/-- The categories that a short or long name of a group stands for. -/
def categoryGroup? (name : String) : Option (List String) :=
  if ["lc", "casedletter"].contains name then some ["lu", "ll", "lt"]
  else if ["l", "letter"].contains name then some ["lu", "ll", "lt", "lm", "lo"]
  else if ["m", "mark", "combiningmark"].contains name then some ["mn", "mc", "me"]
  else if ["n", "number"].contains name then some ["nd", "nl", "no"]
  else if ["p", "punctuation", "punct"].contains name then
    some ["pc", "pd", "ps", "pe", "pi", "pf", "po"]
  else if ["s", "symbol"].contains name then some ["sm", "sc", "sk", "so"]
  else if ["z", "separator"].contains name then some ["zs", "zl", "zp"]
  else none

/-- The set of a general category, by a normalized name. -/
def category? (name : String) : Option CharSet :=
  match categoryGroup? name with
  | some names => some (categories.unionOf names)
  | none =>
    if name == "any" then some all
    else if name == "ascii" then some (ofRanges [(0, 0x7f)])
    else if name == "assigned" then some assigned
    else if ["cn", "unassigned"].contains name then some unassigned
    else if ["c", "other"].contains name then
      some (unassigned.union (categories.unionOf ["cc", "cf", "co"]))
    else categories.get? name

def script? (name : String) : Option CharSet := scripts.get? name

/-- The characters used in a script: those listed for it, and those of the script
itself that are not listed. -/
def scriptExtension? (name : String) : Option CharSet := do
  let (names, own) ← scripts.find? fun entry => entry.1.contains name
  let short ← names.head?
  let listed := scriptExtensions.filter fun entry => entry.1.contains short
  return ((membersOf own).diff scriptExtensions.all).union (Table.all listed)

/-- The code points that a version of the standard knows. -/
def age? (version : String) : Option CharSet :=
  let older := ages.takeWhile fun entry => !entry.1.contains version
  if older.length < ages.length then some (Table.all (ages.take (older.length + 1))) else none

/-- The set of a binary property, by a normalized name. -/
def property? (name : String) : Option CharSet :=
  match derivedProperties.find? fun entry => entry.1.contains name with
  | some entry => some entry.2
  | none => properties.get? name

/-- A name without regard to case, spaces, hyphens, underscores and characters beyond
ASCII, and without a leading `is`. -/
def normalizedName (name : String) : String :=
  let plain (cs : List Char) : List Char :=
    (cs.filter fun c => c.toNat < 0x80 && c != ' ' && c != '-' && c != '_').map Char.toLower
  match name.toList with
  | i :: s :: rest =>
    if i.toLower == 'i' && s.toLower == 's' then
      if plain rest == ['c'] then "isc" else String.ofList (plain rest)
    else String.ofList (plain (i :: s :: rest))
  | cs => String.ofList (plain cs)

/-- The set that a name stands for.  Three short names stand for categories, although
properties have them as well. -/
def ofName? (name : String) : Option CharSet :=
  let plain := normalizedName name
  let property := if ["cf", "sc", "lc"].contains plain then none else property? plain
  (property.or (category? plain)).or (script? plain)

/-- The set that the value of a property stands for. -/
def ofProperty? (property value : String) : Option CharSet :=
  let property := normalizedName property
  let value := normalizedName value
  if ["gc", "generalcategory"].contains property then category? value
  else if ["sc", "script"].contains property then script? value
  else if ["scx", "scriptextensions"].contains property then scriptExtension? value
  else if property == "age" then age? value
  else if ["gcb", "graphemeclusterbreak"].contains property then graphemeBreak? value
  else if ["wb", "wordbreak"].contains property then wordBreak? value
  else if ["sb", "sentencebreak"].contains property then sentenceBreak? value
  else none

def asciiDigit : CharSet := ofRanges [(0x30, 0x39)]

def asciiSpace : CharSet := ofRanges [(0x9, 0xd), (0x20, 0x20)]

def asciiWord : CharSet := ofRanges [(0x30, 0x39), (0x41, 0x5a), (0x5f, 0x5f), (0x61, 0x7a)]

/-- The set of a bracketed class name. -/
def ofAsciiClass? (name : String) : Option CharSet :=
  match name with
  | "alnum" => some (ofRanges [(0x30, 0x39), (0x41, 0x5a), (0x61, 0x7a)])
  | "alpha" => some (ofRanges [(0x41, 0x5a), (0x61, 0x7a)])
  | "ascii" => some (ofRanges [(0, 0x7f)])
  | "blank" => some (ofRanges [(0x9, 0x9), (0x20, 0x20)])
  | "cntrl" => some (ofRanges [(0, 0x1f), (0x7f, 0x7f)])
  | "digit" => some asciiDigit
  | "graph" => some (ofRanges [(0x21, 0x7e)])
  | "lower" => some (ofRanges [(0x61, 0x7a)])
  | "print" => some (ofRanges [(0x20, 0x7e)])
  | "punct" => some (ofRanges [(0x21, 0x2f), (0x3a, 0x40), (0x5b, 0x60), (0x7b, 0x7e)])
  | "space" => some asciiSpace
  | "upper" => some (ofRanges [(0x41, 0x5a)])
  | "word" => some asciiWord
  | "xdigit" => some (ofRanges [(0x30, 0x39), (0x41, 0x46), (0x61, 0x66)])
  | _ => none

end CharSet

end Entailment

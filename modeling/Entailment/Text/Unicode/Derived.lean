import Entailment.Text.Unicode.Category
import Entailment.Text.Unicode.Property

/-!
# Derived properties

Some properties are unions and differences of categories and other properties.
-/

namespace Entailment

namespace CharSet

open Unicode

/-- All categories that the table lists. -/
def assigned : CharSet := categories.all

def unassigned : CharSet := assigned.compl

def letter : CharSet := categories.unionOf ["lu", "ll", "lt", "lm", "lo"]

def mark : CharSet := categories.unionOf ["mn", "mc", "me"]

def decimalDigit : CharSet := categories.get "nd"

def whiteSpace : CharSet := properties.get "whitespace"

def alphabetic : CharSet :=
  unionOf [letter, categories.get "nl", properties.get "otheralphabetic"]

def lowercase : CharSet := (categories.get "ll").union (properties.get "otherlowercase")

def uppercase : CharSet := (categories.get "lu").union (properties.get "otheruppercase")

def cased : CharSet := unionOf [lowercase, uppercase, categories.get "lt"]

def mathematical : CharSet := (categories.get "sm").union (properties.get "othermath")

/-- The characters that may begin an identifier. -/
def identifierStart : CharSet :=
  (unionOf [letter, categories.get "nl", properties.get "otheridstart"]).diff
    (properties.unionOf ["patternsyntax", "patternwhitespace"])

/-- The characters that may stand in an identifier. -/
def identifierPart : CharSet :=
  unionOf [identifierStart, categories.unionOf ["mn", "mc", "nd", "pc"],
    properties.get "otheridcontinue"]

/-- Characters whose compatibility forms do not keep to the rules of identifiers. -/
def unstablePart : CharSet :=
  ofRanges [(0x37a, 0x37a), (0x309b, 0x309c), (0xfc5e, 0xfc63), (0xfdfa, 0xfdfb),
    (0xfe70, 0xfe70), (0xfe72, 0xfe72), (0xfe74, 0xfe74), (0xfe76, 0xfe76), (0xfe78, 0xfe78),
    (0xfe7a, 0xfe7a), (0xfe7c, 0xfe7c), (0xfe7e, 0xfe7e)]

/-- Characters whose compatibility forms may stand in identifiers but not begin them. -/
def unstableStart : CharSet :=
  unstablePart.union (ofRanges [(0xe33, 0xe33), (0xeb3, 0xeb3), (0xff9e, 0xff9f)])

def stableIdentifierStart : CharSet := identifierStart.diff unstableStart

def stableIdentifierPart : CharSet := identifierPart.diff unstablePart

def defaultIgnorable : CharSet :=
  (unionOf [categories.get "cf", properties.get "variationselector",
    properties.get "otherdefaultignorablecodepoint"]).diff
    (unionOf [properties.get "prependedconcatenationmark",
      ofRanges [(0xfff9, 0xfffb), (0x13430, 0x1343f)]])

/-- Marks that join the character before them. -/
def graphemeExtend : CharSet :=
  (categories.unionOf ["mn", "me"]).union (properties.get "othergraphemeextend")

def graphemeBase : CharSet :=
  assigned.diff ((categories.unionOf ["cc", "cf", "co", "zl", "zp"]).union graphemeExtend)

/-- Punctuation that may stand inside a word. -/
def midWord : CharSet :=
  ofRanges [(0x27, 0x27), (0x2e, 0x2e), (0x3a, 0x3a), (0xb7, 0xb7), (0x387, 0x387),
    (0x55f, 0x55f), (0x5f4, 0x5f4), (0x2018, 0x2019), (0x2024, 0x2024), (0x2027, 0x2027),
    (0xfe13, 0xfe13), (0xfe52, 0xfe52), (0xfe55, 0xfe55), (0xff07, 0xff07), (0xff0e, 0xff0e),
    (0xff1a, 0xff1a)]

def caseIgnorable : CharSet :=
  (categories.unionOf ["mn", "me", "cf", "lm", "sk"]).union midWord

def changesWhenCasemapped : CharSet :=
  properties.unionOf
    ["changeswhenlowercased", "changeswhenuppercased", "changeswhentitlecased"]

/-- Letters, numbers of every kind. -/
def alphanumeric : CharSet := alphabetic.union (categories.unionOf ["nd", "nl", "no"])

/-- What words are made of: letters, marks, digits, connectors and joiners. -/
def word : CharSet :=
  unionOf [alphabetic, mark, decimalDigit, categories.get "pc", properties.get "joincontrol"]

end CharSet

namespace Unicode

/-- Names and members of the derived properties. -/
def derivedProperties : List (List String × CharSet) :=
  [ (["alpha", "alphabetic"], .alphabetic),
    (["lower", "lowercase"], .lowercase),
    (["upper", "uppercase"], .uppercase),
    (["cased"], .cased),
    (["ci", "caseignorable"], .caseIgnorable),
    (["cwcm", "changeswhencasemapped"], .changesWhenCasemapped),
    (["math"], .mathematical),
    (["ids", "idstart"], .identifierStart),
    (["idc", "idcontinue"], .identifierPart),
    (["xids", "xidstart"], .stableIdentifierStart),
    (["xidc", "xidcontinue"], .stableIdentifierPart),
    (["di", "defaultignorablecodepoint"], .defaultIgnorable),
    (["grext", "graphemeextend"], .graphemeExtend),
    (["grbase", "graphemebase"], .graphemeBase) ]

end Unicode

end Entailment

import Entailment.Text.Unicode.Derived
import Entailment.Text.Unicode.Script

/-!
# Segmentation of text

The classes of characters that decide where graphemes, words and sentences end.
-/

namespace Entailment

namespace CharSet

open Unicode

def lineFeed : CharSet := single 0xa

def carriageReturn : CharSet := single 0xd

def zeroWidthJoiner : CharSet := single 0x200d

def emojiModifier : CharSet := properties.get "emojimodifier"

def regionalIndicator : CharSet := properties.get "regionalindicator"

def format : CharSet :=
  (categories.get "cf").diff (properties.get "prependedconcatenationmark")

/-! ## Graphemes -/

/-- What begins no grapheme but follows on its base. -/
def graphemeFollower : CharSet := graphemeExtend.union emojiModifier

def graphemeControl : CharSet :=
  (unionOf [categories.unionOf ["zl", "zp", "cc"], format, unassigned.inter defaultIgnorable]).diff
    (unionOf [carriageReturn, lineFeed, zeroWidthJoiner, graphemeFollower])

/-- Spacing marks of scripts in which they stand apart. -/
def standingMark : CharSet :=
  ofRanges [(0x102b, 0x102c), (0x1038, 0x1038), (0x1062, 0x1064), (0x1067, 0x106d),
    (0x1083, 0x1083), (0x1087, 0x108c), (0x108f, 0x108f), (0x109a, 0x109c), (0x1a61, 0x1a61),
    (0x1a63, 0x1a64), (0xaa7b, 0xaa7b), (0xaa7d, 0xaa7d), (0x11720, 0x11721)]

def graphemeSpacingMark : CharSet :=
  ((categories.get "mc").union (ofRanges [(0xe33, 0xe33), (0xeb3, 0xeb3)])).diff
    (graphemeFollower.union standingMark)

def graphemePrepend : CharSet :=
  (properties.get "prependedconcatenationmark").union <|
    ofRanges [(0xd4e, 0xd4e), (0x111c2, 0x111c3), (0x113d1, 0x113d1), (0x1193f, 0x1193f),
      (0x11941, 0x11941), (0x11a84, 0x11a89), (0x11d46, 0x11d46), (0x11f02, 0x11f02)]

def syllable : CharSet := ofRanges [(0xac00, 0xd7a3)]

/-- Syllables without a final consonant: every twenty-eighth. -/
def openSyllable : CharSet := ofRanges (Run.ranges ⟨0xac00, 0xd788, 28⟩)

/-- A class of the segmentation into graphemes. -/
def graphemeBreak? (name : String) : Option CharSet :=
  if ["cn", "control"].contains name then some graphemeControl
  else if name == "cr" then some carriageReturn
  else if name == "lf" then some lineFeed
  else if name == "zwj" then some zeroWidthJoiner
  else if ["ex", "extend"].contains name then some graphemeFollower
  else if ["pp", "prepend"].contains name then some graphemePrepend
  else if ["ri", "regionalindicator"].contains name then some regionalIndicator
  else if ["sm", "spacingmark"].contains name then some graphemeSpacingMark
  else if name == "l" then some (ofRanges [(0x1100, 0x115f), (0xa960, 0xa97c)])
  else if name == "v" then
    some (ofRanges [(0x1160, 0x11a7), (0xd7b0, 0xd7c6), (0x16d63, 0x16d63), (0x16d67, 0x16d6a)])
  else if name == "t" then some (ofRanges [(0x11a8, 0x11ff), (0xd7cb, 0xd7fb)])
  else if name == "lv" then some openSyllable
  else if name == "lvt" then some (syllable.diff openSyllable)
  else none

/-! ## Words -/

def hebrewLetter : CharSet := (scripts.get "hebrew").inter (categories.get "lo")

def wordKatakana : CharSet :=
  (scripts.get "katakana").union <|
    ofRanges [(0x3031, 0x3035), (0x309b, 0x309c), (0x30a0, 0x30a0), (0x30fc, 0x30fc),
      (0xff70, 0xff70)]

/-- What follows on the character before it. -/
def wordExtend : CharSet :=
  unionOf [graphemeExtend, categories.get "mc", emojiModifier]

/-- Letters of scripts that are written without spaces between words. -/
def unspacedLetter : CharSet :=
  membersOf ("e01-e30 e32-e33 e40-e46 e81-e82 e84 e86-e8a e8c-ea3 ea5 ea7-eb0 eb2-eb3 ebd " ++
    "ec0-ec4 ec6 edc-edf 1000-102a 103f 1050-1055 105a-105d 1061 1065-1066 106e-1070 " ++
    "1075-1081 108e 1780-17b3 17d7 17dc 1950-196d 1970-1974 1980-19ab 19b0-19c9 1a20-1a54 " ++
    "1aa7 a9e0-a9e4 a9e6-a9ef a9fa-a9fe aa60-aa76 aa7a aa7e-aaaf aab1 aab5-aab6 aab9-aabd " ++
    "aac0 aac2 aadb-aadd 11700-1171a 11740-11746")

/-- Signs that stand in words like letters. -/
def letterlike : CharSet :=
  membersOf ("b8 2c2-2c5 2d2-2d7 2de-2df 2e5-2eb 2ed 2ef-2ff 55a-55c 55e 58a 5f3 70f " ++
    "a708-a716 a720-a721 a789-a78a ab5b")

def wordLetter : CharSet :=
  (alphabetic.diff
    (unionOf [properties.get "ideographic", wordKatakana, scripts.get "hiragana", wordExtend,
      hebrewLetter, unspacedLetter])).union letterlike

/-- Digits and the signs that stand among them. -/
def numeric : CharSet :=
  decimalDigit.union (membersOf "600-605 66b 6dd 890-891 8e2 19da 110bd 110cd")

/-- A class of the segmentation into words. -/
def wordBreak? (name : String) : Option CharSet :=
  if ["le", "aletter"].contains name then some wordLetter
  else if name == "cr" then some carriageReturn
  else if name == "lf" then some lineFeed
  else if name == "zwj" then some zeroWidthJoiner
  else if ["dq", "doublequote"].contains name then some (single 0x22)
  else if ["sq", "singlequote"].contains name then some (single 0x27)
  else if name == "extend" then some wordExtend
  else if ["ex", "extendnumlet"].contains name then
    some ((categories.get "pc").union (single 0x202f))
  else if ["fo", "format"].contains name then
    some (format.diff (unionOf [single 0x200b, zeroWidthJoiner, wordExtend]))
  else if ["hl", "hebrewletter"].contains name then some hebrewLetter
  else if ["ka", "katakana"].contains name then some wordKatakana
  else if ["ml", "midletter"].contains name then
    some (membersOf "3a b7 387 55f 5f4 2027 fe13 fe55 ff1a")
  else if ["mn", "midnum"].contains name then
    some (membersOf "2c 3b 37e 589 60c-60d 66c 7f8 2044 fe50 fe54 ff0c ff1b")
  else if ["mb", "midnumlet"].contains name then
    some (membersOf "2e 2018-2019 2024 fe52 ff07 ff0e")
  else if ["nl", "newline"].contains name then some (membersOf "b-c 85 2028-2029")
  else if ["nu", "numeric"].contains name then some numeric
  else if ["ri", "regionalindicator"].contains name then some regionalIndicator
  else if name == "wsegspace" then
    some ((categories.get "zs").diff (membersOf "a0 2007 202f"))
  else none

/-! ## Sentences -/

/-- A letter that has a second form for headlines, and its capitals. -/
def headlineForms : CharSet := membersOf "10d0-10fa 10fd-10ff 1c90-1cba 1cbd-1cbf"

def sentenceLower : CharSet := lowercase.diff (graphemeExtend.union headlineForms)

def sentenceUpper : CharSet :=
  (uppercase.union (categories.get "lt")).diff headlineForms

def sentenceExtend : CharSet :=
  unionOf [graphemeExtend, categories.get "mc", zeroWidthJoiner]

def fullStop : CharSet := membersOf "2e 2024 fe52 ff0e"

/-- A class of the segmentation into sentences. -/
def sentenceBreak? (name : String) : Option CharSet :=
  if ["at", "aterm"].contains name then some fullStop
  else if name == "cr" then some carriageReturn
  else if name == "lf" then some lineFeed
  else if ["cl", "close"].contains name then
    some (((categories.unionOf ["ps", "pe"]).union
      ((properties.get "quotationmark").union
        (membersOf "275b-2760 2e00-2e0d 2e1c-2e1d 2e20-2e21 1f676-1f678"))).diff
      (membersOf "ff02 ff07"))
  else if ["ex", "extend"].contains name then some sentenceExtend
  else if ["fo", "format"].contains name then
    some ((format.diff sentenceExtend).union (single 0x70f))
  else if ["lo", "lower"].contains name then some sentenceLower
  else if ["nu", "numeric"].contains name then some (numeric.union (single 0x66c))
  else if ["le", "oletter"].contains name then
    some ((alphabetic.diff (unionOf [sentenceLower, sentenceUpper, sentenceExtend])).union
      (single 0x5f3))
  else if ["sc", "scontinue"].contains name then
    some (membersOf ("2c-2d 3a-3b 37e 55d 60c-60d 7f8 1802 1808 2013-2014 3001 fe10-fe11 " ++
      "fe13-fe14 fe31-fe32 fe50-fe51 fe54-fe55 fe58 fe63 ff0c-ff0d ff1a-ff1b ff64"))
  else if ["st", "sterm"].contains name then
    some ((properties.get "sentenceterminal").diff fullStop)
  else if ["se", "sep"].contains name then some (membersOf "85 2028-2029")
  else if name == "sp" then some (whiteSpace.diff (membersOf "a d 85 2028-2029"))
  else if ["up", "upper"].contains name then some sentenceUpper
  else none

end CharSet

end Entailment

import Entailment.Text.Unicode.Derived

/-!
# Quoted text for display

`Quoted.text` puts a text in quotes so that it can be read on a screen: quotes,
backslashes and the usual control characters are escaped by a letter, and other
characters that would not show by themselves by their number.
-/

namespace Entailment

namespace CharSet

/-- Characters that show by themselves: assigned ones other than controls, formats,
private ones and separators, but also the space. -/
def printable : CharSet :=
  (assigned.diff (Unicode.categories.unionOf ["cc", "cf", "co", "zl", "zp", "zs"])).union
    (single 0x20)

/-- Characters that show after any other: marks would join the one before. -/
def showable : CharSet := printable.diff graphemeExtend

end CharSet

namespace Quoted

/-- The number of a character in hexadecimal, such as `\u{7f}`. -/
def byNumber (c : Char) : List Char :=
  "\\u\x7b".toList ++ Nat.toDigits 16 c.toNat ++ ['\x7d']

def escape (c : Char) : List Char :=
  if c == '\x00' then "\\0".toList
  else if c == '\t' then "\\t".toList
  else if c == '\n' then "\\n".toList
  else if c == '\r' then "\\r".toList
  else if c == '\\' then "\\\\".toList
  else if c == '"' then "\\\"".toList
  else if CharSet.showable.contains c.toNat then [c]
  else byNumber c

def text (s : String) : String := String.ofList ('"' :: s.toList.flatMap escape ++ ['"'])

end Quoted

end Entailment

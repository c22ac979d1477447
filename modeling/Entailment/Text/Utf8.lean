import Entailment.Text.CharSet

/-!
# Ranges of characters in UTF-8

`Utf8.sequences` cuts a range of code points into pieces whose encodings are
products of ranges of bytes.
-/

namespace Entailment

namespace Utf8

/-- The first and last byte that may stand at a place of an encoding. -/
abbrev ByteRange := UInt8 × UInt8

/-- The largest ranges of code points with encodings of one length. -/
def lengths : List (Nat × Nat) :=
  [(0, 0x7f), (0x80, 0x7ff), (0x800, 0xd7ff), (0xe000, 0xffff), (0x10000, 0x10ffff)]

/-- A range that begins with a block of `width`, cut so that its last block is whole. -/
def cutEnd (width : Nat) (r : Nat × Nat) : List (Nat × Nat) :=
  let (a, b) := r
  if a / width = b / width ∨ b % width = width - 1 then [(a, b)]
  else [(a, b / width * width - 1), (b / width * width, b)]

/-- A range cut so that all blocks of `width` are whole, unless it lies in one block. -/
def cut (width : Nat) (r : Nat × Nat) : List (Nat × Nat) :=
  let (a, b) := r
  if a / width = b / width ∨ a % width = 0 then cutEnd width (a, b)
  else (a, a / width * width + width - 1) :: cutEnd width (a / width * width + width, b)

/-- The bytes that differ between the ends of a range without incomplete blocks. -/
def encode (r : Nat × Nat) : List ByteRange :=
  (String.utf8EncodeChar (Char.ofNat r.1)).zip (String.utf8EncodeChar (Char.ofNat r.2))

/-- The encodings of the code points of a range, in order. -/
def sequences (r : Nat × Nat) : List (List ByteRange) :=
  let pieces := lengths.filterMap fun l =>
    let piece := (max r.1 l.1, min r.2 l.2)
    if piece.1 ≤ piece.2 then some piece else none
  pieces.flatMap fun piece =>
    if piece.2 ≤ 0x7f then [encode piece]
    else (((cut 64 piece).flatMap (cut 4096)).flatMap (cut 262144)).map encode

/-- The encodings of the members of a set, in order. -/
def sequencesOf (s : CharSet) : List (List ByteRange) := s.ranges.flatMap sequences

end Utf8

end Entailment

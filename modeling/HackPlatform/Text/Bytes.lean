/-!
# Byte strings

All texts that the tool chain reads or writes are byte strings. Nothing says that they are valid UTF-8: file names,
sources and messages pass through unchanged, whatever they hold.
-/

namespace HackPlatform

/-- A text: a finite sequence of bytes. -/
abbrev Bytes := List UInt8

/-- The bytes of a text whose characters all fit one byte. -/
def ascii (s : String) : Bytes := s.toList.map fun c => c.toNat.toUInt8

/-- The byte of a character that fits one byte. -/
def byteOf (c : Char) : UInt8 := c.toNat.toUInt8

namespace Bytes

/-- The text without `tail` at its end, or the text itself if it does not end so. -/
def dropEnding (tail text : Bytes) : Bytes :=
  if tail.isSuffixOf text then text.take (text.length - tail.length) else text

/-- Splits at the first occurrence of `sep`, which belongs to neither part. -/
def splitAtFirst? (sep : UInt8) (text : Bytes) : Option (Bytes × Bytes) :=
  if text.contains sep then
    some (text.takeWhile (· != sep), (text.dropWhile (· != sep)).drop 1)
  else none

/-- The pieces between consecutive occurrences of `sep`; there is always one more piece than occurrences. The
accumulators hold the current piece and the finished ones, both reversed. -/
def piecesFrom (sep : UInt8) : Bytes → List Bytes → Bytes → List Bytes
  | current, done, [] => (current.reverse :: done).reverse
  | current, done, b :: rest =>
    if b = sep then piecesFrom sep [] (current.reverse :: done) rest
    else piecesFrom sep (b :: current) done rest

/-- The pieces between consecutive occurrences of `sep`. -/
def pieces (sep : UInt8) (text : Bytes) : List Bytes := piecesFrom sep [] [] text

/-- Lower case of an ASCII letter; every other byte is kept. -/
def lowerByte (b : UInt8) : UInt8 := if 65 ≤ b && b ≤ 90 then b + 32 else b

/-- The text with its ASCII letters in lower case. -/
def lower (text : Bytes) : Bytes := text.map lowerByte

/-- Joins texts with a separator between neighbours. -/
def joinWith (sep : Bytes) : List Bytes → Bytes
  | [] => []
  | first :: rest => first ++ (rest.map (sep ++ ·)).flatten

/-- Is the byte a decimal digit? -/
def isDigit (b : UInt8) : Bool := 48 ≤ b && b ≤ 57

/-- Is the byte an ASCII letter? -/
def isLetter (b : UInt8) : Bool := (65 ≤ b && b ≤ 90) || (97 ≤ b && b ≤ 122)

end Bytes

end HackPlatform

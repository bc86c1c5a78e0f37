import HackPlatform.Text.Utf8
import HackPlatform.Text.Printable

/-!
# Quoted text

Messages show foreign text between quotes. Printable characters stand for themselves; the rest is escaped, with a short
form for the usual control characters, `\x` and two digits for other ASCII and for undecodable bytes, and `\u` or `\U`
with four or eight digits for all other code points.
-/

namespace HackPlatform.Quoted

/-- The lower-case hexadecimal digit of a number below sixteen. -/
def hexDigit (n : Nat) : UInt8 := if n < 10 then (48 + n).toUInt8 else (87 + n).toUInt8

/-- The last `width` hexadecimal digits of a number. -/
def hex : Nat → Nat → Bytes
  | 0, _ => []
  | width + 1, n => hex width (n / 16) ++ [hexDigit (n % 16)]

/-- The letter of the short escape of a control character. -/
def shortEscape? : Nat → Option Char
  | 7 => some 'a'
  | 8 => some 'b'
  | 12 => some 'f'
  | 10 => some 'n'
  | 13 => some 'r'
  | 9 => some 't'
  | 11 => some 'v'
  | _ => none

/-- A code point between quotes of the given kind. -/
def escape (mark : UInt8) (code : Nat) : Bytes :=
  if code = mark.toNat || code = 92 then [92, code.toUInt8]
  else if isPrintable code then Rune.encode code
  else match shortEscape? code with
    | some c => [92, byteOf c]
    | none =>
      if code < 0x20 || code = 0x7F then ascii "\\x" ++ hex 2 code
      else if code < 0x10000 then ascii "\\u" ++ hex 4 code
      else ascii "\\U" ++ hex 8 code

/-- A rune between double quotes. -/
def ofRune (r : Rune) : Bytes :=
  if r.isUndecodable then ascii "\\x" ++ hex 2 (r.bytes.headD 0).toNat else escape 34 r.code

def text (s : Bytes) : Bytes := [34] ++ (Rune.decode s).flatMap ofRune ++ [34]

/-- A single byte, taken for a code point, in single quotes. -/
def byte (b : UInt8) : Bytes := [39] ++ escape 39 b.toNat ++ [39]

end HackPlatform.Quoted
